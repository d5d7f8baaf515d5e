import X64OS.Fs.Tmpfs

namespace X64OS.Fs

open Framework

/-- The copy that a read or write makes: count bytes from the offset on, both of 64
bits. The count is also what the call returns. -/
structure Transfer where
  offset : Nat
  count : Nat

def actualCount (past : Bool) (size offset count : Nat) : Nat :=
  if past then sub64 count (sub64 (add64 offset count) size) else count

/-- tmpfs_resource_read compares as off_t. -/
def tmpfsReadTransfer (stSize offset count : Nat) : Transfer :=
  ⟨offset,actualCount (decide (offT stSize ≤ offT (add64 offset count))) stSize offset count⟩

def devtmpfsReadTransfer (stSize offset count : Nat) : Transfer :=
  ⟨offset,actualCount (decide (offT stSize ≤ offT (add64 offset count))) stSize offset count⟩

/-- fbdev_read compares as size_t. -/
def fbdevRead (smemLen offset count : Nat) : Transfer :=
  if count=0 then ⟨offset,0⟩
  else ⟨offset,actualCount (decide (smemLen < add64 offset count)) smemLen offset count⟩

def fbdevWrite (smemLen offset count : Nat) : Transfer :=
  if count=0 then ⟨offset,0⟩
  else ⟨offset,actualCount (decide (smemLen < add64 offset count)) smemLen offset count⟩

theorem tmpfsResourceRead_eq (r : Resource) (offset count : Nat) :
    tmpfsResourceRead r offset count=
      let t := tmpfsReadTransfer r.stSize offset count
      if t.offset+t.count ≤ r.capacity then some (t.count,window r.data t.offset t.count)
      else none := by
  simp only [tmpfsResourceRead,tmpfsReadTransfer,actualCount,decide_eq_true_eq]

/-- The transfer touches bytes of the object only, and returns how many there are
from an offset inside it, and otherwise 0 or an error. -/
structure Transfer.Bounded (t : Transfer) (size count : Nat) : Prop where
  inside : ∀ k < t.count, add64 t.offset k < size
  result : 0 ≤ offT t.offset → offT t.offset ≤ size →
    offT t.count=min (count : Int) (size-offT t.offset)
  otherwise : ¬(0 ≤ offT t.offset ∧ offT t.offset ≤ size) → offT t.count ≤ 0

theorem Transfer.bounded_iff {t : Transfer} {size count : Nat} (hsize : size < 2^63)
    (ho : t.offset < 2^64) (hcount : t.count < 2^64) :
    t.Bounded size count ↔ t.count=if t.offset ≤ size then min count (size-t.offset) else 0 := by
  have hin : 0 ≤ offT t.offset ∧ offT t.offset ≤ size ↔ t.offset ≤ size := by
    rw [offT]
    split <;> omega
  constructor
  · intro h
    split
    · rename_i hle
      have hoff : offT t.offset=t.offset := offT_eq (by omega)
      obtain ⟨h0,h1⟩ := hin.mpr hle
      have hres := h.result h0 h1
      rw [hoff,offT] at hres
      split at hres <;> omega
    · rename_i hgt
      by_contra hne
      have hfirst := h.inside 0 (Nat.pos_of_ne_zero hne)
      rw [add64,Nat.add_zero,Nat.mod_eq_of_lt ho] at hfirst
      omega
  · intro h
    split at h
    · rename_i hle
      have hoff : offT t.offset=t.offset := offT_eq (by omega)
      refine ⟨?_,?_,fun hno => absurd (hin.mpr hle) hno⟩
      · intro k hk
        rw [add64_eq (by omega)]
        omega
      · intro _ _
        rw [hoff,h,offT_eq (by omega)]
        omega
    · rename_i hgt
      refine ⟨?_,fun h0 h1 => absurd (hin.mp ⟨h0,h1⟩) hgt,?_⟩
      · intro k hk
        omega
      · intro _
        rw [h]
        decide

theorem actualCount_past {size offset count : Nat} (hsize : size < 2^64) (ho : offset < 2^64)
    (hc : count < 2^64) : actualCount true size offset count=sub64 size offset := by
  rw [actualCount,if_pos rfl,sub64,sub64,sub64,add64]
  omega

theorem actualCount_lt (past : Bool) {size offset count : Nat} (hc : count < 2^64) :
    actualCount past size offset count < 2^64 := by
  cases past with
  | false => exact hc
  | true =>
    rw [actualCount,if_pos rfl,sub64]
    omega

theorem tmpfsReadTransfer_bounded_iff {size offset count : Nat} (hsize : size < 2^63)
    (ho : offset < 2^64) (hc : count < 2^64) :
    (tmpfsReadTransfer size offset count).Bounded size count ↔
      offset ≤ size ∧ offset+count < 2^63 ∨ 2^63 ≤ offset ∧ count=0 := by
  rw [Transfer.bounded_iff hsize ho (actualCount_lt _ hc),tmpfsReadTransfer]
  dsimp only
  have hwrap := add64_wrap ho hc
  have hend : offT size ≤ offT (add64 offset count) ↔
      size ≤ add64 offset count ∧ add64 offset count < 2^63 := by
    have hlt : add64 offset count < 2^64 := by
      rw [hwrap]
      split <;> omega
    rw [offT_eq hsize,offT]
    split <;> omega
  by_cases hpast : offT size ≤ offT (add64 offset count)
  · rw [decide_eq_true hpast,actualCount_past (by omega) ho hc,sub64]
    rw [hend,hwrap] at hpast
    split at hpast <;> split <;> omega
  · rw [decide_eq_false hpast,actualCount,if_neg Bool.false_ne_true]
    rw [hend,hwrap] at hpast
    split at hpast <;> split <;> omega

theorem fbdevRead_bounded_iff {size offset count : Nat} (hsize : size < 2^63)
    (ho : offset < 2^64) (hc : count < 2^64) :
    (fbdevRead size offset count).Bounded size count ↔
      count=0 ∨ offset ≤ size ∧ offset+count < 2^64 := by
  rw [fbdevRead]
  split
  · rename_i hz
    rw [Transfer.bounded_iff hsize ho (Nat.pow_pos (by decide)),hz]
    dsimp only
    split <;> omega
  · rename_i hz
    have hwrap := add64_wrap ho hc
    rw [Transfer.bounded_iff hsize ho (actualCount_lt _ hc)]
    dsimp only
    by_cases hpast : size < add64 offset count
    · rw [decide_eq_true hpast,actualCount_past (by omega) ho hc,sub64]
      rw [hwrap] at hpast
      split at hpast <;> split <;> omega
    · rw [decide_eq_false hpast,actualCount,if_neg Bool.false_ne_true]
      rw [hwrap] at hpast
      split at hpast <;> split <;> omega

/-- A read of a tmpfs or devtmpfs file is inside the file and returns what is there
exactly if it starts inside and its end is no negative off_t, or if it is an empty
one at a negative offset; on a framebuffer it is so for every empty transfer, and
for others if they start inside and their end does not wrap. -/
theorem transfers_bounded_iff (size offset count : Nat) (hsize : size < 2^63) (ho : offset < 2^64)
    (hc : count < 2^64) :
    ((tmpfsReadTransfer size offset count).Bounded size count ↔
      offset ≤ size ∧ offset+count < 2^63 ∨ offT offset < 0 ∧ count=0) ∧
    ((devtmpfsReadTransfer size offset count).Bounded size count ↔
      offset ≤ size ∧ offset+count < 2^63 ∨ offT offset < 0 ∧ count=0) ∧
    ((fbdevRead size offset count).Bounded size count ↔
      count=0 ∨ offset ≤ size ∧ offset+count < 2^64) ∧
    ((fbdevWrite size offset count).Bounded size count ↔
      count=0 ∨ offset ≤ size ∧ offset+count < 2^64) := by
  have hneg : offT offset < 0 ↔ 2^63 ≤ offset := by
    rw [offT]
    split <;> omega
  have htmpfs := tmpfsReadTransfer_bounded_iff hsize ho hc
  have hfbdev := fbdevRead_bounded_iff hsize ho hc
  rw [hneg]
  exact ⟨htmpfs,htmpfs,hfbdev,hfbdev⟩

/-- A read across the end of a file and one across the end of a framebuffer. -/
theorem transfers_bounded_iff_across : (tmpfsReadTransfer 10 4 100).Bounded 10 100 ∧
    (fbdevWrite 4096 4000 (2^63)).Bounded 4096 (2^63) :=
  ⟨(transfers_bounded_iff 10 4 100 (by decide) (by decide) (by decide)).1.mpr (by decide),
    (transfers_bounded_iff 4096 4000 (2^63) (by decide) (by decide) (by decide)).2.2.2.mpr (by decide)⟩

/-- Behind the end the count that is left wraps round: nearly 2^64 bytes are copied. -/
theorem transfers_behind_end : (tmpfsReadTransfer 1 2 1).count=2^64-1 ∧
    ¬(tmpfsReadTransfer 1 2 1).Bounded 1 1 ∧ ¬(devtmpfsReadTransfer 1 2 1).Bounded 1 1 ∧
    (fbdevRead 4096 4098 1).count=2^64-2 ∧ ¬(fbdevRead 4096 4098 1).Bounded 4096 1 ∧
    ¬(fbdevWrite 4096 4098 1).Bounded 4096 1 := by
  have hfile : ¬(tmpfsReadTransfer 1 2 1).Bounded 1 1 := by
    intro h
    exact absurd (h.inside 0 (by decide)) (by decide)
  have hfb : ¬(fbdevRead 4096 4098 1).Bounded 4096 1 := by
    intro h
    exact absurd (h.inside 0 (by decide)) (by decide)
  exact ⟨by decide,hfile,hfile,by decide,hfb,hfb⟩

end X64OS.Fs
