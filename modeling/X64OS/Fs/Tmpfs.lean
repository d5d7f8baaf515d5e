import Mathlib.Algebra.Group.Int.Defs
import X64OS.Framework.Overlay
import X64OS.Framework.Refinement
import X64OS.Framework.Words
import X64OS.Fs.HashMap

namespace X64OS.Fs

open Framework

def sIfmt : Nat := 0o170000

def sIfdir : Nat := 0o040000

def sIfreg : Nat := 0o100000

def sIflnk : Nat := 0o120000

def sIsdir (mode : Nat) : Bool := mode &&& sIfmt=sIfdir

def sIsreg (mode : Nat) : Bool := mode &&& sIfmt=sIfreg

def sIslnk (mode : Nat) : Bool := mode &&& sIfmt=sIflnk

/-- A file of tmpfs or devtmpfs: stat, and the buffer data of capacity bytes.
Numbers of 64 bits stand for themselves modulo 2^64. -/
structure Resource where
  stMode : Nat
  stSize : Nat
  capacity : Nat
  data : Nat → BitVec 8

def createTmpfsResource (mode : Nat) : Resource :=
  if sIsreg mode then ⟨mode,0,4096,fun _ => 0⟩ else ⟨mode,0,0,fun _ => 0⟩

@[simp] theorem createTmpfsResource_stMode (mode : Nat) :
    (createTmpfsResource mode).stMode=mode := by
  rw [createTmpfsResource]
  split <;> rfl

/-- The result and the bytes copied; none if the copy leaves the buffer. -/
def tmpfsResourceRead (r : Resource) (offset count : Nat) : Option (Nat × Str) :=
  let actualCount :=
    if offT r.stSize ≤ offT (add64 offset count) then
      sub64 count (sub64 (add64 offset count) r.stSize)
    else count
  if offset+actualCount ≤ r.capacity then some (actualCount,window r.data offset actualCount)
  else none

/-- The loop that doubles the capacity; a capacity of 0 never grows. -/
def growCapacity (stop : Nat) : Nat → Nat → Option Nat
  | 0,_ => none
  | n+1,capacity =>
    if capacity ≤ stop then growCapacity stop n (capacity*2%2^64) else some capacity

def Resource.realloc (r : Resource) (capacity : Nat) : Resource :=
  { r with capacity := capacity, data := fun i => if i < r.capacity then r.data i else 0 }

/-- tmpfs_resource_write; room says for which sizes realloc finds memory. -/
def tmpfsResourceWrite (room : Nat → Bool) (r : Resource) (buf : Str) (offset : Nat) :
    Option (Int × Resource) :=
  let count := buf.length
  (if r.capacity ≤ add64 offset count then
    (growCapacity (add64 offset count) 65 r.capacity).map (fun c =>
      if room c then some (r.realloc c) else none)
  else some (some r)).bind (fun x =>
    match x with
    | none => some (-1,r)
    | some r =>
      if offset+count ≤ r.capacity then
        let stSize :=
          if offT r.stSize ≤ offT (add64 offset count) then add64 offset count else r.stSize
        some (count,{ r with stSize := stSize, data := overlay r.data offset buf })
      else none)

variable {offset : Nat} {r : Resource} {ws : List Write}

theorem tmpfsResourceWrite_stMode {room : Nat → Bool} {r' : Resource} {buf : Str} {x : Int}
    (h : tmpfsResourceWrite room r buf offset=some (x,r')) : r'.stMode=r.stMode := by
  obtain ⟨grown,hgrown,h⟩ := Option.bind_eq_some_iff.mp h
  cases grown with
  | none =>
    cases h
    rfl
  | some r₁ =>
    have hmode : r₁.stMode=r.stMode := by
      split at hgrown
      · obtain ⟨c,-,hc⟩ := Option.map_eq_some_iff.mp hgrown
        split at hc <;> cases hc
        rfl
      · cases hgrown
        rfl
    dsimp only at h
    split at h <;> cases h
    exact hmode

theorem growCapacity_spec {stop n capacity : Nat} (hpos : 0 < capacity) (hcap : capacity < 2^63)
    (hstop : stop < 2^63) (hn : stop < capacity*2^n) :
    ∃ c, growCapacity stop (n+1) capacity=some c ∧ stop < c ∧ capacity ≤ c ∧
      (c=capacity ∨ c ≤ 2*stop) := by
  induction n generalizing capacity with
  | zero =>
    refine ⟨capacity,?_,by omega,le_rfl,.inl rfl⟩
    rw [growCapacity,if_neg (by omega)]
  | succ n ih =>
    rw [growCapacity]
    by_cases hle : capacity ≤ stop
    · have hn' : stop < capacity*2*2^n := by
        rw [Nat.mul_assoc,← Nat.pow_succ']
        exact hn
      rw [if_pos hle,Nat.mod_eq_of_lt (by omega)]
      by_cases hlt : capacity*2 < 2^63
      · obtain ⟨c,hc,h1,h2,h3⟩ := ih (by omega) hlt hn'
        exact ⟨c,hc,h1,by omega,.inr (by omega)⟩
      · refine ⟨capacity*2,?_,by omega,by omega,.inr (by omega)⟩
        rw [growCapacity,if_neg (by omega)]
    · exact ⟨capacity,if_neg hle,by omega,le_rfl,.inl rfl⟩

structure Write where
  offset : Nat
  bytes : Str

section
variable (ws : List Write)

/-- The byte of the reference file at i: that of the last write over it, or 0. -/
def refByte (i : Nat) : BitVec 8 :=
  (ws.reverse.findSome? (fun w => placedAt w.offset w.bytes i)).getD 0

def refSize : Nat := ws.foldl (fun n w => max n (w.offset+w.bytes.length)) 0

theorem refByte_append (w : Write) (i : Nat) :
    refByte (ws++[w]) i=overlay (refByte ws) w.offset w.bytes i := by
  rw [refByte,List.reverse_append,List.reverse_singleton,List.singleton_append,List.findSome?_cons,
    overlay]
  cases placedAt w.offset w.bytes i <;> rfl

theorem refSize_append (w : Write) :
    refSize (ws++[w])=max (refSize ws) (w.offset+w.bytes.length) := by
  rw [refSize,List.foldl_append]
  rfl

theorem refByte_past {i : Nat} (h : refSize ws ≤ i) : refByte ws i=0 := by
  induction ws using List.reverseRecOn with
  | nil => rfl
  | append_singleton ws w ih =>
    rw [refSize_append] at h
    rw [refByte_append,overlay_of_ge (by omega)]
    exact ih (by omega)

end

/-- The buffer holds the reference file, with room behind it that is zero. -/
structure Resource.Holds (r : Resource) (ws : List Write) : Prop where
  size : r.stSize=refSize ws
  room : refSize ws < r.capacity
  capacity : r.capacity < 2^63
  bytes : ∀ i < r.capacity, r.data i=refByte ws i

theorem createTmpfsResource_holds {mode : Nat} (h : sIsreg mode=true) :
    (createTmpfsResource mode).Holds [] := by
  rw [createTmpfsResource,if_pos h]
  exact ⟨rfl,Nat.succ_pos 4095,show 4096 < 2^63 by decide,fun _ _ => rfl⟩

section
variable (h : r.Holds ws)
include h

theorem Resource.Holds.realloc {c : Nat} (hle : r.capacity ≤ c) (hc : c < 2^63) :
    (r.realloc c).Holds ws := by
  refine ⟨h.size,Nat.lt_of_lt_of_le h.room hle,hc,?_⟩
  intro i _
  show (if i < r.capacity then r.data i else 0)=refByte ws i
  by_cases hi : i < r.capacity
  · rw [if_pos hi,h.bytes i hi]
  · have hroom := h.room
    rw [if_neg hi,refByte_past ws (by omega)]

theorem Resource.Holds.store {w : Write} (hfit : w.offset+w.bytes.length < r.capacity) :
    Resource.Holds { r with
      stSize := if offT r.stSize ≤ offT (w.offset+w.bytes.length) then w.offset+w.bytes.length
        else r.stSize
      data := overlay r.data w.offset w.bytes } (ws++[w]) := by
  have hsize := h.size
  have hroom := h.room
  have hcap := h.capacity
  rw [offT_eq (by omega),offT_eq (by omega)]
  refine ⟨?_,?_,hcap,?_⟩
  · dsimp only
    rw [refSize_append]
    split <;> omega
  · rw [refSize_append]
    exact max_lt hroom hfit
  · intro i hi
    show overlay r.data w.offset w.bytes i=refByte (ws++[w]) i
    rw [refByte_append,overlay,overlay,h.bytes i hi]

theorem Resource.Holds.write {room : Nat → Bool} (w : Write) (hw : w.offset+w.bytes.length < 2^63)
    (hroom : ∀ n ≤ 2*(w.offset+w.bytes.length), room n=true → n < 2^63) :
    (∃ r', tmpfsResourceWrite room r w.bytes w.offset=some ((w.bytes.length : Int),r') ∧
      r'.Holds (ws++[w]) ∧ (w.offset+w.bytes.length < r.capacity ∧ r'.capacity=r.capacity ∨
        r.capacity ≤ w.offset+w.bytes.length ∧ room r'.capacity=true ∧
          growCapacity (w.offset+w.bytes.length) 65 r.capacity=some r'.capacity)) ∨
    (tmpfsResourceWrite room r w.bytes w.offset=some (-1,r) ∧
      r.capacity ≤ w.offset+w.bytes.length ∧
      ∃ c, growCapacity (w.offset+w.bytes.length) 65 r.capacity=some c ∧ room c=false) := by
  have hadd := add64_eq (show w.offset+w.bytes.length < 2^64 by omega)
  rw [tmpfsResourceWrite]
  dsimp only
  rw [hadd]
  by_cases hgrow : r.capacity ≤ w.offset+w.bytes.length
  · have hpos : 0 < r.capacity := Nat.zero_lt_of_lt h.room
    obtain ⟨c,hc,hlt,hle,hor⟩ := growCapacity_spec (n := 64) hpos h.capacity hw (by omega)
    rw [if_pos hgrow,hc,Option.map_some]
    cases hfound : room c with
    | false => exact .inr ⟨rfl,hgrow,c,rfl,hfound⟩
    | true =>
      have h₁ := h.realloc hle (hroom c (by omega) hfound)
      rw [if_pos rfl,Option.bind_some]
      dsimp only
      rw [if_pos (show w.offset+w.bytes.length ≤ (r.realloc c).capacity from Nat.le_of_lt hlt)]
      exact .inl ⟨_,rfl,h₁.store hlt,.inr ⟨hgrow,hfound,rfl⟩⟩
  · rw [if_neg hgrow,Option.bind_some]
    dsimp only
    rw [if_pos (by omega)]
    exact .inl ⟨_,rfl,h.store (by omega),.inl ⟨by omega,rfl⟩⟩

theorem Resource.Holds.writes {room : Nat → Bool} (hroom : ∀ n, room n=true) (ws' : List Write)
    (hw : ∀ w∈ws', w.offset+w.bytes.length < 2^62) :
    ∃ r', trace (fun r w => tmpfsResourceWrite room r (Write.bytes w) (Write.offset w)) r ws'=
      some (ws'.map (fun w => (w.bytes.length : Int)),r') ∧ r'.Holds (ws++ws') := by
  induction ws' generalizing r ws with
  | nil => exact ⟨r,rfl,by rw [List.append_nil]; exact h⟩
  | cons w ws' ih =>
    have hw₀ := hw w List.mem_cons_self
    rcases h.write w (by omega) (fun n hn _ => by omega) with ⟨r₁,hr₁,h₁,-⟩ | ⟨-,-,c,-,hno⟩
    · obtain ⟨r₂,hr₂,h₂⟩ := ih h₁ (fun x hx => hw x (List.mem_cons_of_mem _ hx))
      refine ⟨r₂,?_,?_⟩
      · rw [trace,hr₁,Option.bind_some,hr₂]
        rfl
      · rw [List.append_assoc,List.singleton_append] at h₂
        exact h₂
    · rw [hroom c] at hno
      cases hno

theorem Resource.Holds.read {count : Nat} (ho : offset ≤ r.stSize) (hc : offset+count < 2^63) :
    tmpfsResourceRead r offset count=
      some (min count (r.stSize-offset),window (refByte ws) offset (min count (r.stSize-offset))) := by
  have hsize := h.size
  have hroom := h.room
  have hcap := h.capacity
  have hactual : (if offT r.stSize ≤ offT (add64 offset count) then
      sub64 count (sub64 (add64 offset count) r.stSize) else count)=min count (r.stSize-offset) := by
    rw [add64_eq (by omega),offT_eq (by omega),offT_eq hc]
    split
    · have hover := sub64_eq (show offset+count < 2^64 by omega) (show r.stSize ≤ offset+count by omega)
      rw [hover,sub64_eq (by omega) (by omega)]
      omega
    · omega
  rw [tmpfsResourceRead,hactual,if_pos (by omega)]
  refine congrArg (fun l => some (_,l)) (window_congr ?_)
  intro i hi
  exact h.bytes _ (by omega)

theorem Resource.Holds.read_past {count : Nat} (ho : offset ≤ r.stSize) (hcount : count < 2^64)
    (hc : 2^63 ≤ offset+count) : tmpfsResourceRead r offset count=none := by
  have hsize := h.size
  have hroom := h.room
  have hcap := h.capacity
  have hneg : ¬offT r.stSize ≤ offT (add64 offset count) := by
    rw [offT_eq (by omega),offT,add64]
    split <;> omega
  rw [tmpfsResourceRead,if_neg hneg,if_neg (by omega)]

end

/-- After any writes a read from inside the file gives the bytes of the
reference file, exactly if its end is no negative off_t. -/
theorem tmpfs_reads_refine (room : Nat → Bool) (hroom : ∀ n, room n=true) (mode : Nat)
    (hmode : sIsreg mode=true) (ws : List Write)
    (hws : ∀ w∈ws, 1 ≤ w.bytes.length ∧ w.offset+w.bytes.length < 2^62) :
    ∃ r, trace (fun r w => tmpfsResourceWrite room r (Write.bytes w) (Write.offset w))
        (createTmpfsResource mode) ws=some (ws.map (fun w => (w.bytes.length : Int)),r) ∧
      r.stSize=refSize ws ∧
      ∀ offset count, offset ≤ r.stSize → count < 2^64 →
        (tmpfsResourceRead r offset count=some (min count (r.stSize-offset),
          window (refByte ws) offset (min count (r.stSize-offset))) ↔ offset+count < 2^63) := by
  obtain ⟨r,hr,h⟩ := (createTmpfsResource_holds hmode).writes hroom ws (fun w hw => (hws w hw).2)
  refine ⟨r,hr,h.size,?_⟩
  intro offset count ho hcount
  constructor
  · intro hread
    by_contra hc
    rw [h.read_past ho hcount (by omega)] at hread
    cases hread
  · exact h.read ho

/-- Two overlapping writes and a gap, read across the end of the file. -/
theorem tmpfs_reads_refine_gap : ∃ r,
    trace (fun r w => tmpfsResourceWrite (fun _ => true) r (Write.bytes w) (Write.offset w))
      (createTmpfsResource 0o100644) [⟨0,[1,2,3]⟩,⟨2,[4]⟩,⟨5,[5]⟩]=some ([3,1,1],r) ∧
    tmpfsResourceRead r 1 100=some (5,[2,4,0,0,5]) := by
  obtain ⟨r,hr,hsize,hread⟩ := tmpfs_reads_refine (fun _ => true) (fun _ => rfl) 0o100644 (by decide)
    [⟨0,[1,2,3]⟩,⟨2,[4]⟩,⟨5,[5]⟩] (by simp)
  have hsix : r.stSize=6 := hsize.trans (by decide)
  refine ⟨r,hr,?_⟩
  rw [(hread 1 100 (by omega) (by omega)).mpr (by omega),hsix]
  decide

/-- A read of 2^63 bytes of a file with one byte is not cut to the file. -/
theorem tmpfs_read_leaves_buffer : ∃ r,
    tmpfsResourceWrite (fun _ => true) (createTmpfsResource 0o100644) [1] 0=some (1,r) ∧ r.stSize=1 ∧
    tmpfsResourceRead r 0 (2^63)≠
      some (min (2^63) (1-0),window (refByte [⟨0,[1]⟩]) 0 (min (2^63) (1-0))) := by
  have hw : tmpfsResourceWrite (fun _ => true) (createTmpfsResource 0o100644) [1] 0=
      some (1,⟨0o100644,1,4096,overlay (fun _ => 0) 0 [1]⟩) := rfl
  refine ⟨_,hw,rfl,?_⟩
  rw [tmpfsResourceRead,if_neg (by decide)]
  exact (Option.some_ne_none _).symm

end X64OS.Fs
