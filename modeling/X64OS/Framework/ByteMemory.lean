import X64OS.Framework.Span
import Mathlib.Algebra.Order.Ring.Nat
import Mathlib.Tactic.Ring

namespace X64OS.Framework

abbrev Mem := Nat → BitVec 8

namespace Mem

/-- Little-endian value of the n bytes from a on. -/
def readBytes (m : Mem) (a : Nat) : Nat → Nat
  | 0 => 0
  | n+1 => readBytes m a n+(m (a+n)).toNat*256^n

def writeBytes (m : Mem) (a n v : Nat) : Mem :=
  fun x => if x∈(⟨a,n⟩ : Span) then BitVec.ofNat 8 (v/256^(x-a)) else m x

section
variable (m : Mem) (a : Nat)

def read16 : BitVec 16 := BitVec.ofNat 16 (readBytes m a 2)

def read32 : BitVec 32 := BitVec.ofNat 32 (readBytes m a 4)

def read64 : BitVec 64 := BitVec.ofNat 64 (readBytes m a 8)

def write64 (v : BitVec 64) : Mem := writeBytes m a 8 v.toNat

end

def fill (m : Mem) (a n : Nat) (b : BitVec 8) : Mem :=
  fun x => if x∈(⟨a,n⟩ : Span) then b else m x

/-- m' differs from m inside s only. -/
def SameOff (s : Span) (m m' : Mem) : Prop := ∀ x, x∉s → m' x=m x

variable {s : Span} {m m' : Mem} {a n : Nat}

theorem SameOff.trans {m₁ m₂ m₃ : Mem} (h : SameOff s m₁ m₂) (k : SameOff s m₂ m₃) :
    SameOff s m₁ m₃ :=
  fun x hx => (k x hx).trans (h x hx)

theorem SameOff.mono {t : Span} (h : SameOff s m m') (hs : ∀ x, x∈s → x∈t) : SameOff t m m' :=
  fun x hx => h x (fun hm => hx (hs x hm))

theorem SameOff.widen {b k : Nat} (h : SameOff ⟨a,n⟩ m m') (ha : b ≤ a) (hn : a+n ≤ b+k) :
    SameOff ⟨b,k⟩ m m' := by
  apply h.mono
  intro x hx
  rw [Span.mem_mk] at hx ⊢
  omega

theorem sameOff_writeBytes (m : Mem) (a n v : Nat) : SameOff ⟨a,n⟩ m (writeBytes m a n v) := by
  intro x hx
  exact if_neg hx

theorem sameOff_write64 (m : Mem) (a : Nat) (v : BitVec 64) : SameOff ⟨a,8⟩ m (write64 m a v) :=
  sameOff_writeBytes m a 8 v.toNat

theorem sameOff_fill (m : Mem) (a n : Nat) (b : BitVec 8) : SameOff ⟨a,n⟩ m (fill m a n b) := by
  intro x hx
  exact if_neg hx

theorem readBytes_congr (m m' : Mem) (a n : Nat) (h : ∀ x∈(⟨a,n⟩ : Span), m' x=m x) :
    readBytes m' a n=readBytes m a n := by
  induction n with
  | zero => rfl
  | succ n ih =>
    have hlow : ∀ x∈(⟨a,n⟩ : Span), m' x=m x := by
      intro x hx
      rw [Span.mem_mk] at hx
      exact h x (by rw [Span.mem_mk]; omega)
    rw [readBytes,readBytes,ih hlow,h (a+n) (by rw [Span.mem_mk]; omega)]

theorem readBytes_eq {b : Nat} (h : ∀ i < n, m (a+i)=m' (b+i)) :
    readBytes m a n=readBytes m' b n := by
  induction n with
  | zero => rfl
  | succ n ih => rw [readBytes,readBytes,ih (fun i hi => h i (by omega)),h n (Nat.lt_succ_self n)]

theorem readBytes_writeBytes (m : Mem) (a n v k : Nat) (hk : k ≤ n) :
    readBytes (writeBytes m a n v) a k=v%256^k := by
  induction k with
  | zero => simp [readBytes,Nat.mod_one]
  | succ k ih =>
    have hin : a+k∈(⟨a,n⟩ : Span) := by rw [Span.mem_mk]; omega
    have hbyte : (writeBytes m a n v (a+k)).toNat=v/256^k%256 := by
      rw [writeBytes,if_pos hin,Nat.add_sub_cancel_left,BitVec.toNat_ofNat]
    rw [readBytes,ih (by omega),hbyte,pow_succ,Nat.mod_mul]
    ring

theorem readBytes_lt (m : Mem) (a n : Nat) : readBytes m a n < 256^n := by
  induction n with
  | zero => exact Nat.one_pos
  | succ n ih =>
    have hbyte : (m (a+n)).toNat*256^n ≤ 255*256^n :=
      Nat.mul_le_mul_right _ (Nat.le_of_lt_succ (m (a+n)).isLt)
    rw [readBytes,pow_succ]
    omega

theorem readBytes_byte (m : Mem) (a : Nat) {j : Nat} (hj : j < n) :
    readBytes m a n/256^j%256=(m (a+j)).toNat := by
  induction n with
  | zero => omega
  | succ n ih =>
    rw [readBytes]
    obtain hlt | rfl := Nat.lt_succ_iff_lt_or_eq.mp hj
    · obtain ⟨d,rfl⟩ : ∃ d, n=j+1+d := ⟨n-(j+1),by omega⟩
      have hsplit : (m (a+(j+1+d))).toNat*256^(j+1+d)=
          256^j*(256*((m (a+(j+1+d))).toNat*256^d)) := by ring
      rw [hsplit,Nat.add_mul_div_left _ _ (Nat.pow_pos (by decide)),Nat.add_mul_mod_self_left]
      exact ih hlt
    · rw [Nat.add_mul_div_right _ _ (Nat.pow_pos (by decide)),
        Nat.div_eq_of_lt (readBytes_lt m a j),Nat.zero_add]
      exact Nat.mod_eq_of_lt (m (a+j)).isLt

theorem write64_read64_byte (m m' : Mem) (a b : Nat) {j : Nat} (hj : j < 8) :
    write64 m a (read64 m' b) (a+j)=m' (b+j) := by
  have hin : a+j∈(⟨a,8⟩ : Span) := by
    rw [Span.mem_mk]
    omega
  have hword : readBytes m' b 8 < 2^64 := readBytes_lt m' b 8
  rw [write64,writeBytes,if_pos hin,Nat.add_sub_cancel_left,read64,BitVec.toNat_ofNat,
    Nat.mod_eq_of_lt hword]
  apply BitVec.eq_of_toNat_eq
  rw [BitVec.toNat_ofNat]
  exact readBytes_byte m' b hj

/-- The n bytes at src are now at dst as well, and nothing else has changed. -/
structure Copied (dst src n : Nat) (m m' : Mem) : Prop where
  bytes : ∀ i < n, m' (dst+i)=m (src+i)
  frame : SameOff ⟨dst,n⟩ m m'

/-- A copy from the first byte on reads no byte that it has written. -/
def Forward (dst src n : Nat) : Prop := dst ≤ src ∨ (⟨dst,n⟩ : Span).Separate ⟨src,n⟩

namespace Copied

variable {dst src k w : Nat} {m'' : Mem}

theorem zero : Copied dst src 0 m m where
  bytes i hi := absurd hi (Nat.not_lt_zero i)
  frame _ _ := rfl

/-- w more bytes, which are read after k bytes have been copied. -/
theorem step (h : Copied dst src k m m') (hf : Forward dst src (k+w))
    (hbytes : ∀ j < w, m'' (dst+k+j)=m' (src+k+j)) (hframe : SameOff ⟨dst+k,w⟩ m' m'') :
    Copied dst src (k+w) m m'' := by
  -- what is read now has not been written before
  have hsrc : ∀ j < w, m' (src+k+j)=m (src+k+j) := by
    intro j hj
    apply h.frame
    rw [Span.mem_mk]
    obtain hle | hsep := hf
    · omega
    · intro hx
      apply hsep (src+k+j)
      · rw [Span.mem_mk]
        omega
      · rw [Span.mem_mk]
        omega
  refine ⟨?_,?_⟩
  · intro i hi
    by_cases hold : i < k
    · rw [hframe _ (by rw [Span.mem_mk]; omega)]
      exact h.bytes i hold
    · obtain ⟨j,rfl⟩ : ∃ j, i=k+j := ⟨i-k,by omega⟩
      rw [← Nat.add_assoc,← Nat.add_assoc,hbytes j (by omega)]
      exact hsrc j (by omega)
  · apply (h.frame.widen _ _).trans (hframe.widen _ _)
    all_goals omega

theorem unique (h : Copied dst src k m m') (h' : Copied dst src k m m'') : m'=m'' := by
  funext x
  by_cases hx : x∈(⟨dst,k⟩ : Span)
  · rw [Span.mem_mk] at hx
    obtain ⟨i,rfl⟩ : ∃ i, x=dst+i := ⟨x-dst,by omega⟩
    rw [h.bytes i (by omega),h'.bytes i (by omega)]
  · rw [h.frame x hx,h'.frame x hx]

end Copied

theorem Forward.mono {dst src n' : Nat} (h : Forward dst src n) (hle : n' ≤ n) :
    Forward dst src n' := by
  refine h.imp id (fun hsep => hsep.mono ?_ ?_)
  all_goals
    intro x hx
    rw [Span.mem_mk] at hx ⊢
    omega

@[simp] theorem read64_write64 (m : Mem) (a : Nat) (v : BitVec 64) :
    read64 (write64 m a v) a=v := by
  have hv : v.toNat%256^8=v.toNat := Nat.mod_eq_of_lt v.isLt
  rw [read64,write64,readBytes_writeBytes _ _ _ _ _ le_rfl,hv,BitVec.ofNat_toNat,
    BitVec.setWidth_eq]

theorem read64_congr (h : ∀ x∈(⟨a,8⟩ : Span), m' x=m x) : read64 m' a=read64 m a := by
  rw [read64,read64,readBytes_congr m m' a 8 h]

/-- A word is kept by every change that avoids its eight bytes. -/
theorem SameOff.read64 (h : SameOff s m m') (a : Nat) (hd : s.Separate ⟨a,8⟩) :
    read64 m' a=read64 m a := by
  apply read64_congr
  intro x hx
  exact h x (fun hs => hd x hs hx)

theorem read64_write64_of_le (m : Mem) (a b : Nat) (v : BitVec 64) (h : a+8 ≤ b ∨ b+8 ≤ a) :
    read64 (write64 m a v) b=read64 m b := by
  apply (sameOff_write64 m a v).read64
  exact (Span.separate_iff (Nat.succ_pos 7) (Nat.succ_pos 7)).mpr h

theorem read64_eq_zero (h : ∀ x∈(⟨a,8⟩ : Span), m x=0) : read64 m a=0 := by
  rw [read64_congr h,read64]
  simp [readBytes]

end Mem

end X64OS.Framework
