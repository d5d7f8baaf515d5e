import X64OS.Framework.ByteMemory

namespace X64OS.Memory

open Framework

def divRoundup (value div : Nat) : Nat := (value+(div-1))%2^64/div

def alignUp (value align : Nat) : Nat := divRoundup value align*align%2^64

def alignDown (value align : Nat) : Nat := value/align*align

def memcpyWords (m : Mem) (dst src : Nat) : Nat → Mem
  | 0 => m
  | n+1 =>
    let m' := memcpyWords m dst src n
    m'.write64 (dst+8*n) (m'.read64 (src+8*n))

def memcpyBytes (m : Mem) (dst src : Nat) : Nat → Mem
  | 0 => m
  | n+1 =>
    let m' := memcpyBytes m dst src n
    m'.writeBytes (dst+n) 1 (m' (src+n)).toNat

section
variable (m : Mem) (dst src n : Nat)

/-- The copy goes by words when the length allows it. -/
def memcpy : Mem :=
  if n%8=0 then memcpyWords m dst src (n/8) else memcpyBytes m dst src n

theorem sameOff_memcpyWords : Mem.SameOff ⟨dst,8*n⟩ m (memcpyWords m dst src n) := by
  induction n with
  | zero => exact fun x _ => rfl
  | succ n ih =>
    apply (ih.widen _ _).trans ((Mem.sameOff_write64 _ _ _).widen _ _)
    all_goals omega

theorem sameOff_memcpyBytes : Mem.SameOff ⟨dst,n⟩ m (memcpyBytes m dst src n) := by
  induction n with
  | zero => exact fun x _ => rfl
  | succ n ih =>
    apply (ih.widen _ _).trans ((Mem.sameOff_writeBytes _ _ _ _).widen _ _)
    all_goals omega

theorem sameOff_memcpy : Mem.SameOff ⟨dst,n⟩ m (memcpy m dst src n) := by
  unfold memcpy
  split
  · have hn : 8*(n/8)=n := by omega
    have h := sameOff_memcpyWords m dst src (n/8)
    rw [hn] at h
    exact h
  · exact sameOff_memcpyBytes m dst src n

end

variable {dst n src : Nat}

theorem memcpyWords_copied (m : Mem) (hf : Mem.Forward dst src (8*n)) :
    Mem.Copied dst src (8*n) m (memcpyWords m dst src n) := by
  induction n with
  | zero => exact .zero
  | succ n ih =>
    exact (ih (hf.mono (by omega))).step hf (fun j hj => Mem.write64_read64_byte _ _ _ _ hj)
      (Mem.sameOff_write64 _ _ _)

theorem writeBytes_byte (m m' : Mem) (a b : Nat) : m.writeBytes a 1 (m' b).toNat a=m' b := by
  have hin : a∈(⟨a,1⟩ : Span) := (Span.mem_mk _ _ _).mpr (by omega)
  rw [Mem.writeBytes,if_pos hin,Nat.sub_self,pow_zero,Nat.div_one,BitVec.ofNat_toNat,
    BitVec.setWidth_eq]

theorem memcpyBytes_copied (m : Mem) (hf : Mem.Forward dst src n) :
    Mem.Copied dst src n m (memcpyBytes m dst src n) := by
  induction n with
  | zero => exact .zero
  | succ n ih =>
    apply (ih (hf.mono (Nat.le_succ n))).step hf _ (Mem.sameOff_writeBytes _ _ _ _)
    intro j hj
    obtain rfl := Nat.lt_one_iff.mp hj
    exact writeBytes_byte _ _ _ _

/-- memcpy is a copy, on either path. -/
theorem memcpy_copied (m : Mem) (hf : Mem.Forward dst src n) :
    Mem.Copied dst src n m (memcpy m dst src n) := by
  unfold memcpy
  split
  · obtain ⟨w,rfl⟩ : ∃ w, n=8*w := ⟨n/8,by omega⟩
    rw [Nat.mul_div_cancel_left _ (by decide)]
    exact memcpyWords_copied m hf
  · exact memcpyBytes_copied m hf

theorem memcpy_copies (m : Mem) (hsep : (⟨dst,n⟩ : Span).Separate ⟨src,n⟩) {k : Nat} (hk : k < n) :
    memcpy m dst src n (dst+k)=m (src+k) :=
  (memcpy_copied m (.inr hsep)).bytes k hk

/-- For a destination that starts at or below the source, or is apart from it, the loop over
words makes of memory what the loop over bytes makes: the source as it was is at the destination,
and no other byte has changed. -/
theorem memcpy_paths_agree (m : Mem) (dst src n : Nat)
    (h : dst ≤ src ∨ (⟨dst,n⟩ : Span).Separate ⟨src,n⟩) :
    (n%8=0 → memcpyWords m dst src (n/8)=memcpyBytes m dst src n) ∧
    memcpy m dst src n=memcpyBytes m dst src n ∧
    (∀ i < n, memcpy m dst src n (dst+i)=m (src+i)) ∧
    ∀ x, x∉(⟨dst,n⟩ : Span) → memcpy m dst src n x=m x := by
  have hcopied := memcpy_copied m h
  have hsame : memcpy m dst src n=memcpyBytes m dst src n :=
    hcopied.unique (memcpyBytes_copied m h)
  refine ⟨?_,hsame,hcopied.bytes,hcopied.frame⟩
  intro hwords
  rw [← hsame,memcpy,if_pos hwords]

def countedMem : Mem := fun a => BitVec.ofNat 8 a

/-- Two words move down by three bytes, over themselves. -/
theorem memcpy_paths_agree_three :
    memcpyWords countedMem 0 3 2=memcpyBytes countedMem 0 3 16 ∧
    memcpy countedMem 0 3 16 12=15 ∧ memcpy countedMem 0 3 16 16=16 := by
  have h := memcpy_paths_agree countedMem 0 3 16 (.inl (by decide))
  exact ⟨h.1 rfl,h.2.2.1 12 (by decide),h.2.2.2 16 (by decide)⟩

theorem divRoundup_eq (value : Nat) (h : value+4095 < 2^64) :
    divRoundup value 4096=(value+4095)/4096 := by
  rw [divRoundup,Nat.mod_eq_of_lt h]

theorem le_divRoundup (value : Nat) (h : value+4095 < 2^64) :
    value ≤ divRoundup value 4096*4096 := by
  rw [divRoundup_eq value h]
  omega

end X64OS.Memory
