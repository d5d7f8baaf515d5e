import X64OS.Memory.Ram

namespace X64OS.Memory

open Framework

def ptePresent : BitVec 64 := 1#64

def pteWritable : BitVec 64 := 2#64

def pteUser : BitVec 64 := 4#64

def pteAddrMask : BitVec 64 := 0x000ffffffffff000#64

def pteGetAddr (value : BitVec 64) : BitVec 64 := value &&& pteAddrMask

def pteGetFlags (value : BitVec 64) : BitVec 64 := value &&& ~~~pteAddrMask

def invalidPhys : BitVec 64 := 0xffffffffffffffff#64

def isPresent (value : BitVec 64) : Bool := value &&& ptePresent≠0

def entryIndex (k : Nat) (virt : BitVec 64) : Nat := ((virt &&& (0x1ff#64 <<< k)) >>> k).toNat

section
variable (virt : BitVec 64)

def pml4Entry : Nat := entryIndex 39 virt

def pml3Entry : Nat := entryIndex 30 virt

def pml2Entry : Nat := entryIndex 21 virt

def pml1Entry : Nat := entryIndex 12 virt

end

def entry (m : Mem) (table idx : Nat) : BitVec 64 := m.read64 (table+8*idx)

def setEntry (m : Mem) (table idx : Nat) (value : BitVec 64) : Mem := m.write64 (table+8*idx) value

def nextTable (M : Machine) (value : BitVec 64) : Nat := ((pteGetAddr value).toNat+M.hhdm)%2^64

/-- top_level += VMM_HIGHER_HALF for a pointer below the direct map; as pointer
arithmetic it counts in entries of eight bytes. -/
def liftTable (M : Machine) (table : Nat) : Nat :=
  if table < M.hhdm then (table+8*M.hhdm)%2^64 else table

section

variable {M : Machine} {P : Type} (A : PageAllocator M P)

def getNextLevel (r : Ram P) (topLevel idx : Nat) (allocate : Bool) : Option (Nat × Ram P) :=
  let top := liftTable M topLevel
  if isPresent (entry r.mem top idx) then some (nextTable M (entry r.mem top idx),r)
  else if allocate=false then some (0,r)
  else
    (pmmAlloc A r 1).map (fun x =>
      if x.1=0 then (0,x.2)
      else ((x.1+M.hhdm)%2^64,⟨setEntry x.2.mem top idx
        (BitVec.ofNat 64 x.1 ||| ptePresent ||| pteWritable ||| pteUser),x.2.pmm⟩))

def findPml1 (r : Ram P) (pml4 : Nat) (virt : BitVec 64) (allocate : Bool) :
    Option (Nat × Ram P) :=
  (getNextLevel A r pml4 (pml4Entry virt) allocate).bind (fun x =>
    if x.1=0 then some x
    else (getNextLevel A x.2 x.1 (pml3Entry virt) allocate).bind (fun y =>
      if y.1=0 then some y
      else getNextLevel A y.2 y.1 (pml2Entry virt) allocate))

/-- A pagemap is given by its top_level pointer; none is the null pagemap. -/
def vmmMapPage (r : Ram P) (pagemap : Option Nat) (virt phys flags : BitVec 64)
    (overwrite : Bool) : Option (Bool × Ram P) :=
  match pagemap with
  | none => some (false,r)
  | some topLevel =>
    (findPml1 A r (liftTable M topLevel) virt true).map (fun x =>
      if x.1=0 then (false,x.2)
      else if isPresent (entry x.2.mem x.1 (pml1Entry virt)) ∧ overwrite=false then (false,x.2)
      else (true,⟨setEntry x.2.mem x.1 (pml1Entry virt)
        (phys ||| ((flags ||| pteUser) &&& ~~~(1#64 <<< 63))),x.2.pmm⟩))

section
variable (r : Ram P) (topLevel : Nat) (virt : BitVec 64)

/-- The address of the entry that maps virt, 0 for NULL. -/
def vmmVirt2pte (allocate : Bool) : Option (Nat × Ram P) :=
  (findPml1 A r topLevel virt allocate).map (fun x =>
    if x.1=0 then (0,x.2) else (x.1+8*pml1Entry virt,x.2))

def vmmVirt2phys : Option (BitVec 64) :=
  (vmmVirt2pte A r topLevel virt false).map (fun x =>
    if x.1=0 ∨ pteGetFlags (x.2.mem.read64 x.1) &&& ptePresent=0 then invalidPhys
    else pteGetAddr (x.2.mem.read64 x.1)+virt%4096#64)

def vmmUnmapPage : Option (Bool × Ram P) :=
  (findPml1 A r topLevel virt false).map (fun x =>
    if x.1=0 then (false,x.2)
    else if isPresent (entry x.2.mem x.1 (pml1Entry virt))=false then (false,x.2)
    else (true,⟨setEntry x.2.mem x.1 (pml1Entry virt) 0,x.2.pmm⟩))

end

def copyEntries (m : Mem) (dst src : Nat) : Nat → Mem
  | 0 => m
  | n+1 =>
    let m' := copyEntries m dst src n
    setEntry m' dst (256+n) (entry m' src (256+n))

/-- A new pagemap shares the upper half of krnl_page and maps two pages to
themselves. -/
def vmmNewPagemap (r : Ram P) (krnlPage : Option Nat) : Option (Option Nat × Ram P) :=
  (pmmAlloc A r 1).bind (fun x =>
    if x.1=0 then some (none,x.2)
    else
      let top := (x.1+M.hhdm)%2^64
      let m := x.2.mem.fill top 4096 0
      let m' := match krnlPage with
        | none => m
        | some k => copyEntries m top k 256
      (vmmMapPage A ⟨m',x.2.pmm⟩ (some top) 0x37fc024#64 0x37fc024#64
          (ptePresent ||| pteWritable) false).bind (fun y =>
        (vmmMapPage A y.2 (some top) 0x37fd024#64 0x37fd024#64
          (pteWritable ||| ptePresent) false).map (fun z => (some top,z.2))))

def populate (r : Ram P) (topLevel : Nat) : Nat → Option (Ram P)
  | 0 => some r
  | n+1 =>
    (populate r topLevel n).bind (fun r' => (getNextLevel A r' topLevel n true).map (fun x => x.2))

/-- InitStage2 up to the filled top level of krnl_page; a failed allocation
stops there for good. -/
def initStage2 (r : Ram P) : Option (Nat × Ram P) :=
  (pmmAlloc A r 1).bind (fun x =>
    if x.1=0 then none
    else
      let top := (x.1+M.hhdm)%2^64
      (populate A x.2 top 512).map (fun r' => (top,r')))

end

theorem entryIndex_eq (k : Nat) (hk : k+9 ≤ 64) (virt : BitVec 64) :
    entryIndex k virt=virt.toNat/2^k%512 := by
  have hmask : (0x1ff#64 <<< k).toNat=511*2^k := by
    rw [BitVec.toNat_shiftLeft,Nat.shiftLeft_eq]
    apply Nat.mod_eq_of_lt
    calc 511*2^k < 2^9*2^k := Nat.mul_lt_mul_of_pos_right (by decide) (Nat.two_pow_pos k)
      _ = 2^(k+9) := by rw [← Nat.pow_add,Nat.add_comm]
      _ ≤ 2^64 := Nat.pow_le_pow_right (by decide) hk
  rw [entryIndex,BitVec.toNat_ushiftRight,BitVec.toNat_and,hmask,Nat.shiftRight_and_distrib,
    Nat.shiftRight_eq_div_pow,Nat.shiftRight_eq_div_pow,
    Nat.mul_div_cancel _ (Nat.two_pow_pos k)]
  exact Nat.and_two_pow_sub_one_eq_mod _ 9

theorem entryIndex_lt {k : Nat} (hk : k+9 ≤ 64) (virt : BitVec 64) : entryIndex k virt < 512 := by
  rw [entryIndex_eq k hk]
  exact Nat.mod_lt _ (by decide)

theorem isPresent_iff (value : BitVec 64) : isPresent value=value.getLsbD 0 := by
  have hbit : (1#64)=BitVec.twoPow 64 0 := rfl
  rw [isPresent,ptePresent,hbit,BitVec.and_twoPow,← hbit]
  cases value.getLsbD 0 <;> simp

theorem pteGetFlags_present (value : BitVec 64) :
    pteGetFlags value &&& ptePresent=0 ↔ isPresent value=false := by
  have hc : ~~~pteAddrMask &&& ptePresent=ptePresent := by decide
  rw [pteGetFlags,BitVec.and_assoc,hc,isPresent]
  simp

@[simp] theorem isPresent_zero : isPresent 0=false := by decide

@[simp] theorem isPresent_or (a b : BitVec 64) :
    isPresent (a ||| b)=(isPresent a || isPresent b) := by
  rw [isPresent_iff,isPresent_iff,isPresent_iff,BitVec.getLsbD_or]

theorem pteGetAddr_eq {phys : BitVec 64} (hal : phys.toNat%4096=0) (hlt : phys.toNat < 2^52) :
    pteGetAddr phys=phys := by
  apply BitVec.eq_of_toNat_eq
  have hmask : pteAddrMask.toNat=(2^40-1)*2^12 := by decide
  have hq : phys.toNat/2^12 < 2^40 := by omega
  rw [pteGetAddr,BitVec.toNat_and,hmask]
  apply Nat.eq_of_testBit_eq
  intro i
  rw [Nat.testBit_and,Nat.testBit_mul_two_pow,Nat.testBit_two_pow_sub_one]
  have hdiv : phys.toNat=phys.toNat/2^12*2^12 := by omega
  rw [hdiv,Nat.testBit_mul_two_pow]
  by_cases hi : 12 ≤ i
  · by_cases hj : i-12 < 40
    · simp [hi,hj]
    · have hb : (phys.toNat/2^12).testBit (i-12)=false :=
        Nat.testBit_lt_two_pow (lt_of_lt_of_le hq (Nat.pow_le_pow_right (by decide) (by omega)))
      rw [hb,Bool.and_false,Bool.false_and]
  · simp [hi]

theorem pteGetAddr_or (a b : BitVec 64) : pteGetAddr (a ||| b)=pteGetAddr a ||| pteGetAddr b := by
  rw [pteGetAddr,pteGetAddr,pteGetAddr,BitVec.and_comm,BitVec.and_or_distrib_left,
    BitVec.and_comm a,BitVec.and_comm b]

theorem nextTable_new {M : Machine} {phys : Nat} (hal : phys%pageSize=0)
    (hb : phys+pageSize ≤ M.physPages*pageSize) :
    nextTable M (BitVec.ofNat 64 phys ||| ptePresent ||| pteWritable ||| pteUser)=phys+M.hhdm := by
  have hw := M.window
  have hp := M.phys_le
  simp only [pageSize] at hal hb hw
  have hn : (BitVec.ofNat 64 phys).toNat=phys := by
    rw [BitVec.toNat_ofNat]
    apply Nat.mod_eq_of_lt
    omega
  have hflags : pteGetAddr ptePresent=0 ∧ pteGetAddr pteWritable=0 ∧ pteGetAddr pteUser=0 := by
    decide
  have hgoal : pteGetAddr (BitVec.ofNat 64 phys ||| ptePresent ||| pteWritable ||| pteUser)=
      BitVec.ofNat 64 phys := by
    rw [pteGetAddr_or,pteGetAddr_or,pteGetAddr_or,hflags.1,hflags.2.1,hflags.2.2,
      pteGetAddr_eq (by omega) (by omega)]
    simp
  rw [nextTable,hgoal,hn]
  apply Nat.mod_eq_of_lt
  omega

end X64OS.Memory
