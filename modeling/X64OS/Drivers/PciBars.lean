import Mathlib.Logic.Function.Basic

namespace X64OS.Drivers

open Function

structure PciBar where
  base : BitVec 64
  len : BitVec 64
  isMmio : Bool
  deriving DecidableEq

/-- The configuration registers of a function by their offset, and the bits of each that
a write changes; the others are hardwired. -/
structure PciRegisters where
  value : Nat → BitVec 32
  writable : Nat → BitVec 32

namespace PciRegisters

def write (d : PciRegisters) (offset : Nat) (v : BitVec 32) : PciRegisters :=
  let bits := (v &&& d.writable offset) ||| (d.value offset &&& ~~~d.writable offset)
  { d with value := update d.value offset bits }

/-- pci_get_bar; the sizes are computed in 32 bits. -/
def pciGetBar (d : PciRegisters) (index : Nat) : PciBar × PciRegisters :=
  if 5 < index then (⟨0,0,false⟩,d)
  else
    let offset := 0x10+index*4
    let baseLow := d.value offset
    let d := d.write offset 0xffffffff
    let sizeLow := d.value offset
    let d := d.write offset baseLow
    if baseLow &&& 1≠0 then
      (⟨(baseLow &&& ~~~3).setWidth 64,(~~~(sizeLow &&& ~~~3)+1).setWidth 64,false⟩,d)
    else
      let type := (baseLow >>> 1) &&& 3
      let baseHigh := d.value (offset+4)
      let base := (baseLow &&& 0xfffffff0).setWidth 64
      let base := if type=2 then base ||| (baseHigh.setWidth 64 <<< 32) else base
      (⟨base,(~~~(sizeLow &&& ~~~15)+1).setWidth 64,true⟩,d)

def Wide (flags : BitVec 4) : Prop := (flags >>> 1) &&& 3=2

instance decidableWide (flags : BitVec 4) : Decidable (Wide flags) :=
  inferInstanceAs (Decidable (_=_))

/-- The register at this index is a memory BAR at base with these flags: of its 32 or 64 bits
those from k on can be written, the rest is hardwired to the flags and to zero. -/
structure MemoryBar (d : PciRegisters) (index : Nat) (flags : BitVec 4) (k : Nat)
    (base : BitVec 64) : Prop where
  place : index ≤ 5
  memory : flags.getLsbD 0=false
  least : 4 ≤ k
  most : k < if Wide flags then 64 else 32
  aligned : ∀ i < k, base.getLsbD i=false
  low : d.value (0x10+index*4)=base.setWidth 32 ||| flags.setWidth 32
  lowWritable : d.writable (0x10+index*4)=BitVec.allOnes 32 <<< k
  high : Wide flags → d.value (0x10+index*4+4)=(base >>> 32).setWidth 32
  highWritable : Wide flags →
    d.writable (0x10+index*4+4)=((BitVec.allOnes 64 <<< k) >>> 32).setWidth 32
  narrow : ¬Wide flags → ∀ i, 32 ≤ i → base.getLsbD i=false

variable {d : PciRegisters} {index k : Nat} {flags : BitVec 4} {base : BitVec 64}

theorem not_allOnes_shiftLeft (k : Nat) :
    ~~~(BitVec.allOnes 32 <<< k)+1=BitVec.twoPow 32 k := by
  have hneg : ~~~(BitVec.allOnes 32 <<< k)+1=-(BitVec.allOnes 32 <<< k) :=
    (BitVec.neg_eq_not_add _).symm
  rw [hneg,BitVec.shiftLeft_eq_mul_twoPow,← BitVec.neg_one_eq_allOnes,BitVec.neg_mul,
    BitVec.one_mul,BitVec.neg_neg]

theorem getLsbD_above (n k i : Nat) :
    (BitVec.allOnes n <<< k).getLsbD i=(decide (i < n) && decide (k ≤ i)) := by
  rw [BitVec.getLsbD_shiftLeft,BitVec.getLsbD_allOnes]
  by_cases hn : i < n
  · have hsub : i-k < n := by omega
    by_cases hk : i < k
    · simp [hk]
    · simp [hn,hk,hsub,Nat.le_of_not_lt hk]
  · simp [hn]

theorem value_write (d : PciRegisters) (offset : Nat) (v : BitVec 32) :
    (d.write offset v).value offset=
      (v &&& d.writable offset) ||| (d.value offset &&& ~~~d.writable offset) :=
  update_self _ _ _

theorem write_back (d : PciRegisters) (offset : Nat) (v : BitVec 32) :
    (d.write offset v).write offset (d.value offset)=d := by
  obtain ⟨value,writable⟩ := d
  simp only [write,update_self,update_idem,mk.injEq,and_true]
  apply update_eq_self_iff.mpr
  apply BitVec.eq_of_getLsbD_eq
  intro i hi
  simp only [BitVec.getLsbD_or,BitVec.getLsbD_and,BitVec.getLsbD_not,hi]
  cases (writable offset).getLsbD i <;> simp

section
variable (h : d.MemoryBar index flags k base)
include h

theorem MemoryBar.sizeLow :
    (d.write (0x10+index*4) 0xffffffff).value (0x10+index*4) &&& ~~~15=BitVec.allOnes 32 <<< k := by
  have hones : (0xffffffff : BitVec 32)=BitVec.allOnes 32 := rfl
  have hflags : (~~~15 : BitVec 32)=BitVec.allOnes 32 <<< 4 := rfl
  rw [value_write,h.low,h.lowWritable,hones,hflags,BitVec.allOnes_and]
  have hleast := h.least
  apply BitVec.eq_of_getLsbD_eq
  intro i hi
  simp only [BitVec.getLsbD_or,BitVec.getLsbD_and,BitVec.getLsbD_not,BitVec.getLsbD_setWidth,
    getLsbD_above,hi]
  -- The bits from k on come back as ones, those below are the base's zeros and the flags.
  by_cases hik : k ≤ i
  · have hi4 : 4 ≤ i := by omega
    simp [hik,hi4]
  · by_cases hi4 : 4 ≤ i
    · simp [hik,h.aligned i (by omega),BitVec.getLsbD_of_ge flags i hi4]
    · simp [hik,hi4]

theorem MemoryBar.baseLow : d.value (0x10+index*4) &&& 0xfffffff0=base.setWidth 32 := by
  have hflags : (0xfffffff0 : BitVec 32)=BitVec.allOnes 32 <<< 4 := rfl
  rw [h.low,hflags]
  have hleast := h.least
  apply BitVec.eq_of_getLsbD_eq
  intro i hi
  simp only [BitVec.getLsbD_or,BitVec.getLsbD_and,BitVec.getLsbD_setWidth,getLsbD_above,hi]
  by_cases hi4 : 4 ≤ i
  · simp [hi4]
  · simp [hi4,h.aligned i (by omega)]

theorem MemoryBar.lowBits : d.value (0x10+index*4) &&& 15=flags.setWidth 32 := by
  have hmask : (15 : BitVec 32)= ~~~(BitVec.allOnes 32 <<< 4) := rfl
  have hleast := h.least
  rw [h.low,hmask]
  apply BitVec.eq_of_getLsbD_eq
  intro i hi
  simp only [BitVec.getLsbD_or,BitVec.getLsbD_and,BitVec.getLsbD_not,BitVec.getLsbD_setWidth,
    getLsbD_above,hi]
  by_cases hi4 : 4 ≤ i
  · simp [hi4]
  · simp [hi4,h.aligned i (by omega)]

theorem MemoryBar.isMemory : d.value (0x10+index*4) &&& 1=0 := by
  have hflags : ∀ flags : BitVec 4, flags.getLsbD 0=false → flags.setWidth 32 &&& (1 : BitVec 32)=0 := by
    decide
  have hone : (1 : BitVec 32)=15 &&& 1 := rfl
  rw [hone,← BitVec.and_assoc,h.lowBits]
  exact hflags flags h.memory

theorem MemoryBar.type_iff : (d.value (0x10+index*4) >>> 1) &&& 3=2 ↔ Wide flags := by
  have hflags : ∀ flags : BitVec 4, (flags.setWidth 32 >>> 1) &&& (3 : BitVec 32)=2 ↔ Wide flags := by
    decide
  have hthree : (3 : BitVec 32)=((15 : BitVec 32) >>> 1) &&& 3 := rfl
  rw [hthree,← BitVec.and_assoc,← BitVec.ushiftRight_and_distrib,h.lowBits]
  exact hflags flags

theorem MemoryBar.base_eq :
    (if Wide flags then
      (base.setWidth 32).setWidth 64 ||| ((d.value (0x10+index*4+4)).setWidth 64 <<< 32)
    else (base.setWidth 32).setWidth 64)=base := by
  split
  · rename_i hwide
    rw [h.high hwide]
    apply BitVec.eq_of_getLsbD_eq
    intro i hi
    simp only [BitVec.getLsbD_or,BitVec.getLsbD_setWidth,BitVec.getLsbD_shiftLeft,
      BitVec.getLsbD_ushiftRight,hi]
    by_cases hi32 : i < 32
    · simp [hi32]
    · have hsub : 32+(i-32)=i := by omega
      have hlt : i-32 < 32 := by omega
      simp [hi32,hsub,hlt]
      omega
  · rename_i hnarrow
    apply BitVec.eq_of_getLsbD_eq
    intro i hi
    simp only [BitVec.getLsbD_setWidth,hi]
    by_cases hi32 : i < 32
    · simp [hi32]
    · simp [hi32,h.narrow hnarrow i (by omega)]

theorem MemoryBar.pciGetBar :
    d.pciGetBar index=(⟨base,(BitVec.twoPow 32 k).setWidth 64,true⟩,d) := by
  have hplace : ¬5 < index := by
    have hplace := h.place
    omega
  unfold PciRegisters.pciGetBar
  rw [if_neg hplace]
  dsimp only
  rw [if_neg (not_not.mpr h.isMemory),write_back,h.baseLow,h.sizeLow,not_allOnes_shiftLeft,
    if_congr h.type_iff rfl rfl,h.base_eq]

end

theorem twoPow_setWidth_iff {k : Nat} (hk : k < 64) :
    (BitVec.twoPow 32 k).setWidth 64=BitVec.twoPow 64 k ↔ k < 32 := by
  constructor
  · intro h
    have hbit := congrArg (fun v => v.getLsbD k) h
    simp only [BitVec.getLsbD_setWidth,BitVec.getLsbD_twoPow] at hbit
    simpa [hk] using hbit
  · intro hk32
    apply BitVec.eq_of_getLsbD_eq
    intro i hi
    simp only [BitVec.getLsbD_setWidth,BitVec.getLsbD_twoPow]
    simp [hi,hk,hk32]

/-- pci_get_bar returns the base and the size of a memory BAR and leaves the registers as they
were, exactly if the size is below 4 GiB. -/
theorem get_bar_iff (d : PciRegisters) (index : Nat) (flags : BitVec 4) (k : Nat) (base : BitVec 64)
    (h : d.MemoryBar index flags k base) :
    d.pciGetBar index=(⟨base,BitVec.twoPow 64 k,true⟩,d) ↔ k < 32 := by
  have hk : k < 64 := by
    have hmost := h.most
    split at hmost <;> omega
  rw [h.pciGetBar,← twoPow_setWidth_iff hk]
  simp

def wideBar (k : Nat) : PciRegisters :=
  ⟨fun offset => if offset=0x10 then 0xc else if offset=0x14 then 0x10 else 0,
    fun offset => if offset=0x10 then BitVec.allOnes 32 <<< k
      else if offset=0x14 then ((BitVec.allOnes 64 <<< k) >>> 32).setWidth 32 else 0⟩

theorem wideBar_memoryBar {k : Nat} (hleast : 4 ≤ k) (hmost : k ≤ 36) :
    (wideBar k).MemoryBar 0 0xc k 0x1000000000 where
  place := by decide
  memory := by decide
  least := hleast
  most := by
    rw [if_pos (by decide)]
    omega
  aligned := by
    intro i hi
    have hbits : ∀ i < 36, (0x1000000000 : BitVec 64).getLsbD i=false := by decide
    exact hbits i (by omega)
  low := by rfl
  lowWritable := rfl
  high := fun _ => by rfl
  highWritable := fun _ => rfl
  narrow := fun h => absurd (by decide) h

theorem get_bar_megabyte :
    (wideBar 20).pciGetBar 0=(⟨0x1000000000,BitVec.twoPow 64 20,true⟩,wideBar 20) :=
  (get_bar_iff (wideBar 20) 0 0xc 20 0x1000000000 (wideBar_memoryBar (by decide) (by decide))).mpr
    (by decide)

/-- Of a BAR of 4 GiB the length is zero. -/
theorem get_bar_four_gigabytes : (wideBar 32).MemoryBar 0 0xc 32 0x1000000000 ∧
    ((wideBar 32).pciGetBar 0).1=⟨0x1000000000,0,true⟩ :=
  ⟨wideBar_memoryBar (by decide) (by decide),by decide⟩

end PciRegisters

end X64OS.Drivers
