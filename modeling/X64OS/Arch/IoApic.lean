import Mathlib.Data.List.Pairwise
import Mathlib.Logic.Function.Basic

namespace X64OS.Arch

open Function

/-- struct madt_io_apic, and below struct madt_io_apic_irq_map, with the fields that are read. -/
structure MadtIoApic where
  ioapicAddr : BitVec 32
  gsiBase : BitVec 32
  deriving DecidableEq

structure MadtIoApicIrqMap where
  irqSrc : BitVec 8
  gsi : BitVec 32
  flags : BitVec 16

structure RegStore where
  ioapicAddr : BitVec 32
  reg : BitVec 32
  value : BitVec 32

/-- The I/O APICs by their physical addresses: the register that is selected, the registers
behind the window, and the stores to them so far. -/
structure IoApics where
  select : BitVec 32 → BitVec 32
  regs : BitVec 32 → BitVec 32 → BitVec 32
  stores : List RegStore

section
variable (s : IoApics) (ioApic : MadtIoApic)

def ioApicRead (reg : BitVec 32) : BitVec 32 × IoApics :=
  let s := { s with select := update s.select ioApic.ioapicAddr reg }
  (s.regs ioApic.ioapicAddr (s.select ioApic.ioapicAddr),s)

def ioApicWrite (reg value : BitVec 32) : IoApics :=
  let s := { s with select := update s.select ioApic.ioapicAddr reg }
  let reg := s.select ioApic.ioapicAddr
  { s with
    regs := update s.regs ioApic.ioapicAddr
      (update (s.regs ioApic.ioapicAddr) reg value)
    stores := s.stores++[⟨ioApic.ioapicAddr,reg,value⟩] }

def ioApicGsiCount : Nat × IoApics :=
  let x := ioApicRead s ioApic 1
  (((x.1 &&& 0xff0000) >>> 16).toNat,x.2)

end

/-- The sum of gsi_base and the count is one of 64 bits; none is the pointer -1. -/
def ioApicFromGsi (gsi : BitVec 32) : List MadtIoApic → IoApics → Option MadtIoApic × IoApics
  | [],s => (none,s)
  | ioApic::rest,s =>
    if ioApic.gsiBase.toNat ≤ gsi.toNat then
      let x := ioApicGsiCount s ioApic
      if gsi.toNat < ioApic.gsiBase.toNat+x.1 then (some ioApic,x.2) else ioApicFromGsi gsi rest x.2
    else ioApicFromGsi gsi rest s

/-- The redirection entry that io_apic_set_gsi_redirect puts together. -/
def redirectEntry (lapicId : BitVec 32) (vector : BitVec 8) (flags : BitVec 16) (status : Bool) :
    BitVec 64 :=
  let redirect := vector.setWidth 64
  let redirect := if flags &&& (1#16 <<< 1)≠0 then redirect ||| (1#64 <<< 13) else redirect
  let redirect := if flags &&& (1#16 <<< 3)≠0 then redirect ||| (1#64 <<< 15) else redirect
  let redirect := if status=false then redirect ||| (1#64 <<< 16) else redirect
  redirect ||| (lapicId.setWidth 64 <<< 56)

section

variable (apics : List MadtIoApic) (s : IoApics) (lapicId : BitVec 32) (vector : BitVec 8)

/-- none where it goes on with the pointer -1. -/
def ioApicSetGsiRedirect (gsi : BitVec 8) (flags : BitVec 16) (status : Bool) : Option IoApics :=
  let x := ioApicFromGsi (gsi.setWidth 32) apics s
  x.1.map (fun ioApic =>
    let redirect := redirectEntry lapicId vector flags status
    let ioRedirectTable := (gsi.setWidth 32-ioApic.gsiBase)*2+16
    ioApicWrite (ioApicWrite x.2 ioApic ioRedirectTable (redirect.setWidth 32)) ioApic
      (ioRedirectTable+1) ((redirect >>> 32).setWidth 32))

/-- The first override for the irq counts; its GSI becomes an uint8_t. -/
def ioApicSetIrqRedirect (irqMaps : List MadtIoApicIrqMap) (irq : BitVec 8) (status : Bool) :
    Option IoApics :=
  match irqMaps.find? (fun iso => iso.irqSrc=irq) with
  | some iso => ioApicSetGsiRedirect apics s lapicId vector (iso.gsi.setWidth 8) iso.flags status
  | none => ioApicSetGsiRedirect apics s lapicId vector irq 0 status

end

def maxEntry (s : IoApics) (ioApic : MadtIoApic) : Nat :=
  ((s.regs ioApic.ioapicAddr 1 &&& 0xff0000) >>> 16).toNat

/-- The interval of an I/O APIC, up to its last entry. -/
def MadtIoApic.Has (s : IoApics) (ioApic : MadtIoApic) (gsi : BitVec 32) : Prop :=
  ioApic.gsiBase.toNat ≤ gsi.toNat ∧ gsi.toNat ≤ ioApic.gsiBase.toNat+maxEntry s ioApic

instance decidableHas (s : IoApics) (ioApic : MadtIoApic) (gsi : BitVec 32) :
    Decidable (ioApic.Has s gsi) :=
  inferInstanceAs (Decidable (_ ∧ _))

/-- Each I/O APIC has an address of its own, and no two of them have a GSI in common. -/
structure IoApicSet (s : IoApics) (apics : List MadtIoApic) : Prop where
  addrs : apics.Pairwise (fun a b => a.ioapicAddr≠b.ioapicAddr)
  gsis : apics.Pairwise (fun a b => ∀ gsi, ¬(a.Has s gsi ∧ b.Has s gsi))

/-- The GSI of an irq and its flags, after the overrides. -/
def overridden (irqMaps : List MadtIoApicIrqMap) (irq : BitVec 8) : BitVec 32 × BitVec 16 :=
  match irqMaps.find? (fun iso => iso.irqSrc=irq) with
  | some iso => (iso.gsi,iso.flags)
  | none => (irq.setWidth 32,0)

/-- The fields of a redirection entry are as requested; the rest of it is zero, which is fixed
delivery to one physical destination. -/
structure Requested (entry : BitVec 64) (lapicId : BitVec 32) (vector : BitVec 8)
    (flags : BitVec 16) (status : Bool) : Prop where
  vector : entry.setWidth 8=vector
  polarity : entry.getLsbD 13=flags.getLsbD 1
  trigger : entry.getLsbD 15=flags.getLsbD 3
  mask : entry.getLsbD 16=!status
  destination : (entry >>> 56).toNat=lapicId.toNat
  rest : ∀ i, 8 ≤ i → i < 56 → i≠13 → i≠15 → i≠16 → entry.getLsbD i=false

def entryReg (k : Nat) : BitVec 32 := BitVec.ofNat 32 (16+2*k)

/-- The two registers of the k-th entry are stored to, once each, and hold the entry; every
other register of every I/O APIC is as it was. -/
structure Programmed (s s' : IoApics) (ioApic : MadtIoApic) (k : Nat) (entry : BitVec 64) :
    Prop where
  stores : s'.stores=s.stores++[⟨ioApic.ioapicAddr,entryReg k,entry.setWidth 32⟩,
    ⟨ioApic.ioapicAddr,entryReg k+1,(entry >>> 32).setWidth 32⟩]
  low : s'.regs ioApic.ioapicAddr (entryReg k)=entry.setWidth 32
  high : s'.regs ioApic.ioapicAddr (entryReg k+1)=(entry >>> 32).setWidth 32
  others : ∀ addr reg, (addr=ioApic.ioapicAddr → reg≠entryReg k ∧ reg≠entryReg k+1) →
    s'.regs addr reg=s.regs addr reg

variable {k : Nat}

section

variable {s s' : IoApics} {apics : List MadtIoApic} {gsi : BitVec 32} {ioApic : MadtIoApic}

def SameRegs (s s' : IoApics) : Prop := s'.regs=s.regs ∧ s'.stores=s.stores

/-- The test of io_apic_from_gsi, which leaves out the last entry. -/
def MadtIoApic.Covers (s : IoApics) (gsi : BitVec 32) (ioApic : MadtIoApic) : Prop :=
  ioApic.gsiBase.toNat ≤ gsi.toNat ∧ gsi.toNat < ioApic.gsiBase.toNat+maxEntry s ioApic

instance decidableGsiCovers (s : IoApics) (gsi : BitVec 32) (ioApic : MadtIoApic) :
    Decidable (ioApic.Covers s gsi) :=
  inferInstanceAs (Decidable (_ ∧ _))

theorem ioApicGsiCount_eq (s : IoApics) (ioApic : MadtIoApic) :
    (ioApicGsiCount s ioApic).1=maxEntry s ioApic ∧ SameRegs s (ioApicGsiCount s ioApic).2 := by
  simp [ioApicGsiCount,ioApicRead,maxEntry,SameRegs]

theorem SameRegs.trans {s₁ s₂ s₃ : IoApics} (h : SameRegs s₁ s₂) (k : SameRegs s₂ s₃) :
    SameRegs s₁ s₃ :=
  ⟨k.1.trans h.1,k.2.trans h.2⟩

theorem SameRegs.covers (h : SameRegs s s') : ioApic.Covers s' gsi ↔ ioApic.Covers s gsi := by
  rw [MadtIoApic.Covers,MadtIoApic.Covers,maxEntry,maxEntry,h.1]

theorem ioApicFromGsi_eq (gsi : BitVec 32) (apics : List MadtIoApic) (s : IoApics) :
    (ioApicFromGsi gsi apics s).1=apics.find? (fun ioApic => ioApic.Covers s gsi) ∧
    SameRegs s (ioApicFromGsi gsi apics s).2 := by
  induction apics generalizing s with
  | nil => exact ⟨rfl,rfl,rfl⟩
  | cons ioApic apics ih =>
    obtain ⟨hcount,hsame⟩ := ioApicGsiCount_eq s ioApic
    have hagain := ih (ioApicGsiCount s ioApic).2
    simp only [hsame.covers] at hagain
    rw [ioApicFromGsi]
    dsimp only
    rw [hcount,List.find?_cons]
    by_cases hlow : ioApic.gsiBase.toNat ≤ gsi.toNat
    · rw [if_pos hlow]
      by_cases hhigh : gsi.toNat < ioApic.gsiBase.toNat+maxEntry s ioApic
      · have hcovers : ioApic.Covers s gsi := ⟨hlow,hhigh⟩
        rw [if_pos hhigh,decide_eq_true hcovers]
        exact ⟨rfl,hsame⟩
      · have hcovers : ¬ioApic.Covers s gsi := fun h => hhigh h.2
        rw [if_neg hhigh,decide_eq_false hcovers]
        exact ⟨hagain.1,hsame.trans hagain.2⟩
    · have hcovers : ¬ioApic.Covers s gsi := fun h => hlow h.1
      rw [if_neg hlow,decide_eq_false hcovers]
      exact ih s

theorem ioApicSetIrqRedirect_eq (irqMaps : List MadtIoApicIrqMap) (lapicId : BitVec 32)
    (vector irq : BitVec 8) (status : Bool) :
    ioApicSetIrqRedirect apics s lapicId vector irqMaps irq status=
      ioApicSetGsiRedirect apics s lapicId vector ((overridden irqMaps irq).1.setWidth 8)
        (overridden irqMaps irq).2 status := by
  unfold ioApicSetIrqRedirect overridden
  split
  · rfl
  · rw [BitVec.setWidth_setWidth_of_le _ (by decide),BitVec.setWidth_eq]

theorem ioApicWrite_twice (s : IoApics) (ioApic : MadtIoApic) (k : Nat) (entry : BitVec 64) :
    Programmed s (ioApicWrite (ioApicWrite s ioApic (entryReg k) (entry.setWidth 32)) ioApic
      (entryReg k+1) ((entry >>> 32).setWidth 32)) ioApic k entry where
  stores := by simp [ioApicWrite]
  low := by simp [ioApicWrite]
  high := by simp [ioApicWrite]
  others addr reg h := by
    by_cases haddr : addr=ioApic.ioapicAddr
    · obtain ⟨hlow,hhigh⟩ := h haddr
      subst haddr
      simp only [ioApicWrite,update_self]
      rw [update_of_ne hhigh,update_of_ne hlow]
    · simp only [ioApicWrite,update_of_ne haddr]

theorem Programmed.of_sameRegs {s₀ : IoApics} {entry : BitVec 64} (h : SameRegs s₀ s)
    (hp : Programmed s s' ioApic k entry) : Programmed s₀ s' ioApic k entry where
  stores := by rw [hp.stores,h.2]
  low := hp.low
  high := hp.high
  others addr reg hreg := by rw [hp.others addr reg hreg,h.1]

theorem entryReg_eq (hle : ioApic.gsiBase.toNat ≤ gsi.toNat) :
    (gsi-ioApic.gsiBase)*2+16=entryReg (gsi.toNat-ioApic.gsiBase.toNat) := by
  apply BitVec.eq_of_toNat_eq
  rw [entryReg]
  simp only [BitVec.ofNat_eq_ofNat,BitVec.toNat_add,BitVec.toNat_mul,BitVec.toNat_sub,
    BitVec.toNat_ofNat]
  have hgsi := gsi.isLt
  omega

section
variable (lapicId : BitVec 32) (vector gsi : BitVec 8) (flags : BitVec 16) (status : Bool)

theorem ioApicSetGsiRedirect_eq
    (h : apics.find? (fun ioApic => ioApic.Covers s (gsi.setWidth 32))=some ioApic) :
    ∃ s', ioApicSetGsiRedirect apics s lapicId vector gsi flags status=some s' ∧
      Programmed s s' ioApic ((gsi.setWidth 32).toNat-ioApic.gsiBase.toNat)
        (redirectEntry lapicId vector flags status) := by
  obtain ⟨hfound,hsame⟩ := ioApicFromGsi_eq (gsi.setWidth 32) apics s
  have hcovers : ioApic.Covers s (gsi.setWidth 32) := by simpa using List.find?_some h
  rw [h] at hfound
  rw [ioApicSetGsiRedirect]
  dsimp only
  rw [hfound,Option.map_some,entryReg_eq hcovers.1]
  exact ⟨_,rfl,(ioApicWrite_twice _ ioApic _ _).of_sameRegs hsame⟩

theorem ioApicSetGsiRedirect_none
    (h : apics.find? (fun ioApic => ioApic.Covers s (gsi.setWidth 32))=none) :
    ioApicSetGsiRedirect apics s lapicId vector gsi flags status=none := by
  rw [ioApicSetGsiRedirect,(ioApicFromGsi_eq (gsi.setWidth 32) apics s).1,h,Option.map_none]

end

theorem ioApicSetGsiRedirect_cases {lapicId : BitVec 32} {vector gsi : BitVec 8}
    {flags : BitVec 16} {status : Bool}
    (h : ioApicSetGsiRedirect apics s lapicId vector gsi flags status=some s') :
    ∃ ioApic∈apics, ioApic.Covers s (gsi.setWidth 32) ∧
      Programmed s s' ioApic ((gsi.setWidth 32).toNat-ioApic.gsiBase.toNat)
        (redirectEntry lapicId vector flags status) := by
  cases hfind : apics.find? (fun ioApic => ioApic.Covers s (gsi.setWidth 32)) with
  | none =>
    rw [ioApicSetGsiRedirect_none lapicId vector gsi flags status hfind] at h
    cases h
  | some ioApic =>
    obtain ⟨s₁,hrun,hprogrammed⟩ := ioApicSetGsiRedirect_eq lapicId vector gsi flags status hfind
    cases h.symm.trans hrun
    have hcovers := List.find?_some hfind
    rw [decide_eq_true_iff] at hcovers
    exact ⟨ioApic,List.mem_of_find?_eq_some hfind,hcovers,hprogrammed⟩

end

section

variable {lapicId : BitVec 32} {vector : BitVec 8} {flags : BitVec 16} {status : Bool}

theorem flag_iff (flags : BitVec 16) (hk : k < 16) :
    flags &&& (1#16 <<< k)≠0 ↔ flags.getLsbD k=true := by
  have hbit : BitVec.twoPow 16 k≠0 := by
    intro h
    have hzero := congrArg (fun x : BitVec 16 => x.getLsbD k) h
    simp [hk] at hzero
  rw [← BitVec.twoPow_eq,BitVec.and_twoPow]
  cases flags.getLsbD k
  · simp
  · simpa using hbit

theorem getLsbD_set (r : BitVec 64) (c : Prop) [Decidable c] {n : Nat} (hn : n < 64) (i : Nat) :
    (if c then r ||| (1#64 <<< n) else r).getLsbD i=(r.getLsbD i || (decide (n=i) && decide c)) := by
  by_cases hc : c
  · rw [if_pos hc,BitVec.getLsbD_or,← BitVec.twoPow_eq,BitVec.getLsbD_twoPow]
    simp [hc,hn]
  · rw [if_neg hc]
    simp [hc]

theorem redirectEntry_bit {i : Nat} (hi : i < 64) :
    (redirectEntry lapicId vector flags status).getLsbD i=
      (vector.getLsbD i || (decide (13=i) && flags.getLsbD 1) || (decide (15=i) && flags.getLsbD 3) ||
        (decide (16=i) && !status) || (decide (56 ≤ i) && lapicId.getLsbD (i-56))) := by
  have hpolarity := flag_iff flags (show 1 < 16 by decide)
  have htrigger := flag_iff flags (show 3 < 16 by decide)
  unfold redirectEntry
  dsimp only
  rw [BitVec.getLsbD_or,getLsbD_set _ _ (by decide),getLsbD_set _ _ (by decide),
    getLsbD_set _ _ (by decide),BitVec.getLsbD_setWidth,BitVec.getLsbD_shiftLeft,
    BitVec.getLsbD_setWidth]
  have hmask : decide (status=false)=!status := by cases status <;> rfl
  have hhigh : (!decide (i < 56))=decide (56 ≤ i) := by rw [← decide_not,decide_eq_decide,Nat.not_lt]
  have hshift : i-56 < 64 := by omega
  simp only [hpolarity,htrigger,hmask,hhigh,hshift,hi,decide_true,Bool.true_and,Bool.decide_eq_true]

theorem redirectEntry_bit_of_ne {i : Nat} (hi : i < 64) (h13 : i≠13) (h15 : i≠15) (h16 : i≠16) :
    (redirectEntry lapicId vector flags status).getLsbD i=
      (vector.getLsbD i || (decide (56 ≤ i) && lapicId.getLsbD (i-56))) := by
  rw [redirectEntry_bit hi]
  simp [h13.symm,h15.symm,h16.symm]

theorem redirectEntry_vector : (redirectEntry lapicId vector flags status).setWidth 8=vector := by
  apply BitVec.eq_of_getLsbD_eq
  intro i hi
  have hhigh : ¬56 ≤ i := by omega
  rw [BitVec.getLsbD_setWidth,
    redirectEntry_bit_of_ne (by omega) (by omega) (by omega) (by omega)]
  simp [hi,hhigh]

theorem redirectEntry_destination :
    (redirectEntry lapicId vector flags status >>> 56).toNat=lapicId.toNat%256 := by
  have hshift : redirectEntry lapicId vector flags status >>> 56=
      (lapicId.setWidth 8).setWidth 64 := by
    apply BitVec.eq_of_getLsbD_eq
    intro i hi
    rw [BitVec.getLsbD_ushiftRight,BitVec.getLsbD_setWidth,BitVec.getLsbD_setWidth]
    by_cases hlow : i < 8
    · have hvector : vector.getLsbD (56+i)=false := BitVec.getLsbD_of_ge _ _ (by omega)
      rw [redirectEntry_bit_of_ne (by omega) (by omega) (by omega) (by omega)]
      simp [hlow,hi,hvector]
    · rw [BitVec.getLsbD_of_ge _ _ (by omega)]
      simp [hlow]
  rw [hshift,BitVec.toNat_setWidth,BitVec.toNat_setWidth]
  omega

theorem requested_iff : Requested (redirectEntry lapicId vector flags status) lapicId vector flags
    status ↔ lapicId.toNat < 256 := by
  constructor
  · intro h
    have hdestination := h.destination
    rw [redirectEntry_destination] at hdestination
    omega
  · intro hlapic
    have hvector : ∀ i, 8 ≤ i → vector.getLsbD i=false := fun i hi => BitVec.getLsbD_of_ge _ _ hi
    refine ⟨redirectEntry_vector,?_,?_,?_,?_,?_⟩
    · rw [redirectEntry_bit (by decide),hvector 13 (by decide)]
      simp
    · rw [redirectEntry_bit (by decide),hvector 15 (by decide)]
      simp
    · rw [redirectEntry_bit (by decide),hvector 16 (by decide)]
      simp
    · rw [redirectEntry_destination,Nat.mod_eq_of_lt hlapic]
    · intro i hlow hhigh h13 h15 h16
      rw [redirectEntry_bit_of_ne (by omega) h13 h15 h16,hvector i hlow]
      simp [Nat.not_le.mpr hhigh]

end

section

variable {s : IoApics} {apics : List MadtIoApic} {ioApic other : MadtIoApic} {gsi : BitVec 32}

theorem IoApicSet.eq_of_addr (h : IoApicSet s apics) (ha : ioApic∈apics) (hb : other∈apics)
    (haddr : other.ioapicAddr=ioApic.ioapicAddr) : other=ioApic := by
  have hsym : Std.Symm (fun a b : MadtIoApic => a.ioapicAddr≠b.ioapicAddr) := ⟨fun _ _ h => h.symm⟩
  by_contra hne
  exact h.addrs.forall hb ha hne haddr

theorem IoApicSet.eq_of_has (h : IoApicSet s apics) (ha : ioApic∈apics) (hb : other∈apics)
    (hgsi : ioApic.Has s gsi) (hother : other.Has s gsi) : other=ioApic := by
  have hsym : Std.Symm (fun a b : MadtIoApic => ∀ gsi, ¬(a.Has s gsi ∧ b.Has s gsi)) :=
    ⟨fun _ _ h gsi hboth => h gsi hboth.symm⟩
  by_contra hne
  exact h.gsis.forall hb ha hne gsi ⟨hother,hgsi⟩

theorem MadtIoApic.Covers.has (h : ioApic.Covers s gsi) : ioApic.Has s gsi :=
  ⟨h.1,Nat.le_of_lt h.2⟩

theorem maxEntry_lt (s : IoApics) (ioApic : MadtIoApic) : maxEntry s ioApic < 256 := by
  have hle : (s.regs ioApic.ioapicAddr 1).toNat &&& 0xff0000 ≤ 0xff0000 := Nat.and_le_right
  rw [maxEntry,BitVec.toNat_ushiftRight,BitVec.toNat_and,Nat.shiftRight_eq_div_pow]
  exact Nat.lt_of_le_of_lt (Nat.div_le_div_right hle) (by decide)

theorem toNat_byte (gsi : BitVec 32) : ((gsi.setWidth 8).setWidth 32).toNat=gsi.toNat%256 := by
  rw [BitVec.toNat_setWidth,BitVec.toNat_setWidth]
  omega

theorem entryReg_inj {j : Nat} (hj : j < 65536) (hk : k < 65536) (h : entryReg j=entryReg k) :
    j=k := by
  have hnat := congrArg BitVec.toNat h
  rw [entryReg,entryReg,BitVec.toNat_ofNat,BitVec.toNat_ofNat] at hnat
  omega

theorem halves_inj {e e' : BitVec 64} (hlow : e.setWidth 32=e'.setWidth 32)
    (hhigh : (e >>> 32).setWidth 32=(e' >>> 32).setWidth 32) : e=e' := by
  bv_omega

theorem Programmed.same {s' : IoApics} {j : Nat} {e e' : BitVec 64} (h : Programmed s s' ioApic j e)
    (h' : Programmed s s' other k e') :
    other.ioapicAddr=ioApic.ioapicAddr ∧ entryReg k=entryReg j ∧ e'=e := by
  have hstores := List.append_cancel_left (h'.stores.symm.trans h.stores)
  simp only [List.cons.injEq,RegStore.mk.injEq] at hstores
  obtain ⟨⟨haddr,hreg,hlow⟩,⟨-,-,hhigh⟩,-⟩ := hstores
  exact ⟨haddr,hreg,halves_inj hlow hhigh⟩

theorem IoApicSet.find (h : IoApicSet s apics) (hmem : ioApic∈apics) (hcovers : ioApic.Covers s gsi) :
    apics.find? (fun ioApic => ioApic.Covers s gsi)=some ioApic := by
  cases hfind : apics.find? (fun ioApic => ioApic.Covers s gsi) with
  | none => exact absurd hcovers (by simpa using List.find?_eq_none.mp hfind ioApic hmem)
  | some found =>
    have hfound : found.Covers s gsi := by simpa using List.find?_some hfind
    rw [h.eq_of_has hmem (List.mem_of_find?_eq_some hfind) hcovers.has hfound.has]

/-- With a GSI that is cut to a byte on the way. -/
theorem gsi_redirect_iff (hset : IoApicSet s apics) (lapicId : BitVec 32) (vector : BitVec 8)
    (flags : BitVec 16) (status : Bool) (hmem : ioApic∈apics) (hgsi : ioApic.Has s gsi) :
    (∃ s' entry,
      ioApicSetGsiRedirect apics s lapicId vector (gsi.setWidth 8) flags status=some s' ∧
      Programmed s s' ioApic (gsi.toNat-ioApic.gsiBase.toNat) entry ∧
      Requested entry lapicId vector flags status) ↔
    gsi.toNat < 256 ∧ gsi.toNat < ioApic.gsiBase.toNat+maxEntry s ioApic ∧ lapicId.toNat < 256 := by
  constructor
  · rintro ⟨s',entry,hrun,hprogrammed,hrequested⟩
    obtain ⟨found,hfound,⟨hlow,hhigh⟩,hstored⟩ := ioApicSetGsiRedirect_cases hrun
    -- the stores tell which entry of which I/O APIC was found
    obtain ⟨haddr,hreg,rfl⟩ := hprogrammed.same hstored
    obtain rfl := hset.eq_of_addr hmem hfound haddr
    have hmax := maxEntry_lt s found
    obtain ⟨hbase,hend⟩ := hgsi
    rw [toNat_byte] at hlow hhigh hreg
    have hsame := entryReg_inj (by omega) (by omega) hreg
    exact ⟨by omega,by omega,requested_iff.mp hrequested⟩
  · rintro ⟨hbyte,hlast,hlapic⟩
    have hsame : (gsi.setWidth 8).setWidth 32=gsi := by
      apply BitVec.eq_of_toNat_eq
      rw [toNat_byte,Nat.mod_eq_of_lt hbyte]
    have hfind := hset.find hmem ⟨hgsi.1,hlast⟩
    rw [← hsame] at hfind
    obtain ⟨s',hrun,hprogrammed⟩ := ioApicSetGsiRedirect_eq lapicId vector _ flags status hfind
    rw [hsame] at hprogrammed
    exact ⟨s',_,hrun,hprogrammed,requested_iff.mpr hlapic⟩

end

/-- For an irq whose GSI one of the I/O APICs has, io_apic_set_irq_redirect programs that entry of
that I/O APIC as requested, and nothing else, exactly if the GSI fits in a byte, is not that of the
last entry, and the lapic_id fits in a byte. -/
theorem io_apic_redirect_iff (s : IoApics) (apics : List MadtIoApic) (hset : IoApicSet s apics)
    (irqMaps : List MadtIoApicIrqMap) (lapicId : BitVec 32) (vector irq : BitVec 8) (status : Bool)
    (ioApic : MadtIoApic) (hmem : ioApic∈apics) (hgsi : ioApic.Has s (overridden irqMaps irq).1) :
    (∃ s' entry, ioApicSetIrqRedirect apics s lapicId vector irqMaps irq status=some s' ∧
      Programmed s s' ioApic ((overridden irqMaps irq).1.toNat-ioApic.gsiBase.toNat) entry ∧
      Requested entry lapicId vector (overridden irqMaps irq).2 status) ↔
    (overridden irqMaps irq).1.toNat < 256 ∧
      (overridden irqMaps irq).1.toNat < ioApic.gsiBase.toNat+maxEntry s ioApic ∧
      lapicId.toNat < 256 := by
  rw [ioApicSetIrqRedirect_eq]
  exact gsi_redirect_iff hset lapicId vector _ status hmem hgsi

def twoApics : IoApics := ⟨fun _ => 0,fun _ reg => if reg=1 then 0x170011 else 0,[]⟩

def firstApic : MadtIoApic := ⟨0xfec00000,0⟩

def secondApic : MadtIoApic := ⟨0xfec01000,24⟩

theorem twoApics_set : IoApicSet twoApics [firstApic,secondApic] := by
  have hfirst : maxEntry twoApics firstApic=23 := rfl
  have hbase : firstApic.gsiBase.toNat=0 ∧ secondApic.gsiBase.toNat=24 := ⟨rfl,rfl⟩
  refine ⟨by simp [firstApic,secondApic],?_⟩
  simp only [List.pairwise_cons,List.mem_singleton,forall_eq,MadtIoApic.Has,hfirst,hbase]
  refine ⟨?_,by simp⟩
  intro gsi h
  omega

/-- The timer, whose irq is overridden to GSI 2. -/
theorem io_apic_redirect_iff_timer : ∃ s' entry,
    ioApicSetIrqRedirect [firstApic,secondApic] twoApics 0 32 [⟨0,2,0⟩] 0 true=some s' ∧
    Programmed twoApics s' firstApic 2 entry ∧ Requested entry 0 32 0 true :=
  (io_apic_redirect_iff twoApics [firstApic,secondApic] twoApics_set [⟨0,2,0⟩] 0 32 0 true firstApic
    (by decide) (by decide)).mpr (by decide)

/-- GSI 23 is the last one of the first I/O APIC: the search does not find it. -/
theorem io_apic_last_entry : IoApicSet twoApics [firstApic,secondApic] ∧
    firstApic.Has twoApics (overridden [⟨0,23,0⟩] 0).1 ∧
    ioApicSetIrqRedirect [firstApic,secondApic] twoApics 0 32 [⟨0,23,0⟩] 0 true=none := by
  refine ⟨twoApics_set,by decide,?_⟩
  rw [ioApicSetIrqRedirect_eq]
  exact ioApicSetGsiRedirect_none _ _ _ _ _ (by decide)

end X64OS.Arch
