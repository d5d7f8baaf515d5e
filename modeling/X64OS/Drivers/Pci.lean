import X64OS.Framework.Traversal

namespace X64OS.Drivers

open Framework

structure PciFunction where
  bus : BitVec 8
  slot : BitVec 8
  func : BitVec 8
  deriving DecidableEq, Repr

/-- struct pci_device, but for the fields that a scan does not set. -/
structure PciDevice where
  location : PciFunction
  pciClass : BitVec 8
  subclass : BitVec 8
  progIf : BitVec 8
  revId : BitVec 8
  deviceId : BitVec 16
  vendorId : BitVec 16
  msiSupported : Bool
  msixSupported : Bool
  msiOffset : BitVec 16
  msixOffset : BitVec 16
  pcieSupported : Bool
  pcieOffset : BitVec 16
  deriving DecidableEq

abbrev PciConfig := PciFunction → Nat → Nat → BitVec 32

section

variable (cfg : PciConfig)

section
variable (fn : PciFunction) (offset : Nat)

def pciReadd : BitVec 32 := cfg fn offset 4

def pciReadw : BitVec 16 := (cfg fn offset 2).setWidth 16

def pciReadb : BitVec 8 := (cfg fn offset 1).setWidth 8

end

def pciDevice (fn : PciFunction) : PciDevice :=
  let reg0 := pciReadd cfg fn 0
  let reg2 := pciReadd cfg fn 8
  { location := fn
    pciClass := (reg2 >>> 24).setWidth 8
    subclass := (reg2 >>> 16).setWidth 8
    progIf := (reg2 >>> 8).setWidth 8
    revId := reg2.setWidth 8
    deviceId := (reg0 >>> 16).setWidth 16
    vendorId := reg0.setWidth 16
    msiSupported := false
    msixSupported := false
    msiOffset := 0
    msixOffset := 0
    pcieSupported := false
    pcieOffset := 0 }

def addCapability (dev : PciDevice) (ident off : BitVec 8) : PciDevice :=
  match ident.toNat with
  | 5 => { dev with msiSupported := true, msiOffset := off.setWidth 16 }
  | 16 => { dev with pcieSupported := true, pcieOffset := off.setWidth 16 }
  | 17 => { dev with msixSupported := true, msixOffset := off.setWidth 16 }
  | _ => dev

def nextCapability (fn : PciFunction) (off : BitVec 8) : BitVec 8 := pciReadb cfg fn (off.toNat+1)

def capabilityLoop (fn : PciFunction) : Nat → BitVec 8 → PciDevice → Option PciDevice
  | n,nextOff,dev =>
    if nextOff=0 then some dev
    else
      match n with
      | 0 => none
      | n+1 => capabilityLoop fn n (nextCapability cfg fn nextOff)
        (addCapability dev (pciReadb cfg fn nextOff.toNat) nextOff)

def HasCapabilities (fn : PciFunction) : Prop := pciReadw cfg fn 6 &&& (1 <<< 4)≠0

instance (fn : PciFunction) : Decidable (HasCapabilities cfg fn) := inferInstanceAs (Decidable (_≠_))

/-- There are 256 offsets, so a list that is longer has no end. -/
def capabilities (dev : PciDevice) : Option PciDevice :=
  if HasCapabilities cfg dev.location then
    capabilityLoop cfg dev.location 256 (pciReadb cfg dev.location 0x34) dev
  else some dev

def Present (fn : PciFunction) : Prop := pciReadd cfg fn 0≠0xffffffff

instance (fn : PciFunction) : Decidable (Present cfg fn) := inferInstanceAs (Decidable (_≠_))

def IsBridge (dev : PciDevice) : Prop := dev.pciClass=6 ∧ dev.subclass=4

instance (dev : PciDevice) : Decidable (IsBridge dev) := inferInstanceAs (Decidable (_ ∧ _))

def secondaryBus (fn : PciFunction) : BitVec 8 := (pciReadd cfg fn 24 >>> 8).setWidth 8

def pciCheckIfExists (devices : List PciDevice) (fn : PciFunction) : Bool :=
  devices.any (fun dev => dev.location.bus=fn.bus && dev.location.slot=fn.slot && dev.location.func=fn.func)

def scanFunction (scan : BitVec 8 → List PciDevice → Option (List PciDevice))
    (devices : List PciDevice) (fn : PciFunction) : Option (List PciDevice) :=
  if pciCheckIfExists devices fn then some devices
  else if ¬Present cfg fn then some devices
  else
    let dev := pciDevice cfg fn
    (if IsBridge dev then scan (secondaryBus cfg fn) devices else some devices).bind (fun devices =>
      (capabilities cfg dev).map (fun dev => devices++[dev]))

def functionsOf (bus : BitVec 8) : List PciFunction :=
  (List.range 32).flatMap (fun slot =>
    (List.range 8).map (fun func => ⟨bus,BitVec.ofNat 8 slot,BitVec.ofNat 8 func⟩))

/-- scan_bus, through at most n bridges in a row. -/
def scanBus : Nat → BitVec 8 → List PciDevice → Option (List PciDevice)
  | 0,_,_ => none
  | n+1,bus,devices => (functionsOf bus).foldlM (scanFunction cfg (scanBus n)) devices

def scanRootFunction (n : Nat) (devices : List PciDevice) (i : Nat) : Option (List PciDevice) :=
  if pciReadd cfg ⟨0,0,BitVec.ofNat 8 i⟩ 0=0xffffffff then some devices
  else scanBus cfg n (BitVec.ofNat 8 i) devices

def scanRootBus (n : Nat) : Option (List PciDevice) :=
  if pciReadd cfg ⟨0,0,0⟩ 0xc &&& 0x800000=0 then scanBus cfg n 0 []
  else
    (scanBus cfg n 0 []).bind (fun devices =>
      (List.range 8).foldlM (scanRootFunction cfg n) devices)

end

variable {cfg : PciConfig}
variable {fn : PciFunction}

theorem mem_functionsOf {bus : BitVec 8} :
    fn∈functionsOf bus ↔ fn.bus=bus ∧ fn.slot.toNat < 32 ∧ fn.func.toNat < 8 := by
  simp only [functionsOf,List.mem_flatMap,List.mem_range,List.mem_map]
  constructor
  · rintro ⟨slot,hslot,func,hfunc,rfl⟩
    refine ⟨rfl,?_,?_⟩
    · rw [BitVec.toNat_ofNat]
      omega
    · rw [BitVec.toNat_ofNat]
      omega
  · rintro ⟨rfl,hslot,hfunc⟩
    exact ⟨fn.slot.toNat,hslot,fn.func.toNat,hfunc,by simp⟩

def pciBuses (cfg : PciConfig) : Places (BitVec 8) PciFunction where
  items bus := (functionsOf bus).filter (fun fn => Present cfg fn)
  leads fn := if IsBridge (pciDevice cfg fn) then some (secondaryBus cfg fn) else none
  apart b c fn hb hc := by
    rw [List.mem_filter,mem_functionsOf] at hb hc
    exact hb.1.1.symm.trans hc.1.1

theorem pciBuses_leads (cfg : PciConfig) (fn : PciFunction) : (pciBuses cfg).leads fn=
    if IsBridge (pciDevice cfg fn) then some (secondaryBus cfg fn) else none := rfl

/-- The capability list of the function comes to its end. -/
def CapabilitiesEnd (cfg : PciConfig) (fn : PciFunction) : Prop :=
  HasCapabilities cfg fn → ∃ k, (nextCapability cfg fn)^[k] (pciReadb cfg fn 0x34)=0

theorem location_addCapability (dev : PciDevice) (ident off : BitVec 8) :
    (addCapability dev ident off).location=dev.location := by
  unfold addCapability
  split <;> rfl

theorem location_capabilityLoop {n : Nat} {off : BitVec 8} {dev dev' : PciDevice}
    (h : capabilityLoop cfg fn n off dev=some dev') : dev'.location=dev.location := by
  induction n generalizing off dev with
  | zero =>
    unfold capabilityLoop at h
    split at h
    · cases h
      rfl
    · cases h
  | succ n ih =>
    unfold capabilityLoop at h
    split at h
    · cases h
      rfl
    · exact (ih h).trans (location_addCapability _ _ _)

theorem capabilityLoop_ends {k n : Nat} (hkn : k ≤ n) {off : BitVec 8}
    (hk : (nextCapability cfg fn)^[k] off=0) (dev : PciDevice) :
    (capabilityLoop cfg fn n off dev).isSome := by
  induction n generalizing k off dev with
  | zero =>
    rw [Nat.le_zero.mp hkn] at hk
    rw [capabilityLoop,if_pos (show off=0 from hk)]
    rfl
  | succ n ih =>
    unfold capabilityLoop
    split
    · rfl
    · rename_i hoff
      cases k with
      | zero => exact absurd hk hoff
      | succ k =>
        rw [Function.iterate_succ_apply] at hk
        exact ih (Nat.le_of_succ_le_succ hkn) hk _

theorem location_capabilities {dev dev' : PciDevice} (h : capabilities cfg dev=some dev') :
    dev'.location=dev.location := by
  unfold capabilities at h
  split at h
  · exact location_capabilityLoop h
  · cases h
    rfl

theorem capabilities_ends (h : CapabilitiesEnd cfg fn) :
    (capabilities cfg (pciDevice cfg fn)).isSome := by
  unfold capabilities
  split
  · rename_i hhas
    obtain ⟨k,hk,hend⟩ := iterate_eq_lt_card (BitVec.toFin : BitVec 8 → Fin 256)
      (fun _ _ => BitVec.eq_of_toFin_eq) (nextCapability cfg fn) (h hhas)
    exact capabilityLoop_ends (Nat.le_of_lt hk) hend (pciDevice cfg fn)
  · rfl

def described (cfg : PciConfig) (fn : PciFunction) : PciDevice :=
  (capabilities cfg (pciDevice cfg fn)).getD (pciDevice cfg fn)

@[simp] theorem location_described (cfg : PciConfig) (fn : PciFunction) :
    (described cfg fn).location=fn := by
  unfold described
  cases h : capabilities cfg (pciDevice cfg fn) with
  | none => rfl
  | some dev => exact location_capabilities h

theorem pciCheckIfExists_mem (devices : List PciDevice) (fn : PciFunction) :
    pciCheckIfExists devices fn ↔ fn∈devices.map PciDevice.location := by
  simp only [pciCheckIfExists,List.any_eq_true,Bool.and_eq_true,decide_eq_true_eq,List.mem_map]
  constructor
  · rintro ⟨dev,hmem,⟨hbus,hslot⟩,hfunc⟩
    obtain ⟨bus,slot,func⟩ := fn
    cases hbus
    cases hslot
    cases hfunc
    exact ⟨dev,hmem,rfl⟩
  · rintro ⟨dev,hmem,rfl⟩
    exact ⟨dev,hmem,⟨rfl,rfl⟩,rfl⟩

theorem pciCheckIfExists_iff (seen : List PciFunction) (fn : PciFunction) :
    pciCheckIfExists (seen.map (described cfg)) fn ↔ fn∈seen := by
  rw [pciCheckIfExists_mem]
  simp [Function.comp_def]

theorem scanFunction_visits (hcaps : ∀ fn, Present cfg fn → CapabilitiesEnd cfg fn)
    {scan : BitVec 8 → List PciDevice → Option (List PciDevice)}
    {below : BitVec 8 → List PciFunction → Option (List PciFunction)}
    (hscan : ∀ bus seen, scan bus (seen.map (described cfg))=
      (below bus seen).map (List.map (described cfg)))
    (seen : List PciFunction) (fn : PciFunction) :
    scanFunction cfg scan (seen.map (described cfg)) fn=
      (if Present cfg fn then (pciBuses cfg).visitItem below seen fn else some seen).map
        (List.map (described cfg)) := by
  unfold scanFunction Places.visitItem
  by_cases hseen : fn∈seen
  · rw [if_pos ((pciCheckIfExists_iff _ _).mpr hseen),if_pos hseen,ite_self]
    rfl
  rw [if_neg (fun h => hseen ((pciCheckIfExists_iff _ _).mp h)),if_neg hseen]
  by_cases hpresent : Present cfg fn
  · obtain ⟨dev,hdev⟩ := Option.isSome_iff_exists.mp (capabilities_ends (hcaps fn hpresent))
    have hentry : described cfg fn=dev := by simp [described,hdev]
    rw [if_neg (not_not.mpr hpresent),if_pos hpresent]
    dsimp only
    rw [hdev,← hentry]
    by_cases hbridge : IsBridge (pciDevice cfg fn)
    · simp only [pciBuses,if_pos hbridge,hscan]
      cases below (secondaryBus cfg fn) seen <;> simp
    · simp only [pciBuses,if_neg hbridge]
      simp
  · rw [if_pos hpresent,if_neg hpresent]
    rfl

theorem scanBus_visits (hcaps : ∀ fn, Present cfg fn → CapabilitiesEnd cfg fn) (n : Nat)
    (bus : BitVec 8) (seen : List PciFunction) :
    scanBus cfg n bus (seen.map (described cfg))=
      ((pciBuses cfg).visitPlace n bus seen).map (List.map (described cfg)) := by
  induction n generalizing bus seen with
  | zero => rfl
  | succ n ih => exact foldlM_filter_map (scanFunction_visits hcaps ih) (functionsOf bus) seen

/-- The buses from which scan_root_bus starts: bus 0 and, if the host bridge has more than
one function, the bus with the number of each of them. -/
def rootBuses (cfg : PciConfig) : List (BitVec 8) :=
  if pciReadd cfg ⟨0,0,0⟩ 0xc &&& 0x800000=0 then [0]
  else 0::((List.range 8).filter (fun i => Present cfg ⟨0,0,BitVec.ofNat 8 i⟩)).map (BitVec.ofNat 8)

theorem scanRootBus_eq (cfg : PciConfig) (n : Nat) :
    scanRootBus cfg n=(rootBuses cfg).foldlM (fun devices bus => scanBus cfg n bus devices) [] := by
  have hroot : ∀ devices i, scanRootFunction cfg n (id devices) i=
      (if Present cfg ⟨0,0,BitVec.ofNat 8 i⟩ then scanBus cfg n (BitVec.ofNat 8 i) devices
        else some devices).map id := by
    intro devices i
    unfold scanRootFunction
    by_cases hi : Present cfg ⟨0,0,BitVec.ofNat 8 i⟩
    · rw [if_neg hi,if_pos hi,Option.map_id,id,id]
    · rw [if_pos (not_not.mp hi),if_neg hi]
      rfl
  unfold scanRootBus rootBuses
  split
  · simp
  · have hloop := foldlM_filter_map hroot (List.range 8)
    simp only [Option.map_id,id] at hloop
    simp only [List.foldlM_cons,List.foldlM_map,hloop,Option.bind_eq_bind]

theorem scanBuses_visits (hcaps : ∀ fn, Present cfg fn → CapabilitiesEnd cfg fn) (n : Nat)
    (bs : List (BitVec 8)) (seen : List PciFunction) :
    bs.foldlM (fun devices bus => scanBus cfg n bus devices) (seen.map (described cfg))=
      ((pciBuses cfg).visitAll n bs seen).map (List.map (described cfg)) := by
  unfold Places.visitAll
  induction bs generalizing seen with
  | nil => rfl
  | cons b bs ih =>
    rw [List.foldlM_cons,List.foldlM_cons,scanBus_visits hcaps]
    cases (pciBuses cfg).visitPlace n b seen with
    | none => rfl
    | some seen' => exact ih seen'

theorem scanRootBus_visits (hcaps : ∀ fn, Present cfg fn → CapabilitiesEnd cfg fn) (n : Nat) :
    scanRootBus cfg n=
      ((pciBuses cfg).visitAll n (rootBuses cfg) []).map (List.map (described cfg)) :=
  (scanRootBus_eq cfg n).trans (scanBuses_visits hcaps n (rootBuses cfg) [])

instance finite_byte : Finite (BitVec 8) :=
  Finite.of_injective BitVec.toFin (fun _ _ => BitVec.eq_of_toFin_eq)

/-- With bridges that lead in no cycle and capability lists that end, the scan ends with each
function that is present on a bus reachable from a root bus, once, and with nothing else. -/
theorem pci_scan_complete (cfg : PciConfig) (hacyclic : (pciBuses cfg).Acyclic)
    (hcaps : ∀ fn, Present cfg fn → CapabilitiesEnd cfg fn) :
    ∃ devices n, (∀ m, n ≤ m → scanRootBus cfg m=some devices) ∧
      (∀ dev∈devices, dev=described cfg dev.location) ∧
      (devices.map PciDevice.location).Nodup ∧
      ∀ fn, fn∈devices.map PciDevice.location ↔
        fn.slot.toNat < 32 ∧ fn.func.toNat < 8 ∧ Present cfg fn ∧
          ∃ r∈rootBuses cfg, (pciBuses cfg).Reaches r fn.bus := by
  obtain ⟨seen,n,hends,hnodup,hmem⟩ := Places.visitAll_complete hacyclic (rootBuses cfg)
  have hloc : (seen.map (described cfg)).map PciDevice.location=seen := by simp [Function.comp_def]
  refine ⟨seen.map (described cfg),n,?_,?_,?_,?_⟩
  · intro m hm
    rw [scanRootBus_visits hcaps,hends m hm]
    rfl
  · intro dev hdev
    obtain ⟨fn,-,rfl⟩ := List.mem_map.mp hdev
    rw [location_described]
  · rwa [hloc]
  · intro fn
    rw [hloc,hmem]
    simp only [pciBuses,List.mem_filter,mem_functionsOf,decide_eq_true_eq]
    constructor
    · rintro ⟨r,hr,c,hreach,⟨rfl,hslot,hfunc⟩,hpresent⟩
      exact ⟨hslot,hfunc,hpresent,r,hr,hreach⟩
    · rintro ⟨hslot,hfunc,hpresent,r,hr,hreach⟩
      exact ⟨r,hr,fn.bus,hreach,⟨rfl,hslot,hfunc⟩,hpresent⟩

/-- A host bridge with two functions, and a bridge to bus 1 with a network card that has MSI:
the registers that are not zero. -/
def cardRegisters : List (PciFunction × List (Nat × BitVec 32)) :=
  [(⟨0,0,0⟩,[(0,0x12378086),(8,0x06000002),(0xc,0x800000)]),
    (⟨0,0,1⟩,[(0,0x70008086),(8,0x06010000)]),
    (⟨0,1,0⟩,[(0,0x244e8086),(8,0x06040000),(24,0x100)]),
    (⟨1,3,0⟩,[(0,0x100e8086),(6,0x10),(8,0x02000003),(0x34,0x40),(0x40,5)])]

def cardConfig : PciConfig := fun fn off _ =>
  match cardRegisters.lookup fn with
  | none => 0xffffffff
  | some registers => (registers.lookup off).getD 0

theorem mem_of_present_cardConfig (h : Present cardConfig fn) : fn∈cardRegisters.map Prod.fst := by
  cases hl : cardRegisters.lookup fn with
  | none =>
    refine absurd ?_ h
    rw [pciReadd,cardConfig,hl]
  | some registers =>
    obtain ⟨entry,hentry,hsame⟩ := List.lookup_isSome_iff.mp (Option.isSome_iff_exists.mpr ⟨_,hl⟩)
    exact List.mem_map.mpr ⟨entry,hentry,(beq_iff_eq.mp hsame).symm⟩

theorem cardConfig_edge {b c : BitVec 8} (h : (pciBuses cardConfig).Edge b c) : b=0 ∧ c=1 := by
  obtain ⟨fn,hfn,hlead⟩ := h
  obtain ⟨hbus,hpresent⟩ := List.mem_filter.mp hfn
  have hleads : ∀ fn∈cardRegisters.map Prod.fst, (pciBuses cardConfig).leads fn=
      if fn=⟨0,1,0⟩ then some 1 else none := by
    decide
  rw [hleads fn (mem_of_present_cardConfig (of_decide_eq_true hpresent))] at hlead
  obtain ⟨rfl,hc⟩ := Option.ite_none_right_eq_some.mp hlead
  exact ⟨(mem_functionsOf.mp hbus).1.symm,(Option.some.inj hc).symm⟩

theorem cardConfig_acyclic : (pciBuses cardConfig).Acyclic := by
  intro b h
  have hall : ∀ c, Relation.TransGen (pciBuses cardConfig).Edge b c → b=0 ∧ c=1 := by
    intro c hc
    induction hc with
    | single hedge => exact cardConfig_edge hedge
    | tail _ hedge ih => exact ⟨ih.1,(cardConfig_edge hedge).2⟩
  obtain ⟨h0,h1⟩ := hall b h
  rw [h0] at h1
  exact absurd h1 (by decide)

theorem cardConfig_capabilities (fn : PciFunction) (hpresent : Present cardConfig fn) :
    CapabilitiesEnd cardConfig fn := by
  intro _
  have hend : ∀ fn∈cardRegisters.map Prod.fst,
      (nextCapability cardConfig fn)^[1] (pciReadb cardConfig fn 0x34)=0 := by
    decide
  exact ⟨1,hend fn (mem_of_present_cardConfig hpresent)⟩

/-- The card is found, though its bus is behind a bridge and a root bus as well. -/
theorem pci_scan_complete_card : ∃ devices n, (∀ m, n ≤ m → scanRootBus cardConfig m=some devices) ∧
    (devices.map PciDevice.location).Nodup ∧ ⟨1,3,0⟩∈devices.map PciDevice.location := by
  obtain ⟨devices,n,hends,-,hnodup,hmem⟩ := pci_scan_complete cardConfig cardConfig_acyclic
    cardConfig_capabilities
  refine ⟨devices,n,hends,hnodup,(hmem _).mpr ⟨by decide,by decide,by decide,1,by decide,.refl⟩⟩

end X64OS.Drivers
