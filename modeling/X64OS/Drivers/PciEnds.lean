import X64OS.Drivers.Pci

namespace X64OS.Drivers

open Framework

variable {cfg : PciConfig}
variable {dev : PciDevice} {fn : PciFunction} {n : Nat} {bus : BitVec 8}
  {devices devices' : List PciDevice} {scan : BitVec 8 → List PciDevice → Option (List PciDevice)}

theorem capabilityLoop_end {off : BitVec 8} {dev' : PciDevice}
    (h : capabilityLoop cfg fn n off dev=some dev') : ∃ k, (nextCapability cfg fn)^[k] off=0 := by
  induction n generalizing off dev with
  | zero =>
    unfold capabilityLoop at h
    split at h
    · rename_i hoff
      exact ⟨0,hoff⟩
    · cases h
  | succ n ih =>
    unfold capabilityLoop at h
    split at h
    · rename_i hoff
      exact ⟨0,hoff⟩
    · obtain ⟨k,hk⟩ := ih h
      exact ⟨k+1,hk⟩

theorem capabilities_end (h : capabilities cfg (pciDevice cfg fn)=some dev) :
    CapabilitiesEnd cfg fn := by
  intro hhas
  unfold capabilities at h
  rw [if_pos (show HasCapabilities cfg (pciDevice cfg fn).location from hhas)] at h
  exact capabilityLoop_end h

/-- A list that a scan can leave: what is behind a bridge is before it, and all capability lists
came to their end. -/
structure Scanned (cfg : PciConfig) (devices : List PciDevice) : Prop where
  ordered : (pciBuses cfg).Ordered (devices.map PciDevice.location)
  capabilities : ∀ fn∈devices.map PciDevice.location, CapabilitiesEnd cfg fn

def Lists (cfg : PciConfig) (devices : List PciDevice) (bus : BitVec 8) : Prop :=
  ∀ fn∈(pciBuses cfg).items bus, fn∈devices.map PciDevice.location

def ScansBus (cfg : PciConfig) (scan : BitVec 8 → List PciDevice → Option (List PciDevice)) : Prop :=
  ∀ bus devices devices', Scanned cfg devices → scan bus devices=some devices' →
    Scanned cfg devices' ∧ devices ⊆ devices' ∧ Lists cfg devices' bus

theorem Lists.mono (h : Lists cfg devices bus) (hsub : devices ⊆ devices') :
    Lists cfg devices' bus :=
  fun fn hfn => List.map_subset _ hsub (h fn hfn)

theorem Scanned.push (h : Scanned cfg devices) (hcaps : CapabilitiesEnd cfg dev.location)
    (hlead : ∀ c, (pciBuses cfg).leads dev.location=some c → Lists cfg devices c) :
    Scanned cfg (devices++[dev]) where
  ordered := by
    rw [List.map_append]
    exact h.ordered.concat hlead
  capabilities := by
    intro fn hfn
    rw [List.map_append,List.mem_append] at hfn
    rcases hfn with hfn | hfn
    · exact h.capabilities fn hfn
    · rw [List.mem_singleton.mp hfn]
      exact hcaps

/-- What scan_function does when it returns: nothing for a function that is listed or not there,
else the bus behind it, if it is a bridge, and then the function itself. -/
theorem scanFunction_eq_some_iff :
    scanFunction cfg scan devices fn=some devices' ↔
      (Present cfg fn → fn∈devices.map PciDevice.location) ∧ devices=devices' ∨
      (Present cfg fn ∧ fn∉devices.map PciDevice.location) ∧ ∃ mid dev,
        ((pciBuses cfg).leads fn).elim (some devices) (fun c => scan c devices)=some mid ∧
          capabilities cfg (pciDevice cfg fn)=some dev ∧ mid++[dev]=devices' := by
  rw [scanFunction]
  by_cases hlisted : fn∈devices.map PciDevice.location
  · rw [if_pos ((pciCheckIfExists_mem _ _).mpr hlisted)]
    simp [hlisted]
  rw [if_neg (fun h => hlisted ((pciCheckIfExists_mem _ _).mp h))]
  by_cases hpresent : Present cfg fn
  · have hbelow : (if IsBridge (pciDevice cfg fn) then scan (secondaryBus cfg fn) devices
        else some devices)=((pciBuses cfg).leads fn).elim (some devices) (fun c => scan c devices) := by
      rw [pciBuses_leads]
      split <;> rfl
    rw [if_neg (not_not.mpr hpresent)]
    dsimp only
    rw [hbelow]
    simp [hlisted,hpresent,Option.bind_eq_some_iff]
  · simp [hlisted,hpresent]

theorem scanFunction_scanned (hscan : ScansBus cfg scan) (hs : Scanned cfg devices)
    (h : scanFunction cfg scan devices fn=some devices') :
    Scanned cfg devices' ∧ devices ⊆ devices' ∧
      (Present cfg fn → fn∈devices'.map PciDevice.location) := by
  rcases scanFunction_eq_some_iff.mp h with ⟨hlisted,rfl⟩ | ⟨-,mid,dev,hmid,hdev,rfl⟩
  · exact ⟨hs,List.Subset.refl _,hlisted⟩
  have hloc : dev.location=fn := location_capabilities hdev
  have hbelow : Scanned cfg mid ∧ devices ⊆ mid ∧
      ∀ c, (pciBuses cfg).leads fn=some c → Lists cfg mid c := by
    cases hlead : (pciBuses cfg).leads fn with
    | none =>
      rw [hlead] at hmid
      cases hmid
      exact ⟨hs,List.Subset.refl _,by simp⟩
    | some c =>
      rw [hlead] at hmid
      obtain ⟨hscanned,hsub,hlists⟩ := hscan c devices mid hs hmid
      refine ⟨hscanned,hsub,?_⟩
      intro c' hc
      cases hc
      exact hlists
  obtain ⟨hscanned,hsub,hlists⟩ := hbelow
  refine ⟨hscanned.push ?_ ?_,fun d hd => List.mem_append_left _ (hsub hd),?_⟩
  · rw [hloc]
    exact capabilities_end hdev
  · rw [hloc]
    exact hlists
  · intro _
    simp [hloc]

theorem scanFunctions_scanned (hscan : ScansBus cfg scan) {fns : List PciFunction}
    (hs : Scanned cfg devices) (h : fns.foldlM (scanFunction cfg scan) devices=some devices') :
    Scanned cfg devices' ∧ devices ⊆ devices' ∧
      ∀ fn∈fns, Present cfg fn → fn∈devices'.map PciDevice.location := by
  induction fns generalizing devices with
  | nil =>
    cases h
    exact ⟨hs,List.Subset.refl _,by simp⟩
  | cons fn fns ih =>
    rw [List.foldlM_cons] at h
    obtain ⟨mid,hmid,h⟩ := Option.bind_eq_some_iff.mp h
    obtain ⟨hscanned,hsub,hfn⟩ := scanFunction_scanned hscan hs hmid
    obtain ⟨hscanned',hsub',hfns⟩ := ih hscanned h
    refine ⟨hscanned',List.Subset.trans hsub hsub',?_⟩
    intro fn' hfn' hpresent
    rcases List.mem_cons.mp hfn' with rfl | hfn'
    · exact List.map_subset _ hsub' (hfn hpresent)
    · exact hfns fn' hfn' hpresent

theorem scanBus_scanned (n : Nat) : ScansBus cfg (scanBus cfg n) := by
  induction n with
  | zero =>
    intro bus devices devices' _ h
    cases h
  | succ n ih =>
    intro bus devices devices' hs h
    obtain ⟨hscanned,hsub,hfns⟩ := scanFunctions_scanned ih hs h
    refine ⟨hscanned,hsub,?_⟩
    intro fn hfn
    obtain ⟨hmem,hpresent⟩ := List.mem_filter.mp hfn
    exact hfns fn hmem (of_decide_eq_true hpresent)

theorem scanBuses_scanned {bs : List (BitVec 8)} (hs : Scanned cfg devices)
    (h : bs.foldlM (fun devices bus => scanBus cfg n bus devices) devices=some devices') :
    Scanned cfg devices' ∧ devices ⊆ devices' ∧ ∀ b∈bs, Lists cfg devices' b := by
  induction bs generalizing devices with
  | nil =>
    cases h
    exact ⟨hs,List.Subset.refl _,by simp⟩
  | cons b bs ih =>
    rw [List.foldlM_cons] at h
    obtain ⟨mid,hmid,h⟩ := Option.bind_eq_some_iff.mp h
    obtain ⟨hscanned,hsub,hb⟩ := scanBus_scanned n b devices mid hs hmid
    obtain ⟨hscanned',hsub',hbs⟩ := ih hscanned h
    refine ⟨hscanned',List.Subset.trans hsub hsub',?_⟩
    intro c hc
    rcases List.mem_cons.mp hc with rfl | hc
    · exact hb.mono hsub'
    · exact hbs c hc

def Visited (cfg : PciConfig) (b : BitVec 8) : Prop := ∃ r∈rootBuses cfg, (pciBuses cfg).Reaches r b

theorem Visited.edge {b c : BitVec 8} (h : Visited cfg b) (hedge : (pciBuses cfg).Edge b c) :
    Visited cfg c := by
  obtain ⟨r,hr,hreach⟩ := h
  exact ⟨r,hr,hreach.tail hedge⟩

theorem scanRootBus_some (h : scanRootBus cfg n=some devices) {b : BitVec 8} (hb : Visited cfg b) :
    ¬Relation.TransGen (pciBuses cfg).Edge b b ∧
      ∀ fn∈(pciBuses cfg).items b, CapabilitiesEnd cfg fn := by
  rw [scanRootBus_eq] at h
  have hnil : Scanned cfg [] := ⟨Places.ordered_nil,by simp⟩
  obtain ⟨hscanned,-,hroots⟩ := scanBuses_scanned hnil h
  obtain ⟨r,hr,hreach⟩ := hb
  have hlists := hscanned.ordered.reaches (hroots r hr) hreach
  exact ⟨hscanned.ordered.acyclic hlists,fun fn hfn => hscanned.capabilities fn (hlists fn hfn)⟩

theorem scanFunction_mono {scan' : BitVec 8 → List PciDevice → Option (List PciDevice)}
    (hle : ∀ bus devices devices', scan bus devices=some devices' → scan' bus devices=some devices')
    (h : scanFunction cfg scan devices fn=some devices') :
    scanFunction cfg scan' devices fn=some devices' := by
  rw [scanFunction_eq_some_iff] at h ⊢
  refine h.imp id ?_
  rintro ⟨hnew,mid,dev,hmid,hdev,hend⟩
  refine ⟨hnew,mid,dev,?_,hdev,hend⟩
  cases hlead : (pciBuses cfg).leads fn with
  | none =>
    rw [hlead] at hmid
    exact hmid
  | some c =>
    rw [hlead] at hmid
    exact hle c devices mid hmid

theorem scanBus_succ (h : scanBus cfg n bus devices=some devices') :
    scanBus cfg (n+1) bus devices=some devices' := by
  induction n generalizing bus devices devices' with
  | zero => cases h
  | succ n ih => exact foldlM_mono (fun _ _ _ => scanFunction_mono (fun _ _ _ => ih)) h

theorem scanBus_mono {m : Nat} (hnm : n ≤ m) (h : scanBus cfg n bus devices=some devices') :
    scanBus cfg m bus devices=some devices' := by
  induction hnm with
  | refl => exact h
  | step _ ih => exact scanBus_succ ih

theorem scanBus_isSome_mono {m : Nat} (hnm : n ≤ m) (h : (scanBus cfg n bus devices).isSome) :
    (scanBus cfg m bus devices).isSome := by
  obtain ⟨devices',hdevices⟩ := Option.isSome_iff_exists.mp h
  rw [scanBus_mono hnm hdevices]
  rfl

theorem scanFunction_ends (hcaps : Present cfg fn → CapabilitiesEnd cfg fn)
    (hscan : Present cfg fn → ∀ c, (pciBuses cfg).leads fn=some c →
      ∀ devices, (scan c devices).isSome) (devices : List PciDevice) :
    (scanFunction cfg scan devices fn).isSome := by
  by_cases hnew : Present cfg fn ∧ fn∉devices.map PciDevice.location
  · obtain ⟨dev,hdev⟩ := Option.isSome_iff_exists.mp (capabilities_ends (hcaps hnew.1))
    have hbelow : ∃ mid, ((pciBuses cfg).leads fn).elim (some devices) (fun c => scan c devices)=
        some mid := by
      cases hlead : (pciBuses cfg).leads fn with
      | none => exact ⟨devices,rfl⟩
      | some c => exact Option.isSome_iff_exists.mp (hscan hnew.1 c hlead devices)
    obtain ⟨mid,hmid⟩ := hbelow
    exact Option.isSome_iff_exists.mpr
      ⟨_,scanFunction_eq_some_iff.mpr (.inr ⟨hnew,mid,dev,hmid,hdev,rfl⟩)⟩
  · rw [not_and,not_not] at hnew
    exact Option.isSome_iff_exists.mpr ⟨_,scanFunction_eq_some_iff.mpr (.inl ⟨hnew,rfl⟩)⟩

theorem visited_wellFounded
    (hacyclic : ∀ b, Visited cfg b → ¬Relation.TransGen (pciBuses cfg).Edge b b) :
    WellFounded (fun c b => Visited cfg b ∧ (pciBuses cfg).Edge b c) := by
  apply wellFounded_of_acyclic (r:=fun b c => Visited cfg b ∧ (pciBuses cfg).Edge b c)
  intro b hcycle
  have hb : Visited cfg b := by
    obtain ⟨c,hstep,-⟩ := Relation.TransGen.head'_iff.mp hcycle
    exact hstep.1
  exact hacyclic b hb (Relation.TransGen.mono (fun _ _ h => h.2) b b hcycle)

theorem exists_depth (b : BitVec 8) (h : ∀ c, (pciBuses cfg).Edge b c →
      ∃ n, ∀ devices, (scanBus cfg n c devices).isSome) :
    ∃ n, ∀ fn∈functionsOf b, Present cfg fn → ∀ c, (pciBuses cfg).leads fn=some c →
      ∀ devices, (scanBus cfg n c devices).isSome := by
  apply Places.exists_levels
  · intro n m fn hnm h hpresent c hc devices
    exact scanBus_isSome_mono hnm (h hpresent c hc devices)
  · intro fn hfn
    by_cases hpresent : Present cfg fn
    · cases hlead : (pciBuses cfg).leads fn with
      | none => exact ⟨0,by simp⟩
      | some c =>
        have hitem : fn∈(pciBuses cfg).items b := List.mem_filter.mpr ⟨hfn,decide_eq_true hpresent⟩
        obtain ⟨n,hn⟩ := h c ⟨fn,hitem,hlead⟩
        refine ⟨n,fun _ c' hc' => ?_⟩
        cases hc'
        exact hn
    · exact ⟨0,fun h => absurd h hpresent⟩

theorem scanBus_ends (hacyclic : ∀ b, Visited cfg b → ¬Relation.TransGen (pciBuses cfg).Edge b b)
    (hcaps : ∀ b, Visited cfg b → ∀ fn∈(pciBuses cfg).items b, CapabilitiesEnd cfg fn)
    (b : BitVec 8) (hb : Visited cfg b) : ∃ n, ∀ devices, (scanBus cfg n b devices).isSome := by
  induction b using (visited_wellFounded hacyclic).induction with
  | _ b ih =>
    obtain ⟨n,hn⟩ := exists_depth b (fun c hedge => ih c ⟨hb,hedge⟩ (hb.edge hedge))
    refine ⟨n+1,?_⟩
    apply foldlM_ends
    intro fn hfn
    apply scanFunction_ends
    · intro hpresent
      exact hcaps b hb fn (List.mem_filter.mpr ⟨hfn,decide_eq_true hpresent⟩)
    · exact hn fn hfn

/-- scan_root_bus returns, with the same devices however deep its recursion may go beyond
some number. -/
def ScanEnds (cfg : PciConfig) : Prop :=
  ∃ devices n, ∀ m, n ≤ m → scanRootBus cfg m=some devices

/-- scan_root_bus ends exactly if, on the buses behind the root buses, no bridges lead in a cycle
and each capability list comes to its end. -/
theorem scan_ends_iff (cfg : PciConfig) : ScanEnds cfg ↔
    ∀ b, Visited cfg b → ¬Relation.TransGen (pciBuses cfg).Edge b b ∧
      ∀ fn∈(pciBuses cfg).items b, CapabilitiesEnd cfg fn := by
  constructor
  · rintro ⟨devices,n,hn⟩ b hb
    exact scanRootBus_some (hn n (Nat.le_refl n)) hb
  · intro h
    have hlevels : ∃ n, ∀ b∈rootBuses cfg, ∀ devices, (scanBus cfg n b devices).isSome := by
      apply Places.exists_levels
      · intro n m b hnm hb devices
        exact scanBus_isSome_mono hnm (hb devices)
      · intro b hb
        exact scanBus_ends (fun c hc => (h c hc).1) (fun c hc => (h c hc).2) b ⟨b,hb,.refl⟩
    obtain ⟨n,hn⟩ := hlevels
    obtain ⟨devices,hdevices⟩ := Option.isSome_iff_exists.mp (foldlM_ends hn [])
    refine ⟨devices,n,?_⟩
    intro m hm
    rw [scanRootBus_eq]
    exact foldlM_mono (fun _ _ _ => scanBus_mono hm) hdevices

def bridgeLoopConfig : PciConfig := fun fn off _ =>
  if fn=⟨0,1,0⟩ then
    if off=0 then 0x244e8086 else if off=8 then 0x06040000 else 0
  else 0xffffffff

/-- A device with a capability that has itself as the next one. -/
def capabilityLoopConfig : PciConfig := fun fn off _ =>
  if fn=⟨0,1,0⟩ then
    if off=0 then 0x100e8086 else if off=6 then 0x10 else if off=0x34 then 0x40
    else if off=0x41 then 0x40 else 0
  else 0xffffffff

theorem scan_never_ends : ¬ScanEnds bridgeLoopConfig ∧ ¬ScanEnds capabilityLoopConfig := by
  constructor
  · rintro ⟨devices,n,hn⟩
    have hzero : Visited bridgeLoopConfig 0 := ⟨0,by decide,.refl⟩
    exact (scanRootBus_some (hn n (Nat.le_refl n)) hzero).1 (.single ⟨⟨0,1,0⟩,by decide,by decide⟩)
  · rintro ⟨devices,n,hn⟩
    have hzero : Visited capabilityLoopConfig 0 := ⟨0,by decide,.refl⟩
    obtain ⟨k,hk⟩ := (scanRootBus_some (hn n (Nat.le_refl n)) hzero).2 ⟨0,1,0⟩ (by decide) (by decide)
    have hloop : (nextCapability capabilityLoopConfig ⟨0,1,0⟩)^[k]
        (pciReadb capabilityLoopConfig ⟨0,1,0⟩ 0x34)=0x40 :=
      Function.iterate_fixed (by decide) k
    rw [hloop] at hk
    exact absurd hk (by decide)

end X64OS.Drivers
