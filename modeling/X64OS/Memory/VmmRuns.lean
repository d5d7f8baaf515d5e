import X64OS.Framework.Refinement
import X64OS.Memory.VmmSpecs

namespace X64OS.Memory

open Framework Function

inductive VmmCall where
  | map (virt phys flags : BitVec 64) (overwrite : Bool)
  | unmap (virt : BitVec 64)

/-- Page-aligned frames below 2^52, flags with PTE_PRESENT and no address bits. -/
def VmmCall.Admissible : VmmCall → Prop
  | .map _ phys flags _ =>
    phys.toNat%4096=0 ∧ phys.toNat < 2^52 ∧ flags &&& ptePresent≠0 ∧ flags &&& pteAddrMask=0
  | .unmap _ => True

/-- What a pagemap is for: a partial map from page keys to frames. -/
abbrev FrameMap := Nat → Option (BitVec 64)

def FrameMap.call (f : FrameMap) : VmmCall → Bool × FrameMap
  | .map virt phys _ overwrite =>
    if (f (pageKey virt)).isSome ∧ overwrite=false then (false,f)
    else (true,update f (pageKey virt) (some phys))
  | .unmap virt => ((f (pageKey virt)).isSome,update f (pageKey virt) none)

def FrameMap.translate (f : FrameMap) (virt : BitVec 64) : BitVec 64 :=
  match f (pageKey virt) with
  | some phys => phys+virt%4096#64
  | none => invalidPhys

def frameOf (pte : BitVec 64) : Option (BitVec 64) :=
  if isPresent pte then some (pteGetAddr pte) else none

theorem frameOf_isSome (pte : BitVec 64) : (frameOf pte).isSome=isPresent pte := by
  unfold frameOf
  cases isPresent pte <;> rfl

section

variable {M : Machine} {P : Type} (A : PageAllocator M P)

def vmmCall (top : Nat) (r : Ram P) : VmmCall → Option (Bool × Ram P)
  | .map virt phys flags overwrite => vmmMapPage A r (some top) virt phys flags overwrite
  | .unmap virt => vmmUnmapPage A r top virt

/-- A pagemap whose top level is one page in use, with every entry 0. -/
structure EmptyPagemap (r : Ram P) (top : Nat) : Prop where
  valid : A.Valid r.pmm
  base : top%pageSize=0 ∧ M.hhdm ≤ top ∧ top+pageSize ≤ 2^64
  used : ∀ x∈(⟨top,pageSize⟩ : Span), A.inUse r.pmm ((x-M.hhdm)/pageSize)
  empty : ∀ i < 512, entry r.mem top i=0

/-- The tables below top hold the frame map f; r₀ is where the run began. -/
def Represents (top : Nat) (r₀ r : Ram P) (f : FrameMap) : Prop :=
  Relation.ReflTransGen (Took A) r₀.pmm r.pmm ∧
  ∃ T, Forest A r T ∧ ⟨top,3⟩∈T ∧ (∀ t∈T, t.level=3 → t=⟨top,3⟩) ∧
    ∀ v, f (pageKey v)=frameOf (pteFrom M r.mem 3 top v)

end

variable {M : Machine} {P : Type} {A : PageAllocator M P} {r₀ r r' : Ram P} {top : Nat}
variable {f : FrameMap}

theorem EmptyPagemap.represents (h : EmptyPagemap A r top) :
    Represents A top r r (fun _ => none) := by
  refine ⟨.refl,[⟨top,3⟩],⟨h.valid,?_,?_,by simp,?_,?_,?_⟩,List.mem_singleton.mpr rfl,?_,?_⟩
  · simpa using h.base
  · intro t ht x hx
    cases List.mem_singleton.mp ht
    exact h.used x hx
  · intro t ht k hl i hi hp
    cases List.mem_singleton.mp ht
    rw [h.empty i hi] at hp
    cases hp
  · intro t ht u hu _ _ i hi j hj hp
    cases List.mem_singleton.mp ht
    rw [h.empty i hi] at hp
    cases hp
  · intro t ht u hu _ _ i _ _
    rw [List.mem_singleton.mp ht,List.mem_singleton.mp hu]
  · intro t ht _
    exact List.mem_singleton.mp ht
  · intro v
    rw [pteFrom_empty le_rfl h.empty v,frameOf,isPresent_zero]
    rfl

variable {flags phys : BitVec 64}

theorem mapEntry_present (h : flags &&& ptePresent≠0) : isPresent (mapEntry phys flags)=true := by
  have hmask : ~~~(1#64 <<< 63) &&& ptePresent=ptePresent := by decide
  have hflag : isPresent ((flags ||| pteUser) &&& ~~~(1#64 <<< 63))=isPresent (flags ||| pteUser) := by
    rw [isPresent,isPresent,BitVec.and_assoc,hmask]
  have hp : isPresent flags=true := decide_eq_true h
  rw [mapEntry,isPresent_or,hflag,isPresent_or,hp,Bool.true_or,Bool.or_true]

theorem mapEntry_addr (hal : phys.toNat%4096=0) (hlt : phys.toNat < 2^52)
    (hf : flags &&& pteAddrMask=0) : pteGetAddr (mapEntry phys flags)=phys := by
  have hcomm : pteGetAddr ((flags ||| pteUser) &&& ~~~(1#64 <<< 63))=
      pteGetAddr (flags ||| pteUser) &&& ~~~(1#64 <<< 63) := by
    rw [pteGetAddr,pteGetAddr,BitVec.and_assoc,BitVec.and_assoc,BitVec.and_comm pteAddrMask]
  have huser : pteGetAddr pteUser=0 := by decide
  have hflags : pteGetAddr flags=0 := hf
  rw [mapEntry,pteGetAddr_or,hcomm,pteGetAddr_or,hflags,huser,pteGetAddr_eq hal hlt]
  simp

theorem sameEntry_top (v w : BitVec 64) : SameEntry top v top w ↔ pageKey v=pageKey w :=
  ⟨fun h => h.1,fun h => ⟨h,.inl rfl⟩⟩

theorem Represents.map (hR : Represents A top r₀ r f) {virt : BitVec 64} {overwrite ok : Bool}
    (hc : (VmmCall.map virt phys flags overwrite).Admissible)
    (h : vmmMapPage A r (some top) virt phys flags overwrite=some (ok,r')) :
    ok=(f.call (.map virt phys flags overwrite)).1 ∧
    Represents A top r₀ r' (f.call (.map virt phys flags overwrite)).2 := by
  obtain ⟨htook,T,hf,ht,honly,hview⟩ := hR
  obtain ⟨hal,hlt,hpres,hmask⟩ := hc
  have hm : MayGrow r T ⟨top,3⟩ (levelIndex 3 virt) := fun _ _ _ => honly
  obtain ⟨hok,T',he,hv⟩ := vmmMapPage_spec hf ht hm h
  have hsome : (f (pageKey virt)).isSome=isPresent (pteFrom M r.mem 3 top virt) := by
    rw [hview virt,frameOf_isSome]
  have hkeep : ∀ g : FrameMap, (∀ v, g (pageKey v)=frameOf (pteFrom M r'.mem 3 top v)) →
      Represents A top r₀ r' g :=
    fun g hg => ⟨htook.trans he.took,T',he.forest,he.tables _ ht,
      fun t htm hl => honly t (he.roots t htm hl) hl,hg⟩
  rw [FrameMap.call]
  split
  · rename_i hc
    have hfalse : ok=false := by
      rw [hok,← hsome,hc.1,hc.2]
      rfl
    refine ⟨hfalse,hkeep f ?_⟩
    intro v
    have hpte := hv _ ht rfl v
    rw [hfalse,if_neg (fun hx => Bool.false_ne_true hx.1)] at hpte
    rw [hpte]
    exact hview v
  · rename_i hc
    have htrue : ok=true := by
      rw [hok,← hsome]
      cases hs : (f (pageKey virt)).isSome with
      | false => rfl
      | true =>
        cases ho : overwrite with
        | true => rfl
        | false => exact absurd ⟨hs,ho⟩ hc
    refine ⟨htrue,hkeep _ ?_⟩
    intro v
    have hpte := hv _ ht rfl v
    dsimp only at hpte ⊢
    by_cases hk : pageKey virt=pageKey v
    · rw [if_pos ⟨htrue,(sameEntry_top virt v).mpr hk⟩] at hpte
      rw [hpte,frameOf,mapEntry_present hpres,if_pos rfl,mapEntry_addr hal hlt hmask,hk,
        update_self]
    · rw [if_neg (fun hx => hk ((sameEntry_top virt v).mp hx.2))] at hpte
      rw [hpte,update_of_ne (fun hx => hk hx.symm)]
      exact hview v

theorem Represents.unmap (hR : Represents A top r₀ r f) {virt : BitVec 64} {ok : Bool}
    (h : vmmUnmapPage A r top virt=some (ok,r')) :
    ok=(f.call (.unmap virt)).1 ∧ Represents A top r₀ r' (f.call (.unmap virt)).2 := by
  obtain ⟨htook,T,hf,ht,honly,hview⟩ := hR
  obtain ⟨r₁,hr,he,hv⟩ := vmmUnmapPage_spec hf ht virt
  rw [h] at hr
  cases hr
  have hsome : (f (pageKey virt)).isSome=isPresent (pteFrom M r.mem 3 top virt) := by
    rw [hview virt,frameOf_isSome]
  refine ⟨hsome.symm,htook.trans he.took,T,he.forest,ht,honly,?_⟩
  intro v
  have hpte := hv _ ht rfl v
  rw [FrameMap.call]
  dsimp only at hpte ⊢
  by_cases hk : pageKey virt=pageKey v
  · rw [← hk,update_self]
    by_cases hp : isPresent (pteFrom M r.mem 3 top virt)=true
    · rw [if_pos ⟨hp,(sameEntry_top virt v).mpr hk⟩] at hpte
      rw [hpte,frameOf,isPresent_zero]
      rfl
    · rw [if_neg (fun hx => hp hx.1)] at hpte
      rw [hpte,← hview v,← hk,hview virt,frameOf,if_neg hp]
  · rw [if_neg (fun hx => hk ((sameEntry_top virt v).mp hx.2))] at hpte
    rw [hpte,update_of_ne (fun hx => hk hx.symm)]
    exact hview v

theorem vmm_refines (A : PageAllocator M P) (top : Nat) (r₀ : Ram P) :
    Refines (vmmCall A top) FrameMap.call VmmCall.Admissible (Represents A top r₀) := by
  intro r f c ok r' hR hc h
  cases c with
  | map virt phys flags overwrite => exact hR.map hc h
  | unmap virt => exact hR.unmap h

theorem Represents.translate {f : FrameMap} (hR : Represents A top r₀ r f) (v : BitVec 64) :
    vmmVirt2phys A r top v=some (f.translate v) := by
  obtain ⟨-,T,hf,ht,-,hview⟩ := hR
  rw [vmmVirt2phys_eq hf ht,FrameMap.translate,hview v,Memory.translate,frameOf]
  cases isPresent (pteFrom M r.mem 3 top v) <;> rfl

/-- On every sequence of calls the page tables behave as the frame map: same
results, same translations. A sequence has no result only where pmm_alloc,
after the frames it already gave, returns no further one. -/
theorem vmm_runs_refine (A : PageAllocator M P) (r₀ : Ram P) (top : Nat)
    (h₀ : EmptyPagemap A r₀ top) (calls : List VmmCall) (hcalls : ∀ c∈calls, c.Admissible) :
    match trace (vmmCall A top) r₀ calls with
    | some (oks,r) =>
      oks=(traceTotal FrameMap.call (fun _ => none) calls).1 ∧
      ∀ v, vmmVirt2phys A r top v=
        some ((traceTotal FrameMap.call (fun _ => none) calls).2.translate v)
    | none => ∃ p, Relation.ReflTransGen (Took A) r₀.pmm p ∧ A.alloc p 1=none := by
  have hr := vmm_refines A top r₀
  cases h : trace (vmmCall A top) r₀ calls with
  | some x =>
    obtain ⟨hos,hR⟩ := hr.trace_eq h₀.represents hcalls h
    exact ⟨hos,hR.translate⟩
  | none =>
    obtain ⟨r,f,c,hR,-,hn⟩ := hr.trace_none h₀.represents hcalls h
    cases c with
    | map virt phys flags overwrite =>
      rw [vmmCall] at hn
      obtain ⟨p,hp,ha⟩ := vmmMapPage_none hn
      exact ⟨p,hR.1.trans hp,ha⟩
    | unmap virt =>
      obtain ⟨-,T,hf,ht,-,-⟩ := hR
      obtain ⟨r₁,hr₁,-⟩ := vmmUnmapPage_spec hf ht virt
      rw [vmmCall,hr₁] at hn
      cases hn

theorem page_one {base x : Nat} (hx : x∈(⟨base+4096,pageSize⟩ : Span)) :
    (x-base)/pageSize=1 := by
  rw [Span.mem_mk] at hx
  simp only [pageSize] at hx ⊢
  omega

def pagingMachine : Machine :=
  ⟨0xffff800000000000,16,0xffffffff80000000,directMap_aligned,directMap_pos,
    sixteenPages_le,sixteenPages_window,slabArray_le⟩

def pagingRam : Ram Pmm.State := ⟨fun _ => 0,⟨fun i => if i=0 then 3 else 0,16,0,0,by decide⟩⟩

def pagingTop : Nat := pagingMachine.hhdm+4096

theorem pagingRam_empty : EmptyPagemap (bitmapPages pagingMachine) pagingRam pagingTop where
  valid := ⟨⟨by decide,by decide⟩,by decide⟩
  base := by decide +kernel
  used := by
    intro x hx
    have hpage : (x-pagingMachine.hhdm)/pageSize=1 := page_one hx
    rw [hpage]
    rfl
  empty i _ := Mem.read64_eq_zero (fun _ _ => rfl)

def pagingCalls : List VmmCall :=
  [.map 0x80000000000#64 0x5000#64 ptePresent false,.map 0x80000000000#64 0x6000#64 ptePresent false,
    .map 0x80000001000#64 0x7000#64 ptePresent false,.unmap 0x80000000000#64]

theorem vmm_runs_refine_paging :
    (trace (vmmCall (bitmapPages pagingMachine) pagingTop) pagingRam pagingCalls).isSome ∧
    ∀ x, trace (vmmCall (bitmapPages pagingMachine) pagingTop) pagingRam pagingCalls=some x →
      x.1=[true,false,true,true] ∧
      vmmVirt2phys (bitmapPages pagingMachine) x.2 pagingTop 0x80000001234#64=some 0x7234#64 := by
  refine ⟨by decide +kernel,?_⟩
  intro x hx
  have h := vmm_runs_refine (bitmapPages pagingMachine) pagingRam pagingTop pagingRam_empty
    pagingCalls (by simp [pagingCalls,VmmCall.Admissible,ptePresent,pteAddrMask])
  rw [hx] at h
  exact ⟨h.1.trans (by decide +kernel),(h.2 _).trans (by decide +kernel)⟩

end X64OS.Memory
