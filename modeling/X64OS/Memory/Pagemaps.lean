import X64OS.Framework.Runs
import X64OS.Memory.Stock
import X64OS.Memory.VmmSpecs

namespace X64OS.Memory

open Framework
open Option (map_eq_some_iff bind_eq_some_iff)

variable {M : Machine} {P : Type} {A : PageAllocator M P} {r r' : Ram P} {T T' : List Table}

/-- Every upper-half entry of every top level is present. -/
def UpperFull (r : Ram P) (T : List Table) : Prop :=
  ∀ t∈T, t.level=3 → ∀ i, 256 ≤ i → i < 512 → isPresent (entry r.mem t.base i)=true

theorem UpperFull.mayGrow (hu : UpperFull r T) {top i : Nat} (ht : ⟨top,3⟩∈T) (hi : i < 512) :
    MayGrow r T ⟨top,3⟩ i := by
  intro _ h256 habs
  have hp := hu _ ht rfl i h256 hi
  rw [habs] at hp
  cases hp

theorem Extended.upperFull (he : Extended A r T r' T') (hu : UpperFull r T) : UpperFull r' T' := by
  intro t ht hl i h256 hi
  have htT := he.roots t ht hl
  have hp := hu t htT hl i h256 hi
  rw [he.kept t htT (by omega) i hi hp]
  exact hp

theorem copyEntries_spec {m : Mem} {dst src : Nat}
    (hsep : (⟨dst,pageSize⟩ : Span).Separate ⟨src,pageSize⟩) {n : Nat} (hn : n ≤ 256) :
    Mem.SameOff ⟨dst,pageSize⟩ m (copyEntries m dst src n) ∧
    (∀ j, j < 256 ∨ 256+n ≤ j → j < 512 → entry (copyEntries m dst src n) dst j=entry m dst j) ∧
    (∀ j < n, entry (copyEntries m dst src n) dst (256+j)=entry m src (256+j)) := by
  induction n with
  | zero => exact ⟨fun _ _ => rfl,fun _ _ _ => rfl,fun j hj => absurd hj (Nat.not_lt_zero j)⟩
  | succ n ih =>
    obtain ⟨hoff,hkeep,hcopy⟩ := ih (by omega)
    have hsrc : entry (copyEntries m dst src n) src (256+n)=entry m src (256+n) :=
      Forest.entry_frame (t := ⟨src,0⟩) hoff hsep (by omega)
    have hother : ∀ j < 512, j≠256+n →
        entry (copyEntries m dst src (n+1)) dst j=entry (copyEntries m dst src n) dst j := by
      intro j hj hne
      apply (Mem.sameOff_write64 (copyEntries m dst src n) _ _).read64
      intro x hx hy
      rw [Span.mem_mk] at hx hy
      omega
    refine ⟨?_,?_,?_⟩
    · apply hoff.trans
      apply (Mem.sameOff_write64 (copyEntries m dst src n) _ _).mono
      exact Forest.entry_inside (t := ⟨dst,0⟩) (by omega)
    · intro j hj hj'
      rw [hother j hj' (by omega)]
      exact hkeep j (by omega) hj'
    · intro j hj
      by_cases he : j=n
      · subst he
        rw [← hsrc]
        exact Mem.read64_write64 _ _ _
      · rw [hother (256+j) (by omega) (by omega)]
        exact hcopy j (by omega)

theorem cloned_copyEntries (hf : Forest A r T) {phys k : Nat} (hk : ⟨k,3⟩∈T)
    (hg : Granted A r r' phys 1) :
    Forest.Cloned M r T ⟨k,3⟩ phys
      (copyEntries (r'.mem.fill (phys+M.hhdm) 4096 0) (phys+M.hhdm) k 256) := by
  have hspan : mapped M phys 1=⟨phys+M.hhdm,pageSize⟩ := by simp [mapped]
  have hsep := hf.fresh hg
  rw [hspan] at hsep
  have hfill : Mem.SameOff ⟨phys+M.hhdm,pageSize⟩ r.mem (r'.mem.fill (phys+M.hhdm) 4096 0) := by
    have hframe := hg.frame
    rw [hspan] at hframe
    exact hframe.trans (Mem.sameOff_fill _ _ _ _)
  obtain ⟨hoff,hkeep,hcopy⟩ := copyEntries_spec (m := r'.mem.fill (phys+M.hhdm) 4096 0)
    (hsep _ hk) le_rfl
  refine ⟨?_,?_,?_⟩
  · intro u hu j hj
    exact Forest.entry_frame (hfill.trans hoff) (hsep u hu) hj
  · intro j hj
    rw [hkeep j (.inl hj) (by omega)]
    apply Mem.read64_eq_zero
    intro x hx
    apply if_pos
    rw [Span.mem_mk] at hx ⊢
    omega
  · intro j h256 hj
    have hc := hcopy (j-256) (by omega)
    rw [Nat.add_sub_cancel' h256] at hc
    rw [hc]
    exact Forest.entry_frame hfill (hsep _ hk) hj

/-- What vmm_new_pagemap leaves: one more top level, every old translation,
the upper half of krnl_page and two pages mapped to themselves. -/
structure Created (A : PageAllocator M P) (r : Ram P) (T : List Table) (k top : Nat) (r' : Ram P)
    (T' : List Table) : Prop where
  forest : Forest A r' T'
  full : UpperFull r' T'
  tables : ∀ t∈T, t∈T'
  self : ⟨top,3⟩∈T'
  new : ⟨top,3⟩∉T
  roots : ∀ t∈T', t.level=3 → t=⟨top,3⟩ ∨ t∈T
  used : ∀ i, A.inUse r.pmm i → A.inUse r'.pmm i
  fresh : ∀ t∈T', t∉T → ¬A.inUse r.pmm ((t.base-M.hhdm)/pageSize)
  views : ∀ t∈T, t.level=3 → ∀ w, pteFrom M r'.mem 3 t.base w=pteFrom M r.mem 3 t.base w
  view : ∀ w, pteFrom M r'.mem 3 top w=
    if pageKey w=0x37fd then mapEntry 0x37fd024#64 (pteWritable ||| ptePresent)
    else if pageKey w=0x37fc then mapEntry 0x37fc024#64 (ptePresent ||| pteWritable)
    else if 256 ≤ levelIndex 3 w then pteFrom M r.mem 3 k w
    else 0

theorem not_sameEntry {top top' : Nat} {v w : BitVec 64} (hne : top≠top')
    (hl : levelIndex 3 v < 256) : ¬SameEntry top v top' w := by
  intro hs
  obtain h | h := hs.2
  · exact hne h
  · omega

/-- The memory of a new pagemap up to its two mappings. -/
theorem vmmNewPagemap_cloned (hf : Forest A r T) (hu : UpperFull r T) {k : Nat} (hk : ⟨k,3⟩∈T)
    {pm : Option Nat} (h : vmmNewPagemap A r (some k)=some (pm,r')) :
    ∃ phys r₁ m ok₁ r₂ ok₂, pm=some (phys+M.hhdm) ∧ Granted A r r₁ phys 1 ∧
      Mem.SameOff (mapped M phys 1) r.mem m ∧ Forest.Cloned M r T ⟨k,3⟩ phys m ∧
      Forest A (⟨m,r₁.pmm⟩ : Ram P) (⟨phys+M.hhdm,3⟩::T) ∧
      UpperFull (⟨m,r₁.pmm⟩ : Ram P) (⟨phys+M.hhdm,3⟩::T) ∧
      vmmMapPage A ⟨m,r₁.pmm⟩ (some (phys+M.hhdm)) 0x37fc024#64 0x37fc024#64
        (ptePresent ||| pteWritable) false=some (ok₁,r₂) ∧
      vmmMapPage A r₂ (some (phys+M.hhdm)) 0x37fd024#64 0x37fd024#64
        (pteWritable ||| ptePresent) false=some (ok₂,r') := by
  obtain ⟨⟨phys,r₁⟩,ha,h⟩ := bind_eq_some_iff.mp h
  obtain ⟨hg,-⟩ := pmmAlloc_granted hf.valid le_rfl ha
  have hne : ¬phys=0 := Nat.pos_iff_ne_zero.mp hg.pos
  simp only [if_neg hne,hg.base_mod] at h
  have hc := cloned_copyEntries hf hk hg
  have hoff : Mem.SameOff (mapped M phys 1) r.mem
      (copyEntries (r₁.mem.fill (phys+M.hhdm) 4096 0) (phys+M.hhdm) k 256) := by
    have hspan : mapped M phys 1=⟨phys+M.hhdm,pageSize⟩ := by simp [mapped]
    have hsep := hf.fresh hg _ hk
    have hframe := hg.frame
    rw [hspan] at hsep hframe ⊢
    exact (hframe.trans (Mem.sameOff_fill _ _ _ _)).trans (copyEntries_spec hsep le_rfl).1
  generalize copyEntries (r₁.mem.fill (phys+M.hhdm) 4096 0) (phys+M.hhdm) k 256=m at h hc hoff
  have hu1 : UpperFull (⟨m,r₁.pmm⟩ : Ram P) (⟨phys+M.hhdm,3⟩::T) := by
    intro t ht hl i h256 hi
    obtain rfl | ht := List.mem_cons.mp ht
    · dsimp only
      rw [hc.upper i h256 hi]
      exact hu _ hk rfl i h256 hi
    · dsimp only
      rw [hc.old t ht i hi]
      exact hu t ht hl i h256 hi
  obtain ⟨⟨ok₁,r₂⟩,h2,h⟩ := bind_eq_some_iff.mp h
  obtain ⟨⟨ok₂,r₃⟩,h3,he⟩ := map_eq_some_iff.mp h
  cases he
  exact ⟨phys,r₁,m,ok₁,r₂,ok₂,rfl,hg,hoff,hc,hf.clone hg hk rfl hc,hu1,h2,h3⟩

theorem vmmNewPagemap_created (hf : Forest A r T) (hu : UpperFull r T) {k : Nat} (hk : ⟨k,3⟩∈T)
    {pm : Option Nat} (h : vmmNewPagemap A r (some k)=some (pm,r')) :
    ∃ top T', pm=some top ∧ Created A r T k top r' T' := by
  obtain ⟨phys,r₁,m,ok₁,r₂,ok₂,rfl,hg,-,hc,hf1,hu1,h2,h3⟩ := vmmNewPagemap_cloned hf hu hk h
  have hnew : (⟨phys+M.hhdm,3⟩ : Table)∉T := fun hm => hf.fresh_base hg _ hm rfl
  have hself : (⟨phys+M.hhdm,3⟩ : Table)∈(⟨phys+M.hhdm,3⟩ : Table)::T := List.mem_cons_self
  obtain ⟨hok1,T₂,e2,v2⟩ := vmmMapPage_spec hf1 hself
    (hu1.mayGrow hself (levelIndex_lt le_rfl _)) h2
  have hu2 := e2.upperFull hu1
  have hself2 := e2.tables _ hself
  obtain ⟨hok2,T₃,e3,v3⟩ := vmmMapPage_spec e2.forest hself2
    (hu2.mayGrow hself2 (levelIndex_lt le_rfl _)) h3
  have e := e2.trans e3
  have hview := hf.clone_view hk rfl hc
  have hi1 : levelIndex 3 0x37fc024#64=0 ∧ levelIndex 3 0x37fd024#64=0 := by decide
  have hkey : pageKey 0x37fc024#64=0x37fc ∧ pageKey 0x37fd024#64=0x37fd := by decide
  -- the lower half of the clone is empty, so both calls succeed
  have ht1 : ok₁=true := by
    have h0 := hview 0x37fc024#64
    rw [if_neg (by rw [hi1.1]; decide)] at h0
    rw [hok1,h0,isPresent_zero]
    rfl
  have ht2 : ok₂=true := by
    have h0 := hview 0x37fd024#64
    rw [if_neg (by rw [hi1.2]; decide)] at h0
    rw [hok2,v2 _ hself rfl,if_neg (fun hx => absurd hx.2.1 (by rw [hkey.1,hkey.2]; decide)),h0,
      isPresent_zero]
    rfl
  have hkeep : ∀ t∈T, t.level=3 → ∀ w, pteFrom M r'.mem 3 t.base w=pteFrom M m 3 t.base w := by
    intro t ht hl w
    have hdiff : phys+M.hhdm≠t.base := (hf.fresh_base hg t ht).symm
    have ht1 := List.mem_cons_of_mem (⟨phys+M.hhdm,3⟩ : Table) ht
    rw [v3 t (e2.tables t ht1) hl w,
      if_neg (fun hx => not_sameEntry hdiff (by rw [hi1.2]; decide) hx.2),v2 t ht1 hl w,
      if_neg (fun hx => not_sameEntry hdiff (by rw [hi1.1]; decide) hx.2)]
  refine ⟨phys+M.hhdm,T₃,rfl,e3.forest,e3.upperFull hu2,
    fun t ht => e.tables t (List.mem_cons_of_mem _ ht),e.tables _ hself,hnew,
    fun t ht hl => List.mem_cons.mp (e.roots t ht hl),
    fun i hi => e.used i ((hg.used i).mpr (.inr hi)),?_,?_,?_⟩
  · intro t ht hn hin
    by_cases ht1 : t∈(⟨phys+M.hhdm,3⟩ : Table)::T
    · obtain rfl | ht1 := List.mem_cons.mp ht1
      · refine hg.fresh _ ?_ hin
        have hal := hg.aligned
        rw [Span.mem_mk]
        simp only [pageSize] at hal ⊢
        omega
      · exact hn ht1
    · exact e.fresh t ht ht1 ((hg.used _).mpr (.inr hin))
  · intro t ht hl w
    rw [hkeep t ht hl w]
    exact hf.view_congr hc.old le_rfl ht hl w
  · intro w
    have w3 := v3 _ hself2 rfl w
    have w2 := v2 _ hself rfl w
    simp only [ht1,ht2,true_and,SameEntry,true_or,and_true,hkey.1,hkey.2] at w3 w2
    rw [w3,w2,hview w]
    simp only [eq_comm]

/-- The loop of InitStage2 on the only pagemap there is. -/
theorem populate_spec (hf : Forest A r T) {top : Nat} (ht : ⟨top,3⟩∈T)
    (honly : ∀ t∈T, t.level=3 → t=⟨top,3⟩) {n : Nat} (hn : n ≤ 512)
    (h : populate A r top n=some r') :
    ∃ T', Extended A r T r' T' ∧ ∀ i < n, isPresent (entry r'.mem top i)=true := by
  induction n generalizing r' with
  | zero =>
    cases h
    exact ⟨T,.refl hf,fun i hi => absurd hi (Nat.not_lt_zero i)⟩
  | succ n ih =>
    obtain ⟨r₁,h1,h⟩ := bind_eq_some_iff.mp h
    obtain ⟨⟨c,r₂⟩,h2,he⟩ := map_eq_some_iff.mp h
    cases he
    obtain ⟨T₁,e1,p1⟩ := ih (by omega) h1
    have ht1 := e1.tables _ ht
    obtain ⟨T₂,g,-,hp,-⟩ := getNextLevel_grown e1.forest ht1 rfl le_rfl (by omega)
      (fun _ _ _ u hu hl => honly u (e1.roots u hu hl) hl) h2
    refine ⟨T₂,e1.trans g.toExtended,?_⟩
    intro i hi
    by_cases hin : i=n
    · subst hin
      exact hp
    · have hold := p1 i (by omega)
      have hk := g.kept _ ht1 (Nat.succ_pos 2) i (by omega) hold
      dsimp only at hk
      rw [hk]
      exact hold

theorem initStage2_spec (hv : A.Valid r.pmm) {top : Nat} (h : initStage2 A r=some (top,r')) :
    ∃ T, Forest A r' T ∧ ⟨top,3⟩∈T ∧ (∀ t∈T, t.level=3 → t=⟨top,3⟩) ∧ UpperFull r' T := by
  obtain ⟨⟨phys,r₁⟩,ha,h⟩ := bind_eq_some_iff.mp h
  obtain ⟨hg,hz⟩ := pmmAlloc_granted hv le_rfl ha
  have hne : ¬phys=0 := Nat.pos_iff_ne_zero.mp hg.pos
  simp only [if_neg hne,hg.base_mod] at h
  obtain ⟨r₂,hp,he⟩ := map_eq_some_iff.mp h
  cases he
  have hempty : ∀ j < 512, entry r₁.mem (phys+M.hhdm) j=0 := by
    intro j hj
    apply Mem.read64_eq_zero
    intro x hx
    apply hz
    rw [Span.mem_mk] at hx
    rw [mapped,Span.mem_mk]
    simp only [pageSize]
    omega
  have hf := Forest.first hv hg hempty
  have hself := List.mem_singleton.mpr (rfl : (⟨phys+M.hhdm,3⟩ : Table)=_)
  have honly : ∀ t∈[(⟨phys+M.hhdm,3⟩ : Table)], t.level=3 → t=⟨phys+M.hhdm,3⟩ :=
    fun t ht _ => List.mem_singleton.mp ht
  obtain ⟨T,e,hfull⟩ := populate_spec hf hself honly le_rfl hp
  have hroots : ∀ t∈T, t.level=3 → t=⟨phys+M.hhdm,3⟩ := fun t ht hl => honly t (e.roots t ht hl) hl
  refine ⟨T,e.forest,e.tables _ hself,hroots,?_⟩
  intro t ht hl i _ hi
  rw [hroots t ht hl]
  exact hfull i hi

inductive PagemapCall where
  | create
  | map (pagemap : Nat) (virt phys flags : BitVec 64) (overwrite : Bool)
  | unmap (pagemap : Nat) (virt : BitVec 64)

structure Pagemaps (P : Type) where
  ram : Ram P
  krnlPage : Nat
  tops : List Nat

section

variable (A : PageAllocator M P)

def pagemapCall (s : Pagemaps P) : PagemapCall → Option (Pagemaps P)
  | .create =>
    (vmmNewPagemap A s.ram (some s.krnlPage)).map (fun x =>
      { s with ram := x.2, tops := x.1.toList++s.tops })
  | .map top virt phys flags overwrite =>
    if top∈s.tops then
      (vmmMapPage A s.ram (some top) virt phys flags overwrite).map (fun x => { s with ram := x.2 })
    else none
  | .unmap top virt =>
    if top∈s.tops then (vmmUnmapPage A s.ram top virt).map (fun x => { s with ram := x.2 })
    else none

def pagemapSystem : System (Pagemaps P) PagemapCall := System.ofPartial (pagemapCall A)

end

/-- The pagemaps are the top levels of one forest with full upper halves. -/
def Shared (A : PageAllocator M P) (s : Pagemaps P) : Prop :=
  ∃ T, Forest A s.ram T ∧ UpperFull s.ram T ∧ ⟨s.krnlPage,3⟩∈T ∧ ∀ top∈s.tops, ⟨top,3⟩∈T

def PagemapCall.target : PagemapCall → Option (Nat × BitVec 64)
  | .create => none
  | .map top virt _ _ _ => some (top,virt)
  | .unmap top virt => some (top,virt)

theorem pagemapCall_target {s s' : Pagemaps P} {T : List Table} {c : PagemapCall} {top : Nat}
    {virt : BitVec 64} (hf : Forest A s.ram T) (hu : UpperFull s.ram T)
    (htops : ∀ top∈s.tops, ⟨top,3⟩∈T) (hc : pagemapCall A s c=some s')
    (hct : c.target=some (top,virt)) :
    s'.krnlPage=s.krnlPage ∧ s'.tops=s.tops ∧ ∃ T', Extended A s.ram T s'.ram T' ∧
      ∀ t∈T, t.level=3 → ∀ w, ¬SameEntry top virt t.base w →
        pteFrom M s'.ram.mem 3 t.base w=pteFrom M s.ram.mem 3 t.base w := by
  cases c with
  | create => cases hct
  | map top' virt' phys flags overwrite =>
    cases hct
    obtain ⟨hm,hc⟩ := Option.ite_none_right_eq_some.mp hc
    obtain ⟨⟨ok,r'⟩,h,rfl⟩ := map_eq_some_iff.mp hc
    obtain ⟨-,T',e,hview⟩ := vmmMapPage_spec hf (htops top hm)
      (hu.mayGrow (htops top hm) (levelIndex_lt le_rfl _)) h
    refine ⟨rfl,rfl,T',e,?_⟩
    intro t ht hl w hns
    rw [hview t ht hl w,if_neg (fun hx => hns hx.2)]
  | unmap top' virt' =>
    cases hct
    obtain ⟨hm,hc⟩ := Option.ite_none_right_eq_some.mp hc
    obtain ⟨⟨ok,r'⟩,h,rfl⟩ := map_eq_some_iff.mp hc
    obtain ⟨r₁,hr,e,hview⟩ := vmmUnmapPage_spec hf (htops top hm) virt
    cases h.symm.trans hr
    refine ⟨rfl,rfl,T,e,?_⟩
    intro t ht hl w hns
    rw [hview t ht hl w,if_neg (fun hx => hns hx.2)]

theorem Shared.target {s s' : Pagemaps P} {c : PagemapCall} {top : Nat} {virt : BitVec 64}
    (hs : Shared A s) (hc : pagemapCall A s c=some s') (hct : c.target=some (top,virt)) :
    Shared A s' := by
  obtain ⟨T,hf,hu,hk,htops⟩ := hs
  obtain ⟨hkrnl,hsame,T',e,-⟩ := pagemapCall_target hf hu htops hc hct
  refine ⟨T',e.forest,e.upperFull hu,?_,?_⟩
  · rw [hkrnl]
    exact e.tables _ hk
  · rw [hsame]
    exact fun t ht => e.tables _ (htops t ht)

theorem Shared.call {s s' : Pagemaps P} {c : PagemapCall} (hs : Shared A s)
    (hc : pagemapCall A s c=some s') : Shared A s' := by
  cases c with
  | create =>
    obtain ⟨T,hf,hu,hk,htops⟩ := hs
    obtain ⟨⟨pm,r'⟩,h,rfl⟩ := map_eq_some_iff.mp hc
    obtain ⟨top,T',rfl,hcr⟩ := vmmNewPagemap_created hf hu hk h
    refine ⟨T',hcr.forest,hcr.full,hcr.tables _ hk,?_⟩
    intro t ht
    obtain rfl | ht := List.mem_cons.mp ht
    · exact hcr.self
    · exact hcr.tables _ (htops t ht)
  | map top virt phys flags overwrite => exact hs.target hc rfl
  | unmap top virt => exact hs.target hc rfl

theorem bit47_iff (v : BitVec 64) : v.getLsbD 47=true ↔ 256 ≤ levelIndex 3 v := by
  rw [levelIndex_eq le_rfl,← BitVec.testBit_toNat,Nat.testBit_eq_decide_div_mod_eq,decide_eq_true_iff]
  simp only [Nat.reduceMul,Nat.reduceAdd,Nat.reducePow]
  omega

theorem Shared.upper_eq {s : Pagemaps P} (hs : Shared A s) {v : BitVec 64}
    (hv : v.getLsbD 47=true) : ∃ p, ∀ pm∈s.tops, vmmVirt2phys A s.ram pm v=some p := by
  obtain ⟨T,hf,-,hk,htops⟩ := hs
  refine ⟨translate (pteFrom M s.ram.mem 3 s.krnlPage v) v,?_⟩
  intro pm hpm
  have he := leafTable_sameEntry hf hk (htops pm hpm) ⟨rfl,.inr ((bit47_iff v).mp hv)⟩
  rw [vmmVirt2phys_eq hf (htops pm hpm),pteFrom,pteFrom,he]

theorem Shared.lower_frame {s s' : Pagemaps P} (hs : Shared A s) {c : PagemapCall} {top : Nat}
    {virt : BitVec 64} (hc : pagemapCall A s c=some s') (hct : c.target=some (top,virt))
    (hv : virt.getLsbD 47=false) {pm : Nat} (hpm : pm∈s.tops) (hne : pm≠top) (w : BitVec 64) :
    vmmVirt2phys A s'.ram pm w=vmmVirt2phys A s.ram pm w := by
  obtain ⟨T,hf,hu,-,htops⟩ := hs
  have hlow : levelIndex 3 virt < 256 := by
    by_contra hge
    rw [(bit47_iff virt).mpr (by omega)] at hv
    cases hv
  obtain ⟨-,-,T',e,hview⟩ := pagemapCall_target hf hu htops hc hct
  rw [vmmVirt2phys_eq e.forest (e.tables _ (htops pm hpm)),vmmVirt2phys_eq hf (htops pm hpm),
    hview _ (htops pm hpm) rfl w (not_sameEntry hne.symm hlow)]

/-- In every state reached after InitStage2 all pagemaps agree on the upper
half, and an operation on a lower-half address is seen in no other pagemap. -/
theorem pagemaps_share_upper (A : PageAllocator M P) (r : Ram P) (hv : A.Valid r.pmm) (k : Nat)
    (r₀ : Ram P) (h₀ : initStage2 A r=some (k,r₀)) (s : Pagemaps P)
    (hr : (pagemapSystem A).Reachable ⟨r₀,k,[k]⟩ s) :
    (∀ v, v.getLsbD 47=true → ∃ p, ∀ pm∈s.tops, vmmVirt2phys A s.ram pm v=some p) ∧
    (∀ c s' top virt, (pagemapSystem A).step s c s' → c.target=some (top,virt) →
      virt.getLsbD 47=false → ∀ pm∈s.tops, pm≠top → ∀ w,
        vmmVirt2phys A s'.ram pm w=vmmVirt2phys A s.ram pm w) := by
  obtain ⟨T,hf,ht,-,hu⟩ := initStage2_spec hv h₀
  have hinit : Shared A ⟨r₀,k,[k]⟩ := by
    refine ⟨T,hf,hu,ht,?_⟩
    intro top htop
    rw [List.mem_singleton.mp htop]
    exact ht
  have hs : Shared A s := hr.invariant hinit (fun _ _ _ hs hc => hs.call hc)
  refine ⟨fun v hv => hs.upper_eq hv,?_⟩
  intro c s' top virt hstep hct hlow pm hpm hne w
  exact hs.lower_frame hstep hct hlow hpm hne w

def bumpMachine : Machine :=
  ⟨0xffff800000000000,1024,0xffffffff80000000,directMap_aligned,directMap_pos,
    by decide,by decide,slabArray_le⟩

def bumpRam : Ram Nat := ⟨fun _ => 0,1⟩

theorem initStage2_bump : ∃ x, initStage2 (bumpPages bumpMachine) bumpRam=some x ∧
    (bumpStock bumpMachine).Left 510 x.2.pmm := by
  have hleft : (bumpStock bumpMachine).Left (510+512+1) bumpRam.pmm := by
    show 1+(510+512+1) ≤ 1024
    decide
  obtain ⟨⟨phys,r₁⟩,halloc,hleft⟩ := (bumpStock bumpMachine).pmmAlloc le_rfl hleft
  obtain ⟨r',hpopulate,hleft⟩ :=
    (bumpStock bumpMachine).populate (r:=r₁) (m:=510) hleft ((phys+bumpMachine.hhdm)%2^64)
  have hpos : ¬phys=0 :=
    Nat.pos_iff_ne_zero.mp (pmmAlloc_granted (show 0 < bumpRam.pmm by decide) le_rfl halloc).1.pos
  refine ⟨((phys+bumpMachine.hhdm)%2^64,r'),?_,hleft⟩
  rw [initStage2,halloc,Option.bind_some,if_neg hpos]
  dsimp only
  rw [hpopulate,Option.map_some]

/-- A pagemap is created, and a page of its lower half is mapped. -/
theorem pagemaps_share_upper_bump : ∃ k r₀ top s₁ s₂,
    initStage2 (bumpPages bumpMachine) bumpRam=some (k,r₀) ∧
    pagemapCall (bumpPages bumpMachine) ⟨r₀,k,[k]⟩ .create=some s₁ ∧ s₁.tops=[top,k] ∧ top≠k ∧
    pagemapCall (bumpPages bumpMachine) s₁
      (.map top 0x400000#64 0x5000#64 (ptePresent ||| pteWritable) false)=some s₂ ∧
    (∃ p, ∀ pm∈[top,k],
      vmmVirt2phys (bumpPages bumpMachine) s₂.ram pm 0xffff800000001000#64=some p) ∧
    ∀ w, vmmVirt2phys (bumpPages bumpMachine) s₂.ram k w=
      vmmVirt2phys (bumpPages bumpMachine) s₁.ram k w := by
  obtain ⟨⟨k,r₀⟩,h₀,hleft⟩ := initStage2_bump
  have hvalid : (bumpPages bumpMachine).Valid bumpRam.pmm := Nat.one_pos
  obtain ⟨T,hf,hk,-,hu⟩ := initStage2_spec hvalid h₀
  obtain ⟨⟨pm,r₁⟩,hnew,hleft⟩ := (bumpStock bumpMachine).vmmNewPagemap (m:=503) hleft k
  obtain ⟨top,T',rfl,hcreated⟩ := vmmNewPagemap_created hf hu hk hnew
  have hne : top≠k := by
    rintro rfl
    exact hcreated.new hk
  obtain ⟨⟨ok,r₂⟩,hmap,-⟩ := (bumpStock bumpMachine).vmmMapPage (m:=500) hleft top 0x400000#64
    0x5000#64 (ptePresent ||| pteWritable) false
  have hc₁ : pagemapCall (bumpPages bumpMachine) ⟨r₀,k,[k]⟩ .create=some ⟨r₁,k,[top,k]⟩ := by
    rw [pagemapCall,hnew]
    rfl
  have hc₂ : pagemapCall (bumpPages bumpMachine) ⟨r₁,k,[top,k]⟩
      (.map top 0x400000#64 0x5000#64 (ptePresent ||| pteWritable) false)=
        some ⟨r₂,k,[top,k]⟩ := by
    rw [pagemapCall,if_pos List.mem_cons_self,hmap]
    rfl
  have hr₁ : (pagemapSystem (bumpPages bumpMachine)).Reachable ⟨r₀,k,[k]⟩ ⟨r₁,k,[top,k]⟩ :=
    .tail .refl ⟨_,hc₁⟩
  have h₁ := pagemaps_share_upper (bumpPages bumpMachine) bumpRam hvalid k r₀ h₀ _ hr₁
  have h₂ := pagemaps_share_upper (bumpPages bumpMachine) bumpRam hvalid k r₀ h₀ _
    (hr₁.tail ⟨_,hc₂⟩)
  exact ⟨k,r₀,top,_,_,h₀,hc₁,rfl,hne,hc₂,h₂.1 _ (by decide),
    h₁.2 _ _ top _ hc₂ rfl (by decide) k (by simp) hne.symm⟩

end X64OS.Memory
