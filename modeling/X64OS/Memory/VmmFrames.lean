import X64OS.Memory.MmapPages

namespace X64OS.Memory

open Framework
open Option (map_eq_some_iff bind_eq_some_iff)

variable {M : Machine} {P : Type} {A : PageAllocator M P}
variable {r r' r'' : Ram P} {T T' : List Table} {s s' : MmapState M P}

def Plain (A : PageAllocator M P) (r : Ram P) (T : List Table) (x : Nat) : Prop :=
  A.inUse r.pmm ((x-M.hhdm)/pageSize) ∧ ∀ t∈T, x∉t.span

/-- Bytes in use outside the tables keep their values. -/
def Spares (A : PageAllocator M P) (r : Ram P) (T : List Table) (r' : Ram P) : Prop :=
  ∀ x, Plain A r T x → r'.mem x=r.mem x

theorem Spares.refl (r : Ram P) (T : List Table) : Spares A r T r := fun _ _ => rfl

variable {x pages phys virt : Nat} {flags : BitVec 64} {ok : Bool}

theorem Evolved.plain (he : Evolved A r T r' T') (h : Plain A r T x) : Plain A r' T' x := by
  refine ⟨he.used _ h.1,?_⟩
  intro t ht hx
  by_cases hT : t∈T
  · exact h.2 t hT hx
  · have hb := he.forest.base t ht
    have ha := M.hhdm_aligned
    have hpage : (x-M.hhdm)/pageSize=(t.base-M.hhdm)/pageSize := by
      rw [Table.span,Span.mem_mk] at hx
      simp only [pageSize] at hb ha hx ⊢
      omega
    exact he.fresh t ht hT (hpage ▸ h.1)

theorem Spares.trans (h : Spares A r T r') (he : Evolved A r T r' T') (k : Spares A r' T' r'') :
    Spares A r T r'' :=
  fun x hx => (k x (he.plain hx)).trans (h x hx)

theorem Granted.plain (hf : Forest A r T) (hg : Granted A r r' phys pages)
    (hx : x∈mapped M phys pages) : Plain A r' T x :=
  ⟨hg.inUse x hx,fun t ht hxt => hg.separate _ (hf.used t ht) x hx hxt⟩

theorem Plain.not_granted (hg : Granted A r r' phys pages) (hx : Plain A r T x) :
    x∉mapped M phys pages := by
  intro hm
  refine hg.fresh _ ?_ hx.1
  have hal := hg.aligned
  rw [mapped,Span.mem_mk] at hm
  rw [Span.mem_mk]
  simp only [pageSize] at hm hal ⊢
  omega

theorem Granted.spares (hg : Granted A r r' phys pages) : Spares A r T r' :=
  fun x hx => hg.frame x (hx.not_granted hg)

theorem Evolved.of_off (hf : Forest A r T) (hu : UpperFull r T) {m : Mem} {w : Span}
    (hoff : Mem.SameOff w r.mem m) (hw : ∀ x∈w, ∀ t∈T, x∉t.span) :
    Evolved A r T ⟨m,r.pmm⟩ T ∧
      ∀ top, ⟨top,3⟩∈T → ∀ v, pteFrom M m 3 top v=pteFrom M r.mem 3 top v := by
  have hsame : ∀ t∈T, ∀ i < 512, entry m t.base i=entry r.mem t.base i :=
    fun t ht _ hi => Forest.entry_frame hoff (fun x hx hxt => hw x hx t ht hxt) hi
  refine ⟨⟨hf.congr (fun t ht _ => hsame t ht),?_,fun _ h => h,fun _ h => h,
    fun _ h hn => absurd h hn⟩,fun top ht v => hf.view_congr hsame le_rfl ht rfl v⟩
  intro t ht hl i h256 hi
  dsimp only
  rw [hsame t ht i hi]
  exact hu t ht hl i h256 hi

theorem setEntry_spares {t : Table} (ht : t∈T) {i : Nat} (hi : i < 512) (v : BitVec 64) :
    Spares A r T ⟨setEntry r.mem t.base i v,r.pmm⟩ := by
  intro x hx
  apply Mem.sameOff_write64
  intro hm
  exact hx.2 t ht (Forest.entry_inside hi x hm)

theorem getNextLevel_spares (hf : Forest A r T) {t : Table} (ht : t∈T) {i c : Nat} (hi : i < 512)
    (h : getNextLevel A r t.base i true=some (c,r')) : Spares A r T r' := by
  unfold getNextLevel at h
  simp only [hf.lift ht] at h
  split at h
  · cases h
    exact .refl _ _
  · rw [if_neg (by simp)] at h
    obtain ⟨⟨phys,r₁⟩,ha,he⟩ := map_eq_some_iff.mp h
    obtain ⟨hg,-⟩ := pmmAlloc_granted hf.valid le_rfl ha
    rw [if_neg (Nat.pos_iff_ne_zero.mp hg.pos)] at he
    simp only [Prod.mk.injEq] at he
    obtain ⟨-,rfl⟩ := he
    intro x hx
    have hset := setEntry_spares (A := A) (r := r₁) ht hi
      (BitVec.ofNat 64 phys ||| ptePresent ||| pteWritable ||| pteUser)
    exact (hset x ⟨(hg.used _).mpr (.inr hx.1),hx.2⟩).trans (hg.spares x hx)

section
variable (hf : Forest A r T) (hu : UpperFull r T)
include hf hu

theorem findPml1_spares {top c : Nat} {virt : BitVec 64} (ht : ⟨top,3⟩∈T)
    (h : findPml1 A r top virt true=some (c,r')) : Spares A r T r' := by
  have hlow : ∀ {r₁ : Ram P} {T₁ : List Table} {t : Table} {i : Nat}, t.level≠3 →
      MayGrow r₁ T₁ t i := fun hn h3 => absurd h3 hn
  have hi : ∀ k ≤ 3, levelIndex k virt < 512 := fun k hk => levelIndex_lt hk virt
  unfold findPml1 at h
  rw [pml4Entry_eq,pml3Entry_eq,pml2Entry_eq] at h
  obtain ⟨⟨pml3,r₁⟩,h1,h⟩ := bind_eq_some_iff.mp h
  have s1 := getNextLevel_spares hf ht (hi 3 le_rfl) h1
  obtain ⟨T₁,g1,m1,-⟩ := getNextLevel_grown hf ht rfl le_rfl (hi 3 le_rfl)
    (hu.mayGrow ht (hi 3 le_rfl)) h1
  have e1 := g1.toExtended.evolved hu
  dsimp only at h
  rw [if_neg (g1.forest.pos m1)] at h
  obtain ⟨⟨pml2,r₂⟩,h2,h⟩ := bind_eq_some_iff.mp h
  have s2 := getNextLevel_spares g1.forest m1 (hi 2 (by omega)) h2
  obtain ⟨T₂,g2,m2,-⟩ := getNextLevel_grown g1.forest m1 rfl (by omega) (hi 2 (by omega))
    (hlow (Nat.ne_of_beq_eq_false rfl)) h2
  have e2 := g2.toExtended.evolved e1.full
  dsimp only at h
  rw [if_neg (g2.forest.pos m2)] at h
  have s3 := getNextLevel_spares g2.forest m2 (hi 1 (by omega)) h
  exact s1.trans e1 (s2.trans e2 s3)

theorem vmmMapPage_spares {top : Nat} {virt phys : BitVec 64} {overwrite : Bool} (ht : ⟨top,3⟩∈T)
    (h : vmmMapPage A r (some top) virt phys flags overwrite=some (ok,r')) : Spares A r T r' := by
  obtain ⟨⟨pml1,r₁⟩,h1,h⟩ := map_eq_some_iff.mp h
  rw [hf.lift ht] at h1
  have s1 := findPml1_spares hf hu ht h1
  obtain ⟨T₁,g1,m1,-⟩ := findPml1_grown hf ht (hu.mayGrow ht (levelIndex_lt le_rfl _)) h1
  dsimp only at h
  rw [if_neg (g1.forest.pos m1)] at h
  split at h
  · cases h
    exact s1
  · cases h
    have hset := setEntry_spares (A := A) (r := r₁) m1 (levelIndex_lt (Nat.zero_le 3) virt)
      (phys ||| ((flags ||| pteUser) &&& ~~~(1#64 <<< 63)))
    exact s1.trans (g1.toExtended.evolved hu) hset

theorem vmmNewPagemap_spares {k : Nat} (hk : ⟨k,3⟩∈T) {pm : Option Nat}
    (h : vmmNewPagemap A r (some k)=some (pm,r')) : Spares A r T r' := by
  obtain ⟨phys,r₁,m,ok₁,r₂,ok₂,rfl,hg,hoff,-,hf1,hu1,h2,h3⟩ := vmmNewPagemap_cloned hf hu hk h
  have hself : (⟨phys+M.hhdm,3⟩ : Table)∈(⟨phys+M.hhdm,3⟩ : Table)::T := List.mem_cons_self
  have s2 := vmmMapPage_spares hf1 hu1 hself h2
  obtain ⟨-,T₂,e2,-⟩ := vmmMapPage_spec hf1 hself (hu1.mayGrow hself (levelIndex_lt le_rfl _)) h2
  have s3 := vmmMapPage_spares e2.forest (e2.upperFull hu1) (e2.tables _ hself) h3
  intro x hx
  have hout := hx.not_granted hg
  have hplain : Plain A (⟨m,r₁.pmm⟩ : Ram P) (⟨phys+M.hhdm,3⟩::T) x := by
    refine ⟨(hg.used _).mpr (.inr hx.1),?_⟩
    intro t ht
    obtain rfl | ht := List.mem_cons.mp ht
    · rw [Forest.span_mapped]
      exact hout
    · exact hx.2 t ht
  exact ((s2.trans (e2.evolved hu1) s3) x hplain).trans (hoff x hout)

end

theorem mapOver_spares (hr : Rooted A s T) {pm : Nat}
    (h : mapOver A s (some pm) virt phys flags=some (ok,s')) : Spares A s.ram T s'.ram := by
  obtain ⟨top,ht,h⟩ := bind_eq_some_iff.mp h
  obtain ⟨⟨ok',r'⟩,hm,he⟩ := map_eq_some_iff.mp h
  cases he
  exact vmmMapPage_spares hr.forest hr.full (hr.top pm top ht) hm

theorem mapLocals_spares (hr : Rooted A s T) {ids : List Nat}
    (h : mapLocals A virt phys flags ids s=some (ok,s')) : Spares A s.ram T s'.ram := by
  induction ids generalizing s T with
  | nil =>
    cases h
    exact .refl _ _
  | cons id ids ih =>
    obtain ⟨l,-,h⟩ := bind_eq_some_iff.mp h
    split at h
    · obtain ⟨⟨ok₁,s₁⟩,hm,h⟩ := bind_eq_some_iff.mp h
      have k1 := mapOver_spares hr hm
      obtain ⟨top₁,ht₁,-⟩ := bind_eq_some_iff.mp hm
      obtain ⟨rfl,hs₁,T₁,e₁,-⟩ := mapOver_spec hr ht₁ hm
      obtain ⟨r₁,rfl⟩ : ∃ r₁, s₁=s.setRam r₁ := ⟨_,hs₁⟩
      rw [if_neg (by simp)] at h
      exact k1.trans e₁ (ih (hr.evolve e₁) h)
    · exact ih hr h

theorem mmapPageInRange_spares (hr : Rooted A s T) {g : GlobalRange M} {prot sh : Nat}
    (hsh : g.shadowPagemap=some sh) (h : mmapPageInRange A s g virt phys prot=some (ok,s')) :
    Spares A s.ram T s'.ram := by
  rw [mmapPageInRange,hsh] at h
  obtain ⟨⟨ok₁,s₁⟩,hm,h⟩ := bind_eq_some_iff.mp h
  have k1 := mapOver_spares hr hm
  obtain ⟨top₁,ht₁,-⟩ := bind_eq_some_iff.mp hm
  obtain ⟨rfl,hs₁,T₁,e₁,-⟩ := mapOver_spec hr ht₁ hm
  obtain ⟨r₁,rfl⟩ : ∃ r₁, s₁=s.setRam r₁ := ⟨_,hs₁⟩
  rw [if_neg (by simp)] at h
  exact k1.trans e₁ (mapLocals_spares (hr.evolve e₁) h)

end X64OS.Memory
