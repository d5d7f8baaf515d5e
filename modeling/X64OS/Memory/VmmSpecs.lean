import X64OS.Memory.PageTableOps

namespace X64OS.Memory

open Framework
open Option (map_eq_some_iff bind_some map_some map_eq_none_iff)

variable {M : Machine} {P : Type} {A : PageAllocator M P} {r r' : Ram P} {T T' : List Table}

def Took (A : PageAllocator M P) (p p' : P) : Prop := ∃ a, A.alloc p 1=some (a,p')

theorem pmmAlloc_took {phys n : Nat} (h : pmmAlloc A r n=some (phys,r')) :
    ∃ a, A.alloc r.pmm n=some (a,r'.pmm) := by
  obtain ⟨⟨a,r₁⟩,h1,he⟩ := map_eq_some_iff.mp h
  obtain ⟨⟨b,p⟩,h2,he'⟩ := map_eq_some_iff.mp h1
  cases he'
  refine ⟨b,?_⟩
  rw [h2]
  split at he <;> cases he <;> rfl

theorem pmmAlloc_none {n : Nat} (h : pmmAlloc A r n=none) : A.alloc r.pmm n=none := by
  rw [pmmAlloc,pmmAllocNozero,map_eq_none_iff,map_eq_none_iff] at h
  exact h

/-- The forest may gain tables, made of fresh pages, and keeps the entries it
has above level 0. -/
structure Extended (A : PageAllocator M P) (r : Ram P) (T : List Table) (r' : Ram P)
    (T' : List Table) : Prop where
  forest : Forest A r' T'
  tables : ∀ t∈T, t∈T'
  roots : ∀ t∈T', t.level=3 → t∈T
  kept : ∀ t∈T, 0 < t.level → ∀ i < 512, isPresent (entry r.mem t.base i) →
    entry r'.mem t.base i=entry r.mem t.base i
  took : Relation.ReflTransGen (Took A) r.pmm r'.pmm
  used : ∀ i, A.inUse r.pmm i → A.inUse r'.pmm i
  fresh : ∀ t∈T', t∉T → ¬A.inUse r.pmm ((t.base-M.hhdm)/pageSize)

/-- What a walk that may allocate leaves: every translation is as it was. -/
structure Grown (A : PageAllocator M P) (r : Ram P) (T : List Table) (r' : Ram P)
    (T' : List Table) : Prop extends Extended A r T r' T' where
  views : ∀ t∈T, t.level=3 → ∀ v, pteFrom M r'.mem 3 t.base v=pteFrom M r.mem 3 t.base v

theorem Extended.refl (hf : Forest A r T) : Extended A r T r T :=
  ⟨hf,fun _ h => h,fun _ h _ => h,fun _ _ _ _ _ _ => rfl,.refl,fun _ h => h,
    fun _ h hn => absurd h hn⟩

theorem Extended.trans {r₁ r₂ r₃ : Ram P} {T₁ T₂ T₃ : List Table} (h : Extended A r₁ T₁ r₂ T₂)
    (k : Extended A r₂ T₂ r₃ T₃) : Extended A r₁ T₁ r₃ T₃ := by
  refine ⟨k.forest,fun t ht => k.tables t (h.tables t ht),
    fun t ht hl => h.roots t (k.roots t ht hl) hl,?_,h.took.trans k.took,
    fun i hi => k.used i (h.used i hi),?_⟩
  · intro t ht hl i hi hp
    have he := h.kept t ht hl i hi hp
    rw [← he] at hp
    exact (k.kept t (h.tables t ht) hl i hi hp).trans he
  · intro t ht hn hu
    by_cases h2 : t∈T₂
    · exact h.fresh t h2 hn hu
    · exact k.fresh t ht h2 (h.used _ hu)

theorem Grown.refl (hf : Forest A r T) : Grown A r T r T := ⟨.refl hf,fun _ _ _ _ => rfl⟩

theorem Grown.trans {r₁ r₂ r₃ : Ram P} {T₁ T₂ T₃ : List Table} (h : Grown A r₁ T₁ r₂ T₂)
    (k : Grown A r₂ T₂ r₃ T₃) : Grown A r₁ T₁ r₃ T₃ := by
  refine ⟨h.toExtended.trans k.toExtended,?_⟩
  intro t ht hl v
  exact (k.views t (h.tables t ht) hl v).trans (h.views t ht hl v)

/-- A walk below this entry keeps the upper halves equal: it is in the lower
half, it exists, or there is no other top level. -/
def MayGrow (r : Ram P) (T : List Table) (t : Table) (i : Nat) : Prop :=
  t.level=3 → 256 ≤ i → isPresent (entry r.mem t.base i)=false → ∀ u∈T, u.level=3 → u=t

variable {i c top : Nat} {t : Table} {b : Bool} {virt v : BitVec 64}

theorem hooked_setEntry (hf : Forest A r T) (ht : t∈T) {phys : Nat} (hi : i < 512)
    (hg : Granted A r r' phys 1) (hz : ∀ x∈mapped M phys 1, r'.mem x=0) :
    Forest.Hooked M r T t i phys (setEntry r'.mem t.base i
      (BitVec.ofNat 64 phys ||| ptePresent ||| pteWritable ||| pteUser)) := by
  have hsep := hf.fresh hg
  have hb := hg.bound
  rw [Nat.one_mul] at hb
  have hself : entry (setEntry r'.mem t.base i (BitVec.ofNat 64 phys ||| ptePresent |||
      pteWritable ||| pteUser)) t.base i=
      BitVec.ofNat 64 phys ||| ptePresent ||| pteWritable ||| pteUser := Mem.read64_write64 _ _ _
  refine ⟨?_,?_,?_,?_⟩
  · intro u hu j hj hne
    rw [hf.entry_setEntry ht hu hi hj hne]
    exact Forest.entry_frame hg.frame (hsep u hu) hj
  · have hone : isPresent ptePresent=true := by decide
    rw [hself]
    simp [hone]
  · rw [hself]
    exact nextTable_new hg.aligned hb
  · intro j hj
    have hin : ∀ x∈(⟨phys+M.hhdm+8*j,8⟩ : Span), x∈mapped M phys 1 := by
      rw [← Forest.span_mapped phys 0]
      exact Forest.entry_inside (t := ⟨phys+M.hhdm,0⟩) hj
    have hother : entry (setEntry r'.mem t.base i (BitVec.ofNat 64 phys ||| ptePresent |||
        pteWritable ||| pteUser)) (phys+M.hhdm) j=entry r'.mem (phys+M.hhdm) j :=
      (Mem.sameOff_write64 r'.mem _ _).read64 _
        ((hsep t ht).symm.mono (Forest.entry_inside hi) hin)
    rw [hother]
    exact Mem.read64_eq_zero (fun x hx => hz x (hin x hx))

theorem getNextLevel_grown (hf : Forest A r T) {k : Nat} (ht : t∈T) (hl : t.level=k+1) (hk : k ≤ 2)
    (hi : i < 512) (hm : MayGrow r T t i) (h : getNextLevel A r t.base i true=some (c,r')) :
    ∃ T', Grown A r T r' T' ∧ ⟨c,k⟩∈T' ∧
      isPresent (entry r'.mem t.base i) ∧ nextTable M (entry r'.mem t.base i)=c := by
  unfold getNextLevel at h
  simp only [hf.lift ht] at h
  split at h
  · cases h
    exact ⟨T,.refl hf,hf.child t ht k hl i hi ‹_›,‹_›,rfl⟩
  · rename_i hp
    have habs : isPresent (entry r.mem t.base i)=false := Bool.not_eq_true _ ▸ hp
    rw [if_neg (by simp)] at h
    obtain ⟨⟨phys,r₁⟩,ha,he⟩ := map_eq_some_iff.mp h
    obtain ⟨hg,hz⟩ := pmmAlloc_granted hf.valid le_rfl ha
    have hne : ¬phys=0 := Nat.pos_iff_ne_zero.mp hg.pos
    rw [if_neg hne] at he
    have hh := hooked_setEntry hf ht hi hg hz
    simp only [hg.base_mod,Prod.mk.injEq] at he
    obtain ⟨rfl,rfl⟩ := he
    have hroot : k=2 → 256 ≤ i → ∀ u∈T, u.level=3 → u=t :=
      fun h2 h256 => hm (by omega) h256 habs
    refine ⟨⟨phys+M.hhdm,k⟩::T,⟨⟨?_,?_,?_,?_,?_,?_,?_⟩,?_⟩,List.mem_cons_self,hh.present,hh.next⟩
    · exact hf.hook hg ht hl hk habs hh hroot
    · exact fun u hu => List.mem_cons_of_mem _ hu
    · intro u hu hlu
      obtain rfl | hu := List.mem_cons.mp hu
      · change k=3 at hlu
        omega
      · exact hu
    · intro u hu hlu j hj hpj
      apply hh.old u hu j hj
      intro hut hji
      rw [hut,hji,habs] at hpj
      cases hpj
    · obtain ⟨a,htook⟩ := pmmAlloc_took ha
      exact .single ⟨a,htook⟩
    · exact fun j hj => (hg.used j).mpr (.inr hj)
    · intro u hu hn
      obtain rfl | hu := List.mem_cons.mp hu
      · apply hg.fresh
        have hal := hg.aligned
        rw [Span.mem_mk]
        simp only [pageSize] at hal ⊢
        omega
      · exact absurd hu hn
    · exact fun u hu hlu v => hf.hook_view hl hk habs hh le_rfl hu hlu v

theorem getNextLevel_none {t : Nat} (h : getNextLevel A r t i b=none) : A.alloc r.pmm 1=none := by
  unfold getNextLevel at h
  simp only at h
  split at h
  · cases h
  · split at h
    · cases h
    · exact pmmAlloc_none (map_eq_none_iff.mp h)

theorem getNextLevel_present (hf : Forest A r T) (ht : t∈T)
    (hp : isPresent (entry r.mem t.base i)=true) (b : Bool) :
    getNextLevel A r t.base i b=some (nextTable M (entry r.mem t.base i),r) := by
  rw [getNextLevel,hf.lift ht,if_pos hp]

theorem getNextLevel_absent (hf : Forest A r T) (ht : t∈T)
    (hp : ¬isPresent (entry r.mem t.base i)=true) : getNextLevel A r t.base i false=some (0,r) := by
  rw [getNextLevel,hf.lift ht,if_neg hp,if_pos rfl]

theorem getNextLevel_took {t : Nat} (h : getNextLevel A r t i b=some (c,r')) :
    Relation.ReflTransGen (Took A) r.pmm r'.pmm := by
  unfold getNextLevel at h
  simp only at h
  split at h
  · cases h
    exact .refl
  · split at h
    · cases h
      exact .refl
    · obtain ⟨⟨phys,r₁⟩,ha,he⟩ := map_eq_some_iff.mp h
      obtain ⟨a,htook⟩ := pmmAlloc_took ha
      split at he <;> cases he <;> exact .single ⟨a,htook⟩

theorem findPml1_none {pml4 : Nat} (h : findPml1 A r pml4 virt b=none) :
    ∃ p, Relation.ReflTransGen (Took A) r.pmm p ∧ A.alloc p 1=none := by
  unfold findPml1 at h
  cases h1 : getNextLevel A r pml4 (pml4Entry virt) b with
  | none => exact ⟨r.pmm,.refl,getNextLevel_none h1⟩
  | some x =>
    rw [h1,bind_some] at h
    split at h
    · cases h
    · have hx := getNextLevel_took h1
      cases h2 : getNextLevel A x.2 x.1 (pml3Entry virt) b with
      | none => exact ⟨x.2.pmm,hx,getNextLevel_none h2⟩
      | some y =>
        rw [h2,bind_some] at h
        split at h
        · cases h
        · exact ⟨y.2.pmm,hx.trans (getNextLevel_took h2),getNextLevel_none h⟩

theorem findPml1_grown (hf : Forest A r T) (ht : ⟨top,3⟩∈T)
    (hm : MayGrow r T ⟨top,3⟩ (levelIndex 3 virt)) (h : findPml1 A r top virt true=some (c,r')) :
    ∃ T', Grown A r T r' T' ∧ ⟨c,0⟩∈T' ∧ leafTable M r'.mem 3 top virt=some c := by
  have hlow : ∀ {r₁ : Ram P} {T₁ : List Table} {t : Table} {i : Nat}, t.level≠3 →
      MayGrow r₁ T₁ t i := fun hn h3 => absurd h3 hn
  unfold findPml1 at h
  rw [pml4Entry_eq,pml3Entry_eq,pml2Entry_eq] at h
  obtain ⟨⟨pml3,r₁⟩,h1,h⟩ := Option.bind_eq_some_iff.mp h
  obtain ⟨T₁,g1,m1,p1,n1⟩ := getNextLevel_grown hf ht rfl le_rfl (levelIndex_lt le_rfl virt) hm h1
  have hz1 : pml3≠0 := g1.forest.pos m1
  dsimp only at h p1 n1
  rw [if_neg hz1] at h
  obtain ⟨⟨pml2,r₂⟩,h2,h⟩ := Option.bind_eq_some_iff.mp h
  have hi2 := levelIndex_lt (show 2 ≤ 3 by omega) virt
  obtain ⟨T₂,g2,m2,p2,n2⟩ := getNextLevel_grown g1.forest m1 rfl (by omega) hi2 (hlow (Nat.ne_of_beq_eq_false rfl)) h2
  have hz2 : pml2≠0 := g2.forest.pos m2
  dsimp only at h p2 n2
  rw [if_neg hz2] at h
  have hi1 := levelIndex_lt (show 1 ≤ 3 by omega) virt
  obtain ⟨T₃,g3,m3,p3,n3⟩ := getNextLevel_grown g2.forest m2 rfl (by omega) hi1 (hlow (Nat.ne_of_beq_eq_false rfl)) h
  dsimp only at p3 n3
  have k1 := (g2.trans g3).kept _ (g1.tables _ ht) (Nat.succ_pos 2) _ (levelIndex_lt le_rfl virt) p1
  have k2 := g3.kept _ (g2.tables _ m1) (Nat.succ_pos 1) _ hi2 p2
  dsimp only at k1 k2
  refine ⟨T₃,g1.trans (g2.trans g3),m3,?_⟩
  rw [leafTable_succ 2,k1,if_pos p1,n1,leafTable_succ 1,k2,if_pos p2,n2,leafTable_succ 0,if_pos p3,
    n3,leafTable]

theorem findPml1_read (hf : Forest A r T) (ht : ⟨top,3⟩∈T) (virt : BitVec 64) :
    findPml1 A r top virt false=some ((leafTable M r.mem 3 top virt).getD 0,r) := by
  rw [findPml1,pml4Entry_eq,pml3Entry_eq,pml2Entry_eq,leafTable_succ 2]
  have hi2 := levelIndex_lt (show 2 ≤ 3 by omega) virt
  by_cases p1 : isPresent (entry r.mem top (levelIndex 3 virt))=true
  · have m1 := hf.child _ ht 2 rfl _ (levelIndex_lt le_rfl virt) p1
    rw [getNextLevel_present hf ht p1,if_pos p1,bind_some,if_neg (hf.pos m1)]
    generalize nextTable M (entry r.mem top (levelIndex 3 virt))=pml3 at m1
    rw [leafTable_succ 1]
    by_cases p2 : isPresent (entry r.mem pml3 (levelIndex 2 virt))=true
    · have m2 := hf.child _ m1 1 rfl _ hi2 p2
      rw [getNextLevel_present hf m1 p2,if_pos p2,bind_some,if_neg (hf.pos m2)]
      generalize nextTable M (entry r.mem pml3 (levelIndex 2 virt))=pml2 at m2
      rw [leafTable_succ 0]
      by_cases p3 : isPresent (entry r.mem pml2 (levelIndex 1 virt))=true
      · rw [getNextLevel_present hf m2 p3,if_pos p3,leafTable,Option.getD_some]
      · rw [getNextLevel_absent hf m2 p3,if_neg p3,Option.getD_none]
    · rw [getNextLevel_absent hf m1 p2,if_neg p2,bind_some,if_pos rfl,Option.getD_none]
  · rw [getNextLevel_absent hf ht p1,if_neg p1,bind_some,if_pos rfl,Option.getD_none]

def translate (pte virt : BitVec 64) : BitVec 64 :=
  if isPresent pte then pteGetAddr pte+virt%4096#64 else invalidPhys

theorem vmmVirt2phys_eq (hf : Forest A r T) (ht : ⟨top,3⟩∈T) (virt : BitVec 64) :
    vmmVirt2phys A r top virt=some (translate (pteFrom M r.mem 3 top virt) virt) := by
  rw [vmmVirt2phys,vmmVirt2pte,findPml1_read hf ht,pteFrom]
  cases h : leafTable M r.mem 3 top virt with
  | none => simp [translate,isPresent]
  | some pml1 =>
    have hne : pml1≠0 := hf.pos (hf.leaf_mem le_rfl ht rfl h)
    have hpte : ¬pml1+8*pml1Entry virt=0 := by omega
    simp only [Option.getD_some,map_some,if_neg hne,hpte,false_or,pteGetFlags_present]
    rw [translate,entry,pml1Entry_eq]
    cases hp : isPresent (r.mem.read64 (pml1+8*levelIndex 0 virt)) <;> simp

/-- Two addresses of two pagemaps go through the same entry. -/
def SameEntry (top : Nat) (virt : BitVec 64) (top' : Nat) (virt' : BitVec 64) : Prop :=
  pageKey virt=pageKey virt' ∧ (top=top' ∨ 256 ≤ levelIndex 3 virt)

instance (top top' : Nat) (v w : BitVec 64) : Decidable (SameEntry top v top' w) :=
  inferInstanceAs (Decidable (_ ∧ _))

theorem leafTable_index {m : Mem} {k table : Nat} {w : BitVec 64}
    (h : ∀ j, j ≤ k → levelIndex j v=levelIndex j w) :
    leafTable M m k table v=leafTable M m k table w := by
  induction k generalizing table with
  | zero => rfl
  | succ k ih => rw [leafTable_succ,leafTable_succ,h _ le_rfl,ih (fun j hj => h j (by omega))]

theorem leafTable_sameEntry (hf : Forest A r T) {top' : Nat} {w : BitVec 64} (ht : ⟨top,3⟩∈T)
    (ht' : ⟨top',3⟩∈T) (hs : SameEntry top v top' w) :
    leafTable M r.mem 3 top' w=leafTable M r.mem 3 top v := by
  have hidx := levelIndex_key v w hs.1
  rw [leafTable_index hidx]
  obtain rfl | h256 := hs.2
  · rfl
  · have hi := levelIndex_lt le_rfl w
    have he := hf.upper _ ht _ ht' rfl rfl _ (hidx 3 le_rfl ▸ h256) hi
    dsimp only at he
    rw [leafTable_succ 2,leafTable_succ 2 top,he]

theorem setEntry_view (hf : Forest A r T) {pml1 : Nat} (ht : ⟨top,3⟩∈T)
    (hleaf : leafTable M r.mem 3 top v=some pml1) (value : BitVec 64) :
    Extended A r T ⟨setEntry r.mem pml1 (levelIndex 0 v) value,r.pmm⟩ T ∧
    ∀ t∈T, t.level=3 → ∀ w, pteFrom M (setEntry r.mem pml1 (levelIndex 0 v) value) 3 t.base w=
      if SameEntry top v t.base w then value else pteFrom M r.mem 3 t.base w := by
  have hm := hf.leaf_mem le_rfl ht rfl hleaf
  have hi := levelIndex_lt (Nat.zero_le 3) v
  have hold : ∀ u∈T, ∀ j < 512, (u=⟨pml1,0⟩ → j≠levelIndex 0 v) →
      entry (setEntry r.mem pml1 (levelIndex 0 v) value) u.base j=entry r.mem u.base j :=
    fun u hu j hj hne => hf.entry_setEntry hm hu hi hj hne r.mem value
  have hsame : ∀ u∈T, 0 < u.level → ∀ j < 512,
      entry (setEntry r.mem pml1 (levelIndex 0 v) value) u.base j=entry r.mem u.base j := by
    intro u hu hl j hj
    apply hold u hu j hj
    intro he
    rw [he] at hl
    exact absurd hl (Nat.lt_irrefl 0)
  refine ⟨⟨hf.congr hsame,fun _ h => h,fun _ h _ => h,fun t ht hl i hi _ => hsame t ht hl i hi,
    .refl,fun _ h => h,fun _ h hn => absurd h hn⟩,?_⟩
  intro t htm hl w
  obtain ⟨top',lvl⟩ := t
  cases hl
  rw [pteFrom,hf.leafTable_congr hsame le_rfl htm rfl]
  split
  · rename_i hn
    rw [if_neg,pteFrom,hn]
    intro hs
    rw [leafTable_sameEntry hf ht htm hs,hleaf] at hn
    cases hn
  · rename_i c hc
    have hcm := hf.leaf_mem le_rfl htm rfl hc
    have hiw := levelIndex_lt (Nat.zero_le 3) w
    by_cases hs : SameEntry top v top' w
    · rw [if_pos hs]
      have he := leafTable_sameEntry hf ht htm hs
      rw [hc,hleaf] at he
      cases he
      rw [← levelIndex_key v w hs.1 0 (Nat.zero_le 3)]
      exact Mem.read64_write64 _ _ _
    · rw [if_neg hs,pteFrom,hc]
      apply hold ⟨c,0⟩ hcm _ hiw
      intro he hidx
      cases he
      obtain ⟨hup,hor⟩ := hf.leaf_inj le_rfl ht htm rfl rfl hleaf hc
      apply hs
      refine ⟨pageKey_inj v w ?_,?_⟩
      · intro k hk
        cases k with
        | zero => exact hidx.symm
        | succ k => exact hup (k+1) (by omega) hk
      · obtain he | ⟨-,h256⟩ := hor
        · exact .inl (congrArg Table.base he)
        · exact .inr h256

def mapEntry (phys flags : BitVec 64) : BitVec 64 :=
  phys ||| ((flags ||| pteUser) &&& ~~~(1#64 <<< 63))

theorem vmmMapPage_spec (hf : Forest A r T) {phys flags : BitVec 64} {overwrite ok : Bool}
    (ht : ⟨top,3⟩∈T) (hm : MayGrow r T ⟨top,3⟩ (levelIndex 3 virt))
    (h : vmmMapPage A r (some top) virt phys flags overwrite=some (ok,r')) :
    ok=(!isPresent (pteFrom M r.mem 3 top virt) || overwrite) ∧
    ∃ T', Extended A r T r' T' ∧ ∀ t∈T, t.level=3 → ∀ w, pteFrom M r'.mem 3 t.base w=
      if ok=true ∧ SameEntry top virt t.base w then mapEntry phys flags
      else pteFrom M r.mem 3 t.base w := by
  obtain ⟨⟨pml1,r₁⟩,h1,h⟩ := map_eq_some_iff.mp h
  rw [hf.lift ht] at h1
  obtain ⟨T',hg,hpm,hleaf⟩ := findPml1_grown hf ht hm h1
  have hne : ¬pml1=0 := hg.forest.pos hpm
  have hpte : entry r₁.mem pml1 (pml1Entry virt)=pteFrom M r.mem 3 top virt := by
    rw [← hg.views _ ht rfl virt,pteFrom,hleaf]
    rfl
  dsimp only at h
  rw [if_neg hne,hpte] at h
  split at h
  · rename_i hc
    simp only [Prod.mk.injEq] at h
    obtain ⟨rfl,rfl⟩ := h
    refine ⟨by rw [hc.1,hc.2]; rfl,T',hg.toExtended,?_⟩
    intro t htm hl w
    rw [if_neg (fun hx => Bool.false_ne_true hx.1)]
    exact hg.views t htm hl w
  · rename_i hc
    simp only [Prod.mk.injEq] at h
    obtain ⟨rfl,rfl⟩ := h
    refine ⟨?_,?_⟩
    · cases hp : isPresent (pteFrom M r.mem 3 top virt) with
      | false => rfl
      | true =>
        cases ho : overwrite with
        | true => rfl
        | false => exact absurd ⟨hp,ho⟩ hc
    · obtain ⟨he,hview⟩ := setEntry_view hg.forest (hg.tables _ ht) hleaf (mapEntry phys flags)
      refine ⟨T',hg.toExtended.trans he,?_⟩
      intro t htm hl w
      rw [pml1Entry_eq]
      refine (hview t (hg.tables t htm) hl w).trans ?_
      rw [hg.views t htm hl w]
      simp only [true_and]

theorem vmmMapPage_none {top : Option Nat} {phys flags : BitVec 64} {overwrite : Bool}
    (h : vmmMapPage A r top virt phys flags overwrite=none) :
    ∃ p, Relation.ReflTransGen (Took A) r.pmm p ∧ A.alloc p 1=none := by
  cases top with
  | none => cases h
  | some top => exact findPml1_none (map_eq_none_iff.mp h)

theorem vmmUnmapPage_spec (hf : Forest A r T) (ht : ⟨top,3⟩∈T) (virt : BitVec 64) :
    ∃ r', vmmUnmapPage A r top virt=some (isPresent (pteFrom M r.mem 3 top virt),r') ∧
      Extended A r T r' T ∧ ∀ t∈T, t.level=3 → ∀ w, pteFrom M r'.mem 3 t.base w=
        if isPresent (pteFrom M r.mem 3 top virt) ∧ SameEntry top virt t.base w then 0
        else pteFrom M r.mem 3 t.base w := by
  rw [vmmUnmapPage,findPml1_read hf ht]
  cases h : leafTable M r.mem 3 top virt with
  | none =>
    have hp : pteFrom M r.mem 3 top virt=0 := by rw [pteFrom,h]
    refine ⟨r,?_,.refl hf,?_⟩
    · rw [hp,isPresent_zero]
      rfl
    · intro t htm hl w
      rw [hp,isPresent_zero,if_neg (fun hx => Bool.false_ne_true hx.1)]
  | some pml1 =>
    have hne : ¬pml1=0 := hf.pos (hf.leaf_mem le_rfl ht rfl h)
    have hp : pteFrom M r.mem 3 top virt=entry r.mem pml1 (levelIndex 0 virt) := by rw [pteFrom,h]
    rw [Option.getD_some,map_some,if_neg hne,pml1Entry_eq,← hp]
    cases hpr : isPresent (pteFrom M r.mem 3 top virt) with
    | false =>
      refine ⟨r,by rw [if_pos rfl],.refl hf,?_⟩
      intro t htm hl w
      rw [if_neg (fun hx => Bool.false_ne_true hx.1)]
    | true =>
      obtain ⟨he,hview⟩ := setEntry_view hf ht h 0
      refine ⟨_,by rw [if_neg (fun hx => Bool.false_ne_true hx.symm)],he,?_⟩
      intro t htm hl w
      refine (hview t htm hl w).trans ?_
      simp only [true_and]

end X64OS.Memory
