import X64OS.Memory.PageTables

namespace X64OS.Memory

open Framework

variable {M : Machine} {P : Type} {A : PageAllocator M P} {r r' : Ram P} {T : List Table}

namespace Forest

variable {u : Table} {phys : Nat}

section
variable (hf : Forest A r T)
include hf

theorem leafTable_congr {m : Mem}
    (hsame : ∀ u∈T, 0 < u.level → ∀ j < 512, entry m u.base j=entry r.mem u.base j) {k : Nat}
    (hk : k ≤ 3) (hu : u∈T) (hl : u.level=k) (virt : BitVec 64) :
    leafTable M m k u.base virt=leafTable M r.mem k u.base virt := by
  induction k generalizing u with
  | zero => rfl
  | succ k ih =>
    have hi := levelIndex_lt hk virt
    rw [leafTable_succ,leafTable_succ,hsame u hu (by omega) _ hi]
    by_cases hp : isPresent (entry r.mem u.base (levelIndex (k+1) virt))=true
    · rw [if_pos hp,if_pos hp]
      exact ih (by omega) (hf.child u hu k hl _ hi hp) rfl
    · rw [if_neg hp,if_neg hp]

/-- The contents of the pml1 tables are not part of the invariant. -/
theorem congr {m : Mem}
    (hsame : ∀ u∈T, 0 < u.level → ∀ j < 512, entry m u.base j=entry r.mem u.base j) :
    Forest A ⟨m,r.pmm⟩ T := by
  refine ⟨hf.valid,hf.base,hf.used,hf.apart,?_,?_,?_⟩
  · intro t ht k hl i hi
    dsimp only
    rw [hsame t ht (by omega) i hi]
    exact hf.child t ht k hl i hi
  · intro t ht u hu hlt hlu i hi j hj
    dsimp only
    rw [hsame t ht hlt i hi,hsame u hu hlu j hj]
    exact hf.single t ht u hu hlt hlu i hi j hj
  · intro t ht u hu hlt hlu i h256 hi
    dsimp only
    rw [hsame t ht (by omega) i hi,hsame u hu (by omega) i hi]
    exact hf.upper t ht u hu hlt hlu i h256 hi

theorem repage {p : P} (hv : A.Valid p) (hu : ∀ t∈T, ∀ x∈t.span, A.inUse p ((x-M.hhdm)/pageSize)) :
    Forest A ⟨r.mem,p⟩ T :=
  ⟨hv,hf.base,hu,hf.apart,hf.child,hf.single,hf.upper⟩

theorem fresh (hg : Granted A r r' phys 1) : ∀ t∈T, (mapped M phys 1).Separate t.span :=
  fun t ht => hg.separate _ (hf.used t ht)

theorem fresh_base (hg : Granted A r r' phys 1) : ∀ t∈T, t.base≠phys+M.hhdm := by
  intro t ht he
  refine hf.fresh hg t ht (phys+M.hhdm) ?_ ?_
  · rw [mapped,Span.mem_mk]
    simp only [pageSize]
    omega
  · rw [Table.span,Span.mem_mk]
    simp only [pageSize]
    omega

end

theorem span_mapped (phys k : Nat) : (⟨phys+M.hhdm,k⟩ : Table).span=mapped M phys 1 := by
  simp [Table.span,mapped]

/-- The clauses that do not look at entries, for one more table. -/
theorem grown_used (hf : Forest A r T) (hg : Granted A r r' phys 1) (k : Nat) :
    (∀ t∈(⟨phys+M.hhdm,k⟩ : Table)::T, t.base%pageSize=0 ∧ M.hhdm ≤ t.base ∧ t.base+pageSize ≤ 2^64) ∧
    (∀ t∈(⟨phys+M.hhdm,k⟩ : Table)::T, ∀ x∈t.span, A.inUse r'.pmm ((x-M.hhdm)/pageSize)) ∧
    ((⟨phys+M.hhdm,k⟩ : Table)::T).Pairwise (fun t u => t.span.Separate u.span) := by
  refine ⟨List.forall_mem_cons.mpr ⟨hg.base,hf.base⟩,List.forall_mem_cons.mpr ⟨?_,?_⟩,
    List.pairwise_cons.mpr ⟨?_,hf.apart⟩⟩
  · intro x hx
    rw [span_mapped] at hx
    exact hg.inUse x hx
  · intro t ht x hx
    exact (hg.used _).mpr (.inr (hf.used t ht x hx))
  · intro t ht
    rw [span_mapped]
    exact hf.fresh hg t ht

/-- A memory in which a fresh empty table hangs from entry i of table t. -/
structure Hooked (M : Machine) (r : Ram P) (T : List Table) (t : Table) (i phys : Nat) (m : Mem) :
    Prop where
  old : ∀ u∈T, ∀ j < 512, (u=t → j≠i) → entry m u.base j=entry r.mem u.base j
  present : isPresent (entry m t.base i)
  next : nextTable M (entry m t.base i)=phys+M.hhdm
  empty : ∀ j < 512, entry m (phys+M.hhdm) j=0

variable {t : Table} {i k : Nat} {m : Mem}

/-- An entry that is present is the new one, or was there before. -/
theorem Hooked.present_cases (hh : Hooked M r T t i phys m) {j : Nat}
    (hu : u∈(⟨phys+M.hhdm,k⟩ : Table)::T) (hj : j < 512) (hp : isPresent (entry m u.base j)) :
    u∈T ∧ (u=t ∧ j=i ∨
      isPresent (entry r.mem u.base j) ∧ entry m u.base j=entry r.mem u.base j) := by
  obtain rfl | hu := List.mem_cons.mp hu
  · rw [hh.empty j hj,isPresent_zero] at hp
    cases hp
  · refine ⟨hu,?_⟩
    by_cases h : u=t ∧ j=i
    · exact .inl h
    · have hold := hh.old u hu j hj (fun h1 h2 => h ⟨h1,h2⟩)
      exact .inr ⟨hold ▸ hp,hold⟩

theorem hook (hf : Forest A r T) (hg : Granted A r r' phys 1) (ht : t∈T) (hl : t.level=k+1)
    (hk : k ≤ 2) (habs : isPresent (entry r.mem t.base i)=false)
    (hh : Hooked M r T t i phys m)
    (hroot : k=2 → 256 ≤ i → ∀ u∈T, u.level=3 → u=t) :
    Forest A ⟨m,r'.pmm⟩ (⟨phys+M.hhdm,k⟩::T) := by
  obtain ⟨hbase,hused,hapart⟩ := hf.grown_used hg k
  -- an old present entry never leads to the fresh table
  have hother : ∀ u∈T, 0 < u.level → ∀ j < 512, isPresent (entry r.mem u.base j) →
      nextTable M (entry r.mem u.base j)≠phys+M.hhdm := by
    intro u hu hlu j hj hp
    obtain ⟨l,hl⟩ := Nat.exists_eq_add_of_lt hlu
    exact hf.fresh_base hg _ (hf.child u hu l (by omega) j hj hp)
  refine ⟨hg.valid,hbase,hused,hapart,?_,?_,?_⟩
  · intro u hu l hlu j hj hp
    obtain ⟨hu,⟨rfl,rfl⟩ | ⟨hp,hold⟩⟩ := hh.present_cases hu hj hp
    · have hlk : l=k := by omega
      dsimp only
      rw [hh.next,hlk]
      exact List.mem_cons_self
    · dsimp only
      rw [hold]
      exact List.mem_cons_of_mem _ (hf.child u hu l hlu j hj hp)
  · intro u hu w hw hlu hlw a ha b hb hpa hpb he
    dsimp only at he
    obtain ⟨hu,⟨rfl,rfl⟩ | ⟨hpa,holda⟩⟩ := hh.present_cases hu ha hpa
    · obtain ⟨hw,⟨rfl,rfl⟩ | ⟨hpb,holdb⟩⟩ := hh.present_cases hw hb hpb
      · exact ⟨rfl,.inl rfl⟩
      · rw [hh.next,holdb] at he
        exact absurd he.symm (hother w hw hlw b hb hpb)
    · obtain ⟨hw,⟨rfl,rfl⟩ | ⟨hpb,holdb⟩⟩ := hh.present_cases hw hb hpb
      · rw [hh.next,holda] at he
        exact absurd he (hother u hu hlu a ha hpa)
      · rw [holda,holdb] at he
        exact hf.single u hu w hw hlu hlw a ha b hb hpa hpb he
  · intro u hu w hw hlu hlw a h256 ha
    obtain rfl | hu := List.mem_cons.mp hu
    · change k=3 at hlu
      omega
    obtain rfl | hw := List.mem_cons.mp hw
    · change k=3 at hlw
      omega
    dsimp only
    by_cases hnew : a=i ∧ (u=t ∨ w=t)
    · -- top levels share the entry, so both are the one top level
      obtain ⟨rfl,rfl | rfl⟩ := hnew
      · rw [hroot (by omega) h256 w hw hlw]
      · rw [hroot (by omega) h256 u hu hlu]
    · rw [hh.old u hu a ha (fun h1 h2 => hnew ⟨h2,.inl h1⟩),
        hh.old w hw a ha (fun h1 h2 => hnew ⟨h2,.inr h1⟩)]
      exact hf.upper u hu w hw hlu hlw a h256 ha

theorem hook_view (hf : Forest A r T) (hl : t.level=k+1) (hk : k ≤ 2)
    (habs : isPresent (entry r.mem t.base i)=false) (hh : Hooked M r T t i phys m) {n : Nat}
    (hn : n ≤ 3) (hu : u∈T) (hlu : u.level=n) (virt : BitVec 64) :
    pteFrom M m n u.base virt=pteFrom M r.mem n u.base virt := by
  induction n generalizing u with
  | zero =>
    rw [pteFrom_zero,pteFrom_zero]
    apply hh.old u hu _ (levelIndex_lt hn virt)
    intro he
    rw [he] at hlu
    omega
  | succ n ih =>
    have hi := levelIndex_lt hn virt
    rw [pteFrom_succ,pteFrom_succ]
    by_cases h : u=t ∧ levelIndex (n+1) virt=i
    · obtain ⟨rfl,h⟩ := h
      have hnk : n=k := by omega
      subst hnk
      rw [h,if_pos hh.present,hh.next,pteFrom_empty (by omega) hh.empty virt,if_neg]
      rw [habs]
      exact Bool.false_ne_true
    · rw [hh.old u hu _ hi (fun h1 h2 => h ⟨h1,h2⟩)]
      by_cases hp : isPresent (entry r.mem u.base (levelIndex (n+1) virt))=true
      · rw [if_pos hp,if_pos hp]
        exact ih (by omega) (hf.child u hu n hlu _ hi hp) rfl
      · rw [if_neg hp,if_neg hp]

theorem first (hv : A.Valid r.pmm) (hg : Granted A r r' phys 1)
    (hz : ∀ j < 512, entry m (phys+M.hhdm) j=0) : Forest A ⟨m,r'.pmm⟩ [⟨phys+M.hhdm,3⟩] := by
  have hnone : Forest A r [] := by
    constructor <;> simp [hv]
  obtain ⟨hbase,hused,hapart⟩ := hnone.grown_used hg 3
  refine ⟨hg.valid,hbase,hused,hapart,?_,?_,?_⟩
  · intro u hu l hl j hj hp
    cases List.mem_singleton.mp hu
    rw [hz j hj] at hp
    cases hp
  · intro u hu w hw _ _ a ha b hb hpa
    cases List.mem_singleton.mp hu
    rw [hz a ha] at hpa
    cases hpa
  · intro u hu w hw _ _ a _ _
    rw [List.mem_singleton.mp hu,List.mem_singleton.mp hw]

/-- A fresh top level with an empty lower half and the upper half of root k. -/
structure Cloned (M : Machine) (r : Ram P) (T : List Table) (k : Table) (phys : Nat) (m : Mem) :
    Prop where
  old : ∀ u∈T, ∀ j < 512, entry m u.base j=entry r.mem u.base j
  lower : ∀ j < 256, entry m (phys+M.hhdm) j=0
  upper : ∀ j, 256 ≤ j → j < 512 → entry m (phys+M.hhdm) j=entry r.mem k.base j

theorem clone {c : Table} (hf : Forest A r T) (hg : Granted A r r' phys 1) (hc : c∈T)
    (hl : c.level=3) (hh : Cloned M r T c phys m) :
    Forest A ⟨m,r'.pmm⟩ (⟨phys+M.hhdm,3⟩::T) := by
  obtain ⟨hbase,hused,hapart⟩ := hf.grown_used hg 3
  have hpres : ∀ j < 512, isPresent (entry m (phys+M.hhdm) j) →
      256 ≤ j ∧ entry m (phys+M.hhdm) j=entry r.mem c.base j := by
    intro j hj hp
    by_cases h256 : 256 ≤ j
    · exact ⟨h256,hh.upper j h256 hj⟩
    · rw [hh.lower j (by omega)] at hp
      cases hp
  -- every present entry of the new list is one of an old table
  have hold : ∀ u∈(⟨phys+M.hhdm,3⟩ : Table)::T, ∀ j < 512, isPresent (entry m u.base j) →
      ∃ w∈T, w.level=u.level ∧ entry m u.base j=entry r.mem w.base j ∧
        (w=u ∨ u.level=3 ∧ 256 ≤ j) := by
    intro u hu j hj hp
    obtain rfl | hu := List.mem_cons.mp hu
    · obtain ⟨h256,he⟩ := hpres j hj hp
      exact ⟨c,hc,hl,he,.inr ⟨rfl,h256⟩⟩
    · exact ⟨u,hu,rfl,hh.old u hu j hj,.inl rfl⟩
  refine ⟨hg.valid,hbase,hused,hapart,?_,?_,?_⟩
  · intro u hu l hlu j hj hp
    obtain ⟨w,hw,hlw,he,-⟩ := hold u hu j hj hp
    dsimp only at hp ⊢
    rw [he] at hp ⊢
    exact List.mem_cons_of_mem _ (hf.child w hw l (by omega) j hj hp)
  · intro u hu v hv hlu hlv a ha b hb hpa hpb he
    obtain ⟨w,hw,hlw,hew,hor⟩ := hold u hu a ha hpa
    obtain ⟨x,hx,hlx,hex,hor'⟩ := hold v hv b hb hpb
    dsimp only at hpa hpb he
    rw [hew] at hpa he
    rw [hex] at hpb he
    obtain ⟨hab,hwx⟩ := hf.single w hw x hx (by omega) (by omega) a ha b hb hpa hpb he
    refine ⟨hab,?_⟩
    obtain rfl | ⟨h3,h256⟩ := hor
    · obtain rfl | ⟨h3,h256⟩ := hor'
      · exact hwx
      · right
        obtain rfl | ⟨h4,-,-⟩ := hwx <;> omega
    · right
      obtain rfl | ⟨-,h4,-⟩ := hwx <;> omega
  · have hup : ∀ u∈(⟨phys+M.hhdm,3⟩ : Table)::T, u.level=3 → ∀ j, 256 ≤ j → j < 512 →
        entry m u.base j=entry r.mem c.base j := by
      intro u hu hlu j h256 hj
      obtain rfl | hu := List.mem_cons.mp hu
      · exact hh.upper j h256 hj
      · rw [hh.old u hu j hj]
        exact hf.upper u hu c hc hlu hl j h256 hj
    intro u hu w hw hlu hlw a h256 ha
    dsimp only
    rw [hup u hu hlu a h256 ha,hup w hw hlw a h256 ha]

theorem view_congr (hf : Forest A r T)
    (hold : ∀ u∈T, ∀ j < 512, entry m u.base j=entry r.mem u.base j) {n : Nat} (hn : n ≤ 3)
    (hu : u∈T) (hlu : u.level=n) (virt : BitVec 64) :
    pteFrom M m n u.base virt=pteFrom M r.mem n u.base virt := by
  rw [pteFrom,pteFrom,hf.leafTable_congr (fun u hu _ => hold u hu) hn hu hlu]
  cases h : leafTable M r.mem n u.base virt with
  | none => rfl
  | some pml1 => exact hold _ (hf.leaf_mem hn hu hlu h) _ (levelIndex_lt (Nat.zero_le 3) virt)

theorem clone_view {c : Table} (hf : Forest A r T) (hc : c∈T) (hl : c.level=3)
    (hh : Cloned M r T c phys m) (virt : BitVec 64) :
    pteFrom M m 3 (phys+M.hhdm) virt=
      if 256 ≤ levelIndex 3 virt then pteFrom M r.mem 3 c.base virt else 0 := by
  have hi := levelIndex_lt le_rfl virt
  by_cases h256 : 256 ≤ levelIndex 3 virt
  · rw [if_pos h256,← hf.view_congr hh.old le_rfl hc hl virt,pteFrom_succ 2,pteFrom_succ 2 c.base,
      hh.upper _ h256 hi,hh.old c hc _ hi]
  · rw [if_neg h256,pteFrom_succ 2,hh.lower (levelIndex 3 virt) (by omega),isPresent_zero]
    exact if_neg Bool.false_ne_true

end Forest

end X64OS.Memory
