import X64OS.Memory.Vmm
import Mathlib.Data.List.Pairwise
import Mathlib.Logic.Relation

namespace X64OS.Memory

open Framework

/-- A table in memory and the number of levels below it: 0 for a pml1, 3 for
the top level of a pagemap. -/
structure Table where
  base : Nat
  level : Nat

def Table.span (t : Table) : Span := ⟨t.base,pageSize⟩

def levelIndex (level : Nat) (virt : BitVec 64) : Nat := entryIndex (12+9*level) virt

def leafTable (M : Machine) (m : Mem) : Nat → Nat → BitVec 64 → Option Nat
  | 0,table,_ => some table
  | level+1,table,virt =>
    if isPresent (entry m table (levelIndex (level+1) virt)) then
      leafTable M m level (nextTable M (entry m table (levelIndex (level+1) virt))) virt
    else none

def pteFrom (M : Machine) (m : Mem) (level table : Nat) (virt : BitVec 64) : BitVec 64 :=
  match leafTable M m level table virt with
  | none => 0
  | some pml1 => entry m pml1 (levelIndex 0 virt)

def pageKey (virt : BitVec 64) : Nat := virt.toNat/2^12%2^36

/-- The page tables of all pagemaps: disjoint pages in use, every present
entry above level 0 leads to a table one level down, and no table hangs from
two entries, except that top levels share their upper halves. -/
structure Forest {M : Machine} {P : Type} (A : PageAllocator M P) (r : Ram P) (T : List Table) :
    Prop where
  valid : A.Valid r.pmm
  base : ∀ t∈T, t.base%pageSize=0 ∧ M.hhdm ≤ t.base ∧ t.base+pageSize ≤ 2^64
  used : ∀ t∈T, ∀ x∈t.span, A.inUse r.pmm ((x-M.hhdm)/pageSize)
  apart : T.Pairwise (fun t u => t.span.Separate u.span)
  child : ∀ t∈T, ∀ k, t.level=k+1 → ∀ i < 512, isPresent (entry r.mem t.base i) →
    ⟨nextTable M (entry r.mem t.base i),k⟩∈T
  single : ∀ t∈T, ∀ u∈T, 0 < t.level → 0 < u.level → ∀ i < 512, ∀ j < 512,
    isPresent (entry r.mem t.base i) → isPresent (entry r.mem u.base j) →
    nextTable M (entry r.mem t.base i)=nextTable M (entry r.mem u.base j) →
    i=j ∧ (t=u ∨ t.level=3 ∧ u.level=3 ∧ 256 ≤ i)
  upper : ∀ t∈T, ∀ u∈T, t.level=3 → u.level=3 → ∀ i, 256 ≤ i → i < 512 →
    entry r.mem t.base i=entry r.mem u.base i

section
variable (virt : BitVec 64)

theorem pml4Entry_eq : pml4Entry virt=levelIndex 3 virt := rfl

theorem pml3Entry_eq : pml3Entry virt=levelIndex 2 virt := rfl

theorem pml2Entry_eq : pml2Entry virt=levelIndex 1 virt := rfl

theorem pml1Entry_eq : pml1Entry virt=levelIndex 0 virt := rfl

end

theorem levelIndex_lt {level : Nat} (hl : level ≤ 3) (virt : BitVec 64) :
    levelIndex level virt < 512 :=
  entryIndex_lt (by omega) virt

theorem levelIndex_eq {level : Nat} (hl : level ≤ 3) (virt : BitVec 64) :
    levelIndex level virt=virt.toNat/2^(12+9*level)%512 :=
  entryIndex_eq _ (by omega) virt

theorem pageKey_inj (v w : BitVec 64) (h : ∀ k ≤ 3, levelIndex k v=levelIndex k w) :
    pageKey v=pageKey w := by
  have h0 := h 0 (by omega)
  have h1 := h 1 (by omega)
  have h2 := h 2 (by omega)
  have h3 := h 3 (by omega)
  rw [levelIndex_eq (by omega),levelIndex_eq (by omega)] at h0 h1 h2 h3
  rw [pageKey,pageKey]
  simp only [Nat.reduceMul,Nat.reduceAdd,Nat.reducePow] at h0 h1 h2 h3 ⊢
  omega

theorem levelIndex_key (v w : BitVec 64) (h : pageKey v=pageKey w) :
    ∀ k ≤ 3, levelIndex k v=levelIndex k w := by
  intro k hk
  rw [levelIndex_eq hk,levelIndex_eq hk]
  rw [pageKey,pageKey] at h
  obtain rfl | rfl | rfl | rfl : k=0 ∨ k=1 ∨ k=2 ∨ k=3 := by omega
  all_goals
    simp only [Nat.reduceMul,Nat.reduceAdd,Nat.reducePow] at h ⊢
    omega

theorem liftTable_eq {M : Machine} {table : Nat} (h : M.hhdm ≤ table) : liftTable M table=table :=
  if_neg (Nat.not_lt.mpr h)

variable {k : Nat}

section

variable {M : Machine} {m m' : Mem}

theorem leafTable_succ (k table : Nat) (virt : BitVec 64) :
    leafTable M m (k+1) table virt=
      if isPresent (entry m table (levelIndex (k+1) virt)) then
        leafTable M m k (nextTable M (entry m table (levelIndex (k+1) virt))) virt
      else none := rfl

@[simp] theorem pteFrom_zero (table : Nat) (virt : BitVec 64) :
    pteFrom M m 0 table virt=entry m table (levelIndex 0 virt) := rfl

theorem pteFrom_succ (k table : Nat) (virt : BitVec 64) :
    pteFrom M m (k+1) table virt=
      if isPresent (entry m table (levelIndex (k+1) virt)) then
        pteFrom M m k (nextTable M (entry m table (levelIndex (k+1) virt))) virt
      else 0 := by
  rw [pteFrom,leafTable_succ]
  cases isPresent (entry m table (levelIndex (k+1) virt)) <;> rfl

/-- An empty table maps nothing, at whatever level it hangs. -/
theorem pteFrom_empty {table : Nat} (hk : k ≤ 3) (hz : ∀ i < 512, entry m table i=0)
    (virt : BitVec 64) : pteFrom M m k table virt=0 := by
  cases k with
  | zero => exact hz _ (levelIndex_lt hk virt)
  | succ k =>
    rw [pteFrom_succ,hz _ (levelIndex_lt hk virt),isPresent_zero]
    exact if_neg Bool.false_ne_true

end

namespace Forest

variable {M : Machine} {P : Type} {A : PageAllocator M P} {r r' : Ram P} {T : List Table}
variable {t u : Table} {i : Nat}

section
variable (hf : Forest A r T) (ht : t∈T)
include hf ht

theorem eq_or_separate (hu : u∈T) : t=u ∨ t.span.Separate u.span := by
  by_cases he : t=u
  · exact .inl he
  · have hsym : Std.Symm (fun t u : Table => t.span.Separate u.span) := ⟨fun _ _ h => h.symm⟩
    exact .inr (hf.apart.forall ht hu he)

theorem base_inj (hu : u∈T) (he : t.base=u.base) : t=u := by
  obtain h | h := hf.eq_or_separate ht hu
  · exact h
  · have hin : t.base∈t.span := (Span.mem_mk _ _ _).mpr (by simp only [pageSize]; omega)
    exact absurd ((Span.mem_mk _ _ _).mpr (by simp only [pageSize]; omega)) (h _ hin)

theorem pos : t.base≠0 := by
  have h1 := (hf.base t ht).2.1
  have h2 := M.hhdm_pos
  omega

theorem lift : liftTable M t.base=t.base :=
  liftTable_eq (hf.base t ht).2.1

end

theorem entry_inside (hi : i < 512) : ∀ x∈(⟨t.base+8*i,8⟩ : Span), x∈t.span := by
  intro x hx
  rw [Span.mem_mk] at hx
  rw [Table.span,Span.mem_mk]
  simp only [pageSize]
  omega

theorem entry_separate (hf : Forest A r T) (ht : t∈T) (hu : u∈T) {j : Nat} (hi : i < 512)
    (hj : j < 512) (hne : t=u → i≠j) : (⟨t.base+8*i,8⟩ : Span).Separate ⟨u.base+8*j,8⟩ := by
  obtain he | hs := hf.eq_or_separate ht hu
  · subst he
    have hij := hne rfl
    intro x hx hy
    rw [Span.mem_mk] at hx hy
    omega
  · exact hs.mono (entry_inside hi) (entry_inside hj)

theorem entry_setEntry (hf : Forest A r T) (ht : t∈T) (hu : u∈T) {j : Nat} (hi : i < 512)
    (hj : j < 512) (hne : u=t → j≠i) (m : Mem) (value : BitVec 64) :
    entry (setEntry m t.base i value) u.base j=entry m u.base j :=
  (Mem.sameOff_write64 m _ value).read64 _
    (hf.entry_separate ht hu hi hj (fun he hc => hne he.symm hc.symm))

theorem entry_frame {m m' : Mem} {s : Span} (hm : Mem.SameOff s m m') (hs : s.Separate t.span)
    (hi : i < 512) : entry m' t.base i=entry m t.base i :=
  hm.read64 _ (hs.mono (fun _ hx => hx) (entry_inside hi))

theorem leaf_mem (hf : Forest A r T) (hk : k ≤ 3) (ht : t∈T) (hl : t.level=k) {virt : BitVec 64}
    {pml1 : Nat} (h : leafTable M r.mem k t.base virt=some pml1) : ⟨pml1,0⟩∈T := by
  induction k generalizing t with
  | zero =>
    cases h
    have he : t=⟨t.base,0⟩ := by cases t; cases hl; rfl
    rw [← he]
    exact ht
  | succ k ih =>
    rw [leafTable_succ] at h
    split_ifs at h with hp
    exact ih (by omega) (hf.child t ht k hl _ (levelIndex_lt hk virt) hp) rfl h

/-- Two walks that end in the same pml1 took the same indices all the way, and
started in the same table unless they are walks through a shared upper half. -/
theorem leaf_inj (hf : Forest A r T) (hk : k ≤ 3) (ht : t∈T) (hu : u∈T) (hlt : t.level=k)
    (hlu : u.level=k) {v w : BitVec 64} {pml1 : Nat} (hv : leafTable M r.mem k t.base v=some pml1)
    (hw : leafTable M r.mem k u.base w=some pml1) :
    (∀ j, 1 ≤ j → j ≤ k → levelIndex j v=levelIndex j w) ∧
    (t=u ∨ k=3 ∧ 256 ≤ levelIndex 3 v) := by
  induction k generalizing t u with
  | zero =>
    have he : t.base=u.base := Option.some.inj (hv.trans hw.symm)
    exact ⟨fun j h1 h2 => absurd h1 (by omega),.inl (hf.base_inj ht hu he)⟩
  | succ k ih =>
    rw [leafTable_succ] at hv hw
    split_ifs at hv with hpv
    split_ifs at hw with hpw
    have hiv := levelIndex_lt hk v
    have hiw := levelIndex_lt hk w
    obtain ⟨hidx,hsame⟩ := ih (by omega) (hf.child t ht k hlt _ hiv hpv)
      (hf.child u hu k hlu _ hiw hpw) rfl rfl hv hw
    obtain he | ⟨h3,-⟩ := hsame
    · have hnext := congrArg Table.base he
      obtain ⟨hij,hor⟩ := hf.single t ht u hu (by omega) (by omega) _ hiv _ hiw hpv hpw hnext
      refine ⟨?_,?_⟩
      · intro j h1 h2
        by_cases hj : j=k+1
        · rw [hj]
          exact hij
        · exact hidx j h1 (by omega)
      · obtain hor | ⟨h3,-,h256⟩ := hor
        · exact .inl hor
        · have hk2 : k=2 := by omega
          subst hk2
          exact .inr ⟨rfl,h256⟩
    · omega

end Forest

end X64OS.Memory
