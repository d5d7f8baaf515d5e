import Mathlib.Algebra.BigOperators.Group.List.Basic
import Mathlib.Algebra.GroupWithZero.Nat
import Mathlib.Data.Finset.Card
import Mathlib.Order.Interval.Finset.Nat

namespace X64OS.Framework

/-- Half-open range of naturals: pages, bytes or virtual addresses. -/
@[ext] structure Span where
  base : Nat
  length : Nat
  deriving DecidableEq, Repr

namespace Span

def stop (s : Span) : Nat := s.base+s.length

instance : Membership Nat Span := ⟨fun s x => s.base ≤ x ∧ x < s.stop⟩

instance (x : Nat) (s : Span) : Decidable (x∈s) :=
  inferInstanceAs (Decidable (s.base ≤ x ∧ x < s.stop))

theorem mem_iff (x : Nat) (s : Span) : x∈s ↔ s.base ≤ x ∧ x < s.base+s.length := Iff.rfl

@[simp] theorem mem_mk (x a n : Nat) : x∈(⟨a,n⟩ : Span) ↔ a ≤ x ∧ x < a+n := Iff.rfl

def Separate (s t : Span) : Prop := ∀ x, x∈s → x∉t

theorem Separate.symm {s t : Span} (h : s.Separate t) : t.Separate s :=
  fun x ht hs => h x hs ht

theorem separate_of_le {s t : Span} (h : s.stop ≤ t.base) : s.Separate t := by
  intro x hs ht
  have h1 := hs.2
  have h2 := ht.1
  omega

theorem separate_iff {s t : Span} (hs : 0 < s.length) (ht : 0 < t.length) :
    s.Separate t ↔ s.stop ≤ t.base ∨ t.stop ≤ s.base := by
  constructor
  · intro h
    by_contra hc
    have h1 := h (max s.base t.base)
    simp only [mem_iff,stop] at h1 hc
    omega
  · rintro (h | h)
    · exact separate_of_le h
    · exact (separate_of_le h).symm

theorem Separate.mono {s t s' t' : Span} (h : s.Separate t) (hs : ∀ x, x∈s' → x∈s)
    (ht : ∀ x, x∈t' → x∈t) : s'.Separate t' :=
  fun x h1 h2 => h x (hs x h1) (ht x h2)

def points (s : Span) : Finset Nat := Finset.Ico s.base s.stop

theorem mem_points (x : Nat) (s : Span) : x∈s.points ↔ x∈s := by
  rw [points,Finset.mem_Ico]
  rfl

def total (l : List Span) : Nat := (l.map Span.length).sum

@[simp] theorem total_nil : total []=0 := rfl

@[simp] theorem total_cons (s : Span) (l : List Span) : total (s::l)=s.length+total l := by
  simp [total]

private def cover : List Span → Finset Nat
  | [] => ∅
  | s::l => s.points∪cover l

private theorem mem_cover (x : Nat) (l : List Span) : x∈cover l ↔ ∃ s∈l, x∈s := by
  induction l with
  | nil => simp [cover]
  | cons s l ih => simp [cover,ih,mem_points]

private theorem card_cover (l : List Span) (h : l.Pairwise Separate) :
    (cover l).card=total l := by
  induction l with
  | nil => rfl
  | cons s l ih =>
    obtain ⟨hs,hl⟩ := List.pairwise_cons.mp h
    have hd : Disjoint s.points (cover l) := by
      rw [Finset.disjoint_left]
      intro x hx hc
      obtain ⟨t,ht,hxt⟩ := (mem_cover x l).mp hc
      exact hs t ht x ((mem_points x s).mp hx) hxt
    rw [cover,Finset.card_union_of_disjoint hd,ih hl,total_cons,points,Nat.card_Ico]
    simp [stop]

/-- Disjoint spans inside [0,n) hold at most n points together. -/
theorem total_le (l : List Span) (n : Nat) (h : l.Pairwise Separate)
    (hb : ∀ s∈l, s.stop ≤ n) : total l ≤ n := by
  rw [← card_cover l h]
  have hsub : cover l⊆Finset.range n := by
    intro x hx
    obtain ⟨s,hs,hxs⟩ := (mem_cover x l).mp hx
    have h1 := hb s hs
    have h2 := hxs.2
    exact Finset.mem_range.mpr (by omega)
  simpa using Finset.card_le_card hsub

end Span

end X64OS.Framework
