import Mathlib.Data.Nat.Notation

namespace X64OS.Framework

/-- A loop that counts up to n makes true for n what holds at first and what each of its rounds
carries over to the next number. -/
theorem fold_invariant {α : Type*} {n : Nat} {f : (i : Nat) → i < n → α → α} {init : α}
    (I : Nat → α → Prop) (hinit : I 0 init)
    (hstep : ∀ i (h : i < n) a, I i a → I (i+1) (f i h a)) : I n (n.fold f init) := by
  induction n with
  | zero => exact hinit
  | succ n ih =>
    rw [Nat.fold_succ]
    apply hstep n (Nat.lt_succ_self n)
    exact ih (fun i h a ha => hstep i (Nat.lt_succ_of_lt h) a ha)

/-- A window of N terms of a sequence, from the term b on, in which the first j places already
hold the terms of the window that follows it. -/
def Renewed {α : Type*} {N : Nat} (x : Nat → α) (b j : Nat) (v : Vector α N) : Prop :=
  ∀ i (h : i < N), v[i]=if i < j then x (b+N+i) else x (b+i)

namespace Renewed

variable {α : Type*} {N : Nat} {x : Nat → α} {b j : Nat} {v : Vector α N}

theorem ahead (h : Renewed x b j v) {i : Nat} (hi : i < N) (hj : j ≤ i) : v[i]=x (b+i) := by
  rw [h i hi,if_neg (Nat.not_lt.mpr hj)]

theorem behind (h : Renewed x b j v) {i : Nat} (hi : i < N) (hj : i < j) : v[i]=x (b+N+i) := by
  rw [h i hi,if_pos hj]

theorem set (h : Renewed x b j v) (hj : j < N) {a : α} (ha : a=x (b+N+j)) :
    Renewed x b (j+1) (v.set j a) := by
  intro i hi
  rw [Vector.getElem_set]
  by_cases hij : j=i
  · subst hij
    rw [if_pos rfl,if_pos (Nat.lt_succ_self j),ha]
  · rw [if_neg hij,h i hi]
    have hiff : i < j+1 ↔ i < j := by omega
    simp only [hiff]

theorem turn (h : Renewed x b N v) : Renewed x (b+N) 0 v := by
  intro i hi
  rw [h i hi,if_pos hi,if_neg (Nat.not_lt_zero i)]

end Renewed

end X64OS.Framework
