import Mathlib.Data.List.Nodup
import Mathlib.Logic.Function.Basic
import Mathlib.Logic.Function.Iterate

namespace X64OS.Framework

section

variable {α : Type} {next prev next' prev' : α → α} {a b y : α} {xs ys : List α}

/-- The pointers lead from a through xs to b, and back. -/
def Linked (next prev : α → α) : α → List α → α → Prop
  | a,[],b => next a=b ∧ prev b=a
  | a,x::xs,b => next a=x ∧ prev x=a ∧ Linked next prev x xs b

theorem linked_append :
    Linked next prev a (xs++y::ys) b ↔ Linked next prev a xs y ∧ Linked next prev y ys b := by
  induction xs generalizing a with
  | nil => exact and_assoc.symm
  | cons x xs ih =>
    rw [List.cons_append,Linked,Linked,ih]
    exact ⟨fun ⟨h1,h2,h3,h4⟩ => ⟨⟨h1,h2,h3⟩,h4⟩,fun ⟨⟨h1,h2,h3⟩,h4⟩ => ⟨h1,h2,h3,h4⟩⟩

/-- Only the next of a and xs and the prev of xs and b matter. -/
theorem Linked.congr (h : Linked next prev a xs b) (hn : ∀ x∈a::xs, next' x=next x)
    (hp : ∀ x∈xs++[b], prev' x=prev x) : Linked next' prev' a xs b := by
  induction xs generalizing a with
  | nil => exact ⟨(hn a (by simp)).trans h.1,(hp b (by simp)).trans h.2⟩
  | cons x xs ih =>
    obtain ⟨h1,h2,h3⟩ := h
    refine ⟨(hn a (by simp)).trans h1,(hp x (by simp)).trans h2,ih h3 ?_ ?_⟩
    · exact fun z hz => hn z (List.mem_cons_of_mem _ hz)
    · exact fun z hz => hp z (List.mem_cons_of_mem _ hz)

theorem Linked.next_mem (h : Linked next prev a xs b) : next a∈xs++[b] := by
  cases xs with
  | nil => simp [h.1]
  | cons x xs => simp [h.1]

theorem Linked.prev_mem (h : Linked next prev a xs b) : prev b∈a::xs := by
  induction xs generalizing a with
  | nil => simp [h.2]
  | cons x xs ih => exact List.mem_cons_of_mem _ (ih h.2.2)

theorem Linked.getLast? (h : Linked next prev a xs b) : (a::xs).getLast?=some (prev b) := by
  induction xs generalizing a with
  | nil => rw [List.getLast?_singleton,h.2]
  | cons x xs ih => rw [List.getLast?_cons_cons,ih h.2.2]

section
variable (h : Linked next prev a xs b)
include h

theorem Linked.next_prev : next (prev b)=b := by
  induction xs generalizing a with
  | nil => rw [h.2,h.1]
  | cons x xs ih => exact ih h.2.2

theorem Linked.prev_next : prev (next a)=a := by
  cases xs with
  | nil => rw [h.1,h.2]
  | cons x xs => rw [h.1,h.2.1]

theorem Linked.getElem {i : Nat} (hi : i < (a::xs).length) :
    ∃ hi' : i < (xs++[b]).length, next (a::xs)[i]=(xs++[b])[i] ∧ prev (xs++[b])[i]=(a::xs)[i] := by
  induction xs generalizing a i with
  | nil =>
    obtain rfl : i=0 := by simpa using hi
    exact ⟨by simp,h.1,h.2⟩
  | cons x xs ih =>
    obtain ⟨h1,h2,h3⟩ := h
    cases i with
    | zero => exact ⟨by simp,h1,h2⟩
    | succ i =>
      obtain ⟨hi',hn,hp⟩ := ih h3 (by simpa using hi)
      exact ⟨by simpa using hi',hn,hp⟩

/-- Walking on from a comes to the elements in their order. -/
theorem Linked.iterate {i : Nat} (hi : i < (a::xs).length) : next^[i] a=(a::xs)[i] := by
  induction i with
  | zero => rfl
  | succ i ih =>
    rw [Function.iterate_succ_apply',ih (by omega)]
    obtain ⟨hi',hn,-⟩ := h.getElem (i := i) (by omega)
    rw [hn,List.getElem_cons_succ,List.getElem_append_left]

theorem Linked.snoc {z : α} (hnodup : (a::xs).Nodup) (hlast : next' (prev b)=z) (hzn : next' z=b)
    (hzp : prev' z=prev b) (hb : prev' b=z) (hn : ∀ x∈a::xs, x≠prev b → next' x=next x)
    (hp : ∀ x∈xs, prev' x=prev x) : Linked next' prev' a (xs++[z]) b := by
  induction xs generalizing a with
  | nil =>
    rw [h.2] at hlast hzp
    exact ⟨hlast,hzp,hzn,hb⟩
  | cons x xs ih =>
    obtain ⟨h1,h2,h3⟩ := h
    obtain ⟨ha,hrest⟩ := List.nodup_cons.mp hnodup
    have hne : a≠prev b := by
      intro he
      rw [he] at ha
      exact ha h3.prev_mem
    refine ⟨(hn a (by simp) hne).trans h1,(hp x (by simp)).trans h2,ih h3 hrest ?_ ?_⟩
    · exact fun w hw => hn w (List.mem_cons_of_mem _ hw)
    · exact fun w hw => hp w (List.mem_cons_of_mem _ hw)

end

/-- An element y whose neighbours are linked to each other. -/
theorem Linked.unlink (h : Linked next prev a (xs++y::ys) b) (hnodup : (a::(xs++y::ys)).Nodup)
    (hb : b∉xs++y::ys) (hnext : next' (prev y)=next y) (hprev : prev' (next y)=prev y)
    (hn : ∀ x, x≠prev y → next' x=next x) (hp : ∀ x, x≠next y → prev' x=prev x) :
    Linked next' prev' a (xs++ys) b := by
  induction xs generalizing a with
  | nil =>
    obtain ⟨h1,h2,h3⟩ := h
    rw [h2] at hnext hprev hn
    cases ys with
    | nil =>
      rw [h3.1] at hnext hprev
      exact ⟨hnext,hprev⟩
    | cons z zs =>
      rw [h3.1] at hnext hprev hp
      refine ⟨hnext,hprev,h3.2.2.congr ?_ ?_⟩
      · intro x hx
        refine hn x ?_
        rintro rfl
        exact (List.nodup_cons.mp hnodup).1 (by simp [hx])
      · intro x hx
        refine hp x ?_
        rintro rfl
        obtain ⟨-,hys⟩ := List.nodup_cons.mp (List.nodup_cons.mp hnodup).2
        rcases List.mem_append.mp hx with hx | hx
        · exact (List.nodup_cons.mp hys).1 hx
        · rw [List.mem_singleton] at hx
          exact hb (by simp [hx])
  | cons x xs ih =>
    obtain ⟨h1,h2,h3⟩ := h
    obtain ⟨ha,hrest⟩ := List.nodup_cons.mp hnodup
    obtain ⟨hbefore,hafter⟩ := linked_append.mp h3
    have hane : a≠prev y := by
      intro he
      have hmem := hbefore.prev_mem
      rw [← he] at hmem
      exact ha (by simp only [List.mem_cons,List.mem_append] at hmem ⊢; tauto)
    have hxne : x≠next y := by
      intro he
      have hmem := hafter.next_mem
      rw [← he] at hmem
      rcases List.mem_append.mp hmem with hmem | hmem
      · exact (List.nodup_cons.mp hrest).1 (by simp [hmem])
      · rw [List.mem_singleton] at hmem
        exact hb (by simp [hmem])
    refine ⟨(hn a hane).trans h1,(hp x hxne).trans h2,ih h3 hrest ?_⟩
    exact fun hmem => hb (List.mem_cons_of_mem _ hmem)

theorem erase_middle [DecidableEq α] (h : (xs++y::ys).Nodup) : (xs++y::ys).erase y=xs++ys := by
  rw [List.nodup_middle,List.nodup_cons] at h
  have hxs : y∉xs := fun hmem => h.1 (List.mem_append_left _ hmem)
  rw [List.erase_append_right _ hxs,List.erase_cons_head]

end

end X64OS.Framework
