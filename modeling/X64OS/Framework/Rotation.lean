import Mathlib.Data.List.Nodup
import X64OS.Framework.Laps
import X64OS.Framework.Runs

namespace X64OS.Framework

section

variable {α : Type}

/-- Members that take turns in their order; turn is the place of the one that has it. -/
structure Rotation (α : Type) where
  members : List α
  turn : Nat

inductive Turn (α : Type) where
  | joined (x : α)
  | taken (x : α)

/-- Who joins does so at the end. -/
def rotation (α : Type) : System (Rotation α) (Turn α) where
  step a l b :=
    match l with
    | .joined x => x∉a.members ∧ b=⟨a.members++[x],a.turn⟩
    | .taken x => b=⟨a.members,ringNext a.members.length a.turn⟩ ∧ b.members[b.turn]?=some x

def takenBy : List (Turn α) → List α :=
  List.filterMap (fun l => match l with | .taken x => some x | .joined _ => none)

/-- Since the member at place q had its turn, the one at place u has had one as well,
if the turn is at place p now. -/
def HadTurn (q p u : Nat) : Prop := if q ≤ p then q < u ∧ u ≤ p else u ≤ p ∨ q < u

instance (q p u : Nat) : Decidable (HadTurn q p u) :=
  inferInstanceAs (Decidable (if q ≤ p then q < u ∧ u ≤ p else u ≤ p ∨ q < u))

variable {n p q u : Nat} {a b c : Rotation α} {h : List (Turn α)} {x y : α}

theorem hadTurn_next (hq : q < n) (hu : u < n) (hne : ringNext n p≠q) :
    HadTurn q (ringNext n p) u ↔ HadTurn q p u ∨ u=ringNext n p := by
  unfold HadTurn
  unfold ringNext at hne ⊢
  split_ifs at hne ⊢ <;> omega

/-- A member has its turn only once in a round. -/
theorem not_hadTurn_next (hq : q < n) : ¬HadTurn q p (ringNext n p) := by
  unfold HadTurn ringNext
  split_ifs <;> omega

theorem hadTurn_all (hu : u < n) (huq : u≠q) (he : ringNext n p=q) : HadTurn q p u := by
  unfold HadTurn
  unfold ringNext at he
  split_ifs at he ⊢ <;> omega

/-- What holds since the turn of the member at place q. -/
structure Since [DecidableEq α] (a : Rotation α) (h : List (Turn α)) (b : Rotation α) : Prop where
  nodup : b.members.Nodup
  old : a.members <+: b.members
  turn : b.turn < b.members.length
  count : ∀ u y, a.members[u]?=some y → u≠a.turn →
    (takenBy h).count y=if HadTurn a.turn b.turn u then 1 else 0

theorem Since.start [DecidableEq α] (hnodup : a.members.Nodup) (hturn : a.turn < a.members.length) :
    Since a [] a where
  nodup := hnodup
  old := List.prefix_rfl
  turn := hturn
  count := by
    intro u y _ hu
    rw [if_neg]
    · rfl
    · rw [HadTurn,if_pos (Nat.le_refl _)]
      omega

theorem Since.join [DecidableEq α] (hs : Since a h b) (hstep : (rotation α).step b (.joined x) c) :
    Since a (.joined x::h) c := by
  obtain ⟨hx,rfl⟩ := hstep
  refine ⟨?_,hs.old.trans (List.prefix_append _ _),?_,hs.count⟩
  · exact List.nodup_append.mpr ⟨hs.nodup,List.nodup_singleton x,by
      intro y hy z hz
      rw [List.mem_singleton.mp hz]
      rintro rfl
      exact hx hy⟩
  · show b.turn < (b.members++[x]).length
    rw [List.length_append]
    exact Nat.lt_add_right _ hs.turn

theorem Since.get [DecidableEq α] (hs : Since a h b) (hu : a.members[u]?=some y) :
    u < b.members.length ∧ b.members[u]?=some y := by
  obtain ⟨hlt,-⟩ := List.getElem?_eq_some_iff.mp hu
  refine ⟨Nat.lt_of_lt_of_le hlt hs.old.length_le,?_⟩
  rw [← hu]
  exact (List.prefix_iff_getElem?.mp hs.old u hlt).trans (List.getElem?_eq_getElem hlt).symm

theorem Since.place [DecidableEq α] (hs : Since a h b) (hu : a.members[u]?=some y)
    (hp : b.members[p]?=some x) : x=y ↔ u=p := by
  obtain ⟨hlt,hu'⟩ := hs.get hu
  refine ⟨?_,?_⟩
  · rintro rfl
    exact (List.getElem?_inj hlt hs.nodup).mp (hu'.trans hp.symm)
  · rintro rfl
    exact Option.some.inj (hp.symm.trans hu')

theorem Since.take [DecidableEq α] (hs : Since a h b) (hstep : (rotation α).step b (.taken x) c)
    (hy : a.members[a.turn]?=some y) (hx : x≠y) : Since a (.taken x::h) c := by
  obtain ⟨rfl,hat⟩ := hstep
  have hne : ringNext b.members.length b.turn≠a.turn := fun he => hx ((hs.place hy hat).mpr he.symm)
  obtain ⟨hq,-⟩ := hs.get hy
  refine ⟨hs.nodup,hs.old,(List.getElem?_eq_some_iff.mp hat).1,?_⟩
  intro u z hz hu
  obtain ⟨hlt,-⟩ := hs.get hz
  show (x::takenBy h).count z=if HadTurn a.turn (ringNext b.members.length b.turn) u then 1 else 0
  rw [List.count_cons,hs.count u z hz hu]
  have hu' := hs.place hz hat
  have hiff := hadTurn_next hq hlt hne
  by_cases hxz : x=z
  · have hup : u=ringNext b.members.length b.turn := hu'.mp hxz
    have hnot : ¬HadTurn a.turn b.turn u := by
      rw [hup]
      exact not_hadTurn_next hq
    rw [if_neg hnot,if_pos (hiff.mpr (.inr hup)),if_pos (by simpa using hxz)]
  · have hup : u≠ringNext b.members.length b.turn := fun he => hxz (hu'.mpr he)
    rw [if_neg (by simpa using hxz : ¬(x==z)=true)]
    simp only [hiff,hup,or_false,Nat.add_zero]

/-- Between two turns of a member every other one takes its turn once. -/
theorem rotation_fair [DecidableEq α] (hnodup : a.members.Nodup) (hx : a.members[a.turn]?=some x)
    (hr : (rotation α).Run a h b) (hh : x∉takenBy h) (hstep : (rotation α).step b (.taken x) c)
    (hy : y∈a.members) (hne : y≠x) : (takenBy h).count y=1 := by
  have hlt := (List.getElem?_eq_some_iff.mp hx).1
  have hs : Since a h b := by
    clear hstep
    induction hr with
    | nil => exact .start hnodup hlt
    | @cons h b c l _ hl ih =>
      cases l with
      | joined z => exact (ih hh).join hl
      | taken z =>
        obtain ⟨hz,hh'⟩ : z≠x ∧ x∉takenBy h := by
          have hmem : x∉z::takenBy h := hh
          rw [List.mem_cons,not_or] at hmem
          exact ⟨Ne.symm hmem.1,hmem.2⟩
        exact (ih hh').take hl hx hz
  obtain ⟨rfl,hat⟩ := hstep
  obtain ⟨u,hu,rfl⟩ := List.getElem_of_mem hy
  have hu' := List.getElem?_eq_getElem hu
  have huq : u≠a.turn := by
    rintro rfl
    exact hne (Option.some.inj (hu'.symm.trans hx))
  have hback : ringNext b.members.length b.turn=a.turn := ((hs.place hx hat).mp rfl).symm
  rw [hs.count u _ hu' huq,if_pos (hadTurn_all (hs.get hu').1 huq hback)]

end

end X64OS.Framework
