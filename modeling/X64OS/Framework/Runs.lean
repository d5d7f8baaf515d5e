import Mathlib.Logic.Relation

namespace X64OS.Framework

/-- A labelled transition system; a step that is not in the relation is a call
that crashes, never returns or that no caller may make. -/
structure System (σ ι : Type) where
  step : σ → ι → σ → Prop

namespace System

variable {σ ι : Type} {S : System σ ι}

def Reachable (S : System σ ι) : σ → σ → Prop :=
  Relation.ReflTransGen (fun s t => ∃ l, S.step s l t)

/-- The runs of S in which every step also meets the side condition C. -/
def restrict (S : System σ ι) (C : σ → ι → Prop) : System σ ι :=
  ⟨fun s l t => C s l ∧ S.step s l t⟩

/-- The invariant rule: what holds first and survives every step holds always. -/
theorem Reachable.invariant {I : σ → Prop} {s₀ s : σ} (h : S.Reachable s₀ s) (h₀ : I s₀)
    (hstep : ∀ s l t, I s → S.step s l t → I t) : I s := by
  induction h with
  | refl => exact h₀
  | tail _ hs ih =>
    obtain ⟨l,hl⟩ := hs
    exact hstep _ l _ ih hl

/-- The runs with their history, the latest step first. -/
inductive Run (S : System σ ι) (s₀ : σ) : List ι → σ → Prop
  | nil : Run S s₀ [] s₀
  | cons {h : List ι} {s t : σ} {l : ι} (hr : Run S s₀ h s) (hs : S.step s l t) : Run S s₀ (l::h) t

theorem Run.split {s₀ s : σ} {h' h : List ι} (hr : S.Run s₀ (h'++h) s) :
    ∃ t, S.Run s₀ h t ∧ S.Run t h' s := by
  induction h' generalizing s with
  | nil => exact ⟨s,hr,.nil⟩
  | cons l h' ih =>
    cases hr with
    | cons hr hs =>
      obtain ⟨t,h1,h2⟩ := ih hr
      exact ⟨t,h1,.cons h2 hs⟩

theorem Run.append {s₀ t s : σ} {h' h : List ι} (hr : S.Run s₀ h t) (hr' : S.Run t h' s) :
    S.Run s₀ (h'++h) s := by
  induction hr' with
  | nil => exact hr
  | cons _ hs ih => exact .cons ih hs

/-- The invariant rule with the history. -/
theorem Run.invariant {I : List ι → σ → Prop} {s₀ s : σ} {h : List ι} (hr : S.Run s₀ h s)
    (h₀ : I [] s₀) (hstep : ∀ h s l t, I h s → S.step s l t → I (l::h) t) : I h s := by
  induction hr with
  | nil => exact h₀
  | cons _ hs ih => exact hstep _ _ _ _ ih hs

def StepOrStay (S : System σ ι) (s : σ) : Option ι → σ → Prop
  | none,t => t=s
  | some l,t => S.step s l t

/-- A run of S seen as a run of T, in which some steps of S are none of T. -/
theorem Run.simulates {τ κ : Type} {T : System τ κ} {R : σ → τ → Prop} {label : ι → Option κ}
    (hstep : ∀ s a l t, R s a → S.step s l t →
      ∃ b, R t b ∧ T.StepOrStay a (label l) b)
    {s₀ s : σ} {h : List ι} {a₀ : τ} (hr : S.Run s₀ h s) (h₀ : R s₀ a₀) :
    ∃ a, R s a ∧ T.Run a₀ (h.filterMap label) a := by
  induction hr with
  | nil => exact ⟨a₀,h₀,.nil⟩
  | @cons h s t l _ hs ih =>
    obtain ⟨a,ha,hrun⟩ := ih
    obtain ⟨b,hb,hk⟩ := hstep s a l t ha hs
    refine ⟨b,hb,?_⟩
    rw [List.filterMap_cons]
    cases hl : label l with
    | none =>
      rw [hl] at hk
      cases hk
      exact hrun
    | some k =>
      rw [hl] at hk
      exact .cons hrun hk

/-- The system of a partial step function, and its runs as a function. -/
def ofPartial (f : σ → ι → Option σ) : System σ ι := ⟨fun s l t => f s l=some t⟩

def exec (f : σ → ι → Option σ) (s : σ) : List ι → Option σ
  | [] => some s
  | l::ls => (f s l).bind (fun t => exec f t ls)

theorem reachable_exec (f : σ → ι → Option σ) (s t : σ) (ls : List ι)
    (h : exec f s ls=some t) : (ofPartial f).Reachable s t := by
  induction ls generalizing s with
  | nil =>
    cases h
    exact Relation.ReflTransGen.refl
  | cons l ls ih =>
    obtain ⟨u,hu,ht⟩ := Option.bind_eq_some_iff.mp h
    exact Relation.ReflTransGen.head ⟨l,hu⟩ (ih u ht)

theorem reachable_exec_restrict (f : σ → ι → Option σ) (C : σ → ι → Prop)
    [∀ s l, Decidable (C s l)] (s t : σ) (ls : List ι)
    (h : exec (fun s l => if C s l then f s l else none) s ls=some t) :
    ((ofPartial f).restrict C).Reachable s t := by
  induction ls generalizing s with
  | nil =>
    cases h
    exact Relation.ReflTransGen.refl
  | cons l ls ih =>
    obtain ⟨u,hu,ht⟩ := Option.bind_eq_some_iff.mp h
    obtain ⟨hC,hf⟩ := Option.ite_none_right_eq_some.mp hu
    exact Relation.ReflTransGen.head ⟨l,hC,hf⟩ (ih u ht)

end System

end X64OS.Framework
