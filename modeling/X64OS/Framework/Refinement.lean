import Mathlib.Data.Option.Basic
import X64OS.Framework.Runs

namespace X64OS.Framework

section

variable {σ τ ι ο : Type}

/-- The outputs and the last state of a run; none if some call has no result. -/
def trace (f : σ → ι → Option (ο × σ)) (s : σ) : List ι → Option (List ο × σ)
  | [] => some ([],s)
  | l::ls => (f s l).bind (fun x => (trace f x.2 ls).map (fun y => (x.1::y.1,y.2)))

/-- The same for a machine in which every call has a result. -/
def traceTotal (g : τ → ι → ο × τ) (a : τ) : List ι → List ο × τ
  | [] => ([],a)
  | l::ls =>
    let x := g a l
    let y := traceTotal g x.2 ls
    (x.1::y.1,y.2)

/-- f refines g along R: whenever an admissible call of f returns, g gives the
same output and the states stay related. -/
def Refines (f : σ → ι → Option (ο × σ)) (g : τ → ι → ο × τ) (ok : ι → Prop)
    (R : σ → τ → Prop) : Prop :=
  ∀ s a l o s', R s a → ok l → f s l=some (o,s') → o=(g a l).1 ∧ R s' (g a l).2

variable {f : σ → ι → Option (ο × σ)} {g : τ → ι → ο × τ} {ok : ι → Prop} {R : σ → τ → Prop}
variable {a : τ} {ls : List ι} {os : List ο} {s s' : σ}

theorem Refines.trace_eq (hr : Refines f g ok R) (hR : R s a) (hok : ∀ l∈ls, ok l)
    (h : trace f s ls=some (os,s')) : os=(traceTotal g a ls).1 ∧ R s' (traceTotal g a ls).2 := by
  induction ls generalizing s a os with
  | nil =>
    cases h
    exact ⟨rfl,hR⟩
  | cons l ls ih =>
    obtain ⟨⟨o,s₁⟩,h1,h2⟩ := Option.bind_eq_some_iff.mp h
    obtain ⟨⟨os',s₂⟩,h3,he⟩ := Option.map_eq_some_iff.mp h2
    cases he
    obtain ⟨ho,hR'⟩ := hr s a l o s₁ hR (hok l List.mem_cons_self) h1
    obtain ⟨hos,hR''⟩ := ih hR' (fun x hx => hok x (List.mem_cons_of_mem _ hx)) h3
    rw [ho,hos]
    exact ⟨rfl,hR''⟩

theorem Refines.trace_none (hr : Refines f g ok R) (hR : R s a) (hok : ∀ l∈ls, ok l)
    (h : trace f s ls=none) : ∃ s' a' l, R s' a' ∧ l∈ls ∧ f s' l=none := by
  induction ls generalizing s a with
  | nil => cases h
  | cons l ls ih =>
    cases h1 : f s l with
    | none => exact ⟨s,a,l,hR,List.mem_cons_self,h1⟩
    | some x =>
      rw [trace,h1,Option.bind_some,Option.map_eq_none_iff] at h
      have hR' := (hr s a l x.1 x.2 hR (hok l List.mem_cons_self) h1).2
      obtain ⟨s',a',l',hs,hl,hn⟩ := ih hR' (fun y hy => hok y (List.mem_cons_of_mem _ hy)) h
      exact ⟨s',a',l',hs,List.mem_cons_of_mem _ hl,hn⟩

theorem trace_record {u : τ → ι → ο → τ}
    (hstep : ∀ s a l o s', R s a → ok l → f s l=some (o,s') → R s' (u a l o)) (hR : R s a)
    (hok : ∀ l∈ls, ok l) (h : trace f s ls=some (os,s')) :
    R s' ((ls.zip os).foldl (fun a x => u a x.1 x.2) a) := by
  induction ls generalizing s a os with
  | nil =>
    cases h
    exact hR
  | cons l ls ih =>
    obtain ⟨⟨o,s₁⟩,h1,h2⟩ := Option.bind_eq_some_iff.mp h
    obtain ⟨⟨os',s₂⟩,h3,he⟩ := Option.map_eq_some_iff.mp h2
    cases he
    exact ih (hstep s a l o s₁ hR (hok l List.mem_cons_self) h1)
      (fun x hx => hok x (List.mem_cons_of_mem _ hx)) h3

theorem trace_invariant {P : σ → Prop} (hstep : ∀ s l o s', P s → ok l → f s l=some (o,s') → P s')
    (hs : P s) (hok : ∀ l∈ls, ok l) (h : trace f s ls=some (os,s')) : P s' :=
  trace_record (R := fun s (_ : Unit) => P s) (u := fun a _ _ => a) (fun s _ => hstep s) (a := ()) hs hok h

/-- The runs of a machine that may answer in several ways. -/
inductive Answers (step : τ → ι → ο → τ → Prop) : τ → List ι → List ο → τ → Prop
  | nil (a : τ) : Answers step a [] [] a
  | cons {a b c : τ} {l : ι} {ls : List ι} {o : ο} {os : List ο} (h : step a l o b)
      (hs : Answers step b ls os c) : Answers step a (l::ls) (o::os) c

/-- Every call of the list is admissible in the state in which it is made. -/
def AllAlong (f : σ → ι → Option (ο × σ)) (adm : σ → ι → Prop) : σ → List ι → Prop
  | _,[] => True
  | s,l::ls => adm s l ∧ ∀ o s', f s l=some (o,s') → AllAlong f adm s' ls

variable {adm : σ → ι → Prop}

theorem AllAlong.of_forall (h : ∀ l∈ls, ∀ s, adm s l) : AllAlong f adm s ls := by
  induction ls generalizing s with
  | nil => trivial
  | cons l ls ih =>
    exact ⟨h l List.mem_cons_self s,fun _ _ _ => ih (fun x hx => h x (List.mem_cons_of_mem _ hx))⟩

/-- Forward simulation: every admissible call of f returns, with an answer that
the machine may give, and the states stay related. -/
def Simulates (f : σ → ι → Option (ο × σ)) (step : τ → ι → ο → τ → Prop) (adm : σ → ι → Prop)
    (R : σ → τ → Prop) : Prop :=
  ∀ s a l, R s a → adm s l → ∃ o s' a', f s l=some (o,s') ∧ step a l o a' ∧ R s' a'

theorem Simulates.trace {step : τ → ι → ο → τ → Prop} (hsim : Simulates f step adm R) (hR : R s a)
    (hadm : AllAlong f adm s ls) :
    ∃ os s' a', trace f s ls=some (os,s') ∧ Answers step a ls os a' ∧ R s' a' := by
  induction ls generalizing s a with
  | nil => exact ⟨[],s,a,rfl,.nil a,hR⟩
  | cons l ls ih =>
    obtain ⟨o,s₁,a₁,hf,hs,hR₁⟩ := hsim s a l hR hadm.1
    obtain ⟨os,s₂,a₂,ht,ha,hR₂⟩ := ih hR₁ (hadm.2 o s₁ hf)
    refine ⟨o::os,s₂,a₂,?_,.cons hs ha,hR₂⟩
    rw [Framework.trace,hf,Option.bind_some,ht]
    rfl

/-- Outputs that say which step of S a call was are a history of S. -/
theorem trace_run {S : System σ ο} (hf : ∀ s l o t, f s l=some (o,t) → S.step s o t)
    (h : trace f s ls=some (os,s')) : S.Run s os.reverse s' := by
  induction ls generalizing s os with
  | nil =>
    cases h
    exact .nil
  | cons l ls ih =>
    obtain ⟨⟨o,s₁⟩,h1,h2⟩ := Option.bind_eq_some_iff.mp h
    obtain ⟨⟨os',s₂⟩,h3,he⟩ := Option.map_eq_some_iff.mp h2
    cases he
    rw [List.reverse_cons]
    exact (System.Run.cons .nil (hf s l o s₁ h1)).append (ih h3)

end

end X64OS.Framework
