import Mathlib.Data.Option.Defs
import Mathlib.Order.Defs.Unbundled

namespace X64OS.Framework

section

variable {σ α β : Type} {R : σ → σ → Prop} {m : StateT σ Option α} {f : α → StateT σ Option β}

theorem bind_returns {s s'' : σ} {b : β} (h : (m >>= f) s=some (b,s'')) :
    ∃ a s', m s=some (a,s') ∧ f a s'=some (b,s'') := by
  obtain ⟨⟨a,s'⟩,hm,hf⟩ := Option.bind_eq_some_iff.mp h
  exact ⟨a,s',hm,hf⟩

theorem bind_of_returns {s s' : σ} {a : α} (h : m s=some (a,s')) : (m >>= f) s=f a s' := by
  show (m s).bind (fun x => f x.1 x.2)=f a s'
  rw [h]
  rfl

theorem bind_of_none {s : σ} (h : m s=none) : (m >>= f) s=none := by
  show (m s).bind (fun x => f x.1 x.2)=none
  rw [h]
  rfl

theorem map_apply (g : α → β) (s : σ) : (g <$> m) s=(m s).map (fun x => (g x.1,x.2)) := by
  show (m s).bind (fun x => some (g x.1,x.2))=_
  rw [Option.map_eq_bind]
  rfl

/-- Wherever the program returns, R relates the state before and the state after it. -/
def Moves (R : σ → σ → Prop) (m : StateT σ Option α) : Prop := ∀ s a s', m s=some (a,s') → R s s'

theorem Moves.bind [IsTrans σ R] (hm : Moves R m) (hf : ∀ a, Moves R (f a)) : Moves R (m >>= f) := by
  intro s b s'' h
  obtain ⟨a,s',hs',h⟩ := bind_returns h
  exact IsTrans.trans _ _ _ (hm s a s' hs') (hf a s' b s'' h)

theorem Moves.read [Std.Refl R] (g : σ → Option α) :
    Moves R (fun s => (g s).map (fun a => (a,s)) : StateT σ Option α) := by
  intro s a s' h
  obtain ⟨b,-,hb⟩ := Option.map_eq_some_iff.mp h
  cases hb
  exact refl s

theorem Moves.pure [Std.Refl R] (a : α) : Moves R (Pure.pure a : StateT σ Option α) :=
  .read (fun _ => some a)

/-- A fold of steps that each move the state along R does so too. -/
theorem Moves.foldlM [Std.Refl R] [IsTrans σ R] {g : β → α → StateT σ Option β}
    (hg : ∀ b a, Moves R (g b a)) (l : List α) (b : β) : Moves R (l.foldlM g b) := by
  induction l generalizing b with
  | nil => exact .pure b
  | cons a l ih =>
    rw [List.foldlM_cons]
    exact .bind (hg b a) ih

/-- In states that S relates, the program either does not return or has the same result, and S
relates the states after it. -/
def Respects (S : σ → σ → Prop) (m : StateT σ Option α) : Prop :=
  ∀ s t, S s t → Option.Rel (fun x y => x.1=y.1 ∧ S x.2 y.2) (m s) (m t)

namespace Respects

variable {S : σ → σ → Prop}

theorem bind (hm : Respects S m) (hf : ∀ a, Respects S (f a)) : Respects S (m >>= f) := by
  intro s t h
  show Option.Rel _ ((m s).bind (fun x => f x.1 x.2)) ((m t).bind (fun x => f x.1 x.2))
  have hrel := hm s t h
  generalize m s=x at hrel
  generalize m t=y at hrel
  cases hrel with
  | none => exact .none
  | some hxy =>
    rw [Option.bind_some,Option.bind_some,hxy.1]
    exact hf _ _ _ hxy.2

theorem read {g : σ → Option α} (hg : ∀ s t, S s t → g s=g t) :
    Respects S (fun s => (g s).map (fun a => (a,s)) : StateT σ Option α) := by
  intro s t h
  dsimp only
  rw [hg s t h]
  cases g t with
  | none => exact .none
  | some a => exact .some ⟨rfl,h⟩

theorem returns {s t s' : σ} {a : α} (hm : Respects S m) (h : S s t) (hs : m s=some (a,s')) :
    ∃ t', m t=some (a,t') ∧ S s' t' := by
  have hrel := hm s t h
  rw [hs] at hrel
  generalize hmt : m t=y at hrel
  cases hrel with
  | @some _ y hxy =>
    obtain ⟨b,t'⟩ := y
    obtain ⟨rfl,hS⟩ := hxy
    exact ⟨t',rfl,hS⟩

end Respects

end

end X64OS.Framework
