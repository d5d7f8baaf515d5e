import Mathlib.Data.List.Basic

namespace X64OS.Framework

inductive LockOp (L : Type) where
  | acquire (l : L)
  | release (l : L)

section

variable {L : Type} [DecidableEq L]

/-- The locks held after the operations; none if one of them acquires a lock that is held or
releases a lock that is not. -/
def lockRun (held : List L) : List (LockOp L) → Option (List L)
  | [] => some held
  | .acquire l::ops => if l∈held then none else lockRun (l::held) ops
  | .release l::ops => if l∈held then lockRun (held.erase l) ops else none

theorem lockRun_append (held : List L) (ops ops' : List (LockOp L)) :
    lockRun held (ops++ops')=(lockRun held ops).bind (fun held => lockRun held ops') := by
  induction ops generalizing held with
  | nil => rfl
  | cons op ops ih =>
    cases op <;> rw [List.cons_append,lockRun,lockRun] <;> split
    · rfl
    · exact ih _
    · exact ih _
    · rfl

end

/-- A program over the state σ with what it does to locks, or none if it does not return. -/
def Locking (L σ α : Type) : Type := σ → Option (α × σ × List (LockOp L))

namespace Locking

variable {L σ τ α β : Type}

instance : Monad (Locking L σ) where
  pure a := fun s => some (a,s,[])
  bind m f := fun s =>
    (m s).bind (fun x => (f x.1 x.2.1).map (fun y => (y.1,y.2.1,x.2.2++y.2.2)))

def acquire (l : L) : Locking L σ Unit := fun s => some ((),s,[.acquire l])

def release (l : L) : Locking L σ Unit := fun s => some ((),s,[.release l])

def ofOption (x : Option α) : Locking L σ α := fun s => x.map (fun a => (a,s,[]))

def when (c : Bool) (m : Locking L σ Unit) : Locking L σ Unit := if c then m else pure ()

section Discipline

variable [DecidableEq L] {S T : L → Prop} {p q r : List L} {m : Locking L σ α}
  {f : α → Locking L σ β}

/-- Started with the locks p held and, of the others, none of S, the program does nothing wrong
with any lock, and where it returns q has taken the place of p. -/
def Keeps (S : L → Prop) (p : List L) (m : Locking L σ α) (q : List L) : Prop :=
  ∀ rest : List L, (∀ l∈rest, ¬S l) → ∀ s a s' ops, m s=some (a,s',ops) →
    lockRun (p++rest) ops=some (q++rest)

theorem Keeps.bind (hm : Keeps S p m q) (hf : ∀ a, Keeps S q (f a) r) : Keeps S p (m >>= f) r := by
  intro rest hrest s a s' ops h
  obtain ⟨⟨b,t,ops₁⟩,hb,h⟩ := Option.bind_eq_some_iff.mp h
  obtain ⟨⟨c,u,ops₂⟩,hc,h⟩ := Option.map_eq_some_iff.mp h
  cases h
  change lockRun _ (ops₁++ops₂)=_
  rw [lockRun_append,hm rest hrest s b t ops₁ hb]
  exact hf b rest hrest t _ _ ops₂ hc

theorem Keeps.step (f : σ → α × σ) :
    Keeps S p (fun s => some ((f s).1,(f s).2,[]) : Locking L σ α) p := by
  intro rest _ s a s' ops h
  cases h
  rfl

theorem Keeps.pure (a : α) : Keeps S p (Pure.pure a : Locking L σ α) p := .step (fun s => (a,s))

theorem Keeps.ofOption (x : Option α) : Keeps S p (ofOption x : Locking L σ α) p := by
  cases x with
  | none =>
    intro rest _ s a s' ops h
    cases h
  | some a => exact .pure a

theorem Keeps.acquire {l : L} (hl : S l) (hp : l∉p) :
    Keeps S p (acquire l : Locking L σ Unit) (l::p) := by
  intro rest hrest s a s' ops h
  cases h
  have hfree : l∉p++rest := by
    intro hmem
    exact (List.mem_append.mp hmem).elim hp (fun hl' => hrest l hl' hl)
  rw [lockRun,if_neg hfree]
  rfl

theorem Keeps.release {l : L} : Keeps S (l::p) (release l : Locking L σ Unit) p := by
  intro rest hrest s a s' ops h
  cases h
  rw [List.cons_append,lockRun,if_pos List.mem_cons_self,List.erase_cons_head]
  rfl

/-- A program that uses other locks only leaves those that are held alone. -/
theorem Keeps.frame (hm : Keeps T [] m []) (hT : ∀ l, T l → S l) (hp : ∀ l∈p, ¬T l) :
    Keeps S p m p := by
  intro rest hrest s a s' ops h
  refine hm (p++rest) ?_ s a s' ops h
  intro l hl
  exact (List.mem_append.mp hl).elim (hp l) (fun hl' hT' => hrest l hl' (hT l hT'))

theorem Keeps.when {c : Bool} {m : Locking L σ Unit} (hm : Keeps S p m p) :
    Keeps S p (when c m) p := by
  unfold Locking.when
  split
  · exact hm
  · exact .pure ()

end Discipline

section Erasure

variable {view : σ → τ} {m : Locking L σ α} {g : α → Locking L σ β} {s : σ}

/-- Without its locks and seen through view, the program ends with r. -/
def Yields (view : σ → τ) (m : Locking L σ α) (s : σ) (r : Option (α × τ)) : Prop :=
  (m s).map (fun x => (x.1,view x.2.1))=r

/-- The program returns, and nothing happens that view shows. -/
def Silent (view : σ → τ) (m : Locking L σ α) : Prop :=
  ∀ s, ∃ a s' ops, m s=some (a,s',ops) ∧ view s'=view s

theorem Silent.bind (hm : Silent view m) (hg : ∀ a, Silent view (g a)) : Silent view (m >>= g) := by
  intro s
  obtain ⟨a,s',ops,hs,hview⟩ := hm s
  obtain ⟨b,s'',ops',hs',hview'⟩ := hg a s'
  refine ⟨b,s'',ops++ops',?_,hview'.trans hview⟩
  change (m s).bind _=_
  rw [hs]
  change (g a s').map _=_
  rw [hs']
  rfl

theorem Silent.pure (a : α) : Silent view (Pure.pure a : Locking L σ α) :=
  fun s => ⟨a,s,[],rfl,rfl⟩

theorem Silent.acquire (l : L) : Silent view (acquire l) := fun s => ⟨(),s,_,rfl,rfl⟩

theorem Silent.release (l : L) : Silent view (release l) := fun s => ⟨(),s,_,rfl,rfl⟩

theorem Silent.when {c : Bool} {m : Locking L σ Unit} (hm : Silent view m) :
    Silent view (when c m) := by
  unfold Locking.when
  split
  · exact hm
  · exact .pure ()

theorem Yields.pure (a : α) : Yields view (Pure.pure a : Locking L σ α) s (some (a,view s)) := rfl

theorem Yields.bind {x : Option (α × τ)} {h : α → τ → Option (β × τ)} (hm : Yields view m s x)
    (hg : ∀ a s', Yields view (g a) s' (h a (view s'))) :
    Yields view (m >>= g) s (x.bind (fun y => h y.1 y.2)) := by
  unfold Yields at hm
  subst hm
  change Option.map _ (Option.bind (m s) _)=_
  cases m s with
  | none => rfl
  | some x =>
    refine (Option.map_map _ _ _).trans ?_
    exact hg x.1 x.2.1

theorem Yields.after {r : Option (β × τ)} (hm : Silent view m)
    (hg : ∀ a s', view s'=view s → Yields view (g a) s' r) : Yields view (m >>= g) s r := by
  obtain ⟨a,s',ops,hs,hview⟩ := hm s
  have hr := hg a s' hview
  unfold Yields at hr ⊢
  change Option.map _ (Option.bind (m s) _)=_
  rw [hs]
  exact (Option.map_map _ _ _).trans hr

theorem Yields.ofOption {x : Option α} {h : α → Option (β × τ)}
    (hg : ∀ a, Yields view (g a) s (h a)) :
    Yields view (Locking.ofOption x >>= g) s (x.bind h) := by
  cases x with
  | none => rfl
  | some a => exact (Option.map_map _ _ _).trans (hg a)

theorem Yields.mapOption {x : Option α} {h : α → β × τ}
    (hg : ∀ a, Yields view (g a) s (some (h a))) :
    Yields view (Locking.ofOption x >>= g) s (x.map h) := by
  rw [Option.map_eq_bind]
  exact .ofOption hg

end Erasure

end Locking

end X64OS.Framework
