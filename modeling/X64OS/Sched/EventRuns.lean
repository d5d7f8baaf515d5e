import X64OS.Sched.Events

namespace X64OS.Sched

open Framework

variable {c : EventCall}

namespace EventSystem

variable {s s' : EventSystem} {t : Nat}

/-- Nothing that a waiting thread or an account of the triggers sees has changed. -/
structure Quiet (s s' : EventSystem) : Prop where
  sched : s'.sched=s.sched
  halted : s'.halted=s.halted
  triggered : s'.triggered=s.triggered
  reported : s'.reported=s.reported
  lock : ∀ t, (s'.waiters t).yieldAwait=(s.waiters t).yieldAwait
  await : ∀ t, (s'.waiters t).await=(s.waiters t).await
  pending : ∀ e, (s'.events e).pending=(s.events e).pending

theorem Quiet.refl (s : EventSystem) : Quiet s s :=
  ⟨rfl,rfl,rfl,rfl,fun _ => rfl,fun _ => rfl,fun _ => rfl⟩

theorem Quiet.trans {u : EventSystem} (h : Quiet s s') (h' : Quiet s' u) : Quiet s u where
  sched := h'.sched.trans h.sched
  halted := h'.halted.trans h.halted
  triggered := h'.triggered.trans h.triggered
  reported := h'.reported.trans h.reported
  lock t := (h'.lock t).trans (h.lock t)
  await t := (h'.await t).trans (h.await t)
  pending e := (h'.pending e).trans (h.pending e)

theorem waiters_modifyWaiter (s : EventSystem) (t : Nat) (f : Waiter → Waiter) (i : Nat) :
    (s.modifyWaiter t f).waiters i=if i=t then f (s.waiters i) else s.waiters i := by
  refine (Function.update_apply _ _ _ _).trans ?_
  split
  · rename_i h
    rw [h]
  · rfl

theorem events_modifyEvent (s : EventSystem) (e : Nat) (f : Event → Event) (i : Nat) :
    (s.modifyEvent e f).events i=if i=e then f (s.events i) else s.events i := by
  refine (Function.update_apply _ _ _ _).trans ?_
  split
  · rename_i h
    rw [h]
  · rfl

theorem quiet_modifyWaiter {f : Waiter → Waiter} (hl : ∀ w, (f w).yieldAwait=w.yieldAwait)
    (ha : ∀ w, (f w).await=w.await) (s : EventSystem) (t : Nat) : Quiet s (s.modifyWaiter t f) := by
  refine ⟨rfl,rfl,rfl,rfl,?_,?_,fun _ => rfl⟩ <;> intro i <;> rw [waiters_modifyWaiter] <;> split
  · exact hl _
  · rfl
  · exact ha _
  · rfl

theorem quiet_modifyEvent {f : Event → Event} (hf : ∀ v, (f v).pending=v.pending)
    (s : EventSystem) (e : Nat) : Quiet s (s.modifyEvent e f) := by
  refine ⟨rfl,rfl,rfl,rfl,fun _ => rfl,fun _ => rfl,?_⟩
  intro i
  rw [events_modifyEvent]
  split
  · exact hf _
  · rfl

theorem quiet_runningQueue (s : EventSystem) (q : List Nat) : Quiet s { s with runningQueue := q } :=
  ⟨rfl,rfl,rfl,rfl,fun _ => rfl,fun _ => rfl,fun _ => rfl⟩

theorem quiet_enqueue (s : EventSystem) (t : Nat) (bySignal : Bool) :
    Quiet s (s.enqueue t bySignal) := by
  unfold enqueue
  split
  · exact .refl s
  · have hsignal : Quiet s (s.modifyWaiter t (fun w => { w with enqueuedBySignal := bySignal })) :=
      quiet_modifyWaiter (by intro; rfl) (by intro; rfl) s t
    dsimp only
    split
    · exact (hsignal.trans (quiet_modifyWaiter (by intro; rfl) (by intro; rfl) _ _)).trans
        (quiet_runningQueue _ _)
    · exact hsignal

theorem quiet_dequeue (s : EventSystem) (t : Nat) : Quiet s (s.dequeue t) := by
  unfold dequeue
  split
  · exact .refl s
  · split
    · exact (quiet_modifyWaiter (by intro; rfl) (by intro; rfl) _ _).trans (quiet_runningQueue _ _)
    · exact .refl s

theorem quiet_wake (s : EventSystem) (l : EventListener) : Quiet s (s.wake l) :=
  (quiet_modifyWaiter (by intro; rfl) (by intro; rfl) s l.thread).trans (quiet_enqueue _ _ _)

theorem quiet_wakeAll (ls : List EventListener) (s : EventSystem) : Quiet s (ls.foldl wake s) := by
  induction ls generalizing s with
  | nil => exact .refl s
  | cons l ls ih => exact (quiet_wake s l).trans (ih _)

variable {es : List Nat} {i : Nat} {block : Bool}

theorem quiet_attachFrom (h : attachFrom t es i s=.ok s') : Quiet s s' := by
  induction es generalizing s i with
  | nil =>
    cases h
    exact .refl _
  | cons e es ih =>
    unfold attachFrom at h
    split at h
    · cases h
    · dsimp only at h
      split at h
      · cases h
      · exact ((quiet_modifyEvent (by intro; rfl) s e).trans
          (quiet_modifyWaiter (by intro; rfl) (by intro; rfl) _ t)).trans (ih h)

theorem quiet_attachListeners {events : List Nat} (h : s.attachListeners events t=.ok s') :
    Quiet s s' :=
  (quiet_modifyWaiter (by intro; rfl) (by intro; rfl) s t).trans (quiet_attachFrom h)

theorem checkForPending_some {j : Nat} (h : s.checkForPending es i=some (j,s')) :
    ∃ k e, j=i+k ∧ es[k]?=some e ∧ 0 < (s.events e).pending ∧
      s'=s.modifyEvent e (fun v => { v with pending := v.pending-1 }) := by
  induction es generalizing i with
  | nil => cases h
  | cons e es ih =>
    unfold checkForPending at h
    split at h
    · rename_i hpending
      cases h
      exact ⟨0,e,rfl,rfl,hpending,rfl⟩
    · obtain ⟨k,e',rfl,hk,hpending,hs⟩ := ih h
      exact ⟨k+1,e',by omega,hk,hpending,hs⟩

theorem checkForPending_none : s.checkForPending es i=none ↔ ∀ e∈es, (s.events e).pending=0 := by
  induction es generalizing i with
  | nil => simp [checkForPending]
  | cons e es ih =>
    rw [checkForPending,List.forall_mem_cons]
    split
    · rename_i hpending
      constructor
      · intro h
        cases h
      · intro h
        exact absurd h.1 (Nat.pos_iff_ne_zero.mp hpending)
    · rename_i hpending
      rw [ih,and_iff_right (Nat.eq_zero_of_not_pos hpending)]

/-- The ways in which event_await leaves its first section. -/
theorem eventAwait_cases {events : List Nat} (h : s.eventAwait t events block=.ok s') :
    (∃ i e, events[i]?=some e ∧ 0 < (s.events e).pending ∧
      s'=(s.modifyEvent e (fun v => { v with pending := v.pending-1 })).report events i) ∨
    (block=false ∧ s'=s) ∨
    block=true ∧ (∀ e∈events, (s.events e).pending=0) ∧
      ∃ q, Quiet s q ∧ q.yieldStart t events=.ok s' := by
  unfold eventAwait at h
  split at h
  · cases h
  · split at h
    · rename_i i q hq
      obtain ⟨k,e,hi,hk,hpending,rfl⟩ := checkForPending_some hq
      rw [Nat.zero_add] at hi
      subst hi
      cases h
      exact .inl ⟨i,e,hk,hpending,rfl⟩
    · rename_i hnone
      split at h
      · rename_i hblock
        cases h
        exact .inr (.inl ⟨Bool.eq_false_iff.mpr hblock,rfl⟩)
      · rename_i hblock
        refine .inr (.inr ⟨not_not.mp hblock,checkForPending_none.mp hnone,?_⟩)
        cases ha : s.attachListeners events t with
        | error p =>
          rw [ha] at h
          cases h
        | ok q =>
          rw [ha] at h
          exact ⟨q.dequeue t,(quiet_attachListeners ha).trans (quiet_dequeue q t),h⟩

theorem yieldStart_eq {events : List Nat} (h : s.yieldStart t events=.ok s') :
    s'=s.modifyWaiter t (fun w =>
      { w with yieldAwait := true, await := some (events,.yielding false 0) }) := by
  unfold yieldStart at h
  split at h
  · cases h
  · cases h
    rfl

def InYield (s : EventSystem) (t : Nat) : Prop :=
  ∃ events out tries, (s.waiters t).await=some (events,.yielding out tries)

/-- The thread is in Yield(true) and sched_tick has switched it out there. -/
def SwitchedOut (s : EventSystem) (t : Nat) : Prop :=
  ∃ events tries, (s.waiters t).await=some (events,.yielding true tries)

/-- A thread holds yield_await exactly while it is in Yield(true), and it never leaves that. -/
def LockHeld (s : EventSystem) : Prop :=
  ∀ t, (s.waiters t).await=none ∧ (s.waiters t).yieldAwait=false ∨
    s.InYield t ∧ (s.waiters t).yieldAwait=true

theorem lockHeld_boot (sched : Scheduler) : (boot sched).LockHeld := fun _ => .inl ⟨rfl,rfl⟩

theorem LockHeld.locked (h : s.LockHeld) (ht : s.InYield t) : (s.waiters t).yieldAwait=true := by
  rcases h t with hnone | hyield
  · obtain ⟨events,out,tries,hawait⟩ := ht
    rw [hawait] at hnone
    cases hnone.1
  · exact hyield.2

theorem LockHeld.not_resumed (h : s.LockHeld) (events : List Nat) :
    (s.waiters t).await≠some (events,.resumed) := by
  intro hawait
  rcases h t with hnone | ⟨⟨es,out,tries,hyield⟩,-⟩
  · rw [hawait] at hnone
    cases hnone.1
  · rw [hawait] at hyield
    cases hyield

theorem inYield_congr (h : (s'.waiters t).await=(s.waiters t).await) :
    s'.InYield t ↔ s.InYield t := by
  unfold InYield
  rw [h]

theorem LockHeld.congr (h : s.LockHeld)
    (hlock : ∀ t, (s'.waiters t).yieldAwait=(s.waiters t).yieldAwait)
    (hawait : ∀ t, (s'.waiters t).await=(s.waiters t).await) : s'.LockHeld := by
  intro t
  rw [inYield_congr (hawait t),hlock,hawait]
  exact h t

theorem LockHeld.modifyWaiter (h : s.LockHeld) {f : Waiter → Waiter}
    (hf : ∃ events out tries, (f (s.waiters t)).await=some (events,.yielding out tries) ∧
      (f (s.waiters t)).yieldAwait=true) : (s.modifyWaiter t f).LockHeld := by
  intro i
  unfold InYield
  rw [waiters_modifyWaiter]
  split
  · rename_i hi
    subst hi
    obtain ⟨events,out,tries,hawait,hlock⟩ := hf
    exact .inr ⟨⟨events,out,tries,hawait⟩,hlock⟩
  · exact h i

/-- What a call does while no thread has come out of Yield(true). -/
inductive Effect (s : EventSystem) : EventCall → EventSystem → Prop
  | sched (l : SchedCall) (sched : Scheduler) : Effect s (.sched l) { s with sched := sched }
  | switched (l : SchedCall) (sched : Scheduler) :
    Effect s (.sched l) { s.switchOut with sched := sched }
  | trigger (e : Nat) (drop : Bool) : Effect s (.trigger e drop) (s.eventTrigger e drop)
  | taken (events : List Nat) (block : Bool) (i e : Nat) (hi : events[i]?=some e)
    (hpending : 0 < (s.events e).pending) : Effect s (.await events block)
      ((s.modifyEvent e (fun v => { v with pending := v.pending-1 })).report events i)
  | refused (events : List Nat) : Effect s (.await events false) s
  | blocked (events : List Nat) (q : EventSystem) (hnone : ∀ e∈events, (s.events e).pending=0)
    (hq : Quiet s q) : Effect s (.await events true)
      (q.modifyWaiter s.sched.currentThread (fun w =>
        { w with yieldAwait := true, await := some (events,.yielding false 0) }))
  | spun (events : List Nat) (out : Bool) (tries : Nat)
    (hlock : (s.waiters s.sched.currentThread).yieldAwait=true) : Effect s .reacquire
      (s.modifyWaiter s.sched.currentThread (fun w =>
        { w with await := some (events,.yielding out tries) }))
  | panicked (c : EventCall) (p : Panic)
    (hp : p=.yieldDeadlock → s.InYield s.sched.currentThread) :
    Effect s c { s with halted := some p }

theorem attachFrom_error {p : Panic} (h : attachFrom t es i s=.error p) : p≠.yieldDeadlock := by
  induction es generalizing s i with
  | nil => cases h
  | cons e es ih =>
    unfold attachFrom at h
    split at h
    · cases h
      decide
    · dsimp only at h
      split at h
      · cases h
        decide
      · exact ih h

theorem eventAwait_error {events : List Nat} {p : Panic} (h : s.eventAwait t events block=.error p)
    (hlock : (s.waiters t).yieldAwait=false) : p≠.yieldDeadlock := by
  unfold eventAwait at h
  split at h
  · cases h
    decide
  · split at h
    · cases h
    · split at h
      · cases h
      · cases ha : s.attachListeners events t with
        | error p' =>
          rw [ha] at h
          cases h
          exact attachFrom_error ha
        | ok q =>
          have hq := (quiet_attachListeners ha).trans (quiet_dequeue q t)
          rw [ha] at h
          change (q.dequeue t).yieldStart t events=.error p at h
          rw [yieldStart,hq.lock,hlock] at h
          cases h

theorem LockHeld.free (h : s.LockHeld) (ht : (s.waiters t).await=none) :
    (s.waiters t).yieldAwait=false := by
  rcases h t with hnone | ⟨⟨es,out,tries,hyield⟩,-⟩
  · exact hnone.2
  · rw [ht] at hyield
    cases hyield

theorem eventAwait_effect (hl : s.LockHeld) {events : List Nat}
    (hawait : (s.waiters s.sched.currentThread).await=none) :
    Effect s (.await events block) (s.panicOr (s.eventAwait s.sched.currentThread events block)) := by
  cases h : s.eventAwait s.sched.currentThread events block with
  | error p =>
    exact .panicked _ p (fun hp => absurd hp (eventAwait_error h (hl.free hawait)))
  | ok s' =>
    rcases eventAwait_cases h with ⟨i,e,hi,hpending,rfl⟩ | ⟨rfl,rfl⟩ | ⟨rfl,hnone,q,hq,hyield⟩
    · exact .taken events block i e hi hpending
    · exact .refused events
    · cases yieldStart_eq hyield
      exact .blocked events q hnone hq

theorem reacquire_effect (hl : s.LockHeld) {x : Except Panic EventSystem}
    (h : s.reacquire s.sched.currentThread=some x) : Effect s .reacquire (s.panicOr x) := by
  unfold reacquire at h
  split at h
  · rename_i events out tries hawait
    have hyield : s.InYield s.sched.currentThread := ⟨events,out,tries,hawait⟩
    rw [if_pos (hl.locked hyield)] at h
    split at h
    · cases h
      exact .panicked _ _ (fun _ => hyield)
    · cases h
      exact .spun events out (tries+1) (hl.locked hyield)
  · cases h

theorem schedCall_effect {l : SchedCall} {q : EventSystem} (h : (match l with
      | .tick _ => if 0 < s.sched.schedRun.toInt ∨ s.sched.justStarted then s else s.switchOut
      | _ => s)=q) (sched : Scheduler) : Effect s (.sched l) { q with sched := sched } := by
  have hq : q=s ∨ q=s.switchOut := by
    subst h
    split
    · split
      · exact .inl rfl
      · exact .inr rfl
    · exact .inl rfl
  rcases hq with rfl | rfl
  · exact .sched l sched
  · exact .switched l sched

theorem eventCall_effect (hl : s.LockHeld) (h : eventCall s c=some s') : Effect s c s' := by
  unfold eventCall at h
  dsimp only at h
  split at h
  · cases h
  · cases c with
    | sched l =>
      obtain ⟨sched,-,rfl⟩ := Option.map_eq_some_iff.mp h
      exact schedCall_effect rfl sched
    | trigger e drop =>
      cases h
      exact .trigger e drop
    | await events block =>
      dsimp only at h
      split at h
      · cases h
      · rename_i hidle
        cases h
        exact eventAwait_effect hl (Option.not_isSome_iff_eq_none.mp (not_or.mp hidle).2)
    | reacquire =>
      obtain ⟨-,h⟩ := Option.ite_none_left_eq_some.mp h
      obtain ⟨x,hx,rfl⟩ := Option.map_eq_some_iff.mp h
      exact reacquire_effect hl hx
    | awaitEnd =>
      -- nobody is behind Yield(true), so there is nothing to end
      obtain ⟨-,h⟩ := Option.ite_none_left_eq_some.mp h
      unfold awaitEnd at h
      split at h
      · rename_i events hawait
        exact absurd hawait (hl.not_resumed events)
      · cases h

theorem await_switchOut (s : EventSystem) (t : Nat) :
    (s.switchOut.waiters t).yieldAwait=(s.waiters t).yieldAwait ∧
    ((s.switchOut.waiters t).await=(s.waiters t).await ∨ s.InYield t ∧ s.switchOut.InYield t) := by
  unfold InYield switchOut
  rw [waiters_modifyWaiter]
  split
  · cases h : (s.waiters t).await with
    | none => exact ⟨by simp,.inl (by simp [h])⟩
    | some x =>
      obtain ⟨events,stage⟩ := x
      cases stage with
      | yielding out tries =>
        exact ⟨rfl,.inr ⟨⟨events,out,tries,rfl⟩,events,true,tries,rfl⟩⟩
      | resumed => exact ⟨rfl,.inl h⟩
  · exact ⟨rfl,.inl rfl⟩

def counted (s : EventSystem) (e : Nat) : EventSystem := { s with triggered := e::s.triggered }

theorem eventTrigger_unattended {e : Nat} (h : (s.events e).listeners=[]) :
    s.eventTrigger e false=
      (s.counted e).modifyEvent e (fun v => { v with pending := (v.pending+1)%2^64 }) :=
  if_pos h

theorem eventTrigger_attended {e : Nat} (h : (s.events e).listeners≠[]) :
    Quiet (s.counted e) (s.eventTrigger e false) := by
  have heq : s.eventTrigger e false=((s.events e).listeners.foldl wake (s.counted e)).modifyEvent e
      (fun v => { v with listeners := [] }) := if_neg h
  rw [heq]
  exact (quiet_wakeAll _ _).trans (quiet_modifyEvent (by intro; rfl) _ _)

theorem eventTrigger_drop (s : EventSystem) (e : Nat) : Quiet s (s.eventTrigger e true) := by
  by_cases h : (s.events e).listeners=[]
  · have heq : s.eventTrigger e true=s := if_pos h
    rw [heq]
    exact .refl s
  · have heq : s.eventTrigger e true=((s.events e).listeners.foldl wake s).modifyEvent e
      (fun v => { v with listeners := [] }) := if_neg h
    rw [heq]
    exact (quiet_wakeAll _ _).trans (quiet_modifyEvent (by intro; rfl) _ _)

theorem await_eventTrigger (s : EventSystem) (e : Nat) (drop : Bool) :
    (s.eventTrigger e drop).halted=s.halted ∧
    ∀ t, ((s.eventTrigger e drop).waiters t).yieldAwait=(s.waiters t).yieldAwait ∧
      ((s.eventTrigger e drop).waiters t).await=(s.waiters t).await := by
  cases drop with
  | true =>
    have hq := eventTrigger_drop s e
    exact ⟨hq.halted,fun t => ⟨hq.lock t,hq.await t⟩⟩
  | false =>
    by_cases h : (s.events e).listeners=[]
    · rw [eventTrigger_unattended h]
      exact ⟨rfl,fun _ => ⟨rfl,rfl⟩⟩
    · have hq := eventTrigger_attended h
      exact ⟨hq.halted,fun t => ⟨hq.lock t,hq.await t⟩⟩

theorem LockHeld.step (hl : s.LockHeld) (h : eventCall s c=some s') : s'.LockHeld := by
  cases eventCall_effect hl h with
  | sched l sched => exact hl
  | switched l sched =>
    intro t
    obtain ⟨hlock,hawait | ⟨hyield,hyield'⟩⟩ := await_switchOut s t
    · rcases hl t with ⟨hnone,hfree⟩ | ⟨hyield,hheld⟩
      · exact .inl ⟨hawait.trans hnone,hlock.trans hfree⟩
      · exact .inr ⟨(inYield_congr hawait).mpr hyield,hlock.trans hheld⟩
    · exact .inr ⟨hyield',hlock.trans (hl.locked hyield)⟩
  | trigger e drop =>
    have hwaiters := (await_eventTrigger s e drop).2
    exact hl.congr (fun t => (hwaiters t).1) (fun t => (hwaiters t).2)
  | taken events block i e hi hpending => exact hl
  | refused events => exact hl
  | blocked events q hnone hq =>
    exact (hl.congr hq.lock hq.await).modifyWaiter ⟨events,false,0,rfl,rfl⟩
  | spun events out tries hlock => exact hl.modifyWaiter ⟨events,out,tries,rfl,hlock⟩
  | panicked c p hp => exact hl

/-- A thread that has entered Yield(true) stays there. -/
theorem InYield.step (hl : s.LockHeld) (ht : s.InYield t) (h : eventCall s c=some s') :
    s'.InYield t := by
  cases eventCall_effect hl h with
  | sched l sched => exact ht
  | switched l sched =>
    rcases (await_switchOut s t).2 with hawait | ⟨-,hyield⟩
    · exact (inYield_congr hawait).mpr ht
    · exact hyield
  | trigger e drop => exact (inYield_congr ((await_eventTrigger s e drop).2 t).2).mpr ht
  | taken events block i e hi hpending => exact ht
  | refused events => exact ht
  | blocked events q hnone hq =>
    unfold InYield at ht ⊢
    rw [waiters_modifyWaiter]
    split
    · exact ⟨events,false,0,rfl⟩
    · rwa [hq.await]
  | spun events out tries hlock =>
    unfold InYield at ht ⊢
    rw [waiters_modifyWaiter]
    split
    · exact ⟨events,out,tries,rfl⟩
    · exact ht
  | panicked c p hp => exact ht

theorem lockHeld_reachable {s₀ : EventSystem} (hl : s₀.LockHeld) (hr : eventRuns.Reachable s₀ s) :
    s.LockHeld :=
  hr.invariant hl (fun _ _ _ hs h => LockHeld.step hs h)

theorem inYield_reachable {s₀ : EventSystem} (hl : s₀.LockHeld) (ht : s₀.InYield t)
    (hr : eventRuns.Reachable s₀ s) : s.InYield t ∧ (s.waiters t).yieldAwait=true := by
  have hboth : s.LockHeld ∧ s.InYield t :=
    hr.invariant (I := fun s => s.LockHeld ∧ s.InYield t) ⟨hl,ht⟩
      (fun _ _ _ hs h => ⟨hs.1.step h,hs.2.step hs.1 h⟩)
  exact ⟨hboth.2,hboth.1.locked hboth.2⟩

theorem eventCall_reacquire {events : List Nat} {out : Bool} {tries : Nat}
    (hhalted : s.halted=none) (hrun : s.sched.justStarted=false)
    (hlock : (s.waiters s.sched.currentThread).yieldAwait=true)
    (hawait : (s.waiters s.sched.currentThread).await=some (events,.yielding out tries)) :
    eventCall s .reacquire=some (if 100000000 < tries+1 then { s with halted := some .yieldDeadlock }
      else s.modifyWaiter s.sched.currentThread (fun w =>
        { w with await := some (events,.yielding out (tries+1)) })) := by
  simp only [eventCall,hhalted,hrun,Option.isSome_none,Bool.false_eq_true,if_false,reacquire,hawait,
    hlock,if_true]
  split <;> rfl

/-- The thread that runs spins there until the deadlock branch. -/
theorem reacquire_halts {n : Nat} {events : List Nat} {out : Bool} {tries : Nat}
    (hn : tries+n=100000000) (hhalted : s.halted=none) (hrun : s.sched.justStarted=false)
    (hlock : (s.waiters s.sched.currentThread).yieldAwait=true)
    (hawait : (s.waiters s.sched.currentThread).await=some (events,.yielding out tries)) :
    ∃ s', eventRuns.Reachable s s' ∧ s'.halted=some .yieldDeadlock := by
  induction n generalizing s tries with
  | zero =>
    have hcall := eventCall_reacquire hhalted hrun hlock hawait
    rw [if_pos (by omega)] at hcall
    exact ⟨_,.single ⟨.reacquire,hcall⟩,rfl⟩
  | succ n ih =>
    have hcall := eventCall_reacquire hhalted hrun hlock hawait
    rw [if_neg (by omega)] at hcall
    let next := s.modifyWaiter s.sched.currentThread (fun w =>
      { w with await := some (events,.yielding out (tries+1)) })
    have hnext : next.waiters s.sched.currentThread=
        { s.waiters s.sched.currentThread with await := some (events,.yielding out (tries+1)) } := by
      rw [waiters_modifyWaiter,if_pos rfl]
    obtain ⟨s',hr,hend⟩ := ih (s := next) (show (tries+1)+n=100000000 by omega) hhalted hrun
      ((congrArg Waiter.yieldAwait hnext).trans hlock) (congrArg Waiter.await hnext)
    exact ⟨s',.head ⟨.reacquire,hcall⟩ hr,hend⟩

end EventSystem

/-- An event_await does not have to block: it finds a trigger or is told not to. -/
def EventCall.Immediate (s : EventSystem) : EventCall → Prop
  | .await events block => block=true → ∃ e∈events, 0 < (s.events e).pending
  | _ => True

instance (s : EventSystem) : (c : EventCall) → Decidable (c.Immediate s)
  | .await _ _ => inferInstanceAs (Decidable (_ → _))
  | .sched _ => inferInstanceAs (Decidable True)
  | .trigger _ _ => inferInstanceAs (Decidable True)
  | .reacquire => inferInstanceAs (Decidable True)
  | .awaitEnd => inferInstanceAs (Decidable True)

namespace EventSystem

variable {s s' : EventSystem} {t : Nat}

/-- Nobody waits, and no thread has met a held yield_await. -/
structure Calm (s : EventSystem) : Prop where
  await : ∀ t, (s.waiters t).await=none
  lock : ∀ t, (s.waiters t).yieldAwait=false
  halted : s.halted≠some .yieldDeadlock

theorem Calm.lockHeld (h : s.Calm) : s.LockHeld := fun t => .inl ⟨h.await t,h.lock t⟩

theorem Calm.not_inYield (h : s.Calm) : ¬s.InYield t := by
  rintro ⟨events,out,tries,hawait⟩
  rw [h.await] at hawait
  cases hawait

theorem Calm.step (hs : s.Calm) (hc : c.Immediate s) (h : eventCall s c=some s') : s'.Calm := by
  cases eventCall_effect hs.lockHeld h with
  | sched l sched => exact ⟨hs.await,hs.lock,hs.halted⟩
  | switched l sched =>
    refine ⟨?_,?_,hs.halted⟩ <;> intro t
    · rcases (await_switchOut s t).2 with hawait | ⟨hyield,-⟩
      · exact hawait.trans (hs.await t)
      · exact absurd hyield hs.not_inYield
    · exact (await_switchOut s t).1.trans (hs.lock t)
  | trigger e drop =>
    obtain ⟨hhalted,hwaiters⟩ := await_eventTrigger s e drop
    exact ⟨fun t => (hwaiters t).2.trans (hs.await t),fun t => (hwaiters t).1.trans (hs.lock t),
      hhalted ▸ hs.halted⟩
  | taken events block i e hi hpending => exact ⟨hs.await,hs.lock,hs.halted⟩
  | refused events => exact hs
  | blocked events q hnone hq =>
    obtain ⟨e,he,hpending⟩ := hc rfl
    rw [hnone e he] at hpending
    cases hpending
  | spun events out tries hlock =>
    rw [hs.lock] at hlock
    cases hlock
  | panicked c p hp =>
    refine ⟨hs.await,hs.lock,?_⟩
    intro hend
    exact hs.not_inYield (hp (Option.some.inj hend))

theorem inYield_of_blocks (hl : s.LockHeld) (hc : ¬c.Immediate s) (h : eventCall s c=some s')
    (hend : s'.halted=none) : s'.InYield s.sched.currentThread := by
  cases eventCall_effect hl h with
  | sched l sched => exact absurd trivial hc
  | switched l sched => exact absurd trivial hc
  | trigger e drop => exact absurd trivial hc
  | taken events block i e hi hpending =>
    exact absurd (fun _ => ⟨e,List.mem_of_getElem? hi,hpending⟩) hc
  | refused events => exact absurd (fun hblock => by cases hblock) hc
  | blocked events q hnone hq =>
    refine ⟨events,false,0,?_⟩
    rw [waiters_modifyWaiter,if_pos rfl]
  | spun events out tries hlock => exact absurd trivial hc
  | panicked c p hp => cases hend

end EventSystem

/-- The second spinlock_acquire of Yield(true) finds the lock free as long as no event_await has
to block. Of a thread that did block it never does, whatever happens later. -/
theorem yield_await_free (sched : Scheduler) (s : EventSystem)
    (hr : (eventRuns.restrict EventCall.Immediate).Reachable (.boot sched) s) :
    (∀ t, s.SwitchedOut t → (s.waiters t).yieldAwait=false) ∧ s.halted≠some .yieldDeadlock ∧
    ∀ c s', ¬c.Immediate s → eventCall s c=some s' → s'.halted=none →
      ∀ s'', eventRuns.Reachable s' s'' → s''.InYield s.sched.currentThread ∧
        (s''.waiters s.sched.currentThread).yieldAwait=true := by
  have hcalm : s.Calm := hr.invariant ⟨fun _ => rfl,fun _ => rfl,by intro h; cases h⟩
    (fun _ _ _ hs h => EventSystem.Calm.step hs h.1 h.2)
  refine ⟨fun t _ => hcalm.lock t,hcalm.halted,?_⟩
  intro c s' hc h hend s'' hr'
  exact EventSystem.inYield_reachable (hcalm.lockHeld.step h)
    (EventSystem.inYield_of_blocks hcalm.lockHeld hc h hend) hr'

def oneThread : List EventCall :=
  [.sched .start,.sched (.create false 1 2 none),.sched (.tick .zero),.sched (.tick .zero)]

/-- A trigger that is already there is reported at once; the same call again would block for good. -/
theorem yield_await_free_pending : ∃ s s',
    (eventRuns.restrict EventCall.Immediate).Reachable (.boot (.init .zero 7 8)) s ∧
    s.reported=[0] ∧ s.halted≠some .yieldDeadlock ∧
    eventCall s (.await [0] true)=some s' ∧ (s'.waiters s.sched.currentThread).yieldAwait=true := by
  have hrun : (System.exec (fun s c => if EventCall.Immediate s c then eventCall s c else none)
      (.boot (.init .zero 7 8)) (oneThread++[.trigger 0 false,.await [0] true])).map (fun s =>
        (s.reported,decide (EventCall.Immediate s (.await [0] true)),
          (eventCall s (.await [0] true)).map EventSystem.halted))=some ([0],false,some none) := by
    decide +kernel
  obtain ⟨s,hs,hend⟩ := Option.map_eq_some_iff.mp hrun
  obtain ⟨hreported,hblocks,hnext⟩ : _ ∧ _ ∧ _ :=
    ⟨congrArg Prod.fst hend,congrArg (fun x => x.2.1) hend,congrArg (fun x => x.2.2) hend⟩
  obtain ⟨s',hs',hhalted⟩ := Option.map_eq_some_iff.mp hnext
  have hr := System.reachable_exec_restrict eventCall EventCall.Immediate _ _ _ hs
  obtain ⟨-,hfree,hlater⟩ := yield_await_free _ s hr
  exact ⟨s,s',hr,hreported,hfree,hs',
    (hlater _ s' (of_decide_eq_false hblocks) hs' hhalted s' .refl).2⟩

set_option synthInstance.maxSize 512 in
/-- Thread 1 blocks, is switched out, woken by the trigger and switched in again. It still holds
yield_await and spins on it until the deadlock branch. -/
theorem yield_await_held : ∃ s, eventRuns.Reachable (.boot (.init .zero 7 8)) s ∧
    s.sched.currentThread=1 ∧ s.SwitchedOut 1 ∧ (s.waiters 1).enqueued=true ∧
    (s.waiters 1).yieldAwait=true ∧ ∃ s', eventRuns.Reachable s s' ∧ s'.halted=some .yieldDeadlock := by
  have hrun : (System.exec eventCall (.boot (.init .zero 7 8)) (oneThread++
      [.await [0] true,.sched (.tick .zero),.trigger 0 false,.sched (.tick .zero)])).map (fun s =>
        (s.sched.currentThread,s.halted,s.sched.justStarted,(s.waiters 1).await,
          (s.waiters 1).enqueued,(s.waiters 1).yieldAwait))=
      some (1,none,false,some ([0],.yielding true 0),true,true) := by
    decide +kernel
  obtain ⟨s,hs,hend⟩ := Option.map_eq_some_iff.mp hrun
  simp only [Prod.mk.injEq] at hend
  obtain ⟨hcurrent,hhalted,hstarted,hawait,henqueued,hlock⟩ := hend
  refine ⟨s,System.reachable_exec eventCall _ _ _ hs,hcurrent,⟨[0],0,hawait⟩,henqueued,hlock,?_⟩
  rw [← hcurrent] at hawait hlock
  exact EventSystem.reacquire_halts (Nat.zero_add _) hhalted hstarted hlock hawait

end X64OS.Sched
