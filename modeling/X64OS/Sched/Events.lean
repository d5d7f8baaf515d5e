import X64OS.Sched.SchedRuns

namespace X64OS.Sched

open Framework

/-- struct event_listener; which is the place of the event in the array of the wait. -/
structure EventListener where
  thread : Nat
  which : Nat
  deriving DecidableEq

/-- struct event. Its lock is held with interrupts off only, so it is free between the steps. -/
structure Event where
  pending : Nat
  listeners : List EventListener

/-- Where a thread is in an event_await that blocks: in Yield(true), where it was switched out
or not and has tried so often to take yield_await again, or behind it. -/
inductive AwaitStage where
  | yielding (switchedOut : Bool) (tries : Nat)
  | resumed
  deriving DecidableEq

/-- What the event code uses of struct thread; await has the events of a wait that blocks. -/
structure Waiter where
  yieldAwait : Bool
  enqueued : Bool
  enqueuedBySignal : Bool
  whichEvent : Nat
  attachedEvents : List Nat
  await : Option (List Nat × AwaitStage)

inductive Panic where
  | listenersExhausted
  | tooManyEvents
  | eventDeadlock
  | yieldDeadlock
  deriving DecidableEq

/-- The threads, the events and running_queue without the order of its slots. triggered lists
the event_trigger calls without drop, reported the events whose index event_await returned. -/
structure EventSystem where
  sched : Scheduler
  events : Nat → Event
  waiters : Nat → Waiter
  runningQueue : List Nat
  halted : Option Panic
  triggered : List Nat
  reported : List Nat

namespace EventSystem

def boot (sched : Scheduler) : EventSystem :=
  ⟨sched,fun _ => ⟨0,[]⟩,fun _ => ⟨false,false,false,0,[],none⟩,[],none,[],[]⟩

section
variable (s : EventSystem)

def modifyEvent (e : Nat) (f : Event → Event) : EventSystem :=
  { s with events := Function.update s.events e (f (s.events e)) }

def modifyWaiter (t : Nat) (f : Waiter → Waiter) : EventSystem :=
  { s with waiters := Function.update s.waiters t (f (s.waiters t)) }

/-- event_await returns i to its caller. -/
def report (events : List Nat) (i : Nat) : EventSystem :=
  { s with reported := (events[i]?).toList++s.reported }

def enqueue (t : Nat) (bySignal : Bool) : EventSystem :=
  if (s.waiters t).enqueued then s
  else
    let s := s.modifyWaiter t (fun w => { w with enqueuedBySignal := bySignal })
    if s.runningQueue.length < 65536 then
      { s.modifyWaiter t (fun w => { w with enqueued := true }) with
        runningQueue := t::s.runningQueue }
    else s

def dequeue (t : Nat) : EventSystem :=
  if ¬(s.waiters t).enqueued then s
  else if t∈s.runningQueue then
    { s.modifyWaiter t (fun w => { w with enqueued := false }) with
      runningQueue := s.runningQueue.erase t }
  else s

end

def checkForPending (s : EventSystem) : List Nat → Nat → Option (Nat × EventSystem)
  | [],_ => none
  | e::es,i =>
    if 0 < (s.events e).pending then
      some (i,s.modifyEvent e (fun v => { v with pending := v.pending-1 }))
    else s.checkForPending es (i+1)

def attachFrom (t : Nat) : List Nat → Nat → EventSystem → Except Panic EventSystem
  | [],_,s => .ok s
  | e::es,i,s =>
    if (s.events e).listeners.length=32 then .error .listenersExhausted
    else
      let s := s.modifyEvent e (fun v => { v with listeners := v.listeners++[⟨t,i⟩] })
      if (s.waiters t).attachedEvents.length=32 then .error .tooManyEvents
      else
        attachFrom t es (i+1)
          (s.modifyWaiter t (fun w => { w with attachedEvents := w.attachedEvents++[e] }))

def attachListeners (s : EventSystem) (events : List Nat) (t : Nat) : Except Panic EventSystem :=
  attachFrom t events 0 (s.modifyWaiter t (fun w => { w with attachedEvents := [] }))

/-- One round of detach_listeners: the last listener takes the place of the thread's first. -/
def dropListener (t : Nat) (ls : List EventListener) : List EventListener :=
  match ls.findIdx? (fun l => l.thread=t),ls.getLast? with
  | some j,some l => (ls.set j l).dropLast
  | _,_ => ls

variable (s : EventSystem)

def detachListeners (t : Nat) : EventSystem :=
  let s := (s.waiters t).attachedEvents.foldl (fun s e =>
    s.modifyEvent e (fun v => { v with listeners := dropListener t v.listeners })) s
  s.modifyWaiter t (fun w => { w with attachedEvents := [] })

/-- Yield(true) up to its interrupt. With interrupts off nobody else can free the lock. -/
def yieldStart (t : Nat) (events : List Nat) : Except Panic EventSystem :=
  if (s.waiters t).yieldAwait then .error .yieldDeadlock
  else .ok (s.modifyWaiter t (fun w =>
    { w with yieldAwait := true, await := some (events,.yielding false 0) }))

/-- event_await, up to its Yield if it blocks. lock_events takes the lock of each event in turn,
so that an event that is there twice makes it spin on a lock that it holds. -/
def eventAwait (t : Nat) (events : List Nat) (block : Bool) : Except Panic EventSystem :=
  if ¬events.Nodup then .error .eventDeadlock
  else
    match s.checkForPending events 0 with
    | some (i,s) => .ok (s.report events i)
    | none =>
      if ¬block then .ok s
      else (s.attachListeners events t).bind (fun s => (s.dequeue t).yieldStart t events)

/-- One test of the second spinlock_acquire of Yield(true), with the release behind it: the test
before the loop and the 100000000 tests in it may fail. -/
def reacquire (t : Nat) : Option (Except Panic EventSystem) :=
  match (s.waiters t).await with
  | some (events,.yielding out tries) =>
    if (s.waiters t).yieldAwait then
      if 100000000 < tries+1 then some (.error .yieldDeadlock)
      else some (.ok (s.modifyWaiter t (fun w =>
        { w with await := some (events,.yielding out (tries+1)) })))
    else some (.ok (s.modifyWaiter t (fun w => { w with await := some (events,.resumed) })))
  | _ => none

/-- event_await behind its Yield. -/
def awaitEnd (t : Nat) : Option EventSystem :=
  match (s.waiters t).await with
  | some (events,.resumed) =>
    let s := if (s.waiters t).enqueuedBySignal then s else s.report events (s.waiters t).whichEvent
    some ((s.detachListeners t).modifyWaiter t (fun w => { w with await := none }))
  | _ => none

def wake (l : EventListener) : EventSystem :=
  (s.modifyWaiter l.thread (fun w => { w with whichEvent := l.which })).enqueue l.thread false

def eventTrigger (e : Nat) (drop : Bool) : EventSystem :=
  let s := if drop then s else { s with triggered := e::s.triggered }
  if (s.events e).listeners=[] then
    if drop then s else s.modifyEvent e (fun v => { v with pending := (v.pending+1)%2^64 })
  else
    ((s.events e).listeners.foldl wake s).modifyEvent e (fun v => { v with listeners := [] })

/-- A sched_tick that switches finds the running thread in Yield or not. -/
def switchOut : EventSystem :=
  s.modifyWaiter s.sched.currentThread (fun w =>
    match w.await with
    | some (events,.yielding _ tries) => { w with await := some (events,.yielding true tries) }
    | _ => w)

def panicOr : Except Panic EventSystem → EventSystem
  | .ok s' => s'
  | .error p => { s with halted := some p }

end EventSystem

/-- What can happen: a call of the scheduler, an event_trigger by anyone, or the running thread
calls event_await or goes on in one. -/
inductive EventCall where
  | sched (l : SchedCall)
  | trigger (e : Nat) (drop : Bool)
  | await (events : List Nat) (block : Bool)
  | reacquire
  | awaitEnd

/-- Before the first tick no thread runs, and after a panic nothing does. -/
def eventCall (s : EventSystem) (c : EventCall) : Option EventSystem :=
  let t := s.sched.currentThread
  if s.halted.isSome then none
  else
    match c with
    | .sched l =>
      let s := match l with
        | .tick _ => if 0 < s.sched.schedRun.toInt ∨ s.sched.justStarted then s else s.switchOut
        | _ => s
      (schedCall s.sched l).map (fun sched => { s with sched := sched })
    | .trigger e drop => some (s.eventTrigger e drop)
    | .await events block =>
      if s.sched.justStarted ∨ (s.waiters t).await.isSome then none
      else some (s.panicOr (s.eventAwait t events block))
    | .reacquire => if s.sched.justStarted then none else (s.reacquire t).map s.panicOr
    | .awaitEnd => if s.sched.justStarted then none else s.awaitEnd t

def eventRuns : System EventSystem EventCall := System.ofPartial eventCall

end X64OS.Sched
