import X64OS.Framework.Refinement
import X64OS.Framework.Rotation
import X64OS.Sched.SchedRuns

namespace X64OS.Sched

open Framework

/-- What happens to the threads: one is made with its first registers, a tick saves
registers and returns with the ones it loaded to a thread, or a thread gets a state. -/
inductive SchedEvent where
  | created (thr : Nat) (regs : CpuCtx)
  | switched (saved : CpuCtx) (thr : Nat) (loaded : CpuCtx)
  | marked (thr : Nat) (state : ThreadState)
  deriving DecidableEq

def switching : System Scheduler SchedEvent where
  step s e s' :=
    match e with
    | .created thr regs => thr=s.made ∧ ∃ usermode entry stack rsp,
        regs=Scheduler.initialRegs usermode entry stack rsp ∧
        s.createThread usermode entry stack rsp=some s'
    | .switched saved thr loaded =>
        s.schedRun=0 ∧ s.schedTick saved=some (loaded,s') ∧ thr=s'.currentThread
    | .marked thr state => ¬state.Skipped ∧ s'=s.setState thr state

/-- The thread that the latest tick returned to. -/
def runningIn : List SchedEvent → Option Nat
  | [] => none
  | .switched _ thr _::_ => some thr
  | .created _ _::h => runningIn h
  | .marked _ _::h => runningIn h

def contextIn (thr : Nat) : List SchedEvent → Option CpuCtx
  | [] => none
  | .switched saved _ _::h => if runningIn h=some thr then some saved else contextIn thr h
  | .created t regs::h => if t=thr then some regs else contextIn thr h
  | .marked _ _::h => contextIn thr h

def madeIn : List SchedEvent → List Nat
  | [] => []
  | .created thr _::h => madeIn h++[thr]
  | .switched _ _ _::h => madeIn h
  | .marked _ _::h => madeIn h

def resumedIn : List SchedEvent → List Nat
  | [] => []
  | .switched _ thr _::h => thr::resumedIn h
  | .created _ _::h => resumedIn h
  | .marked _ _::h => resumedIn h

namespace Scheduler

variable {s s' : Scheduler}

structure Ticked (s : Scheduler) (saved : CpuCtx) (s' : Scheduler) : Prop where
  links : SameLinks s s'
  current : s'.currentThread=s.nextOf (if s.justStarted then s.prevOf s.currentThread else s.currentThread)
  schedRun : s'.schedRun=s.schedRun
  justStarted : s'.justStarted=false
  regs : ∀ i, (s'.threads i).regs=
    if i=s.currentThread ∧ s.justStarted=false then saved else (s.threads i).regs
  state : ∀ i, ¬(s'.threads i).state.Skipped

theorem skip_self (h : ¬(s.threads s.currentThread).state.Skipped) (n : Nat) :
    Scheduler.skip (n+1) s=some s := by
  unfold Scheduler.skip
  split
  · rename_i hst
    exact absurd (.inl hst) h
  · rename_i hst
    exact absurd (.inr hst) h
  · rfl

theorem setState_runnable (hstate : ∀ i, ¬(s.threads i).state.Skipped) {state : ThreadState}
    (h : ¬state.Skipped) (i j : Nat) : ¬((s.setState i state).threads j).state.Skipped := by
  rw [Scheduler.setState,threads_modify]
  split
  · exact h
  · exact hstate j

theorem regs_setState (s : Scheduler) (i : Nat) (state : ThreadState) (j : Nat) :
    ((s.setState i state).threads j).regs=(s.threads j).regs :=
  field_modify Thread.regs (by intro; rfl) s i j

theorem regs_setRegs (s : Scheduler) (i : Nat) (regs : CpuCtx) (j : Nat) :
    ((s.setRegs i regs).threads j).regs=if j=i then regs else (s.threads j).regs := by
  rw [setRegs,threads_modify]
  split <;> rfl

theorem ticked_preempt (hstate : ∀ i, ¬(s.threads i).state.Skipped) (saved : CpuCtx) :
    Ticked s saved (s.preempt saved) := by
  have hsleep : ¬ThreadState.sleep.Skipped := by decide
  unfold preempt
  by_cases hj : s.justStarted=true
  · rw [if_pos hj]
    dsimp only
    generalize ht : ({ s with justStarted := false, currentThread := s.prevOf s.currentThread } :
      Scheduler)=t
    have hlinks := sameLinks_setState t t.currentThread .sleep
    subst ht
    refine ⟨⟨hlinks.next,hlinks.prev,hlinks.pid,rfl,rfl,rfl,rfl⟩,?_,rfl,rfl,?_,?_⟩
    · rw [if_pos hj]
      exact hlinks.next _
    · intro i
      rw [if_neg (by simp [hj])]
      exact regs_setState _ _ _ i
    · have hstate' : ∀ i, ¬(({ s with justStarted := false, currentThread := s.prevOf s.currentThread } :
          Scheduler).threads i).state.Skipped := hstate
      exact fun i => setState_runnable hstate' hsleep _ i
  · rw [if_neg hj]
    dsimp only
    have hj' : s.justStarted=false := by simpa using hj
    have hlinks := (sameLinks_setRegs s s.currentThread saved).trans
      (sameLinks_setState _ s.currentThread .sleep)
    refine ⟨⟨hlinks.next,hlinks.prev,hlinks.pid,rfl,rfl,rfl,rfl⟩,?_,rfl,hj',?_,?_⟩
    · rw [if_neg hj]
      exact hlinks.next _
    · intro i
      have h := (regs_setState (s.setRegs s.currentThread saved) s.currentThread .sleep i).trans
        (regs_setRegs s s.currentThread saved i)
      simp only [hj',and_true]
      exact h
    · have hregs' : ∀ i, ¬((s.setRegs s.currentThread saved).threads i).state.Skipped := by
        intro i
        rw [setRegs,field_modify Thread.state (by intro; rfl)]
        exact hstate i
      exact fun i => setState_runnable hregs' hsleep _ i

theorem schedTick_ticked (hrun : s.schedRun=0) (hstate : ∀ i, ¬(s.threads i).state.Skipped)
    (saved : CpuCtx) :
    ∃ s', s.schedTick saved=some ((s'.threads s'.currentThread).regs,s') ∧ Ticked s saved s' := by
  have hp := ticked_preempt hstate saved
  have hskip := skip_self (hp.state (s.preempt saved).currentThread) s.made
  have hlinks := hp.links.trans (sameLinks_setState _ (s.preempt saved).currentThread .running)
  have hregs := regs_setState (s.preempt saved) (s.preempt saved).currentThread .running
  refine ⟨(s.preempt saved).setState (s.preempt saved).currentThread .running,?_,?_⟩
  · rw [schedTick,if_neg (by rw [hrun]; decide),hskip,Option.map_some]
    exact congrArg some (Prod.ext (hregs _).symm rfl)
  · refine ⟨hlinks,hp.current,hp.schedRun,hp.justStarted,?_,?_⟩
    · exact fun i => (hregs i).trans (hp.regs i)
    · exact fun i => setState_runnable hp.state (by decide) _ i

structure After (h : List SchedEvent) (s : Scheduler) : Prop where
  ring : s.ThreadRing
  schedRun : s.schedRun=0
  state : ∀ i, ¬(s.threads i).state.Skipped
  running : runningIn h=if s.justStarted then none else some s.currentThread
  first : s.justStarted=true → s.currentThread=s.rootThread
  context : ∀ i∈s.linked, contextIn i h=some (s.threads i).regs
  made : madeIn h=s.linked

variable {h : List SchedEvent}

theorem after_init (regs : CpuCtx) (idle stack : BitVec 64) :
    After [.created 0 (setupSchedState regs false idle stack)] (init regs idle stack).start where
  ring := (threadList_init regs idle stack).toThreadRing.of_same
    ⟨fun _ => rfl,fun _ => rfl,fun _ => rfl,rfl,rfl,rfl,rfl⟩ (List.mem_singleton_self 0)
  schedRun := by
    show (1-1 : BitVec 8)=0
    decide
  state := by
    intro i
    show ¬ThreadState.new.Skipped
    decide
  running := rfl
  first _ := rfl
  context := by
    intro i hi
    rw [List.mem_singleton.mp hi]
    rfl
  made := rfl

section
variable (hs : After h s)
include hs

theorem After.created {regs : CpuCtx} (hring : s'.ThreadRing) (hc : Created s regs s') :
    After (.created s.made regs::h) s' where
  ring := hring
  schedRun := hc.same.schedRun.trans hs.schedRun
  state := by
    intro i
    rw [hc.same.state]
    by_cases hi : i=s.made
    · rw [hi,threads_newThread_self]
      show ¬ThreadState.new.Skipped
      decide
    · rw [threads_newThread s regs hi]
      exact hs.state i
  running := by
    rw [hc.same.justStarted,hc.same.current]
    exact hs.running
  first := by
    rw [hc.same.justStarted,hc.same.current,hc.same.root]
    exact hs.first
  context := by
    intro i hi
    rw [hc.linked] at hi
    rw [contextIn,hc.same.regs]
    by_cases hi' : i=s.made
    · rw [hi',if_pos rfl,threads_newThread_self]
    · rw [if_neg (Ne.symm hi'),threads_newThread s regs hi']
      refine hs.context i ((List.mem_append.mp hi).resolve_right ?_)
      exact fun hmem => hi' (List.mem_singleton.mp hmem)
  made := by rw [madeIn,hs.made,hc.linked]

theorem After.current_mem {saved : CpuCtx} (ht : Ticked s saved s') :
    s'.currentThread∈s.linked := by
  rw [ht.current]
  split
  · exact hs.ring.next_mem (hs.ring.prev_mem hs.ring.current)
  · exact hs.ring.next_mem hs.ring.current

theorem After.switched {saved loaded : CpuCtx} (ht : Ticked s saved s') :
    After (.switched saved s'.currentThread loaded::h) s' where
  ring := hs.ring.of_same ht.links (hs.current_mem ht)
  schedRun := ht.schedRun.trans hs.schedRun
  state := ht.state
  running := by
    rw [ht.justStarted]
    rfl
  first hj := by
    rw [ht.justStarted] at hj
    cases hj
  context := by
    intro i hi
    rw [ht.links.linked] at hi
    rw [contextIn,hs.running,ht.regs,hs.context i hi]
    cases s.justStarted with
    | true => simp
    | false =>
      by_cases hi' : i=s.currentThread
      · simp [hi']
      · simp [hi',Ne.symm hi']
  made := by rw [madeIn,hs.made,ht.links.linked]

theorem After.marked {i : Nat} {state : ThreadState} (hstate : ¬state.Skipped) :
    After (.marked i state::h) (s.setState i state) where
  ring := hs.ring.of_same (sameLinks_setState s i state) hs.ring.current
  schedRun := hs.schedRun
  state := setState_runnable hs.state hstate i
  running := hs.running
  first := hs.first
  context := by
    intro j hj
    rw [regs_setState]
    exact hs.context j hj
  made := hs.made

theorem After.step {e : SchedEvent} (hstep : switching.step s e s') : After (e::h) s' := by
  cases e with
  | created thr regs =>
    obtain ⟨rfl,usermode,entry,stack,rsp,rfl,hc⟩ := hstep
    obtain ⟨t,ht,hring,hcreated⟩ := hs.ring.createThread usermode entry stack rsp
    cases ht.symm.trans hc
    exact hs.created hring hcreated
  | switched saved thr loaded =>
    obtain ⟨-,htick,rfl⟩ := hstep
    obtain ⟨t,ht,hticked⟩ := schedTick_ticked hs.schedRun hs.state saved
    cases ht.symm.trans htick
    exact hs.switched hticked
  | marked thr state =>
    obtain ⟨hstate,rfl⟩ := hstep
    exact hs.marked hstate

end

theorem ThreadRing.get_next (hs : s.ThreadRing) {p c : Nat} (hp : s.linked[p]?=some c) :
    s.linked[ringNext s.linked.length p]?=some (s.nextOf c) := by
  obtain ⟨hlt,rfl⟩ := List.getElem?_eq_some_iff.mp hp
  have hsplit : s.linked=s.linked.take p++s.linked[p]::s.linked.drop (p+1) := by
    rw [List.getElem_cons_drop,List.take_append_drop]
  rw [hs.nextOf_eq hsplit,List.head?_drop,ringNext]
  split
  · rename_i hlast
    rw [List.getElem?_eq_none (Nat.le_of_eq hlast.symm)]
    obtain ⟨rest,hlinked,-⟩ := hs.ring
    rw [hlinked]
    rfl
  · rename_i hlast
    have hlt' : p+1 < s.linked.length := by omega
    rw [List.getElem?_eq_getElem hlt']
    rfl

/-- The scheduler as a rotation of its threads, from the first tick on. -/
structure Rotates (s : Scheduler) (a : Rotation Nat) : Prop where
  after : ∃ h, After h s
  started : s.justStarted=false
  members : a.members=s.linked
  turn : a.members[a.turn]?=some s.currentThread

def turnOf : SchedEvent → Option (Turn Nat)
  | .created thr _ => some (.joined thr)
  | .switched _ thr _ => some (.taken thr)
  | .marked _ _ => none

theorem takenBy_turnOf (h : List SchedEvent) : takenBy (h.filterMap turnOf)=resumedIn h := by
  induction h with
  | nil => rfl
  | cons e h ih =>
    cases e with
    | created thr regs => exact ih
    | switched saved thr loaded => exact congrArg (List.cons thr) ih
    | marked thr state => exact ih

theorem Rotates.step {a : Rotation Nat} {e : SchedEvent} (hs : Rotates s a)
    (hstep : switching.step s e s') :
    ∃ b, Rotates s' b ∧ (rotation Nat).StepOrStay a (turnOf e) b := by
  obtain ⟨h,hafter⟩ := hs.after
  have hafter' := hafter.step hstep
  cases e with
  | created thr regs =>
    obtain ⟨rfl,usermode,entry,stack,rsp,rfl,hc⟩ := hstep
    obtain ⟨t,ht,hring,hcreated⟩ := hafter.ring.createThread usermode entry stack rsp
    cases ht.symm.trans hc
    refine ⟨⟨a.members++[s.made],a.turn⟩,⟨⟨_,hafter'⟩,?_,?_,?_⟩,?_,rfl⟩
    · rw [hcreated.same.justStarted]
      exact hs.started
    · rw [hcreated.linked,hs.members]
    · rw [hcreated.same.current]
      exact List.getElem?_append_left (List.getElem?_eq_some_iff.mp hs.turn).1 ▸ hs.turn
    · rw [hs.members]
      exact fun hmem => Nat.lt_irrefl _ (hafter.ring.made _ hmem)
  | switched saved thr loaded =>
    obtain ⟨-,htick,rfl⟩ := hstep
    obtain ⟨t,ht,hticked⟩ := schedTick_ticked hafter.schedRun hafter.state saved
    cases ht.symm.trans htick
    have hturn : a.members[ringNext a.members.length a.turn]?=some s'.currentThread := by
      rw [hticked.current,hs.started,hs.members]
      refine hafter.ring.get_next ?_
      rw [← hs.members]
      exact hs.turn
    refine ⟨⟨a.members,ringNext a.members.length a.turn⟩,⟨⟨_,hafter'⟩,?_,?_,hturn⟩,rfl,hturn⟩
    · exact hticked.justStarted
    · rw [hticked.links.linked,hs.members]
  | marked thr state =>
    obtain ⟨-,rfl⟩ := hstep
    exact ⟨a,⟨⟨_,hafter'⟩,hs.started,hs.members,hs.turn⟩,rfl⟩

end Scheduler

section Switches

variable {regs : CpuCtx} {idle stack : BitVec 64} {s : Scheduler} {later before : List SchedEvent}
  {saved loaded : CpuCtx} {thr : Nat}

theorem Scheduler.after_run {h : List SchedEvent}
    (hr : switching.Run (Scheduler.init regs idle stack).start h s) :
    Scheduler.After (h++[.created 0 (setupSchedState regs false idle stack)]) s := by
  refine hr.invariant (I := fun h s =>
    Scheduler.After (h++[.created 0 (setupSchedState regs false idle stack)]) s) ?_ ?_
  · exact Scheduler.after_init regs idle stack
  · exact fun h s l t hs hl => hs.step hl

theorem switched_context (hr : switching.Run (Scheduler.init regs idle stack).start
      (later++.switched saved thr loaded::before) s) :
    contextIn thr (.switched saved thr loaded::before++
      [.created 0 (setupSchedState regs false idle stack)])=some loaded := by
  obtain ⟨t,ht,-⟩ := hr.split
  have htafter := Scheduler.after_run ht
  cases ht with
  | cons hu hstep =>
    obtain ⟨-,htick,rfl⟩ := hstep
    have hu' := Scheduler.after_run hu
    obtain ⟨t',ht',-⟩ := Scheduler.schedTick_ticked hu'.schedRun hu'.state saved
    cases ht'.symm.trans htick
    exact htafter.context _ htafter.ring.current

theorem resumed_once {saved₁ loaded₁ saved₀ loaded₀ : CpuCtx} {between : List SchedEvent}
    (hr : switching.Run (Scheduler.init regs idle stack).start
      (later++.switched saved₁ thr loaded₁::(between++.switched saved₀ thr loaded₀::before)) s)
    (hbetween : thr∉resumedIn between) {other : Nat}
    (hother : other∈madeIn (before++[.created 0 (setupSchedState regs false idle stack)]))
    (hne : other≠thr) : (resumedIn between).count other=1 := by
  obtain ⟨s₃,hr₃,-⟩ := hr.split
  cases hr₃ with
  | @cons _ s₂ _ _ hr₂ hstep =>
    obtain ⟨s₁,hr₁,hmid⟩ := hr₂.split
    have hs₁ := Scheduler.after_run hr₁
    cases hr₁ with
    | @cons _ s₀ _ _ hr₀ hstep₀ =>
      obtain ⟨-,htick,rfl⟩ := hstep₀
      have hs₀ := Scheduler.after_run hr₀
      obtain ⟨t,ht,hticked⟩ := Scheduler.schedTick_ticked hs₀.schedRun hs₀.state saved₀
      cases ht.symm.trans htick
      obtain ⟨p,hp⟩ := List.mem_iff_getElem?.mp hs₁.ring.current
      have hrot : Scheduler.Rotates s₁ ⟨s₁.linked,p⟩ := ⟨⟨_,hs₁⟩,hticked.justStarted,rfl,hp⟩
      obtain ⟨a,ha,hrun⟩ : ∃ a, Scheduler.Rotates s₂ a ∧
          (rotation Nat).Run ⟨s₁.linked,p⟩ (between.filterMap Scheduler.turnOf) a :=
        System.Run.simulates (fun _ _ _ _ h hl => h.step hl) hmid hrot
      obtain ⟨b,-,hb⟩ := ha.step hstep
      rw [← Scheduler.takenBy_turnOf] at hbetween ⊢
      refine rotation_fair hs₁.ring.nodup hp hrun hbetween hb ?_ hne
      rw [← hs₁.made]
      exact hother

end Switches

/-- Whenever a thread is resumed it gets the registers that were saved when it was last
preempted, or its first ones; between two resumptions of a thread every other one that
was in the list at the first is resumed once. -/
theorem sched_switches (regs : CpuCtx) (idle stack : BitVec 64) (h : List SchedEvent) (s : Scheduler)
    (hr : switching.Run (Scheduler.init regs idle stack).start h s) :
    let root := [SchedEvent.created 0 (setupSchedState regs false idle stack)]
    s.linked=madeIn (h++root) ∧
    (∀ later saved thr loaded before, h=later++.switched saved thr loaded::before →
      contextIn thr (.switched saved thr loaded::before++root)=some loaded) ∧
    (∀ later thr saved₁ loaded₁ between saved₀ loaded₀ before,
      h=later++.switched saved₁ thr loaded₁::(between++.switched saved₀ thr loaded₀::before) →
      thr∉resumedIn between →
      ∀ other∈madeIn (before++root), other≠thr → (resumedIn between).count other=1) ∧
    (∀ saved, (s.schedTick saved).isSome) ∧
    ∀ usermode entry stack rsp, (s.createThread usermode entry stack rsp).isSome := by
  intro root
  have hs := Scheduler.after_run hr
  refine ⟨hs.made.symm,?_,?_,?_,?_⟩
  · rintro later saved thr loaded before rfl
    exact switched_context hr
  · rintro later thr saved₁ loaded₁ between saved₀ loaded₀ before rfl hbetween other hother hne
    exact resumed_once hr hbetween hother hne
  · intro saved
    obtain ⟨t,ht,-⟩ := Scheduler.schedTick_ticked hs.schedRun hs.state saved
    rw [ht]
    rfl
  · intro usermode entry stack rsp
    obtain ⟨t,ht,-⟩ := hs.ring.createThread usermode entry stack rsp
    rw [ht]
    rfl

def switchCall (s : Scheduler) : Option CpuCtx → Option (SchedEvent × Scheduler)
  | none => (s.createThread false 1 2 none).map (fun t =>
      (.created s.made (Scheduler.initialRegs false 1 2 none),t))
  | some saved =>
    if s.schedRun=0 then
      (s.schedTick saved).map (fun x => (.switched saved x.2.currentThread x.1,x.2))
    else none

theorem switchCall_step (s : Scheduler) (l : Option CpuCtx) (e : SchedEvent) (t : Scheduler)
    (h : switchCall s l=some (e,t)) : switching.step s e t := by
  cases l with
  | none =>
    obtain ⟨u,hu,he⟩ := Option.map_eq_some_iff.mp h
    cases he
    exact ⟨rfl,_,_,_,_,rfl,hu⟩
  | some saved =>
    obtain ⟨hrun,h⟩ := Option.ite_none_right_eq_some.mp h
    obtain ⟨x,hx,he⟩ := Option.map_eq_some_iff.mp h
    cases he
    exact ⟨hrun,hx,rfl⟩

def raxCtx (n : Nat) : CpuCtx := { CpuCtx.zero with rax := BitVec.ofNat 64 n }

def threeThreads : List SchedEvent :=
  let first := Scheduler.initialRegs false 1 2 none
  [.switched (raxCtx 1) 0 (setupSchedState .zero false 7 8),.created 1 first,
    .switched (raxCtx 2) 1 first,.created 2 first,.switched (raxCtx 3) 2 first,
    .switched (raxCtx 4) 0 (raxCtx 2),.switched (raxCtx 5) 1 (raxCtx 3)]

theorem sched_switches_threeThreads : ∃ s,
    switching.Run (Scheduler.init .zero 7 8).start threeThreads.reverse s ∧
    contextIn 1 (threeThreads.reverse++[.created 0 (setupSchedState .zero false 7 8)])=
      some (raxCtx 3) ∧
    (resumedIn ((threeThreads.drop 3).dropLast.reverse)).count 0=1 := by
  have hrun : (trace switchCall (Scheduler.init .zero 7 8).start
      [some (raxCtx 1),none,some (raxCtx 2),none,some (raxCtx 3),some (raxCtx 4),
        some (raxCtx 5)]).map Prod.fst=some threeThreads := by
    decide +kernel
  obtain ⟨⟨es,s⟩,hs,he⟩ := Option.map_eq_some_iff.mp hrun
  cases he
  have hr := trace_run (S := switching) switchCall_step hs
  obtain ⟨-,hcontext,hfair,-⟩ := sched_switches _ _ _ _ s hr
  refine ⟨s,hr,hcontext [] _ _ _ _ rfl,?_⟩
  exact hfair [] 1 _ _ (threeThreads.drop 3).dropLast.reverse _ _ _ rfl (by decide) 0 (by decide)
    (by decide)

end X64OS.Sched
