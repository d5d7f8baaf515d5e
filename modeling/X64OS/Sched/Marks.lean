import X64OS.Sched.SchedRuns

namespace X64OS.Sched

open Framework
open Option (map_eq_some_iff bind_eq_some_iff)

namespace Scheduler

variable {s s' : Scheduler} {thr : Nat}

section
variable (s : Scheduler)

/-- The thread on which the next tick that does something writes STATE_SLEEP. -/
def sleeper : Nat := if s.justStarted then s.prevOf s.currentThread else s.currentThread

theorem state_setState (i : Nat) (state : ThreadState) (j : Nat) :
    ((s.setState i state).threads j).state=if j=i then state else (s.threads j).state := by
  rw [setState,threads_modify]
  split <;> rfl

theorem state_setRegs (i : Nat) (regs : CpuCtx) (j : Nat) :
    ((s.setRegs i regs).threads j).state=(s.threads j).state :=
  field_modify Thread.state (by intro; rfl) _ _ _

theorem sleeper_setState (i : Nat) (state : ThreadState) :
    (s.setState i state).sleeper=s.sleeper := by
  unfold sleeper
  rw [(sameLinks_setState s i state).prev]
  rfl

theorem state_preempt (regs : CpuCtx) (i : Nat) :
    ((s.preempt regs).threads i).state=if i=s.sleeper then .sleep else (s.threads i).state := by
  unfold preempt sleeper
  split
  · exact state_setState _ _ _ _
  · refine (state_setState _ _ _ _).trans ?_
    rw [state_setRegs]
    rfl

theorem justStarted_preempt (regs : CpuCtx) : (s.preempt regs).justStarted=false := by
  unfold preempt
  split
  · rfl
  · rename_i h
    exact Bool.eq_false_iff.mpr h

end

theorem skip_states {n : Nat} (h : skip n s=some s') :
    (∀ i, (s'.threads i).state=(s.threads i).state) ∧ s'.justStarted=s.justStarted ∧
      s'.made=s.made ∧ ¬(s'.threads s'.currentThread).state.Skipped := by
  induction n generalizing s with
  | zero => cases h
  | succ n ih =>
    unfold skip at h
    split at h
    · have hnext := ih h
      exact hnext
    · obtain ⟨t,ht,h⟩ := bind_eq_some_iff.mp h
      have hsame := sameThreads_remove ht
      obtain ⟨hstate,hjust,hmade,hrun⟩ := ih h
      exact ⟨fun i => (hstate i).trans (hsame.state i),hjust.trans hsame.justStarted,
        hmade.trans hsame.made,hrun⟩
    · rename_i h1 h2
      cases h
      exact ⟨fun _ => rfl,rfl,rfl,fun h => h.elim h1 h2⟩

structure Switched (s s' : Scheduler) : Prop where
  state : ∀ i, (s'.threads i).state=
    if i=s'.currentThread then .running else if i=s.sleeper then .sleep else (s.threads i).state
  chosen : s'.currentThread=s.sleeper ∨ ¬(s.threads s'.currentThread).state.Skipped
  justStarted : s'.justStarted=false
  made : s'.made=s.made

theorem schedTick_switched {regs : CpuCtx} {x : CpuCtx × Scheduler} (hrun : ¬0 < s.schedRun.toInt)
    (h : s.schedTick regs=some x) : Switched s x.2 := by
  rw [schedTick,if_neg hrun] at h
  obtain ⟨t,ht,rfl⟩ := map_eq_some_iff.mp h
  obtain ⟨hstate,hjust,hmade,hchosen⟩ := skip_states ht
  refine ⟨?_,?_,hjust.trans (justStarted_preempt s regs),hmade.trans (made_preempt s regs)⟩
  · intro i
    refine (state_setState _ _ _ _).trans ?_
    rw [hstate,state_preempt]
    rfl
  · rw [hstate,state_preempt] at hchosen
    by_cases hc : t.currentThread=s.sleeper
    · exact .inl hc
    · rw [if_neg hc] at hchosen
      exact .inr hchosen

/-- A mark that the next tick does not write over. -/
structure Marked (s : Scheduler) (thr : Nat) : Prop where
  skipped : (s.threads thr).state.Skipped
  sleeper : thr≠s.sleeper
  made : thr < s.made

variable (h : s.Marked thr)
include h

theorem Marked.switched (hs : Switched s s') : thr≠s'.currentThread ∧ s'.Marked thr := by
  have hne : thr≠s'.currentThread := by
    rintro rfl
    exact hs.chosen.elim h.sleeper (fun hn => hn h.skipped)
  refine ⟨hne,?_,?_,hs.made ▸ h.made⟩
  · rw [hs.state,if_neg hne,if_neg h.sleeper]
    exact h.skipped
  · rw [Scheduler.sleeper,hs.justStarted]
    exact hne

theorem Marked.tick {regs : CpuCtx} {x : CpuCtx × Scheduler} (hx : s.schedTick regs=some x) :
    x.2.Marked thr ∧ (¬0 < s.schedRun.toInt → thr≠x.2.currentThread) := by
  by_cases hrun : 0 < s.schedRun.toInt
  · rw [schedTick,if_pos hrun] at hx
    cases hx
    exact ⟨h,fun hn => absurd hrun hn⟩
  · obtain ⟨hne,hmarked⟩ := h.switched (schedTick_switched hrun hx)
    exact ⟨hmarked,fun _ => hne⟩

theorem Marked.createThread (hs : s.ThreadList) {usermode : Bool} {entry stack : BitVec 64}
    {rsp : Option (BitVec 64)} (hc : s.createThread usermode entry stack rsp=some s') :
    s'.Marked thr := by
  have hcur := hs.made _ hs.current
  obtain ⟨tmp,-,rfl⟩ := map_eq_some_iff.mp hc
  generalize initialRegs usermode entry stack rsp=regs
  have hsame := sameThreads_insertAfter (s.newThread regs) tmp s.made
  refine ⟨?_,?_,?_⟩
  · rw [hsame.state,threads_newThread s regs (Nat.ne_of_lt h.made)]
    exact h.skipped
  · have hold := h.sleeper
    have hnew : (s.newThread regs).prevOf s.currentThread=s.prevOf s.currentThread := by
      rw [prevOf,threads_newThread s regs (Nat.ne_of_lt hcur)]
      rfl
    unfold Scheduler.sleeper at hold ⊢
    rw [hsame.justStarted,hsame.current,prevOf_insertAfter]
    show thr≠if s.justStarted=true then (if s.currentThread=s.rootThread then s.made
      else if s.currentThread=s.made then tmp else (s.newThread regs).prevOf s.currentThread)
      else s.currentThread
    rw [if_neg (Nat.ne_of_lt hcur),hnew]
    split
    · split
      · exact Nat.ne_of_lt h.made
      · rename_i hjust _
        rwa [if_pos hjust] at hold
    · rename_i hjust
      rwa [if_neg hjust] at hold
  · rw [hsame.made]
    exact Nat.lt_succ_of_lt h.made

theorem Marked.remove {pid : Nat} (hjust : s.justStarted=false)
    (hr : s.removeAndDestroyThread pid=some s') : s'.Marked thr := by
  have hsame := sameThreads_remove hr
  have hold := h.sleeper
  rw [Scheduler.sleeper,hjust] at hold
  refine ⟨?_,?_,hsame.made ▸ h.made⟩
  · rw [hsame.state]
    exact h.skipped
  · rw [Scheduler.sleeper,hsame.justStarted,hjust,hsame.current]
    exact hold

theorem Marked.setState {i : Nat} {state : ThreadState} (hback : i=thr → state.Skipped) :
    (s.setState i state).Marked thr := by
  refine ⟨?_,?_,h.made⟩
  · rw [state_setState]
    split
    · rename_i hi
      exact hback hi.symm
    · exact h.skipped
  · rw [sleeper_setState]
    exact h.sleeper

end Scheduler

/-- A mark goes to a thread that is there and that the next tick does not put to
sleep; no thread is removed before the first tick. -/
def SchedCall.Careful (s : Scheduler) : SchedCall → Prop
  | .setState thr state => state.Skipped → thr < s.made ∧ thr≠s.sleeper
  | .remove _ => s.justStarted=false
  | _ => True

instance (s : Scheduler) : (l : SchedCall) → Decidable (l.Careful s)
  | .create .. => inferInstanceAs (Decidable True)
  | .remove _ => inferInstanceAs (Decidable (_=_))
  | .tick _ => inferInstanceAs (Decidable True)
  | .setState .. => inferInstanceAs (Decidable (_ → _))
  | .start => inferInstanceAs (Decidable True)
  | .stop => inferInstanceAs (Decidable True)

theorem Scheduler.Marked.call {s s' : Scheduler} {thr : Nat} (h : s.Marked thr) (hs : s.ThreadList)
    {l : SchedCall} (hl : l.Careful s) (hback : ∀ state, l=.setState thr state → state.Skipped)
    (hc : schedCall s l=some s') : s'.Marked thr := by
  cases l with
  | create usermode entry stack rsp => exact h.createThread hs hc
  | remove pid => exact h.remove hl hc
  | tick regs =>
    obtain ⟨x,hx,rfl⟩ := map_eq_some_iff.mp hc
    exact (h.tick hx).1
  | setState i state =>
    cases hc
    exact h.setState (fun hi => hback state (by rw [hi]))
  | start =>
    cases hc
    exact ⟨h.skipped,h.sleeper,h.made⟩
  | stop =>
    cases hc
    exact ⟨h.skipped,h.sleeper,h.made⟩

/-- The calls that follow a mark, in which every further mark is a careful one. -/
def markRuns : System Scheduler SchedCall := schedRuns.restrict SchedCall.Careful

theorem marked_run {s t : Scheduler} {thr : Nat} {calls : List SchedCall} (hs : s.ThreadList)
    (h : s.Marked thr) (hrun : markRuns.Run s calls t)
    (hback : ∀ state, SchedCall.setState thr state∈calls → state.Skipped) :
    t.ThreadList ∧ t.Marked thr := by
  induction hrun with
  | nil => exact ⟨hs,h⟩
  | @cons calls t u l _ hstep ih =>
    obtain ⟨ht,hmarked⟩ := ih (fun state hmem => hback state (List.mem_cons_of_mem _ hmem))
    obtain ⟨hcareful,hcall⟩ := hstep
    refine ⟨threadList_step ht hcall,hmarked.call ht hcareful ?_ hcall.2⟩
    rintro state rfl
    exact hback state List.mem_cons_self

/-- A thread that is marked stalled or zombie, not being the one that the next tick puts
to sleep, keeps such a mark until someone else changes it; no tick sets it running. -/
theorem mark_lasts (regs : CpuCtx) (idle stack : BitVec 64) (s t : Scheduler) (thr : Nat)
    (mark : ThreadState) (calls : List SchedCall)
    (hr : schedRuns.Reachable (.init regs idle stack) s) (hmark : mark.Skipped)
    (hroot : thr≠s.rootThread) (hthr : thr < s.made) (hsleeper : thr≠s.sleeper)
    (hrun : markRuns.Run (s.setState thr mark) calls t)
    (hback : ∀ state, SchedCall.setState thr state∈calls → state.Skipped) :
    (t.threads thr).state.Skipped ∧
    ∀ saved, ∃ x, t.schedTick saved=some x ∧ (x.2.threads thr).state.Skipped ∧
      (¬0 < t.schedRun.toInt → x.2.currentThread≠thr) := by
  have hs := threadList_reachable hr
  have hmarked : (s.setState thr mark).Marked thr := by
    refine ⟨?_,?_,hthr⟩
    · rw [Scheduler.state_setState,if_pos rfl]
      exact hmark
    · rw [Scheduler.sleeper_setState]
      exact hsleeper
  have hs' : (s.setState thr mark).ThreadList := hs.setState (fun h => absurd h hroot)
  obtain ⟨ht,hend⟩ := marked_run hs' hmarked hrun hback
  refine ⟨hend.skipped,fun saved => ?_⟩
  obtain ⟨x,hx,-⟩ := ht.schedTick saved
  obtain ⟨hkept,hne⟩ := hend.tick hx
  exact ⟨x,hx,hkept.skipped,fun hrun => Ne.symm (hne hrun)⟩

def runningFirst : List SchedCall :=
  [.start,.create false 1 2 none,.create true 1 2 none,.tick .zero,.tick .zero]

/-- Thread 2 is marked while thread 1 runs, and stays where it is over a tick. -/
theorem mark_lasts_waiting : ∃ s t x, schedRuns.Reachable (.init .zero 7 8) s ∧ s.currentThread=1 ∧
    markRuns.Run (s.setState 2 .stalled) [.tick .zero] t ∧ t.schedTick .zero=some x ∧
    (x.2.threads 2).state.Skipped ∧ x.2.currentThread≠2 := by
  have hrun : (System.exec (fun s l => if SchedCall.Allowed s l then schedCall s l else none)
      (.init .zero 7 8) runningFirst).bind (fun s =>
        (schedCall (s.setState 2 .stalled) (.tick .zero)).map (fun t =>
          (s.currentThread,decide (2≠s.rootThread ∧ 2 < s.made ∧ 2≠s.sleeper),t.schedRun)))=some (1,true,0) := by
    decide +kernel
  obtain ⟨s,hs,hrun⟩ := bind_eq_some_iff.mp hrun
  obtain ⟨t,ht,hrun⟩ := map_eq_some_iff.mp hrun
  obtain ⟨hcur,hmark,hgo⟩ : s.currentThread=1 ∧
      decide (2≠s.rootThread ∧ 2 < s.made ∧ 2≠s.sleeper)=true ∧ t.schedRun=0 := by
    simpa using hrun
  obtain ⟨hroot,hthr,hsleeper⟩ := of_decide_eq_true hmark
  have hr := System.reachable_exec_restrict schedCall SchedCall.Allowed _ _ _ hs
  have htick : markRuns.Run (s.setState 2 .stalled) [.tick .zero] t := .cons .nil ⟨trivial,trivial,ht⟩
  obtain ⟨-,hnext⟩ := mark_lasts .zero 7 8 s t 2 .stalled [.tick .zero] hr (.inl rfl) hroot hthr
    hsleeper htick (by simp)
  obtain ⟨x,hx,hskip,hne⟩ := hnext .zero
  exact ⟨s,t,x,hr,hcur,htick,hx,hskip,hne (by rw [hgo]; decide)⟩

/-- Thread 1 is marked while it runs: the next tick puts it to sleep, and the ticks after
it load it again. -/
theorem mark_on_running_lost : ∃ s t x, schedRuns.Reachable (.init .zero 7 8) s ∧
    s.currentThread=1 ∧ schedRuns.Run (s.setState 1 .stalled) [.tick .zero,.tick .zero] t ∧
    t.schedTick .zero=some x ∧ x.2.currentThread=1 ∧ (x.2.threads 1).state=.running ∧
    x.1=(t.threads 1).regs := by
  have hrun : (System.exec (fun s l => if SchedCall.Allowed s l then schedCall s l else none)
      (.init .zero 7 8) runningFirst).bind (fun s =>
        (schedCall (s.setState 1 .stalled) (.tick .zero)).bind (fun u =>
          (schedCall u (.tick .zero)).bind (fun t =>
            (t.schedTick .zero).map (fun x => (s.currentThread,x.2.currentThread,
              (x.2.threads 1).state,decide (x.1=(t.threads 1).regs))))))=
      some (1,1,.running,true) := by
    decide +kernel
  obtain ⟨s,hs,hrun⟩ := bind_eq_some_iff.mp hrun
  obtain ⟨u,hu,hrun⟩ := bind_eq_some_iff.mp hrun
  obtain ⟨t,ht,hrun⟩ := bind_eq_some_iff.mp hrun
  obtain ⟨x,hx,hrun⟩ := map_eq_some_iff.mp hrun
  simp only [Prod.mk.injEq,decide_eq_true_eq] at hrun
  obtain ⟨hcur,hend,hstate,hregs⟩ := hrun
  have hr := System.reachable_exec_restrict schedCall SchedCall.Allowed _ _ _ hs
  exact ⟨s,t,x,hr,hcur,.cons (.cons .nil ⟨trivial,hu⟩) ⟨trivial,ht⟩,hx,hend,hstate,hregs⟩

end X64OS.Sched
