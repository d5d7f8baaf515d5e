import X64OS.Sched.EventRuns

namespace X64OS.Sched

open Framework

namespace EventSystem

variable {s s' : EventSystem} {e : Nat}

def recorded (s : EventSystem) (e : Nat) : Nat := (s.events e).pending+s.reported.count e

/-- Every trigger is pending or was reported. -/
def Account (s : EventSystem) : Prop := ∀ e, s.triggered.count e=s.recorded e

theorem Quiet.recorded (h : Quiet s s') (e : Nat) : s'.recorded e=s.recorded e := by
  unfold EventSystem.recorded
  rw [h.pending,h.reported]

theorem recorded_taken {events : List Nat} {i : Nat} (hi : events[i]?=some e)
    (hpending : 0 < (s.events e).pending) (e' : Nat) :
    ((s.modifyEvent e (fun v => { v with pending := v.pending-1 })).report events i).recorded e'=
      s.recorded e' := by
  have hevents := events_modifyEvent s e (fun v => { v with pending := v.pending-1 }) e'
  unfold recorded report
  rw [hi]
  dsimp only [Option.toList_some,List.singleton_append]
  rw [hevents]
  change _+(e::s.reported).count e'=_
  rw [List.count_cons]
  by_cases he : e'=e
  · subst he
    rw [if_pos rfl,if_pos (beq_self_eq_true e')]
    change (s.events e').pending-1+(s.reported.count e'+1)=_
    omega
  · rw [if_neg he,if_neg (by rw [beq_iff_eq]; exact Ne.symm he)]
    rfl

/-- Only triggers change the account. -/
theorem Effect.recorded {c : EventCall} (h : Effect s c s') (hc : ∀ e, c≠.trigger e false) :
    s'.triggered=s.triggered ∧ ∀ e, s'.recorded e=s.recorded e := by
  cases h with
  | sched l sched => exact ⟨rfl,fun _ => rfl⟩
  | switched l sched => exact ⟨rfl,fun _ => rfl⟩
  | trigger e drop =>
    cases drop with
    | true => exact ⟨(eventTrigger_drop s e).triggered,(eventTrigger_drop s e).recorded⟩
    | false => exact absurd rfl (hc e)
  | taken events block i e hi hpending => exact ⟨rfl,recorded_taken hi hpending⟩
  | refused events => exact ⟨rfl,fun _ => rfl⟩
  | blocked events q hnone hq => exact ⟨hq.triggered,hq.recorded⟩
  | spun events out tries hlock => exact ⟨rfl,fun _ => rfl⟩
  | panicked c p hp => exact ⟨rfl,fun _ => rfl⟩

theorem eventCall_trigger {drop : Bool} (h : eventCall s (.trigger e drop)=some s') :
    s'=s.eventTrigger e drop := by
  unfold eventCall at h
  dsimp only at h
  split at h
  · cases h
  · cases h
    rfl

theorem recorded_unattended (h : (s.events e).listeners=[]) (e' : Nat) :
    (s.eventTrigger e false).recorded e'=
      (if e'=e then ((s.events e').pending+1)%2^64 else (s.events e').pending)+s.reported.count e' := by
  rw [eventTrigger_unattended h,recorded,events_modifyEvent]
  split <;> rfl

theorem triggered_eventTrigger (s : EventSystem) (e : Nat) :
    (s.eventTrigger e false).triggered=e::s.triggered := by
  by_cases h : (s.events e).listeners=[]
  · rw [eventTrigger_unattended h]
    rfl
  · exact (eventTrigger_attended h).triggered

theorem account_eventTrigger (hs : s.Account) :
    (s.eventTrigger e false).Account ↔
      (s.events e).listeners=[] ∧ (s.events e).pending+1 < 2^64 := by
  have hcount (e' : Nat) : (e::s.triggered).count e'=s.recorded e'+if e'=e then 1 else 0 := by
    rw [List.count_cons,hs e',Bool.beq_comm]
    simp only [beq_iff_eq]
  unfold Account
  rw [triggered_eventTrigger]
  by_cases h : (s.events e).listeners=[]
  · constructor
    · intro haccount
      have he := haccount e
      rw [hcount,recorded_unattended h,if_pos rfl,if_pos rfl,recorded] at he
      refine ⟨h,?_⟩
      have hmod := Nat.mod_lt ((s.events e).pending+1) (Nat.two_pow_pos 64)
      omega
    · rintro ⟨-,hlt⟩ e'
      rw [hcount,recorded_unattended h,recorded]
      by_cases he : e'=e
      · subst he
        rw [if_pos rfl,if_pos rfl,Nat.mod_eq_of_lt hlt]
        omega
      · rw [if_neg he,if_neg he,Nat.add_zero]
  · constructor
    · intro haccount
      have he := haccount e
      rw [hcount,(eventTrigger_attended h).recorded,if_pos rfl] at he
      change s.recorded e+1=s.recorded e at he
      omega
    · rintro ⟨hidle,-⟩
      exact absurd hidle h

theorem lost_step (hl : s.LockHeld) (hlost : s.recorded e < s.triggered.count e) {c : EventCall}
    (h : eventCall s c=some s') : s'.recorded e < s'.triggered.count e := by
  by_cases hc : ∃ e', c=.trigger e' false
  · obtain ⟨e',rfl⟩ := hc
    cases eventCall_trigger h
    rw [triggered_eventTrigger,List.count_cons]
    by_cases hidle : (s.events e').listeners=[]
    · rw [recorded_unattended hidle]
      unfold recorded at hlost
      by_cases he : e=e'
      · subst he
        rw [if_pos rfl,if_pos (beq_self_eq_true e)]
        have hmod := Nat.mod_le ((s.events e).pending+1) (2^64)
        omega
      · rw [if_neg he]
        omega
    · rw [(eventTrigger_attended hidle).recorded]
      change s.recorded e < _
      omega
  · obtain ⟨htriggered,hrecorded⟩ := (eventCall_effect hl h).recorded (fun e' he => hc ⟨e',he⟩)
    rw [htriggered,hrecorded]
    exact hlost

theorem lost_reachable {s₀ : EventSystem} (hl : s₀.LockHeld)
    (hlost : s₀.recorded e < s₀.triggered.count e) (hr : eventRuns.Reachable s₀ s) :
    s.recorded e < s.triggered.count e := by
  have hboth : s.LockHeld ∧ s.recorded e < s.triggered.count e :=
    hr.invariant (I := fun s => s.LockHeld ∧ s.recorded e < s.triggered.count e) ⟨hl,hlost⟩
      (fun _ _ _ hs h => ⟨hs.1.step h,lost_step hs.1 hs.2 h⟩)
  exact hboth.2

end EventSystem

/-- An event_trigger without drop finds nobody listening and room in pending. -/
def EventCall.Unattended (s : EventSystem) : EventCall → Prop
  | .trigger e false => (s.events e).listeners=[] ∧ (s.events e).pending+1 < 2^64
  | _ => True

instance (s : EventSystem) : (c : EventCall) → Decidable (c.Unattended s)
  | .trigger _ false => inferInstanceAs (Decidable (_ ∧ _))
  | .trigger _ true => inferInstanceAs (Decidable True)
  | .await _ _ => inferInstanceAs (Decidable True)
  | .sched _ => inferInstanceAs (Decidable True)
  | .reacquire => inferInstanceAs (Decidable True)
  | .awaitEnd => inferInstanceAs (Decidable True)

theorem EventSystem.account_step {s s' : EventSystem} (hl : s.LockHeld) (hs : s.Account)
    {c : EventCall} (h : eventCall s c=some s') : s'.Account ↔ c.Unattended s := by
  by_cases hc : ∃ e, c=.trigger e false
  · obtain ⟨e,rfl⟩ := hc
    cases eventCall_trigger h
    exact account_eventTrigger hs
  · have hne : ∀ e, c≠.trigger e false := fun e he => hc ⟨e,he⟩
    obtain ⟨htriggered,hrecorded⟩ := (eventCall_effect hl h).recorded hne
    have haccount : s'.Account := by
      intro e
      rw [htriggered,hrecorded]
      exact hs e
    refine iff_of_true haccount ?_
    unfold EventCall.Unattended
    split
    · rename_i e
      exact absurd rfl (hne e)
    · trivial

/-- No trigger is lost while every one finds nobody listening; the next call keeps the account
exactly if it is of that kind. -/
theorem triggers_accounted (sched : Scheduler) (s : EventSystem)
    (hr : (eventRuns.restrict EventCall.Unattended).Reachable (.boot sched) s) :
    (∀ e, s.triggered.count e=(s.events e).pending+s.reported.count e) ∧
    ∀ c s', eventCall s c=some s' →
      ((∀ e, s'.triggered.count e=(s'.events e).pending+s'.reported.count e) ↔ c.Unattended s) := by
  have hboth : s.LockHeld ∧ s.Account :=
    hr.invariant (I := fun s => s.LockHeld ∧ s.Account)
      ⟨EventSystem.lockHeld_boot sched,fun _ => rfl⟩
      (fun _ _ _ hs h => ⟨hs.1.step h.2,(EventSystem.account_step hs.1 hs.2 h.2).mpr h.1⟩)
  exact ⟨hboth.2,fun c s' h => EventSystem.account_step hboth.1 hboth.2 h⟩

/-- Two triggers before the wait: one is reported, one is still pending. -/
theorem triggers_accounted_two : ∃ s,
    (eventRuns.restrict EventCall.Unattended).Reachable (.boot (.init .zero 7 8)) s ∧
    s.triggered=[1,1] ∧ s.reported=[1] ∧ (s.events 1).pending=1 := by
  have hrun : (System.exec (fun s c => if EventCall.Unattended s c then eventCall s c else none)
      (.boot (.init .zero 7 8))
      (oneThread++[.trigger 1 false,.trigger 1 false,.await [0,1] true])).map (fun s =>
        (s.triggered,s.reported))=some ([1,1],[1]) := by
    decide +kernel
  obtain ⟨s,hs,hend⟩ := Option.map_eq_some_iff.mp hrun
  obtain ⟨htriggered,hreported⟩ := Prod.mk.inj hend
  have hr := System.reachable_exec_restrict eventCall EventCall.Unattended _ _ _ hs
  have hone := (triggers_accounted _ s hr).1 1
  rw [htriggered,hreported] at hone
  exact ⟨s,hr,htriggered,hreported,by simpa using hone.symm⟩

set_option synthInstance.maxSize 512 in
/-- Thread 1 waits for two events and both are triggered before it runs again. The second trigger
writes over which_event, and the first is never pending or reported any more. -/
theorem trigger_overwritten : ∃ s, eventRuns.Reachable (.boot (.init .zero 7 8)) s ∧
    s.triggered=[1,0] ∧ s.reported=[] ∧ (s.events 0).pending=0 ∧ (s.events 1).pending=0 ∧
    (s.waiters 1).whichEvent=1 ∧
    ∀ s', eventRuns.Reachable s s' →
      (s'.events 0).pending+s'.reported.count 0 < s'.triggered.count 0 := by
  have hrun : (System.exec eventCall (.boot (.init .zero 7 8)) (oneThread++
      [.await [0,1] true,.sched (.tick .zero),.trigger 0 false,.trigger 1 false])).map (fun s =>
        (s.triggered,s.reported,(s.events 0).pending,(s.events 1).pending,
          (s.waiters 1).whichEvent))=some ([1,0],[],0,0,1) := by
    decide +kernel
  obtain ⟨s,hs,hend⟩ := Option.map_eq_some_iff.mp hrun
  simp only [Prod.mk.injEq] at hend
  obtain ⟨htriggered,hreported,hpending,hpending',hwhich⟩ := hend
  have hr := System.reachable_exec eventCall _ _ _ hs
  refine ⟨s,hr,htriggered,hreported,hpending,hpending',hwhich,?_⟩
  intro s' hr'
  have hl := EventSystem.lockHeld_reachable (EventSystem.lockHeld_boot _) hr
  refine EventSystem.lost_reachable hl ?_ hr'
  rw [EventSystem.recorded,htriggered,hreported,hpending]
  decide

end X64OS.Sched
