import X64OS.Sched.EventRuns

namespace X64OS.Sched

open Framework

inductive ListenerCall where
  | attach (t : Nat) (events : List Nat)
  | trigger (e : Nat) (drop : Bool)
  | detach (t : Nat)

def ListenerCall.MadeBy (u : Nat) : ListenerCall → Prop
  | .attach t _ => t=u
  | .trigger _ _ => False
  | .detach t => t=u

namespace EventSystem

variable {s s' : EventSystem} {t : Nat}

/-- A thread attaches once for each wait, to distinct events that have room, and detaches before
it attaches again. -/
def MayAttach (s : EventSystem) (t : Nat) (events : List Nat) : Prop :=
  (s.waiters t).attachedEvents=[] ∧ events.Nodup ∧ events.length ≤ 32 ∧
    ∀ e∈events, (s.events e).listeners.length < 32

instance decidableMayAttach (s : EventSystem) (t : Nat) (events : List Nat) :
    Decidable (s.MayAttach t events) :=
  inferInstanceAs (Decidable (_ ∧ _))

end EventSystem

def listenerCall (s : EventSystem) : ListenerCall → Option EventSystem
  | .attach t events => if s.MayAttach t events then (s.attachListeners events t).toOption else none
  | .trigger e drop => some (s.eventTrigger e drop)
  | .detach t => some (s.detachListeners t)

/-- Any number of threads that attach, trigger and detach in any order. -/
def listenerRuns : System EventSystem ListenerCall := System.ofPartial listenerCall

namespace EventSystem

section DropListener

variable {t : Nat} {ls : List EventListener}

theorem set_getLast_perm {α : Type} {l : List α} {a : α} {j : Nat} (hj : j < l.length)
    (ha : l.getLast?=some a) : ((l.set j a).dropLast).Perm (l.eraseIdx j) := by
  obtain ⟨l,rfl⟩ := List.getLast?_eq_some_iff.mp ha
  rcases Nat.lt_or_ge j l.length with h | h
  · rw [List.set_append_left _ _ h,List.dropLast_concat,List.eraseIdx_append_of_lt_length h]
    exact (List.set_perm_cons_eraseIdx h a).trans (List.perm_append_singleton a _).symm
  · have hj : j=l.length := by
      rw [List.length_append,List.length_singleton] at hj
      omega
    subst hj
    simp [List.eraseIdx_append_of_length_le]

theorem dropListener_perm (t : Nat) (ls : List EventListener) :
    (dropListener t ls).Perm (ls.eraseP (fun l => l.thread=t)) := by
  rw [List.eraseP_eq_eraseIdx]
  unfold dropListener
  split
  · rename_i j l hj hl
    rw [hj]
    exact set_getLast_perm (List.findIdx?_eq_some_iff_findIdx_eq.mp hj).1 hl
  · rename_i h
    split
    · exact .refl _
    · rename_i j hj
      cases hl : ls.getLast? with
      | none =>
        rw [List.getLast?_eq_none_iff.mp hl]
        exact .refl _
      | some l => exact absurd hl (h j l hj)

theorem eraseP_eq_filter (h : (ls.map EventListener.thread).Nodup) :
    ls.eraseP (fun l => l.thread=t)=ls.filter (fun l => l.thread≠t) := by
  induction ls with
  | nil => rfl
  | cons l ls ih =>
    rw [List.map_cons,List.nodup_cons] at h
    by_cases hl : l.thread=t
    · rw [List.eraseP_cons_of_pos (by simpa using hl),List.filter_cons_of_neg (by simpa using hl)]
      symm
      rw [List.filter_eq_self]
      intro k hk
      have hne : k.thread≠l.thread := fun hkl => h.1 (hkl ▸ List.mem_map_of_mem hk)
      simpa [← hl] using hne
    · rw [List.eraseP_cons_of_neg (by simpa using hl),List.filter_cons_of_pos (by simpa using hl),
        ih h.2]

theorem dropListener_filter (h : (ls.map EventListener.thread).Nodup) :
    (dropListener t ls).Perm (ls.filter (fun l => l.thread≠t)) :=
  eraseP_eq_filter (t:=t) h ▸ dropListener_perm t ls

end DropListener

variable {s s' : EventSystem} {t : Nat}

@[simp] theorem events_modifyWaiter (s : EventSystem) (t : Nat) (f : Waiter → Waiter) :
    (s.modifyWaiter t f).events=s.events := rfl

@[simp] theorem waiters_modifyEvent (s : EventSystem) (e : Nat) (f : Event → Event) :
    (s.modifyEvent e f).waiters=s.waiters := rfl

theorem attachedEvents_modifyWaiter {f : Waiter → Waiter}
    (hf : ∀ w, (f w).attachedEvents=w.attachedEvents) (s : EventSystem) (t u : Nat) :
    ((s.modifyWaiter t f).waiters u).attachedEvents=(s.waiters u).attachedEvents := by
  rw [waiters_modifyWaiter]
  split
  · exact hf _
  · rfl

theorem listeners_modifyEvent {f : Event → Event} (hf : ∀ v, (f v).listeners=v.listeners)
    (s : EventSystem) (e d : Nat) :
    ((s.modifyEvent e f).events d).listeners=(s.events d).listeners := by
  rw [events_modifyEvent]
  split
  · exact hf _
  · rfl

/-- Each listener has its event at its place in the array of its thread, and a thread listens
to an event once. -/
structure Listed (s : EventSystem) : Prop where
  which : ∀ e, ∀ l∈(s.events e).listeners, (s.waiters l.thread).attachedEvents[l.which]?=some e
  once : ∀ e, ((s.events e).listeners.map EventListener.thread).Nodup
  distinct : ∀ t, (s.waiters t).attachedEvents.Nodup

def NoListener (s : EventSystem) (t : Nat) : Prop := ∀ e, ∀ l∈(s.events e).listeners, l.thread≠t

theorem Listed.noListener (h : s.Listed) (ht : (s.waiters t).attachedEvents=[]) :
    s.NoListener t := by
  intro e l hl hlt
  have hwhich := h.which e l hl
  rw [hlt,ht] at hwhich
  cases hwhich

theorem Listed.congr (h : s.Listed) (he : ∀ e, (s'.events e).listeners=(s.events e).listeners)
    (ht : ∀ t, (s'.waiters t).attachedEvents=(s.waiters t).attachedEvents) : s'.Listed where
  which e := by simpa only [he,ht] using h.which e
  once e := by simpa only [he] using h.once e
  distinct t := by simpa only [ht] using h.distinct t

variable {es : List Nat} {c : ListenerCall}

theorem attachFrom_spec {i : Nat} (h : attachFrom t es i s=.ok s') (hes : es.Nodup) :
    (∀ e, (s'.events e).listeners=
      (s.events e).listeners++if e∈es then [⟨t,i+es.idxOf e⟩] else []) ∧
    ∀ u, (s'.waiters u).attachedEvents=
      if u=t then (s.waiters u).attachedEvents++es else (s.waiters u).attachedEvents := by
  induction es generalizing s i with
  | nil =>
    cases h
    simp
  | cons d es ih =>
    unfold attachFrom at h
    split at h
    · cases h
    · dsimp only at h
      split at h
      · cases h
      · obtain ⟨hd,hes⟩ := List.nodup_cons.mp hes
        obtain ⟨hevents,hwaiters⟩ := ih h hes
        constructor
        · intro e
          rw [hevents e,events_modifyWaiter,events_modifyEvent]
          by_cases he : e=d
          · subst he
            simp [hd]
          · have hidx : (d::es).idxOf e=es.idxOf e+1 := List.idxOf_cons_ne es (Ne.symm he)
            simp [he,hidx,Nat.add_assoc,Nat.add_comm 1]
        · intro u
          rw [hwaiters u,waiters_modifyWaiter]
          split <;> simp

theorem attachListeners_spec {events : List Nat} (h : s.attachListeners events t=.ok s')
    (hes : events.Nodup) :
    (∀ e, (s'.events e).listeners=
      (s.events e).listeners++if e∈events then [⟨t,events.idxOf e⟩] else []) ∧
    ∀ u, (s'.waiters u).attachedEvents=
      if u=t then events else (s.waiters u).attachedEvents := by
  obtain ⟨hevents,hwaiters⟩ := attachFrom_spec h hes
  constructor
  · intro e
    simpa using hevents e
  · intro u
    rw [hwaiters u,waiters_modifyWaiter]
    split <;> simp

/-- Within the limits attach_listeners does not panic. -/
theorem attachFrom_ok {i : Nat} (hes : es.Nodup)
    (hroom : ∀ e∈es, (s.events e).listeners.length < 32)
    (hlen : (s.waiters t).attachedEvents.length+es.length ≤ 32) :
    ∃ s', attachFrom t es i s=.ok s' := by
  induction es generalizing s i with
  | nil => exact ⟨s,rfl⟩
  | cons d es ih =>
    obtain ⟨hd,hes⟩ := List.nodup_cons.mp hes
    rw [List.length_cons] at hlen
    unfold attachFrom
    rw [if_neg (Nat.ne_of_lt (hroom d List.mem_cons_self))]
    dsimp only
    rw [if_neg]
    · apply ih hes
      · intro e he
        have hne : e≠d := fun h => hd (h ▸ he)
        rw [events_modifyWaiter,events_modifyEvent,if_neg hne]
        exact hroom e (List.mem_cons_of_mem d he)
      · rw [waiters_modifyWaiter,if_pos rfl]
        simp only [waiters_modifyEvent,List.length_append,List.length_singleton]
        omega
    · rw [waiters_modifyEvent]
      omega

theorem MayAttach.returns {events : List Nat} (h : s.MayAttach t events) :
    ∃ s', s.attachListeners events t=.ok s' := by
  obtain ⟨-,hes,hlen,hroom⟩ := h
  refine attachFrom_ok hes ?_ ?_
  · simpa using hroom
  · rw [waiters_modifyWaiter,if_pos rfl]
    simpa using hlen

theorem detachFrom_listeners (hes : es.Nodup) (s : EventSystem) (e : Nat) :
    ((es.foldl (fun s e => s.modifyEvent e (fun v =>
      { v with listeners := dropListener t v.listeners })) s).events e).listeners=
      if e∈es then dropListener t (s.events e).listeners else (s.events e).listeners := by
  induction es generalizing s with
  | nil => simp
  | cons d es ih =>
    obtain ⟨hd,hes⟩ := List.nodup_cons.mp hes
    rw [List.foldl_cons,ih hes,events_modifyEvent]
    by_cases he : e=d
    · subst he
      simp [hd]
    · simp [he]

theorem detachFrom_waiters (es : List Nat) (f : Event → Event) (s : EventSystem) :
    (es.foldl (fun s e => s.modifyEvent e f) s).waiters=s.waiters := by
  induction es generalizing s with
  | nil => rfl
  | cons d es ih => exact ih _

theorem detachListeners_spec (h : s.Listed) (t : Nat) :
    (∀ e, ((s.detachListeners t).events e).listeners.Perm
      ((s.events e).listeners.filter (fun l => l.thread≠t))) ∧
    ∀ u, ((s.detachListeners t).waiters u).attachedEvents=
      if u=t then [] else (s.waiters u).attachedEvents := by
  constructor
  · intro e
    change ((List.foldl _ s _).events e).listeners.Perm _
    rw [detachFrom_listeners (h.distinct t)]
    split
    · exact dropListener_filter (h.once e)
    · rename_i he
      rw [List.filter_eq_self.mpr]
      intro l hl
      -- A listener of the thread would have its event in the array.
      rw [decide_eq_true_iff]
      rintro rfl
      exact he (List.mem_of_getElem? (h.which e l hl))
  · intro u
    unfold detachListeners
    rw [waiters_modifyWaiter,detachFrom_waiters]
    split <;> rfl

theorem enqueue_listeners (s : EventSystem) (t : Nat) (bySignal : Bool) :
    (s.enqueue t bySignal).events=s.events ∧
      ∀ u, ((s.enqueue t bySignal).waiters u).attachedEvents=(s.waiters u).attachedEvents := by
  unfold enqueue
  split
  · exact ⟨rfl,fun _ => rfl⟩
  · dsimp only
    split
    · refine ⟨rfl,fun u => ?_⟩
      rw [attachedEvents_modifyWaiter (by intro; rfl),attachedEvents_modifyWaiter (by intro; rfl)]
    · exact ⟨rfl,attachedEvents_modifyWaiter (by intro; rfl) s t⟩

theorem wakeAll_listeners (ls : List EventListener) (s : EventSystem) :
    (ls.foldl wake s).events=s.events ∧
      ∀ u, ((ls.foldl wake s).waiters u).attachedEvents=(s.waiters u).attachedEvents := by
  induction ls generalizing s with
  | nil => exact ⟨rfl,fun _ => rfl⟩
  | cons l ls ih =>
    obtain ⟨hevents,hwaiters⟩ := ih (s.wake l)
    obtain ⟨hevents',hwaiters'⟩ := enqueue_listeners
      (s.modifyWaiter l.thread (fun w => { w with whichEvent := l.which })) l.thread false
    refine ⟨hevents.trans hevents',fun u => (hwaiters u).trans ((hwaiters' u).trans ?_)⟩
    exact attachedEvents_modifyWaiter (by intro; rfl) s l.thread u

theorem woken_spec (s : EventSystem) (ls : List EventListener) (e : Nat) :
    (∀ d, ((((ls.foldl wake s).modifyEvent e (fun v => { v with listeners := [] })).events
      d).listeners=if d=e then [] else (s.events d).listeners)) ∧
    ∀ u, (((ls.foldl wake s).modifyEvent e (fun v => { v with listeners := [] })).waiters
      u).attachedEvents=(s.waiters u).attachedEvents := by
  obtain ⟨hevents,hwaiters⟩ := wakeAll_listeners ls s
  refine ⟨fun d => ?_,hwaiters⟩
  rw [events_modifyEvent,hevents]
  split <;> rfl

theorem eventTrigger_spec (s : EventSystem) (e : Nat) (drop : Bool) :
    (∀ d, ((s.eventTrigger e drop).events d).listeners=
      if d=e then [] else (s.events d).listeners) ∧
    ∀ u, ((s.eventTrigger e drop).waiters u).attachedEvents=(s.waiters u).attachedEvents := by
  have hnone (hempty : (s.events e).listeners=[]) (d : Nat) :
      (s.events d).listeners=if d=e then [] else (s.events d).listeners := by
    split
    · rename_i h
      rw [h,hempty]
    · rfl
  cases drop with
  | true =>
    simp only [eventTrigger,if_true]
    split
    · rename_i hempty
      exact ⟨hnone hempty,fun _ => rfl⟩
    · exact woken_spec s _ e
  | false =>
    simp only [eventTrigger,Bool.false_eq_true,if_false]
    split
    · rename_i hempty
      refine ⟨fun d => ?_,fun _ => rfl⟩
      rw [listeners_modifyEvent (by intro; rfl)]
      exact hnone hempty d
    · exact woken_spec _ _ e

/-- What a call can do to the listeners of an event and to the events of a thread. -/
inductive ListenerEffect (s : EventSystem) : ListenerCall → EventSystem → Prop
  | attach {t : Nat} {events : List Nat} {s' : EventSystem} (hmay : s.MayAttach t events)
    (hevents : ∀ e, (s'.events e).listeners=
      (s.events e).listeners++if e∈events then [⟨t,events.idxOf e⟩] else [])
    (hwaiters : ∀ u, (s'.waiters u).attachedEvents=
      if u=t then events else (s.waiters u).attachedEvents) :
    ListenerEffect s (.attach t events) s'
  | trigger {e : Nat} {drop : Bool} {s' : EventSystem}
    (hevents : ∀ d, (s'.events d).listeners=if d=e then [] else (s.events d).listeners)
    (hwaiters : ∀ u, (s'.waiters u).attachedEvents=(s.waiters u).attachedEvents) :
    ListenerEffect s (.trigger e drop) s'
  | detach {t : Nat} {s' : EventSystem}
    (hevents : ∀ e, (s'.events e).listeners.Perm
      ((s.events e).listeners.filter (fun l => l.thread≠t)))
    (hwaiters : ∀ u, (s'.waiters u).attachedEvents=
      if u=t then [] else (s.waiters u).attachedEvents) :
    ListenerEffect s (.detach t) s'

theorem listenerCall_effect (h : s.Listed) (hc : listenerCall s c=some s') :
    ListenerEffect s c s' := by
  cases c with
  | attach t events =>
    obtain ⟨hmay,hc⟩ := Option.ite_none_right_eq_some.mp hc
    obtain ⟨q,hq⟩ := hmay.returns
    rw [hq] at hc
    cases hc
    obtain ⟨hevents,hwaiters⟩ := attachListeners_spec hq hmay.2.1
    exact .attach hmay hevents hwaiters
  | trigger e drop =>
    cases hc
    obtain ⟨hevents,hwaiters⟩ := eventTrigger_spec s e drop
    exact .trigger hevents hwaiters
  | detach t =>
    cases hc
    obtain ⟨hevents,hwaiters⟩ := detachListeners_spec h t
    exact .detach hevents hwaiters

theorem Listed.attach (h : s.Listed) {events : List Nat}
    (ht : (s.waiters t).attachedEvents=[]) (hes : events.Nodup)
    (hevents : ∀ e, (s'.events e).listeners=
      (s.events e).listeners++if e∈events then [⟨t,events.idxOf e⟩] else [])
    (hwaiters : ∀ u, (s'.waiters u).attachedEvents=
      if u=t then events else (s.waiters u).attachedEvents) : s'.Listed where
  which e l hl := by
    rw [hevents,List.mem_append] at hl
    rw [hwaiters]
    rcases hl with hl | hl
    · rw [if_neg (h.noListener ht e l hl)]
      exact h.which e l hl
    · split at hl
      · rename_i he
        obtain rfl := List.mem_singleton.mp hl
        rw [if_pos rfl]
        exact List.getElem?_idxOf he
      · cases hl
  once e := by
    rw [hevents]
    split
    · rw [List.map_append]
      apply (h.once e).append (List.nodup_singleton t)
      intro u hu hu'
      obtain ⟨l,hl,rfl⟩ := List.mem_map.mp hu
      exact h.noListener ht e l hl (List.mem_singleton.mp hu')
    · rw [List.append_nil]
      exact h.once e
  distinct u := by
    rw [hwaiters]
    split
    · exact hes
    · exact h.distinct u

theorem Listed.effect (h : s.Listed) (hc : ListenerEffect s c s') : s'.Listed := by
  cases hc with
  | attach hmay hevents hwaiters => exact h.attach hmay.1 hmay.2.1 hevents hwaiters
  | @trigger e drop _ hevents hwaiters =>
    refine ⟨?_,?_,?_⟩
    · intro d l hl
      rw [hevents] at hl
      rw [hwaiters]
      split at hl
      · cases hl
      · exact h.which d l hl
    · intro d
      rw [hevents]
      split
      · exact List.nodup_nil
      · exact h.once d
    · intro u
      rw [hwaiters]
      exact h.distinct u
  | @detach t _ hevents hwaiters =>
    refine ⟨?_,?_,?_⟩
    · intro e l hl
      rw [(hevents e).mem_iff,List.mem_filter,decide_eq_true_iff] at hl
      rw [hwaiters,if_neg hl.2]
      exact h.which e l hl.1
    · intro e
      rw [((hevents e).map _).nodup_iff]
      exact (h.once e).sublist (List.filter_sublist.map _)
    · intro u
      rw [hwaiters]
      split
      · exact List.nodup_nil
      · exact h.distinct u

theorem ListenerEffect.others (hc : ListenerEffect s c s') {u e : Nat} (hu : ¬c.MadeBy u)
    (he : ∀ drop, c≠.trigger e drop) :
    ((s'.events e).listeners.filter (fun l => l.thread=u)).Perm
      ((s.events e).listeners.filter (fun l => l.thread=u)) := by
  cases hc with
  | @attach t events _ hmay hevents hwaiters =>
    have ht : t≠u := hu
    rw [hevents,List.filter_append]
    split <;> simp [ht]
  | @trigger d drop _ hevents hwaiters =>
    have hne : e≠d := fun h => he drop (h ▸ rfl)
    rw [hevents,if_neg hne]
  | @detach t _ hevents hwaiters =>
    have ht : t≠u := hu
    refine ((hevents e).filter _).trans ?_
    rw [List.filter_filter]
    apply List.Perm.of_eq
    apply List.filter_congr
    intro l _
    by_cases hl : l.thread=u
    · simp [hl,ht.symm]
    · simp [hl]

def Unattached (s : EventSystem) : Prop :=
  (∀ e, (s.events e).listeners=[]) ∧ ∀ t, (s.waiters t).attachedEvents=[]

theorem Unattached.listed (h : s.Unattached) : s.Listed where
  which e l hl := by
    rw [h.1] at hl
    cases hl
  once e := by
    rw [h.1]
    exact List.nodup_nil
  distinct t := by
    rw [h.2]
    exact List.nodup_nil

end EventSystem

open EventSystem

theorem listed_reachable {s₀ s : EventSystem} (h₀ : s₀.Listed) (h : listenerRuns.Reachable s₀ s) :
    s.Listed :=
  h.invariant h₀ (fun _ _ _ hs hstep => hs.effect (listenerCall_effect hs hstep))

theorem noListener_until_attach {s₀ s : EventSystem} {t : Nat} (h₀ : s₀.Listed)
    (ht : (s₀.waiters t).attachedEvents=[])
    (h : (listenerRuns.restrict (fun _ c => ∀ events, c≠.attach t events)).Reachable s₀ s) :
    s.NoListener t := by
  have hinv : s.Listed ∧ (s.waiters t).attachedEvents=[] := by
    refine h.invariant (I:=fun s => s.Listed ∧ (s.waiters t).attachedEvents=[]) ⟨h₀,ht⟩ ?_
    rintro q c q' ⟨hq,hqt⟩ ⟨hc,hstep⟩
    have heffect := listenerCall_effect hq hstep
    refine ⟨hq.effect heffect,?_⟩
    cases heffect with
    | @attach u events _ hmay hevents hwaiters =>
      have hu : t≠u := fun h => hc events (h ▸ rfl)
      rw [hwaiters,if_neg hu]
      exact hqt
    | trigger hevents hwaiters => rw [hwaiters,hqt]
    | detach hevents hwaiters =>
      rw [hwaiters,hqt]
      split <;> rfl
  exact hinv.1.noListener hinv.2

/-- Whatever the order of the calls, a thread that has detached has no listener until it attaches
again, a call of one thread keeps the listeners of all others, and the place that a listener
names has its event. -/
theorem listeners_kept (s₀ s : EventSystem) (h₀ : s₀.Unattached)
    (h : listenerRuns.Reachable s₀ s) :
    (∀ t s', (listenerRuns.restrict (fun _ c => ∀ events, c≠.attach t events)).Reachable
      (s.detachListeners t) s' → s'.NoListener t) ∧
    (∀ c s', listenerCall s c=some s' → ∀ u e, ¬c.MadeBy u → (∀ drop, c≠.trigger e drop) →
      ((s'.events e).listeners.filter (fun l => l.thread=u)).Perm
        ((s.events e).listeners.filter (fun l => l.thread=u))) ∧
    (∀ e, ∀ l∈(s.events e).listeners,
      (s.waiters l.thread).attachedEvents.Nodup ∧
        (s.waiters l.thread).attachedEvents[l.which]?=some e) ∧
    ∀ t events, s.MayAttach t events → ∃ s', listenerCall s (.attach t events)=some s' := by
  have hs := listed_reachable h₀.listed h
  refine ⟨?_,?_,?_,?_⟩
  · intro t s' hs'
    have hstep : listenerCall s (.detach t)=some (s.detachListeners t) := rfl
    have hlisted := hs.effect (listenerCall_effect hs hstep)
    apply noListener_until_attach hlisted _ hs'
    rw [(detachListeners_spec hs t).2,if_pos rfl]
  · intro c s' hc u e hu he
    exact (listenerCall_effect hs hc).others hu he
  · intro e l hl
    exact ⟨hs.distinct _,hs.which e l hl⟩
  · intro t events hmay
    obtain ⟨s',hs'⟩ := hmay.returns
    refine ⟨s',?_⟩
    simp [listenerCall,hmay,hs',Except.toOption]

theorem listeners_kept_two : ∃ s, listenerRuns.Reachable (.boot (.init .zero 7 8)) s ∧
    (s.events 2).listeners=[⟨1,1⟩,⟨2,0⟩] ∧ (s.detachListeners 1).NoListener 1 := by
  have hrun : (System.exec listenerCall (.boot (.init .zero 7 8))
      [.attach 1 [0,2],.attach 2 [2],.trigger 0 false]).map (fun s => (s.events 2).listeners)=
        some [⟨1,1⟩,⟨2,0⟩] := by decide
  obtain ⟨s,hs,hl⟩ := Option.map_eq_some_iff.mp hrun
  have hr := System.reachable_exec listenerCall _ _ _ hs
  exact ⟨s,hr,hl,(listeners_kept _ s ⟨fun _ => rfl,fun _ => rfl⟩ hr).1 1 _ .refl⟩

namespace EventSystem

variable {s s' : EventSystem} {t : Nat}

/-- The listeners as event_await keeps them: a thread that is in no wait has no event in its
array. -/
structure Waits (s : EventSystem) : Prop where
  listed : s.Listed
  idle : ∀ t, (s.waiters t).await=none → (s.waiters t).attachedEvents=[]

theorem Waits.congr (h : s.Waits) (he : ∀ e, (s'.events e).listeners=(s.events e).listeners)
    (ht : ∀ t, (s'.waiters t).attachedEvents=(s.waiters t).attachedEvents)
    (ha : ∀ t, (s'.waiters t).await=none → (s.waiters t).await=none) : s'.Waits where
  listed := h.listed.congr he ht
  idle t hawait := (ht t).trans (h.idle t (ha t hawait))

theorem Waits.trigger (h : s.Waits) (e : Nat) (drop : Bool) : (s.eventTrigger e drop).Waits where
  listed := h.listed.effect (listenerCall_effect (c:=.trigger e drop) h.listed rfl)
  idle t hawait := by
    rw [((await_eventTrigger s e drop).2 t).2] at hawait
    rw [(eventTrigger_spec s e drop).2]
    exact h.idle t hawait

theorem dequeue_listeners (s : EventSystem) (t : Nat) :
    (s.dequeue t).events=s.events ∧
      ∀ u, ((s.dequeue t).waiters u).attachedEvents=(s.waiters u).attachedEvents := by
  unfold dequeue
  split
  · exact ⟨rfl,fun _ => rfl⟩
  · split
    · refine ⟨rfl,fun u => ?_⟩
      dsimp only
      rw [attachedEvents_modifyWaiter (by intro; rfl)]
    · exact ⟨rfl,fun _ => rfl⟩

variable (h : s.Waits)
include h

theorem Waits.block {events : List Nat} {q : EventSystem} (hes : events.Nodup)
    (ht : (s.waiters t).await=none) (hq : s.attachListeners events t=.ok q)
    (hs : (q.dequeue t).yieldStart t events=.ok s') : s'.Waits := by
  obtain ⟨hevents,hwaiters⟩ := attachListeners_spec hq hes
  have hlisted := h.listed.attach (h.idle t ht) hes hevents hwaiters
  have hquiet := (quiet_attachListeners hq).trans (quiet_dequeue q t)
  obtain ⟨hevents',hwaiters'⟩ := dequeue_listeners q t
  rw [yieldStart_eq hs]
  constructor
  · apply hlisted.congr
    · intro e
      rw [events_modifyWaiter,hevents']
    · intro u
      rw [attachedEvents_modifyWaiter (by intro; rfl),hwaiters']
  · intro u hu
    rw [waiters_modifyWaiter] at hu
    split at hu
    · cases hu
    · rename_i hne
      rw [hquiet.await] at hu
      rw [attachedEvents_modifyWaiter (by intro; rfl),hwaiters',hwaiters,if_neg hne]
      exact h.idle u hu

theorem Waits.eventAwait {events : List Nat} {block : Bool} (ht : (s.waiters t).await=none)
    (hs : s.eventAwait t events block=.ok s') : s'.Waits := by
  unfold EventSystem.eventAwait at hs
  split at hs
  · cases hs
  · rename_i hes
    split at hs
    · rename_i i q hq
      obtain ⟨k,e,-,-,-,rfl⟩ := checkForPending_some hq
      cases hs
      refine h.congr (fun d => ?_) (fun _ => rfl) (fun _ h => h)
      dsimp only [report]
      rw [listeners_modifyEvent (by intro; rfl)]
    · split at hs
      · cases hs
        exact h
      · cases hq : s.attachListeners events t with
        | error p =>
          rw [hq] at hs
          cases hs
        | ok q =>
          rw [hq] at hs
          exact h.block (not_not.mp hes) ht hq hs

theorem Waits.panicOr {x : Except Panic EventSystem} (hx : ∀ q, x=.ok q → q.Waits) :
    (s.panicOr x).Waits := by
  cases x with
  | ok q => exact hx q rfl
  | error p => exact h.congr (fun _ => rfl) (fun _ => rfl) (fun _ h => h)

theorem Waits.modifyAwait {f : Waiter → Waiter} (hf : ∀ w, (f w).attachedEvents=w.attachedEvents)
    (ha : (f (s.waiters t)).await=none → (s.waiters t).await=none) :
    (s.modifyWaiter t f).Waits := by
  refine h.congr (fun _ => rfl) (attachedEvents_modifyWaiter hf s t) (fun u hu => ?_)
  rw [waiters_modifyWaiter] at hu
  split at hu
  · rename_i hut
    subst hut
    exact ha hu
  · exact hu

theorem Waits.switchOut : s.switchOut.Waits := by
  apply h.modifyAwait
  · intro w
    split <;> rfl
  · intro hnone
    split at hnone
    · cases hnone
    · exact hnone

theorem Waits.reacquire {x : Except Panic EventSystem} (hx : s.reacquire t=some x) {q : EventSystem}
    (hq : x=.ok q) : q.Waits := by
  subst hq
  unfold EventSystem.reacquire at hx
  split at hx
  · split at hx
    · split at hx
      · cases hx
      · cases hx
        exact h.modifyAwait (by intro; rfl) (fun hnone => by cases hnone)
    · cases hx
      exact h.modifyAwait (by intro; rfl) (fun hnone => by cases hnone)
  · cases hx

theorem Waits.detach (t : Nat) :
    ((s.detachListeners t).modifyWaiter t (fun w => { w with await := none })).Waits := by
  have hwaiters := (detachListeners_spec h.listed t).2
  constructor
  · apply (h.listed.effect (listenerCall_effect (c:=.detach t) h.listed rfl)).congr
    · intro e
      rfl
    · exact attachedEvents_modifyWaiter (by intro; rfl) _ t
  · intro u hu
    rw [attachedEvents_modifyWaiter (by intro; rfl),hwaiters]
    split
    · rfl
    · rename_i hne
      unfold detachListeners at hu
      rw [waiters_modifyWaiter,if_neg hne,waiters_modifyWaiter,if_neg hne,detachFrom_waiters] at hu
      exact h.idle u hu

theorem Waits.awaitEnd (hs : s.awaitEnd t=some s') : s'.Waits := by
  unfold EventSystem.awaitEnd at hs
  split at hs
  · cases hs
    apply Waits.detach
    split
    · exact h
    · exact h.congr (fun _ => rfl) (fun _ => rfl) (fun _ h => h)
  · cases hs

theorem Waits.eventCall {c : EventCall} (hs : eventCall s c=some s') : s'.Waits := by
  unfold Sched.eventCall at hs
  dsimp only at hs
  split at hs
  · cases hs
  · cases c with
    | sched l =>
      obtain ⟨sched,-,rfl⟩ := Option.map_eq_some_iff.mp hs
      split
      · split
        · exact h.congr (fun _ => rfl) (fun _ => rfl) (fun _ h => h)
        · exact h.switchOut.congr (fun _ => rfl) (fun _ => rfl) (fun _ h => h)
      · exact h.congr (fun _ => rfl) (fun _ => rfl) (fun _ h => h)
    | trigger e drop =>
      cases hs
      exact h.trigger e drop
    | await events block =>
      obtain ⟨hidle,hs⟩ := Option.ite_none_left_eq_some.mp hs
      cases hs
      have hnone := Option.not_isSome_iff_eq_none.mp (not_or.mp hidle).2
      exact h.panicOr (fun q hq => h.eventAwait hnone hq)
    | reacquire =>
      obtain ⟨-,hs⟩ := Option.ite_none_left_eq_some.mp hs
      obtain ⟨x,hx,rfl⟩ := Option.map_eq_some_iff.mp hs
      exact h.panicOr (fun q hq => h.reacquire hx hq)
    | awaitEnd =>
      obtain ⟨-,hs⟩ := Option.ite_none_left_eq_some.mp hs
      exact h.awaitEnd hs

end EventSystem

/-- The calls that event_await makes are such a run, so all of this holds of its listeners. -/
theorem waits_reachable {sched : Scheduler} {s : EventSystem}
    (h : eventRuns.Reachable (.boot sched) s) : s.Waits := by
  apply h.invariant (I:=Waits)
  · exact ⟨Unattached.listed ⟨fun _ => rfl,fun _ => rfl⟩,fun _ _ => rfl⟩
  · intro q c q' hq hstep
    exact hq.eventCall hstep

/-- Thread 1 waits for an event that is not pending. -/
theorem waits_reachable_blocked : ∃ s, eventRuns.Reachable (.boot (.init .zero 7 8)) s ∧
    (s.waiters 1).attachedEvents=[0] ∧ s.Waits := by
  have hrun : (System.exec eventCall (.boot (.init .zero 7 8)) (oneThread++[.await [0] true])).map
      (fun s => (s.waiters 1).attachedEvents)=some [0] := by
    decide +kernel
  obtain ⟨s,hs,ha⟩ := Option.map_eq_some_iff.mp hrun
  have hr := System.reachable_exec eventCall _ _ _ hs
  exact ⟨s,hr,ha,waits_reachable hr⟩

end X64OS.Sched
