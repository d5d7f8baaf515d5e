import X64OS.Sched.ThreadList

namespace X64OS.Sched

open Framework

variable {n : Nat} {s : Scheduler}

namespace Scheduler

variable {s' : Scheduler}

theorem ThreadList.withCurrent (hs : s.ThreadList) {c : Nat} (hc : c∈s.linked) :
    ThreadList { s with currentThread := c } :=
  hs.of_same ⟨fun _ => rfl,fun _ => rfl,fun _ => rfl,rfl,rfl,rfl,rfl⟩ hc hs.runnable

theorem ThreadRing.next_ne (hs : s.ThreadRing) {c : Nat} (hc : c∈s.linked) (hne : c≠s.rootThread) :
    s.nextOf c≠c := by
  obtain ⟨xs,ys,h⟩ := List.append_of_mem hc
  have hnodup := hs.nodup
  rw [h,List.nodup_middle,List.nodup_cons] at hnodup
  rw [hs.nextOf_eq h]
  cases ys with
  | nil => exact Ne.symm hne
  | cons y ys =>
    rintro rfl
    exact hnodup.1 (by simp)

theorem ThreadList.rest {t : Scheduler} {xs ys : List Nat} (hs : s.ThreadList)
    (hcur : s.linked=xs++s.currentThread::ys) (hlen : ys.length < n) (ht : t.ThreadList)
    (htcur : t.currentThread=s.nextOf s.currentThread) (htroot : t.rootThread=s.rootThread)
    (htlinked : t.linked=s.linked ∨ t.linked=s.linked.erase s.currentThread) :
    ∃ as bs, t.linked=as++t.currentThread::bs ∧
      (t.currentThread=t.rootThread ∧ 0 < n ∨ bs.length+1 < n) := by
  have hnext := hs.nextOf_eq hcur
  cases ys with
  | nil =>
    obtain ⟨as,bs,hab⟩ := List.append_of_mem ht.current
    refine ⟨as,bs,hab,.inl ⟨?_,hlen⟩⟩
    rw [htcur,hnext,htroot]
    rfl
  | cons y ys =>
    have hy : t.currentThread=y := htcur.trans hnext
    rcases htlinked with h | h
    · refine ⟨xs++[s.currentThread],ys,?_,.inr hlen⟩
      rw [h,hcur,hy,List.append_assoc]
      rfl
    · have hnodup := hs.nodup
      rw [hcur] at hnodup
      refine ⟨xs,ys,?_,.inr hlen⟩
      rw [h,hcur,erase_middle hnodup,hy]

theorem ThreadList.skip (hs : s.ThreadList) {xs ys : List Nat}
    (hcur : s.linked=xs++s.currentThread::ys)
    (hn : s.currentThread=s.rootThread ∧ 0 < n ∨ ys.length+1 < n) :
    ∃ s', Scheduler.skip n s=some s' ∧ s'.ThreadList ∧
      ¬(s'.threads s'.currentThread).state.Skipped := by
  induction n generalizing s xs ys with
  | zero => omega
  | succ n ih =>
    have hgo : ∀ t : Scheduler, s.currentThread≠s.rootThread → t.ThreadList →
        t.currentThread=s.nextOf s.currentThread → t.rootThread=s.rootThread →
        (t.linked=s.linked ∨ t.linked=s.linked.erase s.currentThread) →
        ∃ s', Scheduler.skip n t=some s' ∧ s'.ThreadList ∧
          ¬(s'.threads s'.currentThread).state.Skipped := by
      intro t hne ht htcur htroot htlinked
      have hlen : ys.length+1 < n+1 := hn.resolve_left (fun h => hne h.1)
      obtain ⟨as,bs,hsplit,hrest⟩ := hs.rest hcur (Nat.lt_of_succ_lt_succ hlen) ht htcur htroot htlinked
      exact ih ht hsplit hrest
    have hroot : ∀ st, (s.threads s.currentThread).state=st → st.Skipped →
        s.currentThread≠s.rootThread := by
      rintro st rfl hskip he
      rw [he] at hskip
      exact hs.runnable hskip
    have hmem := hs.next_mem hs.current
    unfold Scheduler.skip
    split
    · rename_i hstate
      exact hgo _ (hroot _ hstate (.inl rfl)) (hs.withCurrent hmem) rfl rfl (.inl rfl)
    · rename_i hstate
      have hne := hroot _ hstate (.inr rfl)
      have hpid := hs.pid _ (hs.made _ hs.current)
      have hpid₁ : (s.threads s.currentThread).pid≠(s.threads s.rootThread).pid := by
        rw [hpid,hs.pid _ (hs.made _ hs.root_mem)]
        exact hne
      have hpid₂ : (s.threads s.currentThread).pid≠(s.threads (s.nextOf s.currentThread)).pid := by
        rw [hpid,hs.pid _ (hs.made _ hmem)]
        exact fun h => hs.next_ne hs.current hne h.symm
      obtain ⟨t,ht,htlist,hsame,hlinked⟩ :=
        (hs.withCurrent hmem).removeAndDestroyThread hpid₁ hpid₂
      rw [hpid] at hlinked
      dsimp only
      rw [ht,Option.bind_some]
      exact hgo t hne htlist hsame.current hsame.root hlinked
    · rename_i h1 h2
      exact ⟨s,rfl,hs,fun h => h.elim h1 h2⟩

theorem ThreadList.setState (hs : s.ThreadList) {i : Nat} {state : ThreadState}
    (h : i=s.rootThread → ¬state.Skipped) : (s.setState i state).ThreadList := by
  refine hs.of_same (sameLinks_setState s i state) hs.current ?_
  rw [Scheduler.setState,threads_modify]
  split
  · rename_i he
    exact h he.symm
  · exact hs.runnable

theorem ThreadList.preempt (hs : s.ThreadList) (regs : CpuCtx) : (s.preempt regs).ThreadList := by
  have hstep : ∀ t : Scheduler, t.ThreadList →
      ThreadList { t.setState t.currentThread .sleep with
        currentThread := (t.setState t.currentThread .sleep).nextOf t.currentThread } := by
    intro t ht
    have ht' : (t.setState t.currentThread .sleep).ThreadList :=
      ht.setState (by rintro - (h | h) <;> cases h)
    exact ht'.withCurrent (ht'.next_mem ht'.current)
  unfold Scheduler.preempt
  split
  · refine hstep _ ?_
    exact hs.of_same ⟨fun _ => rfl,fun _ => rfl,fun _ => rfl,rfl,rfl,rfl,rfl⟩
      (hs.prev_mem hs.current) hs.runnable
  · refine hstep _ (hs.of_same (sameLinks_setRegs s _ regs) hs.current ?_)
    rw [Scheduler.setRegs,field_modify Thread.state (by intro; rfl)]
    exact hs.runnable

@[simp] theorem made_preempt (s : Scheduler) (regs : CpuCtx) : (s.preempt regs).made=s.made := by
  unfold Scheduler.preempt
  split <;> rfl

/-- Every tick returns, and leaves the list a ring. -/
theorem ThreadList.schedTick (hs : s.ThreadList) (regs : CpuCtx) :
    ∃ x, s.schedTick regs=some x ∧ x.2.ThreadList := by
  unfold Scheduler.schedTick
  split
  · exact ⟨_,rfl,hs⟩
  · have hp := hs.preempt regs
    obtain ⟨xs,ys,hcur⟩ := List.append_of_mem hp.current
    have hlen := hp.length_le
    rw [hcur,List.length_append,List.length_cons,made_preempt] at hlen
    obtain ⟨t,ht,htlist,hrun⟩ := hp.skip hcur (.inr (by omega : ys.length+1 < s.made+1))
    rw [ht]
    exact ⟨_,rfl,htlist.setState (by rintro - (h | h) <;> cases h)⟩

end Scheduler

inductive SchedCall where
  | create (usermode : Bool) (entry stack : BitVec 64) (rsp : Option (BitVec 64))
  | remove (pid : Nat)
  | tick (regs : CpuCtx)
  | setState (thr : Nat) (state : ThreadState)
  | start
  | stop

def schedCall (s : Scheduler) : SchedCall → Option Scheduler
  | .create usermode entry stack rsp => s.createThread usermode entry stack rsp
  | .remove pid => s.removeAndDestroyThread pid
  | .tick regs => (s.schedTick regs).map (fun x => x.2)
  | .setState thr state => some (s.setState thr state)
  | .start => some s.start
  | .stop => some s.stop

/-- Fewer than 2^31 threads are made, neither the root thread nor the current one is
removed, and the root thread is never stalled or a zombie. -/
def SchedCall.Allowed (s : Scheduler) : SchedCall → Prop
  | .create .. => s.made+1 < 2^31
  | .remove pid => pid≠(s.threads s.rootThread).pid ∧ pid≠(s.threads s.currentThread).pid
  | .tick _ => True
  | .setState thr state => thr=s.rootThread → ¬state.Skipped
  | .start => True
  | .stop => True

instance (s : Scheduler) : (l : SchedCall) → Decidable (l.Allowed s)
  | .create .. => inferInstanceAs (Decidable (_ < _))
  | .remove _ => inferInstanceAs (Decidable (_ ∧ _))
  | .tick _ => inferInstanceAs (Decidable True)
  | .setState .. => inferInstanceAs (Decidable (_ → _))
  | .start => inferInstanceAs (Decidable True)
  | .stop => inferInstanceAs (Decidable True)

def schedRuns : System Scheduler SchedCall := (System.ofPartial schedCall).restrict SchedCall.Allowed

namespace Scheduler

theorem ThreadList.call (hs : s.ThreadList) {l : SchedCall} (hl : l.Allowed s) :
    ∃ s', schedCall s l=some s' ∧ s'.ThreadList := by
  cases l with
  | create usermode entry stack rsp =>
    obtain ⟨s',h,hlist⟩ := hs.createThread (Nat.lt_trans hl (by decide)) usermode entry stack rsp
    exact ⟨s',h,hlist⟩
  | remove pid =>
    obtain ⟨s',h,hlist,-⟩ := hs.removeAndDestroyThread hl.1 hl.2
    exact ⟨s',h,hlist⟩
  | tick regs =>
    obtain ⟨x,h,hlist⟩ := hs.schedTick regs
    exact ⟨x.2,by rw [schedCall,h]; rfl,hlist⟩
  | setState thr state => exact ⟨_,rfl,hs.setState hl⟩
  | start => exact ⟨_,rfl,hs.of_same ⟨fun _ => rfl,fun _ => rfl,fun _ => rfl,rfl,rfl,rfl,rfl⟩
      hs.current hs.runnable⟩
  | stop => exact ⟨_,rfl,hs.of_same ⟨fun _ => rfl,fun _ => rfl,fun _ => rfl,rfl,rfl,rfl,rfl⟩
      hs.current hs.runnable⟩

theorem ThreadRing.iterate_mem (hs : s.ThreadRing) (n : Nat) :
    s.nextOf^[n] s.rootThread∈s.linked := by
  induction n with
  | zero => exact hs.root_mem
  | succ n ih =>
    rw [Function.iterate_succ_apply']
    exact hs.next_mem ih

theorem ThreadRing.iterate_eq (hs : s.ThreadRing) (hn : n < s.linked.length) :
    s.nextOf^[n] s.rootThread=s.linked[n] := by
  obtain ⟨rest,hlinked,hring⟩ := hs.ring
  simp only [hlinked]
  rw [hlinked] at hn
  exact hring.iterate hn

theorem ThreadRing.prev_root (hs : s.ThreadRing) :
    s.linked.getLast?=some (s.prevOf s.rootThread) := by
  obtain ⟨rest,hlinked,hring⟩ := hs.ring
  rw [hlinked,hring.getLast?]

end Scheduler

theorem threadList_step {t : Scheduler} {l : SchedCall} (hs : s.ThreadList)
    (hstep : schedRuns.step s l t) : t.ThreadList := by
  obtain ⟨s',hs',hlist⟩ := hs.call hstep.1
  cases hs'.symm.trans hstep.2
  exact hlist

theorem threadList_reachable {regs : CpuCtx} {idle stack : BitVec 64}
    (hr : schedRuns.Reachable (.init regs idle stack) s) : s.ThreadList :=
  hr.invariant (Scheduler.threadList_init regs idle stack) (fun _ _ _ hs hstep => threadList_step hs hstep)

/-- The threads that were put into the list and not taken out of it form one ring
through the root thread, and every call in such a run returns. -/
theorem sched_list_circular (regs : CpuCtx) (idle stack : BitVec 64) (s : Scheduler)
    (hr : schedRuns.Reachable (.init regs idle stack) s) :
    (∀ t∈s.linked, s.nextOf t∈s.linked ∧ s.prevOf t∈s.linked ∧
      s.prevOf (s.nextOf t)=t ∧ s.nextOf (s.prevOf t)=t) ∧
    (∀ t, t∈s.linked ↔ ∃ n, s.nextOf^[n] s.rootThread=t) ∧
    (∀ n (hn : n < s.linked.length), s.nextOf^[n] s.rootThread=s.linked[n]) ∧
    s.linked.Nodup ∧ s.linked.getLast?=some (s.prevOf s.rootThread) ∧
    s.currentThread∈s.linked ∧ (s.linked.map (fun t => (s.threads t).pid)).Nodup ∧
    ∀ l : SchedCall, l.Allowed s → (schedCall s l).isSome := by
  have hs := threadList_reachable hr
  refine ⟨?_,?_,?_,hs.nodup,hs.prev_root,hs.current,?_,?_⟩
  · intro t ht
    obtain ⟨hnext,hprev⟩ := hs.inverse ht
    exact ⟨hs.next_mem ht,hs.prev_mem ht,hprev,hnext⟩
  · intro t
    refine ⟨?_,?_⟩
    · intro ht
      obtain ⟨n,hn,rfl⟩ := List.getElem_of_mem ht
      exact ⟨n,hs.iterate_eq hn⟩
    · rintro ⟨n,rfl⟩
      exact hs.iterate_mem n
  · exact fun n hn => hs.iterate_eq hn
  · refine hs.nodup.map_on ?_
    intro t ht u hu h
    rwa [hs.pid t (hs.made t ht),hs.pid u (hs.made u hu)] at h
  · intro l hl
    obtain ⟨s',hs',-⟩ := hs.call hl
    rw [hs']
    rfl

/-- A tick takes thread 2 out of the list while it walks past 3; then 1 is removed. -/
def zombieRun : List SchedCall :=
  [.start,.create false 1 2 none,.create false 1 2 none,.create true 1 2 (some 3),.tick .zero,.tick .zero,
    .setState 2 .zombie,.setState 3 .stalled,.tick .zero,.remove 1]

theorem sched_list_circular_zombie : ∃ s,
    schedRuns.Reachable (.init .zero 7 8) s ∧ s.linked=[0,3] ∧ s.prevOf s.rootThread=3 ∧
    s.nextOf 3∈s.linked ∧ s.prevOf (s.nextOf 3)=3 := by
  have hrun : (System.exec (fun s l => if SchedCall.Allowed s l then schedCall s l else none)
      (.init .zero 7 8) zombieRun).map Scheduler.linked=some [0,3] := by
    decide +kernel
  obtain ⟨s,hs,hlinked⟩ := Option.map_eq_some_iff.mp hrun
  have hr := System.reachable_exec_restrict schedCall SchedCall.Allowed _ _ _ hs
  obtain ⟨hin,-,-,-,hlast,-⟩ := sched_list_circular _ _ _ s hr
  obtain ⟨hnext,-,hback,-⟩ := hin 3 (by rw [hlinked]; decide)
  rw [hlinked] at hlast
  exact ⟨s,hr,hlinked,(Option.some.inj hlast).symm,hnext,hback⟩

end X64OS.Sched
