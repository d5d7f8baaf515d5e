import Mathlib.Data.List.Perm.Subperm
import X64OS.Framework.Linked
import X64OS.Framework.Runs
import X64OS.Sched.Sched

namespace X64OS.Sched

open Framework Function

def ThreadState.Skipped (st : ThreadState) : Prop := st=.stalled ∨ st=.zombie

instance : DecidablePred ThreadState.Skipped := fun _ => inferInstanceAs (Decidable (_ ∨ _))

namespace Scheduler

variable {s s' : Scheduler} {i j k : Nat}

theorem threads_modify (s : Scheduler) (i : Nat) (f : Thread → Thread) (j : Nat) :
    (s.modify i f).threads j=if j=i then f (s.threads i) else s.threads j :=
  update_apply _ _ _ _

section
variable (s : Scheduler) (i k j : Nat)

@[simp] theorem nextOf_setNext : (s.setNext i k).nextOf j=if j=i then k else s.nextOf j := by
  rw [nextOf,setNext,threads_modify]
  split <;> rfl

@[simp] theorem prevOf_setNext : (s.setNext i k).prevOf j=s.prevOf j := by
  rw [prevOf,setNext,threads_modify]
  split
  · rename_i h
    rw [h]
    rfl
  · rfl

@[simp] theorem nextOf_setPrev : (s.setPrev i k).nextOf j=s.nextOf j := by
  rw [nextOf,setPrev,threads_modify]
  split
  · rename_i h
    rw [h]
    rfl
  · rfl

@[simp] theorem prevOf_setPrev : (s.setPrev i k).prevOf j=if j=i then k else s.prevOf j := by
  rw [prevOf,setPrev,threads_modify]
  split <;> rfl

end

theorem field_modify {β : Type} (g : Thread → β) {f : Thread → Thread} (hg : ∀ t, g (f t)=g t)
    (s : Scheduler) (i j : Nat) : g ((s.modify i f).threads j)=g (s.threads j) := by
  rw [threads_modify]
  split
  · rename_i h
    rw [h,hg]
  · rfl

/-- A change of threads that keeps what the list is made of. -/
structure SameLinks (s s' : Scheduler) : Prop where
  next : ∀ i, s'.nextOf i=s.nextOf i
  prev : ∀ i, s'.prevOf i=s.prevOf i
  pid : ∀ i, (s'.threads i).pid=(s.threads i).pid
  made : s'.made=s.made
  root : s'.rootThread=s.rootThread
  nextPid : s'.nextPid=s.nextPid
  linked : s'.linked=s.linked

theorem SameLinks.trans {s s' t : Scheduler} (h : SameLinks s s') (h' : SameLinks s' t) :
    SameLinks s t where
  next i := (h'.next i).trans (h.next i)
  prev i := (h'.prev i).trans (h.prev i)
  pid i := (h'.pid i).trans (h.pid i)
  made := h'.made.trans h.made
  root := h'.root.trans h.root
  nextPid := h'.nextPid.trans h.nextPid
  linked := h'.linked.trans h.linked

/-- The threads in the list form one ring from the root thread on. -/
structure ThreadRing (s : Scheduler) : Prop where
  ring : ∃ rest, s.linked=s.rootThread::rest ∧
    Linked s.nextOf s.prevOf s.rootThread rest s.rootThread
  nodup : s.linked.Nodup
  current : s.currentThread∈s.linked
  made : ∀ i∈s.linked, i < s.made

/-- The ring, while every thread has its number as its pid and the root thread may run. -/
structure ThreadList (s : Scheduler) : Prop extends ThreadRing s where
  pid : ∀ i, i < s.made → (s.threads i).pid=i
  nextPid : s.nextPid=s.made
  runnable : ¬(s.threads s.rootThread).state.Skipped

theorem length_linked_le (hnodup : s.linked.Nodup) (hmade : ∀ i∈s.linked, i < s.made) :
    s.linked.length ≤ s.made := by
  have hsub : s.linked ⊆ List.range s.made := fun i hi => List.mem_range.mpr (hmade i hi)
  have hle := (List.subperm_of_subset hnodup hsub).length_le
  rwa [List.length_range] at hle

theorem ThreadRing.length_le (hs : s.ThreadRing) : s.linked.length ≤ s.made :=
  length_linked_le hs.nodup hs.made

variable {xs ys : List Nat} {c thr : Nat}

theorem latest_spec {a b : Nat} (hb : s.rootThread=b) (h : Linked s.nextOf s.prevOf a xs b)
    (hxs : b∉xs) {n : Nat} (hn : xs.length < n) : s.latest n a=some (s.prevOf b) := by
  induction xs generalizing a n with
  | nil =>
    obtain ⟨m,rfl⟩ : ∃ m, n=m+1 := ⟨n-1,by simp at hn; omega⟩
    rw [latest,if_pos (by rw [h.1,hb]),h.2]
  | cons x xs ih =>
    obtain ⟨m,rfl⟩ : ∃ m, n=m+1 := ⟨n-1,by simp at hn; omega⟩
    obtain ⟨h1,h2,h3⟩ := h
    have hne : s.nextOf a≠s.rootThread := by
      rw [h1,hb]
      rintro rfl
      exact hxs List.mem_cons_self
    rw [latest,if_neg hne,h1]
    exact ih h3 (fun hmem => hxs (List.mem_cons_of_mem _ hmem)) (by simp at hn; omega)

theorem findFrom_spec {a b pid : Nat} (hb : s.rootThread=b) (h : Linked s.nextOf s.prevOf a xs b)
    (hxs : b∉xs) {n : Nat} (hn : xs.length < n) :
    ∃ x, s.findFrom pid n a=some x ∧
      ∀ thr, x=some thr → thr∈a::xs ∧ (s.threads thr).pid=pid ∧ s.nextOf thr≠b := by
  induction xs generalizing a n with
  | nil =>
    obtain ⟨m,rfl⟩ : ∃ m, n=m+1 := ⟨n-1,by simp at hn; omega⟩
    refine ⟨none,by rw [findFrom,if_pos (by rw [h.1,hb])],?_⟩
    intro thr hthr
    cases hthr
  | cons x xs ih =>
    obtain ⟨m,rfl⟩ : ∃ m, n=m+1 := ⟨n-1,by simp at hn; omega⟩
    obtain ⟨h1,h2,h3⟩ := h
    have hne : s.nextOf a≠b := by
      rw [h1]
      rintro rfl
      exact hxs List.mem_cons_self
    rw [findFrom,if_neg (by rwa [hb])]
    by_cases hpid : (s.threads a).pid=pid
    · refine ⟨some a,by rw [if_pos hpid],?_⟩
      intro thr hthr
      cases hthr
      exact ⟨List.mem_cons_self,hpid,hne⟩
    · rw [if_neg hpid,h1]
      obtain ⟨y,hy,hspec⟩ := ih h3 (fun hmem => hxs (List.mem_cons_of_mem _ hmem))
        (by simp at hn; omega : xs.length < m)
      refine ⟨y,hy,?_⟩
      intro thr hthr
      obtain ⟨hmem,hrest⟩ := hspec thr hthr
      exact ⟨List.mem_cons_of_mem _ hmem,hrest⟩

theorem ThreadRing.of_same (hs : s.ThreadRing) (h : SameLinks s s')
    (hcur : s'.currentThread∈s.linked) : s'.ThreadRing := by
  have hn : s'.nextOf=s.nextOf := funext h.next
  have hp : s'.prevOf=s.prevOf := funext h.prev
  obtain ⟨rest,hlinked,hring⟩ := hs.ring
  refine ⟨⟨rest,?_,?_⟩,?_,?_,?_⟩
  · rw [h.linked,h.root,hlinked]
  · rw [hn,hp,h.root]
    exact hring
  · rw [h.linked]
    exact hs.nodup
  · rw [h.linked]
    exact hcur
  · rw [h.linked,h.made]
    exact hs.made

theorem ThreadList.of_same (hs : s.ThreadList) (h : SameLinks s s')
    (hcur : s'.currentThread∈s.linked) (hrun : ¬(s'.threads s.rootThread).state.Skipped) :
    s'.ThreadList where
  toThreadRing := hs.toThreadRing.of_same h hcur
  pid := by
    intro i hi
    rw [h.pid]
    rw [h.made] at hi
    exact hs.pid i hi
  nextPid := by rw [h.nextPid,h.made,hs.nextPid]
  runnable := by
    rw [h.root]
    exact hrun

theorem sameLinks_setState (s : Scheduler) (i : Nat) (state : ThreadState) :
    SameLinks s (s.setState i state) :=
  ⟨fun _ => field_modify Thread.nextThread (by intro; rfl) _ _ _,
    fun _ => field_modify Thread.prevThread (by intro; rfl) _ _ _,
    fun _ => field_modify Thread.pid (by intro; rfl) _ _ _,rfl,rfl,rfl,rfl⟩

theorem sameLinks_setRegs (s : Scheduler) (i : Nat) (regs : CpuCtx) :
    SameLinks s (s.setRegs i regs) :=
  ⟨fun _ => field_modify Thread.nextThread (by intro; rfl) _ _ _,
    fun _ => field_modify Thread.prevThread (by intro; rfl) _ _ _,
    fun _ => field_modify Thread.pid (by intro; rfl) _ _ _,rfl,rfl,rfl,rfl⟩

section
variable (hs : s.ThreadRing)
include hs

theorem ThreadRing.around (h : s.linked=xs++c::ys) :
    Linked s.nextOf s.prevOf c ys s.rootThread ∧
      ∃ zs, s.rootThread::zs ⊆ s.linked ∧ Linked s.nextOf s.prevOf s.rootThread zs c := by
  obtain ⟨rest,hlinked,hring⟩ := hs.ring
  rw [hlinked] at h ⊢
  cases xs with
  | nil =>
    cases h
    exact ⟨hring,ys,fun _ hx => hx,hring⟩
  | cons x xs =>
    rw [List.cons_append,List.cons.injEq] at h
    rw [h.2] at hring ⊢
    obtain ⟨hbefore,hafter⟩ := linked_append.mp hring
    refine ⟨hafter,xs,?_,hbefore⟩
    exact List.cons_subset_cons _ (List.subset_append_left _ _)

theorem ThreadRing.nextOf_eq (h : s.linked=xs++c::ys) : s.nextOf c=ys.head?.getD s.rootThread := by
  obtain ⟨hafter,-⟩ := hs.around h
  cases ys with
  | nil => exact hafter.1
  | cons y ys => exact hafter.1

theorem ThreadRing.root_mem : s.rootThread∈s.linked := by
  obtain ⟨rest,hlinked,-⟩ := hs.ring
  rw [hlinked]
  exact List.mem_cons_self

theorem ThreadRing.next_mem (hc : c∈s.linked) : s.nextOf c∈s.linked := by
  obtain ⟨xs,ys,h⟩ := List.append_of_mem hc
  rw [hs.nextOf_eq h]
  cases ys with
  | nil => exact hs.root_mem
  | cons y ys =>
    rw [h]
    simp

theorem ThreadRing.prev_mem (hc : c∈s.linked) : s.prevOf c∈s.linked := by
  obtain ⟨xs,ys,h⟩ := List.append_of_mem hc
  obtain ⟨-,zs,hzs,hbefore⟩ := hs.around h
  exact hzs hbefore.prev_mem

theorem ThreadRing.inverse (hc : c∈s.linked) :
    s.nextOf (s.prevOf c)=c ∧ s.prevOf (s.nextOf c)=c := by
  obtain ⟨xs,ys,h⟩ := List.append_of_mem hc
  obtain ⟨hafter,zs,-,hbefore⟩ := hs.around h
  exact ⟨hbefore.next_prev,hafter.prev_next⟩

end

theorem threadList_init (regs : CpuCtx) (idle stack : BitVec 64) :
    (init regs idle stack).ThreadList where
  ring := ⟨[],rfl,rfl,rfl⟩
  nodup := List.nodup_singleton 0
  current := List.mem_singleton_self 0
  made := by
    intro i hi
    rw [List.mem_singleton.mp hi]
    exact Nat.zero_lt_one
  pid := by
    intro i hi
    exact (Nat.lt_one_iff.mp hi).symm
  nextPid := rfl
  runnable := by
    rintro (h | h)
    · cases h
    · cases h

structure SameThreads (s s' : Scheduler) : Prop where
  regs : ∀ i, (s'.threads i).regs=(s.threads i).regs
  pid : ∀ i, (s'.threads i).pid=(s.threads i).pid
  state : ∀ i, (s'.threads i).state=(s.threads i).state
  made : s'.made=s.made
  root : s'.rootThread=s.rootThread
  current : s'.currentThread=s.currentThread
  schedRun : s'.schedRun=s.schedRun
  nextPid : s'.nextPid=s.nextPid
  justStarted : s'.justStarted=s.justStarted

theorem SameThreads.rfl' (s : Scheduler) : SameThreads s s :=
  ⟨fun _ => rfl,fun _ => rfl,fun _ => rfl,rfl,rfl,rfl,rfl,rfl,rfl⟩

theorem SameThreads.trans {s s' t : Scheduler} (h : SameThreads s s') (h' : SameThreads s' t) :
    SameThreads s t where
  regs i := (h'.regs i).trans (h.regs i)
  pid i := (h'.pid i).trans (h.pid i)
  state i := (h'.state i).trans (h.state i)
  made := h'.made.trans h.made
  root := h'.root.trans h.root
  current := h'.current.trans h.current
  schedRun := h'.schedRun.trans h.schedRun
  nextPid := h'.nextPid.trans h.nextPid
  justStarted := h'.justStarted.trans h.justStarted

section
variable (s : Scheduler)

theorem sameThreads_setNext (i j : Nat) : SameThreads s (s.setNext i j) :=
  ⟨fun _ => field_modify Thread.regs (by intro; rfl) _ _ _,
    fun _ => field_modify Thread.pid (by intro; rfl) _ _ _,
    fun _ => field_modify Thread.state (by intro; rfl) _ _ _,rfl,rfl,rfl,rfl,rfl,rfl⟩

theorem sameThreads_setPrev (i j : Nat) : SameThreads s (s.setPrev i j) :=
  ⟨fun _ => field_modify Thread.regs (by intro; rfl) _ _ _,
    fun _ => field_modify Thread.pid (by intro; rfl) _ _ _,
    fun _ => field_modify Thread.state (by intro; rfl) _ _ _,rfl,rfl,rfl,rfl,rfl,rfl⟩

theorem sameThreads_insertAfter (tmp thr : Nat) : SameThreads s (s.insertAfter tmp thr) := by
  have h := (((sameThreads_setNext s thr (s.nextOf tmp)).trans (sameThreads_setNext _ tmp thr)).trans
    (sameThreads_setPrev _ thr tmp)).trans (sameThreads_setPrev _ s.rootThread thr)
  exact ⟨h.regs,h.pid,h.state,h.made,h.root,h.current,h.schedRun,h.nextPid,h.justStarted⟩

theorem nextOf_insertAfter (tmp thr j : Nat) :
    (s.insertAfter tmp thr).nextOf j=
      if j=tmp then thr else if j=thr then s.nextOf tmp else s.nextOf j := by
  show ((((s.setNext thr (s.nextOf tmp)).setNext tmp thr).setPrev thr tmp).setPrev
    s.rootThread thr).nextOf j=_
  simp

theorem prevOf_insertAfter (tmp thr j : Nat) :
    (s.insertAfter tmp thr).prevOf j=
      if j=s.rootThread then thr else if j=thr then tmp else s.prevOf j := by
  show ((((s.setNext thr (s.nextOf tmp)).setNext tmp thr).setPrev thr tmp).setPrev
    s.rootThread thr).prevOf j=_
  simp

theorem threads_newThread (regs : CpuCtx) {i : Nat} (hi : i≠s.made) :
    (s.newThread regs).threads i=s.threads i :=
  update_of_ne hi _ _

theorem threads_newThread_self (regs : CpuCtx) :
    (s.newThread regs).threads s.made=⟨regs,s.nextPid,.new,0,0⟩ :=
  update_self _ _ _

end

theorem Linked.insertAfter {root : Nat} {rest : List Nat} (hroot : s.rootThread=root)
    (h : Linked s.nextOf s.prevOf root rest root) (hnodup : (root::rest).Nodup)
    (hthr : thr∉root::rest) :
    Linked (s.insertAfter (s.prevOf root) thr).nextOf (s.insertAfter (s.prevOf root) thr).prevOf
      root (rest++[thr]) root := by
  have hne : thr≠s.prevOf root := by
    rintro rfl
    exact hthr h.prev_mem
  have hrootne : thr≠root := by
    rintro rfl
    exact hthr List.mem_cons_self
  refine h.snoc hnodup ?_ ?_ ?_ ?_ ?_ ?_
  · rw [nextOf_insertAfter,if_pos rfl]
  · rw [nextOf_insertAfter,if_neg hne,if_pos rfl,h.next_prev]
  · rw [prevOf_insertAfter,hroot,if_neg hrootne,if_pos rfl]
  · rw [prevOf_insertAfter,if_pos hroot.symm]
  · intro x hx hlast
    rw [nextOf_insertAfter,if_neg hlast,if_neg]
    rintro rfl
    exact hthr hx
  · intro x hx
    rw [prevOf_insertAfter,hroot,if_neg,if_neg]
    · rintro rfl
      exact hthr (List.mem_cons_of_mem _ hx)
    · rintro rfl
      exact (List.nodup_cons.mp hnodup).1 hx

structure Created (s : Scheduler) (regs : CpuCtx) (s' : Scheduler) : Prop where
  same : SameThreads (s.newThread regs) s'
  linked : s'.linked=s.linked++[s.made]

theorem ThreadRing.createThread (hs : s.ThreadRing) (usermode : Bool) (entry stack : BitVec 64)
    (rsp : Option (BitVec 64)) :
    ∃ s', s.createThread usermode entry stack rsp=some s' ∧ s'.ThreadRing ∧
      Created s (initialRegs usermode entry stack rsp) s' := by
  obtain ⟨rest,hlinked,hring⟩ := hs.ring
  unfold Scheduler.createThread
  generalize initialRegs usermode entry stack rsp=regs
  have hlt : ∀ i∈s.rootThread::rest, i < s.made := by
    rw [← hlinked]
    exact hs.made
  have hthr : s.made∉s.rootThread::rest := fun hmem => Nat.lt_irrefl _ (hlt _ hmem)
  have hat : ∀ i∈s.rootThread::rest, (s.newThread regs).threads i=s.threads i :=
    fun i hi => threads_newThread s regs (Nat.ne_of_lt (hlt i hi))
  have hnodup := hs.nodup
  rw [hlinked] at hnodup
  have hlen := hs.length_le
  rw [hlinked,List.length_cons] at hlen
  -- the pointers of the threads in the list are not touched by the allocation
  have hring₁ : Linked (s.newThread regs).nextOf (s.newThread regs).prevOf s.rootThread rest
      s.rootThread := by
    refine hring.congr (fun i hi => ?_) (fun i hi => ?_)
    · rw [nextOf,hat i hi]
      rfl
    · rw [prevOf,hat i (by simp only [List.mem_append,List.mem_cons] at hi ⊢; tauto)]
      rfl
  have hlatest : (s.newThread regs).latest (s.newThread regs).made (s.newThread regs).rootThread=
      some ((s.newThread regs).prevOf s.rootThread) :=
    latest_spec rfl hring₁ (List.nodup_cons.mp hnodup).1 (Nat.lt_succ_of_lt hlen)
  dsimp only
  rw [hlatest,Option.map_some]
  have hsame := sameThreads_insertAfter (s.newThread regs)
    ((s.newThread regs).prevOf s.rootThread) s.made
  have hlinked' : ((s.newThread regs).insertAfter ((s.newThread regs).prevOf s.rootThread)
      s.made).linked=s.linked++[s.made] := rfl
  refine ⟨_,rfl,⟨⟨rest++[s.made],?_,?_⟩,?_,?_,?_⟩,hsame,hlinked'⟩
  · rw [hlinked',hlinked,hsame.root]
    rfl
  · rw [hsame.root]
    exact Linked.insertAfter rfl hring₁ hnodup hthr
  · rw [hlinked',hlinked]
    exact List.nodup_append.mpr ⟨hnodup,List.nodup_singleton _,by
      intro a ha b hb
      rw [List.mem_singleton.mp hb]
      rintro rfl
      exact hthr ha⟩
  · rw [hlinked',hsame.current]
    exact List.mem_append_left _ hs.current
  · rw [hlinked',hsame.made]
    intro i hi
    rcases List.mem_append.mp hi with hi | hi
    · exact Nat.lt_succ_of_lt (hs.made i hi)
    · rw [List.mem_singleton.mp hi]
      exact Nat.lt_succ_self _

theorem ThreadList.createThread (hs : s.ThreadList) (hmade : s.made+1 < 2^32) (usermode : Bool)
    (entry stack : BitVec 64) (rsp : Option (BitVec 64)) :
    ∃ s', s.createThread usermode entry stack rsp=some s' ∧ s'.ThreadList := by
  obtain ⟨s',hs',hring,hsame,-⟩ := hs.toThreadRing.createThread usermode entry stack rsp
  refine ⟨s',hs',hring,?_,?_,?_⟩
  · intro i hi
    rw [hsame.made] at hi
    rw [hsame.pid]
    by_cases hi' : i=s.made
    · rw [hi',threads_newThread_self]
      exact hs.nextPid
    · rw [threads_newThread s _ hi']
      exact hs.pid i (by have := Nat.lt_succ_iff.mp hi; omega)
  · rw [hsame.nextPid,hsame.made]
    show (s.nextPid+1)%2^32=s.made+1
    rw [hs.nextPid,Nat.mod_eq_of_lt hmade]
  · rw [hsame.root,hsame.state]
    show ¬((s.newThread _).threads s.rootThread).state.Skipped
    rw [threads_newThread s _ (Nat.ne_of_lt (hs.made _ hs.root_mem))]
    exact hs.runnable

theorem unlink_eq (h : s.prevOf s.rootThread≠thr) :
    s.unlink thr={ (s.setNext (s.prevOf thr) (s.nextOf thr)).setPrev (s.nextOf thr) (s.prevOf thr) with
      linked := s.linked.erase thr } := by
  rw [unlink,if_neg h]
  rfl

theorem sameThreads_unlink (s : Scheduler) (thr : Nat) : SameThreads s (s.unlink thr) := by
  have hsplice : ∀ t : Scheduler, SameThreads t
      { (t.setNext (t.prevOf thr) (t.nextOf thr)).setPrev (t.nextOf thr) (t.prevOf thr) with
        linked := t.linked.erase thr } := by
    intro t
    have hsame := (sameThreads_setNext t (t.prevOf thr) (t.nextOf thr)).trans
      (sameThreads_setPrev _ (t.nextOf thr) (t.prevOf thr))
    exact ⟨hsame.regs,hsame.pid,hsame.state,rfl,rfl,rfl,rfl,rfl,rfl⟩
  unfold unlink
  split
  · refine (sameThreads_setPrev s s.rootThread (s.prevOf thr)).trans ?_
    exact hsplice (s.setPrev s.rootThread (s.prevOf thr))
  · exact hsplice s

theorem sameThreads_remove {pid : Nat} (h : s.removeAndDestroyThread pid=some s') :
    SameThreads s s' := by
  obtain ⟨x,-,rfl⟩ := Option.map_eq_some_iff.mp h
  cases x with
  | none => exact .rfl' s
  | some thr => exact sameThreads_unlink s thr

theorem nextOf_unlink (h : s.prevOf s.rootThread≠thr) (j : Nat) :
    (s.unlink thr).nextOf j=if j=s.prevOf thr then s.nextOf thr else s.nextOf j := by
  rw [unlink_eq h]
  show ((s.setNext (s.prevOf thr) (s.nextOf thr)).setPrev (s.nextOf thr) (s.prevOf thr)).nextOf j=_
  simp

theorem prevOf_unlink (h : s.prevOf s.rootThread≠thr) (j : Nat) :
    (s.unlink thr).prevOf j=if j=s.nextOf thr then s.prevOf thr else s.prevOf j := by
  rw [unlink_eq h]
  show ((s.setNext (s.prevOf thr) (s.nextOf thr)).setPrev (s.nextOf thr) (s.prevOf thr)).prevOf j=_
  simp

theorem linked_unlink (h : Linked s.nextOf s.prevOf s.rootThread (xs++thr::ys) s.rootThread)
    (hnodup : (s.rootThread::(xs++thr::ys)).Nodup) (hlast : s.prevOf s.rootThread≠thr) :
    Linked (s.unlink thr).nextOf (s.unlink thr).prevOf s.rootThread (xs++ys) s.rootThread := by
  refine h.unlink hnodup (List.nodup_cons.mp hnodup).1 ?_ ?_ ?_ ?_
  · rw [nextOf_unlink hlast,if_pos rfl]
  · rw [prevOf_unlink hlast,if_pos rfl]
  · intro x hx
    rw [nextOf_unlink hlast,if_neg hx]
  · intro x hx
    rw [prevOf_unlink hlast,if_neg hx]

theorem ThreadList.unlink (hs : s.ThreadList) (hthr : thr∈s.linked) (hroot : thr≠s.rootThread)
    (hcur : thr≠s.currentThread) (hlast : s.nextOf thr≠s.rootThread) :
    (s.unlink thr).ThreadList ∧ SameThreads s (s.unlink thr) ∧
      (s.unlink thr).linked=s.linked.erase thr := by
  have hnotlast : s.prevOf s.rootThread≠thr := by
    rintro rfl
    exact hlast (hs.inverse hs.root_mem).1
  have hsame := sameThreads_unlink s thr
  have herase : (s.unlink thr).linked=s.linked.erase thr := by
    rw [unlink_eq hnotlast]
  refine ⟨⟨⟨?_,?_,?_,?_⟩,?_,?_,?_⟩,hsame,herase⟩
  · obtain ⟨rest,hlinked,hring⟩ := hs.ring
    have hnodup := hs.nodup
    rw [hlinked] at hthr hnodup herase
    obtain ⟨xs,ys,rfl⟩ := List.append_of_mem ((List.mem_cons.mp hthr).resolve_left hroot)
    refine ⟨xs++ys,?_,?_⟩
    · rw [← List.cons_append] at hnodup herase
      rw [herase,hsame.root,erase_middle hnodup]
      rfl
    · rw [hsame.root]
      exact linked_unlink hring hnodup hnotlast
  · rw [herase]
    exact hs.nodup.erase thr
  · rw [herase,hsame.current]
    exact (List.mem_erase_of_ne (Ne.symm hcur)).mpr hs.current
  · rw [herase,hsame.made]
    exact fun i hi => hs.made i (List.mem_of_mem_erase hi)
  · intro i hi
    rw [hsame.pid]
    rw [hsame.made] at hi
    exact hs.pid i hi
  · rw [hsame.nextPid,hsame.made,hs.nextPid]
  · rw [hsame.root,hsame.state]
    exact hs.runnable

theorem ThreadList.removeAndDestroyThread (hs : s.ThreadList) {pid : Nat}
    (hroot : pid≠(s.threads s.rootThread).pid) (hcur : pid≠(s.threads s.currentThread).pid) :
    ∃ s', s.removeAndDestroyThread pid=some s' ∧ s'.ThreadList ∧ SameThreads s s' ∧
      (s'.linked=s.linked ∨ s'.linked=s.linked.erase pid) := by
  obtain ⟨rest,hlinked,hring⟩ := hs.ring
  have hnodup := hs.nodup
  have hlen := hs.length_le
  rw [hlinked] at hnodup hlen
  obtain ⟨x,hx,hfound⟩ : ∃ x, s.findThreadByPid pid=some x ∧
      ∀ thr, x=some thr → thr∈s.rootThread::rest ∧ (s.threads thr).pid=pid ∧
        s.nextOf thr≠s.rootThread :=
    findFrom_spec rfl hring (List.nodup_cons.mp hnodup).1 hlen
  rw [Scheduler.removeAndDestroyThread,hx,Option.map_some]
  cases x with
  | none => exact ⟨s,rfl,hs,.rfl' s,.inl rfl⟩
  | some thr =>
    obtain ⟨hmem,hpid,hlast⟩ := hfound thr rfl
    rw [← hlinked] at hmem
    have hthr : thr=pid := (hs.pid thr (hs.made thr hmem)).symm.trans hpid
    have hroot' : thr≠s.rootThread := by
      rintro rfl
      exact hroot hpid.symm
    have hcur' : thr≠s.currentThread := by
      rintro rfl
      exact hcur hpid.symm
    obtain ⟨hlist,hsame,herase⟩ := hs.unlink hmem hroot' hcur' hlast
    rw [hthr] at herase
    exact ⟨_,rfl,hlist,hsame,.inr (by rw [← herase,hthr])⟩

end Scheduler

end X64OS.Sched
