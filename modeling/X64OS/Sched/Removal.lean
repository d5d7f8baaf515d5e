import X64OS.Sched.ThreadList

namespace X64OS.Sched.Scheduler

open Framework

variable {s s' : Scheduler}

/-- The pointers lead from the root thread through the others in this order and back to it. -/
def Links (s : Scheduler) (l : List Nat) : Prop :=
  ∃ rest, l=s.rootThread::rest ∧ Linked s.nextOf s.prevOf s.rootThread rest s.rootThread

variable {xs ys : List Nat} {c : Nat}

theorem findFrom_eq {a b pid : Nat} (hb : s.rootThread=b) (h : Linked s.nextOf s.prevOf a xs b)
    (hxs : b∉xs) {n : Nat} (hn : xs.length < n) :
    s.findFrom pid n a=some ((a::xs).dropLast.find? (fun i => (s.threads i).pid=pid)) := by
  induction xs generalizing a n with
  | nil =>
    cases n with
    | zero => cases hn
    | succ n => simp [findFrom,h.1,hb]
  | cons x xs ih =>
    cases n with
    | zero => cases hn
    | succ n =>
      obtain ⟨hnext,-,hrest⟩ := h
      rw [List.mem_cons,not_or] at hxs
      have hne : x≠s.rootThread := fun hx => hxs.1 (hb.symm.trans hx.symm)
      rw [List.dropLast_cons_cons,List.find?_cons,findFrom,hnext,if_neg hne]
      by_cases hpid : (s.threads a).pid=pid
      · simp [hpid]
      · simp [hpid,ih hrest hxs.2 (by simpa using hn)]

theorem findThreadByPid_eq (h : s.Links s.linked) (hnodup : s.linked.Nodup)
    (hlen : s.linked.length ≤ s.made) (pid : Nat) :
    s.findThreadByPid pid=some (s.linked.dropLast.find? (fun i => (s.threads i).pid=pid)) := by
  obtain ⟨rest,hlinked,hring⟩ := h
  rw [hlinked] at hnodup hlen ⊢
  exact findFrom_eq rfl hring (List.nodup_cons.mp hnodup).1 hlen

theorem find_dropLast_iff (hc : c∉xs) {p : Nat → Bool} (hp : p c) :
    (xs++c::ys).dropLast.find? p=some c ↔ ys≠[] ∧ ∀ d∈xs, p d=false := by
  cases ys with
  | nil =>
    rw [List.dropLast_concat]
    constructor
    · intro h
      exact absurd (List.mem_of_find?_eq_some h) hc
    · rintro ⟨h,-⟩
      exact absurd rfl h
  | cons y ys =>
    rw [List.dropLast_append_cons,List.dropLast_cons_cons,List.find?_append,List.find?_cons,hp]
    constructor
    · intro h
      refine ⟨List.cons_ne_nil y ys,?_⟩
      cases hfind : xs.find? p with
      | none => simpa using List.find?_eq_none.mp hfind
      | some d =>
        rw [hfind] at h
        cases h
        exact absurd (List.mem_of_find?_eq_some hfind) hc
    · rintro ⟨-,h⟩
      have hfind : xs.find? p=none := by simpa [List.find?_eq_none] using h
      simp [hfind]

theorem findThreadByPid_iff (h : s.Links s.linked) (hnodup : s.linked.Nodup)
    (hmade : ∀ i∈s.linked, i < s.made) (hc : s.linked=xs++c::ys) :
    s.findThreadByPid (s.threads c).pid=some (some c) ↔
      ys≠[] ∧ ∀ d∈xs, (s.threads d).pid≠(s.threads c).pid := by
  rw [findThreadByPid_eq h hnodup (length_linked_le hnodup hmade),Option.some_inj]
  rw [hc] at hnodup ⊢
  have hxs : c∉xs := fun hmem =>
    List.disjoint_of_nodup_append hnodup hmem List.mem_cons_self
  rw [find_dropLast_iff hxs (by simp)]
  simp

theorem Links.unlink (h : s.Links (xs++c::ys)) (hnodup : (xs++c::ys).Nodup) (hroot : c≠s.rootThread)
    (hys : ys≠[]) : (s.unlink c).Links (xs++ys) := by
  obtain ⟨rest,hrest,hring⟩ := h
  have hsame := sameThreads_unlink s c
  cases xs with
  | nil =>
    rw [List.nil_append,List.cons.injEq] at hrest
    exact absurd hrest.1 hroot
  | cons x xs =>
    rw [List.cons_append,List.cons.injEq] at hrest
    obtain ⟨rfl,rfl⟩ := hrest
    refine ⟨xs++ys,by rw [hsame.root,List.cons_append],?_⟩
    rw [hsame.root]
    apply linked_unlink hring hnodup
    -- The thread before the root thread is the last one, which is behind c.
    obtain ⟨-,hafter⟩ := linked_append.mp hring
    rintro hlast
    have hnext : s.nextOf c=s.rootThread := hlast ▸ hring.next_prev
    cases ys with
    | nil => exact hys rfl
    | cons y ys =>
      have hy : y=s.rootThread := hafter.1.symm.trans hnext
      simp [hy] at hnodup

/-- A thread of the list other than the root thread is found by its pid and taken out of the list,
with the others in their order, exactly if it is not the last and no thread before it has
its pid. -/
theorem remove_thread_iff (s : Scheduler) (xs ys : List Nat) (c : Nat) (h : s.Links s.linked)
    (hnodup : s.linked.Nodup) (hmade : ∀ i∈s.linked, i < s.made) (hc : s.linked=xs++c::ys)
    (hroot : c≠s.rootThread) :
    (s.findThreadByPid (s.threads c).pid=some (some c) ∧
      ∃ s', s.removeAndDestroyThread (s.threads c).pid=some s' ∧ SameThreads s s' ∧
        s'.Links (xs++ys)) ↔
      ys≠[] ∧ ∀ d∈xs, (s.threads d).pid≠(s.threads c).pid := by
  rw [← findThreadByPid_iff h hnodup hmade hc]
  constructor
  · exact And.left
  · intro hfind
    have hys := ((findThreadByPid_iff h hnodup hmade hc).mp hfind).1
    have hremove : s.removeAndDestroyThread (s.threads c).pid=some (s.unlink c) := by
      rw [removeAndDestroyThread,hfind,Option.map_some]
    rw [hc] at h hnodup
    exact ⟨hfind,s.unlink c,hremove,sameThreads_unlink s c,h.unlink hnodup hroot hys⟩

def fourThreads : Scheduler :=
  ⟨fun i => ⟨.zero,i,.new,(i+1)%4,(i+3)%4⟩,4,0,0,0,4,false,[0,1,2,3]⟩

theorem fourThreads_links : fourThreads.Links [0,1,2,3] :=
  ⟨[1,2,3],rfl,rfl,rfl,rfl,rfl,rfl,rfl,rfl,rfl⟩

theorem remove_thread_middle : fourThreads.findThreadByPid 2=some (some 2) ∧
    ∃ s', fourThreads.removeAndDestroyThread 2=some s' ∧ s'.Links [0,1,3] := by
  obtain ⟨hfind,s',hremove,-,hlinks⟩ := (remove_thread_iff fourThreads [0,1] [3] 2
    fourThreads_links (by decide) (by decide) rfl (by decide)).mpr (by decide)
  exact ⟨hfind,s',hremove,hlinks⟩

/-- The last thread is not found, and so it stays in the list. -/
theorem last_thread_stays : (fourThreads.threads 3).pid=3 ∧
    fourThreads.findThreadByPid 3=some none ∧
    fourThreads.removeAndDestroyThread 3=some fourThreads ∧ fourThreads.Links [0,1,2,3] :=
  ⟨rfl,rfl,rfl,fourThreads_links⟩

end X64OS.Sched.Scheduler
