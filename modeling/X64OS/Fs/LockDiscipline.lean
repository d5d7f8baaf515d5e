import X64OS.Fs.Locks

namespace X64OS.Fs

open Framework Framework.Locking

/-- The locks that are never held when an allocation starts. -/
def Lock.Inner : Lock → Prop
  | .slab _ | .pmm | .printf => True
  | _ => False

namespace Locked

variable {α β : Type} {p q : List Lock} {S : Lock → Prop} {m : LockM α}

/-- Whatever the program does with the locks of the allocator and of printf is in order. -/
def InnerSafe (m : LockM α) : Prop := Keeps Lock.Inner [] m []

theorem vfs_quiet : Keeps S p vfs p := .step (fun w : LockWorld => (w.vfs,w))

theorem setVfs_quiet (s : Vfs) : Keeps S p (setVfs s) p :=
  .step (fun w : LockWorld => ((),{ w with vfs := s }))

theorem files_quiet : Keeps S p files p := .step (fun w : LockWorld => (w.files,w))

theorem setFiles_quiet (s : Files) : Keeps S p (setFiles s) p :=
  .step (fun w : LockWorld => ((),{ w with files := s }))

theorem answer_quiet : Keeps S p answer p :=
  .step (fun w : LockWorld => (w.heap w.calls,{ w with calls := w.calls+1 }))

theorem Keeps.touch {l : Lock} (hl : S l) (hp : l∉p) :
    Keeps S p (do Locking.acquire l; Locking.release l : LockM Unit) p :=
  .bind (.acquire hl hp) (fun _ => .release)

theorem printf_keeps (hS : S .printf) (hp : .printf∉p) : Keeps S p printf p := Keeps.touch hS hp

theorem logDebug_keeps (hS : S .printf) (hp : .printf∉p) : Keeps S p logDebug p :=
  .bind (printf_keeps hS hp) (fun _ => printf_keeps hS hp)

theorem createSlab_keeps (i : Fin 10) : Keeps Lock.Inner [.slab i] createSlab [.slab i] := by
  have hlog : Keeps Lock.Inner [.slab i] logDebug [.slab i] := logDebug_keeps trivial (by simp)
  exact .bind hlog (fun _ => .bind (Keeps.touch trivial (by simp)) (fun _ => hlog))

theorem allocFromSlab_safe (i : Fin 10) (empty : Bool) : InnerSafe (allocFromSlab i empty) := by
  refine .bind (.acquire trivial List.not_mem_nil) (fun _ => ?_)
  exact .bind (.when (createSlab_keeps i)) (fun _ => .release)

theorem slabAlloc_safe (x : HeapAnswer) : InnerSafe (slabAlloc x) := by
  unfold slabAlloc
  split
  · exact allocFromSlab_safe _ _
  · exact Keeps.touch trivial List.not_mem_nil

theorem slabFree_safe (x : HeapAnswer) : InnerSafe (slabFree x) := by
  unfold slabFree
  split
  · exact Keeps.touch trivial List.not_mem_nil
  · exact Keeps.touch trivial List.not_mem_nil

theorem printf_safe : InnerSafe printf := printf_keeps trivial List.not_mem_nil

theorem logDebug_safe : InnerSafe logDebug := logDebug_keeps trivial List.not_mem_nil

theorem pmmAllocNozero_safe : InnerSafe pmmAllocNozero := Keeps.touch trivial List.not_mem_nil

theorem malloc_safe : InnerSafe malloc := .bind answer_quiet slabAlloc_safe

theorem free_safe : InnerSafe free := .bind answer_quiet slabFree_safe

theorem realloc_safe : InnerSafe realloc := by
  refine .bind answer_quiet (fun x => ?_)
  refine .bind (.when (slabAlloc_safe x)) (fun _ => ?_)
  exact .bind (.when free_safe) (fun _ => .pure _)

theorem hashmapInsert_safe : InnerSafe hashmapInsert := by
  refine .bind answer_quiet (fun x => .bind (.when malloc_safe) (fun _ => ?_))
  refine .bind answer_quiet (fun x => .bind (.when malloc_safe) (fun _ => ?_))
  exact .bind answer_quiet (fun x => .when (.bind realloc_safe (fun _ => .pure _)))

theorem createNode_safe : InnerSafe createNode := .bind malloc_safe (fun _ => malloc_safe)

theorem freeBasename_safe (r : Path2node) : InnerSafe (freeBasename r) := .when free_safe

theorem lookup_safe : lookup.Related (fun m _ => InnerSafe m) lookup where
  pure a := .pure a
  bind hm hf := .bind hm hf
  root := .bind vfs_quiet (fun _ => .pure _)
  node _ := .bind vfs_quiet (fun _ => .ofOption _)
  reduceNode _ := .bind vfs_quiet (fun _ => .ofOption _)
  populate _ := .pure _
  deref := .ofOption
  hang := .ofOption none
  error _ := .pure _
  called := printf_safe
  strdup := malloc_safe
  missing := logDebug_safe
  free := free_safe

theorem path2node_safe (parent : Option Nat) (path : Option Str) : InnerSafe (path2node parent path) :=
  .bind vfs_quiet (fun _ => .bind (lookup_safe.path2node _ _ _) (fun _ =>
    .bind (setVfs_quiet _) (fun _ => .pure _)))

theorem reduceLinks_safe (n i : Nat) : InnerSafe (reduceLinks n i) := by
  induction n generalizing i with
  | zero => exact .ofOption none
  | succ n ih =>
    refine .bind vfs_quiet (fun s => .bind (.ofOption _) (fun node => ?_))
    split
    · exact ih _
    · split
      · exact ih _
      · split
        · exact .pure _
        · refine .bind (path2node_safe _ _) (fun r => ?_)
          split
          · exact .pure _
          · exact ih _

theorem fsCreate_safe (fs : Filesystem) (parent : Option Nat) (name : Str) (mode : Nat) :
    InnerSafe (fsCreate fs parent name mode) := by
  refine .bind (.when logDebug_safe) (fun _ => .bind createNode_safe (fun _ => ?_))
  refine .bind malloc_safe (fun _ => .bind (.when malloc_safe) (fun _ => ?_))
  exact .bind vfs_quiet (fun s => .bind (setVfs_quiet _) (fun _ => .pure _))

theorem fsMount_safe (fs : Filesystem) (parent : Option Nat) (name : Str) :
    InnerSafe (fsMount fs parent name) := by
  cases fs with
  | tmpfs =>
    exact .bind logDebug_safe (fun _ => .bind malloc_safe (fun _ => fsCreate_safe _ _ _ _))
  | devtmpfs => exact .bind vfs_quiet (fun _ => .pure _)

theorem mountSource_safe (parent : Option Nat) (source : Option Str) :
    InnerSafe (mountSource parent source) := by
  unfold mountSource
  split
  · exact .pure _
  · split
    · exact .pure _
    · refine .bind (path2node_safe _ _) (fun r => .bind (freeBasename_safe r) (fun _ => ?_))
      split
      · exact .pure _
      · refine .bind vfs_quiet (fun s => .bind (.ofOption _) (fun mode => ?_))
        split
        · exact .bind (setVfs_quiet _) (fun _ => .pure _)
        · exact .pure _

theorem InnerSafe.inside (hm : InnerSafe m) {l : Lock} (hl : ¬l.Inner) :
    Keeps (fun _ => True) [l] m [l] := by
  refine Keeps.frame hm (fun _ _ => trivial) ?_
  intro l' hl'
  rw [List.mem_singleton.mp hl']
  exact hl

def CallSafe (m : LockM α) : Prop := Keeps (fun _ => True) [] m []

theorem InnerSafe.call (hm : InnerSafe m) : CallSafe m :=
  Keeps.frame hm (fun _ _ => trivial) (fun _ h => absurd h List.not_mem_nil)

theorem enter_keeps (l : Lock) : Keeps (fun _ => True) [] (acquire l : LockM Unit) [l] :=
  .acquire trivial List.not_mem_nil

theorem leave_keeps (l : Lock) (a : α) :
    Keeps (fun _ => True) [l] (do release l; return a : LockM α) [] :=
  .bind .release (fun _ => .pure a)

/-- The cleanup label of the functions of the VFS. -/
theorem cleanup_keeps (r : Path2node) (a : α) :
    Keeps (fun _ => True) [.vfs] (do freeBasename r; release .vfs; return a : LockM α) [] :=
  .bind ((freeBasename_safe r).inside id) (fun _ => leave_keeps .vfs a)

theorem mountTarget_keeps (fs : Filesystem) (parent : Option Nat) (target : Str) :
    Keeps (fun _ => True) [.vfs] (mountTarget fs parent target) [] := by
  refine .bind ((path2node_safe _ _).inside id) (fun r => ?_)
  split
  · exact cleanup_keeps r false
  · refine .bind vfs_quiet (fun s => .bind (.ofOption _) (fun node => .bind (.ofOption _) (fun ok => ?_)))
    split
    · refine .bind ((fsMount_safe _ _ _).inside id) (fun root => .bind vfs_quiet (fun s => ?_))
      refine .bind (setVfs_quiet _) (fun _ => .bind (printf_safe.inside id) (fun _ => ?_))
      exact cleanup_keeps r true
    · exact cleanup_keeps r false

theorem mount_safe (parent : Option Nat) (source : Option Str) (target fsName : Str) :
    CallSafe (mount parent source target fsName) := by
  refine .bind (enter_keeps .vfs) (fun _ => .bind vfs_quiet (fun s => ?_))
  split
  · refine .bind (logDebug_safe.inside id) (fun _ => ?_)
    exact .bind (setVfs_quiet _) (fun _ => leave_keeps .vfs false)
  · refine .bind ((mountSource_safe _ _).inside id) (fun x => ?_)
    split
    · exact leave_keeps .vfs false
    · exact mountTarget_keeps _ _ _

theorem create_safe (parent : Option Nat) (name : Str) (mode : Nat) :
    CallSafe (create parent name mode) := by
  refine .bind (enter_keeps .vfs) (fun _ => .bind ((path2node_safe _ _).inside id) (fun r => ?_))
  split
  · exact cleanup_keeps r none
  · exact .bind vfs_quiet (fun s => .bind (setVfs_quiet _) (fun _ => cleanup_keeps r none))
  · -- a parent without a target comes with the name of the new file
    exact fun _ _ _ _ _ _ h => absurd h.symm (Option.some_ne_none _)
  · refine .bind vfs_quiet (fun s => .bind (.ofOption _) (fun fs => ?_))
    refine .bind ((fsCreate_safe _ _ _ _).inside id) (fun i => ?_)
    refine .bind (hashmapInsert_safe.inside id) (fun _ => .bind vfs_quiet (fun s => ?_))
    exact .bind (.ofOption _) (fun s => .bind (setVfs_quiet s) (fun _ => cleanup_keeps r (some i)))

theorem getNode_safe (parent : Option Nat) (path : Str) (followLinks : Bool) :
    CallSafe (getNode parent path followLinks) := by
  refine .bind (enter_keeps .vfs) (fun _ => .bind ((path2node_safe _ _).inside id) (fun r => ?_))
  split
  · exact cleanup_keeps r none
  · split
    · refine .bind vfs_quiet (fun s => .bind ((reduceLinks_safe _ _).inside id) (fun x => ?_))
      exact cleanup_keeps r x
    · exact cleanup_keeps r _

theorem addFilesystem_safe (fs : Filesystem) (identifier : Str) :
    CallSafe (addFilesystem fs identifier) := by
  refine .bind (enter_keeps .vfs) (fun _ => .bind (hashmapInsert_safe.inside id) (fun _ => ?_))
  refine .bind vfs_quiet (fun s => .bind (.ofOption _) (fun s => .bind (setVfs_quiet s) (fun _ => ?_)))
  exact .bind (printf_safe.inside id) (fun _ => .release)

theorem addNewDevice_safe (root : Nat) (device : Resource) (name : Str) :
    CallSafe (addNewDevice root device name) := by
  refine .bind createNode_safe.call (fun _ => .bind vfs_quiet (fun s => ?_))
  refine .bind (setVfs_quiet _) (fun _ => .bind (enter_keeps .vfs) (fun _ => ?_))
  refine .bind (hashmapInsert_safe.inside id) (fun _ => .bind vfs_quiet (fun s => ?_))
  refine .bind (.ofOption _) (fun s => .bind (setVfs_quiet s) (fun _ => ?_))
  exact .bind (printf_safe.inside id) (fun _ => leave_keeps .vfs true)

theorem devtmpfsAddDevice_safe (device : Resource) (name : Str) :
    CallSafe (devtmpfsAddDevice device name) := by
  refine .bind vfs_quiet (fun s => .bind (getNode_safe _ _ _) (fun node => ?_))
  split
  · exact .bind vfs_quiet (fun s => .bind (setVfs_quiet _) (fun _ => .pure _))
  · exact addNewDevice_safe _ _ _

section
variable (thread : Nat) (fdnum : Int)

theorem fdFromFdnum_safe : CallSafe (fdFromFdnum thread fdnum) := by
  refine .bind (enter_keeps (.fds thread)) (fun _ => .bind files_quiet (fun s => ?_))
  refine .bind (.ofOption _) (fun x => .bind (.when (printf_safe.inside id)) (fun _ => ?_))
  exact .bind (setFiles_quiet _) (fun _ => leave_keeps (.fds thread) _)

theorem fdnumClose_keeps :
    Keeps (fun _ => True) [.fds thread] (fdnumClose thread fdnum false) [.fds thread] := by
  refine .bind (.pure ()) (fun _ => .bind files_quiet (fun s => .bind (.ofOption _) (fun x => ?_)))
  refine .bind (.when (free_safe.inside id)) (fun _ => .bind (.when (free_safe.inside id)) (fun _ => ?_))
  exact .bind (setFiles_quiet _) (fun _ => .bind (.pure ()) (fun _ => .pure _))

theorem fdnumClose_safe : CallSafe (fdnumClose thread fdnum true) := by
  refine .bind (enter_keeps (.fds thread)) (fun _ => .bind files_quiet (fun s => ?_))
  refine .bind (.ofOption _) (fun x => .bind (.when (free_safe.inside id)) (fun _ => ?_))
  refine .bind (.when (free_safe.inside id)) (fun _ => .bind (setFiles_quiet _) (fun _ => ?_))
  exact leave_keeps (.fds thread) _

end

theorem fdnumCreateFromFd_safe (thread : Nat) (fd : Descriptor) (oldFdnum : Int) (specific : Bool) :
    CallSafe (fdnumCreateFromFd thread fd oldFdnum specific) := by
  refine .bind (enter_keeps (.fds thread)) (fun _ => ?_)
  split
  · exact leave_keeps (.fds thread) _
  · split
    · refine .bind (fdnumClose_keeps thread oldFdnum) (fun _ => .bind files_quiet (fun s => ?_))
      exact .bind (setFiles_quiet _) (fun _ => leave_keeps (.fds thread) _)
    · exact .bind files_quiet (fun s => .bind (setFiles_quiet _) (fun _ =>
        leave_keeps (.fds thread) _))

theorem tmpfsResourceRead_safe (i offset count : Nat) : CallSafe (tmpfsResourceRead i offset count) := by
  refine .bind (enter_keeps (.resource i)) (fun _ => .bind files_quiet (fun s => ?_))
  exact .bind (.ofOption _) (fun r => .bind (.ofOption _) (fun x => leave_keeps (.resource i) x))

theorem growResource_safe (r : Resource) (stop : Nat) : InnerSafe (growResource r stop) := by
  unfold growResource
  split
  · exact realloc_safe
  · exact .pure _

theorem tmpfsResourceWrite_safe (i : Nat) (buf : Str) (offset : Nat) :
    CallSafe (tmpfsResourceWrite i buf offset) := by
  refine .bind logDebug_safe.call (fun _ => .bind (enter_keeps (.resource i)) (fun _ => ?_))
  refine .bind files_quiet (fun s => .bind (.ofOption _) (fun r => ?_))
  refine .bind ((growResource_safe r _).inside id) (fun room => .bind (.ofOption _) (fun x => ?_))
  exact .bind (setFiles_quiet _) (fun _ => leave_keeps (.resource i) _)

theorem tmpfsResourceMmap_safe (i filePage : Nat) : CallSafe (tmpfsResourceMmap i filePage) := by
  refine .bind (enter_keeps (.resource i)) (fun _ => ?_)
  refine .bind (pmmAllocNozero_safe.inside id) (fun _ => .bind answer_quiet (fun x => ?_))
  split
  · exact .bind files_quiet (fun s => .bind (.ofOption _) (fun r => leave_keeps (.resource i) _))
  · exact leave_keeps (.resource i) none

theorem tmpfsResourceMsync_safe (i filePage : Nat) (phys : Str) :
    CallSafe (tmpfsResourceMsync i filePage phys) := by
  refine .bind (enter_keeps (.resource i)) (fun _ => .bind files_quiet (fun s => ?_))
  exact .bind (.ofOption _) (fun r => .bind (setFiles_quiet _) (fun _ => leave_keeps (.resource i) _))

end Locked

inductive FsCall where
  | mount (parent : Option Nat) (source : Option Str) (target fsName : Str)
  | create (parent : Option Nat) (name : Str) (mode : Nat)
  | getNode (parent : Option Nat) (path : Str) (followLinks : Bool)
  | addFilesystem (fs : Filesystem) (identifier : Str)
  | devtmpfsAddDevice (device : Resource) (name : Str)
  | fdFromFdnum (thread : Nat) (fdnum : Int)
  | fdnumCreateFromFd (thread : Nat) (fd : Descriptor) (oldFdnum : Int) (specific : Bool)
  | fdnumClose (thread : Nat) (fdnum : Int)
  | read (i offset count : Nat)
  | write (i : Nat) (buf : Str) (offset : Nat)
  | mmap (i filePage : Nat)
  | msync (i filePage : Nat) (phys : Str)

/-- What a call does to locks and to the rest, whatever it returns. -/
def fsCall : FsCall → LockM Unit
  | .mount parent source target fsName => do let _ ← Locked.mount parent source target fsName
  | .create parent name mode => do let _ ← Locked.create parent name mode
  | .getNode parent path followLinks => do let _ ← Locked.getNode parent path followLinks
  | .addFilesystem fs identifier => Locked.addFilesystem fs identifier
  | .devtmpfsAddDevice device name => do let _ ← Locked.devtmpfsAddDevice device name
  | .fdFromFdnum thread fdnum => do let _ ← Locked.fdFromFdnum thread fdnum
  | .fdnumCreateFromFd thread fd oldFdnum specific => do
    let _ ← Locked.fdnumCreateFromFd thread fd oldFdnum specific
  | .fdnumClose thread fdnum => do let _ ← Locked.fdnumClose thread fdnum true
  | .read i offset count => do let _ ← Locked.tmpfsResourceRead i offset count
  | .write i buf offset => do let _ ← Locked.tmpfsResourceWrite i buf offset
  | .mmap i filePage => do let _ ← Locked.tmpfsResourceMmap i filePage
  | .msync i filePage phys => do let _ ← Locked.tmpfsResourceMsync i filePage phys

theorem fsCall_safe (c : FsCall) : Locked.CallSafe (fsCall c) := by
  have ignore {α : Type} {m : LockM α} (hm : Locked.CallSafe m) :
      Locked.CallSafe (do let _ ← m : LockM Unit) := .bind hm (fun _ => .pure _)
  cases c with
  | mount => exact ignore (Locked.mount_safe _ _ _ _)
  | create => exact ignore (Locked.create_safe _ _ _)
  | getNode => exact ignore (Locked.getNode_safe _ _ _)
  | addFilesystem => exact Locked.addFilesystem_safe _ _
  | devtmpfsAddDevice => exact ignore (Locked.devtmpfsAddDevice_safe _ _)
  | fdFromFdnum => exact ignore (Locked.fdFromFdnum_safe _ _)
  | fdnumCreateFromFd => exact ignore (Locked.fdnumCreateFromFd_safe _ _ _ _)
  | fdnumClose => exact ignore (Locked.fdnumClose_safe _ _)
  | read => exact ignore (Locked.tmpfsResourceRead_safe _ _ _)
  | write => exact ignore (Locked.tmpfsResourceWrite_safe _ _ _)
  | mmap => exact ignore (Locked.tmpfsResourceMmap_safe _ _)
  | msync => exact ignore (Locked.tmpfsResourceMsync_safe _ _ _)

/-- A call that starts with every lock free takes none that it holds, gives back none that it does
not hold, and returns with every lock free. -/
theorem fs_lock_discipline (c : FsCall) (w w' : LockWorld) (ops : List (LockOp Lock))
    (h : fsCall c w=some ((),w',ops)) :
    lockRun [] ops=some [] ∧
    ∀ before op after, ops=before++op::after → ∃ held, lockRun [] before=some held ∧
      match op with
      | .acquire l => l∉held
      | .release l => l∈held := by
  have hrun : lockRun [] ops=some [] :=
    fsCall_safe c [] (fun _ hl => absurd hl List.not_mem_nil) w () w' ops h
  refine ⟨hrun,?_⟩
  rintro before op after rfl
  rw [lockRun_append] at hrun
  obtain ⟨held,hheld,hrest⟩ := Option.bind_eq_some_iff.mp hrun
  refine ⟨held,hheld,?_⟩
  cases op with
  | acquire l =>
    rw [lockRun] at hrest
    exact (Option.ite_none_left_eq_some.mp hrest).1
  | release l =>
    rw [lockRun] at hrest
    exact (Option.ite_none_right_eq_some.mp hrest).1

/-- A new file in the first tree, with a new page for every slab that is asked. -/
theorem fs_lock_discipline_create : ∃ s w' ops, vfsBoot=some s ∧
    fsCall (.create none (str "/a") sIfreg) ⟨s,.fresh 0,fun _ => ⟨some 0,true,true,true⟩,0⟩=
      some ((),w',ops) ∧ w'.vfs.nodes.length=s.nodes.length+1 ∧ lockRun [] ops=some [] := by
  have hrun : (vfsBoot.bind (fun s => (fsCall (.create none (str "/a") sIfreg)
      ⟨s,.fresh 0,fun _ => ⟨some 0,true,true,true⟩,0⟩).map (fun x =>
        decide (x.2.1.vfs.nodes.length=s.nodes.length+1))))=some true := by
    decide +kernel
  obtain ⟨s,hs,hrun⟩ := Option.bind_eq_some_iff.mp hrun
  obtain ⟨⟨_,w',ops⟩,hcall,hlength⟩ := Option.map_eq_some_iff.mp hrun
  exact ⟨s,w',ops,hs,hcall,of_decide_eq_true hlength,(fs_lock_discipline _ _ w' ops hcall).1⟩

end X64OS.Fs
