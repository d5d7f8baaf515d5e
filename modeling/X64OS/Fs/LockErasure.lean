import X64OS.Fs.Locks

namespace X64OS.Fs.Locked

open Framework Framework.Locking

variable {α β : Type} {m : LockM α} {g : α → LockM β} {w : LockWorld} {s : Vfs}

/-- The program returns, and leaves the trees alone. -/
abbrev Still (m : LockM α) : Prop := Silent LockWorld.vfs m

theorem still_answer : Still answer := fun _ => ⟨_,_,_,rfl,rfl⟩

theorem still_touch (l : Lock) : Still (do Locking.acquire l; Locking.release l : LockM Unit) :=
  .bind (.acquire l) (fun _ => .release l)

theorem still_printf : Still printf := still_touch .printf

theorem still_logDebug : Still logDebug := .bind still_printf (fun _ => still_printf)

theorem still_createSlab : Still createSlab :=
  .bind still_logDebug (fun _ => .bind (still_touch .pmm) (fun _ => still_logDebug))

theorem still_slabAlloc (x : HeapAnswer) : Still (slabAlloc x) := by
  unfold slabAlloc
  split
  · exact .bind (.acquire _) (fun _ => .bind (.when still_createSlab) (fun _ => .release _))
  · exact still_touch .pmm

theorem still_slabFree (x : HeapAnswer) : Still (slabFree x) := by
  unfold slabFree
  split
  · exact still_touch _
  · exact still_touch .pmm

theorem still_malloc : Still malloc := .bind still_answer still_slabAlloc

theorem still_free : Still free := .bind still_answer still_slabFree

theorem still_realloc : Still realloc :=
  .bind still_answer (fun x => .bind (.when (still_slabAlloc x)) (fun _ =>
    .bind (.when still_free) (fun _ => .pure _)))

theorem still_hashmapInsert : Still hashmapInsert := by
  refine .bind still_answer (fun _ => .bind (.when still_malloc) (fun _ => ?_))
  refine .bind still_answer (fun _ => .bind (.when still_malloc) (fun _ => ?_))
  exact .bind still_answer (fun _ => .when (.bind still_realloc (fun _ => .pure _)))

theorem still_createNode : Still createNode := .bind still_malloc (fun _ => still_malloc)

theorem still_freeBasename (r : Path2node) : Still (freeBasename r) := .when still_free

theorem yields_vfs {g : Vfs → LockM β} {r : Option (β × Vfs)}
    (h : Yields LockWorld.vfs (g w.vfs) w r) : Yields LockWorld.vfs (vfs >>= g) w r :=
  (Option.map_map _ _ _).trans h

theorem yields_setVfs {g : Unit → LockM β} {r : Option (β × Vfs)}
    (h : Yields LockWorld.vfs (g ()) { w with vfs := s } r) :
    Yields LockWorld.vfs (setVfs s >>= g) w r :=
  (Option.map_map _ _ _).trans h

/-- A program that reads the tree s and leaves it alone. -/
def Reads (s : Vfs) (m : LockM α) (x : Option α) : Prop :=
  ∀ w : LockWorld, w.vfs=s → Yields LockWorld.vfs m w (x.map (fun a => (a,s)))

theorem Reads.pure (a : α) : Reads s (Pure.pure a : LockM α) (some a) := by
  rintro w rfl
  rfl

theorem Reads.ofOption (x : Option α) : Reads s (Locking.ofOption x) x := by
  rintro w rfl
  cases x <;> rfl

theorem Reads.read (x : Vfs → Option α) : Reads s (do Locking.ofOption (x (← Locked.vfs))) (x s) := by
  rintro w rfl
  exact yields_vfs (Reads.ofOption _ w rfl)

theorem Reads.bind {x : Option α} {h : α → Option β} (hm : Reads s m x)
    (hg : ∀ a, Reads s (g a) (h a)) : Reads s (m >>= g) (x.bind h) := by
  intro w hw
  have hx := hm w hw
  unfold Yields at hx
  cases x with
  | none =>
    obtain hnone := Option.map_eq_none_iff.mp hx
    change Option.map _ (Option.bind (m w) _)=_
    rw [hnone]
    rfl
  | some a =>
    obtain ⟨⟨b,w',ops⟩,hb,hab⟩ := Option.map_eq_some_iff.mp hx
    obtain ⟨rfl,hw'⟩ := Prod.mk.inj hab
    change Option.map _ (Option.bind (m w) _)=_
    rw [hb]
    exact (Option.map_map _ _ _).trans (hg b w' hw')

theorem Reads.silent {m : LockM Unit} (hm : Still m) : Reads s m (some ()) := by
  rintro w rfl
  obtain ⟨a,w',ops,hw,hview⟩ := hm w
  rw [Yields,hw]
  exact congrArg (fun s => some ((),s)) hview

/-- The parts of path2node with their locks do what they do on the tree. -/
theorem lookup_reads (s : Vfs) : lookup.Related (Reads s) s.lookup where
  pure a := .pure a
  bind hm hf := .bind hm hf
  root := .read (fun s => some s.vfsRoot)
  node i := .read (fun s => (s.nodes[i]?).map VfsNode.view)
  reduceNode i := .read (fun s => s.reduceNode i)
  populate _ := .pure _
  deref := .ofOption
  hang := .ofOption none
  error _ := .pure _
  called := .silent still_printf
  strdup := .silent still_malloc
  missing := .silent still_logDebug
  free := .silent still_free

/-- Without its locks the program is f, on the tree. -/
def Computes (m : LockM α) (f : Vfs → Option (α × Vfs)) : Prop :=
  ∀ w, Yields LockWorld.vfs m w (f w.vfs)

theorem Computes.pure (a : α) : Computes (Pure.pure a) (fun s => some (a,s)) := fun _ => .pure a

theorem Computes.after {f : Vfs → Option (β × Vfs)} (hm : Still m)
    (hg : ∀ a, Computes (g a) f) : Computes (m >>= g) f := by
  intro w
  refine .after hm (fun a w' hw' => ?_)
  rw [← hw']
  exact hg a w'

theorem Computes.bind {f : Vfs → Option (α × Vfs)} {h : α → Vfs → Option (β × Vfs)}
    (hm : Computes m f) (hg : ∀ a, Computes (g a) (h a)) :
    Computes (m >>= g) (fun s => (f s).bind (fun x => h x.1 x.2)) :=
  fun w => .bind (hm w) (fun a w' => hg a w')

theorem Computes.congr {f f' : Vfs → Option (α × Vfs)} (hm : Computes m f) (h : ∀ s, f s=f' s) :
    Computes m f' := by
  intro w
  rw [← h]
  exact hm w

theorem path2node_computes (parent : Option Nat) (path : Option Str) :
    Computes (path2node parent path)
      (fun s => (s.path2node parent path).map (fun r => (r,s.setErrno r.errno))) := by
  intro w
  refine yields_vfs ?_
  have hr := (lookup_reads w.vfs).path2node (w.vfs.nodes.length+1) parent path w rfl
  refine (Yields.bind hr (h := fun r _ => some (r,w.vfs.setErrno r.errno)) ?_).trans ?_
  · intro r w'
    exact yields_setVfs (.pure r)
  · rw [Option.bind_map]
    exact Option.map_eq_bind.symm

/-- What follows a path2node works on the tree with its errno. -/
theorem Computes.path2node {g : Path2node → LockM β} {h : Path2node → Vfs → Option (β × Vfs)}
    (parent : Option Nat) (path : Option Str) (hg : ∀ r, Computes (g r) (h r)) :
    Computes (Locked.path2node parent path >>= g)
      (fun s => (s.path2node parent path).bind (fun r => h r (s.setErrno r.errno))) := by
  refine (Computes.bind (path2node_computes parent path) hg).congr (fun s => ?_)
  rw [Option.bind_map]
  rfl

theorem leave_computes (a : α) :
    Computes (do release .vfs; return a : LockM α) (fun s => some (a,s)) :=
  .after (.release _) (fun _ => .pure a)

theorem cleanup_computes (r : Path2node) (a : α) :
    Computes (do freeBasename r; release .vfs; return a : LockM α) (fun s => some (a,s)) :=
  .after (still_freeBasename r) (fun _ => leave_computes a)

theorem fsCreate_computes (fs : Filesystem) (parent : Option Nat) (name : Str) (mode : Nat) :
    Computes (fsCreate fs parent name mode) (fun s => some (s.fsCreate fs parent name mode)) := by
  refine .after (.when still_logDebug) (fun _ => .after still_createNode (fun _ => ?_))
  refine .after still_malloc (fun _ => .after (.when still_malloc) (fun _ w => ?_))
  exact yields_vfs (yields_setVfs (.pure _))

theorem fsMount_computes (fs : Filesystem) (parent : Option Nat) (name : Str) :
    Computes (fsMount fs parent name) (fun s => some (s.fsMount fs parent name)) := by
  cases fs with
  | tmpfs =>
    exact .after still_logDebug (fun _ => .after still_malloc (fun _ => fsCreate_computes _ _ _ _))
  | devtmpfs => exact fun w => yields_vfs (.pure _)

/-- What VFS::Mount does with the source it found. -/
def sourceNode (r : Path2node) (s : Vfs) : Option (Option (Option Nat) × Vfs) :=
  match r.target with
  | none => some (none,s)
  | some node =>
    ((s.nodes[node]?).bind VfsNode.mode).map (fun mode =>
      if sIsdir mode then (none,s.setErrno (some .eisdir)) else (some (some node),s))

theorem mountSource_computes (parent : Option Nat) (source : Option Str) :
    Computes (mountSource parent source) (fun s => s.mountSource parent source) := by
  unfold mountSource Vfs.mountSource
  cases source with
  | none => exact .pure _
  | some source =>
    dsimp only
    by_cases hsource : source=[]
    · rw [if_pos hsource]
      refine (Computes.pure _).congr (fun s => ?_)
      rw [if_pos hsource]
    · rw [if_neg hsource]
      simp only [if_neg hsource]
      refine .path2node parent (some source) (h := sourceNode) (fun r => ?_)
      refine .after (still_freeBasename r) (fun _ => ?_)
      unfold sourceNode
      cases r.target with
      | none => exact .pure _
      | some node =>
        intro w
        refine yields_vfs (.mapOption (fun mode => ?_))
        split
        · exact yields_setVfs (.pure _)
        · exact .pure _

/-- What VFS::Mount does with the node it found. -/
def mountOn (fs : Filesystem) (r : Path2node) (s : Vfs) : Option (Bool × Vfs) :=
  match r.target with
  | none => some (false,s)
  | some t =>
    (s.nodes[t]?).bind (fun node =>
      (if t=s.vfsRoot then some true else node.mode.map sIsdir).map (fun ok =>
        if ok then
          let y := s.fsMount fs r.targetParent (r.basename.getD [])
          (true,y.2.setNode t { node with mountpoint := some y.1 })
        else (false,s)))

section
variable (fs : Filesystem) (parent : Option Nat) (target : Str)

theorem mountTarget_computes :
    Computes (mountTarget fs parent target) (fun s => (s.path2node parent (some target)).bind (fun r =>
      mountOn fs r (s.setErrno r.errno))) := by
  refine .path2node parent (some target) (fun r => ?_)
  unfold mountOn
  cases r.target with
  | none => exact cleanup_computes r false
  | some t =>
    intro w
    refine yields_vfs (.ofOption (fun node => .mapOption (fun ok => ?_)))
    cases ok with
    | false => exact cleanup_computes r false w
    | true =>
      refine Yields.bind (fsMount_computes fs _ _ w) (h := fun root s =>
        some (true,s.setNode t { node with mountpoint := some root })) (fun root w => ?_)
      refine yields_vfs (yields_setVfs ?_)
      exact Computes.after still_printf (fun _ => cleanup_computes r true) _

/-- What VFS::Mount does once it knows its source. -/
def mountFrom (source : Option (Option Nat)) (s : Vfs) : Option (Bool × Vfs) :=
  match source with
  | none => some (false,s)
  | some _ => (s.path2node parent (some target)).bind (fun r => mountOn fs r (s.setErrno r.errno))

end

/-- VFS::Mount with its locks does what it does without them. -/
theorem mount_computes (parent : Option Nat) (source : Option Str) (target fsName : Str) :
    Computes (mount parent source target fsName) (fun s => s.mount parent source target fsName) := by
  refine .after (.acquire _) (fun _ w => yields_vfs ?_)
  unfold Vfs.mount
  cases w.vfs.filesystems.get fsName with
  | none =>
    exact Computes.after (f := fun _ => some (false,w.vfs.setErrno (some .enodev))) still_logDebug
      (fun _ w' => yields_setVfs (leave_computes false _)) w
  | some fs =>
    refine Yields.bind (mountSource_computes parent source w) (h := mountFrom fs parent target)
      (fun x w => ?_)
    cases x with
    | none => exact leave_computes false w
    | some _ => exact mountTarget_computes fs parent target w

/-- What VFS::Create does with the place it found. -/
def createIn (mode : Nat) (r : Path2node) (s : Vfs) : Option (Option Nat × Vfs) :=
  match r.targetParent,r.target,r.basename with
  | none,_,_ => some (none,s)
  | some _,some _,_ => some (none,s.setErrno (some .eexist))
  | some _,none,none => none
  | some p,none,some basename =>
    ((s.nodes[p]?).bind VfsNode.filesystem).bind (fun fs =>
      let x := s.fsCreate fs (some p) basename mode
      (x.2.insertChild p basename x.1).map (fun s => (some x.1,s)))

theorem create_computes (parent : Option Nat) (name : Str) (mode : Nat) :
    Computes (create parent name mode) (fun s => s.create parent name mode) := by
  refine .after (.acquire _) (fun _ => ?_)
  refine .path2node parent (some name) (h := createIn mode) (fun r => ?_)
  obtain ⟨targetParent,target,basename,errno⟩ := r
  cases targetParent with
  | none => exact cleanup_computes _ none
  | some p =>
    cases target with
    | some t => exact fun w => yields_vfs (yields_setVfs (cleanup_computes _ none _))
    | none =>
      cases basename with
      | none => exact fun _ => rfl
      | some basename =>
        intro w
        refine yields_vfs (.ofOption (fun fs => ?_))
        refine Yields.bind (fsCreate_computes fs (some p) basename mode w) (h := fun i s =>
          (s.insertChild p basename i).map (fun s => (some i,s))) (fun i w => ?_)
        refine Computes.after (f := fun s => (s.insertChild p basename i).map (fun s => (some i,s)))
          still_hashmapInsert (fun _ w => ?_) w
        exact yields_vfs (.mapOption (fun s => yields_setVfs (cleanup_computes _ (some i) _)))

theorem getNode_computes (parent : Option Nat) (path : Str) :
    Computes (getNode parent path false) (fun s => s.getNode parent path) := by
  refine .after (.acquire _) (fun _ => ?_)
  refine (Computes.path2node parent (some path) (h := fun r s => some (r.target,s)) (fun r => ?_)).congr
    (fun s => Option.map_eq_bind.symm)
  cases r.target with
  | none => exact cleanup_computes r none
  | some t => exact cleanup_computes r (some t)

theorem addFilesystem_computes (fs : Filesystem) (identifier : Str) :
    Computes (addFilesystem fs identifier)
      (fun s => (s.addFilesystem fs identifier).map (fun s => ((),s))) := by
  refine .after (.acquire _) (fun _ => .after still_hashmapInsert (fun _ w => ?_))
  refine yields_vfs (.mapOption (fun s => yields_setVfs ?_))
  exact Computes.after still_printf (fun _ => .after (.release _) (fun _ => .pure _)) _

theorem addNewDevice_computes (root : Nat) (device : Resource) (name : Str) :
    Computes (addNewDevice root device name) (fun s =>
      let x := s.addNode { Fs.createNode (some .devtmpfs) (some root) name false with
        resource := some device }
      (x.2.insertChild root name x.1).map (fun s => (true,s))) := by
  refine .after still_createNode (fun _ w => yields_vfs (yields_setVfs ?_))
  refine .after (.acquire _) (fun _ w' hw' => .after still_hashmapInsert (fun _ w'' hw'' => ?_))
  refine yields_vfs ?_
  rw [hw'',hw']
  refine .mapOption (fun s => yields_setVfs ?_)
  exact Computes.after still_printf (fun _ => leave_computes true) _

/-- What devtmpfs_add_device does with what it found under the name. -/
def addAbsent (root : Nat) (device : Resource) (name : Str) (found : Option Nat) (s : Vfs) :
    Option (Bool × Vfs) :=
  match found with
  | some _ => some (false,s.setErrno (some .eexist))
  | none =>
    let x := s.addNode { Fs.createNode (some .devtmpfs) (some root) name false with
      resource := some device }
    (x.2.insertChild root name x.1).map (fun s => (true,s))

theorem devtmpfsAddDevice_computes (device : Resource) (name : Str) :
    Computes (devtmpfsAddDevice device name) (fun s => s.devtmpfsAddDevice device name) := by
  intro w
  refine yields_vfs ?_
  refine Yields.bind (getNode_computes (some w.vfs.devtmpfsRoot) name w)
    (h := addAbsent w.vfs.devtmpfsRoot device name) (fun x w' => ?_)
  cases x with
  | some node => exact yields_vfs (yields_setVfs (.pure _))
  | none => exact addNewDevice_computes _ device name w'

end X64OS.Fs.Locked
