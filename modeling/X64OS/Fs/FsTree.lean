import X64OS.Framework.Moves
import X64OS.Fs.Vfs

namespace X64OS.Fs

open Framework
open Option (map_eq_some_iff bind_eq_some_iff)

/-- The filesystems that VFS::Init registers; an ext2fs is on some device. -/
inductive RegisteredFs where
  | tmpfs
  | devtmpfs
  | ext2fs (device : Nat)
  deriving DecidableEq, Repr

/-- struct vfs_node of any of them: mode and ino are those of its resource, and a
child may be NULL. -/
structure FsNode where
  mountpoint : Option Nat
  redir : Option Nat
  mode : Option Nat
  ino : Nat
  filesystem : Option RegisteredFs
  name : Str
  parent : Option Nat
  children : HashMap (Option Nat)
  symlinkTarget : Option Str
  populated : Bool

def FsNode.view (n : FsNode) : NodeView := ⟨n.children.get,n.mode,n.parent,n.symlinkTarget⟩

structure FsTree where
  nodes : List FsNode
  vfsRoot : Nat
  errno : Errno

/-- An entry of a directory of an ext2fs, with the mode of its inode. -/
structure DirEntry where
  name : Str
  inodeidx : Nat
  mode : Nat

abbrev Disk := Nat → Nat → List DirEntry

abbrev TreeM := StateT FsTree Option

namespace FsTree

def createNode (fs : Option RegisteredFs) (parent : Option Nat) (name : Str) (mode ino : Nat) : FsNode :=
  ⟨none,none,some mode,ino,fs,name,parent,.init (if sIsdir mode then 256 else 0),none,false⟩

def read {α : Type} (g : FsTree → Option α) : TreeM α := fun t => (g t).map (fun a => (a,t))

def node (i : Nat) : TreeM FsNode := read (fun t => t.nodes[i]?)

def setErrno (e : Errno) : TreeM Unit := fun t => some ((),{ t with errno := e })

def addNode (n : FsNode) : TreeM Nat :=
  fun t => some (t.nodes.length,{ t with nodes := t.nodes++[n] })

def insertChild (p : Nat) (name : Str) (child : Option Nat) : TreeM Unit := fun t =>
  (t.nodes[p]?).bind (fun dir => (dir.children.insert name child).map (fun children =>
    ((),{ t with nodes := t.nodes.set p { dir with children := children } })))

def setPopulated (i : Nat) : TreeM Unit := fun t =>
  (t.nodes[i]?).map (fun dir =>
    ((),{ t with nodes := t.nodes.set i { dir with populated := true } }))

def populateEntry (device i : Nat) (_ : Unit) (e : DirEntry) : TreeM Unit :=
  if e.inodeidx=0 ∨ e.name=str "." ∨ e.name=str ".." then pure ()
  else do
    let n ← addNode (createNode (some (.ext2fs device)) (some i) e.name e.mode e.inodeidx)
    insertChild i e.name (some n)

def ext2fsPopulate (disk : Disk) (device i : Nat) : TreeM Unit := do
  let dir ← node i
  (disk device dir.ino).foldlM (populateEntry device i) ()
  setPopulated i

/-- populate: only an ext2fs sets the callback. -/
def populate (disk : Disk) (i : Nat) : TreeM Bool := do
  let dir ← node i
  match dir.filesystem,dir.populated,dir.mode with
  | some (.ext2fs device),false,some mode =>
    if sIsdir mode then do
      ext2fsPopulate disk device i
      return (← node i).populated
    else return true
  | _,_,_ => return true

def reduceNode (i : Nat) : TreeM Nat :=
  read (fun t => reduceFrom FsNode.redir FsNode.mountpoint t.nodes t.nodes.length i)

def lookup (disk : Disk) : Lookup TreeM where
  root := read (fun t => some t.vfsRoot)
  node i := read (fun t => (t.nodes[i]?).map FsNode.view)
  reduceNode := reduceNode
  populate := populate disk
  deref o := read (fun _ => o)
  hang := read (fun _ => none)
  error := setErrno
  called := pure ()
  strdup := pure ()
  missing := pure ()
  free := pure ()

def path2node (disk : Disk) : Nat → Option Nat → Option Str → TreeM Path2node := (lookup disk).path2node

/-- What VFS::Create hands to HASHMAP_SINSERT. -/
structure Called where
  parent : Nat
  name : Str
  fs : RegisteredFs
  target : Option Nat

/-- The create callbacks: that of ext2fs is a stub, the others fail if there is no
memory for the resource. -/
def fsCreate (room : Bool) (fs : RegisteredFs) (parent : Nat) (name : Str) (mode : Nat) :
    TreeM (Option Nat) :=
  match fs,room with
  | .ext2fs _,_ => return none
  | _,false => return none
  | _,true => some <$> addNode (createNode (some fs) (some parent) name mode 0)

def createCallback (disk : Disk) (links : Nat) (room : Bool) (parent : Option Nat) (path : Str)
    (mode : Nat) : TreeM (Option Called) := do
  let r ← path2node disk links parent (some path)
  match r.targetParent,r.target,r.basename with
  | none,_,_ => return none
  | some _,some _,_ => do
    setErrno .eexist
    return none
  | some _,none,none => read (fun _ => none)
  | some p,none,some name => do
    let fs ← read (fun t => (t.nodes[p]?).bind FsNode.filesystem)
    return some ⟨p,name,fs,← fsCreate room fs p name mode⟩

/-- The mode of the node that Create made; low is what is read through NULL, none if that faults. -/
def targetMode (low : Option Nat) : Option Nat → TreeM Nat
  | none => read (fun _ => low)
  | some i => read (fun t => (t.nodes[i]?).bind FsNode.mode)

/-- VFS::Create. The entries for the directory itself and its parent are not made. -/
def create (disk : Disk) (links : Nat) (room : Bool) (low parent : Option Nat) (path : Str) (mode : Nat) :
    TreeM (Option Nat) := do
  match (← createCallback disk links room parent path mode) with
  | none => return none
  | some c => do
    insertChild c.parent c.name c.target
    let _ ← targetMode low c.target
    return c.target

/-- reduce_node with follow_symlinks, for at most so many nodes. -/
def reduceLinks (disk : Disk) (links : Nat) : Nat → Nat → TreeM (Option Nat)
  | 0,_ => read (fun _ => none)
  | n+1,i => do
    let x ← node i
    match x.redir,x.mountpoint,x.symlinkTarget with
    | some next,_,_ => reduceLinks disk links n next
    | none,some next,_ => reduceLinks disk links n next
    | none,none,none => return some i
    | none,none,some target => do
      match (← path2node disk links x.parent (some target)).target with
      | none => return none
      | some next => reduceLinks disk links n next

def getNode (disk : Disk) (links : Nat) (parent : Option Nat) (path : Str) (followLinks : Bool) :
    TreeM (Option Nat) := do
  match (← path2node disk links parent (some path)).target with
  | none => return none
  | some i => if followLinks then reduceLinks disk links links i else return some i

/-- A property that the steps of a lookup have and sequences keep. What is read is not errno. -/
structure LookupRule (disk : Disk) (Q : ∀ {α : Type}, TreeM α → Prop) : Prop where
  read : ∀ {α : Type} (g : FsTree → Option α), (∀ t e, g { t with errno := e }=g t) → Q (read g)
  bind : ∀ {α β : Type} {m : TreeM α} {f : α → TreeM β}, Q m → (∀ a, Q (f a)) → Q (m >>= f)
  setErrno : ∀ e, Q (setErrno e)
  populate : ∀ i, Q (populate disk i)

namespace LookupRule

variable {disk : Disk} {Q : ∀ {α : Type}, TreeM α → Prop} (h : LookupRule disk Q)

include h

theorem pure {α : Type} (a : α) : Q (Pure.pure a : TreeM α) := h.read (fun _ => some a) (fun _ _ => rfl)

theorem path2node (n : Nat) (parent : Option Nat) (path : Option Str) :
    Q (path2node disk n parent path) := by
  have hrule : (lookup disk).Related (fun m _ => Q m) (lookup disk) :=
    { pure := h.pure
      bind := h.bind
      root := h.read (fun t => some t.vfsRoot) (fun _ _ => rfl)
      node := fun _ => h.read _ (fun _ _ => rfl)
      reduceNode := fun _ => h.read _ (fun _ _ => rfl)
      populate := h.populate
      deref := fun _ => h.read _ (fun _ _ => rfl)
      hang := h.read (fun _ => none) (fun _ _ => rfl)
      error := h.setErrno
      called := h.pure ()
      strdup := h.pure ()
      missing := h.pure ()
      free := h.pure () }
  exact hrule.path2node n parent path

theorem reduceLinks (links n i : Nat) : Q (reduceLinks disk links n i) := by
  induction n generalizing i with
  | zero => exact h.read (fun _ => none) (fun _ _ => rfl)
  | succ n ih =>
    refine h.bind (h.read _ (fun _ _ => rfl)) (fun x => ?_)
    split
    · exact ih _
    · exact ih _
    · exact h.pure _
    · refine h.bind (h.path2node _ _ _) (fun r => ?_)
      split
      · exact h.pure _
      · exact ih _

theorem getNode (links : Nat) (parent : Option Nat) (path : Str) (followLinks : Bool) :
    Q (getNode disk links parent path followLinks) := by
  refine h.bind (h.path2node _ _ _) (fun r => ?_)
  split
  · exact h.pure _
  · split
    · exact h.reduceLinks _ _ _
    · exact h.pure _

omit h in
/-- populate is made of three steps that write. -/
theorem ofSteps (read : ∀ {α : Type} (g : FsTree → Option α), (∀ t e, g { t with errno := e }=g t) →
      Q (FsTree.read g))
    (bind : ∀ {α β : Type} {m : TreeM α} {f : α → TreeM β}, Q m → (∀ a, Q (f a)) → Q (m >>= f))
    (err : ∀ e, Q (FsTree.setErrno e)) (add : ∀ n, Q (addNode n))
    (insert : ∀ p name child, Q (insertChild p name child)) (set : ∀ i, Q (setPopulated i)) :
    LookupRule disk Q := by
  have hpure : ∀ {α : Type} (a : α), Q (Pure.pure a : TreeM α) :=
    fun a => read (fun _ => some a) (fun _ _ => rfl)
  have hentry : ∀ device i e, Q (populateEntry device i () e) := by
    intro device i e
    rw [populateEntry]
    split
    · exact hpure _
    · exact bind (add _) (fun n => insert _ _ _)
  have hentries : ∀ device i (l : List DirEntry), Q (l.foldlM (populateEntry device i) ()) := by
    intro device i l
    induction l with
    | nil => exact hpure ()
    | cons e l ih =>
      rw [List.foldlM_cons]
      exact bind (hentry device i e) (fun _ => ih)
  refine ⟨read,bind,err,fun i => bind (read _ (fun _ _ => rfl)) (fun dir => ?_)⟩
  split
  · split
    · exact bind (bind (read _ (fun _ _ => rfl)) (fun _ => bind (hentries _ _ _) (fun _ => set i)))
        (fun _ => bind (read _ (fun _ _ => rfl)) (fun _ => hpure _))
    · exact hpure _
  · exact hpure _

end LookupRule

/-- What errors and populate do to the tree, lookups do. -/
theorem moves_rule {R : FsTree → FsTree → Prop} [Std.Refl R] [IsTrans FsTree R] {disk : Disk}
    (he : ∀ e, Moves R (setErrno e)) (hp : ∀ i, Moves R (populate disk i)) :
    LookupRule disk (Moves R) :=
  ⟨fun g _ => .read g,fun hm hf => .bind hm hf,he,hp⟩

def Populated (t : FsTree) : Prop :=
  ∀ (i : Nat) (node : FsNode) (device mode : Nat), t.nodes[i]?=some node →
    node.filesystem=some (.ext2fs device) → node.mode=some mode → sIsdir mode=true → node.populated=true

/-- Then the lookup of a path leaves the nodes as they are. -/
def Kept (t t' : FsTree) : Prop := t.Populated → t'.nodes=t.nodes

theorem Populated.of_nodes {t t' : FsTree} (h : t.Populated) (hn : t'.nodes=t.nodes) : t'.Populated := by
  intro i node device mode hi
  rw [hn] at hi
  exact h i node device mode hi

instance keptRefl : Std.Refl Kept := ⟨fun _ _ => rfl⟩

instance keptTrans : IsTrans FsTree Kept :=
  ⟨fun _ _ _ h k hp => (k (hp.of_nodes (h hp))).trans (h hp)⟩

theorem createCallback_cases {disk : Disk} {links mode : Nat} {room : Bool} {parent : Option Nat}
    {path : Str} {c : Called} {t t' : FsTree}
    (h : createCallback disk links room parent path mode t=some (some c,t')) :
    ∃ r t₁, path2node disk links parent (some path) t=some (r,t₁) ∧
      fsCreate room c.fs c.parent c.name mode t₁=some (c.target,t') := by
  obtain ⟨⟨⟨tp,g,b,e⟩,t₁⟩,hr,h⟩ := bind_eq_some_iff.mp h
  refine ⟨_,t₁,hr,?_⟩
  rcases tp with - | p
  · cases h
  rcases g with - | g
  · rcases b with - | name
    · cases h
    obtain ⟨⟨fs,t₂⟩,hfs,h⟩ := bind_eq_some_iff.mp h
    obtain ⟨fs',-,he⟩ := map_eq_some_iff.mp hfs
    cases he
    obtain ⟨⟨target,t₃⟩,hc,h⟩ := bind_eq_some_iff.mp h
    cases h
    exact hc
  · cases h

theorem create_inserts {disk : Disk} {links mode : Nat} {room : Bool} {low parent o : Option Nat}
    {path : Str} {c : Called} {t t₁ t₂ : FsTree}
    (hcall : createCallback disk links room parent path mode t=some (some c,t₁))
    (h : create disk links room low parent path mode t=some (o,t₂)) :
    o=c.target ∧ insertChild c.parent c.name c.target t₁=some ((),t₂) := by
  obtain ⟨x,hx,h⟩ := bind_eq_some_iff.mp h
  rw [hcall] at hx
  cases hx
  obtain ⟨⟨⟨⟩,t₃⟩,hins,h⟩ := bind_eq_some_iff.mp h
  obtain ⟨⟨mode',t₄⟩,hmode,h⟩ := bind_eq_some_iff.mp h
  have hread : t₄=t₃ := by
    cases hc : c.target <;> rw [hc] at hmode <;>
      obtain ⟨m,-,he⟩ := map_eq_some_iff.mp hmode <;> cases he <;> rfl
  cases h
  rw [hread]
  exact ⟨rfl,hins⟩

end FsTree

def mountedTree (fs : RegisteredFs) : FsTree :=
  ⟨[⟨some 1,none,none,0,none,[],none,.init 0,none,false⟩,
    FsTree.createNode (some fs) (some 0) [slash] (0o644 ||| sIfdir) 2],0,.enoent⟩

end X64OS.Fs
