import X64OS.Fs.FdTable
import X64OS.Fs.FsTree

namespace X64OS.Fs

open Framework Function

def atFdcwd : Int := -100

structure OpenFlags where
  creat : Bool
  directory : Bool
  nofollow : Bool
  trunc : Bool

/-- What a call of openat meets: the disks, how many links it goes through before it is
said not to return, where there is memory for a resource and for a descriptor, and the
mode that is read through NULL. -/
structure OpenEnv where
  disk : Disk
  links : Nat
  room : Bool
  roomFd : Bool
  low : Option Nat

/-- The namespace, with the file and the refcount of each node's resource, and the
descriptors and the working directory of the current thread. -/
structure OpenWorld where
  tree : FsTree
  files : Nat → Resource
  refcounts : Nat → Nat
  table : FdTable
  next : Nat
  cwd : Option Nat

abbrev OpenM := StateT OpenWorld Option

def FdTable.setDescription (t : FdTable) (d : Nat) (e : FileDescription) : FdTable :=
  { t with descriptions := update t.descriptions d (some e) }

def FdTable.allocate (t : FdTable) (p : Nat) (e : FileDescription) : FdTable :=
  { t.setDescription p e with descriptors := update t.descriptors p (some ⟨p⟩) }

/-- fd_from_fdnum: the descriptor, with one more reference to its description. -/
def FdTable.fdFromFdnum (fdnum : Int) (t : FdTable) : Option (Option Nat × FdTable) :=
  if fdnum < 0 ∨ maxFds ≤ fdnum then some (none,t)
  else
    match t.fds fdnum.toNat with
    | none => some (none,t)
    | some p =>
      (t.descriptors p).bind (fun fd => (t.descriptions fd.description).map (fun e =>
        (some p,t.setDescription fd.description { e with refcount := add64 e.refcount 1 })))

def FdTable.descriptionOf (t : FdTable) (p : Nat) : Option FileDescription :=
  (t.descriptors p).bind (fun fd => t.descriptions fd.description)

namespace OpenWorld

def ask {α : Type} (g : OpenWorld → Option α) : OpenM α := fun w => (g w).map (fun a => (a,w))

def onTree {α : Type} (m : TreeM α) : OpenM α :=
  fun w => (m w.tree).map (fun x => (x.1,{ w with tree := x.2 }))

def onTable {α : Type} (f : FdTable → Option (α × FdTable)) : OpenM α :=
  fun w => (f w.table).map (fun x => (x.1,{ w with table := x.2 }))

def nodeMode (i : Nat) (w : OpenWorld) : Option Nat := (w.tree.nodes[i]?).bind FsNode.mode

def resMode (w : OpenWorld) : ResourceRef → Option Nat
  | .node i => w.nodeMode i
  | .other mode => some mode

def getParentDir (dirFdnum : Int) (path : Option Str) : OpenM (Option Nat) :=
  if path.bind List.head?=some slash then ask (fun w => some (some w.tree.vfsRoot))
  else if dirFdnum=atFdcwd then ask (fun w => some w.cwd)
  else do
    match (← onTable (FdTable.fdFromFdnum dirFdnum)) with
    | none => return none
    | some p => do
      let e ← ask (fun w => w.table.descriptionOf p)
      let mode ← ask (fun w => w.resMode e.res)
      if sIsdir mode then return e.node
      else do
        onTree (FsTree.setErrno .enotdir)
        return none

/-- vfs_fdnum_path_to_node, which looks whether it is asked for the parent, not whether
get_parent_dir has found one. -/
def fdnumPathToNode (env : OpenEnv) (dirFdnum : Int) (path : Option Str)
    (emptyPath enoentError wantsParent : Bool) : OpenM (Option Path2node) :=
  if emptyPath=false ∧ path.getD []=[] then do
    onTree (FsTree.setErrno .enoent)
    return none
  else do
    let parentNode ← getParentDir dirFdnum path
    if wantsParent=false then return none
    else do
      let r ← onTree (FsTree.path2node env.disk env.links parentNode path)
      let errno ← ask (fun w => some w.tree.errno)
      if r.target=none ∧ errno=.enoent ∧ enoentError then return none else return some r

def setFile (i : Nat) (r : Resource) : OpenM Unit :=
  fun w => some ((),{ w with files := update w.files i r })

def createFile (env : OpenEnv) (parent : Nat) (name : Str) (mode : Nat) : OpenM (Option Nat) := do
  match (← onTree (FsTree.create env.disk env.links env.room env.low (some parent) name mode)) with
  | none => return none
  | some i => do
    setFile i (createTmpfsResource mode)
    return some i

/-- The node that openat goes on with, and whether it is a new one. -/
structure Found where
  node : Nat
  created : Bool

def findOrCreate (env : OpenEnv) (parent : Nat) (basename : Str) (flags : OpenFlags) (mode : Nat) :
    OpenM (Option Found) := do
  match (← onTree (FsTree.getNode env.disk env.links (some parent) basename (!flags.nofollow))) with
  | some i => return some ⟨i,false⟩
  | none =>
    if flags.creat then do
      let i ← createFile env parent basename (mode ||| sIfreg)
      return i.map (fun i => ⟨i,true⟩)
    else do
      onTree (FsTree.setErrno .enoent)
      return none

def openatFound (env : OpenEnv) (dirFdnum : Int) (path : Option Str) (flags : OpenFlags) (mode : Nat) :
    OpenM (Option Found) := do
  match (← fdnumPathToNode env dirFdnum path false false true) with
  | none => return none
  | some r =>
    match r.targetParent,r.basename with
    | some parent,some basename => findOrCreate env parent basename flags mode
    | _,_ => do
      onTree (FsTree.setErrno .enoent)
      return none

def openatChecked (env : OpenEnv) (flags : OpenFlags) (i : Nat) : OpenM (Option Nat) := do
  let mode ← ask (nodeMode i)
  if sIslnk mode then do
    onTree (FsTree.setErrno .eloop)
    return none
  else do
    match (← onTree (FsTree.reduceLinks env.disk env.links env.links i)) with
    | none => return none
    | some j => do
      let mode ← ask (nodeMode j)
      if sIsdir mode=false ∧ flags.directory then do
        onTree (FsTree.setErrno .enotdir)
        return none
      else return some j

def fdCreateFromResource (roomFd : Bool) (i : Nat) : OpenM (Option Nat) := fun w =>
  if roomFd then
    some (some w.next,{ w with
      refcounts := update w.refcounts i (add64 (w.refcounts i) 1)
      table := w.table.allocate w.next ⟨1,0,.node i,none⟩
      next := w.next+1 })
  else some (none,w)

/-- The truncate of the resource to no bytes; ext2fs has the stub. -/
def truncateResource (i : Nat) : OpenM Unit := do
  let node ← ask (fun w => w.tree.nodes[i]?)
  match node.filesystem with
  | some (.ext2fs _) => return ()
  | _ => do
    let x ← ask (fun w => tmpfsTruncate (fun _ => true) (w.files i) 0)
    setFile i x.2

def truncateIf (trunc : Bool) (i : Nat) : OpenM Unit := do
  let mode ← ask (nodeMode i)
  if trunc ∧ sIsreg mode then truncateResource i else return ()

def setDescriptionNode (p i : Nat) : OpenM Unit :=
  onTable (fun t => (t.descriptors p).bind (fun fd => (t.descriptions fd.description).map (fun e =>
    ((),t.setDescription fd.description { e with node := some i }))))

def openatInstall (env : OpenEnv) (flags : OpenFlags) (i : Nat) : OpenM Int := do
  match (← fdCreateFromResource env.roomFd i) with
  | none => return -1
  | some p => do
    truncateIf flags.trunc i
    setDescriptionNode p i
    onTable (fun t => t.fdnumCreateFromFd p 0 false)

def openatOpen (env : OpenEnv) (flags : OpenFlags) (i : Nat) : OpenM Int := do
  match (← openatChecked env flags i) with
  | none => return -1
  | some i => openatInstall env flags i

def syscallOpenat (env : OpenEnv) (dirFdnum : Int) (path : Option Str) (flags : OpenFlags) (mode : Nat) :
    OpenM Int := do
  match (← openatFound env dirFdnum path flags mode) with
  | none => return -1
  | some f => openatOpen env flags f.node

end OpenWorld

def OpenEnv.plain : OpenEnv := ⟨fun _ _ => [],2,true,true,none⟩

end X64OS.Fs
