import X64OS.Framework.Locks
import X64OS.Fs.RefCounts
import X64OS.Fs.Vfs

namespace X64OS.Fs

open Framework

inductive Lock where
  | vfs
  | fds (thread : Nat)
  | resource (i : Nat)
  | slab (i : Fin 10)
  | pmm
  | printf
  deriving DecidableEq

/-- What a call of the allocator finds: the slab of the block, or none for whole pages; whether
that slab is empty; whether a block has to be moved or made at all; whether there is memory. -/
structure HeapAnswer where
  slab : Option (Fin 10)
  empty : Bool
  moves : Bool
  room : Bool

/-- The trees, the files and the answers of the allocator, the next of them at calls. -/
structure LockWorld where
  vfs : Vfs
  files : Files
  heap : Nat → HeapAnswer
  calls : Nat

abbrev LockM := Locking Lock LockWorld

namespace Locked

open Locking

def vfs : LockM Vfs := fun w => some (w.vfs,w,[])

def setVfs (s : Vfs) : LockM Unit := fun w => some ((),{ w with vfs := s },[])

def files : LockM Files := fun w => some (w.files,w,[])

def setFiles (s : Files) : LockM Unit := fun w => some ((),{ w with files := s },[])

def answer : LockM HeapAnswer := fun w => some (w.heap w.calls,{ w with calls := w.calls+1 },[])

def printf : LockM Unit := do acquire .printf; release .printf

/-- Logger::info; vprintf takes no lock. -/
def logInfo : LockM Unit := printf

/-- Logger::debug, and so are Logger::error and Logger::warn. -/
def logDebug : LockM Unit := do printf; printf

def pmmAllocNozero : LockM Unit := do acquire .pmm; release .pmm

def pmmFree : LockM Unit := do acquire .pmm; release .pmm

def createSlab : LockM Unit := do logDebug; pmmAllocNozero; logDebug

def allocFromSlab (i : Fin 10) (empty : Bool) : LockM Unit := do
  acquire (.slab i)
  when empty createSlab
  release (.slab i)

def freeInSlab (i : Fin 10) : LockM Unit := do acquire (.slab i); release (.slab i)

def slabAlloc (x : HeapAnswer) : LockM Unit :=
  match x.slab with
  | some i => allocFromSlab i x.empty
  | none => pmmAllocNozero

def slabFree (x : HeapAnswer) : LockM Unit :=
  match x.slab with
  | some i => freeInSlab i
  | none => pmmFree

/-- It clears what it returns, so that NULL never gets out of it; strdup and new call it too. -/
def malloc : LockM Unit := do slabAlloc (← answer)

def free : LockM Unit := do slabFree (← answer)

def realloc : LockM Bool := do
  let x ← answer
  when x.moves (slabAlloc x)
  when (x.moves && x.room) free
  return !x.moves || x.room

/-- HASHMAP_SINSERT makes the buckets, a bucket or a larger one where it has to. -/
def hashmapInsert : LockM Unit := do
  when (← answer).moves malloc
  when (← answer).moves malloc
  when (← answer).moves (do let _ ← realloc)

def createNode : LockM Unit := do malloc; malloc

def lookup : Lookup LockM where
  root := do return (← vfs).vfsRoot
  node i := do ofOption (((← vfs).nodes[i]?).map VfsNode.view)
  reduceNode i := do ofOption ((← vfs).reduceNode i)
  populate _ := return true
  deref := ofOption
  hang := ofOption none
  error _ := return ()
  called := printf
  strdup := malloc
  missing := logDebug
  free := free

def path2node (parent : Option Nat) (path : Option Str) : LockM Path2node := do
  let s ← vfs
  let r ← lookup.path2node (s.nodes.length+1) parent path
  setVfs (s.setErrno r.errno)
  return r

def reduceLinks : Nat → Nat → LockM (Option Nat)
  | 0,_ => ofOption none
  | n+1,i => do
    let s ← vfs
    let node ← ofOption s.nodes[i]?
    match node.redir with
    | some next => reduceLinks n next
    | none =>
      match node.mountpoint with
      | some next => reduceLinks n next
      | none =>
        match node.symlinkTarget with
        | none => return some i
        | some target => do
          let r ← path2node node.parent (some target)
          match r.target with
          | none => return none
          | some next => reduceLinks n next

/-- The release of the path's last element, where there is one. -/
def freeBasename (r : Path2node) : LockM Unit := when r.basename.isSome free

def fsCreate (fs : Filesystem) (parent : Option Nat) (name : Str) (mode : Nat) : LockM Nat := do
  when (fs=.tmpfs) logDebug
  createNode
  malloc
  when (sIsreg mode) malloc
  let s ← vfs
  let x := s.fsCreate fs parent name mode
  setVfs x.2
  return x.1

def fsMount (fs : Filesystem) (parent : Option Nat) (name : Str) : LockM Nat :=
  match fs with
  | .tmpfs => do
    logDebug
    malloc
    fsCreate .tmpfs parent name (0o644 ||| sIfdir)
  | .devtmpfs => do return (← vfs).devtmpfsRoot

def mountSource (parent : Option Nat) (source : Option Str) : LockM (Option (Option Nat)) :=
  match source with
  | none => return some none
  | some source =>
    if source=[] then return some none
    else do
      let r ← path2node parent (some source)
      freeBasename r
      match r.target with
      | none => return none
      | some node => do
        let s ← vfs
        let mode ← ofOption ((s.nodes[node]?).bind VfsNode.mode)
        if sIsdir mode then do
          setVfs (s.setErrno (some .eisdir))
          return none
        else return some (some node)

def mountTarget (fs : Filesystem) (parent : Option Nat) (target : Str) : LockM Bool := do
  let r ← path2node parent (some target)
  match r.target with
  | none => do
    freeBasename r
    release .vfs
    return false
  | some t => do
    let s ← vfs
    let node ← ofOption s.nodes[t]?
    let ok ← ofOption (if t=s.vfsRoot then some true else node.mode.map sIsdir)
    if ok then do
      let root ← fsMount fs r.targetParent (r.basename.getD [])
      let s ← vfs
      setVfs (s.setNode t { node with mountpoint := some root })
      logInfo
      freeBasename r
      release .vfs
      return true
    else do
      freeBasename r
      release .vfs
      return false

def mount (parent : Option Nat) (source : Option Str) (target fsName : Str) : LockM Bool := do
  acquire .vfs
  let s ← vfs
  match s.filesystems.get fsName with
  | none => do
    logDebug
    setVfs (s.setErrno (some .enodev))
    release .vfs
    return false
  | some fs => do
    match (← mountSource parent source) with
    | none => do
      release .vfs
      return false
    | some _ => mountTarget fs parent target

def create (parent : Option Nat) (name : Str) (mode : Nat) : LockM (Option Nat) := do
  acquire .vfs
  let r ← path2node parent (some name)
  match r.targetParent,r.target,r.basename with
  | none,_,_ => do
    freeBasename r
    release .vfs
    return none
  | some _,some _,_ => do
    let s ← vfs
    setVfs (s.setErrno (some .eexist))
    freeBasename r
    release .vfs
    return none
  | some _,none,none => ofOption none
  | some p,none,some basename => do
    let s ← vfs
    let fs ← ofOption ((s.nodes[p]?).bind VfsNode.filesystem)
    let i ← fsCreate fs (some p) basename mode
    hashmapInsert
    let s ← vfs
    let s ← ofOption (s.insertChild p basename i)
    setVfs s
    freeBasename r
    release .vfs
    return some i

def getNode (parent : Option Nat) (path : Str) (followLinks : Bool) : LockM (Option Nat) := do
  acquire .vfs
  let r ← path2node parent (some path)
  match r.target with
  | none => do
    freeBasename r
    release .vfs
    return none
  | some target =>
    if followLinks then do
      let s ← vfs
      let x ← reduceLinks s.nodes.length target
      freeBasename r
      release .vfs
      return x
    else do
      freeBasename r
      release .vfs
      return some target

def addFilesystem (fs : Filesystem) (identifier : Str) : LockM Unit := do
  acquire .vfs
  hashmapInsert
  let s ← vfs
  let s ← ofOption (s.addFilesystem fs identifier)
  setVfs s
  logInfo
  release .vfs

def addNewDevice (root : Nat) (device : Resource) (name : Str) : LockM Bool := do
  createNode
  let s ← vfs
  let x := s.addNode { Fs.createNode (some .devtmpfs) (some root) name false with
    resource := some device }
  setVfs x.2
  acquire .vfs
  hashmapInsert
  let s ← vfs
  let s ← ofOption (s.insertChild root name x.1)
  setVfs s
  logInfo
  release .vfs
  return true

def devtmpfsAddDevice (device : Resource) (name : Str) : LockM Bool := do
  let root := (← vfs).devtmpfsRoot
  match (← getNode (some root) name false) with
  | some _ => do
    let s ← vfs
    setVfs (s.setErrno (some .eexist))
    return false
  | none => addNewDevice root device name

/-- Both ways not to find a descriptor are printed. -/
def fdFromFdnum (thread : Nat) (fdnum : Int) : LockM (Option Descriptor) := do
  acquire (.fds thread)
  let s ← files
  let x ← ofOption (Fs.fdFromFdnum s thread fdnum)
  when x.1.isNone printf
  setFiles x.2
  release (.fds thread)
  return x.1

/-- Whether the number holds the last reference to its description. -/
def lastReference (s : Files) (thread : Nat) (fdnum : Int) : Bool :=
  (((s.fds thread fdnum.toNat).bind (fun fd => s.descriptions fd.description)).map
    Description.refcount)=some 1

def fdnumClose (thread : Nat) (fdnum : Int) (lock : Bool) : LockM Bool := do
  when lock (acquire (.fds thread))
  let s ← files
  let x ← ofOption (Fs.fdnumClose s thread fdnum)
  when (x.1 && lastReference s thread fdnum) free
  when x.1 free
  setFiles x.2
  when lock (release (.fds thread))
  return x.1

def fdnumCreateFromFd (thread : Nat) (fd : Descriptor) (oldFdnum : Int) (specific : Bool) :
    LockM Int := do
  acquire (.fds thread)
  if oldFdnum < 0 ∨ maxFds ≤ oldFdnum then do
    release (.fds thread)
    return -1
  else if specific then do
    let _ ← fdnumClose thread oldFdnum false
    let s ← files
    setFiles (s.setFd thread oldFdnum.toNat fd)
    release (.fds thread)
    return oldFdnum
  else do
    let s ← files
    let x := Fs.fdnumCreateFromFd s thread fd oldFdnum
    setFiles x.2
    release (.fds thread)
    return x.1

def tmpfsResourceRead (i offset count : Nat) : LockM (Nat × Str) := do
  acquire (.resource i)
  let s ← files
  let r ← ofOption (s.resources i)
  let x ← ofOption (Fs.tmpfsResourceRead r offset count)
  release (.resource i)
  return x

/-- Whether a write that reaches to stop has room, after a realloc where it needs one. -/
def growResource (r : Resource) (stop : Nat) : LockM Bool :=
  if r.capacity ≤ stop then realloc else return true

def tmpfsResourceWrite (i : Nat) (buf : Str) (offset : Nat) : LockM Int := do
  logDebug
  acquire (.resource i)
  let s ← files
  let r ← ofOption (s.resources i)
  let room ← growResource r (add64 offset buf.length)
  let x ← ofOption (Fs.tmpfsResourceWrite (fun _ => room) r buf offset)
  setFiles (s.setResource i x.2)
  release (.resource i)
  return x.1

/-- The new page has the bytes of the file's page; where there is no page there is none of those. -/
def tmpfsResourceMmap (i filePage : Nat) : LockM (Option Str) := do
  acquire (.resource i)
  pmmAllocNozero
  if (← answer).room then do
    let s ← files
    let r ← ofOption (s.resources i)
    release (.resource i)
    return some (window r.data (filePage*4096) 4096)
  else do
    release (.resource i)
    return none

def tmpfsResourceMsync (i filePage : Nat) (phys : Str) : LockM Bool := do
  acquire (.resource i)
  let s ← files
  let r ← ofOption (s.resources i)
  setFiles (s.setResource i { r with data := overlay r.data (filePage*4096) phys })
  release (.resource i)
  return true

end Locked

end X64OS.Fs
