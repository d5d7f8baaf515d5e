import X64OS.Fs.Lookup

namespace X64OS.Fs

open Framework

/-- The filesystems with a create function; neither sets populate. -/
inductive Filesystem where
  | tmpfs
  | devtmpfs
  deriving DecidableEq, Repr

/-- struct vfs_node; nodes go by number. -/
structure VfsNode where
  mountpoint : Option Nat
  redir : Option Nat
  resource : Option Resource
  filesystem : Option Filesystem
  name : Str
  parent : Option Nat
  children : HashMap Nat
  symlinkTarget : Option Str

structure Vfs where
  nodes : List VfsNode
  vfsRoot : Nat
  devtmpfsRoot : Nat
  filesystems : HashMap Filesystem
  errno : Errno

def VfsNode.mode (n : VfsNode) : Option Nat := n.resource.map (fun r => r.stMode)

def VfsNode.view (n : VfsNode) : NodeView :=
  ⟨fun elem => (n.children.get elem).map some,n.mode,n.parent,n.symlinkTarget⟩

def createNode (fs : Option Filesystem) (parent : Option Nat) (name : Str) (dir : Bool) : VfsNode :=
  ⟨none,none,none,fs,name,parent,.init (if dir then 256 else 0),none⟩

namespace Vfs

def setNode (s : Vfs) (i : Nat) (n : VfsNode) : Vfs := { s with nodes := s.nodes.set i n }

def setErrno (s : Vfs) (e : Option Errno) : Vfs := { s with errno := e.getD s.errno }

def reduceFrom (s : Vfs) : Nat → Nat → Option Nat := Fs.reduceFrom VfsNode.redir VfsNode.mountpoint s.nodes

/-- A chain of more nodes than there are goes round in circles. -/
def reduceNode (s : Vfs) (i : Nat) : Option Nat := s.reduceFrom s.nodes.length i

/-- path2node on the tree: no filesystem sets populate, and what is stored to errno comes with
the result. -/
def lookup (s : Vfs) : Lookup Option where
  root := some s.vfsRoot
  node i := (s.nodes[i]?).map VfsNode.view
  reduceNode := s.reduceNode
  populate _ := some true
  deref := id
  hang := none
  error _ := some ()
  called := some ()
  strdup := some ()
  missing := some ()
  free := some ()

def lookupElem (s : Vfs) (link : Option Nat → Option Str → Option Path2node)
    (askForDir last : Bool) (current : Nat) (elem : Str) : Option (Path2node ⊕ Nat) :=
  s.lookup.lookupElem link askForDir last current elem

def walk (s : Vfs) (link : Option Nat → Option Str → Option Path2node) (askForDir : Bool) :
    Nat → Nat → Str → Option Path2node :=
  s.lookup.walk link askForDir

def path2nodeLinks (s : Vfs) : Nat → Option Nat → Option Str → Option Path2node := s.lookup.path2node

/-- More links than there are nodes: some link leads back to itself. -/
def path2node (s : Vfs) (parent : Option Nat) (path : Option Str) : Option Path2node :=
  s.path2nodeLinks (s.nodes.length+1) parent path

theorem reduceFrom_succ (s : Vfs) (n i : Nat) :
    s.reduceFrom (n+1) i=(s.nodes[i]?).bind (fun node =>
      match node.redir with
      | some next => s.reduceFrom n next
      | none =>
        match node.mountpoint with
        | some next => s.reduceFrom n next
        | none => some i) := rfl

section
variable (s : Vfs) (link : Option Nat → Option Str → Option Path2node)

theorem lookupElem_eq (askForDir last : Bool) (current : Nat) (elem : Str) :
    s.lookupElem link askForDir last current elem=(s.reduceNode current).bind (fun current =>
    (s.nodes[current]?).bind (fun node =>
      match node.children.get elem with
      | none =>
        if last then some (.inl ⟨some current,none,some elem,some .enoent⟩)
        else some (.inl (.nothing (some .enoent)))
      | some child =>
        (s.reduceNode child).bind (fun new =>
          (s.nodes[new]?).bind (fun newNode =>
            if last then
              if askForDir then
                newNode.mode.map (fun mode =>
                  if sIsdir mode then .inl ⟨some current,some new,some elem,none⟩
                  else .inl ⟨some current,none,some elem,some .enotdir⟩)
              else some (.inl ⟨some current,some new,some elem,none⟩)
            else
              newNode.mode.bind (fun mode =>
                (if sIslnk mode then
                  (link newNode.parent newNode.symlinkTarget).map (fun r => (r.target,r.errno))
                else some (some new,none)).bind (fun next =>
                  match next.1 with
                  | none => some (.inl (.nothing next.2))
                  | some next =>
                    ((s.nodes[next]?).bind VfsNode.mode).map (fun mode =>
                      if sIsdir mode then .inr next
                      else .inl (.nothing (some .enotdir))))))))) := by
  refine congrArg (s.reduceNode current).bind (funext (fun current => ?_))
  refine Option.bind_map.trans (congrArg (s.nodes[current]?).bind (funext (fun node => ?_)))
  dsimp only [Function.comp,VfsNode.view]
  cases node.children.get elem with
  | none => cases last <;> rfl
  | some child =>
    refine congrArg (s.reduceNode child).bind (funext (fun new => ?_))
    refine Option.bind_map.trans (congrArg (s.nodes[new]?).bind (funext (fun newNode => ?_)))
    cases last with
    | true =>
      cases askForDir with
      | false => rfl
      | true =>
        refine Eq.trans ?_ Option.map_eq_bind.symm
        refine congrArg newNode.mode.bind (funext (fun mode => ?_))
        dsimp only [Function.comp]
        cases sIsdir mode <;> rfl
    | false =>
      refine congrArg newNode.mode.bind (funext (fun mode => ?_))
      have hlink : Lookup.followLink link mode new newNode.view=(if sIslnk mode then
          (link newNode.parent newNode.symlinkTarget).map (fun r => (r.target,r.errno))
        else some (some new,none)) := by
        unfold Lookup.followLink
        split
        · exact Option.map_eq_bind.symm
        · rfl
      rw [← hlink]
      refine congrArg (Lookup.followLink link mode new newNode.view).bind (funext (fun next => ?_))
      obtain ⟨next | next,e⟩ := next
      · rfl
      · refine Option.bind_map.trans ?_
        dsimp only
        cases s.nodes[next]? with
        | none => rfl
        | some node =>
          refine Eq.trans ?_ Option.map_eq_bind.symm
          refine congrArg node.mode.bind (funext (fun mode => ?_))
          dsimp only [Function.comp]
          cases sIsdir mode <;> rfl

theorem walk_succ (askForDir : Bool) (n current : Nat) (rest : Str) :
    s.walk link askForDir (n+1) current rest=
      (s.lookupElem link askForDir ((rest.dropWhile (fun c => c≠slash)).dropWhile (fun c => c=slash)=[])
        current (rest.takeWhile (fun c => c≠slash))).bind (fun x =>
      match x with
      | .inl r => some r
      | .inr next => s.walk link askForDir n next
          ((rest.dropWhile (fun c => c≠slash)).dropWhile (fun c => c=slash))) := rfl

end

theorem path2nodeLinks_succ (s : Vfs) (n : Nat) (parent : Option Nat) (path : Str) :
    s.path2nodeLinks (n+1) parent (some path)=
      if path=[] then some (.nothing (some .enoent))
      else
        (s.reduceNode (parent.getD s.vfsRoot)).bind (fun current =>
          (if path.head?=some slash then s.reduceNode s.vfsRoot else some current).bind (fun current =>
            if path.dropWhile (fun c => c=slash)=[] then some ⟨some current,some current,some [slash],none⟩
            else s.walk (s.path2nodeLinks n) (path.getLast?=some slash)
              (path.dropWhile (fun c => c=slash)).length current (path.dropWhile (fun c => c=slash)))) := rfl

def addNode (s : Vfs) (n : VfsNode) : Nat × Vfs :=
  (s.nodes.length,{ s with nodes := s.nodes++[n] })

section
variable (s : Vfs) (fs : Filesystem) (parent : Option Nat) (name : Str)

def fsCreate (mode : Nat) : Nat × Vfs :=
  s.addNode { createNode (some fs) parent name (sIsdir mode) with
    resource := some (createTmpfsResource mode) }

/-- tmpfs_mount makes a new root, devtmpfs_mount has one for all. -/
def fsMount : Nat × Vfs :=
  match fs with
  | .tmpfs => s.fsCreate .tmpfs parent name (0o644 ||| sIfdir)
  | .devtmpfs => (s.devtmpfsRoot,s)

end

def insertChild (s : Vfs) (p : Nat) (name : Str) (i : Nat) : Option Vfs :=
  (s.nodes[p]?).bind (fun dir =>
    (dir.children.insert name i).map (fun children => s.setNode p { dir with children := children }))

section
variable (s : Vfs) (parent : Option Nat)

def create (name : Str) (mode : Nat) : Option (Option Nat × Vfs) :=
  (s.path2node parent (some name)).bind (fun r =>
    let s := s.setErrno r.errno
    match r.targetParent,r.target,r.basename with
    | none,_,_ => some (none,s)
    | some _,some _,_ => some (none,s.setErrno (some .eexist))
    | some _,none,none => none
    | some p,none,some basename =>
      ((s.nodes[p]?).bind VfsNode.filesystem).bind (fun fs =>
        let x := s.fsCreate fs (some p) basename mode
        (x.2.insertChild p basename x.1).map (fun s => (some x.1,s))))

def getNode (path : Str) : Option (Option Nat × Vfs) :=
  (s.path2node parent (some path)).map (fun r => (r.target,s.setErrno r.errno))

def mountSource (source : Option Str) : Option (Option (Option Nat) × Vfs) :=
  match source with
  | none => some (some none,s)
  | some source =>
    if source=[] then some (some none,s)
    else
      (s.path2node parent (some source)).bind (fun r =>
        let s := s.setErrno r.errno
        match r.target with
        | none => some (none,s)
        | some node =>
          ((s.nodes[node]?).bind VfsNode.mode).map (fun mode =>
            if sIsdir mode then (none,s.setErrno (some .eisdir)) else (some (some node),s)))

def mount (source : Option Str) (target fsName : Str) : Option (Bool × Vfs) :=
  match s.filesystems.get fsName with
  | none => some (false,s.setErrno (some .enodev))
  | some fs =>
    (s.mountSource parent source).bind (fun x =>
      match x.1 with
      | none => some (false,x.2)
      | some _ =>
        (x.2.path2node parent (some target)).bind (fun r =>
          let s := x.2.setErrno r.errno
          match r.target with
          | none => some (false,s)
          | some t =>
            (s.nodes[t]?).bind (fun node =>
              (if t=s.vfsRoot then some true else node.mode.map sIsdir).map (fun ok =>
                if ok then
                  let y := s.fsMount fs r.targetParent (r.basename.getD [])
                  (true,y.2.setNode t { node with mountpoint := some y.1 })
                else (false,s)))))

end

def devtmpfsAddDevice (s : Vfs) (device : Resource) (name : Str) : Option (Bool × Vfs) :=
  (s.getNode (some s.devtmpfsRoot) name).bind (fun x =>
    match x.1 with
    | some _ => some (false,x.2.setErrno (some .eexist))
    | none =>
      let y := x.2.addNode { createNode (some .devtmpfs) (some s.devtmpfsRoot) name false with
        resource := some device }
      (y.2.insertChild s.devtmpfsRoot name y.1).map (fun s => (true,s)))

end Vfs

def str (s : String) : Str := s.toList.map (fun c => BitVec.ofNat 8 c.toNat)

def Vfs.addFilesystem (s : Vfs) (fs : Filesystem) (identifier : Str) : Option Vfs :=
  (s.filesystems.insert identifier fs).map (fun filesystems => { s with filesystems := filesystems })

def vfsInit : Option Vfs :=
  let s : Vfs := ⟨[createNode none none [] false],0,1,.init 256,.enoent⟩
  (s.addFilesystem .tmpfs (str "tmpfs")).bind (fun s =>
    let x := s.fsCreate .devtmpfs none [] (0o755 ||| sIfdir)
    { x.2 with devtmpfsRoot := x.1 }.addFilesystem .devtmpfs (str "devtmpfs"))

def vfsBoot : Option Vfs :=
  vfsInit.bind (fun s =>
    (s.mount (some s.vfsRoot) none (str "/") (str "tmpfs")).bind (fun x =>
      (x.2.create (some s.vfsRoot) (str "/dev") (0o755 ||| sIfdir)).bind (fun y =>
        (y.2.mount (some s.vfsRoot) none (str "/dev") (str "devtmpfs")).map (fun z => z.2))))

end X64OS.Fs
