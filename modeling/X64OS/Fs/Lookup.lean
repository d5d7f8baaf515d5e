import X64OS.Fs.Tmpfs

namespace X64OS.Fs

open Framework

inductive Errno where
  | enoent
  | enotdir
  | eisdir
  | enodev
  | eexist
  | eloop
  deriving DecidableEq, Repr

def slash : BitVec 8 := 0x2f#8

/-- struct path2node_res, with what is stored to errno. -/
structure Path2node where
  targetParent : Option Nat
  target : Option Nat
  basename : Option Str
  errno : Option Errno

def Path2node.nothing (errno : Option Errno) : Path2node := ⟨none,none,none,errno⟩

/-- reduce_node without follow_symlinks, for at most so many nodes. -/
def reduceFrom {ν : Type} (redir mountpoint : ν → Option Nat) (nodes : List ν) : Nat → Nat → Option Nat
  | 0,_ => none
  | n+1,i =>
    (nodes[i]?).bind (fun node =>
      match redir node with
      | some next => reduceFrom redir mountpoint nodes n next
      | none =>
        match mountpoint node with
        | some next => reduceFrom redir mountpoint nodes n next
        | none => some i)

/-- What path2node reads of a struct vfs_node; a child may be NULL. -/
structure NodeView where
  child : Str → Option (Option Nat)
  mode : Option Nat
  parent : Option Nat
  symlinkTarget : Option Str

/-- What path2node is made of, in code m of the kernel. -/
structure Lookup (m : Type → Type) where
  root : m Nat
  node : Nat → m NodeView
  reduceNode : Nat → m Nat
  populate : Nat → m Bool
  -- a read through NULL does not return, and neither does a loop that goes on
  deref : Option Nat → m Nat
  hang : m Path2node
  error : Errno → m Unit
  -- the message at the start, the copy of a name, the message about a missing one, free
  called : m Unit
  strdup : m Unit
  missing : m Unit
  free : m Unit

namespace Lookup

variable {m : Type → Type} [Monad m] (t : Lookup m) (link : Option Nat → Option Str → m Path2node)

/-- The node in which path2node goes on, through a symbolic link if it is one. -/
def followLink (mode new : Nat) (newNode : NodeView) : m (Option Nat × Option Errno) :=
  if sIslnk mode then do
    let r ← link newNode.parent newNode.symlinkTarget
    return (r.target,r.errno)
  else return (some new,none)

/-- One round of path2node on the element elem: the result, or the node in which
the next element is looked up. link resolves the target of a symbolic link. -/
def lookupElem (askForDir last : Bool) (current : Nat) (elem : Str) : m (Path2node ⊕ Nat) := do
  t.strdup
  let current ← t.reduceNode current
  let node ← t.node current
  match node.child elem with
  | none => do
    t.error .enoent
    t.missing
    if last then return .inl ⟨some current,none,some elem,some .enoent⟩
    else do
      t.free
      return .inl (.nothing (some .enoent))
  | some child => do
    let child ← t.deref child
    let new ← t.reduceNode child
    if (← t.populate new)=false then do
      t.free
      return .inl (.nothing none)
    else do
      let newNode ← t.node new
      if last then
        if askForDir then do
          let mode ← t.deref newNode.mode
          if sIsdir mode then return .inl ⟨some current,some new,some elem,none⟩
          else do
            t.error .enotdir
            return .inl ⟨some current,none,some elem,some .enotdir⟩
        else return .inl ⟨some current,some new,some elem,none⟩
      else do
        let mode ← t.deref newNode.mode
        let next ← followLink link mode new newNode
        match next.1 with
        | none => do
          t.free
          return .inl (.nothing next.2)
        | some next => do
          let nextNode ← t.node next
          let mode ← t.deref nextNode.mode
          if sIsdir mode then do
            t.free
            return .inr next
          else do
            t.error .enotdir
            t.free
            return .inl (.nothing (some .enotdir))

def walk (askForDir : Bool) : Nat → Nat → Str → m Path2node
  | 0,_,_ => t.hang
  | n+1,current,rest => do
    let elem := rest.takeWhile (fun c => c≠slash)
    let rest := (rest.dropWhile (fun c => c≠slash)).dropWhile (fun c => c=slash)
    match (← t.lookupElem link askForDir (rest=[]) current elem) with
    | .inl r => return r
    | .inr next => walk askForDir n next rest

def startNode (path : Str) (root current : Nat) : m Nat :=
  if path.head?=some slash then t.reduceNode root else return current

def path2node : Nat → Option Nat → Option Str → m Path2node
  | 0,_,_ => t.hang
  | n+1,parent,path => do
    t.called
    match path with
    | none => do
      t.error .enoent
      return .nothing (some .enoent)
    | some path =>
      if path=[] then do
        t.error .enoent
        return .nothing (some .enoent)
      else do
        let root ← t.root
        let current ← t.reduceNode (parent.getD root)
        if (← t.populate current)=false then return .nothing none
        else do
          let current ← t.startNode path root current
          let rest := path.dropWhile (fun c => c=slash)
          if rest=[] then do
            t.strdup
            return ⟨some current,some current,some [slash],none⟩
          else t.walk (path2node n) (path.getLast?=some slash) rest.length current rest

/-- A relation between two kinds of code that sequences keep and that holds between the parts of
path2node on one tree and on another. -/
structure Related {m' : Type → Type} [Monad m'] (R : ∀ {α : Type}, m α → m' α → Prop) (t : Lookup m)
    (t' : Lookup m') : Prop where
  pure : ∀ {α : Type} (a : α), R (Pure.pure a) (Pure.pure a)
  bind : ∀ {α β : Type} {x : m α} {x' : m' α} {f : α → m β} {f' : α → m' β},
    R x x' → (∀ a, R (f a) (f' a)) → R (x >>= f) (x' >>= f')
  root : R t.root t'.root
  node : ∀ i, R (t.node i) (t'.node i)
  reduceNode : ∀ i, R (t.reduceNode i) (t'.reduceNode i)
  populate : ∀ i, R (t.populate i) (t'.populate i)
  deref : ∀ o, R (t.deref o) (t'.deref o)
  hang : R t.hang t'.hang
  error : ∀ e, R (t.error e) (t'.error e)
  called : R t.called t'.called
  strdup : R t.strdup t'.strdup
  missing : R t.missing t'.missing
  free : R t.free t'.free

namespace Related

variable {m' : Type → Type} [Monad m'] {R : ∀ {α : Type}, m α → m' α → Prop} {t : Lookup m} {t' : Lookup m'}
  {link : Option Nat → Option Str → m Path2node} {link' : Option Nat → Option Str → m' Path2node}
  (h : Related R t t')

include h

section
variable (hlink : ∀ parent path, R (link parent path) (link' parent path))
include hlink

theorem followLink (mode new : Nat) (newNode : NodeView) :
    R (Lookup.followLink link mode new newNode) (Lookup.followLink link' mode new newNode) := by
  unfold Lookup.followLink
  split
  · exact h.bind (hlink _ _) (fun _ => h.pure _)
  · exact h.pure _

theorem lookupElem (askForDir last : Bool) (current : Nat) (elem : Str) :
    R (t.lookupElem link askForDir last current elem) (t'.lookupElem link' askForDir last current elem) := by
  refine h.bind h.strdup (fun _ => h.bind (h.reduceNode _) (fun current => h.bind (h.node _) (fun node => ?_)))
  cases node.child elem with
  | none =>
    refine h.bind (h.error _) (fun _ => h.bind h.missing (fun _ => ?_))
    cases last with
    | true => exact h.pure _
    | false => exact h.bind h.free (fun _ => h.pure _)
  | some child =>
    refine h.bind (h.deref _) (fun child => h.bind (h.reduceNode _) (fun new =>
      h.bind (h.populate _) (fun ok => ?_)))
    cases ok with
    | false => exact h.bind h.free (fun _ => h.pure _)
    | true =>
      refine h.bind (h.node _) (fun newNode => ?_)
      cases last with
      | true =>
        cases askForDir with
        | false => exact h.pure _
        | true =>
          refine h.bind (h.deref _) (fun mode => ?_)
          cases sIsdir mode with
          | true => exact h.pure _
          | false => exact h.bind (h.error _) (fun _ => h.pure _)
      | false =>
        refine h.bind (h.deref _) (fun mode => h.bind (h.followLink hlink _ _ _) (fun next => ?_))
        obtain ⟨next | next,e⟩ := next
        · exact h.bind h.free (fun _ => h.pure _)
        · refine h.bind (h.node _) (fun nextNode => h.bind (h.deref _) (fun mode => ?_))
          cases sIsdir mode with
          | true => exact h.bind h.free (fun _ => h.pure _)
          | false => exact h.bind (h.error _) (fun _ => h.bind h.free (fun _ => h.pure _))

theorem walk (askForDir : Bool) (n current : Nat) (rest : Str) :
    R (t.walk link askForDir n current rest) (t'.walk link' askForDir n current rest) := by
  induction n generalizing current rest with
  | zero => exact h.hang
  | succ n ih =>
    refine h.bind (h.lookupElem hlink _ _ _ _) (fun x => ?_)
    cases x with
    | inl r => exact h.pure r
    | inr next => exact ih next _

end

theorem startNode (path : Str) (root current : Nat) :
    R (t.startNode path root current) (t'.startNode path root current) := by
  unfold Lookup.startNode
  split
  · exact h.reduceNode _
  · exact h.pure _

theorem path2node (n : Nat) (parent : Option Nat) (path : Option Str) :
    R (t.path2node n parent path) (t'.path2node n parent path) := by
  induction n generalizing parent path with
  | zero => exact h.hang
  | succ n ih =>
    refine h.bind h.called (fun _ => ?_)
    cases path with
    | none => exact h.bind (h.error _) (fun _ => h.pure _)
    | some path =>
      dsimp only
      split
      · exact h.bind (h.error _) (fun _ => h.pure _)
      · refine h.bind h.root (fun root => h.bind (h.reduceNode _) (fun current =>
          h.bind (h.populate _) (fun ok => ?_)))
        cases ok with
        | false => exact h.pure _
        | true =>
          refine h.bind (h.startNode _ _ _) (fun current => ?_)
          split
          · exact h.bind h.strdup (fun _ => h.pure _)
          · exact h.walk ih _ _ _ _

end Related

end Lookup

end X64OS.Fs
