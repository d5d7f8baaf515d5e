import X64OS.Framework.Traversal
import X64OS.Fs.VfsMounts

namespace X64OS.Fs

open Framework

namespace Vfs

/-- The pointer of a node that reduce_node follows. -/
def Redirects (s : Vfs) (i j : Nat) : Prop := ∃ node,s.nodes[i]?=some node ∧ node.next=some j

/-- The end of the pointers that begin at a node. -/
def Reduces (s : Vfs) (i j : Nat) : Prop := Relation.ReflTransGen s.Redirects i j ∧ s.Final j

def Directory (s : Vfs) (i : Nat) : Prop :=
  ∃ node mode,s.nodes[i]?=some node ∧ node.mode=some mode ∧ sIsdir mode=true

def Child (s : Vfs) (dir : Nat) (name : Str) (k : Nat) : Prop :=
  ∃ node c,s.nodes[dir]?=some node ∧ node.children.get name=some c ∧ s.Reduces c k

/-- The names lead from directory to directory. -/
inductive Descends (s : Vfs) : Nat → List Str → Nat → Prop
  | nil (dir : Nat) : Descends s dir [] dir
  | cons {d k dir : Nat} {name : Str} {names : List Str} (hchild : s.Child d name k)
      (hdir : s.Directory k) (hrest : Descends s k names dir) : Descends s d (name::names) dir

def Starts (s : Vfs) (parent : Option Nat) (path : Str) (d : Nat) : Prop :=
  s.Reduces (if path.head?=some slash then s.vfsRoot else parent.getD s.vfsRoot) d

/-- What a path stands for: the directory of its last name, the node if there is one, the name. -/
inductive Resolves (s : Vfs) (parent : Option Nat) (path : Str) :
    Option (Nat × Option Nat × Str) → Prop
  | root {r : Nat} (hne : path≠[]) (hnames : components path=[]) (hr : s.Reduces s.vfsRoot r) :
      Resolves s parent path (some (r,some r,[slash]))
  | found {d dir k : Nat} {names : List Str} {name : Str} (hd : s.Starts parent path d)
      (hnames : components path=names++[name]) (hdir : s.Descends d names dir)
      (hchild : s.Child dir name k) (hend : path.getLast?=some slash → s.Directory k) :
      Resolves s parent path (some (dir,some k,name))
  | missing {d dir : Nat} {names : List Str} {name : Str} (hd : s.Starts parent path d)
      (hnames : components path=names++[name]) (hdir : s.Descends d names dir)
      (hchild : ∀ k,¬s.Child dir name k) : Resolves s parent path (some (dir,none,name))
  | notDirectory {d dir k : Nat} {names : List Str} {name : Str} (hd : s.Starts parent path d)
      (hnames : components path=names++[name]) (hdir : s.Descends d names dir)
      (hchild : s.Child dir name k) (hend : path.getLast?=some slash) (hk : ¬s.Directory k) :
      Resolves s parent path (some (dir,none,name))
  | empty (hpath : path=[]) : Resolves s parent path none
  | nowhere {d : Nat} {names : List Str} {name : Str} (hd : s.Starts parent path d)
      (hnames : components path=names++[name]) (hdir : ∀ dir,¬s.Descends d names dir) :
      Resolves s parent path none

/-- Directories and regular files behind mounts without a cycle. -/
structure PlainTree (s : Vfs) : Prop where
  root : s.vfsRoot < s.nodes.length
  child : ∀ (i k : Nat) (node : VfsNode) (name : Str),s.nodes[i]?=some node →
    node.children.get name=some k → k < s.nodes.length
  target : ∀ i k,s.Redirects i k → k < s.nodes.length
  acyclic : ∀ i,¬Relation.TransGen s.Redirects i i
  kind : ∀ (i : Nat) (node : VfsNode),s.nodes[i]?=some node → node.next=none →
    ∃ mode,node.mode=some mode ∧ (sIsdir mode=true ∨ sIsreg mode=true)

end Vfs

def Path2node.answer (r : Path2node) : Option (Nat × Option Nat × Str) :=
  r.targetParent.bind (fun dir => r.basename.map (fun name => (dir,r.target,name)))

namespace Vfs

variable {s : Vfs} {d dir i j k : Nat} {name : Str} {names : List Str}
variable {link : Option Nat → Option Str → Option Path2node} {askForDir : Bool}

theorem reduces_of_reduceFrom {n : Nat} (h : s.reduceFrom n i=some j) : s.Reduces i j := by
  induction n generalizing i with
  | zero => cases h
  | succ n ih =>
    obtain ⟨m,node,hm,hnode,⟨hnext,rfl⟩ | ⟨k,hnext,hk⟩⟩ := reduceFrom_cases h
    · exact ⟨.refl,node,hnode,hnext⟩
    · cases hm
      obtain ⟨hpath,hfinal⟩ := ih hk
      exact ⟨hpath.head ⟨node,hnode,hnext⟩,hfinal⟩

theorem reduceNode_iff : s.reduceNode i=some j ↔ s.Reduces i j := by
  constructor
  · exact reduces_of_reduceFrom
  · rintro ⟨hpath,hfinal⟩
    induction hpath using Relation.ReflTransGen.head_induction_on with
    | refl => exact reduceNode_self hfinal
    | head hstep _ ih =>
      obtain ⟨node,hnode,hnext⟩ := hstep
      exact reduceNode_of_reduceFrom (n := s.nodes.length+1)
        ((reduceFrom_next hnode hnext).trans ih)

namespace PlainTree

theorem reduces (hs : s.PlainTree) (hi : i < s.nodes.length) : ∃ j,s.Reduces i j := by
  have hwf := wellFounded_of_acyclic (r := fun a b : Fin s.nodes.length => s.Redirects a b)
    (fun b hb => hs.acyclic b (hb.lift _ (fun _ _ h => h)))
  suffices h : ∀ a : Fin s.nodes.length,∃ j,s.Reduces a j from h ⟨i,hi⟩
  intro a
  induction a using hwf.induction with
  | _ a ih =>
    have hnode := List.getElem?_eq_getElem a.isLt
    cases hnext : s.nodes[a.val].next with
    | none => exact ⟨a,.refl,_,hnode,hnext⟩
    | some k =>
      have hstep : s.Redirects a k := ⟨_,hnode,hnext⟩
      obtain ⟨j,hpath,hfinal⟩ := ih ⟨k,hs.target _ _ hstep⟩ hstep
      exact ⟨j,hpath.head hstep,hfinal⟩

theorem child_cases (hs : s.PlainTree) {node : VfsNode} (hnode : s.nodes[d]?=some node)
    (name : Str) : node.children.get name=none ∧ (∀ k,¬s.Child d name k) ∨ ∃ k,s.Child d name k := by
  cases hget : node.children.get name with
  | none =>
    refine .inl ⟨rfl,?_⟩
    rintro k ⟨node',c,hnode',hget',-⟩
    rw [hnode] at hnode'
    cases hnode'
    rw [hget] at hget'
    cases hget'
  | some c =>
    obtain ⟨k,hk⟩ := hs.reduces (hs.child _ _ _ _ hnode hget)
    exact .inr ⟨k,node,c,hnode,hget,hk⟩

theorem mode (hs : s.PlainTree) (hi : s.Final i) : ∃ node mode,s.nodes[i]?=some node ∧
    node.mode=some mode ∧ sIslnk mode=false ∧ (sIsdir mode=true ↔ s.Directory i) := by
  obtain ⟨node,hnode,hnext⟩ := hi
  obtain ⟨mode,hmode,hkind⟩ := hs.kind i node hnode hnext
  refine ⟨node,mode,hnode,hmode,?_,?_⟩
  · simp only [sIsdir,sIsreg,sIslnk,decide_eq_true_eq,decide_eq_false_iff_not] at hkind ⊢
    rcases hkind with h | h <;> rw [h] <;> decide
  · refine ⟨fun h => ⟨node,mode,hnode,hmode,h⟩,?_⟩
    rintro ⟨node',mode',hnode',hmode',h⟩
    rw [hnode] at hnode'
    cases hnode'
    rw [hmode] at hmode'
    cases hmode'
    exact h

end PlainTree

theorem Child.final (h : s.Child d name k) : s.Final k := by
  obtain ⟨_,_,_,_,_,hfinal⟩ := h
  exact hfinal

theorem PlainTree.lookup_child (hs : s.PlainTree) (hd : s.Final d) (hchild : s.Child d name k)
    (link : Option Nat → Option Str → Option Path2node) (askForDir : Bool) :
    ∃ mode,(sIsdir mode=true ↔ s.Directory k) ∧ ∀ last,
      s.lookupElem link askForDir last d name=some (
        if last then .inl (if askForDir && !sIsdir mode then ⟨some d,none,some name,some .enotdir⟩
          else ⟨some d,some k,some name,none⟩)
        else if sIsdir mode then .inr k else .inl (.nothing (some .enotdir))) := by
  obtain ⟨node,mode,hnode,hmode,hlnk,hdir⟩ := hs.mode hchild.final
  obtain ⟨dirNode,c,hdirNode,hget,hreduces⟩ := hchild
  exact ⟨mode,hdir,lookupElem_child hd hdirNode hget (reduceNode_iff.mpr hreduces) hnode hmode hlnk⟩

theorem Descends.final (h : s.Descends d names dir) (hd : s.Final d) : s.Final dir := by
  induction h with
  | nil => exact hd
  | cons hchild _ _ ih => exact ih hchild.final

/-- The names before the last one only move on. -/
theorem Descends.walkNames (h : s.Descends d names dir) (hs : s.PlainTree) (hd : s.Final d)
    (name : Str) :
    s.walkNames link askForDir d (names++[name])=s.walkNames link askForDir dir [name] := by
  induction h with
  | nil => rfl
  | @cons d k dir first names hchild hdir _ ih =>
    obtain ⟨mode,hmode,hlookup⟩ := hs.lookup_child hd hchild link askForDir
    have hmore : decide (names++[name]=[])=false := by simp
    rw [List.cons_append,Vfs.walkNames,hmore,hlookup,hmode.mpr hdir]
    exact ih hchild.final

theorem PlainTree.walkNames_nowhere (hs : s.PlainTree) (hd : s.Final d)
    (h : ∀ dir,¬s.Descends d names dir) (name : Str) :
    ∃ e,s.walkNames link askForDir d (names++[name])=some (.nothing e) := by
  induction names generalizing d with
  | nil => exact absurd (.nil d) (h d)
  | cons first names ih =>
    have hmore : decide (names++[name]=[])=false := by simp
    rw [List.cons_append,walkNames,hmore]
    obtain ⟨node,hnode,-⟩ := id hd
    rcases hs.child_cases hnode first with ⟨hget,-⟩ | ⟨k,hchild⟩
    · rw [lookupElem_missing hd hnode hget]
      exact ⟨_,rfl⟩
    · obtain ⟨mode,hmode,hlookup⟩ := hs.lookup_child hd hchild link askForDir
      rw [hlookup]
      cases hdir : sIsdir mode with
      | false => exact ⟨_,rfl⟩
      | true => exact ih hchild.final (fun dir hrest => h dir (.cons hchild (hmode.mp hdir) hrest))

theorem walkNames_last {r : Path2node}
    (h : s.lookupElem link askForDir true d name=some (.inl r)) :
    s.walkNames link askForDir d [name]=some r := by
  rw [walkNames,decide_eq_true rfl,h]
  rfl

theorem PlainTree.startNode (hs : s.PlainTree) {parent : Option Nat}
    (hp : parent.getD s.vfsRoot < s.nodes.length) (path : Str) :
    ∃ d,s.Starts parent path d ∧ s.startNode parent path=some d := by
  obtain ⟨first,hfirst⟩ := hs.reduces hp
  obtain ⟨r,hr⟩ := hs.reduces hs.root
  rw [Vfs.startNode,reduceNode_iff.mpr hfirst,Option.bind_some]
  by_cases hhead : path.head?=some slash
  · rw [if_pos hhead]
    exact ⟨r,by rwa [Starts,if_pos hhead],reduceNode_iff.mpr hr⟩
  · rw [if_neg hhead]
    exact ⟨first,by rwa [Starts,if_neg hhead],rfl⟩

theorem Reduces.unique (h : s.Reduces i j) (h' : s.Reduces i k) : j=k := by
  rw [← reduceNode_iff] at h h'
  exact Option.some.inj (h.symm.trans h')

theorem PlainTree.path2node_names (hs : s.PlainTree) {parent : Option Nat}
    (hp : parent.getD s.vfsRoot < s.nodes.length) {path : Str} (hd : s.Starts parent path d)
    (hnames : components path=names++[name]) :
    s.path2node parent (some path)=s.walkNames (s.path2nodeLinks s.nodes.length)
      (path.getLast?=some slash) d (names++[name]) := by
  have hne : path≠[] := by
    rintro rfl
    exact List.append_ne_nil_of_right_ne_nil names (List.cons_ne_nil name []) hnames.symm
  obtain ⟨d',hd',hstart⟩ := hs.startNode hp path
  rw [path2node_eq s parent hne,hstart,Option.bind_some,hnames,if_neg (by simp),hd.unique hd']

/-- Every path resolves to something. -/
theorem PlainTree.resolves (hs : s.PlainTree) {parent : Option Nat}
    (hp : parent.getD s.vfsRoot < s.nodes.length) (path : Str) : ∃ x,s.Resolves parent path x := by
  obtain ⟨d,hd,-⟩ := hs.startNode hp path
  by_cases hne : path=[]
  · exact ⟨_,.empty hne⟩
  rcases List.eq_nil_or_concat' (components path) with hnames | ⟨names,name,hnames⟩
  · obtain ⟨r,hr⟩ := hs.reduces hs.root
    exact ⟨_,.root hne hnames hr⟩
  by_cases hdir : ∃ dir,s.Descends d names dir
  · obtain ⟨dir,hdir⟩ := hdir
    by_cases hchild : ∃ k,s.Child dir name k
    · obtain ⟨k,hchild⟩ := hchild
      by_cases hend : path.getLast?=some slash ∧ ¬s.Directory k
      · exact ⟨_,.notDirectory hd hnames hdir hchild hend.1 hend.2⟩
      · exact ⟨_,.found hd hnames hdir hchild (fun h => not_not.mp (fun hk => hend ⟨h,hk⟩))⟩
    · exact ⟨_,.missing hd hnames hdir (not_exists.mp hchild)⟩
  · exact ⟨_,.nowhere hd hnames (not_exists.mp hdir)⟩

theorem Resolves.path2node {parent : Option Nat} {path : Str}
    {x : Option (Nat × Option Nat × Str)} (h : s.Resolves parent path x) (hs : s.PlainTree)
    (hp : parent.getD s.vfsRoot < s.nodes.length) :
    ∃ r,s.path2node parent (some path)=some r ∧ r.answer=x := by
  cases h with
  | @root r hne hnames hr =>
    -- a path of slashes only begins with one
    have hhead : path.head?=some slash := by
      by_contra hhead
      exact hne ((components_eq_nil hhead).mp hnames)
    obtain ⟨d,hd,hstart⟩ := hs.startNode hp path
    rw [Starts,if_pos hhead] at hd
    rw [path2node_eq s parent hne,hstart,Option.bind_some,if_pos hnames,hd.unique hr]
    exact ⟨_,rfl,rfl⟩
  | @found d dir k names name hd hnames hdir hchild hend =>
    obtain ⟨mode,hmode,hlookup⟩ := hs.lookup_child (hdir.final hd.2) hchild
      (s.path2nodeLinks s.nodes.length) (path.getLast?=some slash)
    have hask : (decide (path.getLast?=some slash) && !sIsdir mode)=false := by
      rw [Bool.and_eq_false_imp,decide_eq_true_eq]
      intro h
      rw [hmode.mpr (hend h)]
      rfl
    rw [hs.path2node_names hp hd hnames,hdir.walkNames hs hd.2,walkNames_last (hlookup true),hask]
    exact ⟨_,rfl,rfl⟩
  | @missing d dir names name hd hnames hdir hchild =>
    obtain ⟨node,hnode,-⟩ := hdir.final hd.2
    rcases hs.child_cases hnode name with ⟨hget,-⟩ | ⟨k,hk⟩
    · rw [hs.path2node_names hp hd hnames,hdir.walkNames hs hd.2,
        walkNames_last (lookupElem_missing (hdir.final hd.2) hnode hget true)]
      exact ⟨_,rfl,rfl⟩
    · exact absurd hk (hchild k)
  | @notDirectory d dir k names name hd hnames hdir hchild hend hk =>
    obtain ⟨mode,hmode,hlookup⟩ := hs.lookup_child (hdir.final hd.2) hchild
      (s.path2nodeLinks s.nodes.length) (path.getLast?=some slash)
    have hfile : sIsdir mode=false := Bool.eq_false_iff.mpr (fun h => hk (hmode.mp h))
    rw [hs.path2node_names hp hd hnames,hdir.walkNames hs hd.2,walkNames_last (hlookup true),hfile,
      decide_eq_true hend]
    exact ⟨_,rfl,rfl⟩
  | empty hpath =>
    rw [hpath,path2node_empty]
    exact ⟨_,rfl,rfl⟩
  | @nowhere d names name hd hnames hdir =>
    rw [hs.path2node_names hp hd hnames]
    obtain ⟨e,he⟩ := hs.walkNames_nowhere hd.2 hdir name
    exact ⟨_,he,rfl⟩

end Vfs

theorem components_twice (xs ys : Str) :
    components (xs++slash::slash::ys)=components (xs++slash::ys) := by
  rw [components_append,components_append,← List.nil_append (slash::ys),components_append]
  rfl

theorem path2node_slash (s : Vfs) (parent : Option Nat) (xs ys : Str) :
    s.path2node parent (some (xs++slash::slash::ys))=s.path2node parent (some (xs++slash::ys)) := by
  have hhead : (xs++slash::slash::ys).head?=(xs++slash::ys).head? := by
    cases xs <;> rfl
  have hlast : (xs++slash::slash::ys).getLast?=(xs++slash::ys).getLast? := by
    simp [List.getLast?_append,List.getLast?_cons_cons]
  rw [Vfs.path2node_eq s parent (by simp),Vfs.path2node_eq s parent (by simp),components_twice,
    hlast,Vfs.startNode,Vfs.startNode,hhead]

theorem path2node_slashes (s : Vfs) (parent : Option Nat) (n : Nat) (xs ys : Str) :
    s.path2node parent (some (xs++List.replicate (n+1) slash++ys))=
      s.path2node parent (some (xs++slash::ys)) := by
  induction n with
  | zero => rw [List.append_assoc]; rfl
  | succ n ih =>
    rw [← ih,List.append_assoc,List.append_assoc]
    exact path2node_slash s parent xs (List.replicate n slash++ys)

/-- On directories and regular files path2node returns what the path resolves to, and
more slashes beside a slash change nothing. -/
theorem path2node_resolves (s : Vfs) (hs : s.PlainTree) (parent : Option Nat)
    (hp : parent.getD s.vfsRoot < s.nodes.length) (path : Str) :
    ∃ r,s.path2node parent (some path)=some r ∧
      (∀ x,s.Resolves parent path x ↔ r.answer=x) ∧
      ∀ n xs ys,path=xs++slash::ys →
        s.path2node parent (some (xs++List.replicate (n+1) slash++ys))=some r := by
  obtain ⟨x,hx⟩ := hs.resolves hp path
  obtain ⟨r,hr,hanswer⟩ := hx.path2node hs hp
  refine ⟨r,hr,?_,?_⟩
  · intro y
    constructor
    · intro hy
      obtain ⟨r',hr',hy'⟩ := hy.path2node hs hp
      rw [hr] at hr'
      cases hr'
      exact hy'
    · rintro rfl
      rwa [hanswer]
  · rintro n xs ys rfl
    rw [path2node_slashes,hr]

def mountedRoot : VfsNode := { createNode none none [] false with mountpoint := some 1 }

def tmpfsDir : VfsNode :=
  { createNode (some .tmpfs) none [] true with
    resource := some (createTmpfsResource (0o644 ||| sIfdir))
    children := ((HashMap.init 256).insert (str "f") 2).getD (.init 256) }

def tmpfsFile : VfsNode :=
  { createNode (some .tmpfs) (some 1) (str "f") false with
    resource := some (createTmpfsResource (0o644 ||| sIfreg)) }

def oneFileTree : Vfs := ⟨[mountedRoot,tmpfsDir,tmpfsFile],0,1,.init 256,.enoent⟩

theorem oneFileTree_nodes {i : Nat} {node : VfsNode} (h : oneFileTree.nodes[i]?=some node) :
    (i=0 ∧ node=mountedRoot) ∨ (i=1 ∧ node=tmpfsDir) ∨ (i=2 ∧ node=tmpfsFile) := by
  rcases i with - | - | - | i
  · exact .inl ⟨rfl,(Option.some.inj h).symm⟩
  · exact .inr (.inl ⟨rfl,(Option.some.inj h).symm⟩)
  · exact .inr (.inr ⟨rfl,(Option.some.inj h).symm⟩)
  · cases h

theorem tmpfsDir_get {name : Str} {k : Nat} (h : tmpfsDir.children.get name=some k) : k=2 := by
  obtain ⟨m,hm⟩ : ∃ m,(HashMap.init 256 : HashMap Nat).insert (str "f") 2=some m :=
    HashMap.insert_isSome (by decide) (by decide)
  have hchildren : tmpfsDir.children=m := by
    rw [tmpfsDir,hm]
    rfl
  rw [hchildren,HashMap.get_insert hm,HashMap.get_init,Option.none_or] at h
  split at h
  · cases h
    rfl
  · cases h

theorem oneFileTree_plain : oneFileTree.PlainTree where
  root := by decide
  child := by
    intro i k node name hnode hget
    rcases oneFileTree_nodes hnode with ⟨-,rfl⟩ | ⟨-,rfl⟩ | ⟨-,rfl⟩
    · cases hget
    · rw [tmpfsDir_get hget]
      decide
    · cases hget
  target := by
    rintro i k ⟨node,hnode,hnext⟩
    rcases oneFileTree_nodes hnode with ⟨-,rfl⟩ | ⟨-,rfl⟩ | ⟨-,rfl⟩ <;> cases hnext
    decide
  acyclic := by
    have hup : ∀ i j,oneFileTree.Redirects i j → i < j := by
      rintro i k ⟨node,hnode,hnext⟩
      rcases oneFileTree_nodes hnode with ⟨rfl,rfl⟩ | ⟨-,rfl⟩ | ⟨-,rfl⟩ <;> cases hnext
      decide
    have hfar : ∀ i j,Relation.TransGen oneFileTree.Redirects i j → i < j := by
      intro i j h
      induction h with
      | single h => exact hup _ _ h
      | tail _ h ih => exact ih.trans (hup _ _ h)
    exact fun i h => Nat.lt_irrefl i (hfar i i h)
  kind := by
    intro i node hnode hnext
    rcases oneFileTree_nodes hnode with ⟨-,rfl⟩ | ⟨-,rfl⟩ | ⟨-,rfl⟩
    · cases hnext
    · exact ⟨_,rfl,.inl (by decide)⟩
    · exact ⟨_,rfl,.inr (by decide)⟩

/-- f is a file: the path with a slash at its end has no node. -/
theorem path2node_resolves_oneFile :
    ∃ r,oneFileTree.path2node none (some (str "/f/"))=some r ∧ r.answer=some (1,none,str "f") ∧
      (∀ x,oneFileTree.Resolves none (str "/f/") x ↔ r.answer=x) ∧
      ∀ n xs ys,str "/f/"=xs++slash::ys →
        oneFileTree.path2node none (some (xs++List.replicate (n+1) slash++ys))=some r := by
  obtain ⟨r,hr,hresolves⟩ :=
    path2node_resolves oneFileTree oneFileTree_plain none (by decide) (str "/f/")
  have hrun : (oneFileTree.path2node none (some (str "/f/"))).map Path2node.answer=
      some (some (1,none,str "f")) := by
    decide +kernel
  rw [hr] at hrun
  exact ⟨r,hr,Option.some.inj hrun,hresolves⟩

end X64OS.Fs
