import X64OS.Fs.VfsPaths

namespace X64OS.Fs

open Framework Function
open Option (bind_some some_ne_none)

structure Entry where
  node : Nat
  dir : Bool
  deriving DecidableEq, Repr

/-- A map from paths to entries: only directories have something below them, and
no node stands in two places. -/
structure Tree where
  bound : List Str → Option Entry
  root : ∃ n, bound []=some ⟨n,true⟩
  closed : ∀ cs name e, bound (cs++[name])=some e → ∃ p, bound cs=some ⟨p,true⟩
  distinct : ∀ cs cs' e e', bound cs=some e → bound cs'=some e' → e.node=e'.node → cs=cs'

def namedPath (path : Str) : Option (List Str) := if path=[] then none else some (components path)

variable {cs : List Str} {e : Entry} {p mode : Nat} {s : Vfs} {t : Tree}

theorem namedPath_components {path : Str} (h : namedPath path=some cs) : components path=cs := by
  rw [namedPath] at h
  split at h
  · cases h
  · exact Option.some.inj h

inductive TreeCall where
  | create (path : Str) (mode : Nat)
  | getNode (path : Str)

namespace Tree

section
variable (t : Tree)

def lookup (path : Str) : Option Nat :=
  ((namedPath path).bind t.bound).map Entry.node

def insert (cs : List Str) (name : Str) (e : Entry) (hparent : ∃ p, t.bound cs=some ⟨p,true⟩)
    (hfree : t.bound (cs++[name])=none) (hfresh : ∀ cs' e', t.bound cs'=some e' → e'.node≠e.node) :
    Tree where
  bound := update t.bound (cs++[name]) (some e)
  root := by
    rw [update_of_ne (by simp)]
    exact t.root
  closed := by
    intro cs' name' e' h
    by_cases hc : cs'++[name']=cs++[name]
    · obtain ⟨rfl,-⟩ := List.append_inj' hc rfl
      rw [update_of_ne (by simp)]
      exact hparent
    · rw [update_of_ne hc] at h
      obtain ⟨p,hp⟩ := t.closed cs' name' e' h
      have hne : cs'≠cs++[name] := by
        rintro rfl
        rw [hfree] at hp
        cases hp
      rw [update_of_ne hne]
      exact ⟨p,hp⟩
  distinct := by
    intro a b ea eb ha hb hn
    rw [update_apply] at ha hb
    split at ha <;> split at hb
    · rename_i h1 h2
      rw [h1,h2]
    · cases ha
      exact absurd hn.symm (hfresh _ _ hb)
    · cases hb
      exact absurd hn (hfresh _ _ ha)
    · exact t.distinct a b ea eb ha hb hn

theorem insert_bound {name : Str} (hparent : ∃ p, t.bound cs=some ⟨p,true⟩)
    (hfree : t.bound (cs++[name])=none) (hfresh : ∀ cs' e', t.bound cs'=some e' → e'.node≠e.node)
    (cs' : List Str) :
    (t.insert cs name e hparent hfree hfresh).bound cs'=
      if cs'=cs++[name] then some e else t.bound cs' :=
  update_apply _ _ _ _

theorem dir_above {rest : List Str} (h : t.bound (cs++rest)=some ⟨p,true⟩) :
    ∃ q, t.bound cs=some ⟨q,true⟩ := by
  induction rest using List.reverseRecOn generalizing p with
  | nil => exact ⟨p,by rwa [List.append_nil] at h⟩
  | append_singleton rest name ih =>
    rw [← List.append_assoc] at h
    obtain ⟨q,hq⟩ := t.closed _ _ _ h
    exact ih hq

theorem bound_below (hfree : t.bound cs=none) (name : Str) : t.bound (cs++[name])=none := by
  by_contra hne
  obtain ⟨e,he⟩ := Option.ne_none_iff_exists'.mp hne
  obtain ⟨p,hp⟩ := t.closed _ _ _ he
  rw [hfree] at hp
  cases hp

/-- A path can be created if its parent is a directory and nothing is there. -/
def Vacant (path : Str) : Prop :=
  ∃ cs name, namedPath path=some (cs++[name]) ∧ (∃ p, t.bound cs=some ⟨p,true⟩) ∧
    t.bound (cs++[name])=none

end

/-- What the tree answers: a create returns a node that is nowhere in the tree yet. -/
inductive Step (t : Tree) : TreeCall → Option Nat → Tree → Prop
  | found (path : Str) : Step t (.getNode path) (t.lookup path) t
  | created {path : Str} {mode n : Nat} {cs : List Str} {name : Str}
      (hpath : namedPath path=some (cs++[name])) (hparent : ∃ p, t.bound cs=some ⟨p,true⟩)
      (hfree : t.bound (cs++[name])=none) (hfresh : ∀ cs' e', t.bound cs'=some e' → e'.node≠n) :
      Step t (.create path mode) (some n) (t.insert cs name ⟨n,sIsdir mode⟩ hparent hfree hfresh)
  | refused {path : Str} {mode : Nat} (h : ¬t.Vacant path) : Step t (.create path mode) none t

end Tree

def vfsCall (s : Vfs) : TreeCall → Option (Option Nat × Vfs)
  | .create path mode => s.create (some s.vfsRoot) path mode
  | .getNode path => s.getNode (some s.vfsRoot) path

def TreeCall.path : TreeCall → Str
  | .create path _ => path
  | .getNode path => path

namespace Vfs

/-- A child of a directory, or none, against the entry that the tree has there. -/
def ShowsChild (s : Vfs) (b : Option Entry) : Option Nat → Prop
  | none => b=none
  | some child => ∃ e,b=some e ∧ s.reduceNode child=some e.node

/-- The state holds the tree. -/
structure Shows (s : Vfs) (t : Tree) : Prop where
  root : ∃ r,s.reduceNode s.vfsRoot=some r ∧ t.bound []=some ⟨r,true⟩
  entry : ∀ cs e,t.bound cs=some e → ∃ node mode,s.nodes[e.node]?=some node ∧ node.next=none ∧
    node.mode=some mode ∧ sIsdir mode=e.dir ∧ sIslnk mode=false
  dir : ∀ cs i node,t.bound cs=some ⟨i,true⟩ → s.nodes[i]?=some node →
    node.children.cap≠0 ∧ node.filesystem≠none ∧
    ∀ name,ShowsChild s (t.bound (cs++[name])) (node.children.get name)

variable {link : Option Nat → Option Str → Option Path2node} {askForDir : Bool} {i : Nat}

/-- The last round of path2node, at the entry of name below the directory p. -/
def atEntry (askForDir : Bool) (p : Nat) (name : Str) : Option Entry → Path2node
  | none => ⟨some p,none,some name,some .enoent⟩
  | some e =>
    if askForDir=true ∧ e.dir=false then ⟨some p,none,some name,some .enotdir⟩
    else ⟨some p,some e.node,some name,none⟩

section
variable (hs : Shows s t) (hb : t.bound cs=some ⟨i,true⟩)
include hs hb

theorem Shows.lookup_last (name : Str) :
    s.lookupElem link askForDir true i name=
      some (.inl (atEntry askForDir i name (t.bound (cs++[name])))) := by
  obtain ⟨node,-,hnode,hnext,-⟩ := hs.entry cs _ hb
  have hget := (hs.dir cs i node hb hnode).2.2 name
  cases hchild : node.children.get name with
  | none =>
    rw [hchild,ShowsChild] at hget
    rw [hget,lookupElem_missing ⟨node,hnode,hnext⟩ hnode hchild]
    rfl
  | some child =>
    rw [hchild] at hget
    obtain ⟨e,he,hr⟩ := hget
    obtain ⟨new,mode,hnew,-,hmode,hdir,hlnk⟩ := hs.entry _ e he
    rw [he,lookupElem_child ⟨node,hnode,hnext⟩ hnode hchild hr hnew hmode hlnk,atEntry,hdir]
    cases askForDir <;> cases e.dir <;> rfl

theorem Shows.lookup_more (name : Str) :
    s.lookupElem link askForDir false i name=
      some (match t.bound (cs++[name]) with
        | none => .inl (.nothing (some .enoent))
        | some e => if e.dir then .inr e.node else .inl (.nothing (some .enotdir))) := by
  obtain ⟨node,-,hnode,hnext,-⟩ := hs.entry cs _ hb
  have hget := (hs.dir cs i node hb hnode).2.2 name
  cases hchild : node.children.get name with
  | none =>
    rw [hchild,ShowsChild] at hget
    rw [hget,lookupElem_missing ⟨node,hnode,hnext⟩ hnode hchild]
    rfl
  | some child =>
    rw [hchild] at hget
    obtain ⟨e,he,hr⟩ := hget
    obtain ⟨new,mode,hnew,-,hmode,hdir,hlnk⟩ := hs.entry _ e he
    rw [he,lookupElem_child ⟨node,hnode,hnext⟩ hnode hchild hr hnew hmode hlnk,hdir]
    rfl

theorem Shows.walk_found {init : List Str} (hp : t.bound (cs++init)=some ⟨p,true⟩) (name : Str) :
    s.walkNames link askForDir i (init++[name])=
      some (atEntry askForDir p name (t.bound (cs++init++[name]))) := by
  induction init generalizing cs i with
  | nil =>
    rw [List.append_nil] at hp ⊢
    rw [hb] at hp
    cases hp
    rw [List.nil_append,walkNames,decide_eq_true rfl,hs.lookup_last hb]
    rfl
  | cons first init ih =>
    have hmore : decide (init++[name]=[])=false := by simp
    rw [List.append_cons cs first init] at hp ⊢
    obtain ⟨n,hfirst⟩ := t.dir_above hp
    rw [List.cons_append,walkNames,hmore,hs.lookup_more hb,hfirst]
    exact ih hfirst hp

theorem Shows.walk_nowhere {init : List Str} (hp : ¬∃ p,t.bound (cs++init)=some ⟨p,true⟩)
    (name : Str) : ∃ e,s.walkNames link askForDir i (init++[name])=some (.nothing e) := by
  induction init generalizing cs i with
  | nil => exact absurd ⟨i,by rwa [List.append_nil]⟩ hp
  | cons first init ih =>
    have hmore : decide (init++[name]=[])=false := by simp
    rw [List.cons_append,walkNames,hmore,hs.lookup_more hb]
    cases hfirst : t.bound (cs++[first]) with
    | none => exact ⟨_,rfl⟩
    | some e =>
      obtain ⟨n,d⟩ := e
      cases d with
      | false => exact ⟨_,rfl⟩
      | true =>
        rw [List.append_cons] at hp
        exact ih hfirst hp

end

section
variable (hs : Shows s t)
include hs

theorem Shows.startNode (path : Str) :
    ∃ r,s.startNode (some s.vfsRoot) path=some r ∧ t.bound []=some ⟨r,true⟩ := by
  obtain ⟨r,hr,hb⟩ := hs.root
  refine ⟨r,?_,hb⟩
  rw [Vfs.startNode,Option.getD_some,hr,bind_some]
  split <;> rfl

theorem Shows.path2node_root {path : Str} (hne : path≠[]) (hnames : components path=[]) :
    ∃ r,t.bound []=some ⟨r,true⟩ ∧
      s.path2node (some s.vfsRoot) (some path)=some ⟨some r,some r,some [slash],none⟩ := by
  obtain ⟨r,hr,hb⟩ := hs.startNode path
  refine ⟨r,hb,?_⟩
  rw [path2node_eq s _ hne,hr,bind_some,if_pos hnames]

theorem Shows.path2node_found {path name : Str} (hne : path≠[])
    (hnames : components path=cs++[name]) (hp : t.bound cs=some ⟨i,true⟩) :
    s.path2node (some s.vfsRoot) (some path)=
      some (atEntry (path.getLast?=some slash) i name (t.bound (cs++[name]))) := by
  obtain ⟨r,hr,hb⟩ := hs.startNode path
  rw [path2node_eq s _ hne,hr,bind_some,hnames,if_neg (by simp)]
  exact hs.walk_found hb hp name

theorem Shows.path2node_nowhere {path name : Str} (hne : path≠[])
    (hnames : components path=cs++[name]) (hp : ¬∃ p,t.bound cs=some ⟨p,true⟩) :
    ∃ e,s.path2node (some s.vfsRoot) (some path)=some (.nothing e) := by
  obtain ⟨r,hr,hb⟩ := hs.startNode path
  rw [path2node_eq s _ hne,hr,bind_some,hnames,if_neg (by simp)]
  exact hs.walk_nowhere hb hp name

theorem Shows.trailsFile {path name : Str} (hnames : components path=cs++[name])
    (hb : t.bound (cs++[name])=some e) (hfile : e.dir=false) (hask : path.getLast?=some slash) :
    s.TrailsFile (some s.vfsRoot) path := by
  obtain ⟨p,hp⟩ := t.closed _ _ _ hb
  obtain ⟨node,mode,hnode,-,hmode,hdir,-⟩ := hs.entry _ _ hb
  have hcs := components_stripSlashes path
  rw [hnames] at hcs
  have hne : stripSlashes path≠[] := by
    intro h
    rw [h] at hcs
    have hnil : components ([] : Str)=[] := rfl
    rw [hnil] at hcs
    simp at hcs
  refine ⟨hask,_,node,mode,hs.path2node_found hne hcs hp,?_,hmode,hdir.trans hfile⟩
  rw [decide_eq_false (stripSlashes_getLast? path),hb]
  exact hnode

theorem Shows.target {path : Str} (htrail : ¬s.TrailsFile (some s.vfsRoot) path) :
    ∃ r,s.path2node (some s.vfsRoot) (some path)=some r ∧ r.target=t.lookup path := by
  by_cases hne : path=[]
  · refine ⟨_,by rw [hne,path2node_empty],?_⟩
    rw [Tree.lookup,namedPath,if_pos hne]
    rfl
  · rw [Tree.lookup,namedPath,if_neg hne,bind_some]
    rcases List.eq_nil_or_concat (components path) with hnames | ⟨cs,name,hnames⟩
    · obtain ⟨r,hb,hr⟩ := hs.path2node_root hne hnames
      exact ⟨_,hr,by rw [hnames,hb]; rfl⟩
    · rw [List.concat_eq_append] at hnames
      by_cases hp : ∃ p,t.bound cs=some ⟨p,true⟩
      · obtain ⟨p,hp⟩ := hp
        refine ⟨_,hs.path2node_found hne hnames hp,?_⟩
        rw [hnames]
        cases hb : t.bound (cs++[name]) with
        | none => rfl
        | some e =>
          rw [atEntry,if_neg]
          · rfl
          · rintro ⟨hask,hfile⟩
            exact htrail (hs.trailsFile hnames hb hfile (by simpa using hask))
      · obtain ⟨e,he⟩ := hs.path2node_nowhere hne hnames hp
        refine ⟨_,he,?_⟩
        rw [hnames]
        cases hb : t.bound (cs++[name]) with
        | none => rfl
        | some e => exact absurd (t.closed _ _ _ hb) hp

theorem Shows.fresh (cs : List Str) (e : Entry) (h : t.bound cs=some e) :
    e.node≠s.nodes.length := by
  obtain ⟨node,-,hnode,-⟩ := hs.entry cs e h
  have := (List.getElem?_eq_some_iff.mp hnode).1
  omega

end

theorem ShowsChild.mono {s' : Vfs} {b : Option Entry} {c : Option Nat} (h : ShowsChild s b c)
    (hkeep : ∀ {i j : Nat},s.reduceNode i=some j → s'.reduceNode i=some j) : ShowsChild s' b c := by
  cases c with
  | none => exact h
  | some child =>
    obtain ⟨e,he,hr⟩ := h
    exact ⟨e,he,hkeep hr⟩

theorem reduceNode_setErrno (e : Option Errno) {j : Nat} (h : s.reduceNode i=some j) :
    (s.setErrno e).reduceNode i=some j := by
  have hkeep : KeepsLinks s (s.setErrno e) := fun _ node hnode => ⟨node,hnode,rfl⟩
  exact hkeep.reduceNode le_rfl h

theorem Shows.setErrno (hs : Shows s t) (e : Option Errno) : Shows (s.setErrno e) t := by
  refine ⟨?_,hs.entry,?_⟩
  · obtain ⟨r,hr,hb⟩ := hs.root
    exact ⟨r,reduceNode_setErrno e hr,hb⟩
  · intro cs i node hb hnode
    obtain ⟨hcap,hfs,hget⟩ := hs.dir cs i node hb hnode
    exact ⟨hcap,hfs,fun name => (hget name).mono (reduceNode_setErrno e)⟩

theorem ShowsChild.insert {m m' : HashMap Nat} {name : Str} {new : Nat} {bound : Str → Option Entry}
    (hins : m.insert name new=some m') (hfree : bound name=none)
    (hget : ∀ k,ShowsChild s (bound k) (m.get k)) (hnew : s.reduceNode new=some e.node) (k : Str) :
    ShowsChild s (if k=name then some e else bound k) (m'.get k) := by
  rw [HashMap.get_insert hins]
  by_cases hk : k=name
  · subst hk
    have hold := hget k
    rw [hfree] at hold
    rw [if_pos rfl,if_pos rfl]
    cases hc : m.get k with
    | none => exact ⟨e,rfl,hnew⟩
    | some child =>
      rw [hc] at hold
      obtain ⟨e',he',-⟩ := hold
      cases he'
  · rw [if_neg hk,if_neg (Ne.symm hk),Option.or_none]
    exact hget k

/-- The new node stands in the tree where the create put it. -/
theorem Shows.grown {s' : Vfs} (hs : Shows s t) {name : Str} {n : VfsNode}
    (hp : t.bound cs=some ⟨p,true⟩) (hfree : t.bound (cs++[name])=none) (hg : Grown s s' p name n)
    (hnext : n.next=none) (hmode : n.mode=some mode) (hlnk : sIslnk mode=false)
    (hchildren : n.children=.init (if sIsdir mode then 256 else 0)) (hfs : n.filesystem≠none) :
    Shows s' (t.insert cs name ⟨s.nodes.length,sIsdir mode⟩ ⟨p,hp⟩ hfree hs.fresh) := by
  refine ⟨?_,?_,?_⟩
  · obtain ⟨r,hr,hb⟩ := hs.root
    refine ⟨r,?_,?_⟩
    · rw [hg.root]
      exact hg.reduceNode hr
    · rw [Tree.insert_bound,if_neg (by simp),hb]
  · intro cs' e he
    rw [Tree.insert_bound] at he
    split at he
    · cases he
      exact ⟨n,mode,hg.new,hnext,hmode,rfl,hlnk⟩
    · obtain ⟨node,m,hnode,hn,hm,hd,hl⟩ := hs.entry cs' e he
      obtain ⟨children,hnode',-⟩ := hg.old hnode
      exact ⟨_,m,hnode',hn,hm,hd,hl⟩
  · intro cs' i node hb hnode
    simp only [Tree.insert_bound] at hb ⊢
    split at hb
    · -- the new directory is empty
      rename_i hcs
      cases hcs
      rw [Option.some.injEq,Entry.mk.injEq] at hb
      obtain ⟨rfl,hdir⟩ := hb
      rw [hg.new] at hnode
      cases hnode
      rw [hchildren,if_pos hdir]
      refine ⟨by decide,hfs,?_⟩
      intro k
      rw [HashMap.get_init,ShowsChild,if_neg (by simp)]
      exact t.bound_below hfree k
    · obtain ⟨old,m,hold,-⟩ := hs.entry cs' _ hb
      obtain ⟨hcap,hofs,hget⟩ := hs.dir cs' i old hb hold
      obtain ⟨children,hnode',hins⟩ := hg.old hold
      rw [hnode'] at hnode
      cases hnode
      dsimp only
      by_cases hip : i=p
      · -- the parent of the new node
        subst hip
        have hcs := t.distinct cs' cs _ _ hb hp rfl
        subst hcs
        rw [if_pos rfl] at hins
        refine ⟨by rw [(HashMap.insert_some hins).2.2.1]; exact hcap,hofs,?_⟩
        intro k
        simp only [List.append_cancel_left_eq,List.cons.injEq,and_true]
        exact ShowsChild.insert hins hfree (fun k => (hget k).mono hg.reduceNode)
          (reduceNode_self ⟨n,hg.new,hnext⟩) k
      · rw [if_neg hip] at hins
        rw [hins]
        refine ⟨hcap,hofs,?_⟩
        intro k
        have hne : cs'++[k]≠cs++[name] := by
          intro h
          obtain ⟨rfl,-⟩ := List.append_inj' h rfl
          rw [hp] at hb
          cases hb
          exact hip rfl
        rw [if_neg hne]
        exact (hget k).mono hg.reduceNode

theorem Shows.create_cases (hs : Shows s t) {path : Str} {r : Path2node}
    (hr : s.path2node (some s.vfsRoot) (some path)=some r)
    (htrail : ¬s.TrailsFile (some s.vfsRoot) path) :
    (¬t.Vacant path ∧ (r.targetParent=none ∨ r.target≠none)) ∨
      ∃ cs name p e,namedPath path=some (cs++[name]) ∧ t.bound cs=some ⟨p,true⟩ ∧
        t.bound (cs++[name])=none ∧ r=⟨some p,none,some name,e⟩ := by
  obtain ⟨r',hr',htarget⟩ := hs.target htrail
  rw [hr] at hr'
  cases hr'
  by_cases hv : t.Vacant path
  · obtain ⟨cs,name,hpath,⟨p,hp⟩,hfree⟩ := hv
    refine .inr ⟨cs,name,p,some .enoent,hpath,hp,hfree,?_⟩
    have hne : path≠[] := by
      rintro rfl
      cases hpath
    rw [namedPath,if_neg hne,Option.some.injEq] at hpath
    rw [hs.path2node_found hne hpath hp,hfree] at hr
    cases hr
    rfl
  · refine .inl ⟨hv,?_⟩
    rw [htarget]
    by_cases hne : path=[]
    · rw [hne,path2node_empty] at hr
      cases hr
      exact .inl rfl
    rcases List.eq_nil_or_concat (components path) with hnames | ⟨cs,name,hnames⟩
    · obtain ⟨i,hb,-⟩ := hs.path2node_root hne hnames
      right
      rw [Tree.lookup,namedPath,if_neg hne,bind_some,hnames,hb]
      exact some_ne_none _
    · rw [List.concat_eq_append] at hnames
      by_cases hp : ∃ p,t.bound cs=some ⟨p,true⟩
      · right
        rw [Tree.lookup,namedPath,if_neg hne,bind_some,hnames,Ne,Option.map_eq_none_iff]
        intro hfree
        exact hv ⟨cs,name,by rw [namedPath,if_neg hne,hnames],hp,hfree⟩
      · obtain ⟨e,he⟩ := hs.path2node_nowhere hne hnames hp
        rw [hr] at he
        cases he
        exact .inl rfl

end Vfs

/-- The calls with components that a key can hold, and with no slash after a file. -/
def TreeCall.Permitted (s : Vfs) (c : TreeCall) : Prop :=
  (∀ name∈components c.path, name.length ≤ hashmapKeyDataMax) ∧
    ¬s.TrailsFile (some s.vfsRoot) c.path ∧
    match c with
    | .create _ mode => sIsdir mode=true ∨ sIsreg mode=true
    | .getNode _ => True

theorem sIslnk_of_kind (h : sIsdir mode=true ∨ sIsreg mode=true) : sIslnk mode=false := by
  simp only [sIsdir,sIsreg,sIslnk,decide_eq_true_eq,decide_eq_false_iff_not] at h ⊢
  rcases h with h | h <;> rw [h] <;> decide

theorem Vfs.Shows.getNode (hs : s.Shows t) {path : Str}
    (htrail : ¬s.TrailsFile (some s.vfsRoot) path) :
    ∃ s', s.getNode (some s.vfsRoot) path=some (t.lookup path,s') ∧ s'.Shows t := by
  obtain ⟨r,hr,htarget⟩ := hs.target htrail
  refine ⟨s.setErrno r.errno,?_,hs.setErrno _⟩
  rw [Vfs.getNode,hr,← htarget]
  rfl

theorem Vfs.Shows.create_vacant (hs : s.Shows t) {path name : Str}
    (hpath : namedPath path=some (cs++[name])) (hp : t.bound cs=some ⟨p,true⟩)
    (hfree : t.bound (cs++[name])=none) (hlen : name.length ≤ hashmapKeyDataMax)
    (hmode : sIsdir mode=true ∨ sIsreg mode=true) :
    ∃ s' fs, s.create (some s.vfsRoot) path mode=some (some s.nodes.length,s') ∧
      Grown s s' p name { createNode (some fs) (some p) name (sIsdir mode) with
        resource := some (createTmpfsResource mode) } ∧
      s'.Shows (t.insert cs name ⟨s.nodes.length,sIsdir mode⟩ ⟨p,hp⟩ hfree hs.fresh) := by
  have hne : path≠[] := by
    rintro rfl
    cases hpath
  have hr := hs.path2node_found hne (namedPath_components hpath) hp
  rw [hfree] at hr
  obtain ⟨o,s',hcreate⟩ : ∃ o s',s.create (some s.vfsRoot) path mode=some (o,s') := by
    refine Vfs.create_isSome hr ?_
    intro q hq _
    cases hq
    obtain ⟨dir,-,hdir,-⟩ := hs.entry cs _ hp
    obtain ⟨hcap,hfs,-⟩ := hs.dir cs _ dir hp hdir
    obtain ⟨fs,hfs⟩ := Option.ne_none_iff_exists'.mp hfs
    exact ⟨name,dir,fs,rfl,hdir,hfs,hcap,hlen⟩
  obtain ⟨r,hr',hdo⟩ := Vfs.create_cases hcreate
  rw [hr] at hr'
  cases hr'
  rcases hdo with ⟨-,-,h | h⟩ | ⟨q,name',dir,fs,hq,-,hname,-,-,rfl,hg⟩
  · cases h
  · exact absurd rfl h
  · cases hq
    cases hname
    exact ⟨s',fs,hcreate,hg,hs.grown hp hfree hg rfl (by simp [VfsNode.mode])
      (sIslnk_of_kind hmode) rfl (some_ne_none _)⟩

theorem Vfs.Shows.create (hs : s.Shows t) {path : Str}
    (hlen : ∀ name∈components path, name.length ≤ hashmapKeyDataMax)
    (htrail : ¬s.TrailsFile (some s.vfsRoot) path) (hmode : sIsdir mode=true ∨ sIsreg mode=true) :
    ∃ o s' t', s.create (some s.vfsRoot) path mode=some (o,s') ∧ t.Step (.create path mode) o t' ∧
      s'.Shows t' := by
  by_cases hv : t.Vacant path
  · obtain ⟨cs,name,hpath,⟨p,hp⟩,hfree⟩ := hv
    have hname : name.length ≤ hashmapKeyDataMax := by
      refine hlen name ?_
      rw [namedPath_components hpath]
      simp
    obtain ⟨s',fs,hcreate,-,hshows⟩ := hs.create_vacant hpath hp hfree hname hmode
    exact ⟨_,s',_,hcreate,.created hpath ⟨p,hp⟩ hfree hs.fresh,hshows⟩
  · obtain ⟨r,hr,-⟩ := hs.target htrail
    have hrefuse : r.targetParent=none ∨ r.target≠none := by
      rcases hs.create_cases hr htrail with ⟨-,h⟩ | ⟨cs,name,p,e,hpath,hb,hfree,-⟩
      · exact h
      · exact absurd ⟨cs,name,hpath,⟨p,hb⟩,hfree⟩ hv
    obtain ⟨o,s',hcreate⟩ : ∃ o s',s.create (some s.vfsRoot) path mode=some (o,s') := by
      refine Vfs.create_isSome hr ?_
      intro p hp hnone
      rcases hrefuse with h | h
      · rw [h] at hp
        cases hp
      · exact absurd hnone h
    obtain ⟨r',hr',hdo⟩ := Vfs.create_cases hcreate
    rw [hr] at hr'
    cases hr'
    rcases hdo with ⟨rfl,⟨e,rfl⟩,-⟩ | ⟨p,name,dir,fs,hp,hnone,-⟩
    · exact ⟨none,_,t,hcreate,.refused hv,hs.setErrno e⟩
    · rcases hrefuse with h | h
      · rw [hp] at h
        cases h
      · exact absurd hnone h

theorem vfs_simulates : Simulates vfsCall Tree.Step TreeCall.Permitted Vfs.Shows := by
  intro s t c hs hc
  obtain ⟨hlen,htrail,hmode⟩ := hc
  cases c with
  | getNode path =>
    obtain ⟨s',hget,hs'⟩ := hs.getNode htrail
    exact ⟨_,s',t,hget,.found path,hs'⟩
  | create path mode => exact hs.create hlen htrail hmode

def Tree.boot : Tree where
  bound cs := if cs=[] then some ⟨2,true⟩ else if cs=[str "dev"] then some ⟨1,true⟩ else none
  root := ⟨2,rfl⟩
  closed := by
    intro cs name e h
    rw [if_neg (by simp)] at h
    split at h
    · rename_i hcs
      have hnil : cs=[] := by
        rw [← List.nil_append [str "dev"]] at hcs
        exact (List.append_inj' hcs rfl).1
      exact ⟨2,by rw [if_pos hnil]⟩
    · cases h
  distinct := by
    intro cs cs' e e' h h' hn
    split at h <;> split at h'
    · rename_i h1 h2
      rw [h1,h2]
    · cases h
      split at h' <;> cases h'
      cases hn
    · cases h'
      split at h <;> cases h
      cases hn
    · split at h <;> split at h' <;> cases h <;> cases h'
      rename_i h1 h2
      rw [h1,h2]

theorem vfsBoot_eq : ∃ s children, vfsBoot=some s ∧
    (HashMap.init 256 : HashMap Nat).insert (str "dev") 3=some children ∧ s.vfsRoot=0 ∧
    s.devtmpfsRoot=1 ∧ s.reduceNode 0=some 2 ∧ s.reduceNode 3=some 1 ∧
    s.nodes=[{ createNode none none [] false with mountpoint := some 2 },
      { createNode (some .devtmpfs) none [] true with
        resource := some (createTmpfsResource (0o755 ||| sIfdir)) },
      { createNode (some .tmpfs) (some 0) (str "/") true with
        resource := some (createTmpfsResource (0o644 ||| sIfdir)), children := children },
      { createNode (some .tmpfs) (some 2) (str "dev") true with
        resource := some (createTmpfsResource (0o755 ||| sIfdir)), mountpoint := some 1 }] :=
  ⟨_,_,rfl,rfl,rfl,rfl,rfl,rfl,rfl⟩

theorem vfsBoot_shows (h : vfsBoot=some s) : s.Shows .boot := by
  obtain ⟨s',children,hs,hins,hroot,-,hreduceRoot,hreduceDev,hnodes⟩ := vfsBoot_eq
  rw [h] at hs
  cases hs
  refine ⟨⟨2,by rw [hroot]; exact hreduceRoot,rfl⟩,?_,?_⟩
  · intro cs e he
    simp only [Tree.boot] at he
    split at he
    · cases he
      exact ⟨_,0o644 ||| sIfdir,by rw [hnodes]; rfl,rfl,rfl,rfl,rfl⟩
    · split at he
      · cases he
        exact ⟨_,0o755 ||| sIfdir,by rw [hnodes]; rfl,rfl,rfl,rfl,rfl⟩
      · cases he
  · intro cs i node hb hnode
    simp only [Tree.boot] at hb ⊢
    rw [hnodes] at hnode
    split at hb
    · rename_i hcs
      cases hb
      cases hnode
      refine ⟨by rw [(HashMap.insert_some hins).2.2.1]; decide,by simp [createNode],?_⟩
      intro name
      rw [HashMap.get_insert hins,HashMap.get_init,Option.none_or,hcs,List.nil_append,
        if_neg (by simp)]
      by_cases hname : str "dev"=name
      · rw [if_pos hname,if_pos (by rw [hname])]
        exact ⟨_,rfl,hreduceDev⟩
      · rw [if_neg hname,if_neg (fun h => hname (by simpa using h.symm))]
        rfl
    · split at hb
      · rename_i hcs
        cases hb
        cases hnode
        refine ⟨by decide,by simp [createNode],?_⟩
        intro name
        rw [hcs,if_neg (by simp),if_neg (by simp)]
        rfl
      · cases hb

/-- The file tree after the boot mounts is a map from paths to nodes: a create
succeeds exactly where a directory has no such entry yet, and binds that path only. -/
theorem vfs_refines_tree (s₀ : Vfs) (hboot : vfsBoot=some s₀) (calls : List TreeCall)
    (hcalls : AllAlong vfsCall TreeCall.Permitted s₀ calls) :
    ∃ answers s t, trace vfsCall s₀ calls=some (answers,s) ∧
      Answers Tree.Step .boot calls answers t ∧
      ∀ path, TreeCall.Permitted s (.getNode path) →
        (s.getNode (some s.vfsRoot) path).map (fun x => x.1)=some (t.lookup path) := by
  obtain ⟨answers,s,t,htrace,hanswers,hs⟩ := vfs_simulates.trace (vfsBoot_shows hboot) hcalls
  refine ⟨answers,s,t,htrace,hanswers,?_⟩
  intro path hpath
  obtain ⟨s',hget,-⟩ := hs.getNode (show ¬s.TrailsFile (some s.vfsRoot) path from hpath.2.1)
  rw [hget]
  rfl

def makeAndFind : List TreeCall :=
  [.create (str "/a") (0o755 ||| sIfdir),.create (str "a//b") (0o644 ||| sIfreg),
    .getNode (str "/a/b"),.create (str "/x/y") (0o644 ||| sIfreg),.getNode (str "/a/c"),
    .create (str "/dev/b") (0o644 ||| sIfreg),.create (str "/a/b") (0o644 ||| sIfreg)]

theorem vfs_refines_tree_makeAndFind : ∃ s₀ s t, vfsBoot=some s₀ ∧
    trace vfsCall s₀ makeAndFind=
      some ([some 4,some 5,some 5,none,none,some 6,none],s) ∧
    Answers Tree.Step .boot makeAndFind [some 4,some 5,some 5,none,none,some 6,none] t ∧
    ∀ path, TreeCall.Permitted s (.getNode path) →
      (s.getNode (some s.vfsRoot) path).map (fun x => x.1)=some (t.lookup path) := by
  obtain ⟨s₀,-,hboot,-⟩ := vfsBoot_eq
  have hpermitted : ∀ c∈makeAndFind, ∀ s, TreeCall.Permitted s c := by
    have hshort : ∀ c∈makeAndFind, ∀ name∈components c.path, name.length ≤ hashmapKeyDataMax := by
      decide +kernel
    have hlast : ∀ c∈makeAndFind, c.path.getLast?≠some slash := by
      decide +kernel
    intro c hc s
    refine ⟨hshort c hc,fun h => hlast c hc h.1,?_⟩
    simp only [makeAndFind,List.mem_cons,List.not_mem_nil,or_false] at hc
    rcases hc with rfl | rfl | rfl | rfl | rfl | rfl | rfl <;> decide
  obtain ⟨answers,s,t,htrace,hanswers,hget⟩ :=
    vfs_refines_tree s₀ hboot makeAndFind (.of_forall hpermitted)
  have hrun : (vfsBoot.bind (fun s => trace vfsCall s makeAndFind)).map (fun x => x.1)=
      some [some 4,some 5,some 5,none,none,some 6,none] := by
    decide +kernel
  rw [hboot,bind_some,htrace,Option.map_some,Option.some.injEq] at hrun
  dsimp only at hrun
  subst hrun
  exact ⟨s₀,s,t,hboot,htrace,hanswers,hget⟩

end X64OS.Fs
