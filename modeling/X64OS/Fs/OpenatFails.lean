import X64OS.Fs.OpenatStart

namespace X64OS.Fs

open Framework
open Option (map_eq_some_iff bind_eq_some_iff bind_some)

variable {env : OpenEnv} {i parent : Nat} {name : Str} {o : Option Nat} {dirFdnum : Int}

namespace FsTree

def IsNew (node : FsNode) (mode : Nat) : Prop :=
  node.redir=none ∧ node.mountpoint=none ∧ node.symlinkTarget=none ∧ node.mode=some mode

variable {mode : Nat} {t t' : FsTree}

theorem fsCreate_cases {room : Bool} {fs : RegisteredFs} {target : Option Nat}
    (h : fsCreate room fs parent name mode t=some (target,t')) :
    (target=none ∧ t'=t) ∨ (target=some t.nodes.length ∧
      t'.nodes=t.nodes++[createNode (some fs) (some parent) name mode 0]) := by
  cases fs <;> cases room <;> cases h <;> simp

theorem insertChild_cases {p : Nat} {child : Option Nat}
    (h : insertChild p name child t=some ((),t')) : t'.nodes.length=t.nodes.length ∧
      ∀ (i mode : Nat) (node : FsNode), t.nodes[i]?=some node → IsNew node mode →
        ∃ node', t'.nodes[i]?=some node' ∧ IsNew node' mode := by
  obtain ⟨dir,hdir,h⟩ := bind_eq_some_iff.mp h
  obtain ⟨children,-,h⟩ := map_eq_some_iff.mp h
  cases h
  refine ⟨List.length_set,fun i mode node hi hnew => ?_⟩
  dsimp only
  rw [List.getElem?_set]
  split
  · rename_i hp
    subst hp
    rw [hdir] at hi
    cases hi
    exact ⟨_,if_pos (List.getElem?_eq_some_iff.mp hdir).1,hnew⟩
  · exact ⟨node,hi,hnew⟩

def SameNodes (t t' : FsTree) : Prop := t'.nodes=t.nodes ∧ t'.vfsRoot=t.vfsRoot

theorem SameNodes.symm (h : SameNodes t t') : SameNodes t' t := ⟨h.1.symm,h.2.symm⟩

theorem SameNodes.trans {t₁ t₂ t₃ : FsTree} (h : SameNodes t₁ t₂) (k : SameNodes t₂ t₃) :
    SameNodes t₁ t₃ :=
  ⟨k.1.trans h.1,k.2.trans h.2⟩

theorem SameNodes.eq (h : SameNodes t t') : t'={ t with errno := t'.errno } := by
  obtain ⟨hnodes,hroot⟩ := h
  rw [← hnodes,← hroot]

/-- A step that writes the nodes, as far as it depends on the tree. -/
theorem respects_nodes {α : Type} {m : TreeM α} (F : List FsNode → Option (α × List FsNode))
    (hm : ∀ t : FsTree, m t=(F t.nodes).map (fun x => (x.1,{ t with nodes := x.2 }))) :
    Respects SameNodes m := by
  intro t t' h
  rw [hm,hm,h.1]
  cases F t.nodes with
  | none => exact .none
  | some x => exact .some ⟨rfl,rfl,h.2⟩

theorem respects_rule (disk : Disk) : LookupRule disk (Respects SameNodes) := by
  refine .ofSteps (fun g hg => .read (fun t t' h => ?_)) .bind (fun e t t' h => .some ⟨rfl,h⟩)
    (fun n => respects_nodes (fun nodes => some (nodes.length,nodes++[n])) (fun _ => rfl))
    (fun p name child => respects_nodes (fun nodes => (nodes[p]?).bind (fun dir =>
      (dir.children.insert name child).map (fun children =>
        ((),nodes.set p { dir with children := children })))) (fun t => ?_))
    (fun i => respects_nodes (fun nodes => (nodes[i]?).map (fun dir =>
      ((),nodes.set i { dir with populated := true }))) (fun t => ?_))
  · exact ((congrArg g h.eq).trans (hg t t'.errno)).symm
  · rw [insertChild,Option.map_bind]
    simp only [Function.comp_def,Option.map_map]
  · rw [setPopulated,Option.map_map]
    rfl

/-- The program leaves the nodes as they are: for a lookup, each directory that it comes through
has been read. -/
def Reads {α : Type} (m : TreeM α) (t : FsTree) : Prop := ∀ a t', m t=some (a,t') → t'.nodes=t.nodes

/-- populate does so exactly if the node is not a directory of an ext2fs that nobody has read. -/
theorem populate_reads_iff {disk : Disk} {ok : Bool} (h : populate disk i t=some (ok,t')) :
    Reads (populate disk i) t ↔
      ∀ dir device mode, t.nodes[i]?=some dir → dir.filesystem=some (.ext2fs device) →
        dir.mode=some mode → sIsdir mode=true → dir.populated=true := by
  constructor
  · intro hreads dir device mode hi hfs hmode hdir
    by_contra hpop
    rw [Bool.not_eq_true] at hpop
    have hnodes := hreads ok t' h
    -- the last step marks the directory as read
    obtain ⟨dir',t₁,hnode,h⟩ := bind_returns h
    obtain ⟨dir'',hi',he⟩ := map_eq_some_iff.mp hnode
    cases he
    cases hi.symm.trans hi'
    simp only [hfs,hpop,hmode] at h
    rw [if_pos hdir] at h
    obtain ⟨⟨⟩,t₂,hpopulate,h⟩ := bind_returns h
    rw [ext2fsPopulate] at hpopulate
    obtain ⟨dir₁,t₃,-,hpopulate⟩ := bind_returns hpopulate
    obtain ⟨⟨⟩,t₄,-,hset⟩ := bind_returns hpopulate
    obtain ⟨old,hold,hset⟩ := map_eq_some_iff.mp hset
    cases hset
    obtain ⟨new,t₅,hnew,h⟩ := bind_returns h
    obtain ⟨_,-,he⟩ := map_eq_some_iff.mp hnew
    cases he
    cases h
    have hset := congrArg (fun l : List FsNode => l[i]?) hnodes
    dsimp only at hset
    rw [List.getElem?_set_self (List.getElem?_eq_some_iff.mp hold).1,hi,Option.some_inj] at hset
    rw [← hset] at hpop
    cases hpop
  · intro hread a t'' h
    obtain ⟨dir,t₁,hnode,h⟩ := bind_returns h
    obtain ⟨dir',hi,he⟩ := map_eq_some_iff.mp hnode
    cases he
    generalize hfs : dir.filesystem=fs at h
    generalize hpop : dir.populated=pop at h
    generalize hmode : dir.mode=mode at h
    split at h
    · rename_i device mode
      split at h
      · rename_i hdir
        rw [hread dir device mode hi hfs hmode hdir] at hpop
        cases hpop
      · cases h
        rfl
    · cases h
      rfl

/-- VFS::Create of a name makes a node: the name is not there, in a directory of a filesystem that can
create, and there is memory. -/
def Creates (env : OpenEnv) (t : FsTree) (parent : Nat) (name : Str) : Prop :=
  env.room=true ∧ ∃ r t' p dir, path2node env.disk env.links (some parent) (some name) t=some (r,t') ∧
    r.target=none ∧ r.basename.isSome ∧ r.targetParent=some p ∧ t.nodes[p]?=some dir ∧
    (dir.filesystem=some .tmpfs ∨ dir.filesystem=some .devtmpfs)

theorem fsCreate_some_iff {room : Bool} {fs : RegisteredFs} {target : Option Nat}
    (h : fsCreate room fs parent name mode t=some (target,t')) :
    target.isSome ↔ room=true ∧ (fs=.tmpfs ∨ fs=.devtmpfs) := by
  cases fs <;> cases room <;> cases h <;> simp

/-- VFS::Create makes a node behind the others, or none. -/
theorem create_cases {t₁ : FsTree} (hs : SameNodes t t₁)
    (hreads : Reads (path2node env.disk env.links (some parent) (some name)) t)
    (h : create env.disk env.links env.room env.low (some parent) name mode t₁=some (o,t')) :
    (o=none ∧ ¬Creates env t parent name ∧ t'.nodes.length=t.nodes.length) ∨
    (o=some t.nodes.length ∧ Creates env t parent name ∧ t'.nodes.length=t.nodes.length+1 ∧
      ∃ node, t'.nodes[t.nodes.length]?=some node ∧ IsNew node mode) := by
  obtain ⟨called,t₂,hcall,hrest⟩ := bind_returns h
  obtain ⟨r,t₃,hr,hmatch⟩ := bind_returns hcall
  obtain ⟨t₄,hr₄,hs₄⟩ := ((respects_rule env.disk).path2node env.links (some parent) (some name)).returns
    hs.symm hr
  have hnodes : t₃.nodes=t.nodes := hs₄.1.symm.trans (hreads r t₄ hr₄)
  -- the lookup has one result
  have huniq : ∀ r' t₅, path2node env.disk env.links (some parent) (some name) t=some (r',t₅) → r'=r := by
    intro r' t₅ hr'
    rw [hr₄] at hr'
    cases hr'
    rfl
  rcases hp : r.targetParent with - | p
  · simp only [hp] at hmatch
    cases hmatch
    cases hrest
    refine .inl ⟨rfl,?_,congrArg List.length hnodes⟩
    rintro ⟨-,r',t₅,p,dir,hr',-,-,hp',-⟩
    rw [huniq r' t₅ hr',hp] at hp'
    cases hp'
  rcases hg : r.target with - | g
  · rcases hb : r.basename with - | b
    · simp only [hp,hg,hb] at hmatch
      cases hmatch
    · simp only [hp,hg,hb] at hmatch
      obtain ⟨fs,t₅,hfs,hmatch⟩ := bind_returns hmatch
      obtain ⟨fs',hfs',he⟩ := map_eq_some_iff.mp hfs
      cases he
      obtain ⟨dir,hdir,hfs'⟩ := bind_eq_some_iff.mp hfs'
      obtain ⟨target,t₆,hc,hmatch⟩ := bind_returns hmatch
      cases hmatch
      obtain ⟨rfl,hins⟩ := create_inserts hcall h
      obtain ⟨hlen,hnew⟩ := insertChild_cases hins
      have hsome := fsCreate_some_iff hc
      have hcreates : Creates env t parent name ↔ env.room=true ∧ (fs=.tmpfs ∨ fs=.devtmpfs) := by
        rw [hnodes] at hdir
        constructor
        · rintro ⟨hroom,r',t₅,p',dir',hr',-,-,hp',hdir',hfs₁⟩
          rw [huniq r' t₅ hr',hp,Option.some_inj] at hp'
          rw [← hp',hdir,Option.some_inj] at hdir'
          rw [← hdir',hfs',Option.some_inj,Option.some_inj] at hfs₁
          exact ⟨hroom,hfs₁⟩
        · rintro ⟨hroom,hfs₁⟩
          refine ⟨hroom,r,t₄,p,dir,hr₄,hg,by rw [hb]; rfl,hp,hdir,?_⟩
          rw [hfs',Option.some_inj,Option.some_inj]
          exact hfs₁
      rw [← hsome] at hcreates
      rcases fsCreate_cases hc with ⟨hnone,rfl⟩ | ⟨hsome',happend⟩
      · refine .inl ⟨hnone,?_,by rw [hlen,hnodes]⟩
        rw [hcreates,hnone]
        exact Bool.false_ne_true
      · rw [hnodes] at hsome' happend
        refine .inr ⟨hsome',?_,by rw [hlen,happend,List.length_append,List.length_singleton],?_⟩
        · rw [hcreates,hsome']
          rfl
        · refine hnew _ mode (createNode (some fs) (some p) b mode 0) ?_ ⟨rfl,rfl,rfl,rfl⟩
          rw [happend,List.getElem?_concat_length]
  · simp only [hp,hg] at hmatch
    obtain ⟨⟨⟩,t₅,he,hmatch⟩ := bind_returns hmatch
    cases he
    cases hmatch
    cases hrest
    refine .inl ⟨rfl,?_,congrArg List.length hnodes⟩
    rintro ⟨-,r',t₅,p',dir,hr',hg',-⟩
    rw [huniq r' t₅ hr',hg] at hg'
    cases hg'

end FsTree

namespace OpenWorld

/-- No node, no file, no refcount of a resource and no slot of the table is another one. -/
structure Same (w w' : OpenWorld) : Prop where
  tree : w.tree.SameNodes w'.tree
  files : w'.files=w.files
  refcounts : w'.refcounts=w.refcounts
  fds : w'.table.fds=w.table.fds

theorem Same.refl (w : OpenWorld) : w.Same w := ⟨⟨rfl,rfl⟩,rfl,rfl,rfl⟩

def Passes (env : OpenEnv) (flags : OpenFlags) (w : OpenWorld) (i : Nat) : Prop :=
  ∃ mode, w.nodeMode i=some mode ∧ sIslnk mode=false ∧ ∃ j t mode',
    FsTree.reduceLinks env.disk env.links env.links i w.tree=some (some j,t) ∧
    w.nodeMode j=some mode' ∧ ¬(sIsdir mode'=false ∧ flags.directory=true)

section Lookup

variable {α : Type} {w w' w₁ w₂ : OpenWorld}

theorem Same.setErrno (h : w.Same w₁) {e : Errno} {a : Unit}
    (he : onTree (FsTree.setErrno e) w₁=some (a,w₂)) : w.Same w₂ := by
  cases he
  exact ⟨h.tree,h.files,h.refcounts,h.fds⟩

theorem Same.nodeMode (h : w.Same w₁) (i : Nat) : w₁.nodeMode i=w.nodeMode i := by
  rw [OpenWorld.nodeMode,OpenWorld.nodeMode,h.tree.1]

theorem Same.onTree {m : TreeM α} {a : α} (h : w.Same w₁) (hm : Respects FsTree.SameNodes m)
    (hroot : Moves (fun t t' => t'.vfsRoot=t.vfsRoot) m) (hreads : FsTree.Reads m w.tree)
    (hw : onTree m w₁=some (a,w₂)) : (∃ t, m w.tree=some (a,t)) ∧ w.Same w₂ := by
  obtain ⟨⟨b,t⟩,ht,he⟩ := map_eq_some_iff.mp hw
  cases he
  obtain ⟨t',ht',hs⟩ := hm.returns h.tree.symm ht
  have hsame : w.tree.SameNodes t' := ⟨hreads b t' ht',hroot _ b t' ht'⟩
  exact ⟨⟨t',ht'⟩,hsame.trans hs.symm,h.files,h.refcounts,h.fds⟩

end Lookup

/-- The world with one new node, for a file of that mode. -/
structure Added (w w' : OpenWorld) (mode : Nat) : Prop where
  length : w'.tree.nodes.length=w.tree.nodes.length+1
  node : ∃ node, w'.tree.nodes[w.tree.nodes.length]?=some node ∧ FsTree.IsNew node mode
  fds : w'.table.fds=w.table.fds

variable {flags : OpenFlags} {mode : Nat} {w w' w₁ : OpenWorld}

/-- What does not matter for the table and the counts. -/
structure Handles (w w' : OpenWorld) : Prop where
  nodes : w'.tree.nodes=w.tree.nodes
  refcounts : w'.refcounts=w.refcounts
  fds : w'.table.fds=w.table.fds

instance handlesRefl : Std.Refl Handles := ⟨fun _ => ⟨rfl,rfl,rfl⟩⟩

instance handlesTrans : IsTrans OpenWorld Handles :=
  ⟨fun _ _ _ h k => ⟨k.nodes.trans h.nodes,k.refcounts.trans h.refcounts,k.fds.trans h.fds⟩⟩

variable {ret : Int}

end OpenWorld

end X64OS.Fs
