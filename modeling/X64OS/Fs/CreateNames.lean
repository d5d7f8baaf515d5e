import X64OS.Fs.HashMapBytes
import X64OS.Fs.VfsGrowth

namespace X64OS.Fs

open Framework Function
open Option (bind_eq_some_iff bind_some map_some)

/-- The nodes that the pointers of a map point to; a pointer to a node is its number. -/
def HashMapBytes.nodes (m : HashMapBytes) : HashMap Nat := m.view.mapItems BitVec.toNat

/-- The tree with the children of each node in memory. -/
structure VfsBytes where
  vfs : Vfs
  children : Nat → HashMapBytes

namespace VfsBytes

def tree (s : VfsBytes) : Vfs :=
  { s.vfs with nodes := s.vfs.nodes.mapIdx (fun i node =>
      { node with children := (s.children i).nodes }) }

/-- VFS::Create; HASHMAP_SINSERT takes any name. -/
def create (re : Realloc) (s : VfsBytes) (parent : Option Nat) (path : Str) (mode : Nat) :
    Option (Option Nat × VfsBytes) :=
  (s.tree.path2node parent (some path)).bind (fun r =>
    let vfs := s.vfs.setErrno r.errno
    match r.targetParent,r.target,r.basename with
    | none,_,_ => some (none,⟨vfs,s.children⟩)
    | some _,some _,_ => some (none,⟨vfs.setErrno (some .eexist),s.children⟩)
    | some _,none,none => none
    | some p,none,some basename =>
      ((vfs.nodes[p]?).bind VfsNode.filesystem).bind (fun fs =>
        let x := vfs.fsCreate fs (some p) basename mode
        let children := update s.children x.1 (.init (if sIsdir mode then 256 else 0))
        ((s.children p).insert re basename (BitVec.ofNat 64 x.1)).map (fun m =>
          (some x.1,⟨x.2,update children p m⟩))))

/-- VFS::GetNode, without what it does to errno. -/
def getNode (s : VfsBytes) (parent : Option Nat) (path : Str) : Option (Option Nat) :=
  (s.tree.path2node parent (some path)).map (fun r => r.target)

def Fits (s : VfsBytes) : Prop := ∀ i, (s.children i).Fits

theorem create_cases {re : Realloc} {s s' : VfsBytes} {parent : Option Nat} {path : Str} {mode i : Nat}
    (h : s.create re parent path mode=some (some i,s')) :
    ∃ p name e fs m, s.tree.path2node parent (some path)=some ⟨some p,none,some name,e⟩ ∧
      (s.vfs.nodes[p]?).bind VfsNode.filesystem=some fs ∧ i=s.vfs.nodes.length ∧
      (s.children p).insert re name (BitVec.ofNat 64 i)=some m ∧
      s'=⟨((s.vfs.setErrno e).fsCreate fs (some p) name mode).2,
        update (update s.children i (.init (if sIsdir mode then 256 else 0))) p m⟩ := by
  simp only [create,bind_eq_some_iff] at h
  obtain ⟨⟨tp,t,b,e⟩,hr,h⟩ := h
  rcases tp with - | p
  · cases h
  rcases t with - | t
  · rcases b with - | name
    · cases h
    simp only [bind_eq_some_iff,Option.map_eq_some_iff] at h
    obtain ⟨fs,⟨dir,hdir,hfs⟩,m,hm,he⟩ := h
    cases he
    exact ⟨p,name,e,fs,m,hr,bind_eq_some_iff.mpr ⟨dir,hdir,hfs⟩,rfl,hm,rfl⟩
  · cases h

theorem tree_node (s : VfsBytes) (i : Nat) : s.tree.nodes[i]?=(s.vfs.nodes[i]?).map (fun node =>
    { node with children := (s.children i).nodes }) := by
  simp [tree]

theorem tree_length (s : VfsBytes) : s.tree.nodes.length=s.vfs.nodes.length := by
  simp [tree]

theorem nodes_added (s : VfsBytes) {p : Nat} {dir : VfsNode} (hdir : s.vfs.nodes[p]?=some dir)
    (n : VfsNode) (c m : HashMapBytes) :
    (s.vfs.nodes++[n]).mapIdx (fun i node => { node with children :=
        (update (update s.children s.vfs.nodes.length c) p m i).nodes })=
      (s.tree.nodes++[{ n with children := c.nodes }]).set p
        { dir with children := m.nodes } := by
  have hp : p < s.vfs.nodes.length := (List.getElem?_eq_some_iff.mp hdir).1
  have hlen := s.tree_length
  apply List.ext_getElem?
  intro i
  rw [List.getElem?_mapIdx]
  by_cases hip : i=p
  · rw [hip,List.getElem?_set_self (by rw [List.length_append]; omega),
      List.getElem?_append_left hp,hdir,map_some,update_self]
  rw [List.getElem?_set_ne (Ne.symm hip),update_of_ne hip]
  rcases Nat.lt_trichotomy i s.vfs.nodes.length with hi | hi | hi
  · rw [List.getElem?_append_left hi,List.getElem?_append_left (by omega),tree_node,
      update_of_ne (by omega)]
  · rw [List.getElem?_append_right (by omega),List.getElem?_append_right (by omega),hlen,hi,
      Nat.sub_self,update_self]
    rfl
  · rw [List.getElem?_eq_none (by simp; omega),List.getElem?_eq_none (by simp; omega)]
    rfl

theorem create_tree {re : Realloc} {s s' : VfsBytes} {parent : Option Nat} {path : Str} {mode i : Nat}
    (hs : s.Fits) (hsmall : s.vfs.nodes.length < 2^64)
    (h : s.create re parent path mode=some (some i,s'))
    (hfit : ∀ r, s.tree.path2node parent (some path)=some r → ∀ name, r.basename=some name →
      name.length ≤ hashmapKeyDataMax) :
    s.tree.create parent path mode=some (some i,s'.tree) := by
  obtain ⟨p,name,e,fs,m,hr,hfs,rfl,hm,rfl⟩ := create_cases h
  have hview := HashMapBytes.view_insert (hs p) (hfit _ hr name rfl) hm
  have hins : (s.children p).nodes.insert name s.vfs.nodes.length=some m.nodes := by
    have hnodes := HashMap.mapItems_insert BitVec.toNat (s.children p).view name
      (BitVec.ofNat 64 s.vfs.nodes.length)
    rw [hview,BitVec.toNat_ofNat,Nat.mod_eq_of_lt hsmall] at hnodes
    exact hnodes
  obtain ⟨dir,hdir,hfs⟩ := bind_eq_some_iff.mp hfs
  have hp : p < s.vfs.nodes.length := (List.getElem?_eq_some_iff.mp hdir).1
  have hdir' := s.tree_node p
  rw [hdir,map_some] at hdir'
  have hp' : p < s.tree.nodes.length := by
    rw [tree_length]
    exact hp
  rw [Vfs.create,hr,bind_some]
  simp only [Vfs.setErrno,hdir',bind_some,hfs,Vfs.fsCreate,Vfs.addNode,Vfs.insertChild,
    List.getElem?_append_left hp',tree_length,hins,map_some,Vfs.setNode]
  refine congrArg (fun nodes => some (some s.vfs.nodes.length,
    { s.vfs with nodes := nodes, errno := e.getD s.vfs.errno })) ?_
  have hnodes := s.nodes_added hdir { createNode (some fs) (some p) name (sIsdir mode) with
    resource := some (createTmpfsResource mode) } (.init (if sIsdir mode then 256 else 0)) m
  rw [hfs] at hnodes
  exact hnodes.symm

end VfsBytes

/-- VFS::Create takes a name of any length. The name fits its field and its path
leads to the node exactly if it has at most 256 bytes, nothing of the name was
there, and a path that ends in a slash makes a directory. -/
theorem vfs_create_name_fits (re : Realloc) (s s' : VfsBytes) (hs : s.Fits)
    (hsmall : s.vfs.nodes.length < 2^64) (parent : Option Nat) (path : Str) (mode i : Nat)
    (h : s.create re parent path mode=some (some i,s')) :
    ∃ p name e, s.tree.path2node parent (some path)=some ⟨some p,none,some name,e⟩ ∧
      (name.length ≤ hashmapKeyDataMax ∧ s'.getNode parent path=some (some i) ↔
        name.length ≤ hashmapKeyDataMax ∧ e=some .enoent ∧
          (path.getLast?=some slash → sIsdir mode=true)) := by
  obtain ⟨p,name,e,-,-,hr,-⟩ := VfsBytes.create_cases h
  refine ⟨p,name,e,hr,and_congr_right ?_⟩
  intro hname
  have hfit : ∀ r, s.tree.path2node parent (some path)=some r → ∀ name, r.basename=some name →
      name.length ≤ hashmapKeyDataMax := by
    intro r hr' name' hname'
    rw [hr] at hr'
    cases hr'
    cases hname'
    exact hname
  obtain ⟨p',name',e',hr',hfound⟩ := Vfs.create_path2node (VfsBytes.create_tree hs hsmall h hfit)
  rw [hr] at hr'
  cases hr'
  rw [VfsBytes.getNode,hfound,map_some]
  by_cases hcond : e=some .enoent ∧ (path.getLast?=some slash → sIsdir mode=true)
  · rw [if_pos hcond]
    exact iff_of_true rfl hcond
  · rw [if_neg hcond]
    exact iff_of_false (by simp) hcond

theorem Vfs.path2node_missing_child {s : Vfs} {d : Nat} {dir : VfsNode} {name : Str}
    (hroot : s.reduceNode s.vfsRoot=some d) (hdir : s.nodes[d]?=some dir)
    (hget : dir.children.get name=none) (hne : name≠[]) (hname : slash∉name) :
    s.path2node none (some (slash::name))=some ⟨some d,none,some name,some .enoent⟩ := by
  have hcomp : components (slash::name)=[name] := by
    rw [← components_name hne hname]
    exact components_append [] name
  have hstart : s.startNode none (slash::name)=some d := by
    simp [startNode,hroot]
  rw [path2node_eq s none (List.cons_ne_nil _ _),hstart,bind_some,hcomp,
    if_neg (List.cons_ne_nil _ _),walkNames,
    lookupElem_missing (reduceNode_final hroot) hdir hget]
  rfl

def emptyTree : VfsBytes :=
  ⟨⟨[{ createNode none none [] false with mountpoint := some 2 },
    { createNode (some .devtmpfs) none [] true with
      resource := some (createTmpfsResource (0o755 ||| sIfdir)) },
    { createNode (some .tmpfs) (some 0) [slash] true with
      resource := some (createTmpfsResource (0o644 ||| sIfdir)) }],0,1,.init 256,.enoent⟩,
    fun i => .init (if i=0 then 0 else 256)⟩

theorem emptyTree_fits : emptyTree.Fits := fun _ => HashMapBytes.init_fits _

theorem emptyTree_path2node {name : Str} (hne : name≠[]) (hname : slash∉name) :
    emptyTree.tree.path2node none (some (slash::name))=some ⟨some 2,none,some name,some .enoent⟩ :=
  Vfs.path2node_missing_child rfl rfl rfl hne hname

theorem emptyTree_create {name : Str} {m : HashMapBytes} (hne : name≠[]) (hname : slash∉name)
    (hm : (HashMapBytes.init 256).insert .inPlace name 3=some m) (mode : Nat) :
    ∃ s' dir, emptyTree.create .inPlace none (slash::name) mode=some (some 3,s') ∧
      s'.tree.reduceNode s'.tree.vfsRoot=some 2 ∧ s'.tree.nodes[2]?=some dir ∧
      dir.children=m.nodes := by
  refine ⟨⟨((emptyTree.vfs.setErrno (some .enoent)).fsCreate .tmpfs (some 2) name mode).2,
    update (update emptyTree.children 3 (.init (if sIsdir mode then 256 else 0))) 2 m⟩,
    _,?_,rfl,rfl,rfl⟩
  rw [VfsBytes.create,emptyTree_path2node hne hname,bind_some]
  show Option.map _ ((HashMapBytes.init 256).insert .inPlace name 3)=_
  rw [hm]
  rfl

/-- A file with a short name is made and found. -/
theorem vfs_create_name_fits_short : ∃ s', emptyTree.create .inPlace none [slash,0x61] 0o100644=
    some (some 3,s') ∧ s'.getNode none [slash,0x61]=some (some 3) := by
  obtain ⟨m,hm⟩ : ∃ m, (HashMapBytes.init 256).insert .inPlace [0x61] 3=some m :=
    HashMapBytes.insert_isSome .inPlace (Nat.succ_ne_zero 255) (by decide) 3
  obtain ⟨s',dir,hs',-⟩ := emptyTree_create (List.cons_ne_nil _ _) (by decide) hm 0o100644
  refine ⟨s',hs',?_⟩
  obtain ⟨p,name,e,hr,hiff⟩ := vfs_create_name_fits .inPlace emptyTree s' emptyTree_fits (by decide)
    none [slash,0x61] 0o100644 3 hs'
  rw [emptyTree_path2node (List.cons_ne_nil _ _) (by decide)] at hr
  cases hr
  exact (hiff.mpr ⟨by decide,rfl,by decide⟩).2

theorem HashMapBytes.init_insert_isSome (re : Realloc) {key : Str} (item : BitVec 64)
    (hblock : key.length ≤ 16*sizeofItem) : ∃ m, (init 256).insert re key item=some m := by
  have happ : ∃ b, (BucketBytes.zero.alloc.double re).append key item
      (BucketBytes.zero.alloc.double_filled_lt re (BucketBytes.alloc_cap_pos _))=some b :=
    ⟨_,if_pos (show 0*sizeofItem+key.length ≤ 16*sizeofItem by omega)⟩
  obtain ⟨b,hb⟩ := happ
  exact ⟨_,congrArg (Option.map _) hb⟩

/-- A name of 257 bytes overwrites key_length, which is then stored over its last
byte: the file is made, but not found. -/
theorem vfs_create_long_name : ∃ s', emptyTree.create .inPlace none
      (slash::List.replicate 257 0x61) 0o100644=some (some 3,s') ∧
    emptyTree.tree.path2node none (some (slash::List.replicate 257 0x61))=
      some ⟨some 2,none,some (List.replicate 257 0x61),some .enoent⟩ ∧
    ¬(List.replicate 257 (0x61 : BitVec 8)).length ≤ hashmapKeyDataMax ∧
    s'.getNode none (slash::List.replicate 257 0x61)=some none := by
  have hne : List.replicate 257 (0x61 : BitVec 8)≠[] := List.replicate_succ_ne_nil
  have hname : slash∉List.replicate 257 (0x61 : BitVec 8) := by
    intro h
    exact absurd (List.eq_of_mem_replicate h) (by decide)
  have hlong : hashmapKeyDataMax < (List.replicate 257 (0x61 : BitVec 8)).length := by
    rw [List.length_replicate,hashmapKeyDataMax]
    omega
  obtain ⟨m,hm⟩ := HashMapBytes.init_insert_isSome .inPlace 3
    (show (List.replicate 257 (0x61 : BitVec 8)).length ≤ 16*sizeofItem by
      rw [List.length_replicate,sizeofItem]; omega)
  have hget := HashMapBytes.get_long (HashMapBytes.init_fits 256) hm hlong (by
    rw [List.getElem?_replicate,List.length_replicate]
    decide)
  obtain ⟨s',dir,hs',hroot,hdir,hchildren⟩ := emptyTree_create hne hname hm 0o100644
  refine ⟨s',hs',emptyTree_path2node hne hname,Nat.not_le.mpr hlong,?_⟩
  have hmissing : dir.children.get (List.replicate 257 0x61)=none := by
    rw [hchildren,HashMapBytes.nodes,HashMap.mapItems_get,HashMapBytes.view_get,hget]
    rfl
  rw [VfsBytes.getNode,Vfs.path2node_missing_child hroot hdir hmissing hne hname]
  rfl

end X64OS.Fs
