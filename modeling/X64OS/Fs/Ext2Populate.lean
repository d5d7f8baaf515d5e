import X64OS.Fs.Ext2Dir

namespace X64OS.Fs

open Framework

structure DirRecord where
  inodeidx : BitVec 32
  entsize : BitVec 16
  dirtype : BitVec 8
  name : Str

variable {data buf : Mem} {pos size : Nat} {r : DirRecord} {rs : List DirRecord} {dir : FsNode}
  {w : Ext2World}

namespace DirRecord

def Live (r : DirRecord) : Prop := ¬(r.inodeidx=0 ∨ r.name=str "." ∨ r.name=str "..")

instance (r : DirRecord) : Decidable r.Live := inferInstanceAs (Decidable (¬_))

def header (r : DirRecord) : Direntry := ⟨r.inodeidx,r.entsize,BitVec.ofNat 8 r.name.length,r.dirtype⟩

/-- The bytes at a position are those of a well-formed entry. -/
structure At (data : Mem) (pos : Nat) (r : DirRecord) : Prop where
  inodeidx : data.read32 pos=r.inodeidx
  entsize : data.read16 (pos+4)=r.entsize
  namelen : (data (pos+6)).toNat=r.name.length
  dirtype : data (pos+7)=r.dirtype
  name : window data (pos+8) r.name.length=r.name
  nul : 0∉r.name
  room : 8+r.name.length ≤ r.entsize.toNat

theorem At.name_lt (h : r.At data pos) : r.name.length < 256 := by
  rw [← h.namelen]
  exact (data (pos+6)).isLt

theorem At.direntryAt_eq (h : r.At data pos) : direntryAt data pos=r.header := by
  have hlen : data (pos+6)=BitVec.ofNat 8 r.name.length := by
    rw [← h.namelen,BitVec.ofNat_toNat,BitVec.setWidth_eq]
  rw [direntryAt,header,h.inodeidx,h.entsize,hlen,h.dirtype]

end DirRecord

theorem strncpy_eq {src : Mem} {name : Str} (hnul : 0∉name) {a : Nat} (h : window src a name.length=name) :
    strncpy src a name.length=name := by
  induction name generalizing a with
  | nil => rfl
  | cons c cs ih =>
    rw [List.mem_cons,not_or] at hnul
    rw [List.length_cons,Nat.add_comm,window_append] at h
    obtain ⟨hc,hcs⟩ := List.cons.inj h
    dsimp only [Nat.add_zero] at hc
    rw [List.length_cons,strncpy,hc,if_neg (Ne.symm hnul.1),ih hnul.2 hcs]

theorem DirRecord.At.namebuf_eq (h : r.At data pos) : namebuf data pos=r.name := by
  have hlen : (direntryAt data pos).namelen.toNat=r.name.length := h.namelen
  rw [namebuf,hlen]
  exact strncpy_eq h.nul h.name

def Records (data : Mem) : Nat → List DirRecord → Prop
  | _,[] => True
  | pos,r::rs => r.At data pos ∧ Records data (pos+r.entsize.toNat) rs

def totalSize (rs : List DirRecord) : Nat := (rs.map (fun r => r.entsize.toNat)).sum

theorem totalSize_cons (r : DirRecord) (rs : List DirRecord) :
    totalSize (r::rs)=r.entsize.toNat+totalSize rs := List.sum_cons

theorem DirRecord.At.congr (h : ∀ k < size, buf k=data k) (hr : r.At data pos)
    (hend : pos+r.entsize.toNat ≤ size) : r.At buf pos := by
  have hroom := hr.room
  refine ⟨?_,?_,?_,?_,?_,hr.nul,hroom⟩
  · rw [← hr.inodeidx,Mem.read32,Mem.read32,Mem.readBytes_eq (fun i hi => h (pos+i) (by omega))]
  · rw [← hr.entsize,Mem.read16,Mem.read16,Mem.readBytes_eq (fun i hi => h (pos+4+i) (by omega))]
  · rw [h _ (by omega),hr.namelen]
  · rw [h _ (by omega),hr.dirtype]
  · rw [window_congr (fun i hi => h (pos+8+i) (by omega)),hr.name]

theorem Records.congr (h : ∀ k < size, buf k=data k) (hr : Records data pos rs)
    (hend : pos+totalSize rs ≤ size) : Records buf pos rs := by
  induction rs generalizing pos with
  | nil => trivial
  | cons r rs ih =>
    rw [totalSize_cons] at hend
    exact ⟨hr.1.congr h (by omega),ih hr.2 (by omega)⟩

theorem Records.name_lt (h : Records data pos rs) : ∀ r∈rs, r.name.length < 256 := by
  induction rs generalizing pos with
  | nil => exact fun r hr => absurd hr List.not_mem_nil
  | cons r rs ih =>
    intro r' hr'
    rcases List.mem_cons.mp hr' with rfl | hrest
    · exact h.1.name_lt
    · exact ih h.2 r' hrest

namespace Ext2fs

variable (dev : Backing) (fs : Ext2fs) (device i : Nat)

def addRecords : List DirRecord → Ext2M Unit
  | [] => pure ()
  | r::rs => do
    fs.populateEntry dev device i r.header r.name
    addRecords rs

theorem populateLoop_records {n : Nat} (hrs : Records buf pos rs) (hend : pos+totalSize rs=size)
    (hsize : size < 2^63) (hn : rs.length < n) :
    fs.populateLoop dev device i buf size n pos=fs.addRecords dev device i rs := by
  induction rs generalizing pos n with
  | nil =>
    obtain ⟨m,rfl⟩ : ∃ m, n=m+1 := ⟨n-1,by simp at hn; omega⟩
    rw [populateLoop,if_neg (by simp [totalSize] at hend; omega),addRecords]
  | cons r rs ih =>
    obtain ⟨m,rfl⟩ : ∃ m, n=m+1 := ⟨n-1,by omega⟩
    obtain ⟨hr,hrest⟩ := hrs
    have hroom := hr.room
    rw [totalSize_cons] at hend
    rw [List.length_cons] at hn
    have hnext : add64 pos r.header.entsize.toNat=pos+r.entsize.toNat := by
      rw [DirRecord.header]
      exact add64_eq (by omega)
    rw [populateLoop,if_pos (by omega),hr.direntryAt_eq,hr.namebuf_eq,hnext,ih hrest (by omega) (by omega),
      addRecords]

end Ext2fs

namespace Volume

variable (v : Volume) (disk : Mem) (device i : Nat)

def nodeOf (r : DirRecord) : FsNode := v.childOf disk device i r.header r.name

structure IsChild (w : Ext2World) (n : Nat) (r : DirRecord) : Prop where
  other : n≠i
  node : w.tree.nodes[n]?=some (v.nodeOf disk device i r)
  resource : w.resources n=some (v.resourceOf (v.inodeOf disk r.inodeidx) r.header)

/-- Node i, which was dir, has the children m, and these are the nodes of the given entries. -/
structure Listed (dir : FsNode) (w : Ext2World) (m : HashMap (Option Nat)) (done : List DirRecord) :
    Prop where
  node : w.tree.nodes[i]?=some { dir with children := m }
  cap : m.cap≠0
  distinct : m.Distinct
  keys : ∀ name, m.get name≠none ↔ ∃ r∈done, r.name=name
  child : ∀ r∈done, ∃ n, m.get r.name=some (some n) ∧ v.IsChild disk device i w n r

variable {v disk device i}

theorem Listed.add {m : HashMap (Option Nat)} {done : List DirRecord}
    (h : v.Listed disk device i dir w m done) (hlive : r.Live) (hlen : r.name.length < 256)
    (hnew : ∀ r'∈done, r'.name≠r.name) :
    ∃ w' m', v.populateEntry (.ofDisk disk) device i r.header r.name w=some ((),w') ∧
      v.Listed disk device i dir w' m' (done++[r]) := by
  have hi : i < w.tree.nodes.length := (List.getElem?_eq_some_iff.mp h.node).1
  obtain ⟨m',hins⟩ : ∃ m', m.insert r.name (some w.tree.nodes.length)=some m' :=
    HashMap.insert_isSome h.cap (by rw [hashmapKeyDataMax]; omega)
  have hnone : m.get r.name=none := by
    by_contra hsome
    obtain ⟨r',hr',hname⟩ := (h.keys r.name).mp hsome
    exact hnew r' hr' hname
  have hget := HashMap.get_insert hins
  obtain ⟨-,-,hcap,-⟩ := HashMap.insert_some hins
  have hentry : v.populateEntry (.ofDisk disk) device i r.header r.name=
      v.addChild (.ofDisk disk) device i r.header r.name := if_neg hlive
  rw [hentry]
  refine ⟨_,m',addChild_ofDisk r.header r.name h.node hins,?_,?_,?_,?_,?_⟩
  · exact List.getElem?_set_self (by rw [List.length_append]; omega)
  · rw [hcap]
    exact h.cap
  · exact h.distinct.insert hnone hins
  · intro name
    rw [hget]
    by_cases hname : r.name=name
    · rw [← hname,hnone]
      simp
    · have hiff := h.keys name
      simp only [if_neg hname,Option.or_none,List.mem_append,List.mem_singleton,hiff]
      constructor
      · rintro ⟨r',hr',heq⟩
        exact ⟨r',.inl hr',heq⟩
      · rintro ⟨r',hr' | rfl,heq⟩
        · exact ⟨r',hr',heq⟩
        · exact absurd heq hname
  · intro r' hr'
    rcases List.mem_append.mp hr' with hold | hthis
    · obtain ⟨n,hn,hchild⟩ := h.child r' hold
      have hlt : n < w.tree.nodes.length := (List.getElem?_eq_some_iff.mp hchild.node).1
      refine ⟨n,by rw [hget,hn]; rfl,hchild.other,?_,?_⟩
      · dsimp only
        rw [List.getElem?_set_ne (Ne.symm hchild.other),List.getElem?_append_left hlt]
        exact hchild.node
      · dsimp only
        rw [Function.update_of_ne (by omega)]
        exact hchild.resource
    · obtain rfl := List.mem_singleton.mp hthis
      refine ⟨w.tree.nodes.length,by rw [hget,hnone,if_pos rfl]; rfl,by omega,?_,?_⟩
      · dsimp only
        rw [List.getElem?_set_ne (by omega),List.getElem?_append_right le_rfl,Nat.sub_self]
        rfl
      · exact Function.update_self _ _ _

theorem Listed.addRecords {m : HashMap (Option Nat)} {done : List DirRecord}
    (h : v.Listed disk device i dir w m done) (hlen : ∀ r∈rs, r.name.length < 256)
    (hnames : ((done++rs.filter (fun r => r.Live)).map (fun r => r.name)).Nodup) :
    ∃ w' m', v.addRecords (.ofDisk disk) device i rs w=some ((),w') ∧
      v.Listed disk device i dir w' m' (done++rs.filter (fun r => r.Live)) := by
  induction rs generalizing done w m with
  | nil => exact ⟨w,m,rfl,by rwa [List.filter_nil,List.append_nil]⟩
  | cons r rs ih =>
    by_cases hlive : r.Live
    · rw [List.filter_cons_of_pos (by simpa using hlive),List.append_cons] at hnames ⊢
      have hnew : ∀ r'∈done, r'.name≠r.name := by
        intro r' hr' heq
        rw [List.map_append,List.map_append] at hnames
        have hdisjoint := (List.nodup_append'.mp (List.nodup_append'.mp hnames).1).2.2
        exact hdisjoint (List.mem_map_of_mem hr') (by rw [heq]; simp)
      obtain ⟨w₁,m₁,hadd,hlisted⟩ := h.add hlive (hlen r List.mem_cons_self) hnew
      obtain ⟨w',m',hrest,hlisted'⟩ := ih hlisted (fun r' hr' => hlen r' (List.mem_cons_of_mem _ hr')) hnames
      refine ⟨w',m',?_,hlisted'⟩
      rw [Ext2fs.addRecords,bind_of_returns hadd]
      exact hrest
    · rw [List.filter_cons_of_neg (by simpa using hlive)] at hnames ⊢
      obtain ⟨w',m',hrest,hlisted'⟩ := ih h (fun r' hr' => hlen r' (List.mem_cons_of_mem _ hr')) hnames
      refine ⟨w',m',?_,hlisted'⟩
      have hskip : v.populateEntry (.ofDisk disk) device i r.header r.name w=some ((),w) :=
        congrFun (if_pos (Decidable.not_not.mp hlive)) w
      rw [Ext2fs.addRecords,bind_of_returns hskip]
      exact hrest

end Volume

namespace FsTree

def Keeps (i : Nat) (t t' : FsTree) : Prop := ∀ node, t.nodes[i]?=some node → t'.nodes[i]?=some node

def Stays (i : Nat) (t t' : FsTree) : Prop :=
  ∀ node, t.nodes[i]?=some node → node.populated=true → t'.nodes[i]?=some node

instance keepsRefl (i : Nat) : Std.Refl (Keeps i) := ⟨fun _ _ h => h⟩

instance keepsTrans (i : Nat) : IsTrans FsTree (Keeps i) := ⟨fun _ _ _ h k node hn => k node (h node hn)⟩

instance staysRefl (i : Nat) : Std.Refl (Stays i) := ⟨fun _ _ h _ => h⟩

instance staysTrans (i : Nat) : IsTrans FsTree (Stays i) :=
  ⟨fun _ _ _ h k node hn hp => k node (h node hn hp) hp⟩

theorem populateEntry_keeps {i j : Nat} (hij : j≠i) (device : Nat) (e : DirEntry) :
    Moves (Keeps i) (populateEntry device j () e) := by
  rw [populateEntry]
  split
  · exact .pure _
  · refine .bind ?_ (fun n => ?_)
    · intro t a t' h node hn
      cases h
      rwa [List.getElem?_append_left (List.getElem?_eq_some_iff.mp hn).1]
    · intro t a t' h node hn
      obtain ⟨dir,-,h⟩ := Option.bind_eq_some_iff.mp h
      obtain ⟨children,-,h⟩ := Option.map_eq_some_iff.mp h
      cases h
      rwa [List.getElem?_set_ne hij]

theorem setPopulated_keeps {i j : Nat} (hij : j≠i) : Moves (Keeps i) (setPopulated j) := by
  intro t a t' h node hn
  obtain ⟨dir,-,h⟩ := Option.map_eq_some_iff.mp h
  cases h
  rwa [List.getElem?_set_ne hij]

theorem populate_stays (i : Nat) (disk : Disk) (j : Nat) : Moves (Stays i) (populate disk j) := by
  intro t a t' h node hn hp
  obtain ⟨dir,t₁,hdir,h⟩ := bind_returns h
  obtain ⟨dir',hdir',he⟩ := Option.map_eq_some_iff.mp hdir
  cases he
  generalize dir.filesystem=fs at h
  generalize hpop : dir.populated=pop at h
  generalize dir.mode=mode at h
  split at h
  · rename_i device mode
    have hij : j≠i := by
      rintro rfl
      cases hn.symm.trans hdir'
      rw [hp] at hpop
      cases hpop
    split at h
    · have hmoves : Moves (Keeps i) (do
          ext2fsPopulate disk device j
          return (← FsTree.node j).populated) :=
        .bind (.bind (.read _) (fun dir => .bind (.foldlM (fun _ e => populateEntry_keeps hij device e) _ _)
          (fun _ => setPopulated_keeps hij))) (fun _ => .bind (.read _) (fun _ => .pure _))
      exact hmoves t a t' h node hn
    · cases h
      exact hn
  · cases h
    exact hn

theorem setErrno_stays (i : Nat) (e : Errno) : Moves (Stays i) (setErrno e) := by
  intro t a t' h node hn _
  cases h
  exact hn

def lookups (disk : Disk) (links : Nat) : List (Option Nat × Option Str) → TreeM Unit
  | [] => pure ()
  | p::ps => do
    let _ ← path2node disk links p.1 p.2
    lookups disk links ps

theorem lookups_stays (i : Nat) (disk : Disk) (links : Nat) (ps : List (Option Nat × Option Str)) :
    Moves (Stays i) (lookups disk links ps) := by
  induction ps with
  | nil => exact .pure _
  | cons p ps ih =>
    exact .bind ((moves_rule (setErrno_stays i) (populate_stays i disk)).path2node links p.1 p.2)
      (fun _ => ih)

end FsTree

def direntryTypes : List (BitVec 8 × Nat) :=
  [(1,sIfreg),(2,sIfdir),(3,sIfchr),(4,sIfblk),(5,sIfifo),(6,sIfsock),(7,sIflnk)]

theorem fileType_of_mem {dirtype : BitVec 8} {type : Nat} (h : (dirtype,type)∈direntryTypes) :
    fileType dirtype=type := by
  simp only [direntryTypes,List.mem_cons,Prod.mk.injEq,List.not_mem_nil,or_false] at h
  rcases h with ⟨rfl,rfl⟩ | ⟨rfl,rfl⟩ | ⟨rfl,rfl⟩ | ⟨rfl,rfl⟩ | ⟨rfl,rfl⟩ | ⟨rfl,rfl⟩ | ⟨rfl,rfl⟩ <;> rfl

theorem fileType_bits (dirtype : BitVec 8) :
    fileType dirtype &&& 0xfff=0 ∧ fileType dirtype &&& sIfmt=fileType dirtype := by
  rw [fileType]
  split_ifs <;> decide

theorem mode_bits (inode : Ext2Inode) (dirtype : BitVec 8) :
    inode.mode dirtype &&& 0xfff=inode.perms.toNat &&& 0xfff ∧
      inode.mode dirtype &&& sIfmt=fileType dirtype := by
  obtain ⟨hlow,htype⟩ := fileType_bits dirtype
  have hperms : (inode.perms &&& 0xfff).toNat=inode.perms.toNat &&& 0xfff := BitVec.toNat_and _ _
  have hnone : 0xfff &&& sIfmt=0 := by decide
  rw [Ext2Inode.mode,hperms,Nat.and_or_distrib_right,Nat.and_or_distrib_right,hlow,htype,Nat.and_assoc,
    Nat.and_assoc,hnone,Nat.and_zero,Nat.zero_or,Nat.and_self,Nat.or_zero]
  exact ⟨rfl,rfl⟩

namespace Volume

variable (v : Volume)

/-- Byte p of a file, in the block where the layout has it. -/
def layoutByte (disk : Mem) (inode : Ext2Inode) (p : Nat) : BitVec 8 :=
  disk ((v.layoutBlock disk inode (p/v.blksize)).toNat*v.blksize+p%v.blksize)

/-- The data of a directory is a sequence of entries, those in use have different names, and its
blocks are not in the triple-indirect range. -/
structure WellFormedDir (disk : Mem) (inode : Ext2Inode) (records : List DirRecord) : Prop where
  entries : Records (v.layoutByte disk inode) 0 records
  total : totalSize records=inode.inodesize
  names : ((records.filter (fun r => r.Live)).map (fun r => r.name)).Nodup
  blocks : ∀ p < inode.inodesize, p/v.blksize < 2^32 ∧ p/v.blksize < 12+v.blocklvl+v.blocklvl^2

structure HasStat (disk : Mem) (w : Ext2World) (i n : Nat) (r : DirRecord) (node : FsNode)
    (res : Ext2Resource) : Prop where
  node_eq : w.tree.nodes[n]?=some node
  resource_eq : w.resources n=some res
  name : node.name=r.name
  parent : node.parent=some i
  stat : node.ino=res.stIno ∧ node.mode=some res.stMode
  ino : res.stIno=r.inodeidx.toNat
  size : res.stSize=(v.inodeOf disk r.inodeidx).inodesize
  perms : res.stMode &&& 0xfff=(v.inodeOf disk r.inodeidx).perms.toNat &&& 0xfff
  type : ∀ type, (r.dirtype,type)∈direntryTypes → res.stMode &&& sIfmt=type

variable {v} {disk : Mem} {inode : Ext2Inode} {records : List DirRecord}

theorem WellFormedDir.size_lt (h : v.WellFormedDir disk inode records) : inode.inodesize < 2^63 := by
  have hbs := v.blksize_le
  have hle := v.le_blksize
  rcases Nat.eq_zero_or_pos inode.inodesize with hzero | hpos
  · omega
  · have hblock := (h.blocks (inode.inodesize-1) (by omega)).1
    have hlt := Nat.lt_mul_of_div_lt hblock (show 0 < v.blksize by omega)
    have hmul := Nat.mul_le_mul_left (2^32) hbs
    omega

theorem WellFormedDir.dirData_eq (h : v.WellFormedDir disk inode records) {k : Nat}
    (hk : k < inode.inodesize) : v.dirData disk inode k=v.layoutByte disk inode k := by
  obtain ⟨h32,hrange⟩ := h.blocks k hk
  have hblock : (BitVec.ofNat 32 (k/v.blksize)).toNat=k/v.blksize := by
    rw [BitVec.toNat_ofNat,Nat.mod_eq_of_lt h32]
  rw [dirData,if_pos h.size_lt,fileByte,layoutByte,inodegetblock_eq_layout disk (by rw [hblock]; exact hrange),
    hblock]

theorem IsChild.hasStat {device i n : Nat} (h : v.IsChild disk device i w n r) :
    ∃ node res, v.HasStat disk w i n r node res := by
  obtain ⟨hperms,htype⟩ := mode_bits (v.inodeOf disk r.inodeidx) r.dirtype
  refine ⟨_,_,h.node,h.resource,rfl,rfl,⟨rfl,rfl⟩,rfl,rfl,hperms,?_⟩
  intro type hmem
  rw [← fileType_of_mem hmem]
  exact htype

/-- ext2fs_populate on a well-formed directory. -/
theorem ext2fsPopulate_eq {device i rounds : Nat} (heap : Mem) (hdir : w.tree.nodes[i]?=some dir)
    (hwf : v.WellFormedDir disk (v.inodeOf disk (BitVec.ofNat 32 dir.ino)) records)
    (hrounds : records.length < rounds) :
    v.ext2fsPopulate (.ofDisk disk) device heap rounds i w=(do
      v.addRecords (.ofDisk disk) device i records
      onTree (FsTree.setPopulated i)) w := by
  have hnode : onTree (FsTree.node i) w=some (dir,w) := by
    rw [onTree,FsTree.node,FsTree.read,hdir]
    rfl
  have hparent : lookup (v.inodereadentry (.ofDisk disk) (BitVec.ofNat 32 dir.ino)).toOption w=
      some (v.inodeOf disk (BitVec.ofNat 32 dir.ino),w) := by
    rw [v.inodereadentry_ofDisk]
    rfl
  generalize v.inodeOf disk (BitVec.ofNat 32 dir.ino)=parent at hwf hparent
  obtain ⟨buf,hbuf,hdata⟩ := v.dirBuffer_ofDisk disk parent heap
  have hload : lookup (v.dirBuffer (.ofDisk disk) parent heap) w=some (buf,w) := by
    rw [hbuf]
    rfl
  have hrecords : Records buf 0 records :=
    hwf.entries.congr (fun k hk => (hdata k hk).trans (hwf.dirData_eq hk)) (by rw [hwf.total]; omega)
  rw [Ext2fs.ext2fsPopulate,bind_of_returns hnode,bind_of_returns hparent,bind_of_returns hload,
    Ext2fs.populateLoop_records _ _ _ _ hrecords (by rw [hwf.total]; omega) hwf.size_lt hrounds]

end Volume

def Ext2World.setNode (w : Ext2World) (i : Nat) (node : FsNode) : Ext2World :=
  { w with tree := { w.tree with nodes := w.tree.nodes.set i node } }

/-- ext2fs_populate on the empty node of a well-formed directory returns. The node then has exactly
one child for each entry in use, each found by its name and with what its inode says, and no
lookup of paths changes the node again. -/
theorem populate_children (v : Volume) (disk heap : Mem) (device i cap : Nat) (w : Ext2World)
    (dir : FsNode) (records : List DirRecord) (hdir : w.tree.nodes[i]?=some dir) (hcap : cap≠0)
    (hempty : dir.children=.init cap)
    (hwf : v.WellFormedDir disk (v.inodeOf disk (BitVec.ofNat 32 dir.ino)) records) :
    ∃ w' m, (∀ rounds, records.length < rounds →
        v.ext2fsPopulate (.ofDisk disk) device heap rounds i w=some ((),w')) ∧
      w'.tree.nodes[i]?=some { dir with children := m, populated := true } ∧
      (m.entries.map (fun x => x.key)).Nodup ∧
      (∀ name, name∈m.entries.map (fun x => x.key) ↔ ∃ r∈records, r.Live ∧ r.name=name) ∧
      (∀ r∈records, r.Live → ∃ n node res, m.get r.name=some (some n) ∧
        v.HasStat disk w' i n r node res) ∧
      ∀ fs links paths t', FsTree.lookups fs links paths w'.tree=some ((),t') →
        t'.nodes[i]?=w'.tree.nodes[i]? := by
  have hstart : v.Listed disk device i dir w dir.children [] := by
    refine ⟨hdir,?_,?_,?_,fun r hr => absurd hr List.not_mem_nil⟩
    · rw [hempty]
      exact hcap
    · rw [hempty]
      exact .init cap
    · intro name
      rw [hempty]
      simp
  obtain ⟨w₁,m,hadd,hlisted⟩ := hstart.addRecords hwf.entries.name_lt hwf.names
  rw [List.nil_append] at hlisted
  have hi : i < w₁.tree.nodes.length := (List.getElem?_eq_some_iff.mp hlisted.node).1
  have hset : onTree (FsTree.setPopulated i) w₁=
      some ((),w₁.setNode i { dir with children := m, populated := true }) := by
    rw [onTree,FsTree.setPopulated,hlisted.node]
    rfl
  have hlive : ∀ r, r∈records.filter (fun r => r.Live) ↔ r∈records ∧ r.Live := by
    intro r
    simp
  have hnode : (w₁.setNode i { dir with children := m, populated := true }).tree.nodes[i]?=
      some { dir with children := m, populated := true } := List.getElem?_set_self hi
  refine ⟨_,m,?_,hnode,hlisted.distinct.entries,?_,?_,?_⟩
  · intro rounds hrounds
    rw [Volume.ext2fsPopulate_eq heap hdir hwf hrounds,bind_of_returns hadd]
    exact hset
  · intro name
    rw [hlisted.distinct.mem_keys_iff hlisted.cap,hlisted.keys]
    constructor
    · rintro ⟨r,hr,hname⟩
      exact ⟨r,((hlive r).mp hr).1,((hlive r).mp hr).2,hname⟩
    · rintro ⟨r,hr,hl,hname⟩
      exact ⟨r,(hlive r).mpr ⟨hr,hl⟩,hname⟩
  · intro r hr hl
    obtain ⟨n,hn,hchild⟩ := hlisted.child r ((hlive r).mpr ⟨hr,hl⟩)
    have hafter : v.IsChild disk device i
        (w₁.setNode i { dir with children := m, populated := true }) n r := by
      refine ⟨hchild.other,?_,hchild.resource⟩
      rw [Ext2World.setNode]
      dsimp only
      rw [List.getElem?_set_ne (Ne.symm hchild.other)]
      exact hchild.node
    obtain ⟨node,res,hstat⟩ := hafter.hasStat
    exact ⟨n,node,res,hn,hstat⟩
  · intro fs links paths t' hlookups
    rw [hnode]
    exact FsTree.lookups_stays i fs links paths _ _ _ hlookups _ hnode rfl

/-- The bytes of a disk that are not 0: the inode table of its group begins at block 5. Inode 2 is
a directory of 24 bytes in block 6, inode 3 a file of 7 bytes. -/
def sampleBytes : List (Nat × BitVec 8) :=
  [(2056,5),(5252,24),(5288,6),(5376,0xa4),(5377,1),(5380,7),
    (6144,2),(6148,12),(6150,1),(6151,2),(6152,0x2e),
    (6156,3),(6160,12),(6162,1),(6163,1),(6164,0x66)]

def sampleDisk : Mem := fun a => (sampleBytes.lookup a).getD 0

def sampleRecords : List DirRecord := [⟨2,12,2,str "."⟩,⟨3,12,1,str "f"⟩]

theorem sample_wellFormed :
    smallVolume.WellFormedDir sampleDisk (smallVolume.inodeOf sampleDisk (BitVec.ofNat 32 2)) sampleRecords := by
  refine ⟨⟨⟨by decide,by decide,by decide,by decide,by decide,by decide,by decide⟩,
    ⟨by decide,by decide,by decide,by decide,by decide,by decide,by decide⟩,trivial⟩,by decide,by decide,?_⟩
  decide

/-- The root of the mounted tree gets one child. -/
theorem populate_children_sample :
    ∃ (w' : Ext2World) (m : HashMap (Option Nat)), (∀ rounds, 2 < rounds →
      smallVolume.ext2fsPopulate (.ofDisk sampleDisk) 0 (fun _ => 0) rounds 1
        ⟨mountedTree (.ext2fs 0),fun _ => none⟩=some ((),w')) ∧
      (∃ n node res, m.get (str "f")=some (some n) ∧
        smallVolume.HasStat sampleDisk w' 1 n ⟨3,12,1,str "f"⟩ node res) ∧
      ∀ name, name∈m.entries.map (fun x => x.key) ↔ ∃ r∈sampleRecords, r.Live ∧ r.name=name := by
  obtain ⟨w',m,hrun,-,-,hkeys,hchild,-⟩ := populate_children smallVolume sampleDisk (fun _ => 0) 0 1 256
    ⟨mountedTree (.ext2fs 0),fun _ => none⟩
    (FsTree.createNode (some (.ext2fs 0)) (some 0) [slash] (0o644 ||| sIfdir) 2) sampleRecords rfl
    (by decide) rfl sample_wellFormed
  exact ⟨w',m,hrun,hchild _ (List.mem_cons_of_mem _ List.mem_cons_self) (by decide),hkeys⟩

namespace Volume

variable (v : Volume) (disk : Mem)

def dirEntryOf (r : DirRecord) : DirEntry :=
  ⟨r.name,r.inodeidx.toNat,(v.inodeOf disk r.inodeidx).mode r.dirtype⟩

variable (device i : Nat)

theorem populateEntry_tree (r : DirRecord) (w : Ext2World) :
    (v.populateEntry (.ofDisk disk) device i r.header r.name w).map (fun x => x.2.tree)=
      (FsTree.populateEntry device i () (v.dirEntryOf disk r) w.tree).map (fun x => x.2) := by
  have hzero : (v.dirEntryOf disk r).inodeidx=0 ↔ r.header.inodeidx=0 :=
    ⟨fun h => BitVec.eq_of_toNat_eq h,fun h => congrArg BitVec.toNat h⟩
  have hsame : ((v.dirEntryOf disk r).inodeidx=0 ∨ (v.dirEntryOf disk r).name=str "." ∨
      (v.dirEntryOf disk r).name=str "..") ↔ (r.header.inodeidx=0 ∨ r.name=str "." ∨ r.name=str "..") :=
    or_congr_left hzero
  by_cases hskip : r.header.inodeidx=0 ∨ r.name=str "." ∨ r.name=str ".."
  · rw [Ext2fs.populateEntry,if_pos hskip,FsTree.populateEntry,if_pos (hsame.mpr hskip)]
    rfl
  · have hinode : lookup (v.inodereadentry (.ofDisk disk) r.header.inodeidx).toOption w=
        some (v.inodeOf disk r.inodeidx,w) := by
      rw [show r.header.inodeidx=r.inodeidx from rfl,v.inodereadentry_ofDisk]
      rfl
    rw [Ext2fs.populateEntry,if_neg hskip,FsTree.populateEntry,if_neg (fun h => hskip (hsame.mp h)),
      Ext2fs.addChild,bind_of_returns hinode]
    exact Option.map_map _ _ _

theorem addRecords_tree (rs : List DirRecord) (w : Ext2World) :
    (v.addRecords (.ofDisk disk) device i rs w).map (fun x => x.2.tree)=
      ((rs.map (v.dirEntryOf disk)).foldlM (FsTree.populateEntry device i) () w.tree).map (fun x => x.2) := by
  induction rs generalizing w with
  | nil => rfl
  | cons r rs ih =>
    have hfirst := v.populateEntry_tree disk device i r w
    rw [Ext2fs.addRecords,List.map_cons,List.foldlM_cons]
    cases hr : v.populateEntry (.ofDisk disk) device i r.header r.name w with
    | none =>
      rw [hr] at hfirst
      rw [bind_of_none hr,bind_of_none (Option.map_eq_none_iff.mp hfirst.symm)]
      rfl
    | some x =>
      rw [hr] at hfirst
      obtain ⟨⟨⟨⟩,t⟩,ht,htree⟩ := Option.map_eq_some_iff.mp hfirst.symm
      obtain rfl : t=x.2.tree := htree
      rw [bind_of_returns hr,bind_of_returns ht]
      exact ih x.2

variable {v disk device i}

/-- On the tree it is what ext2fs_populate does with the list of these entries. -/
theorem ext2fsPopulate_tree {rounds : Nat} {w : Ext2World} {dir : FsNode} {records : List DirRecord}
    (heap : Mem) (hdir : w.tree.nodes[i]?=some dir)
    (hwf : v.WellFormedDir disk (v.inodeOf disk (BitVec.ofNat 32 dir.ino)) records)
    (hrounds : records.length < rounds) :
    (v.ext2fsPopulate (.ofDisk disk) device heap rounds i w).map (fun x => x.2.tree)=
      (FsTree.ext2fsPopulate (fun _ _ => records.map (v.dirEntryOf disk)) device i w.tree).map
        (fun x => x.2) := by
  have hnode : FsTree.node i w.tree=some (dir,w.tree) := by
    rw [FsTree.node,FsTree.read,hdir]
    rfl
  have hrecords := v.addRecords_tree disk device i records w
  rw [ext2fsPopulate_eq heap hdir hwf hrounds,FsTree.ext2fsPopulate,bind_of_returns hnode]
  cases hr : v.addRecords (.ofDisk disk) device i records w with
  | none =>
    rw [hr] at hrecords
    rw [bind_of_none hr,bind_of_none (Option.map_eq_none_iff.mp hrecords.symm)]
    rfl
  | some x =>
    rw [hr] at hrecords
    obtain ⟨⟨⟨⟩,t⟩,ht,htree⟩ := Option.map_eq_some_iff.mp hrecords.symm
    obtain rfl : t=x.2.tree := htree
    rw [bind_of_returns hr,bind_of_returns ht]
    exact Option.map_map _ _ _

end Volume

theorem ext2fsPopulate_tree_sample :
    (smallVolume.ext2fsPopulate (.ofDisk sampleDisk) 0 (fun _ => 0) 3 1
      ⟨mountedTree (.ext2fs 0),fun _ => none⟩).map (fun x => x.2.tree)=
    (FsTree.ext2fsPopulate (fun _ _ => sampleRecords.map (smallVolume.dirEntryOf sampleDisk)) 0 1
      (mountedTree (.ext2fs 0))).map (fun x => x.2) :=
  Volume.ext2fsPopulate_tree _ rfl sample_wellFormed (by decide)

end X64OS.Fs
