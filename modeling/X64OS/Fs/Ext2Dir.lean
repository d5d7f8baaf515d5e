import X64OS.Fs.Ext2Read
import X64OS.Fs.FsTree

namespace X64OS.Fs

open Framework Function

def sIfchr : Nat := 0o020000

def sIfblk : Nat := 0o060000

def sIfifo : Nat := 0o010000

def sIfsock : Nat := 0o140000

/-- struct ext2fs_direntry, without the name. -/
structure Direntry where
  inodeidx : BitVec 32
  entsize : BitVec 16
  namelen : BitVec 8
  dirtype : BitVec 8

def direntryAt (buf : Mem) (i : Nat) : Direntry := ⟨buf.read32 i,buf.read16 (i+4),buf (i+6),buf (i+7)⟩

def strncpy (src : Mem) (a : Nat) : Nat → Str
  | 0 => []
  | n+1 => if src a=0 then [] else src a::strncpy src (a+1) n

/-- The number of bytes that it reads: it stops at a NUL. -/
def strncpyReads (src : Mem) (a : Nat) : Nat → Nat
  | 0 => 0
  | n+1 => if src a=0 then 1 else strncpyReads src (a+1) n+1

def namebuf (buf : Mem) (i : Nat) : Str := strncpy buf (i+8) (direntryAt buf i).namelen.toNat

def fileType (dirtype : BitVec 8) : Nat :=
  if dirtype=1 then sIfreg
  else if dirtype=2 then sIfdir
  else if dirtype=3 then sIfchr
  else if dirtype=4 then sIfblk
  else if dirtype=5 then sIfifo
  else if dirtype=6 then sIfsock
  else sIflnk

/-- What ext2fs_populate sets of a struct ext2fs_resource; the times are in seconds. -/
structure Ext2Resource where
  canMmap : Bool
  refcount : Nat
  stUid : Nat
  stGid : Nat
  stMode : Nat
  stIno : Nat
  stSize : Nat
  stNlink : Nat
  stBlksize : Nat
  stBlocks : Nat
  stAtim : Nat
  stCtim : Nat
  stMtim : Nat

/-- The tree of nodes, with the resources of those of an ext2fs. -/
structure Ext2World where
  tree : FsTree
  resources : Nat → Option Ext2Resource

abbrev Ext2M := StateT Ext2World Option

def onTree {α : Type} (m : TreeM α) : Ext2M α :=
  fun w => (m w.tree).map (fun x => (x.1,{ w with tree := x.2 }))

def lookup {α : Type} (o : Option α) : Ext2M α := fun w => o.map (fun a => (a,w))

def setResource (n : Nat) (r : Ext2Resource) : Ext2M Unit :=
  fun w => some ((),{ w with resources := update w.resources n (some r) })

def Ext2Inode.mode (inode : Ext2Inode) (dirtype : BitVec 8) : Nat :=
  (inode.perms &&& 0xfff).toNat ||| fileType dirtype

namespace Ext2fs

variable (dev : Backing) (fs : Ext2fs) (device : Nat)

def resourceOf (inode : Ext2Inode) (e : Direntry) : Ext2Resource where
  canMmap := sIsreg (inode.mode e.dirtype)
  refcount := 1
  stUid := inode.uid.toNat
  stGid := inode.gid.toNat
  stMode := inode.mode e.dirtype
  stIno := e.inodeidx.toNat
  stSize := inode.inodesize
  stNlink := inode.hardlinkcnt.toNat
  stBlksize := fs.blksize
  stBlocks := inode.inodesize/fs.blksize
  stAtim := inode.accesstime.toNat
  stCtim := inode.creationtime.toNat
  stMtim := inode.modifiedtime.toNat

/-- The node and the resource of an entry with this name, which becomes a child of node i. -/
def addChild (i : Nat) (e : Direntry) (name : Str) : Ext2M Unit := do
  let inode ← lookup (fs.inodereadentry dev e.inodeidx).toOption
  let n ← onTree (FsTree.addNode (FsTree.createNode (some (.ext2fs device)) (some i) name
    (inode.mode e.dirtype) e.inodeidx.toNat))
  setResource n (fs.resourceOf inode e)
  onTree (FsTree.insertChild i name (some n))

def populateEntry (i : Nat) (e : Direntry) (name : Str) : Ext2M Unit :=
  if e.inodeidx=0 ∨ name=str "." ∨ name=str ".." then pure () else fs.addChild dev device i e name

def populateLoop (i : Nat) (buf : Mem) (size : Nat) : Nat → Nat → Ext2M Unit
  | 0,_ => lookup none
  | n+1,pos =>
    if pos < size then do
      fs.populateEntry dev device i (direntryAt buf pos) (namebuf buf pos)
      populateLoop i buf size n (add64 pos (direntryAt buf pos).entsize.toNat)
    else pure ()

/-- The buffer of ext2fs_populate: what malloc returns is zeroed, other things are behind it. -/
def dirBuffer (parent : Ext2Inode) (heap : Mem) : Option Mem :=
  (fs.inoderead dev parent (fun k => if k < parent.inodesize then 0 else heap k) 0
    parent.inodesize).map (fun x => x.2)

def ext2fsPopulate (heap : Mem) (rounds i : Nat) : Ext2M Unit := do
  let node ← onTree (FsTree.node i)
  let parent ← lookup (fs.inodereadentry dev (BitVec.ofNat 32 node.ino)).toOption
  let buf ← lookup (fs.dirBuffer dev parent heap)
  fs.populateLoop dev device i buf parent.inodesize rounds 0
  onTree (FsTree.setPopulated i)

end Ext2fs

/-- The offsets in the buffer that one round of the loop reads: namelen, the name, the inode
number, the type if there is a node to make, and entsize. -/
def direntryReads (buf : Mem) (pos : Nat) : List Nat :=
  let e := direntryAt buf pos
  [pos+6]++(List.range (strncpyReads buf (pos+8) e.namelen.toNat)).map (fun j => pos+8+j)++
    [pos,pos+1,pos+2,pos+3]++
    (if e.inodeidx=0 ∨ namebuf buf pos=str "." ∨ namebuf buf pos=str ".." then [] else [pos+7])++
    [pos+4,pos+5]

def scan (buf : Mem) (size : Nat) : Nat → Nat → Option (List Nat)
  | 0,_ => none
  | n+1,pos =>
    if pos < size then
      (scan buf size n (add64 pos (direntryAt buf pos).entsize.toNat)).map (fun reads =>
        direntryReads buf pos++reads)
    else some []

theorem length_strncpy_le (src : Mem) (a n : Nat) : (strncpy src a n).length ≤ n := by
  induction n generalizing a with
  | zero => exact Nat.le_refl 0
  | succ n ih =>
    rw [strncpy]
    split
    · exact Nat.zero_le _
    · exact Nat.succ_le_succ (ih (a+1))

theorem length_namebuf (buf : Mem) (pos : Nat) : (namebuf buf pos).length ≤ hashmapKeyDataMax := by
  have hle := length_strncpy_le buf (pos+8) (direntryAt buf pos).namelen.toNat
  have hbyte := (direntryAt buf pos).namelen.isLt
  rw [namebuf,hashmapKeyDataMax]
  omega

variable {n : Nat}

namespace Volume

variable (v : Volume) (disk : Mem) (device i : Nat)

def childOf (e : Direntry) (name : Str) : FsNode :=
  FsTree.createNode (some (.ext2fs device)) (some i) name
    ((v.inodeOf disk e.inodeidx).mode e.dirtype) e.inodeidx.toNat

variable {v disk device i}
variable {dir : FsNode} {w : Ext2World}

theorem addChild_ofDisk {m : HashMap (Option Nat)} (e : Direntry) (name : Str)
    (hdir : w.tree.nodes[i]?=some dir)
    (hins : dir.children.insert name (some w.tree.nodes.length)=some m) :
    v.addChild (.ofDisk disk) device i e name w=
      some ((),⟨{ w.tree with nodes :=
          (w.tree.nodes++[v.childOf disk device i e name]).set i { dir with children := m } },
        update w.resources w.tree.nodes.length
          (some (v.resourceOf (v.inodeOf disk e.inodeidx) e))⟩) := by
  have hi : i < w.tree.nodes.length := (List.getElem?_eq_some_iff.mp hdir).1
  have hinode : lookup (v.inodereadentry (.ofDisk disk) e.inodeidx).toOption w=
      some (v.inodeOf disk e.inodeidx,w) := by
    rw [v.inodereadentry_ofDisk]
    rfl
  have hchild : FsTree.insertChild i name (some w.tree.nodes.length)
      { w.tree with nodes := w.tree.nodes++[v.childOf disk device i e name] }=
        some ((),{ w.tree with nodes :=
          (w.tree.nodes++[v.childOf disk device i e name]).set i { dir with children := m } }) := by
    rw [FsTree.insertChild]
    dsimp only
    rw [List.getElem?_append_left hi,hdir,Option.bind_some,hins]
    rfl
  rw [Ext2fs.addChild,bind_of_returns hinode]
  exact congrArg (Option.map (fun x : Unit × FsTree => (x.1,(⟨x.2,update w.resources
    w.tree.nodes.length (some (v.resourceOf (v.inodeOf disk e.inodeidx) e))⟩ : Ext2World)))) hchild

theorem populateEntry_returns (e : Direntry) {name : Str} (hdir : w.tree.nodes[i]?=some dir)
    (hcap : dir.children.cap≠0) (hname : name.length ≤ hashmapKeyDataMax) :
    ∃ w' dir', v.populateEntry (.ofDisk disk) device i e name w=some ((),w') ∧
      w'.tree.nodes[i]?=some dir' ∧ dir'.children.cap≠0 := by
  rw [Ext2fs.populateEntry]
  split
  · exact ⟨w,dir,rfl,hdir,hcap⟩
  · have hi : i < w.tree.nodes.length := (List.getElem?_eq_some_iff.mp hdir).1
    obtain ⟨m,hins⟩ : ∃ m, dir.children.insert name (some w.tree.nodes.length)=some m :=
      HashMap.insert_isSome hcap hname
    obtain ⟨-,-,hsame,-⟩ := HashMap.insert_some hins
    refine ⟨_,{ dir with children := m },addChild_ofDisk e name hdir hins,?_,?_⟩
    · exact List.getElem?_set_self (by rw [List.length_append]; omega)
    · rw [← hsame] at hcap
      exact hcap

/-- The loop returns exactly if the scan ends: nothing else in a round can fail. -/
theorem populateLoop_returns_iff {buf : Mem} {size pos : Nat} (hdir : w.tree.nodes[i]?=some dir)
    (hcap : dir.children.cap≠0) :
    (∃ w', v.populateLoop (.ofDisk disk) device i buf size n pos w=some ((),w')) ↔
      ∃ reads, scan buf size n pos=some reads := by
  induction n generalizing pos w dir with
  | zero => exact ⟨fun ⟨_,h⟩ => (nomatch h),fun ⟨_,h⟩ => (nomatch h)⟩
  | succ n ih =>
    rw [scan,Ext2fs.populateLoop]
    split
    · obtain ⟨w₁,dir₁,hround,hdir₁,hcap₁⟩ : ∃ w₁ dir₁, v.populateEntry (.ofDisk disk) device i
          (direntryAt buf pos) (namebuf buf pos) w=some ((),w₁) ∧
          w₁.tree.nodes[i]?=some dir₁ ∧ dir₁.children.cap≠0 :=
        populateEntry_returns (direntryAt buf pos) hdir hcap (length_namebuf buf pos)
      rw [bind_of_returns hround,ih hdir₁ hcap₁]
      exact ⟨fun ⟨reads,h⟩ => ⟨_,by rw [h]; rfl⟩,fun ⟨_,h⟩ =>
        (Option.map_eq_some_iff.mp h).imp (fun _ hr => hr.1)⟩
    · exact ⟨fun _ => ⟨_,rfl⟩,fun _ => ⟨_,rfl⟩⟩

end Volume

def recordEnd (buf : Mem) (pos : Nat) : Nat :=
  let e := direntryAt buf pos
  let n := strncpyReads buf (pos+8) e.namelen.toNat
  if e.inodeidx=0 ∧ n=0 then pos+7 else pos+8+n

theorem strncpy_of_reads {src : Mem} {a : Nat} (h : strncpyReads src a n=0) :
    strncpy src a n=[] := by
  cases n with
  | zero => rfl
  | succ n =>
    rw [strncpyReads] at h
    split at h <;> omega

/-- A node is made for an entry that is in use and is not one of the two that every directory has. -/
def makesNode (buf : Mem) (pos : Nat) : Prop :=
  ¬((direntryAt buf pos).inodeidx=0 ∨ namebuf buf pos=str "." ∨ namebuf buf pos=str "..")

theorem mem_direntryReads (buf : Mem) (pos a : Nat) :
    a∈direntryReads buf pos ↔ (pos ≤ a ∧ a < pos+7) ∨ (a=pos+7 ∧ makesNode buf pos) ∨
      (pos+8 ≤ a ∧ a < pos+8+strncpyReads buf (pos+8) (direntryAt buf pos).namelen.toNat) := by
  rw [direntryReads]
  generalize strncpyReads buf (pos+8) (direntryAt buf pos).namelen.toNat=n
  have hname : a∈(List.range n).map (fun j => pos+8+j) ↔ pos+8 ≤ a ∧ a < pos+8+n := by
    rw [List.mem_map]
    constructor
    · rintro ⟨j,hj,rfl⟩
      rw [List.mem_range] at hj
      omega
    · intro h
      exact ⟨a-(pos+8),List.mem_range.mpr (by omega),by omega⟩
  by_cases hnode : (direntryAt buf pos).inodeidx=0 ∨ namebuf buf pos=str "." ∨ namebuf buf pos=str ".."
  · rw [if_pos hnode]
    simp only [List.mem_append,hname,List.mem_cons,List.not_mem_nil,or_false,makesNode,hnode,not_true,
      and_false,false_or]
    omega
  · rw [if_neg hnode]
    simp only [List.mem_append,hname,List.mem_cons,List.not_mem_nil,or_false,makesNode,hnode,not_false_eq_true,
      and_true]
    omega

theorem direntryReads_lt_iff (buf : Mem) (pos size : Nat) :
    (∀ a∈direntryReads buf pos, a < size) ↔ recordEnd buf pos ≤ size := by
  simp only [mem_direntryReads]
  have hend : recordEnd buf pos=if (direntryAt buf pos).inodeidx=0 ∧
      strncpyReads buf (pos+8) (direntryAt buf pos).namelen.toNat=0 then pos+7
      else pos+8+strncpyReads buf (pos+8) (direntryAt buf pos).namelen.toNat := rfl
  have hnode : (direntryAt buf pos).inodeidx≠0 →
      strncpyReads buf (pos+8) (direntryAt buf pos).namelen.toNat=0 → makesNode buf pos := by
    intro hin hzero
    have hempty : namebuf buf pos=[] := by rw [namebuf,strncpy_of_reads hzero]
    rw [makesNode,hempty]
    rintro (h | h | h)
    · exact hin h
    · exact absurd h (by decide)
    · exact absurd h (by decide)
  have hused : makesNode buf pos → (direntryAt buf pos).inodeidx≠0 := fun h hin => h (.inl hin)
  rw [hend]
  generalize strncpyReads buf (pos+8) (direntryAt buf pos).namelen.toNat=n at hnode
  constructor
  · intro h
    have h6 := h (pos+6) (by omega)
    split
    · omega
    · rename_i hlive
      by_cases hzero : n=0
      · have h7 := h (pos+7) (.inr (.inl ⟨rfl,hnode (fun hin => hlive ⟨hin,hzero⟩) hzero⟩))
        omega
      · have hlast := h (pos+8+(n-1)) (by omega)
        omega
  · intro h a ha
    split at h
    · rename_i hnone
      obtain hhead | ⟨-,hmade⟩ | hname := ha
      · omega
      · exact absurd hnone.1 (hused hmade)
      · omega
    · omega

/-- Entries up to the end of the directory: what is read of each lies in it, and each has a size. -/
inductive DirChain (data : Mem) (size : Nat) : Nat → Prop where
  | done {pos : Nat} (h : size ≤ pos) : DirChain data size pos
  | next {pos : Nat} (h : pos < size) (hend : recordEnd data pos ≤ size)
      (hsize : (direntryAt data pos).entsize≠0)
      (hrest : DirChain data size (pos+(direntryAt data pos).entsize.toNat)) : DirChain data size pos

section Chain

variable {buf data : Mem} {size pos : Nat}

theorem scan_stuck (hlt : pos < size) (hpos : pos < 2^64) (h : (direntryAt buf pos).entsize=0) (n : Nat) :
    scan buf size n pos=none := by
  induction n with
  | zero => rfl
  | succ n ih =>
    have hstep : add64 pos (0 : BitVec 16).toNat=pos := add64_eq hpos
    rw [scan,if_pos hlt,h,hstep,ih]
    rfl

theorem entsize_of_zero (h4 : buf 4=0) (h5 : buf 5=0) : (direntryAt buf 0).entsize=0 := by
  rw [direntryAt]
  dsimp only
  rw [Mem.read16]
  simp [Mem.readBytes,h4,h5]

theorem entsize_add64 (hlt : pos < size) (hsize : size < 2^63) :
    add64 pos (direntryAt buf pos).entsize.toNat=pos+(direntryAt buf pos).entsize.toNat := by
  have h := (direntryAt buf pos).entsize.isLt
  exact add64_eq (by omega)

theorem DirChain.of_scan (hsize : size < 2^63) {reads : List Nat}
    (h : scan buf size n pos=some reads) (hin : ∀ a∈reads, a < size) : DirChain buf size pos := by
  induction n generalizing pos reads with
  | zero => cases h
  | succ n ih =>
    by_cases hlt : pos < size
    · have hpos : (direntryAt buf pos).entsize≠0 := by
        intro hzero
        rw [scan_stuck hlt (by omega) hzero] at h
        cases h
      rw [scan,if_pos hlt,entsize_add64 hlt hsize,Option.map_eq_some_iff] at h
      obtain ⟨rest,hrest,rfl⟩ := h
      refine .next hlt ?_ hpos (ih hrest (fun a ha => hin a (List.mem_append_right _ ha)))
      exact (direntryReads_lt_iff buf pos size).mp (fun a ha => hin a (List.mem_append_left _ ha))
    · exact .done (Nat.not_lt.mp hlt)

theorem DirChain.scan (hsize : size < 2^63) (h : DirChain buf size pos) :
    ∃ n reads, scan buf size n pos=some reads ∧ ∀ a∈reads, a < size := by
  induction h with
  | done h => exact ⟨1,[],if_neg (Nat.not_lt.mpr h),fun a ha => absurd ha List.not_mem_nil⟩
  | next hlt hend _ _ ih =>
    rename_i pos _ _
    obtain ⟨n,reads,hreads,hin⟩ := ih
    refine ⟨n+1,direntryReads buf pos++reads,?_,?_⟩
    · rw [Fs.scan,if_pos hlt,entsize_add64 hlt hsize,hreads]
      rfl
    · intro a ha
      rcases List.mem_append.mp ha with hthis | hlater
      · exact (direntryReads_lt_iff buf pos size).mpr hend a hthis
      · exact hin a hlater

variable (h : ∀ k < size, buf k=data k)
include h

theorem strncpyReads_congr {a : Nat}
    (hend : strncpyReads buf a n=0 ∨ a+strncpyReads buf a n ≤ size) :
    strncpyReads data a n=strncpyReads buf a n := by
  induction n generalizing a with
  | zero => rfl
  | succ n ih =>
    have hpos : 0 < strncpyReads buf a (n+1) := by
      rw [strncpyReads]
      split <;> omega
    have hbyte := h a (by omega)
    rw [strncpyReads] at hend
    rw [strncpyReads,strncpyReads,← hbyte]
    split
    · rfl
    · rename_i hne
      rw [if_neg hne] at hend
      rw [ih (.inr (by omega))]

theorem recordEnd_congr (hend : recordEnd buf pos ≤ size) :
    recordEnd data pos=recordEnd buf pos ∧
      (direntryAt data pos).entsize=(direntryAt buf pos).entsize := by
  have hheader : pos+7 ≤ size := by
    rw [recordEnd] at hend
    split at hend <;> omega
  have hinode : (direntryAt data pos).inodeidx=(direntryAt buf pos).inodeidx := by
    rw [direntryAt,direntryAt]
    dsimp only
    rw [Mem.read32,Mem.read32,Mem.readBytes_eq (fun i hi => h (pos+i) (by omega))]
  have hentsize : (direntryAt data pos).entsize=(direntryAt buf pos).entsize := by
    rw [direntryAt,direntryAt]
    dsimp only
    rw [Mem.read16,Mem.read16,Mem.readBytes_eq (fun i hi => h (pos+4+i) (by omega))]
  have hnamelen : (direntryAt data pos).namelen=(direntryAt buf pos).namelen := (h _ (by omega)).symm
  refine ⟨?_,hentsize⟩
  rw [recordEnd] at hend ⊢
  rw [hinode,hnamelen,strncpyReads_congr h]
  · rfl
  · split at hend
    · rename_i hnone
      exact .inl hnone.2
    · exact .inr hend

theorem DirChain.congr (hc : DirChain buf size pos) : DirChain data size pos := by
  induction hc with
  | done hge => exact .done hge
  | next hlt hend hsize _ ih =>
    obtain ⟨hsame,hentsize⟩ := recordEnd_congr h hend
    refine .next hlt (by rw [hsame]; exact hend) (by rw [hentsize]; exact hsize) ?_
    rw [hentsize]
    exact ih

end Chain

namespace Volume

variable (v : Volume)

/-- The bytes of a directory as the buffer has them; nothing is read if the size is no off_t. -/
def dirData (disk : Mem) (inode : Ext2Inode) : Mem :=
  fun k => if inode.inodesize < 2^63 then v.fileByte disk inode k else 0

theorem dirBuffer_ofDisk (disk : Mem) (inode : Ext2Inode) (heap : Mem) : ∃ buf,
    v.dirBuffer (.ofDisk disk) inode heap=some buf ∧
      ∀ k < inode.inodesize, buf k=v.dirData disk inode k := by
  rw [Ext2fs.dirBuffer]
  by_cases hsize : inode.inodesize < 2^63
  · obtain ⟨buf,hread,hchunks⟩ := v.inoderead_chunks disk inode
      (fun k => if k < inode.inodesize then 0 else heap k) hsize (show 0 < 2^63 by decide)
      (show 0+inode.inodesize < 2^64 by omega)
    rw [Nat.sub_zero,Nat.min_self] at hread hchunks
    refine ⟨buf,by rw [hread]; rfl,?_⟩
    intro k hk
    have hbyte := hchunks.bytes (.inr ⟨by rw [Nat.zero_div,Nat.zero_mod],.inl (Nat.zero_mod _)⟩) k hk
    rw [hbyte,dirData,if_pos hsize,Nat.zero_add]
  · rw [inoderead_nothing (.inr (by omega)) (by decide)]
    refine ⟨_,rfl,?_⟩
    intro k hk
    rw [dirData,if_neg hsize]
    exact if_pos hk

end Volume

/-- The loop of ext2fs_populate ends, with all of its reads inside the buffer, exactly if there is a
chain of entries up to the end of the directory. -/
theorem populate_scan_iff (v : Volume) (disk : Mem) (inode : Ext2Inode) (heap : Mem) :
    (∃ buf n reads, v.dirBuffer (.ofDisk disk) inode heap=some buf ∧
      scan buf inode.inodesize n 0=some reads ∧ ∀ a∈reads, a < inode.inodesize) ↔
      DirChain (v.dirData disk inode) inode.inodesize 0 := by
  obtain ⟨buf,hbuf,hdata⟩ := v.dirBuffer_ofDisk disk inode heap
  by_cases hsize : inode.inodesize < 2^63
  · constructor
    · rintro ⟨_,n,reads,hbuf',hscan,hin⟩
      cases hbuf.symm.trans hbuf'
      exact (DirChain.of_scan hsize hscan hin).congr hdata
    · intro h
      obtain ⟨n,reads,hscan,hin⟩ := (h.congr (fun k hk => (hdata k hk).symm)).scan hsize
      exact ⟨buf,n,reads,hbuf,hscan,hin⟩
  · -- all bytes are 0, so the first entry has no size
    have hzero : ∀ k, v.dirData disk inode k=0 := fun k => if_neg hsize
    have hentsize : (direntryAt buf 0).entsize=0 :=
      entsize_of_zero ((hdata 4 (by omega)).trans (hzero 4)) ((hdata 5 (by omega)).trans (hzero 5))
    constructor
    · rintro ⟨_,n,reads,hbuf',hscan,-⟩
      cases hbuf.symm.trans hbuf'
      rw [scan_stuck (by omega) (by decide) hentsize] at hscan
      cases hscan
    · intro h
      cases h with
      | done hge => omega
      | next _ _ hne _ => exact absurd (entsize_of_zero (hzero 4) (hzero 5)) hne

/-- A directory of zeros, of one block: the loop does not leave its first entry. -/
theorem zero_directory_stuck : ∃ buf,
    smallVolume.dirBuffer (.ofDisk (fun _ => 0)) (.ofSize 1024 (fun _ => 1)) (fun _ => 0)=some buf ∧
      ∀ n, scan buf 1024 n 0=none := by
  obtain ⟨buf,hbuf,hdata⟩ := smallVolume.dirBuffer_ofDisk (fun _ => 0) (.ofSize 1024 (fun _ => 1)) (fun _ => 0)
  refine ⟨buf,hbuf,scan_stuck (by decide) (by decide) (entsize_of_zero ?_ ?_)⟩
  · exact hdata 4 (by decide)
  · exact hdata 5 (by decide)

end X64OS.Fs
