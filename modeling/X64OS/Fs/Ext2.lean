import X64OS.Framework.ByteMemory
import X64OS.Framework.Checked
import X64OS.Framework.Overlay
import X64OS.Framework.Words

namespace X64OS.Fs

open Framework

/-- The read callback of a block device: for a position and a count what it returns, and the
bytes that it puts into the buffer. -/
structure Backing where
  read : Nat → Nat → Int × List (BitVec 8)

namespace Backing

def ofDisk (disk : Mem) : Backing := ⟨fun loc count => (count,window disk loc count)⟩

def load (dev : Backing) (loc n : Nat) : Int × Mem :=
  ((dev.read loc n).1,overlay (fun _ => 0) 0 (dev.read loc n).2)

def load32 (dev : Backing) (loc : Nat) : BitVec 32 := (dev.load loc 4).2.read32 0

theorem ofDisk_read (disk : Mem) (loc count : Nat) :
    (ofDisk disk).read loc count=(↑count,window disk loc count) := rfl

theorem ofDisk_load (disk : Mem) (loc n : Nat) {k : Nat} (hk : k < n) :
    ((ofDisk disk).load loc n).2 k=disk (loc+k) := by
  rw [load,ofDisk]
  dsimp only
  rw [overlay_window,if_pos (by omega)]
  rfl

variable (disk : Mem) (loc : Nat)

theorem ofDisk_readBytes {n a len : Nat} (h : a+len ≤ n) :
    Mem.readBytes ((ofDisk disk).load loc n).2 a len=Mem.readBytes disk (loc+a) len := by
  apply Mem.readBytes_eq
  intro i hi
  rw [ofDisk_load disk loc n (by omega),Nat.add_assoc]

theorem ofDisk_read16 {n a : Nat} (h : a+2 ≤ n) :
    ((ofDisk disk).load loc n).2.read16 a=disk.read16 (loc+a) := by
  rw [Mem.read16,Mem.read16,ofDisk_readBytes disk loc h]

theorem ofDisk_read32 {n a : Nat} (h : a+4 ≤ n) :
    ((ofDisk disk).load loc n).2.read32 a=disk.read32 (loc+a) := by
  rw [Mem.read32,Mem.read32,ofDisk_readBytes disk loc h]

@[simp] theorem ofDisk_load32 : (ofDisk disk).load32 loc=disk.read32 loc := by
  rw [load32,ofDisk_read32 disk loc le_rfl,Nat.add_zero]

end Backing

/-- The entries of an inode for blocks and tables. -/
instance instNeZeroEntries : NeZero 15 := ⟨by decide⟩

/-- What the code uses of struct ext2fs_inode. -/
structure Ext2Inode where
  perms : BitVec 16
  uid : BitVec 16
  sizelo : BitVec 32
  accesstime : BitVec 32
  creationtime : BitVec 32
  modifiedtime : BitVec 32
  gid : BitVec 16
  hardlinkcnt : BitVec 16
  blocks : Fin 15 → BitVec 32
  sizehi : BitVec 32

namespace Ext2Inode

def ofBytes (m : Mem) (a : Nat) : Ext2Inode where
  perms := m.read16 a
  uid := m.read16 (a+2)
  sizelo := m.read32 (a+4)
  accesstime := m.read32 (a+8)
  creationtime := m.read32 (a+12)
  modifiedtime := m.read32 (a+16)
  gid := m.read16 (a+24)
  hardlinkcnt := m.read16 (a+26)
  blocks := fun i => m.read32 (a+(40+4*i.val))
  sizehi := m.read32 (a+108)

def inodesize (inode : Ext2Inode) : Nat := inode.sizelo.toNat ||| inode.sizehi.toNat <<< 32

theorem inodesize_eq (inode : Ext2Inode) :
    inode.inodesize=inode.sizelo.toNat+2^32*inode.sizehi.toNat := by
  rw [inodesize,Nat.or_comm,← Nat.shiftLeft_add_eq_or_of_lt inode.sizelo.isLt,Nat.shiftLeft_eq]
  omega

theorem inodesize_lt (inode : Ext2Inode) : inode.inodesize < 2^64 := by
  have h1 := inode.sizelo.isLt
  have h2 := inode.sizehi.isLt
  rw [inodesize_eq]
  omega

theorem ofDisk_ofBytes (disk : Mem) (loc : Nat) :
    ofBytes ((Backing.ofDisk disk).load loc 128).2 0=ofBytes disk loc := by
  have h16 {a : Nat} := Backing.ofDisk_read16 disk loc (n := 128) (a := a)
  have h32 {a : Nat} := Backing.ofDisk_read32 disk loc (n := 128) (a := a)
  rw [ofBytes,ofBytes,mk.injEq]
  refine ⟨h16 (by decide),h16 (by decide),h32 (by decide),h32 (by decide),h32 (by decide),
    h32 (by decide),h16 (by decide),h16 (by decide),?_,h32 (by decide)⟩
  funext i
  rw [Nat.zero_add]
  exact h32 (by omega)

end Ext2Inode

/-- What the lookups use of struct ext2fs and its superblock. -/
structure Ext2fs where
  blksize : Nat
  inodespergroup : BitVec 32
  inodesize : BitVec 16

namespace Ext2fs

variable (dev : Backing) (fs : Ext2fs)

def bgdOff : Except Fault Nat :=
  if 2048 ≤ fs.blksize then .ok fs.blksize else Checked.mul 64 fs.blksize 2

/-- ext2fs_bgdreadentry, for the inodetable of the entry. ret is an int. -/
def bgdreadentry (idx : Nat) : Except Fault (BitVec 32) := do
  let off ← fs.bgdOff
  let entry ← Checked.mul 64 32 idx
  let x := dev.load (add64 off entry) 32
  if x.1%2^32=0 then .error .halted else pure (x.2.read32 8)

def inodereadentry (inodeidx : BitVec 32) : Except Fault Ext2Inode := do
  let tableidx ← Checked.mod (inodeidx-1).toNat fs.inodespergroup.toNat
  let bgdidx ← Checked.div (inodeidx-1).toNat fs.inodespergroup.toNat
  let inodetable ← fs.bgdreadentry dev bgdidx
  let table ← Checked.mul 64 inodetable.toNat fs.blksize
  let entry ← Checked.mul 64 fs.inodesize.toNat tableidx
  let x := dev.load (add64 table entry) 128
  if x.1%2^32=0 then .error .halted else pure (Ext2Inode.ofBytes x.2 0)

/-- ext2fs_inodegetblock. The variables of 32 bits wrap, the positions do not. -/
def inodegetblock (inode : Ext2Inode) (iblock : BitVec 32) : BitVec 32 :=
  let blocklvl := BitVec.ofNat 32 (fs.blksize/4)
  if h : iblock.toNat < 12 then inode.blocks ⟨iblock.toNat,by omega⟩
  else
    let iblock := iblock-12
    if blocklvl ≤ iblock then
      let iblock := iblock-blocklvl
      let singleidx := iblock/blocklvl
      let indirectoff := iblock%blocklvl
      if blocklvl ≤ singleidx then
        let iblock := iblock-blocklvl*blocklvl
        let doubleindirect := iblock/blocklvl
        let indirectoff := iblock%blocklvl
        let singleindirectidx := dev.load32 ((inode.blocks 14).toNat*fs.blksize+(doubleindirect*4).toNat)
        let indirectblock := dev.load32 (doubleindirect.toNat*fs.blksize+(singleindirectidx*4).toNat)
        dev.load32 (indirectblock.toNat*fs.blksize+indirectoff.toNat*4)
      else
        let indirectblock := dev.load32 ((inode.blocks 13).toNat*fs.blksize+(singleidx*4).toNat)
        dev.load32 (indirectblock.toNat*fs.blksize+indirectoff.toNat*4)
    else dev.load32 ((inode.blocks 12).toNat*fs.blksize+(iblock*4).toNat)

/-- The loop of ext2fs_inoderead, for at most so many rounds: what it returns and the buffer.
In each round off becomes the offset in the block. -/
def inodereadLoop (inode : Ext2Inode) (count : Nat) :
    Nat → Nat → Nat → Mem → Option (Int × Mem)
  | 0,_,_,_ => none
  | n+1,head,off,buf =>
    if head < count then
      let iblock := add64 off head/fs.blksize
      let off := add64 off head%fs.blksize
      let size := min (count-head) (fs.blksize-off)
      let block := fs.inodegetblock dev inode (BitVec.ofNat 32 iblock)
      let x := dev.read (block.toNat*fs.blksize+off) size
      let buf := overlay buf head x.2
      if x.1= -1 then some (-1,buf) else inodereadLoop inode count n (head+size) off buf
    else some (offT count,buf)

def inoderead (inode : Ext2Inode) (buf : Mem) (off count : Nat) : Option (Int × Mem) :=
  if offT inode.inodesize < off then some (0,buf)
  else
    let count := if inode.inodesize < add64 off count then sub64 inode.inodesize off else count
    fs.inodereadLoop dev inode count (count+1) 0 off buf

/-- ext2fs_resread on the file of an inode, whose resource says that it has st_size bytes; there
is no result if the kernel stops. -/
def resread (inodeidx : BitVec 32) (stSize : Nat) (buf : Mem) (loc count : Nat) : Option (Int × Mem) :=
  match fs.inodereadentry dev inodeidx with
  | .error _ => none
  | .ok curinode =>
    let count :=
      if offT stSize < offT (add64 loc count) then
        sub64 count (sub64 (add64 loc count) stSize)
      else count
    fs.inoderead dev curinode buf loc count

end Ext2fs

/-- A filesystem as mount leaves it where its arithmetic is defined: 1024 << blksize is an int,
and there are inodes in a group. -/
structure Volume extends Ext2fs where
  log : Nat
  log_le : log ≤ 20
  blksize_eq : blksize=1024*2^log
  groups : inodespergroup≠0

namespace Volume

variable (v : Volume)

theorem blksize_le : v.blksize ≤ 2^30 := by
  have h : 2^v.log ≤ 2^20 := Nat.pow_le_pow_right (by decide) v.log_le
  rw [v.blksize_eq]
  omega

theorem le_blksize : 1024 ≤ v.blksize := by
  have h := Nat.two_pow_pos v.log
  rw [v.blksize_eq]
  omega

/-- The number of entries of a table of blocks. -/
def blocklvl : Nat := v.blksize/4

theorem blksize_blocklvl : v.blksize=4*v.blocklvl := by
  rw [blocklvl,v.blksize_eq]
  omega

theorem le_blocklvl : 256 ≤ v.blocklvl := by
  have h := v.le_blksize
  rw [blocklvl]
  omega

theorem blocklvl_le : v.blocklvl ≤ 2^28 := by
  have h := v.blksize_le
  rw [blocklvl]
  omega

def inodeLoc (disk : Mem) (inodeidx : BitVec 32) : Nat :=
  (disk.read32 ((if 2048 ≤ v.blksize then v.blksize else v.blksize*2)+
      32*((inodeidx-1).toNat/v.inodespergroup.toNat)+8)).toNat*v.blksize+
    v.inodesize.toNat*((inodeidx-1).toNat%v.inodespergroup.toNat)

def inodeOf (disk : Mem) (inodeidx : BitVec 32) : Ext2Inode := Ext2Inode.ofBytes disk (v.inodeLoc disk inodeidx)

theorem bgdreadentry_ofDisk (disk : Mem) {idx : Nat} (hidx : idx < 2^32) :
    v.bgdreadentry (.ofDisk disk) idx=
      .ok (disk.read32 ((if 2048 ≤ v.blksize then v.blksize else v.blksize*2)+32*idx+8)) := by
  have h1 := v.blksize_le
  have hoff : v.bgdOff=.ok (if 2048 ≤ v.blksize then v.blksize else v.blksize*2) := by
    rw [Ext2fs.bgdOff]
    split
    · rfl
    · exact Checked.mul_eq (by omega)
  generalize hoff' : (if 2048 ≤ v.blksize then v.blksize else v.blksize*2)=off at hoff ⊢
  have hlt : off ≤ 2^31 := by
    split at hoff' <;> omega
  have hword : ((Backing.ofDisk disk).load (off+32*idx) 32).2.read32 8=disk.read32 (off+32*idx+8) := by
    rw [Mem.read32,Mem.read32,Backing.ofDisk_readBytes disk _ (by decide)]
  rw [Ext2fs.bgdreadentry,hoff,ok_bind,Checked.mul_eq (by omega),ok_bind,add64_eq (by omega)]
  dsimp only
  rw [hword]
  exact if_neg (show ¬((32 : Nat) : Int)%2^32=0 by decide)

theorem inodereadentry_ofDisk (disk : Mem) (inodeidx : BitVec 32) :
    v.inodereadentry (.ofDisk disk) inodeidx=.ok (v.inodeOf disk inodeidx) := by
  have hgroups : v.inodespergroup.toNat≠0 := fun h => v.groups (BitVec.eq_of_toNat_eq h)
  have hidx := (inodeidx-1).isLt
  have hbgd : (inodeidx-1).toNat/v.inodespergroup.toNat < 2^32 :=
    Nat.lt_of_le_of_lt (Nat.div_le_self _ _) hidx
  have hmod : (inodeidx-1).toNat%v.inodespergroup.toNat ≤ 2^32 :=
    Nat.le_trans (Nat.mod_le _ _) (Nat.le_of_lt hidx)
  have hentry : v.inodesize.toNat*((inodeidx-1).toNat%v.inodespergroup.toNat) ≤ 2^16*2^32 :=
    Nat.mul_le_mul (Nat.le_of_lt v.inodesize.isLt) hmod
  rw [inodeOf,inodeLoc,Ext2fs.inodereadentry,Checked.mod_eq hgroups,ok_bind,Checked.div_eq hgroups,ok_bind,
    v.bgdreadentry_ofDisk disk hbgd,ok_bind]
  generalize disk.read32 _=inodetable
  have htable : inodetable.toNat*v.blksize ≤ 2^32*2^30 :=
    Nat.mul_le_mul (Nat.le_of_lt inodetable.isLt) v.blksize_le
  rw [Checked.mul_eq (by omega),ok_bind,Checked.mul_eq (by omega),ok_bind,add64_eq (by omega)]
  dsimp only
  rw [Ext2Inode.ofDisk_ofBytes]
  exact if_neg (show ¬((128 : Nat) : Int)%2^32=0 by decide)

end Volume

end X64OS.Fs
