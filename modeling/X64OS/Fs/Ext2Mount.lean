import X64OS.Fs.Ext2Dir

namespace X64OS.Fs

open Framework

structure Superblock where
  blockcnt : BitVec 32
  blksize : BitVec 32
  fragsize : BitVec 32
  blockspergroup : BitVec 32
  inodespergroup : BitVec 32
  sig : BitVec 16
  vermaj : BitVec 32
  inodesize : BitVec 16
  deriving DecidableEq

namespace Superblock

def ofBytes (m : Mem) (a : Nat) : Superblock where
  blockcnt := m.read32 (a+4)
  blksize := m.read32 (a+24)
  fragsize := m.read32 (a+28)
  blockspergroup := m.read32 (a+32)
  inodespergroup := m.read32 (a+40)
  sig := m.read16 (a+56)
  vermaj := m.read32 (a+76)
  inodesize := m.read16 (a+88)

/-- The signature, and a major version of 1 or more. -/
def Supported (sb : Superblock) : Prop := sb.sig=0xef53 ∧ 1 ≤ sb.vermaj

instance (sb : Superblock) : Decidable sb.Supported := inferInstanceAs (Decidable (_ ∧ _))

/-- Sizes of blocks and fragments that are ints, and groups with blocks and inodes. -/
structure Sound (sb : Superblock) : Prop where
  blksize : sb.blksize.toNat ≤ 20
  fragsize : sb.fragsize.toNat ≤ 20
  blockspergroup : sb.blockspergroup≠0
  inodespergroup : sb.inodespergroup≠0

def volume (sb : Superblock) (h : sb.Sound) : Volume :=
  ⟨⟨1024*2^sb.blksize.toNat,sb.inodespergroup,sb.inodesize⟩,sb.blksize.toNat,h.blksize,rfl,h.inodespergroup⟩

theorem ofDisk_ofBytes (disk : Mem) (loc : Nat) :
    ofBytes ((Backing.ofDisk disk).load loc 200).2 0=ofBytes disk loc := by
  have h16 {a : Nat} := Backing.ofDisk_read16 disk loc (n := 200) (a := a)
  have h32 {a : Nat} := Backing.ofDisk_read32 disk loc (n := 200) (a := a)
  rw [ofBytes,ofBytes,mk.injEq]
  exact ⟨h32 (by decide),h32 (by decide),h32 (by decide),h32 (by decide),h32 (by decide),
    h16 (by decide),h32 (by decide),h16 (by decide)⟩

end Superblock

/-- The root node that ext2fs_mount returns: struct ext2fs, and the stat of its resource. -/
structure Mounted where
  sb : Superblock
  blksize : Nat
  fragsize : Nat
  bgdcnt : Nat
  root : Ext2Inode
  stSize : Nat
  stBlksize : Nat
  stBlocks : Nat
  stDev : Nat
  stMode : Nat
  stNlink : Nat
  stIno : Nat

/-- ext2fs_mount from a device with this st_blksize and st_rdev; none stands for NULL. A long
holds the product, an int the shifts. -/
def ext2fsMount (dev : Backing) (stBlksize stRdev : Nat) : Except Fault (Option Mounted) := do
  let loc ← Checked.mul 63 stBlksize 2
  let sb := Superblock.ofBytes (dev.load loc 200).2 0
  if sb.sig≠0xef53 then .ok none
  else if sb.vermaj < 1 then .ok none
  else do
    let blksize ← Checked.shiftLeft 31 1024 sb.blksize.toNat
    let fragsize ← Checked.shiftLeft 31 1024 sb.fragsize.toNat
    let bgdcnt ← Checked.div sb.blockcnt.toNat sb.blockspergroup.toNat
    let root ← Ext2fs.inodereadentry dev ⟨blksize,sb.inodespergroup,sb.inodesize⟩ 2
    let stSize := root.sizelo.toNat ||| root.sizehi.toNat >>> 32
    let stBlocks ← Checked.div stSize blksize
    .ok (some ⟨sb,blksize,fragsize,bgdcnt,root,stSize,blksize,stBlocks,stRdev,0o644 ||| sIfdir,
      root.hardlinkcnt.toNat,2⟩)

section Mount

variable {disk : Mem} {stBlksize : Nat} (stRdev : Nat)

theorem mount_unsupported (hloc : stBlksize*2 < 2^63)
    (h : ¬(Superblock.ofBytes disk (stBlksize*2)).Supported) :
    ext2fsMount (.ofDisk disk) stBlksize stRdev=.ok none := by
  rw [ext2fsMount,Checked.mul_eq hloc,ok_bind,Superblock.ofDisk_ofBytes]
  generalize Superblock.ofBytes disk (stBlksize*2)=sb at h
  by_cases hsig : sb.sig=0xef53
  · have hver : sb.vermaj < 1 := BitVec.not_le.mp (fun hle => h ⟨hsig,hle⟩)
    rw [if_neg (not_not.mpr hsig),if_pos hver]
  · rw [if_pos hsig]

theorem shift_lt_iff (n : Nat) : 1024*2^n < 2^31 ↔ n ≤ 20 := by
  rw [show (1024 : Nat)=2^10 from rfl,← Nat.pow_add,Nat.pow_lt_pow_iff_right (by decide)]
  omega

theorem mount_sound (hloc : stBlksize*2 < 2^63)
    (h : (Superblock.ofBytes disk (stBlksize*2)).Supported)
    (hsound : (Superblock.ofBytes disk (stBlksize*2)).Sound) :
    ∃ x, ext2fsMount (.ofDisk disk) stBlksize stRdev=.ok (some x) ∧
      x.sb=Superblock.ofBytes disk (stBlksize*2) ∧
      ∃ v : Volume, v.toExt2fs=⟨x.blksize,x.sb.inodespergroup,x.sb.inodesize⟩ ∧ x.root=v.inodeOf disk 2 := by
  rw [ext2fsMount,Checked.mul_eq hloc,ok_bind,Superblock.ofDisk_ofBytes]
  generalize Superblock.ofBytes disk (stBlksize*2)=sb at h hsound
  have hblk := hsound.blksize
  have hfrag := hsound.fragsize
  have hver : ¬sb.vermaj < 1 := BitVec.not_lt.mpr h.2
  have hgroups : sb.blockspergroup.toNat≠0 := fun hz => hsound.blockspergroup (BitVec.eq_of_toNat_eq hz)
  have hroot : Ext2fs.inodereadentry (.ofDisk disk) ⟨1024*2^sb.blksize.toNat,sb.inodespergroup,sb.inodesize⟩ 2=
      .ok ((sb.volume hsound).inodeOf disk 2) := (sb.volume hsound).inodereadentry_ofDisk disk 2
  have hpos : 1024*2^sb.blksize.toNat≠0 := by
    have := Nat.two_pow_pos sb.blksize.toNat
    omega
  dsimp only
  rw [if_neg (not_not.mpr h.1),if_neg hver,
    Checked.shiftLeft_eq (by omega) ((shift_lt_iff _).mpr hsound.blksize),ok_bind,
    Checked.shiftLeft_eq (by omega) ((shift_lt_iff _).mpr hsound.fragsize),ok_bind,Checked.div_eq hgroups,
    ok_bind,hroot,ok_bind,Checked.div_eq hpos,ok_bind]
  exact ⟨_,rfl,rfl,sb.volume hsound,rfl,rfl⟩

theorem mount_ok {stRdev : Nat} {r : Option Mounted} (h : ext2fsMount (.ofDisk disk) stBlksize stRdev=.ok r) :
    stBlksize*2 < 2^63 ∧ ((Superblock.ofBytes disk (stBlksize*2)).Supported →
      (Superblock.ofBytes disk (stBlksize*2)).Sound) := by
  obtain ⟨loc,hloc,h⟩ := bind_eq_ok h
  obtain ⟨hlt,rfl⟩ := Checked.lt_of_mul hloc
  refine ⟨hlt,?_⟩
  rw [Superblock.ofDisk_ofBytes] at h
  generalize Superblock.ofBytes disk (stBlksize*2)=sb at h
  intro hsupported
  dsimp only at h
  rw [if_neg (not_not.mpr hsupported.1),if_neg (BitVec.not_lt.mpr hsupported.2)] at h
  obtain ⟨blksize,hblk,h⟩ := bind_eq_ok h
  obtain ⟨fragsize,hfrag,h⟩ := bind_eq_ok h
  obtain ⟨bgdcnt,hbgd,h⟩ := bind_eq_ok h
  obtain ⟨root,hroot,-⟩ := bind_eq_ok h
  obtain ⟨tableidx,hmod,-⟩ := bind_eq_ok hroot
  refine ⟨(shift_lt_iff _).mp (Checked.lt_of_shiftLeft hblk).1,
    (shift_lt_iff _).mp (Checked.lt_of_shiftLeft hfrag).1,?_,?_⟩
  · intro hz
    exact Checked.ne_zero_of_div hbgd (congrArg BitVec.toNat hz)
  · intro hz
    exact Checked.ne_zero_of_mod hmod (congrArg BitVec.toNat hz)

end Mount

/-- ext2fs_mount stays in the range of its types and decides on the superblock at byte 1024 exactly
if the place where it looks for it can be computed, the one there is supported if that at byte 1024
is, and is then the same and sound. -/
theorem mount_iff (disk : Mem) (stBlksize stRdev : Nat) :
    (∃ r, ext2fsMount (.ofDisk disk) stBlksize stRdev=.ok r ∧
      r.map Mounted.sb=if (Superblock.ofBytes disk 1024).Supported then
        some (Superblock.ofBytes disk 1024) else none) ↔
    stBlksize*2 < 2^63 ∧
      ((Superblock.ofBytes disk (stBlksize*2)).Supported ↔ (Superblock.ofBytes disk 1024).Supported) ∧
      ((Superblock.ofBytes disk (stBlksize*2)).Supported →
        Superblock.ofBytes disk (stBlksize*2)=Superblock.ofBytes disk 1024 ∧
        (Superblock.ofBytes disk (stBlksize*2)).Sound) := by
  constructor
  · rintro ⟨r,hmount,hsb⟩
    obtain ⟨hloc,hsound⟩ := mount_ok hmount
    by_cases hsupported : (Superblock.ofBytes disk (stBlksize*2)).Supported
    · obtain ⟨x,hx,hxsb,-⟩ := mount_sound stRdev hloc hsupported (hsound hsupported)
      cases hmount.symm.trans hx
      split at hsb
      · rename_i hfirst
        exact ⟨hloc,iff_of_true hsupported hfirst,fun _ => ⟨hxsb.symm.trans (Option.some.inj hsb),
          hsound hsupported⟩⟩
      · cases hsb
    · cases hmount.symm.trans (mount_unsupported stRdev hloc hsupported)
      split at hsb
      · cases hsb
      · rename_i hfirst
        exact ⟨hloc,iff_of_false hsupported hfirst,fun h => absurd h hsupported⟩
  · rintro ⟨hloc,hsame,hright⟩
    by_cases hsupported : (Superblock.ofBytes disk (stBlksize*2)).Supported
    · obtain ⟨heq,hsound⟩ := hright hsupported
      obtain ⟨x,hx,hxsb,-⟩ := mount_sound stRdev hloc hsupported hsound
      refine ⟨some x,hx,?_⟩
      rw [if_pos (hsame.mp hsupported),← heq,← hxsb]
      rfl
    · refine ⟨none,mount_unsupported stRdev hloc hsupported,?_⟩
      rw [if_neg (fun h => hsupported (hsame.mpr h))]
      rfl

def emptySuperblock : Mem := fun a => if a=1080 then 0x53 else if a=1081 then 0xef else if a=1100 then 1 else 0

/-- On a device with blocks of 512 bytes the mount divides by 0; on one with blocks of 4096 bytes it
does not find the superblock. -/
theorem mount_divides_by_zero : (Superblock.ofBytes emptySuperblock 1024).Supported ∧
    ext2fsMount (.ofDisk emptySuperblock) 512 0=.error .divideByZero ∧
    ext2fsMount (.ofDisk emptySuperblock) 4096 0=.ok none :=
  ⟨by decide,rfl,rfl⟩

end X64OS.Fs
