import X64OS.Fs.Ext2

namespace X64OS.Fs

open Framework

/-- A tree of tables of a width, d levels deep: each level takes one digit of the number. -/
def descend {β : Type} (entry : β → Nat → β) (width : Nat) : Nat → β → Nat → β
  | 0,b,_ => b
  | d+1,b,i => descend entry width d (entry b (i/width^d)) (i%width^d)

namespace Volume

variable (v : Volume)

def tableEntry (disk : Mem) (block : BitVec 32) (i : Nat) : BitVec 32 :=
  disk.read32 (block.toNat*v.blksize+i*4)

/-- Where the layout of ext2 has a block of a file. -/
def layoutBlock (disk : Mem) (inode : Ext2Inode) (n : Nat) : BitVec 32 :=
  let b := v.blocklvl
  let tree := descend (v.tableEntry disk) b
  if h : n < 12 then inode.blocks ⟨n,by omega⟩
  else if n < 12+b then tree 1 (inode.blocks 12) (n-12)
  else if n < 12+b+b^2 then tree 2 (inode.blocks 13) (n-12-b)
  else tree 3 (inode.blocks 14) (n-12-b-b^2)

theorem toNat_blocklvl : (BitVec.ofNat 32 (v.blksize/4)).toNat=v.blocklvl := by
  have h := v.blocklvl_le
  rw [BitVec.toNat_ofNat,blocklvl] at *
  omega

variable {v} {dev : Backing} {inode : Ext2Inode} {n b : BitVec 32}

theorem toNat_mul_four {x : BitVec 32} (h : x.toNat < 2^30) : (x*4).toNat=x.toNat*4 := by
  rw [BitVec.toNat_mul]
  show x.toNat*4%2^32=_
  omega

theorem toNat_sub_twelve (h : ¬n.toNat < 12) : (n-12).toNat=n.toNat-12 :=
  BitVec.toNat_sub_of_le (show 12 ≤ n.toNat from Nat.not_lt.mp h)

theorem inodegetblock_single (h : ¬n.toNat < 12) (hlt : n.toNat < 12+v.blocklvl) :
    v.inodegetblock dev inode n=
      dev.load32 ((inode.blocks 12).toNat*v.blksize+(n.toNat-12)*4) := by
  have hle := v.blocklvl_le
  have hsub := toNat_sub_twelve h
  have hcond : ¬BitVec.ofNat 32 (v.blksize/4) ≤ n-12 := by
    rw [BitVec.le_def,v.toNat_blocklvl,hsub]
    omega
  rw [Ext2fs.inodegetblock]
  dsimp only
  rw [dif_neg h,if_neg hcond,toNat_mul_four (by omega),hsub]

theorem toNat_singleidx (hb : b.toNat=v.blocklvl) (h : 12+v.blocklvl ≤ n.toNat) :
    b ≤ n-12 ∧ (n-12-b).toNat=n.toNat-12-v.blocklvl ∧
      ((n-12-b)/b).toNat=(n.toNat-12-v.blocklvl)/v.blocklvl := by
  have hsub := toNat_sub_twelve (n := n) (by omega)
  have hcond : b ≤ n-12 := by
    rw [BitVec.le_def,hb,hsub]
    omega
  have hnext : (n-12-b).toNat=n.toNat-12-v.blocklvl := by
    rw [BitVec.toNat_sub_of_le hcond,hsub,hb]
  exact ⟨hcond,hnext,by rw [BitVec.toNat_udiv,hnext,hb]⟩

theorem inodegetblock_double (h : 12+v.blocklvl ≤ n.toNat)
    (hlt : n.toNat < 12+v.blocklvl+v.blocklvl^2) :
    v.inodegetblock dev inode n=
      dev.load32 ((dev.load32 ((inode.blocks 13).toNat*v.blksize+
          (n.toNat-12-v.blocklvl)/v.blocklvl*4)).toNat*v.blksize+
        (n.toNat-12-v.blocklvl)%v.blocklvl*4) := by
  have hle := v.blocklvl_le
  have hb := v.toNat_blocklvl
  rw [Ext2fs.inodegetblock]
  generalize BitVec.ofNat 32 (v.blksize/4)=b at hb
  obtain ⟨hcond,hnext,hsingle⟩ := toNat_singleidx hb h
  have hdigit : (n.toNat-12-v.blocklvl)/v.blocklvl < v.blocklvl := by
    apply Nat.div_lt_of_lt_mul
    rw [← Nat.pow_two]
    omega
  have hinner : ¬b ≤ (n-12-b)/b := by
    rw [BitVec.le_def,hb,hsingle]
    omega
  dsimp only
  rw [dif_neg (by omega),if_pos hcond,if_neg hinner,toNat_mul_four (by omega),hsingle,
    BitVec.toNat_umod,hnext,hb]

/-- In the triple-indirect range the first table is read at the number of the last one, and
what is found there is an index into the block with that number. -/
theorem inodegetblock_triple {m : Nat} (h : n.toNat=12+v.blocklvl+v.blocklvl^2+m) :
    v.inodegetblock dev inode n=
      dev.load32 ((dev.load32 (m/v.blocklvl*v.blksize+
          (dev.load32 ((inode.blocks 14).toNat*v.blksize+m/v.blocklvl*4)*4).toNat)).toNat*v.blksize+
        m%v.blocklvl*4) := by
  have hlow := v.le_blocklvl
  have hn := n.isLt
  have hb := v.toNat_blocklvl
  rw [Ext2fs.inodegetblock]
  generalize BitVec.ofNat 32 (v.blksize/4)=b at hb
  obtain ⟨hcond,hnext,hsingle⟩ := toNat_singleidx (v := v) (n := n) hb (by omega)
  have hinner : b ≤ (n-12-b)/b := by
    rw [BitVec.le_def,hb,hsingle,Nat.le_div_iff_mul_le (by omega),← Nat.pow_two]
    omega
  have hsquare : (b*b).toNat=v.blocklvl^2 := by
    rw [BitVec.toNat_mul,hb,← Nat.pow_two]
    exact Nat.mod_eq_of_lt (by omega)
  have hrest : (n-12-b-b*b).toNat=m := by
    rw [BitVec.toNat_sub_of_le (by rw [BitVec.le_def,hsquare,hnext]; omega),hsquare,hnext]
    omega
  have htable : ((n-12-b-b*b)/b).toNat=m/v.blocklvl := by
    rw [BitVec.toNat_udiv,hrest,hb]
  have hindex : ((n-12-b-b*b)/b*4).toNat=m/v.blocklvl*4 := by
    rw [toNat_mul_four (by rw [htable]; exact Nat.div_lt_of_lt_mul (by omega)),htable]
  dsimp only
  rw [dif_neg (by omega),if_pos hcond,if_pos hinner,hindex,htable,BitVec.toNat_umod,hrest,hb]

theorem inodegetblock_eq_layout (disk : Mem) (h : n.toNat < 12+v.blocklvl+v.blocklvl^2) :
    v.inodegetblock (.ofDisk disk) inode n=v.layoutBlock disk inode n.toNat := by
  rw [layoutBlock]
  by_cases hdirect : n.toNat < 12
  · rw [Ext2fs.inodegetblock]
    dsimp only
    rw [dif_pos hdirect,dif_pos hdirect]
  · rw [dif_neg hdirect]
    by_cases hone : n.toNat < 12+v.blocklvl
    · rw [if_pos hone,inodegetblock_single hdirect hone,Backing.ofDisk_load32]
      simp [descend,tableEntry]
    · rw [if_neg hone,if_pos h,inodegetblock_double (by omega) h,Backing.ofDisk_load32,
        Backing.ofDisk_load32]
      simp [descend,tableEntry]

end Volume

def wordDisk (w : Nat → BitVec 32) : Mem := fun a => BitVec.ofNat 8 ((w (a/4)).toNat/256^(a%4))

theorem wordDisk_read32 (w : Nat → BitVec 32) (i : Nat) : (wordDisk w).read32 (i*4)=w i := by
  have hbyte : ∀ j < 4, wordDisk w (i*4+j)=BitVec.ofNat 8 ((w i).toNat/256^j) := by
    intro j hj
    have hdiv : (i*4+j)/4=i := by omega
    have hmod : (i*4+j)%4=j := by omega
    rw [wordDisk,hdiv,hmod]
  have hw := (w i).isLt
  apply BitVec.eq_of_toNat_eq
  simp only [Mem.read32,Mem.readBytes,hbyte 0 (by decide),hbyte 1 (by decide),hbyte 2 (by decide),
    hbyte 3 (by decide),BitVec.toNat_ofNat]
  omega

namespace Volume

variable (v : Volume)

theorem wordDisk_entry (w : Nat → BitVec 32) (block i : Nat) :
    (wordDisk w).read32 (block*v.blksize+i*4)=w (block*v.blocklvl+i) := by
  have hloc : block*v.blksize+i*4=(block*v.blocklvl+i)*4 := by
    rw [v.blksize_blocklvl]
    ring
  rw [hloc,wordDisk_read32]

/-- Words by which a number with these digits, the last one and the one before, is not found:
the last table of it is in block 0, and all other entries point to the last block. -/
def crossedWords (next last : Nat) : Nat → BitVec 32 :=
  fun i => if i=(2^32-1)*v.blocklvl+next then 0 else if i=last then 1 else BitVec.allOnes 32

def oneBlockInode : Ext2Inode := ⟨0,0,0,0,0,0,0,0,fun _ => 1,0⟩

variable {v} {n : BitVec 32}

theorem crossedWords_other {next last i : Nat} (h1 : i≠(2^32-1)*v.blocklvl+next) (h2 : i≠last) :
    v.crossedWords next last i=BitVec.allOnes 32 := by
  rw [crossedWords,if_neg h1,if_neg h2]

theorem toNat_allOnes : (BitVec.allOnes 32).toNat=2^32-1 := by decide

theorem layoutBlock_crossed {m : Nat} (hm : m < v.blocklvl^3) :
    descend (v.tableEntry (wordDisk (v.crossedWords (m%v.blocklvl^2/v.blocklvl) (m%v.blocklvl))))
      v.blocklvl 3 1 m=1 := by
  have hlow := v.le_blocklvl
  have hlast : m%v.blocklvl < v.blocklvl := Nat.mod_lt _ (by omega)
  have hfirst : m/v.blocklvl^2 < v.blocklvl := by
    apply Nat.div_lt_of_lt_mul
    rw [← Nat.pow_succ]
    exact hm
  have hmod : m%v.blocklvl^2%v.blocklvl=m%v.blocklvl :=
    Nat.mod_mod_of_dvd m (dvd_pow_self v.blocklvl (by decide))
  simp only [descend,tableEntry,Nat.pow_one,Nat.pow_zero,Nat.div_one,hmod,wordDisk_entry]
  generalize m%v.blocklvl^2/v.blocklvl=next
  generalize m%v.blocklvl=last at hlast
  have hone : (1 : BitVec 32).toNat=1 := rfl
  have hzero : v.crossedWords next last ((2^32-1)*v.blocklvl+next)=0 := if_pos rfl
  generalize m/v.blocklvl^2=first at hfirst
  rw [hone,crossedWords_other (i := 1*v.blocklvl+first) (by omega) (by omega),toNat_allOnes,hzero,
    crossedWords]
  show (if 0*v.blocklvl+last=_ then _ else if 0*v.blocklvl+last=last then _ else _)=_
  rw [if_neg (by omega),if_pos (by omega)]

theorem inodegetblock_crossed {m : Nat} (h : n.toNat=12+v.blocklvl+v.blocklvl^2+m) (next : Nat) :
    v.inodegetblock (.ofDisk (wordDisk (v.crossedWords next (m%v.blocklvl)))) oneBlockInode n≠1 := by
  have hlow := v.le_blocklvl
  have hhigh := v.blocklvl_le
  have hn := n.isLt
  have hlast : m%v.blocklvl < v.blocklvl := Nat.mod_lt _ (by omega)
  have htable : m/v.blocklvl < 2^24 := Nat.div_lt_of_lt_mul (by omega)
  have hblock : m/v.blocklvl*v.blocklvl ≤ m := Nat.div_mul_le_self _ _
  have hone : (oneBlockInode.blocks 14).toNat=1 := rfl
  have hindex : (BitVec.allOnes 32*4).toNat=(2^30-1)*4 := by decide
  rw [inodegetblock_triple h]
  simp only [Backing.ofDisk_load32,wordDisk_entry]
  generalize m%v.blocklvl=last at hlast
  generalize m/v.blocklvl=table at htable hblock
  rw [hone,crossedWords_other (i := 1*v.blocklvl+table) (by omega) (by omega),hindex,
    wordDisk_entry,crossedWords_other (i := table*v.blocklvl+(2^30-1)) (by omega) (by omega),
    toNat_allOnes,crossedWords]
  split
  · decide
  · rw [if_neg (by omega)]
    decide

end Volume

/-- The code follows the layout of ext2, on every disk, exactly up to the double-indirect range. -/
theorem inodegetblock_layout_iff (v : Volume) (n : BitVec 32)
    (hn : n.toNat < 12+v.blocklvl+v.blocklvl^2+v.blocklvl^3) :
    (∀ (disk : Mem) (inode : Ext2Inode),
      v.inodegetblock (.ofDisk disk) inode n=v.layoutBlock disk inode n.toNat) ↔
      n.toNat < 12+v.blocklvl+v.blocklvl^2 := by
  constructor
  · intro h
    by_contra hbehind
    obtain ⟨m,hm⟩ := Nat.exists_eq_add_of_le (Nat.not_lt.mp hbehind)
    have hsame := h (wordDisk (v.crossedWords (m%v.blocklvl^2/v.blocklvl) (m%v.blocklvl)))
      Volume.oneBlockInode
    have hspec := Volume.layoutBlock_crossed (v := v) (m := m) (by omega)
    have hrest : n.toNat-12-v.blocklvl-v.blocklvl^2=m := by omega
    rw [Volume.layoutBlock,dif_neg (by omega),if_neg (by omega),if_neg (by omega),hrest] at hsame
    exact Volume.inodegetblock_crossed hm _ (hsame.trans hspec)
  · intro h disk inode
    exact Volume.inodegetblock_eq_layout disk h

def smallVolume : Volume := ⟨⟨1024,8,128⟩,0,by decide,rfl,by decide⟩

/-- With these blocks the first block of the double-indirect range is found. -/
theorem inodegetblock_layout_iff_double : 268=12+smallVolume.blocklvl ∧
    ∀ (disk : Mem) (inode : Ext2Inode),
      smallVolume.inodegetblock (.ofDisk disk) inode 268=smallVolume.layoutBlock disk inode 268 :=
  ⟨rfl,(inodegetblock_layout_iff smallVolume 268 (by decide)).mpr (by decide)⟩

/-- The first block behind it is not: the code takes what it finds in the first table for an index
into block 0, where m/B is 0. -/
theorem triple_indirect_crossed :
    smallVolume.layoutBlock (wordDisk (smallVolume.crossedWords 0 0)) Volume.oneBlockInode 65804=1 ∧
    smallVolume.inodegetblock (.ofDisk (wordDisk (smallVolume.crossedWords 0 0)))
      Volume.oneBlockInode 65804=0 :=
  ⟨by decide,by decide⟩

end X64OS.Fs
