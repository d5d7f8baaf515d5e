import X64OS.Fs.Ext2Blocks

namespace X64OS.Fs

open Framework

variable {p size : Nat}

namespace Volume

variable (v : Volume)

def fileByte (disk : Mem) (inode : Ext2Inode) (p : Nat) : BitVec 8 :=
  disk ((v.inodegetblock (.ofDisk disk) inode (BitVec.ofNat 32 (p/v.blksize))).toNat*v.blksize+
    p%v.blksize)

variable {v} {disk : Mem} {inode : Ext2Inode} {count n head off : Nat} {buf buf' : Mem} {r : Int}

theorem fileByte_congr {p' : Nat} (hblock : p/v.blksize%2^32=p'/v.blksize%2^32)
    (hoff : p%v.blksize=p'%v.blksize) : v.fileByte disk inode p=v.fileByte disk inode p' := by
  have hsame : BitVec.ofNat 32 (p/v.blksize)=BitVec.ofNat 32 (p'/v.blksize) := by
    apply BitVec.eq_of_toNat_eq
    rw [BitVec.toNat_ofNat,BitVec.toNat_ofNat,hblock]
  rw [fileByte,fileByte,hsame,hoff]

theorem window_block (p : Nat) (h : p%v.blksize+size ≤ v.blksize) :
    window disk ((v.inodegetblock (.ofDisk disk) inode (BitVec.ofNat 32 (p/v.blksize))).toNat*v.blksize+
      p%v.blksize) size=window (v.fileByte disk inode) p size := by
  have hdiv := Nat.div_add_mod p v.blksize
  rw [window,window]
  apply List.map_congr_left
  intro i hi
  rw [List.mem_range] at hi
  have hblock : (p+i)/v.blksize=p/v.blksize := by
    apply Nat.div_eq_of_lt_le
    · rw [Nat.mul_comm]
      omega
    · rw [Nat.add_mul,Nat.one_mul,Nat.mul_comm]
      omega
  have hmod : (p+i)%v.blksize=p%v.blksize+i := by
    have hdiv' := Nat.div_add_mod (p+i) v.blksize
    rw [hblock] at hdiv'
    omega
  rw [fileByte,hblock,hmod,Nat.add_assoc]

theorem inodereadLoop_round (hlt : head < count) :
    v.inodereadLoop (.ofDisk disk) inode count (n+1) head off buf=
      v.inodereadLoop (.ofDisk disk) inode count n
        (head+min (count-head) (v.blksize-add64 off head%v.blksize)) (add64 off head%v.blksize)
        (overlay buf head (window (v.fileByte disk inode) (add64 off head)
          (min (count-head) (v.blksize-add64 off head%v.blksize)))) := by
  have hle := v.le_blksize
  have hmod := Nat.mod_lt (add64 off head) (show 0 < v.blksize by omega)
  rw [Ext2fs.inodereadLoop,if_pos hlt]
  dsimp only
  rw [Backing.ofDisk_read,if_neg (by dsimp only; omega),window_block (add64 off head) (by omega)]

theorem inodereadLoop_end (hge : ¬head < count) :
    v.inodereadLoop (.ofDisk disk) inode count (n+1) head off buf=
      some (offT count,buf) := by
  rw [Ext2fs.inodereadLoop,if_neg hge]

theorem inodereadLoop_returns (v : Volume) (disk : Mem) (inode : Ext2Inode) (off : Nat) (buf : Mem)
    (hn : count-head < n) : ∃ buf',
    v.inodereadLoop (.ofDisk disk) inode count n head off buf=
      some (offT count,buf') ∧ ∀ k < head, buf' k=buf k := by
  have hle := v.le_blksize
  induction n generalizing head off buf with
  | zero => cases hn
  | succ n ih =>
    by_cases hlt : head < count
    · have hmod := Nat.mod_lt (add64 off head) (show 0 < v.blksize by omega)
      rw [inodereadLoop_round hlt]
      have hless : count-(head+min (count-head) (v.blksize-add64 off head%v.blksize)) < n := by omega
      obtain ⟨buf',hrest,hkeep⟩ := ih _ _ hless
      refine ⟨buf',hrest,?_⟩
      intro k hk
      rw [hkeep k (by omega),overlay_of_lt hk]
    · exact ⟨buf,inodereadLoop_end hlt,fun _ _ => rfl⟩

theorem inodereadLoop_first (hn : count-head < n) (hlt : head < count)
    (h : v.inodereadLoop (.ofDisk disk) inode count n head off buf=some (r,buf')) :
    (∀ j, j < count-head → j < v.blksize-add64 off head%v.blksize →
      buf' (head+j)=v.fileByte disk inode (add64 off head+j)) ∧
    ∃ m buf₁, count-(head+(v.blksize-add64 off head%v.blksize)) < m ∧
      (v.blksize-add64 off head%v.blksize ≤ count-head →
        v.inodereadLoop (.ofDisk disk) inode count m (head+(v.blksize-add64 off head%v.blksize))
          (add64 off head%v.blksize) buf₁=some (r,buf')) := by
  obtain ⟨m,rfl⟩ : ∃ m, n=m+1 := ⟨n-1,by omega⟩
  have hle := v.le_blksize
  have hmod := Nat.mod_lt (add64 off head) (show 0 < v.blksize by omega)
  rw [inodereadLoop_round hlt] at h
  generalize hx : add64 off head=x at h hmod ⊢
  generalize hbuf₁ : overlay buf head (window (v.fileByte disk inode) x
    (min (count-head) (v.blksize-x%v.blksize)))=buf₁ at h
  refine ⟨?_,m,buf₁,by omega,?_⟩
  · intro j hj hj'
    have hless : count-(head+min (count-head) (v.blksize-x%v.blksize)) < m := by omega
    obtain ⟨buf₂,hrest,hkeep⟩ := inodereadLoop_returns v disk inode (x%v.blksize) buf₁ hless
    rw [hrest] at h
    cases h
    rw [hkeep _ (by omega),← hbuf₁,overlay_window,if_pos (by omega),Nat.add_sub_cancel_left]
  · intro hfull
    rw [Nat.min_eq_right hfull] at h
    exact h

/-- With an off of 0 the position in the file is head. -/
theorem inodereadLoop_blocks (hcount : count < 2^64) (hn : count-head < n)
    (hhead : head%v.blksize=0 ∨ count ≤ head)
    (h : v.inodereadLoop (.ofDisk disk) inode count n head 0 buf=some (r,buf')) :
    ∀ k, head ≤ k → k < count → buf' k=v.fileByte disk inode k := by
  induction n generalizing head buf with
  | zero => cases hn
  | succ n ih =>
    have hle := v.le_blksize
    intro k hk hkc
    have hmod : head%v.blksize=0 := by omega
    have hx : add64 0 head=head := by
      rw [add64_eq (by omega),Nat.zero_add]
    obtain ⟨hfirst,-⟩ := inodereadLoop_first hn (by omega) h
    rw [hx,hmod,Nat.sub_zero] at hfirst
    by_cases hthis : k < head+v.blksize
    · have hbyte := hfirst (k-head) (by omega) (by omega)
      rwa [Nat.add_sub_cancel' hk] at hbyte
    · rw [inodereadLoop_round (by omega),hx,hmod,Nat.sub_zero,Nat.min_eq_right (by omega)] at h
      have hless : count-(head+v.blksize) < n := by omega
      refine ih hless ?_ h k (by omega) hkc
      rw [Nat.add_mod_right]
      exact .inl hmod

/-- What the first rounds of a read put into the buffer. The first one is at off, the second at the
beginning of block 1, whichever block off was in, and the third at head. -/
structure Chunks (v : Volume) (disk : Mem) (inode : Ext2Inode) (off count : Nat) (buf : Mem) : Prop where
  first : ∀ k < count, off%v.blksize+k < v.blksize → buf k=v.fileByte disk inode (off+k)
  second : ∀ k < count, v.blksize ≤ off%v.blksize+k → off%v.blksize+k < 2*v.blksize →
    buf k=v.fileByte disk inode (off%v.blksize+k)
  third : 2*v.blksize-off%v.blksize < count →
    buf (2*v.blksize-off%v.blksize)=v.fileByte disk inode (2*v.blksize-off%v.blksize)
  aligned : off%v.blksize=0 → ∀ k < count, v.blksize ≤ k → buf k=v.fileByte disk inode k

theorem inodereadLoop_chunks (hoff : off < 2^63) (hcount : count < 2^63)
    (h : v.inodereadLoop (.ofDisk disk) inode count (count+1) 0 off buf=some (r,buf')) :
    Chunks v disk inode off count buf' := by
  have hle := v.le_blksize
  have hbs := v.blksize_le
  have hmod := Nat.mod_lt off (show 0 < v.blksize by omega)
  rcases Nat.eq_zero_or_pos count with rfl | hpos
  · exact ⟨fun k hk => absurd hk (Nat.not_lt_zero k),fun k hk => absurd hk (Nat.not_lt_zero k),
      fun hk => absurd hk (Nat.not_lt_zero _),fun _ k hk => absurd hk (Nat.not_lt_zero k)⟩
  obtain ⟨hfirst,m,buf₁,hm,hnext⟩ := inodereadLoop_first (by omega) hpos h
  have hx : add64 off 0=off := add64_eq (by omega)
  rw [hx] at hfirst hm hnext
  rw [Nat.zero_add] at hm hnext
  generalize ho : off%v.blksize=o at *
  have hx₁ : add64 o (v.blksize-o)=v.blksize := by
    rw [add64_eq (by omega)]
    omega
  refine ⟨?_,?_,?_,?_⟩
  · intro k hk hlow
    have hbyte := hfirst k hk (by omega)
    rwa [Nat.zero_add] at hbyte
  · intro k hk hlow hhigh
    have hbyte := (inodereadLoop_first (by omega) (by omega) (hnext (by omega))).1 (k-(v.blksize-o))
      (by omega)
    rw [hx₁,Nat.mod_self,Nat.add_sub_cancel' (by omega)] at hbyte
    rw [hbyte (by omega)]
    congr 1
    omega
  · intro hk
    obtain ⟨-,m',buf₂,hm',hnext'⟩ := inodereadLoop_first (by omega) (by omega) (hnext (by omega))
    rw [hx₁,Nat.mod_self,Nat.sub_zero] at hm' hnext'
    have hx₂ : add64 0 (v.blksize-o+v.blksize)=2*v.blksize-o := by
      rw [add64_eq (by omega)]
      omega
    have hbyte := (inodereadLoop_first hm' (by omega) (hnext' (by omega))).1 0 (by omega)
      (Nat.sub_pos_of_lt (Nat.mod_lt _ (by omega)))
    rw [hx₂,Nat.add_zero,Nat.add_zero] at hbyte
    rw [ho,← hbyte]
    congr 1
    omega
  · intro hzero k hk hlow
    rw [ho] at hzero
    subst hzero
    have hrest := hnext (by omega)
    rw [Nat.sub_zero] at hm hrest
    exact inodereadLoop_blocks (by omega) hm (.inl (Nat.mod_self _)) hrest k hlow hk

theorem fileByte_shift {q : Nat} (hq : q%2^32=0) :
    v.fileByte disk inode (q*v.blksize+p)=v.fileByte disk inode p := by
  have hle := v.le_blksize
  apply fileByte_congr
  · rw [Nat.add_comm,Nat.add_mul_div_right _ _ (by omega)]
    omega
  · rw [Nat.add_comm,Nat.add_mul_mod_self_right]

/-- The reads that come out right: those inside a block, and those from a block 0 on that begin at
its beginning or end in the next one. -/
def Continues (v : Volume) (off n : Nat) : Prop :=
  off%v.blksize+n ≤ v.blksize ∨
    (off/v.blksize%2^32=0 ∧ (off%v.blksize=0 ∨ off%v.blksize+n ≤ 2*v.blksize))

theorem Chunks.bytes (h : Chunks v disk inode off count buf) (hc : v.Continues off count) :
    ∀ k < count, buf k=v.fileByte disk inode (off+k) := by
  intro k hk
  have hdiv := Nat.div_add_mod off v.blksize
  by_cases hlow : off%v.blksize+k < v.blksize
  · exact h.first k hk hlow
  · obtain hin | ⟨hq,hrest⟩ := hc
    · omega
    · have hshift : off+k=off/v.blksize*v.blksize+(off%v.blksize+k) := by
        rw [Nat.mul_comm]
        omega
      rw [hshift,fileByte_shift hq]
      obtain hzero | hend := hrest
      · rw [h.aligned hzero k hk (by omega),hzero,Nat.zero_add]
      · exact h.second k hk (by omega) (by omega)

end Volume

def Ext2Inode.ofSize (size : Nat) (blocks : Fin 15 → BitVec 32) : Ext2Inode :=
  ⟨0,0,BitVec.ofNat 32 size,0,0,0,0,0,blocks,BitVec.ofNat 32 (size/2^32)⟩

theorem Ext2Inode.ofSize_inodesize (h : size < 2^64) (blocks : Fin 15 → BitVec 32) :
    (ofSize size blocks).inodesize=size := by
  rw [inodesize_eq,ofSize]
  dsimp only
  rw [BitVec.toNat_ofNat,BitVec.toNat_ofNat]
  omega

def markDisk (p : Nat) : Mem := fun a => if a=p then 1 else 0

theorem markDisk_read32 {a : Nat} (h : a+4 ≤ p) : (markDisk p).read32 a=0 := by
  have hzero : Mem.readBytes (markDisk p) a 4=Mem.readBytes (fun _ => 0) a 4 := by
    apply Mem.readBytes_eq
    intro i hi
    exact if_neg (by omega)
  rw [Mem.read32,hzero]
  simp [Mem.readBytes]

namespace Volume

variable {v : Volume}

def lastBlock : Fin 15 → BitVec 32 := fun i => if i=1 then BitVec.allOnes 32 else 0

theorem inodegetblock_lastBlock (hp : 2^40 ≤ p) {n : BitVec 32} (hn : n.toNat≠1) :
    v.inodegetblock (.ofDisk (markDisk p)) (.ofSize size lastBlock) n=0 := by
  have hle := v.le_blocklvl
  have hhigh := v.blocklvl_le
  have hlt := n.isLt
  have hload : ∀ a < 2^39, (Backing.ofDisk (markDisk p)).load32 a=0 := by
    intro a ha
    rw [Backing.ofDisk_load32,markDisk_read32 (by omega)]
  have hzero : (0 : BitVec 32).toNat=0 := rfl
  have hblock : ∀ i : Fin 15, i≠1 → ((Ext2Inode.ofSize size lastBlock).blocks i).toNat=0 := by
    intro i hi
    exact congrArg BitVec.toNat (if_neg hi)
  by_cases hdirect : n.toNat < 12
  · rw [Ext2fs.inodegetblock]
    dsimp only
    rw [dif_pos hdirect]
    exact if_neg (fun h => hn (congrArg Fin.val h))
  · by_cases hone : n.toNat < 12+v.blocklvl
    · rw [inodegetblock_single hdirect hone,hblock 12 (by decide),Nat.zero_mul]
      exact hload _ (by omega)
    · have hdigit : ∀ i, i%v.blocklvl < v.blocklvl := fun i => Nat.mod_lt _ (by omega)
      by_cases htwo : n.toNat < 12+v.blocklvl+v.blocklvl^2
      · have hfirst : (n.toNat-12-v.blocklvl)/v.blocklvl ≤ n.toNat-12-v.blocklvl := Nat.div_le_self _ _
        have hlast := hdigit (n.toNat-12-v.blocklvl)
        rw [inodegetblock_double (by omega) htwo,hblock 13 (by decide),Nat.zero_mul,
          hload (0+(n.toNat-12-v.blocklvl)/v.blocklvl*4) (by omega),hzero,Nat.zero_mul]
        exact hload _ (by omega)
      · obtain ⟨m,hm⟩ := Nat.exists_eq_add_of_le (Nat.not_lt.mp htwo)
        have htable : m/v.blocklvl*v.blocklvl ≤ m := Nat.div_mul_le_self _ _
        have hfirst : m/v.blocklvl ≤ m := Nat.div_le_self _ _
        have hlast := hdigit m
        have hblksize : m/v.blocklvl*v.blksize=4*(m/v.blocklvl*v.blocklvl) := by
          rw [v.blksize_blocklvl]
          ring
        rw [inodegetblock_triple hm,hblock 14 (by decide),Nat.zero_mul,
          hload (0+m/v.blocklvl*4) (by omega)]
        show (Backing.ofDisk (markDisk p)).load32 (((Backing.ofDisk (markDisk p)).load32
          (m/v.blocklvl*v.blksize+0)).toNat*v.blksize+_)=0
        rw [hload (m/v.blocklvl*v.blksize+0) (by omega),hzero,Nat.zero_mul]
        exact hload _ (by omega)

/-- A byte of block 1 and one of another block may differ. -/
theorem fileByte_separates (v : Volume) {p' : Nat} (size : Nat) (hp : p/v.blksize=1)
    (hp' : p'/v.blksize%2^32≠1) : ∃ disk,
      v.fileByte disk (.ofSize size lastBlock) p≠v.fileByte disk (.ofSize size lastBlock) p' := by
  have hle := v.le_blksize
  have hmod := Nat.mod_lt p' (show 0 < v.blksize by omega)
  refine ⟨markDisk ((2^32-1)*v.blksize+p%v.blksize),?_⟩
  have hone : v.fileByte (markDisk ((2^32-1)*v.blksize+p%v.blksize)) (.ofSize size lastBlock) p=1 := by
    rw [fileByte,hp]
    exact if_pos rfl
  have hother : v.fileByte (markDisk ((2^32-1)*v.blksize+p%v.blksize)) (.ofSize size lastBlock) p'=0 := by
    rw [fileByte,inodegetblock_lastBlock (by omega) (by rw [BitVec.toNat_ofNat]; exact hp')]
    exact if_neg (show ¬0*v.blksize+p'%v.blksize=_ by omega)
  rw [hone,hother]
  decide

end Volume

namespace Volume

variable {v : Volume} {disk : Mem} {inode : Ext2Inode} {off count : Nat} {buf : Mem}

theorem inoderead_eq (hoff : off ≤ inode.inodesize) (hsize : inode.inodesize < 2^63)
    (hwrap : off+count < 2^64) : v.inoderead (.ofDisk disk) inode buf off count=
      v.inodereadLoop (.ofDisk disk) inode (min count (inode.inodesize-off))
        (min count (inode.inodesize-off)+1) 0 off buf := by
  have hint := offT_eq hsize
  have hcount : (if inode.inodesize < add64 off count then sub64 inode.inodesize off else count)=
      min count (inode.inodesize-off) := by
    rw [add64_eq hwrap]
    split
    · rw [sub64_eq (by omega) hoff]
      omega
    · omega
  rw [Ext2fs.inoderead,if_neg (by omega),hcount]

theorem inoderead_nothing (h : inode.inodesize < off ∨ 2^63 ≤ inode.inodesize) (hoff : off < 2^63) :
    v.inoderead (.ofDisk disk) inode buf off count=some (0,buf) := by
  rw [Ext2fs.inoderead,if_pos]
  obtain hbehind | hbig := h
  · rw [offT_eq (by omega)]
    omega
  · have hneg := offT_of_ge hbig inode.inodesize_lt
    omega

theorem inoderead_chunks (v : Volume) (disk : Mem) (inode : Ext2Inode) (buf : Mem)
    (hsize : inode.inodesize < 2^63) (hoff : off < 2^63) (hwrap : off+count < 2^64) :
    ∃ buf', v.inoderead (.ofDisk disk) inode buf off count=
        some (((min count (inode.inodesize-off) : Nat) : Int),buf') ∧
      Chunks v disk inode off (min count (inode.inodesize-off)) buf' := by
  by_cases hle : off ≤ inode.inodesize
  · rw [inoderead_eq hle hsize hwrap]
    have hlt : min count (inode.inodesize-off) < 2^63 := by omega
    generalize min count (inode.inodesize-off)=n at hlt
    obtain ⟨buf',hloop,-⟩ := inodereadLoop_returns v disk inode off buf (show n-0 < n+1 by omega)
    refine ⟨buf',?_,inodereadLoop_chunks hoff hlt hloop⟩
    rw [hloop,offT_eq hlt]
  · have hzero : min count (inode.inodesize-off)=0 := by omega
    rw [inoderead_nothing (.inl (by omega)) hoff,hzero]
    exact ⟨buf,rfl,fun k hk => absurd hk (Nat.not_lt_zero k),fun k hk => absurd hk (Nat.not_lt_zero k),
      fun hk => absurd hk (Nat.not_lt_zero _),fun _ k hk => absurd hk (Nat.not_lt_zero k)⟩

/-- A read that does not come out right has a byte from block 1 that belongs to another block. -/
theorem misplaced_byte (h : ¬v.Continues off n) : ∃ p k, k < n ∧ p/v.blksize=1 ∧
    (off+k)/v.blksize%2^32≠1 ∧
    ∀ {disk inode buf}, Chunks v disk inode off n buf → buf k=v.fileByte disk inode p := by
  have hle := v.le_blksize
  have hdiv := Nat.div_add_mod off v.blksize
  have hmod := Nat.mod_lt off (show 0 < v.blksize by omega)
  rw [Continues] at h
  push Not at h
  obtain ⟨hlong,hlater⟩ := h
  by_cases hq : off/v.blksize%2^32=0
  · -- the third round, which should be in block 2
    obtain ⟨hzero,hend⟩ := hlater hq
    refine ⟨2*v.blksize-off%v.blksize,2*v.blksize-off%v.blksize,by omega,?_,?_,
      fun hc => hc.third (by omega)⟩
    · exact Nat.div_eq_of_lt_le (by omega) (by omega)
    · have hsum : off+(2*v.blksize-off%v.blksize)=(off/v.blksize+2)*v.blksize := by
        rw [Nat.add_mul,Nat.mul_comm (off/v.blksize)]
        omega
      rw [hsum,Nat.mul_div_cancel _ (by omega)]
      omega
  · -- the second round, which should be in the block behind that of off
    refine ⟨v.blksize,v.blksize-off%v.blksize,by omega,Nat.div_self (by omega),?_,?_⟩
    · have hsum : off+(v.blksize-off%v.blksize)=(off/v.blksize+1)*v.blksize := by
        rw [Nat.add_mul,Nat.mul_comm (off/v.blksize)]
        omega
      rw [hsum,Nat.mul_div_cancel _ (by omega)]
      omega
    · intro disk inode buf hc
      rw [hc.second _ (by omega) (by omega) (by omega),Nat.add_sub_cancel' (by omega)]

def ReadsFile (v : Volume) (disk : Mem) (inode : Ext2Inode) (off n : Nat) (result : Option (Int × Mem)) :
    Prop :=
  ∃ buf', result=some ((n : Int),buf') ∧ ∀ k < n, buf' k=v.fileByte disk inode (off+k)

end Volume

/-- On every disk and for every inode of this size a read is right exactly if there is nothing to
read, or the size is an off_t and the read is one that comes out right. -/
theorem inoderead_iff (v : Volume) (size off count : Nat) (hsize : size < 2^64) (hoff : off < 2^63)
    (hwrap : off+count < 2^64) :
    (∀ (disk : Mem) (inode : Ext2Inode) (buf : Mem), inode.inodesize=size →
      v.ReadsFile disk inode off (min count (size-off)) (v.inoderead (.ofDisk disk) inode buf off count)) ↔
      min count (size-off)=0 ∨ (size < 2^63 ∧ v.Continues off (min count (size-off))) := by
  generalize hn : min count (size-off)=n
  constructor
  · intro h
    by_contra hbad
    push Not at hbad
    obtain ⟨hpos,hbad⟩ := hbad
    have hinode := Ext2Inode.ofSize_inodesize hsize Volume.lastBlock
    by_cases hbig : 2^63 ≤ size
    · obtain ⟨buf',hread,-⟩ := h (fun _ => 0) _ (fun _ => 0) hinode
      rw [Volume.inoderead_nothing (.inr (by omega)) hoff] at hread
      cases hread
      exact hpos rfl
    · obtain ⟨p,k,hk,hp,hp',hbyte⟩ := Volume.misplaced_byte (hbad (by omega))
      obtain ⟨disk,hne⟩ := v.fileByte_separates size hp hp'
      obtain ⟨buf',hread,hright⟩ := h disk _ (fun _ => 0) hinode
      obtain ⟨buf'',hread',hchunks⟩ := v.inoderead_chunks disk (.ofSize size Volume.lastBlock)
        (fun _ => 0) (by omega) hoff hwrap
      rw [hinode,hn] at hread' hchunks
      cases hread.symm.trans hread'
      exact hne ((hbyte hchunks).symm.trans (hright k hk))
  · rintro hcond disk inode buf rfl
    by_cases hsmall : inode.inodesize < 2^63
    · obtain ⟨buf',hread,hchunks⟩ := v.inoderead_chunks disk inode buf hsmall hoff hwrap
      rw [hn] at hread hchunks
      refine ⟨buf',hread,?_⟩
      obtain rfl | ⟨-,hcontinues⟩ := hcond
      · exact fun k hk => absurd hk (Nat.not_lt_zero k)
      · exact hchunks.bytes hcontinues
    · obtain rfl | ⟨hlt,-⟩ := hcond
      · exact ⟨buf,Volume.inoderead_nothing (.inr (by omega)) hoff,
          fun k hk => absurd hk (Nat.not_lt_zero k)⟩
      · exact absurd hlt hsmall

/-- A read of three blocks from the beginning on is right. -/
theorem inoderead_iff_blocks : smallVolume.Continues 0 3072 ∧
    ∀ (disk : Mem) (inode : Ext2Inode) (buf : Mem), inode.inodesize=3072 →
      smallVolume.ReadsFile disk inode 0 3072 (smallVolume.inoderead (.ofDisk disk) inode buf 0 3072) := by
  have hcontinues : smallVolume.Continues 0 3072 := .inr ⟨by decide,.inl (by decide)⟩
  exact ⟨hcontinues,(inoderead_iff smallVolume 3072 0 3072 (by decide) (by decide) (by decide)).mpr
    (.inr ⟨by decide,hcontinues⟩)⟩

def numberedDisk : Mem := fun a => BitVec.ofNat 8 (a/1024)

def threeBlocks : Ext2Inode := .ofSize 3072 (fun i => BitVec.ofNat 32 (i.val+5))

/-- A read of its last two: in the place of the last one the buffer gets the one before once more. -/
theorem inoderead_second_block : ∃ buf',
    smallVolume.inoderead (.ofDisk numberedDisk) threeBlocks (fun _ => 0) 1024 2048=some (2048,buf') ∧
    buf' 1024=6 ∧ smallVolume.fileByte numberedDisk threeBlocks (1024+1024)=7 := by
  obtain ⟨buf',hread,hchunks⟩ := smallVolume.inoderead_chunks numberedDisk threeBlocks
    (fun _ => 0) (by decide) (show 1024 < 2^63 by decide) (show 1024+2048 < 2^64 by decide)
  have hcount : min 2048 (threeBlocks.inodesize-1024)=2048 := by decide
  rw [hcount] at hread hchunks
  refine ⟨buf',hread,?_,by decide⟩
  rw [hchunks.second 1024 (by decide) (by decide) (by decide)]
  decide

namespace Volume

variable {v : Volume} {disk : Mem} {buf : Mem} {loc count : Nat}

/-- The count that ext2fs_resread cuts off at the end of a file is what ext2fs_inoderead would have
cut off. -/
theorem resread_eq (inodeidx : BitVec 32) (hsize : (v.inodeOf disk inodeidx).inodesize < 2^63)
    (hwrap : loc+count < 2^63) :
    v.resread (.ofDisk disk) inodeidx (v.inodeOf disk inodeidx).inodesize buf loc count=
      v.inoderead (.ofDisk disk) (v.inodeOf disk inodeidx) buf loc count := by
  rw [Ext2fs.resread,v.inodereadentry_ofDisk]
  dsimp only
  generalize v.inodeOf disk inodeidx=inode at hsize
  rw [add64_eq (by omega),offT_eq hsize,offT_eq hwrap]
  split
  · rw [sub64_eq (a := loc+count) (by omega) (by omega)]
    by_cases hle : loc ≤ inode.inodesize
    · have hcut : sub64 count (loc+count-inode.inodesize)=inode.inodesize-loc := by
        rw [sub64_eq (by omega) (by omega)]
        omega
      rw [hcut,inoderead_eq hle hsize (by omega),inoderead_eq hle hsize (by omega)]
      have hmin : min (inode.inodesize-loc) (inode.inodesize-loc)=min count (inode.inodesize-loc) := by
        omega
      rw [hmin]
    · rw [inoderead_nothing (.inl (by omega)) (by omega),inoderead_nothing (.inl (by omega)) (by omega)]
  · rfl

end Volume

end X64OS.Fs
