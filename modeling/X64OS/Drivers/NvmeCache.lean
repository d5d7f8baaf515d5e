import Mathlib.Logic.Function.Basic
import Mathlib.Tactic.Ring
import X64OS.Framework.Overlay
import X64OS.Framework.Refinement
import X64OS.Framework.Words

namespace X64OS.Drivers

open Framework Function

/-- The sizes that nvme_initnamespace reads. lbasize is 1 << ds of an int, where formats have a ds
of 9 or more. -/
structure LbaSizes where
  lbasize : Nat
  lbacount : Nat
  lbasize_gt : 1 < lbasize
  lbasize_le : lbasize ≤ 2^30

def LbaSizes.size (f : LbaSizes) : Nat := f.lbacount*f.lbasize

/-- A namespace whose size st_size holds in 64 bits. -/
structure Namespace extends LbaSizes where
  size_le : lbacount*lbasize ≤ 2^64

variable {n slot : Nat}

namespace Namespace

def cacheblocksize (ns : Namespace) : Nat := ns.lbasize*4

def blockBytes (ns : Namespace) (block : Nat) : Nat :=
  min ns.cacheblocksize (ns.size-block*ns.cacheblocksize)

section
variable (ns : Namespace)

theorem lbacount_lt : ns.lbacount < 2^64 := by
  have h := Nat.mul_le_mul_left ns.lbacount ns.lbasize_gt
  have hsize := ns.size_le
  omega

theorem cacheblocksize_pos : 0 < ns.cacheblocksize := by
  have h := ns.lbasize_gt
  rw [cacheblocksize]
  omega

theorem lbas_eq : ns.cacheblocksize/ns.lbasize=4 :=
  Nat.mul_div_cancel_left 4 (Nat.lt_trans Nat.zero_lt_one ns.lbasize_gt)

theorem block_lt_iff (block : Nat) : block*ns.cacheblocksize < ns.size ↔ 4*block < ns.lbacount := by
  have h : block*ns.cacheblocksize=4*block*ns.lbasize := by
    rw [cacheblocksize]
    ring
  rw [h,LbaSizes.size]
  exact Nat.mul_lt_mul_right (Nat.lt_trans Nat.zero_lt_one ns.lbasize_gt)

theorem blockBytes_eq (block : Nat) :
    ns.blockBytes block=min 4 (ns.lbacount-4*block)*ns.lbasize := by
  have h : block*ns.cacheblocksize=4*block*ns.lbasize := by
    rw [cacheblocksize]
    ring
  rw [blockBytes,LbaSizes.size,h,← Nat.sub_mul,cacheblocksize,Nat.mul_comm ns.lbasize 4]
  exact (Nat.mul_min_mul_right 4 _ ns.lbasize)

end

def sector (ns : Namespace) (addr : Nat) : Nat := addr/ns.cacheblocksize

variable {addr : Nat}

variable (ns : Namespace)

theorem sector_lt (h : addr < 2^64) : ns.sector addr < 2^61 := by
  have hcbs : 8 ≤ ns.cacheblocksize := by
    have := ns.lbasize_gt
    rw [cacheblocksize]
    omega
  exact Nat.div_lt_of_lt_mul (Nat.lt_of_lt_of_le h (by omega))

theorem sector_add (addr : Nat) : ns.sector addr*ns.cacheblocksize+addr%ns.cacheblocksize=addr := by
  rw [sector,Nat.mul_comm]
  exact Nat.div_add_mod _ _

theorem sector_inside (h : addr < ns.size) : 4*ns.sector addr < ns.lbacount := by
  rw [← ns.block_lt_iff]
  have := ns.sector_add addr
  omega

theorem chunk_le (hn : n ≤ ns.cacheblocksize-addr%ns.cacheblocksize) (h : addr+n ≤ ns.size) :
    addr%ns.cacheblocksize+n ≤ ns.blockBytes (ns.sector addr) := by
  have hadd := ns.sector_add addr
  have hmod := Nat.mod_lt addr ns.cacheblocksize_pos
  rw [blockBytes]
  omega

theorem blocks_disjoint {b c k : Nat} (hne : b≠c) (hk : k < ns.blockBytes b) :
    ¬(c*ns.cacheblocksize ≤ b*ns.cacheblocksize+k ∧
      b*ns.cacheblocksize+k < c*ns.cacheblocksize+ns.blockBytes c) := by
  have hle : ∀ d, ns.blockBytes d ≤ ns.cacheblocksize := fun d => Nat.min_le_left _ _
  have hkb := Nat.lt_of_lt_of_le hk (hle b)
  have hc := hle c
  rcases Nat.lt_or_gt_of_ne hne with hlt | hgt
  · have h := Nat.mul_le_mul_right ns.cacheblocksize hlt
    rw [Nat.succ_mul] at h
    omega
  · have h := Nat.mul_le_mul_right ns.cacheblocksize hgt
    rw [Nat.succ_mul] at h
    omega

end Namespace

/-- What the device sees of cmd.rw: it transfers len+1 LBAs from slba on. -/
structure RwCommand where
  write : Bool
  slba : Nat
  len : Nat

def RwCommand.InRange (ns : Namespace) (c : RwCommand) : Prop := c.slba+c.len < ns.lbacount

/-- The completion of a command. A command that fails leaves some bytes in the
place to which it should transfer. -/
structure Answer where
  status : BitVec 15
  bytes : Nat → BitVec 8

/-- A device answers its n-th command as it likes, but for LBAs it does not have. -/
structure Device (ns : Namespace) where
  answer : Nat → RwCommand → Answer
  refuses : ∀ n c, ¬c.InRange ns → (answer n c).status≠0

/-- struct cachedblock; the buffer has cacheblocksize bytes. -/
structure CachedBlock where
  cache : Nat → BitVec 8
  block : Nat
  status : Nat

/-- The cache of struct nvme_nsdevice, with the contents of the disk, the number of commands that
were submitted and that of those that came back with an error. -/
structure Drive where
  cache : Nat → CachedBlock
  overwritten : Nat
  commands : Nat
  disk : Nat → BitVec 8
  failed : Nat

def nvmeReadycache : Nat := 1

def ssizeT (count : Nat) : Int := if count < 2^63 then count else (count : Int)-2^64

@[irreducible] def cacheSlots : List Nat := List.range 512

theorem mem_cacheSlots {i : Nat} : i∈cacheSlots ↔ i < 512 := by
  unfold cacheSlots
  exact List.mem_range

def cutCount (lbacount start count : Nat) : Nat :=
  if lbacount ≤ add64 start count then sub64 count (sub64 (add64 start count) lbacount) else count

theorem cutCount_block {lbacount block : Nat} (hb : block < 2^61) (h : 4*block < lbacount) :
    cutCount lbacount (4*block) 4=min 4 (lbacount-4*block) := by
  rw [cutCount,add64_eq (by omega)]
  split
  · have hpast : sub64 (4*block+4) lbacount=4*block+4-lbacount := sub64_eq (by omega) (by omega)
    rw [hpast,sub64_eq (by omega) (by omega)]
    omega
  · omega

def rwCommand (lbacount start count : Nat) (write : Bool) : RwCommand :=
  ⟨write,start,sub64 (cutCount lbacount start count) 1%2^16⟩

theorem rwCommand_block {lbacount block : Nat} (hb : block < 2^61) (h : 4*block < lbacount) (write : Bool) :
    rwCommand lbacount (4*block) 4 write=⟨write,4*block,min 4 (lbacount-4*block)-1⟩ := by
  rw [rwCommand,cutCount_block hb h,sub64_eq (by omega) (by omega),Nat.mod_eq_of_lt (by omega)]

/-- What nvme_read and nvme_write look up in the cache: the blocks of its slots. -/
structure CacheDir where
  block : Nat → Nat
  ready : Nat → Bool
  overwritten : Nat

namespace CacheDir

/-- nvme_findblock; none stands for -1. -/
def nvmeFindblock (s : CacheDir) (block : Nat) : Option Nat :=
  cacheSlots.find? (fun i => s.block i=block ∧ s.ready i=true)

def cacheTarget (s : CacheDir) : Nat × Nat :=
  match cacheSlots.find? (fun i => s.ready i=false) with
  | some target => (target,s.overwritten)
  | none => if s.overwritten=512 then (0,0) else (s.overwritten,s.overwritten+1)

theorem nvmeFindblock_some {s : CacheDir} {block : Nat} (h : s.nvmeFindblock block=some slot) :
    slot < 512 ∧ s.block slot=block ∧ s.ready slot=true := by
  rw [nvmeFindblock] at h
  have hfound := List.find?_some h
  exact ⟨mem_cacheSlots.mp (List.mem_of_find?_eq_some h),of_decide_eq_true hfound⟩

theorem cacheTarget_spec (s : CacheDir) (hnext : s.overwritten ≤ 512) :
    s.cacheTarget.1 < 512 ∧ s.cacheTarget.2 ≤ 512 := by
  unfold cacheTarget
  split
  · rename_i target hfree
    exact ⟨mem_cacheSlots.mp (List.mem_of_find?_eq_some hfree),hnext⟩
  · split
    · exact ⟨Nat.zero_lt_succ 511,Nat.zero_le 512⟩
    · rename_i hne
      have hlt : s.overwritten < 512 := Nat.lt_of_le_of_ne hnext hne
      exact ⟨hlt,hlt⟩

end CacheDir

namespace Drive

variable (ns : Namespace) (dev : Device ns)

def dir (s : Drive) : CacheDir :=
  ⟨fun i => (s.cache i).block,fun i => (s.cache i).status≠0,s.overwritten⟩

def setCache (s : Drive) (slot : Nat) (b : CachedBlock) : Drive :=
  { s with cache := update s.cache slot b }

def nvmeRwlba (s : Drive) (slot start count : Nat) (write : Bool) : Int × Drive :=
  let c := rwCommand ns.lbacount start count write
  let a := dev.answer s.commands c
  let n := (c.len+1)*ns.lbasize
  let b := s.cache slot
  let s :=
    if write then
      { s with
        disk := overlay s.disk (c.slba*ns.lbasize)
          (if a.status=0 then window b.cache 0 n
          else window a.bytes 0 (min n (ns.size-c.slba*ns.lbasize))) }
    else
      s.setCache slot { b with
        cache := overlay b.cache 0
          (if a.status=0 then window s.disk (c.slba*ns.lbasize) n
          else window a.bytes 0 ns.cacheblocksize) }
  (a.status.toNat,{ s with
    commands := s.commands+1, failed := if a.status=0 then s.failed else s.failed+1 })

def nvmeFindblock (s : Drive) (block : Nat) : Option Nat := s.dir.nvmeFindblock block

def cacheTarget (s : Drive) : Nat × Drive :=
  (s.dir.cacheTarget.1,{ s with overwritten := s.dir.cacheTarget.2 })

/-- nvme_cacheblock; none stands for -1. A buffer from malloc has the bytes that
the slot had. -/
def nvmeCacheblock (s : Drive) (block : Nat) : Option Nat × Drive :=
  let x := s.cacheTarget
  let lbas := ns.cacheblocksize/ns.lbasize
  let y := x.2.nvmeRwlba ns dev x.1 (lbas*block%2^64) lbas false
  if y.1= -1 then (none,y.2)
  else
    (some x.1,y.2.setCache x.1
      { y.2.cache x.1 with block := block, status := nvmeReadycache })

def slotOf (s : Drive) (block : Nat) : Option Nat × Drive :=
  match s.nvmeFindblock block with
  | some slot => (some slot,s)
  | none => s.nvmeCacheblock ns dev block

/-- The loop of nvme_read, for at most so many rounds: the result, the bytes that
it copies and the state. -/
def readLoop (loc count : Nat) : Nat → Nat → Drive → Option (Int × List (BitVec 8) × Drive)
  | 0,_,_ => none
  | n+1,progress,s =>
    if progress < count then
      let x := s.slotOf ns dev (ns.sector (add64 loc progress))
      match x.1 with
      | none => some (-1,[],x.2)
      | some slot =>
        let off := add64 loc progress%ns.cacheblocksize
        let chunk := min (count-progress) (ns.cacheblocksize-off)
        (readLoop loc count n (progress+chunk) x.2).map (fun y =>
          (y.1,window (x.2.cache slot).cache off chunk++y.2.1,y.2.2))
    else some (ssizeT count,[],s)

def nvmeRead (s : Drive) (loc count : Nat) : Option (Int × List (BitVec 8) × Drive) :=
  readLoop ns dev loc count (count+1) 0 s

def writeLoop (buf : List (BitVec 8)) (loc : Nat) : Nat → Nat → Drive → Option (Int × Drive)
  | 0,_,_ => none
  | n+1,progress,s =>
    if progress < buf.length then
      let x := s.slotOf ns dev (ns.sector (add64 loc progress))
      match x.1 with
      | none => some (-1,x.2)
      | some slot =>
        let off := add64 loc progress%ns.cacheblocksize
        let chunk := min (buf.length-progress) (ns.cacheblocksize-off)
        let b := x.2.cache slot
        let s := x.2.setCache slot { b with
          cache := overlay b.cache off ((buf.drop progress).take chunk), status := nvmeReadycache }
        let lbas := ns.cacheblocksize/ns.lbasize
        let y := s.nvmeRwlba ns dev slot (lbas*b.block%2^64) lbas true
        if y.1= -1 then some (-1,y.2) else writeLoop buf loc n (progress+chunk) y.2
    else some (ssizeT buf.length,s)

def nvmeWrite (s : Drive) (buf : List (BitVec 8)) (loc : Nat) : Option (Int × Drive) :=
  writeLoop ns dev buf loc (buf.length+1) 0 s

variable {ns} {dev}

theorem rwCommand_inRange {block : Nat} (hb : block < 2^61) (write : Bool) :
    (rwCommand ns.lbacount (4*block) 4 write).InRange ns ↔ 4*block < ns.lbacount := by
  constructor
  · intro h
    exact Nat.lt_of_le_of_lt (Nat.le_add_right _ _) h
  · intro h
    rw [rwCommand_block hb h,RwCommand.InRange]
    dsimp only
    omega

section
variable (s : Drive) (slot start count : Nat) (write : Bool)

theorem nvmeRwlba_ret : (s.nvmeRwlba ns dev slot start count write).1≠ -1 := by
  rw [nvmeRwlba]
  dsimp only
  omega

theorem nvmeRwlba_failed :
    (s.nvmeRwlba ns dev slot start count write).2.failed=
      if (dev.answer s.commands (rwCommand ns.lbacount start count write)).status=0 then s.failed
      else s.failed+1 := by
  rw [nvmeRwlba]
  cases write <;> rfl

theorem nvmeRwlba_le : s.failed ≤ (s.nvmeRwlba ns dev slot start count write).2.failed := by
  rw [nvmeRwlba_failed]
  split <;> omega

end

variable {s s' : Drive} {bytes : List (BitVec 8)} {off : Nat}

theorem nvmeRwlba_inside {block : Nat} {write : Bool} (hb : block < 2^61)
    (h : (s.nvmeRwlba ns dev slot (4*block) 4 write).2.failed=s.failed) :
    4*block < ns.lbacount ∧
      (dev.answer s.commands (rwCommand ns.lbacount (4*block) 4 write)).status=0 := by
  rw [nvmeRwlba_failed] at h
  split at h
  · rename_i hstatus
    refine ⟨?_,hstatus⟩
    rw [← rwCommand_inRange hb write]
    by_contra hout
    exact dev.refuses _ _ hout hstatus
  · omega

theorem transfer_eq {block : Nat} (h : 4*block < ns.lbacount) :
    (min 4 (ns.lbacount-4*block)-1+1)*ns.lbasize=ns.blockBytes block ∧
      4*block*ns.lbasize=block*ns.cacheblocksize := by
  refine ⟨?_,?_⟩
  · rw [ns.blockBytes_eq,Nat.sub_add_cancel (by omega)]
  · rw [Namespace.cacheblocksize]
    ring

theorem nvmeRwlba_read {block : Nat} (hb : block < 2^61)
    (h : (s.nvmeRwlba ns dev slot (4*block) 4 false).2.failed=s.failed) :
    (s.nvmeRwlba ns dev slot (4*block) 4 false).2=
      { s.setCache slot { s.cache slot with
          cache := overlay (s.cache slot).cache 0
            (window s.disk (block*ns.cacheblocksize) (ns.blockBytes block)) } with
        commands := s.commands+1 } := by
  obtain ⟨hlt,hstatus⟩ := nvmeRwlba_inside hb h
  rw [rwCommand_block hb hlt] at hstatus
  obtain ⟨hbytes,hfirst⟩ := transfer_eq hlt
  rw [nvmeRwlba]
  simp only [rwCommand_block hb hlt,hstatus,if_true,hbytes,hfirst,Bool.false_eq_true,if_false]
  rfl

theorem nvmeRwlba_write {block : Nat} (hb : block < 2^61)
    (h : (s.nvmeRwlba ns dev slot (4*block) 4 true).2.failed=s.failed) :
    (s.nvmeRwlba ns dev slot (4*block) 4 true).2=
      { s with
        disk := overlay s.disk (block*ns.cacheblocksize)
          (window (s.cache slot).cache 0 (ns.blockBytes block))
        commands := s.commands+1 } := by
  obtain ⟨hlt,hstatus⟩ := nvmeRwlba_inside hb h
  rw [rwCommand_block hb hlt] at hstatus
  obtain ⟨hbytes,hfirst⟩ := transfer_eq hlt
  rw [nvmeRwlba]
  simp only [rwCommand_block hb hlt,hstatus,if_true,hbytes,hfirst]

/-- Every valid slot has the bytes of its block, and no block has two slots. -/
structure Coherent (ns : Namespace) (s : Drive) : Prop where
  label : ∀ i < 512, (s.cache i).status≠0 → (s.cache i).block < 2^61
  holds : ∀ i < 512, (s.cache i).status≠0 → ∀ k < ns.blockBytes (s.cache i).block,
    (s.cache i).cache k=s.disk ((s.cache i).block*ns.cacheblocksize+k)
  distinct : ∀ i < 512, ∀ j < 512, (s.cache i).status≠0 → (s.cache j).status≠0 →
    (s.cache i).block=(s.cache j).block → i=j
  next : s.overwritten ≤ 512

theorem nvmeFindblock_some {block : Nat} (h : s.nvmeFindblock block=some slot) :
    slot < 512 ∧ (s.cache slot).block=block ∧ (s.cache slot).status≠0 := by
  obtain ⟨hlt,hblock,hready⟩ := CacheDir.nvmeFindblock_some h
  exact ⟨hlt,hblock,of_decide_eq_true hready⟩

theorem nvmeFindblock_none {block i : Nat} (h : s.nvmeFindblock block=none) (hi : i < 512)
    (hv : (s.cache i).status≠0) : (s.cache i).block≠block := by
  rw [nvmeFindblock,CacheDir.nvmeFindblock,List.find?_eq_none] at h
  intro hblock
  exact h i (mem_cacheSlots.mpr hi) (decide_eq_true ⟨hblock,decide_eq_true hv⟩)

theorem Coherent.fill (hs : s.Coherent ns) {block : Nat} (hb : block < 2^61)
    (hnew : ∀ i < 512, (s.cache i).status≠0 → (s.cache i).block≠block) {c : Nat → BitVec 8}
    (hc : ∀ k < ns.blockBytes block, c k=s.disk (block*ns.cacheblocksize+k)) {status : Nat} :
    (s.setCache slot ⟨c,block,status⟩).Coherent ns := by
  refine ⟨?_,?_,?_,hs.next⟩
  · intro i hi hv
    by_cases his : i=slot
    · simp only [setCache,his,update_self]
      exact hb
    · simp only [setCache,update_of_ne his] at hv ⊢
      exact hs.label i hi hv
  · intro i hi hv
    by_cases his : i=slot
    · simpa [setCache,his] using hc
    · simp only [setCache,update_of_ne his] at hv ⊢
      exact hs.holds i hi hv
  · intro i hi j hj hvi hvj hij
    by_cases his : i=slot <;> by_cases hjs : j=slot
    · rw [his,hjs]
    · subst his
      simp only [setCache,update_self,update_of_ne hjs] at hvj hij
      exact absurd hij.symm (hnew j hj hvj)
    · subst hjs
      simp only [setCache,update_self,update_of_ne his] at hvi hij
      exact absurd hij (hnew i hi hvi)
    · simp only [setCache,update_of_ne his,update_of_ne hjs] at hvi hvj hij
      exact hs.distinct i hi j hj hvi hvj hij

theorem block_mod {block : Nat} (hb : block < 2^61) : 4*block%2^64=4*block :=
  Nat.mod_eq_of_lt (by omega)

variable (ns) (dev) in
def filled (s : Drive) (slot block : Nat) : Drive :=
  let s := (s.nvmeRwlba ns dev slot (4*block) 4 false).2
  s.setCache slot { s.cache slot with block := block, status := nvmeReadycache }

/-- nvme_cacheblock never returns -1. -/
theorem nvmeCacheblock_eq (s : Drive) {block : Nat} (hb : block < 2^61) :
    s.nvmeCacheblock ns dev block=
      (some s.cacheTarget.1,s.cacheTarget.2.filled ns dev s.cacheTarget.1 block) := by
  simp only [nvmeCacheblock,ns.lbas_eq,block_mod hb]
  rw [if_neg (nvmeRwlba_ret _ _ _ _ _)]
  rfl

theorem slotOf_hit {block : Nat} (h : s.nvmeFindblock block=some slot) :
    s.slotOf ns dev block=(some slot,s) := by
  rw [slotOf,h]

theorem slotOf_miss {block : Nat} (hb : block < 2^61) (h : s.nvmeFindblock block=none) :
    s.slotOf ns dev block=
      (some s.cacheTarget.1,s.cacheTarget.2.filled ns dev s.cacheTarget.1 block) := by
  rw [slotOf,h,← nvmeCacheblock_eq s hb]

theorem Coherent.filled (hs : s.Coherent ns) {block : Nat} (hb : block < 2^61)
    (hnew : ∀ i < 512, (s.cache i).status≠0 → (s.cache i).block≠block)
    (h : (s.filled ns dev slot block).failed=s.failed) :
    (s.filled ns dev slot block).Coherent ns ∧ (s.filled ns dev slot block).disk=s.disk := by
  have heq : s.filled ns dev slot block={ s.setCache slot ⟨overlay (s.cache slot).cache 0
      (window s.disk (block*ns.cacheblocksize) (ns.blockBytes block)),block,nvmeReadycache⟩ with
        commands := s.commands+1 } := by
    simp only [Drive.filled,nvmeRwlba_read hb h,setCache,update_self,update_idem]
  have hbytes : ∀ k < ns.blockBytes block, overlay (s.cache slot).cache 0
      (window s.disk (block*ns.cacheblocksize) (ns.blockBytes block)) k=
      s.disk (block*ns.cacheblocksize+k) := by
    intro k hk
    rw [overlay_window,if_pos (by omega),Nat.sub_zero]
  obtain ⟨hlabel,hholds,hdistinct,hnext⟩ : (s.setCache slot _).Coherent ns := hs.fill hb hnew hbytes
  rw [heq]
  exact ⟨⟨hlabel,hholds,hdistinct,hnext⟩,rfl⟩

theorem Coherent.slotOf (hs : s.Coherent ns) {block : Nat} (hb : block < 2^61) {o : Option Nat}
    (h : s.slotOf ns dev block=(o,s')) (hf : s'.failed=s.failed) :
    ∃ slot, o=some slot ∧ slot < 512 ∧ (s'.cache slot).block=block ∧
      (s'.cache slot).status≠0 ∧ s'.Coherent ns ∧ s'.disk=s.disk := by
  cases hfind : s.nvmeFindblock block with
  | some slot =>
    rw [slotOf_hit hfind] at h
    cases h
    obtain ⟨hlt,hblock,hv⟩ := nvmeFindblock_some hfind
    exact ⟨slot,rfl,hlt,hblock,hv,hs,rfl⟩
  | none =>
    obtain ⟨htarget,hn⟩ := s.dir.cacheTarget_spec hs.next
    rw [slotOf_miss hb hfind] at h
    cases h
    have hs₁ : s.cacheTarget.2.Coherent ns := ⟨hs.label,hs.holds,hs.distinct,hn⟩
    have hnew : ∀ i < 512, (s.cacheTarget.2.cache i).status≠0 →
        (s.cacheTarget.2.cache i).block≠block := fun i hi hv => nvmeFindblock_none hfind hi hv
    obtain ⟨hco,hdisk⟩ := hs₁.filled hb hnew hf
    refine ⟨_,rfl,htarget,?_,?_,hco,hdisk⟩
    · simp [Drive.filled,setCache]
    · simp [Drive.filled,setCache,nvmeReadycache]

theorem slotOf_isSome (s : Drive) {block : Nat} (hb : block < 2^61) :
    ∃ slot s', s.slotOf ns dev block=(some slot,s') ∧ (s'.cache slot).block=block ∧
      s.failed ≤ s'.failed := by
  cases hfind : s.nvmeFindblock block with
  | some slot => exact ⟨slot,s,slotOf_hit hfind,(nvmeFindblock_some hfind).2.1,le_rfl⟩
  | none =>
    exact ⟨_,_,slotOf_miss hb hfind,by simp [Drive.filled,setCache],
      nvmeRwlba_le s.cacheTarget.2 _ _ _ _⟩

def Executes (dev : Device ns) : Prop :=
  ∀ n c, c.InRange ns → (dev.answer n c).status=0

theorem nvmeRwlba_executes (hdev : Executes dev) {block : Nat} {write : Bool} (hb : block < 2^61)
    (h : 4*block < ns.lbacount) :
    (s.nvmeRwlba ns dev slot (4*block) 4 write).2.failed=s.failed := by
  rw [nvmeRwlba_failed,if_pos (hdev _ _ ((rwCommand_inRange hb write).mpr h))]

theorem slotOf_executes (hdev : Executes dev) {block : Nat} {o : Option Nat} (hb : block < 2^61)
    (hlt : 4*block < ns.lbacount) (h : s.slotOf ns dev block=(o,s')) : s'.failed=s.failed := by
  cases hfind : s.nvmeFindblock block with
  | some slot =>
    rw [slotOf_hit hfind] at h
    cases h
    rfl
  | none =>
    rw [slotOf_miss hb hfind] at h
    cases h
    exact nvmeRwlba_executes hdev (s := s.cacheTarget.2) hb hlt

variable (ns) (dev) in
def stored (s : Drive) (slot off : Nat) (bytes : List (BitVec 8)) : Drive :=
  ((s.setCache slot { s.cache slot with
    cache := overlay (s.cache slot).cache off bytes, status := nvmeReadycache }).nvmeRwlba ns dev
      slot (4*(s.cache slot).block) 4 true).2

theorem stored_le (s : Drive) (slot off : Nat) (bytes : List (BitVec 8)) :
    s.failed ≤ (s.stored ns dev slot off bytes).failed :=
  nvmeRwlba_le (s.setCache slot _) _ _ _ _

theorem stored_eq (hb : (s.cache slot).block < 2^61)
    (h : (s.stored ns dev slot off bytes).failed=s.failed) :
    s.stored ns dev slot off bytes={ s.setCache slot { s.cache slot with
        cache := overlay (s.cache slot).cache off bytes, status := nvmeReadycache } with
      disk := overlay s.disk ((s.cache slot).block*ns.cacheblocksize)
        (window (overlay (s.cache slot).cache off bytes) 0 (ns.blockBytes (s.cache slot).block))
      commands := s.commands+1 } := by
  rw [stored,nvmeRwlba_write hb h]
  simp only [setCache,update_self]

theorem Coherent.stored (hs : s.Coherent ns) (hslot : slot < 512) (hv : (s.cache slot).status≠0)
    (h : (s.stored ns dev slot off bytes).failed=s.failed) :
    (s.stored ns dev slot off bytes).Coherent ns := by
  have hb := hs.label slot hslot hv
  have heq := stored_eq hb h
  have hlabel : ∀ i, ((s.stored ns dev slot off bytes).cache i).block=(s.cache i).block ∧
      (((s.stored ns dev slot off bytes).cache i).status≠0 → (s.cache i).status≠0) := by
    intro i
    rw [heq]
    by_cases his : i=slot
    · simp [setCache,his,hv]
    · simp [setCache,update_of_ne his]
  refine ⟨?_,?_,?_,by rw [heq]; exact hs.next⟩
  · intro i hi hvi
    rw [(hlabel i).1]
    exact hs.label i hi ((hlabel i).2 hvi)
  · intro i hi hvi k hk
    rw [(hlabel i).1] at hk ⊢
    rw [heq]
    by_cases his : i=slot
    · subst his
      simp only [setCache,update_self]
      rw [overlay_window,if_pos (by omega)]
      congr 1
      omega
    · simp only [setCache,update_of_ne his]
      rw [overlay_window,if_neg]
      · exact hs.holds i hi ((hlabel i).2 hvi) k hk
      · have hne : (s.cache i).block≠(s.cache slot).block :=
          fun he => his (hs.distinct i hi slot hslot ((hlabel i).2 hvi) hv he)
        exact ns.blocks_disjoint hne hk
  · intro i hi j hj hvi hvj hij
    rw [(hlabel i).1,(hlabel j).1] at hij
    exact hs.distinct i hi j hj ((hlabel i).2 hvi) ((hlabel j).2 hvj) hij

theorem Coherent.stored_disk (hs : s.Coherent ns) (hslot : slot < 512)
    (hv : (s.cache slot).status≠0) (hlen : off+bytes.length ≤ ns.blockBytes (s.cache slot).block)
    (h : (s.stored ns dev slot off bytes).failed=s.failed) :
    (s.stored ns dev slot off bytes).disk=
      overlay s.disk ((s.cache slot).block*ns.cacheblocksize+off) bytes := by
  rw [stored_eq (hs.label slot hslot hv) h]
  exact overlay_copy (hs.holds slot hslot hv) hlen

theorem readLoop_round {loc count progress : Nat} (hlt : progress < count)
    (h : s.slotOf ns dev (ns.sector (add64 loc progress))=(some slot,s')) :
    readLoop ns dev loc count (n+1) progress s=
      (readLoop ns dev loc count n (progress+min (count-progress)
        (ns.cacheblocksize-add64 loc progress%ns.cacheblocksize)) s').map (fun y =>
          (y.1,window (s'.cache slot).cache (add64 loc progress%ns.cacheblocksize)
            (min (count-progress) (ns.cacheblocksize-add64 loc progress%ns.cacheblocksize))++y.2.1,
            y.2.2)) := by
  rw [readLoop,if_pos hlt,h]

theorem writeLoop_round {buf : List (BitVec 8)} {loc progress : Nat} (hlt : progress < buf.length)
    (h : s.slotOf ns dev (ns.sector (add64 loc progress))=(some slot,s'))
    (hb : (s'.cache slot).block < 2^61) :
    writeLoop ns dev buf loc (n+1) progress s=
      writeLoop ns dev buf loc n (progress+min (buf.length-progress)
        (ns.cacheblocksize-add64 loc progress%ns.cacheblocksize))
        (s'.stored ns dev slot (add64 loc progress%ns.cacheblocksize)
          ((buf.drop progress).take (min (buf.length-progress)
            (ns.cacheblocksize-add64 loc progress%ns.cacheblocksize)))) := by
  rw [writeLoop,if_pos hlt,h]
  dsimp only
  rw [if_neg (nvmeRwlba_ret _ _ _ _ _),ns.lbas_eq,block_mod hb]
  rfl

end Drive

end X64OS.Drivers
