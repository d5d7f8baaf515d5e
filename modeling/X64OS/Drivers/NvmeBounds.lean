import X64OS.Drivers.NvmeCommands
import X64OS.Drivers.NvmeRuns

namespace X64OS.Drivers

open Framework Function

/-- A command is inside the namespace and its bytes are inside a cache block. -/
def RwCommand.Fits (lbasize lbacount : Nat) (c : RwCommand) : Prop :=
  c.slba+(c.len+1) ≤ lbacount ∧ (c.len+1)*lbasize ≤ lbasize*4

theorem rwCommand_fits_iff {lbasize lbacount block : Nat} (hb : block < 2^61) (write : Bool) :
    (rwCommand lbacount (4*block) 4 write).Fits lbasize lbacount ↔ 4*block < lbacount := by
  constructor
  · intro h
    have hslba : 4*block+((rwCommand lbacount (4*block) 4 write).len+1) ≤ lbacount := h.1
    omega
  · intro h
    rw [rwCommand_block hb h,RwCommand.Fits,Nat.mul_comm lbasize 4]
    refine ⟨?_,Nat.mul_le_mul_right _ (by dsimp only; omega)⟩
    dsimp only
    omega

namespace CacheDir

variable (lbasize lbacount : Nat)

def fill (s : CacheDir) (slot block : Nat) : CacheDir :=
  { s with block := update s.block slot block, ready := update s.ready slot true }

def slotOf (s : CacheDir) (block : Nat) : Nat × List RwCommand × CacheDir :=
  match s.nvmeFindblock block with
  | some slot => (slot,[],s)
  | none =>
    (s.cacheTarget.1,[rwCommand lbacount (4*block) 4 false],
      { s with overwritten := s.cacheTarget.2 }.fill s.cacheTarget.1 block)

def round (write : Bool) (addr : Nat) (s : CacheDir) : List RwCommand × CacheDir :=
  let x := s.slotOf lbacount (addr/(lbasize*4))
  if write then
    (x.2.1++[rwCommand lbacount (4*x.2.2.block x.1) 4 true],x.2.2.fill x.1 (x.2.2.block x.1))
  else x.2

def requestLoop (write : Bool) (loc count : Nat) :
    Nat → Nat → CacheDir → Option (List RwCommand × CacheDir)
  | 0,_,_ => none
  | n+1,progress,s =>
    if progress < count then
      let addr := add64 loc progress
      let x := s.round lbasize lbacount write addr
      (requestLoop write loc count n
        (progress+min (count-progress) (lbasize*4-addr%(lbasize*4))) x.2).map (fun y => (x.1++y.1,y.2))
    else some ([],s)

def request (write : Bool) (loc count : Nat) (s : CacheDir) : Option (List RwCommand × CacheDir) :=
  s.requestLoop lbasize lbacount write loc count (count+1) 0

variable {lbasize lbacount}

/-- The commands so far have read the block of each slot that is ready. -/
def Logged (lbacount : Nat) (log : List RwCommand) (s : CacheDir) : Prop :=
  ∀ i < 512, s.ready i=true → rwCommand lbacount (4*s.block i) 4 false∈log

theorem Logged.fill {log : List RwCommand} {s : CacheDir} (h : s.Logged lbacount log) {slot block : Nat}
    (hin : rwCommand lbacount (4*block) 4 false∈log) : (s.fill slot block).Logged lbacount log := by
  intro i hi hready
  by_cases his : i=slot
  · rw [his,CacheDir.fill]
    dsimp only
    rwa [update_self]
  · rw [CacheDir.fill] at hready ⊢
    dsimp only at hready ⊢
    rw [update_of_ne his] at hready ⊢
    exact h i hi hready

/-- A lookup reads its block, if it has to, and after it the block has been read. -/
structure LooksUp (lbacount : Nat) (s : CacheDir) (block slot : Nat) (log : List RwCommand)
    (s' : CacheDir) : Prop where
  block_eq : s'.block slot=block
  commands : ∀ c∈log, c=rwCommand lbacount (4*block) 4 false
  logged : ∀ {pre}, s.Logged lbacount pre → s'.Logged lbacount (pre++log)
  covers : ∀ {pre}, s.Logged lbacount pre → rwCommand lbacount (4*block) 4 false∈pre++log

theorem slotOf_looksUp (lbacount : Nat) (s : CacheDir) (block : Nat) :
    LooksUp lbacount s block (s.slotOf lbacount block).1 (s.slotOf lbacount block).2.1
      (s.slotOf lbacount block).2.2 := by
  rw [slotOf]
  cases hfind : s.nvmeFindblock block with
  | some slot =>
    obtain ⟨hslot,hblock,hready⟩ := nvmeFindblock_some hfind
    refine ⟨hblock,fun c hc => absurd hc List.not_mem_nil,?_,?_⟩
    · intro pre h
      rwa [List.append_nil]
    · intro pre h
      rw [List.append_nil,← hblock]
      exact h slot hslot hready
  | none =>
    refine ⟨update_self _ _ _,fun c hc => List.mem_singleton.mp hc,?_,fun _ => by simp⟩
    intro pre h
    refine Logged.fill ?_ (by simp)
    intro i hi hready
    exact List.mem_append_left _ (h i hi hready)

theorem round_looksUp (lbasize lbacount : Nat) (s : CacheDir) (write : Bool) (addr : Nat) :
    (∀ c∈(s.round lbasize lbacount write addr).1,
      ∃ w, c=rwCommand lbacount (4*(addr/(lbasize*4))) 4 w) ∧
    ∀ {pre}, s.Logged lbacount pre →
      (s.round lbasize lbacount write addr).2.Logged lbacount
        (pre++(s.round lbasize lbacount write addr).1) ∧
      rwCommand lbacount (4*(addr/(lbasize*4))) 4 false∈pre++(s.round lbasize lbacount write addr).1 := by
  have h := s.slotOf_looksUp lbacount (addr/(lbasize*4))
  rw [round]
  generalize s.slotOf lbacount (addr/(lbasize*4))=x at h
  obtain ⟨slot,log,s'⟩ := x
  dsimp only at h ⊢
  cases write with
  | false => exact ⟨fun c hc => ⟨false,h.commands c hc⟩,fun hpre => ⟨h.logged hpre,h.covers hpre⟩⟩
  | true =>
    rw [if_pos rfl,h.block_eq]
    refine ⟨?_,?_⟩
    · intro c hc
      rcases List.mem_append.mp hc with hread | hwrite
      · exact ⟨false,h.commands c hread⟩
      · exact ⟨true,List.mem_singleton.mp hwrite⟩
    · intro pre hpre
      dsimp only
      rw [← List.append_assoc]
      have hin := List.mem_append_left [rwCommand lbacount (4*(addr/(lbasize*4))) 4 true] (h.covers hpre)
      refine ⟨Logged.fill ?_ hin,hin⟩
      intro i hi hready
      exact List.mem_append_left _ (h.logged hpre i hi hready)

end CacheDir

variable {loc progress n : Nat}

theorem same_block {cbs k : Nat} (hcbs : cbs∣2^64) (hle : progress ≤ k)
    (hlt : k < progress+(cbs-add64 loc progress%cbs)) : add64 loc k/cbs=add64 loc progress/cbs := by
  generalize haddr : add64 loc progress=addr at hlt ⊢
  have hpos : 0 < cbs := Nat.pos_of_dvd_of_pos hcbs (by decide)
  have haddrLt : addr < 2^64 := by
    rw [← haddr]
    exact Nat.mod_lt _ (by decide)
  obtain ⟨blocks,hblocks⟩ := hcbs
  have hlast : addr/cbs < blocks := Nat.div_lt_of_lt_mul (by omega)
  have hend : cbs*(addr/cbs+1) ≤ cbs*blocks := Nat.mul_le_mul_left _ hlast
  have hdiv := Nat.div_add_mod addr cbs
  rw [Nat.mul_add,Nat.mul_one] at hend
  have hk : add64 loc k=addr+(k-progress) := by
    have hsum : loc+k=loc+progress+(k-progress) := by omega
    rw [add64] at haddr ⊢
    rw [hsum,Nat.add_mod,haddr,Nat.add_mod_mod,Nat.mod_eq_of_lt (by omega)]
  rw [hk]
  apply Nat.div_eq_of_lt_le
  · rw [Nat.mul_comm]
    omega
  · rw [Nat.add_mul,Nat.one_mul,Nat.mul_comm]
    omega

namespace CacheDir

/-- What the loop submits from progress on: commands for blocks with a byte of the request,
and, if the log has the blocks in the cache, a command for each such block. -/
structure Requests (lbasize lbacount loc count progress : Nat) (s : CacheDir) (log : List RwCommand) :
    Prop where
  commands : ∀ c∈log, ∃ k, progress ≤ k ∧ k < count ∧
    ∃ w, c=rwCommand lbacount (4*(add64 loc k/(lbasize*4))) 4 w
  covers : lbasize*4∣2^64 → ∀ pre, s.Logged lbacount pre → ∀ k, progress ≤ k → k < count →
    rwCommand lbacount (4*(add64 loc k/(lbasize*4))) 4 false∈pre++log

theorem requestLoop_requests {lbasize : Nat} (hlba : 0 < lbasize) (lbacount : Nat) (write : Bool)
    (loc : Nat) {count : Nat} (s : CacheDir) (hn : count-progress < n) : ∃ log s',
      s.requestLoop lbasize lbacount write loc count n progress=some (log,s') ∧
      Requests lbasize lbacount loc count progress s log := by
  induction n generalizing progress s with
  | zero => cases hn
  | succ n ih =>
    rw [requestLoop]
    by_cases hlt : progress < count
    · rw [if_pos hlt]
      dsimp only
      obtain ⟨hcommands,hlogged⟩ := s.round_looksUp lbasize lbacount write (add64 loc progress)
      generalize s.round lbasize lbacount write (add64 loc progress)=x at hcommands hlogged
      have hmod := Nat.mod_lt (add64 loc progress) (show 0 < lbasize*4 by omega)
      generalize hchunk : min (count-progress) (lbasize*4-add64 loc progress%(lbasize*4))=chunk
      have hless : count-(progress+chunk) < n := by omega
      obtain ⟨log,s',hrest,hreq⟩ := ih x.2 hless
      rw [hrest]
      refine ⟨_,_,rfl,?_,?_⟩
      · intro c hc
        rcases List.mem_append.mp hc with hround | hlater
        · exact ⟨progress,le_rfl,hlt,hcommands c hround⟩
        · obtain ⟨k,hk,hcount,hw⟩ := hreq.commands c hlater
          exact ⟨k,by omega,hcount,hw⟩
      · intro hcbs pre hpre k hk hcount
        obtain ⟨hnext,hin⟩ := hlogged hpre
        rw [← List.append_assoc]
        -- either the byte belongs to the chunk of this round or to those of later ones
        by_cases hthis : k < progress+chunk
        · rw [same_block hcbs hk (by omega)]
          exact List.mem_append_left _ hin
        · exact hreq.covers hcbs _ hnext k (by omega) hcount
    · rw [if_neg hlt]
      refine ⟨[],s,rfl,fun c hc => absurd hc List.not_mem_nil,?_⟩
      intro _ _ _ k hk hcount
      omega

end CacheDir

/-- lbasize is a power of two. -/
structure LbaFormat extends LbaSizes where
  lbasize_dvd : lbasize∣2^30

namespace LbaFormat

variable (f : LbaFormat)

/-- A call submits only commands that fit, and none if no byte of the request is in the
namespace. -/
def Bounded (write : Bool) (loc count : Nat) (s : CacheDir) : Prop :=
  ∃ log s', s.request f.lbasize f.lbacount write loc count=some (log,s') ∧
    (∀ c∈log, c.Fits f.lbasize f.lbacount) ∧ ((∀ k < count, f.size ≤ add64 loc k) → log=[])

theorem lbasize_pos : 0 < f.lbasize := Nat.lt_trans Nat.zero_lt_one f.lbasize_gt

theorem cacheblocksize_dvd : f.lbasize*4∣2^64 :=
  (Nat.mul_dvd_mul_right f.lbasize_dvd 4).trans (Nat.pow_dvd_pow 2 (show 32 ≤ 64 by decide))

theorem sector_lt (loc k : Nat) : add64 loc k/(f.lbasize*4) < 2^61 := by
  have hgt := f.lbasize_gt
  have hlt : add64 loc k < 2^64 := Nat.mod_lt _ (by decide)
  refine Nat.div_lt_of_lt_mul ?_
  omega

end LbaFormat

def emptyDir : CacheDir := ⟨fun _ => 0,fun _ => false,0⟩

/-- From every state of the cache the commands are in bounds exactly if all blocks of the
request begin in the namespace and it has a byte there. -/
theorem commands_fit_iff (f : LbaFormat) (write : Bool) (loc count : Nat) :
    (∀ s : CacheDir, f.Bounded write loc count s) ↔
      count=0 ∨ ((∀ k < count, 4*(add64 loc k/(f.lbasize*4)) < f.lbacount) ∧
        ∃ k < count, add64 loc k < f.size) := by
  have hspec : ∀ s : CacheDir, ∃ log s', s.request f.lbasize f.lbacount write loc count=some (log,s') ∧
      CacheDir.Requests f.lbasize f.lbacount loc count 0 s log :=
    fun s => s.requestLoop_requests f.lbasize_pos f.lbacount write loc (by omega)
  have hfits : ∀ k w, (rwCommand f.lbacount (4*(add64 loc k/(f.lbasize*4))) 4 w).Fits f.lbasize
      f.lbacount ↔ 4*(add64 loc k/(f.lbasize*4)) < f.lbacount :=
    fun k w => rwCommand_fits_iff (f.sector_lt loc k) w
  constructor
  · intro h
    rcases Nat.eq_zero_or_pos count with hzero | hpos
    · exact .inl hzero
    · -- the empty cache has to read every block
      obtain ⟨log,s',hlog,hbound,hnone⟩ := h emptyDir
      obtain ⟨_,_,hsame,hreq⟩ := hspec emptyDir
      cases hlog.symm.trans hsame
      have hin : ∀ k < count, rwCommand f.lbacount (4*(add64 loc k/(f.lbasize*4))) 4 false∈log :=
        fun k hk => hreq.covers f.cacheblocksize_dvd [] (fun _ _ hready => nomatch hready) k
          (Nat.zero_le _) hk
      refine .inr ⟨fun k hk => (hfits k false).mp (hbound _ (hin k hk)),?_⟩
      by_contra hout
      push Not at hout
      have hempty := hin 0 hpos
      rw [hnone hout] at hempty
      cases hempty
  · intro h s
    obtain ⟨log,s',hlog,hreq⟩ := hspec s
    refine ⟨log,s',hlog,?_,?_⟩
    · intro c hc
      obtain ⟨k,-,hk,w,rfl⟩ := hreq.commands c hc
      rcases h with hzero | ⟨hblocks,-⟩
      · omega
      · exact (hfits k w).mpr (hblocks k hk)
    · intro hout
      rcases h with hzero | ⟨-,k,hk,hinside⟩
      · cases log with
        | nil => rfl
        | cons c cs =>
          obtain ⟨k,-,hk,-⟩ := hreq.commands c (List.mem_cons_self)
          omega
      · have := hout k hk
        omega

theorem emptyDir_nvmeFindblock (block : Nat) : emptyDir.nvmeFindblock block=none := by
  rw [CacheDir.nvmeFindblock,List.find?_eq_none]
  simp [emptyDir]

def fourLbas : LbaFormat := ⟨⟨2^9,4,by decide,by decide⟩,pow_dvd_pow 2 (Nat.le_add_left 9 21)⟩

/-- A read of the byte behind the end of them: count becomes 0 and len 0xffff, for a buffer of
2048 bytes. -/
theorem read_behind_end :
    (∃ s', emptyDir.request fourLbas.lbasize fourLbas.lbacount false 2048 1=
      some ([⟨false,4,0xffff⟩],s')) ∧
    fourLbas.size ≤ add64 2048 0 ∧ ¬RwCommand.Fits fourLbas.lbasize fourLbas.lbacount ⟨false,4,0xffff⟩ := by
  refine ⟨⟨{ emptyDir with overwritten := emptyDir.cacheTarget.2 }.fill emptyDir.cacheTarget.1 1,?_⟩,
    by decide,?_⟩
  · rw [CacheDir.request,CacheDir.requestLoop,if_pos (by decide)]
    dsimp only
    rw [CacheDir.round,CacheDir.slotOf,emptyDir_nvmeFindblock]
    rfl
  · intro h
    exact absurd h.1 (by decide)

section Drive

variable {ns : Namespace} {dev : Device ns}

/-- How many commands come back with an error, from the n-th one on. -/
def failures (dev : Device ns) : Nat → List RwCommand → Nat
  | _,[] => 0
  | n,c::cs => (if (dev.answer n c).status=0 then 0 else 1)+failures dev (n+1) cs

theorem failures_append (n : Nat) (log log' : List RwCommand) :
    failures dev n (log++log')=failures dev n log+failures dev (n+log.length) log' := by
  induction log generalizing n with
  | nil => rw [List.nil_append,failures,List.length_nil,Nat.add_zero,Nat.zero_add]
  | cons c cs ih =>
    have hnumber : n+1+cs.length=n+(cs.length+1) := by omega
    rw [List.cons_append,failures,failures,ih,List.length_cons,hnumber,Nat.add_assoc]

structure Drive.Submits (dev : Device ns) (s : Drive) (log : List RwCommand) (s' : Drive) : Prop where
  commands : s'.commands=s.commands+log.length
  failed : s'.failed=s.failed+failures dev s.commands log

namespace Drive

theorem Submits.refl (dev : Device ns) (s : Drive) : s.Submits dev [] s := ⟨rfl,rfl⟩

variable {s s' : Drive}

theorem Submits.append {s₁ : Drive} {log log' : List RwCommand} (h : s.Submits dev log s₁)
    (h' : s₁.Submits dev log' s') : s.Submits dev (log++log') s' := by
  refine ⟨?_,?_⟩
  · rw [h'.commands,h.commands,List.length_append,Nat.add_assoc]
  · rw [h'.failed,h.failed,failures_append,h.commands,Nat.add_assoc]

end Drive

end Drive

end X64OS.Drivers
