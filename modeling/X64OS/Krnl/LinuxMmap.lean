import X64OS.Memory.MmapFaults

namespace X64OS.Krnl

open Framework Memory Function

variable {M : Machine} {P : Type} {A : PageAllocator M P}
variable {s s' : MmapState M P}

def mapPrivate : Nat := 1

def mmapLinuxProtRead : BitVec 32 := 1

def mmapLinuxProtWrite : BitVec 32 := 2

def mmapLinuxProtExec : BitVec 32 := 4

def mmapLinuxMapShared : BitVec 32 := 0x01

def mmapLinuxMapPrivate : BitVec 32 := 0x02

def mmapLinuxMapFixed : BitVec 32 := 0x10

def mmapLinuxMapAnonymous : BitVec 32 := 0x20

def prot2 (prot : BitVec 32) : Nat :=
  (if prot &&& mmapLinuxProtRead≠0 then protRead else 0) |||
    (if prot &&& mmapLinuxProtWrite≠0 then protWrite else 0) |||
    (if prot &&& mmapLinuxProtExec≠0 then protExec else 0)

def flags2 (flags fd : BitVec 32) : Nat :=
  (if flags &&& mmapLinuxMapFixed≠0 then mapFixed else 0) |||
    (if flags &&& mmapLinuxMapAnonymous≠0 then mapAnonymous else 0) |||
    (if flags &&& mmapLinuxMapPrivate≠0 then mapPrivate else 0) |||
    (if flags &&& mmapLinuxMapShared≠0 then mapPrivate else 0) |||
    (if fd=-1 then mapAnonymous else 0)

section

variable (A) (fdFromFdnum : BitVec 32 → Option (Option (Resource M))) (task : Nat)

/-- sys_linux_mmap of a thread. fd_from_fdnum leads to the resource of a file; a file
descriptor that is not open is a null pointer here. -/
def sysLinuxMmap (s : MmapState M P) (addr length : BitVec 64) (prot flags fd : BitVec 32)
    (offset : BitVec 64) : Option (Nat × MmapState M P × List (FreeEvent M P)) :=
  (if fd=-1 then some none else fdFromFdnum fd).bind (fun node =>
    mmap A s task (some (s.pgm task)) addr.toNat length.toNat (prot2 prot) (flags2 flags fd) node
      offset.toNat)

inductive LinuxCall where
  | mmap (addr length : BitVec 64) (prot flags fd : BitVec 32) (offset : BitVec 64)
  | munmap (addr length : BitVec 64)

def linuxCall (s : MmapState M P) : LinuxCall → Option (MmapState M P)
  | .mmap addr length prot flags fd offset =>
    (sysLinuxMmap A fdFromFdnum task s addr length prot flags fd offset).map (fun x => x.2.1)
  | .munmap addr length =>
    (munmap A s (s.pgm task) addr.toNat length.toNat).map (fun x => x.2.1)

def linuxSystem : System (MmapState M P) LinuxCall := .ofPartial (linuxCall A fdFromFdnum task)

end

/-- Rounding length up and adding it to mmap_anon_base, with a page behind it, stays
below 2^64. -/
def Fits (s : MmapState M P) (task length : Nat) : Prop :=
  length+(pageSize-1) < 2^64 ∧ s.anonBase task+alignUp length pageSize+pageSize < 2^64

/-- Calls under which mmap_anon_base stays behind all ranges. -/
def Orderly (task : Nat) (s : MmapState M P) : LinuxCall → Prop
  | .mmap _ length _ flags _ _ =>
    flags &&& mmapLinuxMapFixed=0 ∧ 0 < length.toNat ∧ Fits s task length.toNat
  | .munmap addr _ => addr.toNat%pageSize=0

/-- What mmap is to do without MAP_FIXED: a new range of the thread, long enough and apart
from the others, with mmap_anon_base behind it. -/
def Recorded (s s' : MmapState M P) (task length ret : Nat) : Prop :=
  s'.ranges (s.pgm task)=s.ranges (s.pgm task)++[s.nextLocal] ∧
    ∃ l, s'.locals s.nextLocal=some l ∧ l.base=ret ∧ length ≤ l.length ∧
      (∀ k∈s.ranges (s.pgm task), ∀ l', s'.locals k=some l' → l'.span.Separate l.span) ∧
      l.base+l.length < s'.anonBase task

theorem flags2_free {flags : BitVec 32} (fd : BitVec 32) (h : flags &&& mmapLinuxMapFixed=0) :
    flags2 flags fd &&& mapFixed=0 := by
  rw [flags2,if_neg (not_not.mpr h)]
  split <;> split <;> split <;> split <;> decide

theorem sysLinuxMmap_free {fdFromFdnum : BitVec 32 → Option (Option (Resource M))}
    {task ret : Nat} {addr length offset : BitVec 64} {prot flags fd : BitVec 32}
    {evs : List (FreeEvent M P)} (hfix : flags &&& mmapLinuxMapFixed=0)
    (h : sysLinuxMmap A fdFromFdnum task s addr length prot flags fd offset=some (ret,s',evs)) :
    ∃ node s₁, s₁={ s with
        base := s.anonBase task
        anonBase := update s.anonBase task
          (add64 (s.anonBase task) (add64 (alignUp length.toNat pageSize) pageSize)) } ∧
      newRange A s₁ (s.pgm task) (alignUp length.toNat pageSize) (prot2 prot) (flags2 flags fd) node
        offset.toNat=some s' ∧ ret=s.anonBase task := by
  obtain ⟨node,-,h⟩ := Option.bind_eq_some_iff.mp h
  unfold mmap at h
  dsimp only at h
  rw [if_neg (not_not.mpr (flags2_free fd hfix))] at h
  obtain ⟨s₂,hnew,he⟩ := Option.map_eq_some_iff.mp h
  cases he
  refine ⟨node,_,rfl,hnew,?_⟩
  obtain ⟨x,-,rfl⟩ := Option.map_eq_some_iff.mp hnew
  rfl

theorem laid_call {fdFromFdnum : BitVec 32 → Option (Option (Resource M))} {task : Nat}
    {c : LinuxCall} (hs : Laid s task (s.pgm task)) (hc : Orderly task s c)
    (h : (linuxSystem A fdFromFdnum task).step s c s') : Laid s' task (s'.pgm task) := by
  cases c with
  | mmap addr length prot flags fd offset =>
    obtain ⟨⟨ret,t,evs⟩,hm,rfl⟩ := Option.map_eq_some_iff.mp h
    obtain ⟨node,-,hm⟩ := Option.bind_eq_some_iff.mp hm
    obtain ⟨hfix,hpos,hround,hroom⟩ := hc
    obtain ⟨hlaid,-,hpgm⟩ := hs.mmap_anywhere rfl (flags2_free fd hfix) hpos hround hroom hm
    rw [hpgm]
    exact hlaid
  | munmap addr length =>
    obtain ⟨⟨ok,t,evs⟩,hm,rfl⟩ := Option.map_eq_some_iff.mp h
    obtain ⟨hsn,-⟩ := munmap_snipped hs.ranges hc hm
    rw [hsn.bases.pgm]
    exact hs.snipped hsn

theorem alignUp_wraps {n : Nat} (hn : n < 2^64) (h : 2^64 ≤ n+(pageSize-1)) :
    alignUp n pageSize=0 := by
  simp only [alignUp,divRoundup,pageSize] at *
  omega

/-- Without MAP_FIXED mmap records a range for every length that fits, and for no
other. -/
theorem linux_mmap_records_iff (A : PageAllocator M P)
    (fdFromFdnum : BitVec 32 → Option (Option (Resource M))) (task : Nat) (s₀ s : MmapState M P)
    (hknown : s₀.pgm task < s₀.nextPagemap) (hempty : s₀.ranges (s₀.pgm task)=[])
    (hanon : s₀.anonBase task%pageSize=0)
    (hr : ((linuxSystem A fdFromFdnum task).restrict (Orderly task)).Reachable s₀ s)
    (addr length offset : BitVec 64) (prot flags fd : BitVec 32)
    (hfix : flags &&& mmapLinuxMapFixed=0) (ret : Nat) (s' : MmapState M P)
    (evs : List (FreeEvent M P))
    (h : sysLinuxMmap A fdFromFdnum task s addr length prot flags fd offset=some (ret,s',evs)) :
    Recorded s s' task length.toNat ret ↔ Fits s task length.toNat := by
  have hs : Laid s task (s.pgm task) := hr.invariant (I := fun s => Laid s task (s.pgm task))
    (Laid.empty hknown hempty hanon) (fun _ _ _ hs hc => laid_call hs hc.1 hc.2)
  obtain ⟨node,s₁,rfl,hnew,rfl⟩ := sysLinuxMmap_free hfix h
  obtain ⟨hranges,hlocals,hbase,-⟩ := newRange_adds hnew hs.ranges.known
  have hpast : s'.anonBase task=
      add64 (s.anonBase task) (add64 (alignUp length.toNat pageSize) pageSize) := by
    rw [hbase]
    exact update_self _ _ _
  have hl : s'.locals s.nextLocal=some ⟨s.pgm task,s.nextGlobal,s.anonBase task,
      alignUp length.toNat pageSize,offset.toNat,prot2 prot,flags2 flags fd⟩ := by
    rw [hlocals]
    exact update_self _ _ _
  have hlt := length.isLt
  constructor
  · rintro ⟨-,l,hl',-,hlen,-,hend⟩
    cases hl.symm.trans hl'
    dsimp only at hlen hend
    have hround : length.toNat+(pageSize-1) < 2^64 := by
      by_contra hwrap
      rw [alignUp_wraps hlt (by omega)] at hlen
      simp only [pageSize] at hwrap
      omega
    refine ⟨hround,?_⟩
    rw [hpast,add64,add64] at hend
    have hpage : 0 < pageSize := by decide
    omega
  · rintro ⟨hround,hroom⟩
    have hbounds := alignUp_bounds hround
    refine ⟨hranges,_,hl,rfl,hbounds.1,?_,?_⟩
    · intro k hk l' hl' x hx hx'
      have hne : k≠s.nextLocal := fun heq => hs.ranges.new_notMem (heq ▸ hk)
      rw [hlocals] at hl'
      have hb := hs.below k hk l' ((update_of_ne hne _ _).symm.trans hl')
      rw [LocalRange.span,Span.mem_mk] at hx hx'
      dsimp only at hx'
      omega
    · have hpage : 0 < pageSize := by decide
      dsimp only
      rw [hpast,add64_eq (a := alignUp length.toNat pageSize) (by omega),add64_eq (by omega)]
      omega

/-- The second of two calls: the range of the first is there, with a page between them. -/
theorem linux_mmap_records_iff_second : ∃ s ret s' evs,
    linuxCall (bumpPages bumpMachine) (fun _ => none) 0 processState
      (.mmap 0 5000 3 0x22 (-1) 0)=some s ∧
    s.ranges 0=[0] ∧ s.window 0=some ⟨0x80000000000,0x2000⟩ ∧
    sysLinuxMmap (bumpPages bumpMachine) (fun _ => none) 0 s 0 1 3 0x22 (-1) 0=
      some (ret,s',evs) ∧ ret=0x80000003000 ∧ Recorded s s' 0 1 ret := by
  have hrun : (linuxCall (bumpPages bumpMachine) (fun _ => none) 0 processState
      (.mmap 0 5000 3 0x22 (-1) 0)).bind (fun s =>
        (sysLinuxMmap (bumpPages bumpMachine) (fun _ => none) 0 s 0 1 3 0x22 (-1) 0).map (fun x =>
          (s.anonBase 0,s.ranges 0,s.window 0,x.1)))=
      some (0x80000003000,[0],some ⟨0x80000000000,0x2000⟩,0x80000003000) := by
    decide +kernel
  obtain ⟨s,hs,hrun⟩ := Option.bind_eq_some_iff.mp hrun
  obtain ⟨⟨ret,s',evs⟩,h,hv⟩ := Option.map_eq_some_iff.mp hrun
  simp only [Prod.mk.injEq] at hv
  obtain ⟨hanon,hranges,hwindow,hret⟩ := hv
  have hfirst : Orderly 0 processState (.mmap 0 5000 3 0x22 (-1) 0) := by
    refine ⟨by decide,by decide,by decide,by decide⟩
  have hfits : Fits s 0 1 := ⟨by decide,by rw [hanon]; decide⟩
  refine ⟨s,ret,s',evs,hs,hranges,hwindow,h,hret,?_⟩
  exact (linux_mmap_records_iff (bumpPages bumpMachine) (fun _ => none) 0 processState s (by decide)
    rfl (by decide) (.single ⟨_,hfirst,hs⟩) 0 1 0 3 0x22 (-1) (by decide) ret s' evs h).mpr hfits

/-- A length whose rounding wraps: mmap returns an address, and the range there has no
bytes. -/
theorem linux_mmap_empty_range : ∃ s' evs,
    sysLinuxMmap (bumpPages bumpMachine) (fun _ => none) 0 processState 0 (-1) 3 0x22 (-1) 0=
      some (0x80000000000,s',evs) ∧
    s'.ranges 0=[0] ∧ s'.window 0=some ⟨0x80000000000,0⟩ := by
  have hrun : (sysLinuxMmap (bumpPages bumpMachine) (fun _ => none) 0 processState 0 (-1) 3 0x22
      (-1) 0).map (fun x => (x.1,x.2.1.ranges 0,x.2.1.window 0))=
      some (0x80000000000,[0],some ⟨0x80000000000,0⟩) := by
    decide +kernel
  obtain ⟨⟨ret,s',evs⟩,h,hv⟩ := Option.map_eq_some_iff.mp hrun
  simp only [Prod.mk.injEq] at hv
  obtain ⟨rfl,hranges,hwindow⟩ := hv
  exact ⟨s',evs,h,hranges,hwindow⟩

end X64OS.Krnl
