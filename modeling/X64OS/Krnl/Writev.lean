import X64OS.Fs.RefCounts
import X64OS.Krnl.UserBuffers

namespace X64OS.Krnl

open Framework Memory Fs
open Option (map_eq_some_iff bind_eq_some_iff bind_some map_some)

/-- The files and memory, which a write can change too. -/
structure WriteState (P : Type) where
  files : Files
  ram : Ram P

/-- The function write of a resource: its answer, and what it makes of the resources and of
memory. -/
abbrev WriteOp (P : Type) := (Nat → Option Resource) → Ram P → Description → BitVec 64 → BitVec 64 →
  Int × (Nat → Option Resource) × Ram P

structure WriteCall where
  buf : BitVec 64
  count : BitVec 64
  len : BitVec 64
  ret : Int
  deriving DecidableEq

variable {a ret : BitVec 32} {calls : List WriteCall} {i n : Nat}

namespace WriteState

variable {M : Machine} {P : Type}

def syscallWrite (write : WriteOp P) (s : WriteState P) (thread : Nat) (fdnum : Int)
    (buf count : BitVec 64) : Option (Int × WriteState P) :=
  (fdFromFdnum s.files thread fdnum).bind (fun x =>
    match x.1 with
    | none => some (-1,⟨x.2,s.ram⟩)
    | some fd =>
      (x.2.descriptions fd.description).map (fun e =>
        let y := write x.2.resources s.ram e buf count
        let z := advanceOffset fd.description e y.1 { x.2 with resources := y.2.1 }
        (z.1,⟨z.2,y.2.2⟩)))

section

variable (A : PageAllocator M P) (write : WriteOp P) (thread top : Nat) (fd : BitVec 32)

/-- The loop of sys_linux_writev with the calls it makes; none where a call does not return. -/
def writevLoop (iov : BitVec 64) :
    Nat → Nat → BitVec 32 → WriteState P → Option (List WriteCall × BitVec 32 × WriteState P)
  | 0,_,a,s => some ([],a,s)
  | n+1,i,a,s =>
    let buf := krnlAddr A s.ram top ((pointee s.ram.mem iov).read64 (16*i))
    let count := (pointee s.ram.mem iov).read64 (16*i+8)
    (s.syscallWrite write thread fd.toInt buf count).bind (fun x =>
      let len := (pointee x.2.ram.mem iov).read64 (16*i+8)
      (writevLoop iov n (i+1) (a+len.setWidth 32) x.2).map (fun y =>
        (⟨buf,count,len,x.1⟩::y.1,y.2)))

def sysLinuxWritev (s : WriteState P) (iov : BitVec 64) (iovcnt : BitVec 32) :
    Option (List WriteCall × BitVec 32 × WriteState P) :=
  writevLoop A write thread top fd (krnlAddr A s.ram top iov) iovcnt.toInt.toNat 0 0 s

end

variable {A : PageAllocator M P} {write : WriteOp P} {thread top : Nat} {fd : BitVec 32}
variable {s s' : WriteState P} {iov : BitVec 64}

/-- On the files this is the syscall_write of every resource. -/
theorem syscallWrite_files (fdnum : Int) (buf count : BitVec 64) :
    (s.syscallWrite write thread fdnum buf count).map (fun x => (x.1,x.2.files))=
      syscallReadWrite s.files thread fdnum (fun rs e =>
        let y := write rs s.ram e buf count
        some (y.1,y.2.1)) := by
  unfold syscallWrite syscallReadWrite onFd
  rw [Option.map_bind]
  congr 1
  funext x
  obtain ⟨fd | fd,f⟩ := x
  · rfl
  · dsimp only [Function.comp]
    rw [Option.map_map]
    cases f.descriptions fd.description <;> rfl

def Live (thread : Nat) (f : Files) : Prop :=
  ∀ i < maxFds, ∀ fd, f.fds thread i=some fd → (f.descriptions fd.description).isSome

variable {f : Files}

theorem Live.setDescription (h : Live thread f) (d : Nat) (e : Description) :
    Live thread (f.setDescription d e) := by
  intro i hi fd hfd
  rw [Files.setDescription_descriptions]
  split
  · rfl
  · exact h i hi fd hfd

theorem Live.advanceOffset (h : Live thread f) (d : Nat) (e : Description) (ret : Int) :
    Live thread (advanceOffset d e ret f).2 := by
  unfold Fs.advanceOffset
  split
  · exact h
  · exact h.setDescription d _

theorem Live.fdFromFdnum (h : Live thread f) (fdnum : Int) :
    ∃ fd f', fdFromFdnum f thread fdnum=some (fd,f') ∧ Live thread f' ∧
      ∀ d, fd=some d → (f'.descriptions d.description).isSome := by
  unfold Fs.fdFromFdnum
  split
  · exact ⟨none,f,rfl,h,by simp⟩
  · rename_i hrange
    cases hfd : f.fds thread fdnum.toNat with
    | none => exact ⟨none,f,rfl,h,by simp⟩
    | some fd =>
      obtain ⟨e,he⟩ := Option.isSome_iff_exists.mp (h _ (by simp only [maxFds] at *; omega) fd hfd)
      refine ⟨some fd,_,map_eq_some_iff.mpr ⟨e,he,rfl⟩,h.setDescription fd.description _,?_⟩
      intro d hd
      cases hd
      simp

/-- syscall_write returns, and leaves the table as it was. -/
theorem Live.syscallWrite (write : WriteOp P) (h : Live thread s.files) (fdnum : Int)
    (buf count : BitVec 64) :
    ∃ ret s', s.syscallWrite write thread fdnum buf count=some (ret,s') ∧ Live thread s'.files := by
  obtain ⟨fd,f,hfd,hf,hopen⟩ := h.fdFromFdnum fdnum
  rw [WriteState.syscallWrite,hfd,bind_some]
  cases fd with
  | none => exact ⟨-1,⟨f,s.ram⟩,rfl,hf⟩
  | some fd =>
    obtain ⟨e,he⟩ := Option.isSome_iff_exists.mp (hopen fd rfl)
    dsimp only
    rw [he,map_some]
    have hwritten : Live thread { f with resources := (write f.resources s.ram e buf count).2.1 } := hf
    exact ⟨_,_,rfl,hwritten.advanceOffset fd.description e _⟩

theorem Live.writevLoop (h : Live thread s.files) (n i : Nat) (a : BitVec 32) :
    ∃ calls ret s', writevLoop A write thread top fd iov n i a s=some (calls,ret,s') := by
  induction n generalizing i a s with
  | zero => exact ⟨[],a,s,rfl⟩
  | succ n ih =>
    obtain ⟨ret,s₁,hwrite,hlive⟩ := h.syscallWrite write fd.toInt
      (krnlAddr A s.ram top ((pointee s.ram.mem iov).read64 (16*i)))
      ((pointee s.ram.mem iov).read64 (16*i+8))
    obtain ⟨calls,sum,s',hrest⟩ := ih hlive (i+1)
      (a+((pointee s₁.ram.mem iov).read64 (16*i+8)).setWidth 32)
    exact ⟨_,sum,s',bind_eq_some_iff.mpr ⟨_,hwrite,
      map_eq_some_iff.mpr ⟨_,hrest,rfl⟩⟩⟩

theorem writevLoop_succ (h : writevLoop A write thread top fd iov (n+1) i a s=some (calls,ret,s')) :
    ∃ c rest s₁, calls=c::rest ∧
      c.buf=krnlAddr A s.ram top ((pointee s.ram.mem iov).read64 (16*i)) ∧
      c.count=(pointee s.ram.mem iov).read64 (16*i+8) ∧
      c.len=(pointee s₁.ram.mem iov).read64 (16*i+8) ∧
      s.syscallWrite write thread fd.toInt c.buf c.count=some (c.ret,s₁) ∧
      writevLoop A write thread top fd iov n (i+1) (a+c.len.setWidth 32) s₁=some (rest,ret,s') := by
  obtain ⟨⟨r,s₁⟩,hwrite,h⟩ := bind_eq_some_iff.mp h
  obtain ⟨⟨rest,ret',s₂⟩,hrest,heq⟩ := map_eq_some_iff.mp h
  cases heq
  exact ⟨_,rest,s₁,rfl,rfl,rfl,rfl,hwrite,hrest⟩

end WriteState

section
variable (calls : List WriteCall)

/-- The bytes that writev was asked for, and those that its calls wrote. -/
def requested : Nat := (calls.map (fun c => c.len.toNat)).sum

def wrote : Nat := (calls.map (fun c => c.ret.toNat)).sum

def FirstFails : Prop := ∃ c∈calls.head?, c.ret < 0

/-- The value of writev is negative if the first call fails, and otherwise the number of bytes
that the calls wrote. -/
def Reports (ret : BitVec 32) : Prop :=
  (FirstFails calls → ret.toInt < 0) ∧ (¬FirstFails calls → ret.toInt=wrote calls)

end

section

variable {c : WriteCall}

@[simp] theorem requested_nil : requested []=0 := rfl

@[simp] theorem wrote_nil : wrote []=0 := rfl

@[simp] theorem requested_cons : requested (c::calls)=c.len.toNat+requested calls := by
  simp [requested]

@[simp] theorem wrote_cons : wrote (c::calls)=c.ret.toNat+wrote calls := by
  simp [wrote]

theorem wrote_le (h : ∀ c∈calls, c.ret ≤ c.len.toNat) : wrote calls ≤ requested calls := by
  induction calls with
  | nil => exact Nat.le_refl 0
  | cons c calls ih =>
    obtain ⟨hc,hrest⟩ := List.forall_mem_cons.mp h
    have hle := ih hrest
    rw [wrote_cons,requested_cons]
    omega

theorem wrote_eq_requested_iff (h : ∀ c∈calls, c.ret ≤ c.len.toNat) :
    wrote calls=requested calls ↔ ∀ c∈calls, c.ret.toNat=c.len.toNat := by
  induction calls with
  | nil => simp
  | cons c calls ih =>
    obtain ⟨hc,hrest⟩ := List.forall_mem_cons.mp h
    have hle := wrote_le hrest
    rw [List.forall_mem_cons,← ih hrest,wrote_cons,requested_cons]
    omega

theorem reports_iff (calls : List WriteCall) : Reports calls (BitVec.ofNat 32 (requested calls)) ↔
    (FirstFails calls ∧ 2^31 ≤ requested calls%2^32) ∨
    (¬FirstFails calls ∧ requested calls%2^32=wrote calls ∧ wrote calls < 2^31) := by
  have hint := BitVec.toInt_eq_toNat_cond (BitVec.ofNat 32 (requested calls))
  rw [BitVec.toNat_ofNat] at hint
  by_cases hfirst : FirstFails calls
  · simp only [Reports,hfirst,not_true_eq_false,false_implies,true_implies,and_true,true_and,
      false_and,or_false]
    split at hint <;> omega
  · simp only [Reports,hfirst,not_false_eq_true,false_implies,true_implies,true_and,false_and,
      false_or]
    split at hint <;> omega

theorem reports_iff_whole (hfit : requested calls < 2^31) (hle : ∀ c∈calls, c.ret ≤ c.len.toNat) :
    Reports calls (BitVec.ofNat 32 (requested calls)) ↔
      ¬FirstFails calls ∧ ∀ c∈calls, c.ret.toNat=c.len.toNat := by
  rw [reports_iff,← wrote_eq_requested_iff hle,Nat.mod_eq_of_lt (hfit.trans (by decide))]
  by_cases hfirst : FirstFails calls
  · simp only [hfirst,not_true_eq_false,true_and,false_and,or_false,iff_false,Nat.not_le]
    exact hfit
  · simp only [hfirst,not_false_eq_true,true_and,false_and,false_or]
    omega

end

namespace WriteState

variable {M : Machine} {P : Type} {A : PageAllocator M P} {write : WriteOp P} {thread top : Nat}
variable {fd : BitVec 32} {s s' : WriteState P} {iov : BitVec 64}

theorem writevLoop_sum (h : writevLoop A write thread top fd iov n i a s=some (calls,ret,s')) :
    calls.length=n ∧ ret=a+BitVec.ofNat 32 (requested calls) := by
  induction n generalizing i a s calls with
  | zero =>
    cases h
    simp
  | succ n ih =>
    obtain ⟨c,rest,s₁,rfl,-,-,-,-,hrest⟩ := writevLoop_succ h
    obtain ⟨hlength,hsum⟩ := ih hrest
    refine ⟨congrArg Nat.succ hlength,?_⟩
    rw [hsum,requested_cons,BitVec.ofNat_add,BitVec.add_assoc]
    rfl

theorem syscallWrite_keeps {I : Ram P → Prop}
    (hI : ∀ rs r e buf count, I r → I (write rs r e buf count).2.2) {fdnum ret : Int}
    {buf count : BitVec 64} (h : s.syscallWrite write thread fdnum buf count=some (ret,s'))
    (hs : I s.ram) : I s'.ram := by
  obtain ⟨⟨fd,f⟩,-,h⟩ := bind_eq_some_iff.mp h
  cases fd with
  | none =>
    cases h
    exact hs
  | some fd =>
    obtain ⟨e,-,heq⟩ := map_eq_some_iff.mp h
    cases heq
    exact hI _ _ _ _ _ hs

def before (A : PageAllocator M P) (write : WriteOp P) (thread top : Nat) (fd : BitVec 32)
    (iov : BitVec 64) (k i : Nat) (a : BitVec 32) (s : WriteState P) : Option (WriteState P) :=
  (writevLoop A write thread top fd iov k i a s).map (fun x => x.2.2)

theorem writevLoop_call {I : Ram P → Prop}
    (hI : ∀ rs r e buf count, I r → I (write rs r e buf count).2.2)
    (h : writevLoop A write thread top fd iov n i a s=some (calls,ret,s')) (hs : I s.ram) {k : Nat}
    {c : WriteCall} (hc : calls[k]?=some c) :
    ∃ t, before A write thread top fd iov k i a s=some t ∧ I t.ram ∧
      c.buf=krnlAddr A t.ram top ((pointee t.ram.mem iov).read64 (16*(i+k))) ∧
      c.count=(pointee t.ram.mem iov).read64 (16*(i+k)+8) := by
  induction n generalizing i a s calls k with
  | zero =>
    cases h
    exact absurd hc (by simp)
  | succ n ih =>
    obtain ⟨c₀,rest,s₁,rfl,hbuf,hcount,hlen,hwrite,hrest⟩ := writevLoop_succ h
    cases k with
    | zero =>
      cases hc
      exact ⟨s,rfl,hs,hbuf,hcount⟩
    | succ k =>
      obtain ⟨t,ht,hIt,hcall⟩ := ih hrest (syscallWrite_keeps hI hwrite hs) hc
      refine ⟨t,?_,hIt,?_⟩
      · rw [before,writevLoop]
        dsimp only
        rw [← hbuf,← hcount,hwrite,bind_some,← hlen,Option.map_map]
        exact ht
      · rw [Nat.add_assoc,Nat.add_comm 1] at hcall
        exact hcall

/-- writev returns if each open number leads to a description. Its value is right exactly if the
sum of the lengths, as an int, happens to be the number of bytes written, or to be negative when the
first call fails; while the sum fits, exactly if no call writes less than it is asked for. -/
theorem writev_reports_iff (A : PageAllocator M P) (write : WriteOp P) (thread top : Nat)
    (fd iovcnt : BitVec 32) (iov : BitVec 64) (s : WriteState P) :
    (Live thread s.files →
      ∃ calls ret s', s.sysLinuxWritev A write thread top fd iov iovcnt=some (calls,ret,s')) ∧
    ∀ calls ret s', s.sysLinuxWritev A write thread top fd iov iovcnt=some (calls,ret,s') →
      calls.length=iovcnt.toInt.toNat ∧
      (Reports calls ret ↔
        (FirstFails calls ∧ 2^31 ≤ requested calls%2^32) ∨
        (¬FirstFails calls ∧ requested calls%2^32=wrote calls ∧ wrote calls < 2^31)) ∧
      (requested calls < 2^31 → (∀ c∈calls, c.ret ≤ c.len.toNat) →
        (Reports calls ret ↔ ¬FirstFails calls ∧ ∀ c∈calls, c.ret.toNat=c.len.toNat)) := by
  refine ⟨fun hlive => hlive.writevLoop _ _ _,?_⟩
  intro calls ret s' hrun
  obtain ⟨hlength,hret⟩ := writevLoop_sum hrun
  rw [BitVec.ofNat_eq_ofNat,BitVec.zero_add] at hret
  subst hret
  exact ⟨hlength,reports_iff calls,reports_iff_whole⟩

def iovecRam (s : MmapState bumpMachine Nat) : Ram Nat :=
  ⟨(s.ram.mem.write64 (bumpMachine.hhdm+600*pageSize) 0x80000000100#64).write64
    (bumpMachine.hhdm+600*pageSize+8) 5,s.ram.pmm⟩

def openFiles : Files where
  resources := (Files.fresh 0).resources
  descriptions d := if d=0 then some ⟨1,0,0⟩ else none
  fds _ i := if i=0 then some ⟨0⟩ else none
  nextDescription := 1

theorem openFiles_live : Live 0 openFiles := by
  intro i _ fd hfd
  obtain ⟨-,hsome⟩ := Option.ite_none_right_eq_some.mp hfd
  cases hsome
  rfl

def takesAll : WriteOp Nat := fun rs r _ _ count => (count.toNat,rs,r)

theorem writev_reports_iff_open : ∃ s calls ret s',
    mappedPages [(0x80000000000,600*pageSize)]=some s ∧
    (⟨openFiles,iovecRam s⟩ : WriteState Nat).sysLinuxWritev (bumpPages bumpMachine) takesAll 0
      processTop 0 0x80000000000#64 1=some (calls,ret,s') ∧
    Reports calls ret := by
  have hrun : (mappedPages [(0x80000000000,600*pageSize)]).map (fun s =>
      ((⟨openFiles,iovecRam s⟩ : WriteState Nat).sysLinuxWritev (bumpPages bumpMachine) takesAll 0
        processTop 0 0x80000000000#64 1).map (fun x => x.1))=
      some (some [⟨0xffff800000258100#64,5,5,5⟩]) := by
    decide +kernel
  obtain ⟨s,hs,hv⟩ := map_eq_some_iff.mp hrun
  have h := writev_reports_iff (bumpPages bumpMachine) takesAll 0 processTop 0 1 0x80000000000#64
    ⟨openFiles,iovecRam s⟩
  obtain ⟨calls,ret,s',hcalls⟩ := h.1 openFiles_live
  rw [hcalls,map_some,Option.some_inj] at hv
  dsimp only at hv
  subst hv
  refine ⟨s,_,ret,s',hs,hcalls,
    ((h.2 _ ret s' hcalls).2.2 (by decide) (by decide)).mpr ⟨?_,by decide⟩⟩
  simp [FirstFails]

/-- The number 3 is not open: the only call fails, and writev returns 5. -/
theorem writev_bad_descriptor : ∃ s, mappedPages [(0x80000000000,600*pageSize)]=some s ∧
    ((⟨openFiles,iovecRam s⟩ : WriteState Nat).sysLinuxWritev (bumpPages bumpMachine) takesAll 0
      processTop 3 0x80000000000#64 1).map (fun x => (x.1,x.2.1))=
      some ([⟨0xffff800000258100#64,5,5,-1⟩],5) ∧
    ¬Reports [⟨0xffff800000258100#64,5,5,-1⟩] 5 := by
  have hrun : (mappedPages [(0x80000000000,600*pageSize)]).map (fun s =>
      ((⟨openFiles,iovecRam s⟩ : WriteState Nat).sysLinuxWritev (bumpPages bumpMachine) takesAll 0
        processTop 3 0x80000000000#64 1).map (fun x => (x.1,x.2.1)))=
      some (some ([⟨0xffff800000258100#64,5,5,-1⟩],5)) := by
    decide +kernel
  obtain ⟨s,hs,hv⟩ := map_eq_some_iff.mp hrun
  refine ⟨s,hs,hv,?_⟩
  intro hreports
  exact absurd (hreports.1 ⟨_,rfl,by decide⟩) (by decide)

end WriteState

structure Iovec where
  base : BitVec 64
  len : BitVec 64
  deriving DecidableEq

def iovecAt (m : Mem) (iov : BitVec 64) (k : Nat) : Iovec :=
  ⟨(pointee m iov).read64 (16*k),(pointee m iov).read64 (16*k+8)⟩

section

variable {M : Machine} {P : Type}

section

variable (A : PageAllocator M P) (r : Ram P) (top : Nat) (iov : BitVec 64)

def readIovec (k : Nat) : Iovec := iovecAt r.mem (krnlAddr A r top iov) k

def seenIovec (k : Nat) : Iovec := iovecAt (userMem A r top) iov k

/-- The bytes of the page tables, and those of an array of n iovecs as writev reads it and as
the thread sees it. -/
def arrayPlaces (T : List Table) (n : Nat) : Set Nat :=
  tablePlaces T∪{x | ∃ j < 16*n, x=(krnlAddr A r top iov+BitVec.ofNat 64 j).toNat ∨
    x=(krnlAddr A r top (iov+BitVec.ofNat 64 j)).toNat}

/-- For entry k, writev reads the bytes at the places of the thread's buffer. -/
def IovecPlaces (k : Nat) : Prop :=
  (readIovec A r top iov k).len=(seenIovec A r top iov k).len ∧
    ∀ j < (seenIovec A r top iov k).len.toNat,
      krnlAddr A r top (readIovec A r top iov k).base+BitVec.ofNat 64 j=
        krnlAddr A r top ((seenIovec A r top iov k).base+BitVec.ofNat 64 j)

def Passes (k : Nat) (c : WriteCall) : Prop :=
  bytesAt r.mem c.buf c.count.toNat=
    bytesAt (userMem A r top) (seenIovec A r top iov k).base (seenIovec A r top iov k).len.toNat

end

/-- Whatever memory holds but for the tables and the array, and whatever the write operation does
with the rest of memory: each call of writev hands over what the thread sees at that time. -/
def WritevFaithful (A : PageAllocator M P) (r : Ram P) (T : List Table) (top : Nat) (files : Files)
    (thread : Nat) (fd : BitVec 32) (iov : BitVec 64) (iovcnt : BitVec 32) : Prop :=
  ∀ (m : Mem) (write : WriteOp P),
    Set.EqOn m r.mem (arrayPlaces A r top iov T iovcnt.toInt.toNat) →
    (∀ rs r' e buf count, Set.EqOn (write rs r' e buf count).2.2.mem r'.mem
      (arrayPlaces A r top iov T iovcnt.toInt.toNat)) →
    ∀ calls ret s', WriteState.sysLinuxWritev A write thread top fd ⟨files,⟨m,r.pmm⟩⟩ iov iovcnt=
      some (calls,ret,s') →
    ∀ k c, calls[k]?=some c → ∃ t,
      WriteState.before A write thread top fd (krnlAddr A r top iov) k 0 0 ⟨files,⟨m,r.pmm⟩⟩=some t ∧
      Passes A t.ram top iov k c

variable {A : PageAllocator M P} {r r' : Ram P} {T : List Table} {top : Nat} {iov : BitVec 64}
variable {k : Nat}

theorem tablePlaces_subset : tablePlaces T⊆arrayPlaces A r top iov T n := Set.subset_union_left

section
variable (hf : Forest A r T) (ht : ⟨top,3⟩∈T)
  (hm : Set.EqOn r'.mem r.mem (arrayPlaces A r top iov T n)) (hk : k < n)
include hf ht hm hk

theorem readIovec_congr : readIovec A r' top iov k=readIovec A r top iov k := by
  have hword : ∀ a, a+8 ≤ 16*n → (pointee r'.mem (krnlAddr A r top iov)).read64 a=
      (pointee r.mem (krnlAddr A r top iov)).read64 a := by
    intro a ha
    apply Mem.read64_congr
    intro x hx
    rw [Span.mem_mk] at hx
    exact hm (Or.inr ⟨x,by omega,Or.inl rfl⟩)
  rw [readIovec,readIovec,krnlAddr_congr hf ht (hm.mono tablePlaces_subset),iovecAt,iovecAt,
    hword _ (by omega),hword _ (by omega)]

theorem seenIovec_congr : seenIovec A r' top iov k=seenIovec A r top iov k := by
  have hword : ∀ a, a+8 ≤ 16*n → (pointee (userMem A r' top) iov).read64 a=
      (pointee (userMem A r top) iov).read64 a := by
    intro a ha
    apply Mem.read64_congr
    intro x hx
    rw [Span.mem_mk] at hx
    rw [pointee_userMem,pointee_userMem,krnlAddr_congr hf ht (hm.mono tablePlaces_subset)]
    exact hm (Or.inr ⟨x,by omega,Or.inr rfl⟩)
  rw [seenIovec,seenIovec,iovecAt,iovecAt,hword _ (by omega),hword _ (by omega)]

end

/-- In a contiguous array writev reads what the thread sees. -/
theorem Contiguous.iovecPlaces_iff (h : Contiguous A r top iov (16*n)) (hk : k < n) :
    IovecPlaces A r top iov k ↔ Contiguous A r top (seenIovec A r top iov k).base
      (seenIovec A r top iov k).len.toNat := by
  have hread : readIovec A r top iov k=seenIovec A r top iov k := by
    rw [readIovec,seenIovec,iovecAt,iovecAt,h.read64_eq (by omega),h.read64_eq (by omega)]
  rw [IovecPlaces,hread,and_iff_right rfl]
  exact forall₂_congr (fun j _ => eq_comm)

theorem IovecPlaces.passes (hf : Forest A r T) (ht : ⟨top,3⟩∈T) (h : IovecPlaces A r top iov k)
    (hm : Set.EqOn r'.mem r.mem (arrayPlaces A r top iov T n)) (hk : k < n) {c : WriteCall}
    (hbuf : c.buf=krnlAddr A r' top (readIovec A r' top iov k).base)
    (hcount : c.count=(readIovec A r' top iov k).len) : Passes A r' top iov k c := by
  have haddr := krnlAddr_congr hf ht (hm.mono tablePlaces_subset)
  rw [Passes,hbuf,hcount,readIovec_congr hf ht hm hk,seenIovec_congr hf ht hm hk,h.1,haddr]
  apply List.map_congr_left
  intro j hj
  rw [pointee_userMem,haddr,← h.2 j (List.mem_range.mp hj),pointee]

theorem writevFaithful_of_places (hf : Forest A r T) (ht : ⟨top,3⟩∈T) {files : Files}
    {thread : Nat} {fd iovcnt : BitVec 32}
    (h : ∀ k < iovcnt.toInt.toNat, IovecPlaces A r top iov k) :
    WritevFaithful A r T top files thread fd iov iovcnt := by
  intro m write hm hwrite calls ret s' hrun k c hc
  have hk : k < iovcnt.toInt.toNat := by
    rw [← (WriteState.writevLoop_sum hrun).1]
    exact (List.getElem?_eq_some_iff.mp hc).1
  rw [WriteState.sysLinuxWritev,krnlAddr_congr hf ht (hm.mono tablePlaces_subset)] at hrun
  -- what the writes keep: the tables and the array
  obtain ⟨t,hbefore,hkept,hbuf,hcount⟩ := WriteState.writevLoop_call
    (I := fun r' => Set.EqOn r'.mem r.mem (arrayPlaces A r top iov T iovcnt.toInt.toNat))
    (fun rs r' e buf count hr => (hwrite rs r' e buf count).trans hr) hrun hm hc
  have haddr := krnlAddr_congr hf ht (hkept.mono tablePlaces_subset) iov
  rw [Nat.zero_add] at hbuf hcount
  refine ⟨t,hbefore,(h k hk).passes hf ht hkept hk ?_ ?_⟩
  · rw [readIovec,haddr]
    exact hbuf
  · rw [readIovec,haddr]
    exact hcount

def ignores : WriteOp P := fun rs r _ _ _ => (0,rs,r)

theorem places_of_writevFaithful (hf : Forest A r T) (ht : ⟨top,3⟩∈T) {files : Files}
    {thread : Nat} {fd iovcnt : BitVec 32} (hlive : WriteState.Live thread files)
    (hdata : ∀ k < iovcnt.toInt.toNat, ∀ j < (seenIovec A r top iov k).len.toNat,
      (krnlAddr A r top ((seenIovec A r top iov k).base+BitVec.ofNat 64 j)).toNat∉
        arrayPlaces A r top iov T iovcnt.toInt.toNat)
    (h : WritevFaithful A r T top files thread fd iov iovcnt) :
    ∀ k < iovcnt.toInt.toNat, IovecPlaces A r top iov k := by
  intro k hk
  have hbytes : ∀ m, Set.EqOn m r.mem (arrayPlaces A r top iov T iovcnt.toInt.toNat) →
      bytesAt m (krnlAddr A r top (readIovec A r top iov k).base)
          (readIovec A r top iov k).len.toNat=
        bytesAt (userMem A ⟨m,r.pmm⟩ top) (seenIovec A r top iov k).base
          (seenIovec A r top iov k).len.toNat := by
    intro m hm
    have haddr : ∀ p, krnlAddr A ⟨m,r.pmm⟩ top p=krnlAddr A r top p :=
      krnlAddr_congr hf ht (hm.mono tablePlaces_subset)
    obtain ⟨calls,ret,s',hrun⟩ : ∃ calls ret s', WriteState.writevLoop A ignores thread top fd
        (krnlAddr A r top iov) iovcnt.toInt.toNat 0 0 ⟨files,⟨m,r.pmm⟩⟩=some (calls,ret,s') :=
      WriteState.Live.writevLoop hlive _ _ _
    have hlen := (WriteState.writevLoop_sum hrun).1
    obtain ⟨c,hc⟩ : ∃ c, calls[k]?=some c := ⟨_,List.getElem?_eq_getElem (hlen ▸ hk)⟩
    obtain ⟨t,hbefore,hpasses⟩ := h m ignores hm (fun _ _ _ _ _ => Set.eqOn_refl _ _) calls ret s'
      (by rw [WriteState.sysLinuxWritev,haddr]; exact hrun) k c hc
    -- memory is the same in all rounds
    obtain ⟨t',hbefore',ht',hbuf,hcount⟩ := WriteState.writevLoop_call
      (I := fun r' => r'=⟨m,r.pmm⟩) (fun _ _ _ _ _ hr => hr) hrun rfl hc
    cases hbefore.symm.trans hbefore'
    rw [ht',Nat.zero_add,haddr] at hbuf
    rw [ht',Nat.zero_add] at hcount
    have hread : readIovec A ⟨m,r.pmm⟩ top iov k=readIovec A r top iov k :=
      readIovec_congr hf ht hm hk
    rw [readIovec,haddr] at hread
    rw [Passes,ht',seenIovec_congr hf ht hm hk,hbuf,hcount] at hpasses
    rw [← hread]
    exact hpasses
  have hlen : (readIovec A r top iov k).len=(seenIovec A r top iov k).len := by
    have hlength := congrArg List.length (hbytes r.mem (Set.eqOn_refl _ _))
    rw [bytesAt_length,bytesAt_length] at hlength
    exact BitVec.eq_of_toNat_eq hlength
  refine ⟨hlen,fun j hj => ?_⟩
  rw [hlen] at hbytes
  exact read_place _ (fun m hm => krnlAddr_congr hf ht (hm.mono tablePlaces_subset)) (z := 0)
    (show r.mem 0≠r.mem 0+1 by bv_omega) (hdata k hk) (fun m hm _ => hbytes m hm) hj

end

/-- write hands over what the thread sees in a buffer, whatever that is except MAGIC_TEXT, exactly
if the buffer is in the direct map and contiguous. writev does so exactly if it reads the bytes at the
places of the thread's buffers: for a contiguous array, if each buffer is contiguous. -/
theorem user_buffers_faithful {M : Machine} {P : Type} (A : PageAllocator M P) (r : Ram P)
    (T : List Table) (hf : Forest A r T) (top : Nat) (ht : ⟨top,3⟩∈T) (heapStart : BitVec 64)
    (pid : BitVec 32) (arg1 arg4 arg5 arg6 : BitVec 64) :
    (∀ buf count : BitVec 64,
      (∀ j < count.toNat, (krnlAddr A r top (buf+BitVec.ofNat 64 j)).toNat∉tablePlaces T) →
      ((∀ m, Set.EqOn m r.mem (tablePlaces T) →
        (passed m (handleSyscall (syscallEnv A ⟨m,r.pmm⟩ top heapStart pid)
            ⟨1,arg1,buf,count,arg4,arg5,arg6⟩)=
            [bytesAt (userMem A ⟨m,r.pmm⟩ top) buf count.toNat] ↔
          ¬IsMagic A ⟨m,r.pmm⟩ top buf count)) ↔
        WritePlaces A r top buf count)) ∧
    ∀ iov count : BitVec 64,
      handleSyscall (syscallEnv A r top heapStart pid) ⟨20,arg1,iov,count,arg4,arg5,arg6⟩=
        .sysLinuxWritev (toInt32 arg1) iov (toInt32 count) ∧
      (∀ files thread, WriteState.Live thread files →
        ((∀ k < (toInt32 count).toInt.toNat, IovecPlaces A r top iov k) →
          WritevFaithful A r T top files thread (toInt32 arg1) iov (toInt32 count)) ∧
        ((∀ k < (toInt32 count).toInt.toNat, ∀ j < (seenIovec A r top iov k).len.toNat,
            (krnlAddr A r top ((seenIovec A r top iov k).base+BitVec.ofNat 64 j)).toNat∉
              arrayPlaces A r top iov T (toInt32 count).toInt.toNat) →
          WritevFaithful A r T top files thread (toInt32 arg1) iov (toInt32 count) →
          ∀ k < (toInt32 count).toInt.toNat, IovecPlaces A r top iov k)) ∧
      (Contiguous A r top iov (16*(toInt32 count).toInt.toNat) →
        ∀ k < (toInt32 count).toInt.toNat, (IovecPlaces A r top iov k ↔
          Contiguous A r top (seenIovec A r top iov k).base (seenIovec A r top iov k).len.toNat)) := by
  refine ⟨fun buf count hdata => write_faithful_iff hf ht hdata heapStart pid arg1 arg4 arg5 arg6,
    fun iov count => ⟨rfl,fun files thread hlive => ⟨?_,?_⟩,fun h k hk => h.iovecPlaces_iff hk⟩⟩
  · exact writevFaithful_of_places hf ht
  · exact places_of_writevFaithful hf ht hlive

theorem iovecRam_tables {s : MmapState bumpMachine Nat} {T : List Table}
    (hf : Forest (bumpPages bumpMachine) s.ram T) (hpmm : s.ram.pmm ≤ 600) :
    Set.EqOn (WriteState.iovecRam s).mem s.ram.mem (tablePlaces T) := by
  rintro x ⟨t,ht,hx⟩
  have hused : (x-bumpMachine.hhdm)/pageSize < s.ram.pmm := hf.used t ht x hx
  have hoff : x∉(⟨bumpMachine.hhdm+600*pageSize,16⟩ : Span) := by
    rw [Span.mem_mk]
    simp only [pageSize] at hused ⊢
    omega
  have hwrites : ∀ a v w, Mem.SameOff ⟨a,16⟩ s.ram.mem ((s.ram.mem.write64 a v).write64 (a+8) w) :=
    fun a v w => ((Mem.sameOff_write64 _ a v).widen (Nat.le_refl a) (by omega)).trans
      ((Mem.sameOff_write64 _ (a+8) w).widen (by omega) (by omega))
  rw [WriteState.iovecRam]
  dsimp only
  rw [hwrites (bumpMachine.hhdm+600*pageSize) 0x80000000100#64 5 x hoff]

/-- Two bytes across the end of a page are written, and five by writev. -/
theorem user_buffers_faithful_adjacent : ∃ s T, mappedPages (framePages 601)=some s ∧
    (∀ m, Set.EqOn m (WriteState.iovecRam s).mem (tablePlaces T) →
      passed m (handleSyscall (syscallEnv (bumpPages bumpMachine)
          ⟨m,(WriteState.iovecRam s).pmm⟩ processTop 0 0) ⟨1,1,0x80000000fff#64,2,0,0,0⟩)=
        [bytesAt (userMem (bumpPages bumpMachine) ⟨m,(WriteState.iovecRam s).pmm⟩ processTop)
          0x80000000fff#64 2]) ∧
    seenIovec (bumpPages bumpMachine) (WriteState.iovecRam s) processTop 0x80000000000#64 0=
      ⟨0x80000000100#64,5⟩ ∧
    WritevFaithful (bumpPages bumpMachine) (WriteState.iovecRam s) T processTop WriteState.openFiles 0
      (toInt32 0) 0x80000000000#64 (toInt32 1) := by
  have hrun : (mappedPages (framePages 601)).map (fun s =>
      let r := WriteState.iovecRam s
      (decide (s.ram.pmm ≤ 600 ∧
          WritePlaces (bumpPages bumpMachine) r processTop 0x80000000fff#64 2 ∧
          Contiguous (bumpPages bumpMachine) r processTop 0x80000000000#64 16 ∧
          Contiguous (bumpPages bumpMachine) r processTop 0x80000000100#64 5),
        krnlAddr (bumpPages bumpMachine) r processTop 0x80000000fff#64,
        krnlAddr (bumpPages bumpMachine) r processTop 0x80000001000#64,
        seenIovec (bumpPages bumpMachine) r processTop 0x80000000000#64 0))=
      some (true,0xffff800000258fff#64,0xffff800000259000#64,⟨0x80000000100#64,5⟩) := by
    decide +kernel
  obtain ⟨s,hs,hv⟩ := map_eq_some_iff.mp hrun
  simp only [Prod.mk.injEq,decide_eq_true_eq] at hv
  obtain ⟨⟨hpmm,hwrite,harray,hbuf⟩,hfirst,hsecond,hseen⟩ := hv
  obtain ⟨htops,T,hr⟩ := mappedPages_rooted hs
  have ht : s.tops 0=some processTop := by rw [htops]; rfl
  have hf : Forest (bumpPages bumpMachine) (WriteState.iovecRam s) T :=
    forest_eqOn hr.forest (iovecRam_tables hr.forest hpmm) (by rw [WriteState.iovecRam])
  have h := user_buffers_faithful (bumpPages bumpMachine) (WriteState.iovecRam s) T hf processTop
    (hr.top 0 processTop ht) 0 0
  refine ⟨s,T,hs,fun m hm => (((h 1 0 0 0).1 0x80000000fff#64 2 ?_).mpr hwrite m hm).mpr ?_,hseen,?_⟩
  · intro j hj
    rintro ⟨t,htm,hx⟩
    have hused : (_-bumpMachine.hhdm)/pageSize < s.ram.pmm := hr.forest.used t htm _ hx
    obtain rfl | rfl : j=0 ∨ j=1 := by
      have hj' : j < 2 := hj
      omega
    · rw [BitVec.add_zero,hfirst] at hused
      exact absurd (hused.trans_le hpmm) (by decide)
    · rw [show 0x80000000fff#64+BitVec.ofNat 64 1=0x80000001000#64 by decide,hsecond] at hused
      exact absurd (hused.trans_le hpmm) (by decide)
  · exact fun hmagic => absurd hmagic.1 (by decide)
  · obtain ⟨-,hcalls,hiff⟩ := (h 0 0 0 0).2 0x80000000000#64 1
    refine (hcalls WriteState.openFiles 0 WriteState.openFiles_live).1 (fun k hk => ?_)
    obtain rfl : k=0 := Nat.lt_one_iff.mp hk
    rw [hiff harray 0 hk,hseen]
    exact hbuf

/-- Two bytes across the end of a page whose neighbour is in another frame: the thread sees
0 and 0x41, and write hands over 0 and 0. -/
theorem write_passes_other_bytes : ∃ s r, mappedPages (framePages 602)=some s ∧
    r=⟨Function.update s.ram.mem (bumpMachine.hhdm+602*pageSize) 0x41#8,s.ram.pmm⟩ ∧
    vmmVirt2phys (bumpPages bumpMachine) r processTop 0x80000000fff#64=some 0x258fff#64 ∧
    vmmVirt2phys (bumpPages bumpMachine) r processTop 0x80000001000#64=some 0x25a000#64 ∧
    bytesAt (userMem (bumpPages bumpMachine) r processTop) 0x80000000fff#64 2=[0#8,0x41#8] ∧
    passed r.mem
      (handleSyscall (syscallEnv (bumpPages bumpMachine) r processTop 0 0)
        ⟨1,1,0x80000000fff#64,2,0,0,0⟩)=[[0#8,0#8]] := by
  have hrun : (mappedPages (framePages 602)).map (fun s =>
      let r : Ram Nat := ⟨Function.update s.ram.mem (bumpMachine.hhdm+602*pageSize) 0x41#8,s.ram.pmm⟩
      (vmmVirt2phys (bumpPages bumpMachine) r processTop 0x80000000fff#64,
        vmmVirt2phys (bumpPages bumpMachine) r processTop 0x80000001000#64,
        bytesAt (userMem (bumpPages bumpMachine) r processTop) 0x80000000fff#64 2,
        passed r.mem
          (handleSyscall (syscallEnv (bumpPages bumpMachine) r processTop 0 0)
            ⟨1,1,0x80000000fff#64,2,0,0,0⟩)))=
      some (some 0x258fff#64,some 0x25a000#64,[0#8,0x41#8],[[0#8,0#8]]) := by
    decide +kernel
  obtain ⟨s,hs,hv⟩ := map_eq_some_iff.mp hrun
  simp only [Prod.mk.injEq] at hv
  exact ⟨s,_,hs,rfl,hv⟩

end X64OS.Krnl
