import X64OS.Arch.Interrupts
import X64OS.Sched.Marks
import X64OS.Sched.RoundRobin

namespace X64OS.Arch

open Framework Framework.X86 Sched Krnl Function

/-- The functions in the table of int_dispatcher.cpp; that of a device looks at no registers. -/
inductive IntHandler where
  | schedTick
  | device

/-- The processor with its base of fs, and what the handlers of interrupts use: the scheduler,
cpu_state.tls of each thread and the table handlers. -/
structure Kernel where
  cpu : Cpu
  fsBase : BitVec 64
  sched : Scheduler
  tls : Nat → BitVec 64
  handlers : Nat → Option IntHandler

namespace Kernel

/-- sched_tick with the base of fs that LoadState writes. -/
def schedTick (k : Kernel) (regs : CpuCtx) : Option (CpuCtx × Kernel) :=
  (k.sched.schedTick regs).map (fun x =>
    (x.1,{ k with
      sched := x.2
      fsBase := if 0 < k.sched.schedRun.toInt then k.fsBase else k.tls x.2.currentThread }))

def dispatchInterrupt (k : Kernel) (regs : CpuCtx) (vector : Nat) : Option (CpuCtx × Kernel) :=
  if 256 < vector then some (regs,k)
  else
    match k.handlers vector with
    | none => some (regs,k)
    | some .device => some (regs,k)
    | some .schedTick => k.schedTick regs

def clearDebug (rflags : BitVec 64) : BitVec 64 :=
  rflags &&& ~~~((1#64 <<< 8) ||| (1#64 <<< 14) ||| (1#64 <<< 17))

/-- idt_main_handler, with the answer of mmap_pf; none is a processor that is halted. -/
def idtMainHandler (k : Kernel) (mmapPf : Bool) (ctx : CpuCtx) : Option (CpuCtx × Kernel) :=
  if ctx.intVector=0xe ∧ mmapPf then some (ctx,k)
  else if ctx.intVector.toNat < 32 then
    if ctx.intVector=1 then some ({ ctx with rflags := clearDebug ctx.rflags },k)
    else none
  else k.dispatchInterrupt ctx ctx.intVector.toNat

/-- The thread whose code the processor runs; before the first switch it is that of the boot. -/
def running (k : Kernel) : Option Nat :=
  if k.sched.justStarted then none else some k.sched.currentThread

/-- An interrupt that returns. The compiled handler leaves some machine m, in which it put
back the stack and changed the struct cpu_ctx that it was called with. -/
def Interrupted (ist : BitVec 64) (k : Kernel) (vector : Nat) (err : Option (BitVec 64)) (mmapPf : Bool)
    (k' : Kernel) : Prop :=
  let m₀ := enter ist k.cpu vector err
  ∃ ctx k₁ m, k.idtMainHandler mmapPf (cpuCtxAt m₀.mem (m₀.reg .rdi))=some (ctx,k₁) ∧
    CallReturns m₀ m ∧ cpuCtxAt m.mem (m₀.reg .rdi)=ctx ∧ k'={ k₁ with cpu := resume m }

end Kernel

/-- What happens on the machine. A thread is named where it is its code that runs. -/
inductive KernelEvent where
  | execute (thr : Option Nat) (c : Cpu)
  | interrupt (thr : Option Nat) (vector : Nat) (err : Option (BitVec 64)) (mmapPf : Bool)
  | created (thr : Nat) (regs : CpuCtx)
  | setTls (thr : Nat) (tls : BitVec 64)
  | exec (thr : Nat) (entry stack : BitVec 64)
  | remove (pid : Nat)
  | marked (thr : Nat) (state : ThreadState)
  | started
  | stopped
  | registered (vector : Nat) (handler : IntHandler)

def KernelEvent.call : KernelEvent → Option SchedCall
  | .remove pid => some (.remove pid)
  | .marked thr state => some (.setState thr state)
  | .started => some .start
  | .stopped => some .stop
  | _ => none

/-- The runs of the machine: code of a thread or of the boot that does anything to the registers
and to memory, interrupts between any two of its instructions, and the calls that it makes. -/
def kernelRuns (ist : BitVec 64) : System Kernel KernelEvent where
  step k e k' :=
    match e with
    | .execute thr c => thr=k.running ∧ k'={ k with cpu := c }
    | .interrupt thr vector err mmapPf => thr=k.running ∧ vector < 256 ∧
        err.isSome=hasErrorCode vector ∧ k.Interrupted ist vector err mmapPf k'
    | .created thr regs => thr=k.sched.made ∧ k.sched.made+1 < 2^31 ∧
        ∃ usermode entry stack rsp s, regs=Scheduler.initialRegs usermode entry stack rsp ∧
          k.sched.createThread usermode entry stack rsp=some s ∧
          k'={ k with sched := s, tls := update k.tls thr 0 }
    | .setTls thr tls => k.running=some thr ∧
        k'={ k with tls := update k.tls thr tls, fsBase := tls }
    | .exec thr entry stack => k.running=some thr ∧
        k'={ k with
          sched := k.sched.setRegs thr (setupSchedState (k.sched.threads thr).regs true entry stack) }
    | .registered vector handler => vector < 256 ∧
        k'={ k with handlers := update k.handlers vector (some handler) }
    | e => ∃ l s, e.call=some l ∧ l.Allowed k.sched ∧ schedCall k.sched l=some s ∧
        k'={ k with sched := s }

structure ThreadFile where
  registers : Registers
  fsBase : BitVec 64

/-- The file after a debug exception. -/
def ThreadFile.debugged (f : ThreadFile) : ThreadFile :=
  ⟨{ f.registers with rflags := legalFlags (Kernel.clearDebug f.registers.rflags) },f.fsBase⟩

/-- The file that a thread would have on a processor of its own: what it was made with, then
what its own code did. -/
def fileIn (root : ThreadFile) (thr : Nat) : List KernelEvent → Option ThreadFile
  | [] => if thr=0 then some root else none
  | .execute t c::h =>
    if t=some thr then (fileIn root thr h).map (fun f => { f with registers := cpuRegisters c })
    else fileIn root thr h
  | .interrupt t vector _ _::h =>
    if t=some thr ∧ vector=1 then (fileIn root thr h).map ThreadFile.debugged
    else fileIn root thr h
  | .created t regs::h => if t=thr then some ⟨ctxRegisters regs,0⟩ else fileIn root thr h
  | .setTls t tls::h =>
    if t=thr then (fileIn root thr h).map (fun f => { f with fsBase := tls }) else fileIn root thr h
  | _::h => fileIn root thr h

/-- The file of a thread: in the processor while it runs, else in its struct. -/
def Kernel.file (k : Kernel) (thr : Nat) : ThreadFile :=
  if k.running=some thr then ⟨cpuRegisters k.cpu,k.fsBase⟩
  else ⟨ctxRegisters (k.sched.threads thr).regs,k.tls thr⟩

variable {s : Scheduler}

theorem skip_regs {n : Nat} {s' : Scheduler} (h : s.skip n=some s') (i : Nat) :
    (s'.threads i).regs=(s.threads i).regs := by
  induction n generalizing s with
  | zero => cases h
  | succ n ih =>
    unfold Scheduler.skip at h
    split at h
    · have hnext := ih h
      exact hnext
    · obtain ⟨t,ht,h⟩ := Option.bind_eq_some_iff.mp h
      exact (ih h).trans ((Scheduler.sameThreads_remove ht).regs i)
    · cases h
      rfl

theorem regs_preempt (s : Scheduler) (regs : CpuCtx) (i : Nat) :
    ((s.preempt regs).threads i).regs=
      if i=s.currentThread ∧ s.justStarted=false then regs else (s.threads i).regs := by
  unfold Scheduler.preempt
  split
  · rename_i hj
    refine (Scheduler.regs_setState _ _ _ _).trans ?_
    simp [hj]
  · rename_i hj
    refine (Scheduler.regs_setState _ _ _ _).trans ?_
    rw [Scheduler.regs_setRegs]
    simp [hj]

theorem schedTick_regs {regs : CpuCtx} {x : CpuCtx × Scheduler} (hrun : ¬0 < s.schedRun.toInt)
    (h : s.schedTick regs=some x) :
    x.1=(x.2.threads x.2.currentThread).regs ∧
    ∀ i, (x.2.threads i).regs=
      if i=s.currentThread ∧ s.justStarted=false then regs else (s.threads i).regs := by
  rw [Scheduler.schedTick,if_neg hrun] at h
  obtain ⟨t,ht,rfl⟩ := Option.map_eq_some_iff.mp h
  refine ⟨?_,?_⟩
  · exact (Scheduler.regs_setState _ _ _ _).symm
  · intro i
    refine (Scheduler.regs_setState _ _ _ _).trans ?_
    rw [skip_regs ht,regs_preempt]

namespace Kernel

variable {ist : BitVec 64} {k k' : Kernel} {vector : Nat} {err : Option (BitVec 64)} {mmapPf : Bool}
variable {ctx : CpuCtx}

theorem idtMainHandler_cases {ctx' : CpuCtx} {k₁ : Kernel}
    (h : k.idtMainHandler mmapPf ctx=some (ctx',k₁)) :
    (ctx.intVector≠1 ∧ ctx'=ctx ∧ k₁=k) ∨
    (ctx.intVector=1 ∧ ctx'={ ctx with rflags := clearDebug ctx.rflags } ∧ k₁=k) ∨
    (ctx.intVector≠1 ∧ k.schedTick ctx=some (ctx',k₁)) := by
  unfold idtMainHandler at h
  split at h
  · rename_i hpf
    cases h
    exact .inl ⟨by rw [hpf.1]; decide,rfl,rfl⟩
  · split at h
    · split at h
      · rename_i hdebug
        cases h
        exact .inr (.inl ⟨hdebug,rfl,rfl⟩)
      · cases h
    · rename_i hvector
      have hne : ctx.intVector≠1 := by
        intro he
        rw [he] at hvector
        exact hvector (by decide)
      unfold dispatchInterrupt at h
      split at h
      · cases h
        exact .inl ⟨hne,rfl,rfl⟩
      · split at h
        · cases h
          exact .inl ⟨hne,rfl,rfl⟩
        · cases h
          exact .inl ⟨hne,rfl,rfl⟩
        · exact .inr (.inr ⟨hne,h⟩)

def OwnTls (k : Kernel) : Prop := ∀ thr, k.running=some thr → k.fsBase=k.tls thr

theorem file_schedTick (htls : k.OwnTls) {x : CpuCtx × Kernel} {m : Machine} {v : Nat} {e : BitVec 64}
    (h : k.schedTick (interruptedCtx k.cpu v e)=some x) (thr : Nat) :
    Kernel.file { x.2 with cpu := loadCtx m x.1 } thr=k.file thr := by
  obtain ⟨y,hy,rfl⟩ := Option.map_eq_some_iff.mp h
  by_cases hrun : 0 < k.sched.schedRun.toInt
  · rw [Scheduler.schedTick,if_pos hrun] at hy
    cases hy
    simp only [Kernel.file,running,if_pos hrun,registers_loadCtx,registers_interruptedCtx]
    rfl
  · have hjust := (Scheduler.schedTick_switched hrun hy).justStarted
    obtain ⟨hload,hregs⟩ := schedTick_regs hrun hy
    have hfile : Kernel.file { k with
        cpu := loadCtx m y.1, sched := y.2, fsBase := k.tls y.2.currentThread } thr=
          ⟨ctxRegisters (y.2.threads thr).regs,k.tls thr⟩ := by
      simp only [Kernel.file,running,hjust,Bool.false_eq_true,if_false,registers_loadCtx]
      split
      · rename_i hcur
        rw [hload,Option.some.inj hcur]
      · rfl
    simp only [if_neg hrun]
    rw [hfile,hregs]
    by_cases hcur : thr=k.sched.currentThread ∧ k.sched.justStarted=false
    · have hthr : k.running=some thr := by rw [running,hcur.1,hcur.2]; rfl
      rw [if_pos hcur,Kernel.file,if_pos hthr,htls thr hthr,registers_interruptedCtx]
    · have hthr : k.running≠some thr := by
        rw [running]
        split
        · exact Option.some_ne_none _ |>.symm
        · rename_i hj
          exact fun he => hcur ⟨(Option.some.inj he).symm,Bool.eq_false_iff.mpr hj⟩
      rw [if_neg hcur,Kernel.file,if_neg hthr]

theorem file_debug {m : Machine} (hctx : ctxRegisters ctx=cpuRegisters k.cpu)
    (hflags : ctx.rflags=k.cpu.rflags) (thr : Nat) :
    Kernel.file { k with cpu := loadCtx m ({ ctx with rflags := clearDebug ctx.rflags }) } thr=
      if k.running=some thr then (k.file thr).debugged else k.file thr := by
  have hregs : ctxRegisters { ctx with rflags := clearDebug ctx.rflags }=
      { cpuRegisters k.cpu with rflags := legalFlags (clearDebug k.cpu.rflags) } := by
    rw [← hctx,hflags]
    rfl
  rw [Kernel.file,Kernel.file,registers_loadCtx,hregs]
  have hrunning : running { k with cpu := loadCtx m ({ ctx with rflags := clearDebug ctx.rflags }) }=
      k.running := rfl
  rw [hrunning]
  split <;> rfl

section
variable (h : k.Interrupted ist vector err mmapPf k')
include h

theorem Interrupted.file (htls : k.OwnTls) (hvector : vector < 256)
    (herr : err.isSome=hasErrorCode vector) (thr : Nat) :
    k'.file thr=if k.running=some thr ∧ vector=1 then (k.file thr).debugged else k.file thr := by
  obtain ⟨ctx,k₁,m,hhandler,hcall,hctx,rfl⟩ := h
  rw [hcall.resume hctx]
  rw [enteredCtx_enter herr] at hhandler
  have hone : (interruptedCtx k.cpu vector (err.getD 0)).intVector=1 ↔ vector=1 := by
    show BitVec.ofNat 64 vector=1 ↔ _
    rw [← BitVec.toNat_inj,BitVec.toNat_ofNat,Nat.mod_eq_of_lt (by omega)]
    rfl
  obtain ⟨hne,rfl,rfl⟩ | ⟨he,rfl,rfl⟩ | ⟨hne,htick⟩ := idtMainHandler_cases hhandler
  · rw [if_neg (fun h => hne (hone.mpr h.2)),Kernel.file,registers_loadCtx,registers_interruptedCtx]
    rfl
  · simp only [hone.mp he,and_true]
    exact file_debug (registers_interruptedCtx _ _ _) rfl thr
  · rw [if_neg (fun h => hne (hone.mpr h.2))]
    exact file_schedTick htls htick thr

theorem Interrupted.ownTls (htls : k.OwnTls) : k'.OwnTls := by
  obtain ⟨ctx,k₁,m,hhandler,-,-,rfl⟩ := h
  obtain ⟨-,-,rfl⟩ | ⟨-,-,rfl⟩ | ⟨-,htick⟩ := idtMainHandler_cases hhandler
  · exact htls
  · exact htls
  · obtain ⟨y,hy,he⟩ := Option.map_eq_some_iff.mp htick
    cases he
    intro thr hthr
    by_cases hrun : 0 < k.sched.schedRun.toInt
    · rw [Scheduler.schedTick,if_pos hrun] at hy
      cases hy
      simp only [if_pos hrun]
      exact htls thr hthr
    · have hjust := (Scheduler.schedTick_switched hrun hy).justStarted
      simp only [running,hjust,Bool.false_eq_true,if_false,Option.some.injEq] at hthr
      simp only [if_neg hrun,hthr]

theorem Interrupted.threadList (hs : k.sched.ThreadList) : k'.sched.ThreadList := by
  obtain ⟨ctx,k₁,m,hhandler,-,-,rfl⟩ := h
  obtain ⟨-,-,rfl⟩ | ⟨-,-,rfl⟩ | ⟨-,htick⟩ := idtMainHandler_cases hhandler
  · exact hs
  · exact hs
  · obtain ⟨y,hy,he⟩ := Option.map_eq_some_iff.mp htick
    cases he
    obtain ⟨x,hx,hlist⟩ := hs.schedTick _
    cases hx.symm.trans hy
    exact hlist

end

end Kernel

/-- Each thread has the file that its own code left it. -/
structure Separate (root : ThreadFile) (h : List KernelEvent) (k : Kernel) : Prop where
  list : k.sched.ThreadList
  ownTls : k.OwnTls
  files : ∀ thr f, fileIn root thr h=some f → k.file thr=f

namespace Separate

variable {ist : BitVec 64} {root : ThreadFile} {h : List KernelEvent} {k k' : Kernel}
variable {e : KernelEvent} {thr : Nat}

variable (hs : Separate root h k)
include hs

theorem sched (hlist : s.ThreadList) (hrun : Kernel.running { k with sched := s }=k.running)
    (hregs : ∀ i, k.running≠some i → (s.threads i).regs=(k.sched.threads i).regs)
    (he : ∀ thr, fileIn root thr (e::h)=fileIn root thr h) :
    Separate root (e::h) { k with sched := s } where
  list := hlist
  ownTls thr hthr := hs.ownTls thr (hrun ▸ hthr)
  files thr f hf := by
    rw [he] at hf
    rw [← hs.files thr f hf,Kernel.file,Kernel.file,hrun]
    split
    · rfl
    · rename_i hne
      rw [hregs thr hne]

theorem execute {c : Cpu} :
    Separate root (.execute k.running c::h) { k with cpu := c } where
  list := hs.list
  ownTls := hs.ownTls
  files thr f hf := by
    rw [fileIn] at hf
    have hrun : Kernel.running { k with cpu := c }=k.running := rfl
    rw [Kernel.file,hrun]
    split at hf
    · rename_i hthr
      obtain ⟨f₀,hf₀,rfl⟩ := Option.map_eq_some_iff.mp hf
      have hfile := hs.files thr f₀ hf₀
      rw [Kernel.file,if_pos hthr] at hfile
      rw [if_pos hthr,← hfile]
    · rename_i hthr
      have hfile := hs.files thr f hf
      rw [Kernel.file,if_neg hthr] at hfile
      rw [if_neg hthr,hfile]

theorem interrupt {vector : Nat} {err : Option (BitVec 64)} {mmapPf : Bool} (hvector : vector < 256)
    (herr : err.isSome=hasErrorCode vector) (hk : k.Interrupted ist vector err mmapPf k') :
    Separate root (.interrupt k.running vector err mmapPf::h) k' where
  list := hk.threadList hs.list
  ownTls := hk.ownTls hs.ownTls
  files thr f hf := by
    rw [fileIn] at hf
    rw [hk.file hs.ownTls hvector herr]
    split at hf
    · rename_i hthr
      obtain ⟨f₀,hf₀,rfl⟩ := Option.map_eq_some_iff.mp hf
      rw [if_pos hthr,hs.files thr f₀ hf₀]
    · rename_i hthr
      rw [if_neg hthr,hs.files thr f hf]

theorem running_lt (hthr : k.running=some thr) : thr < k.sched.made := by
  rw [Kernel.running] at hthr
  split at hthr
  · cases hthr
  · cases hthr
    exact hs.list.made _ hs.list.current

theorem created (hmade : k.sched.made+1 < 2^31) {usermode : Bool} {entry stack : BitVec 64}
    {rsp : Option (BitVec 64)} (hcreate : k.sched.createThread usermode entry stack rsp=some s) :
    Separate root (.created k.sched.made (Scheduler.initialRegs usermode entry stack rsp)::h)
      { k with sched := s, tls := update k.tls k.sched.made 0 } := by
  obtain ⟨s₁,hs₁,hlist⟩ := hs.list.createThread (by omega) usermode entry stack rsp
  obtain ⟨s₂,hs₂,-,hsame,-⟩ := hs.list.toThreadRing.createThread usermode entry stack rsp
  cases hs₁.symm.trans hcreate
  cases hs₂.symm.trans hcreate
  have hrun : Kernel.running { k with
      sched := s, tls := update k.tls k.sched.made 0 }=k.running := by
    rw [Kernel.running,Kernel.running,hsame.justStarted,hsame.current]
    rfl
  have hnew : ∀ thr, k.running=some thr → thr≠k.sched.made :=
    fun thr hthr => Nat.ne_of_lt (hs.running_lt hthr)
  refine ⟨hlist,?_,?_⟩
  · intro thr hthr
    rw [hrun] at hthr
    exact (hs.ownTls thr hthr).trans (update_of_ne (hnew thr hthr) _ _).symm
  · intro thr f hf
    rw [fileIn] at hf
    rw [Kernel.file,hrun]
    split at hf
    · rename_i hthr
      cases hf
      rw [if_neg (fun hr => hnew thr hr hthr.symm),← hthr]
      simp only [hsame.regs,Scheduler.threads_newThread_self,update_self]
    · rename_i hthr
      rw [← hs.files thr f hf,Kernel.file]
      simp only [hsame.regs,Scheduler.threads_newThread _ _ (Ne.symm hthr),
        update_of_ne (Ne.symm hthr)]

theorem setTls {tls : BitVec 64} (hthr : k.running=some thr) :
    Separate root (.setTls thr tls::h)
      { k with tls := update k.tls thr tls, fsBase := tls } := by
  have hrun : Kernel.running { k with tls := update k.tls thr tls, fsBase := tls }=k.running :=
    rfl
  refine ⟨hs.list,?_,?_⟩
  · intro i hi
    cases hthr.symm.trans hi
    show tls=update k.tls thr tls thr
    rw [update_self]
  · intro i f hf
    rw [fileIn] at hf
    rw [Kernel.file,hrun,hthr]
    split at hf
    · rename_i he
      obtain ⟨f₀,hf₀,rfl⟩ := Option.map_eq_some_iff.mp hf
      have hfile := hs.files i f₀ hf₀
      rw [Kernel.file,hthr,if_pos (by rw [he])] at hfile
      rw [if_pos (by rw [he]),← hfile]
    · rename_i hne
      have hfile := hs.files i f hf
      have hi : some thr≠some i := fun he => hne (Option.some.inj he)
      rw [Kernel.file,hthr,if_neg hi] at hfile
      rw [if_neg hi,← hfile]
      simp only [update_of_ne (Ne.symm hne)]

theorem exec {entry stack : BitVec 64} (hthr : k.running=some thr) (regs : CpuCtx) :
    Separate root (.exec thr entry stack::h) { k with sched := k.sched.setRegs thr regs } := by
  refine hs.sched ?_ rfl ?_ (fun _ => rfl)
  · refine hs.list.of_same (Scheduler.sameLinks_setRegs _ _ _) hs.list.current ?_
    rw [Scheduler.state_setRegs]
    exact hs.list.runnable
  · intro i hi
    rw [Scheduler.regs_setRegs,if_neg]
    rintro rfl
    exact hi hthr

theorem call {l : SchedCall} (he : e.call=some l) (hl : l.Allowed k.sched)
    (hcall : schedCall k.sched l=some s) : Separate root (e::h) { k with sched := s } := by
  obtain ⟨t,ht,hlist⟩ := hs.list.call hl
  cases ht.symm.trans hcall
  cases e with
  | remove pid =>
    cases he
    have hsame := Scheduler.sameThreads_remove hcall
    refine hs.sched hlist ?_ (fun i _ => hsame.regs i) (fun _ => rfl)
    rw [Kernel.running,Kernel.running,hsame.justStarted,hsame.current]
  | marked thr state =>
    cases he
    cases hcall
    exact hs.sched hlist rfl (fun i _ => Scheduler.regs_setState _ _ _ i) (fun _ => rfl)
  | started =>
    cases he
    cases hcall
    exact hs.sched hlist rfl (fun i _ => rfl) (fun _ => rfl)
  | stopped =>
    cases he
    cases hcall
    exact hs.sched hlist rfl (fun i _ => rfl) (fun _ => rfl)
  | _ => cases he

theorem step (hstep : (kernelRuns ist).step k e k') : Separate root (e::h) k' := by
  cases e with
  | execute thr c =>
    obtain ⟨rfl,rfl⟩ := hstep
    exact hs.execute
  | interrupt thr vector err mmapPf =>
    obtain ⟨rfl,hvector,herr,hk⟩ := hstep
    exact hs.interrupt hvector herr hk
  | created thr regs =>
    obtain ⟨rfl,hmade,usermode,entry,stack,rsp,s,rfl,hcreate,rfl⟩ := hstep
    exact hs.created hmade hcreate
  | setTls thr tls =>
    obtain ⟨hthr,rfl⟩ := hstep
    exact hs.setTls hthr
  | exec thr entry stack =>
    obtain ⟨hthr,rfl⟩ := hstep
    exact hs.exec hthr _
  | registered vector handler =>
    obtain ⟨-,rfl⟩ := hstep
    exact ⟨hs.list,hs.ownTls,hs.files⟩
  | remove | marked | started | stopped =>
    obtain ⟨l,s,he,hl,hcall,rfl⟩ := hstep
    exact hs.call he hl hcall

end Separate

end X64OS.Arch
