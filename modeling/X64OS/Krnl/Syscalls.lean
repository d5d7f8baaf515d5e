import X64OS.Framework.X86
import X64OS.Sched.Sched

namespace X64OS.Krnl

open Framework.X86 Sched

def thunk : List Instr :=
  [.swapgs,.pushReg .r15,.pushReg .r14,.pushReg .r13,.pushReg .r12,.pushReg .r11,.pushReg .r10,
    .pushReg .r9,.pushReg .r8,.pushReg .rbp,.pushReg .rdi,.pushReg .rsi,.pushReg .rdx,.pushReg .rcx,
    .pushReg .rbx,.pushReg .rax,.movFromSeg .es .rax,.pushReg .rax,.movFromSeg .ds .rax,.pushReg .rax,
    .movFromCr2 .rax,.pushReg .rax,.cld,.movImm 0x30 .rax,.movToSeg .rax .ds,.movToSeg .rax .es,
    .movToSeg .rax .ss,.movReg .rsp .rdi]

def syscallEntry : List Instr :=
  [.pushImm 0x53,.pushReg .rsp,.pushReg .r11,.pushImm 0,.pushReg .rcx,.pushImm 0,.pushImm 1024]++thunk

/-- The instruction syscall: the processor keeps rip and rflags in two registers. -/
def syscallInstruction (m : Machine) (rip rflags : BitVec 64) : Machine :=
  (m.setReg .rcx rip).setReg .r11 rflags

def cpuCtxAt (mem : BitVec 64 → BitVec 64) (ctx : BitVec 64) : CpuCtx :=
  let field (k : Nat) := mem (ctx+BitVec.ofNat 64 (8*k))
  ⟨field 0,field 1,field 2,field 3,field 4,field 5,field 6,field 7,field 8,field 9,field 10,field 11,
    field 12,field 13,field 14,field 15,field 16,field 17,field 18,field 19,field 20,field 21,field 22,
    field 23,field 24⟩

def enteredCtx (m : Machine) (rip rflags : BitVec 64) : CpuCtx :=
  let m := (syscallInstruction m rip rflags).run syscallEntry
  cpuCtxAt m.mem (m.reg .rdi)

/-- The seven numbers that Kernel::HandleSyscall takes. -/
structure SyscallArgs where
  syscallNum : BitVec 64
  arg1 : BitVec 64
  arg2 : BitVec 64
  arg3 : BitVec 64
  arg4 : BitVec 64
  arg5 : BitVec 64
  arg6 : BitVec 64
  deriving DecidableEq

def syscallCEntry (ctx : CpuCtx) : SyscallArgs :=
  ⟨ctx.rax,ctx.rdi,ctx.rsi,ctx.rdx,ctx.r9,ctx.r8,ctx.r10⟩

/-- What the Linux set of HandleSyscall does, with the arguments as the callee gets them. -/
inductive Handler where
  | syscallRead (fdnum : BitVec 32) (buf count : BitVec 64)
  | syscallWrite (fdnum : BitVec 32) (buf count : BitVec 64)
  | setTrans
  | syscallOpenat (dirFdnum : BitVec 32) (path : BitVec 64) (flags mode : BitVec 32)
  | syscallFstat (fd : BitVec 32) (stBuf : BitVec 64)
  | sysLinuxMmap (addr length : BitVec 64) (prot flags fd : BitVec 32) (offset : BitVec 64)
  | munmap (addr length : BitVec 64)
  | setWinsize (size : BitVec 64)
  | syscallIoctl (fdnum : BitVec 32) (request arg : BitVec 64)
  | syscallPread (fdnum : BitVec 32) (buf count offset : BitVec 64)
  | sysLinuxWritev (fd : BitVec 32) (iov : BitVec 64) (iovcnt : BitVec 32)
  | syscallSocket (family type protocol : BitVec 32)
  | sysLinuxUname (unameStruct : BitVec 64)
  | setTls (tls : BitVec 64)
  | setTidAddr (addr : BitVec 64)
  | ret (value : BitVec 64)
  deriving DecidableEq

/-- What HandleSyscall reads beside its arguments: the translation of user addresses, the
two names of the direct map, whether a string is MAGIC_TEXT, and fields of the thread. -/
structure SyscallEnv where
  virt2phys : BitVec 64 → BitVec 64
  higherHalf : BitVec 64
  hhdm : BitVec 64
  isMagicText : BitVec 64 → Bool
  heapStart : BitVec 64
  pid : BitVec 32

def magicTextSize : BitVec 64 := 71

def atFdcwd : BitVec 32 := BitVec.ofInt 32 (-100)

def tiocgwinsz : BitVec 64 := 0x5413

def archSetFs : BitVec 64 := 0x1002

def enosys : BitVec 64 := 38

def toInt32 (v : BitVec 64) : BitVec 32 := v.setWidth 32

def handleSyscall (env : SyscallEnv) (a : SyscallArgs) : Handler :=
  match a.syscallNum.toNat with
  | 0 => .syscallRead (toInt32 a.arg1) a.arg2 a.arg3
  | 1 =>
    let buf := env.virt2phys a.arg2+env.higherHalf
    if a.arg3=magicTextSize ∧ env.isMagicText buf then .setTrans
    else .syscallWrite (toInt32 a.arg1) (env.virt2phys buf+env.hhdm) a.arg3
  | 2 => .syscallOpenat atFdcwd (env.virt2phys a.arg1+env.higherHalf) (toInt32 a.arg2) (toInt32 a.arg3)
  | 3 => .ret 0
  | 5 => .syscallFstat (toInt32 a.arg1) a.arg2
  | 9 => .sysLinuxMmap a.arg1 a.arg2 (toInt32 a.arg3) (toInt32 a.arg4) (toInt32 a.arg5) a.arg6
  | 11 => .munmap a.arg1 a.arg2
  | 12 => .ret env.heapStart
  | 16 =>
    if a.arg2=tiocgwinsz then .setWinsize a.arg3
    else .syscallIoctl (toInt32 a.arg1) a.arg2 a.arg3
  | 17 => .syscallPread (toInt32 a.arg1) a.arg2 a.arg3 a.arg4
  | 20 => .sysLinuxWritev (toInt32 a.arg1) a.arg2 (toInt32 a.arg3)
  | 39 => .ret (env.pid.signExtend 64)
  | 41 => .syscallSocket (toInt32 a.arg1) (toInt32 a.arg2) (toInt32 a.arg3)
  | 60 => .ret 0
  | 63 => .sysLinuxUname a.arg1
  | 102 => .ret 0
  | 158 => if a.arg1=archSetFs then .setTls a.arg2 else .ret 0
  | 218 => .setTidAddr a.arg1
  | 257 => .syscallOpenat (toInt32 a.arg1) a.arg2 (toInt32 a.arg3) 777
  | _ => .ret (-enosys)

/-- The arguments of a system call as the Linux ABI passes them. -/
def linuxArgs (m : Machine) : SyscallArgs :=
  ⟨m.reg .rax,m.reg .rdi,m.reg .rsi,m.reg .rdx,m.reg .r10,m.reg .r8,m.reg .r9⟩

def handledArgs (m : Machine) (rip rflags : BitVec 64) : SyscallArgs :=
  syscallCEntry (enteredCtx m rip rflags)

/-- The fields of a struct cpu_ctx in the order of their addresses. -/
def ctxWords (c : CpuCtx) : List (BitVec 64) :=
  [c.cr2,c.ds,c.es,c.rax,c.rbx,c.rcx,c.rdx,c.rsi,c.rdi,c.rbp,c.r8,c.r9,c.r10,c.r11,c.r12,c.r13,c.r14,
    c.r15,c.intVector,c.err,c.rip,c.cs,c.rflags,c.rsp,c.ss]

theorem cpuCtxAt_stack {m : Machine} {c : CpuCtx} (h : m.Stack (ctxWords c)) :
    cpuCtxAt m.mem (m.reg .rsp)=c := by
  have hfield : ∀ k (hk : k < 25), m.mem (m.reg .rsp+BitVec.ofNat 64 (8*k))=(ctxWords c)[k] :=
    fun k hk => h k hk
  unfold cpuCtxAt
  dsimp only
  rw [hfield 0 (by decide),hfield 1 (by decide),hfield 2 (by decide),hfield 3 (by decide),
    hfield 4 (by decide),hfield 5 (by decide),hfield 6 (by decide),hfield 7 (by decide),
    hfield 8 (by decide),hfield 9 (by decide),hfield 10 (by decide),hfield 11 (by decide),
    hfield 12 (by decide),hfield 13 (by decide),hfield 14 (by decide),hfield 15 (by decide),
    hfield 16 (by decide),hfield 17 (by decide),hfield 18 (by decide),hfield 19 (by decide),
    hfield 20 (by decide),hfield 21 (by decide),hfield 22 (by decide),hfield 23 (by decide),
    hfield 24 (by decide)]
  rfl

section
variable (m : Machine)

def savedCtx (rip rflags : BitVec 64) : CpuCtx :=
  ⟨m.cr2,(m.seg .ds).setWidth 64,(m.seg .es).setWidth 64,m.reg .rax,m.reg .rbx,rip,m.reg .rdx,
    m.reg .rsi,m.reg .rdi,m.reg .rbp,m.reg .r8,m.reg .r9,m.reg .r10,rflags,m.reg .r12,m.reg .r13,
    m.reg .r14,m.reg .r15,1024,0,rip,0,rflags,m.reg .rsp-8#64,0x53⟩

theorem pushed_syscallEntry (rip rflags : BitVec 64) :
    (syscallInstruction m rip rflags).pushed syscallEntry=ctxWords (savedCtx m rip rflags) := by
  simp [syscallEntry,thunk,syscallInstruction,Machine.pushed,Machine.step,ctxWords,savedCtx]

theorem rdi_syscallEntry : (m.run syscallEntry).reg .rdi=(m.run syscallEntry).reg .rsp := by
  rfl

theorem enteredCtx_eq (rip rflags : BitVec 64) : enteredCtx m rip rflags=savedCtx m rip rflags := by
  have hstack := (Machine.stack_nil (syscallInstruction m rip rflags)).run
    (show ∀ i∈syscallEntry, i.KeepsStack by decide) (by decide)
  rw [List.append_nil,pushed_syscallEntry] at hstack
  rw [enteredCtx,rdi_syscallEntry]
  exact cpuCtxAt_stack hstack

theorem handledArgs_eq (rip rflags : BitVec 64) :
    handledArgs m rip rflags=
      ⟨m.reg .rax,m.reg .rdi,m.reg .rsi,m.reg .rdx,m.reg .r9,m.reg .r8,m.reg .r10⟩ := by
  rw [handledArgs,enteredCtx_eq]
  rfl

end

/-- Only mmap and pread64 have more than three arguments. -/
theorem handleSyscall_three (env : SyscallEnv) (num a b c d e f d' e' f' : BitVec 64)
    (hmmap : num≠9) (hpread : num≠17) :
    handleSyscall env ⟨num,a,b,c,d,e,f⟩=handleSyscall env ⟨num,a,b,c,d',e',f'⟩ := by
  have h9 : num.toNat≠9 := fun h => hmmap (BitVec.eq_of_toNat_eq h)
  have h17 : num.toNat≠17 := fun h => hpread (BitVec.eq_of_toNat_eq h)
  unfold handleSyscall
  dsimp only
  generalize num.toNat=n at h9 h17
  split
  case h_6 => exact absurd rfl h9
  case h_10 => exact absurd rfl h17
  all_goals rfl

/-- The arguments are those of the ABI exactly when r9 and r10, which trade places on the
way, hold the same. Of the handlers, mmap and pread64 see the difference. -/
theorem syscall_abi_iff (env : SyscallEnv) (m : Machine) (rip rflags : BitVec 64) :
    (handledArgs m rip rflags=linuxArgs m ↔ m.reg .r9=m.reg .r10) ∧
    (m.reg .rax=9 → (handleSyscall env (handledArgs m rip rflags)=
      .sysLinuxMmap (m.reg .rdi) (m.reg .rsi) (toInt32 (m.reg .rdx)) (toInt32 (m.reg .r10))
        (toInt32 (m.reg .r8)) (m.reg .r9) ↔ m.reg .r9=m.reg .r10)) ∧
    (m.reg .rax=17 → (handleSyscall env (handledArgs m rip rflags)=
      .syscallPread (toInt32 (m.reg .rdi)) (m.reg .rsi) (m.reg .rdx) (m.reg .r10) ↔
        m.reg .r9=m.reg .r10)) ∧
    (m.reg .rax≠9 → m.reg .rax≠17 →
      handleSyscall env (handledArgs m rip rflags)=handleSyscall env (linuxArgs m)) := by
  rw [handledArgs_eq,linuxArgs]
  refine ⟨?_,?_,?_,?_⟩
  · rw [SyscallArgs.mk.injEq]
    exact ⟨fun h => h.2.2.2.2.1,fun h => ⟨rfl,rfl,rfl,rfl,h,rfl,h.symm⟩⟩
  · intro hnum
    rw [hnum]
    constructor
    · intro h
      exact (Handler.sysLinuxMmap.inj h).2.2.2.2.2.symm
    · intro h
      rw [h]
      rfl
  · intro hnum
    rw [hnum]
    constructor
    · intro h
      exact (Handler.syscallPread.inj h).2.2.2
    · intro h
      rw [h]
      rfl
  · intro hmmap hpread
    exact handleSyscall_three env _ _ _ _ _ _ _ _ _ _ hmmap hpread

def mmapCall (offset : BitVec 64) : Machine where
  reg
    | .rax => 9
    | .rsi => 8192
    | .rdx => 1
    | .r10 => 2
    | .r8 => 3
    | .r9 => offset
    | _ => 0
  seg _ := 0
  cr2 := 0
  gsBase := 0
  kernelGsBase := 0
  direction := false
  mem _ := 0

def plainEnv : SyscallEnv := ⟨id,0,0,fun _ => false,0,1⟩

theorem syscall_abi_iff_mmap :
    handleSyscall plainEnv (handledArgs (mmapCall 2) 0 0)=.sysLinuxMmap 0 8192 1 2 3 2 :=
  ((syscall_abi_iff plainEnv (mmapCall 2) 0 0).2.1 rfl).mpr rfl

/-- At offset 4096 the handler gets the flags 4096 and the offset 2. -/
theorem syscall_mmap_swapped :
    handleSyscall plainEnv (handledArgs (mmapCall 4096) 0 0)=.sysLinuxMmap 0 8192 1 4096 3 2 ∧
    handledArgs (mmapCall 4096) 0 0≠linuxArgs (mmapCall 4096) := by
  rw [handledArgs_eq]
  exact ⟨rfl,by decide⟩

end X64OS.Krnl
