import X64OS.Framework.X86Return
import X64OS.Krnl.Syscalls
import Mathlib.Tactic.IntervalCases

namespace X64OS.Arch

open Framework.X86 Sched Krnl Function

def hasErrorCode (vector : Nat) : Bool :=
  [0x08,0x0a,0x0b,0x0c,0x0d,0x0e,0x11,0x17,0x1b,0x1c].contains vector

/-- The macro INT of idt.asm; the branch behind its comparison skips nothing. -/
def intStub (vector : Nat) : List Instr :=
  (if hasErrorCode vector then [] else [.pushImm 0])++[.swapgs,.pushImm (BitVec.ofNat 64 vector)]

/-- int_common up to the call of idt_main_handler. -/
def intCommon : List Instr :=
  [.pushReg .r15,.pushReg .r14,.pushReg .r13,.pushReg .r12,.pushReg .r11,.pushReg .r10,.pushReg .r9,
    .pushReg .r8,.pushReg .rbp,.pushReg .rdi,.pushReg .rsi,.pushReg .rdx,.pushReg .rcx,.pushReg .rbx,
    .pushReg .rax,.movFromSeg .es .rax,.pushReg .rax,.movFromSeg .ds .rax,.pushReg .rax,
    .movFromCr2 .rax,.pushReg .rax,.cld,.movImm 0x30 .rax,.movToSeg .rax .ds,.movToSeg .rax .es,
    .movToSeg .rax .ss,.movReg .rsp .rdi,.movImm 0 .rbp]

/-- int_common between the call and iretq. -/
def intReturn : List Unwind :=
  [.addRsp 1,.popReg .rax,.movToSeg .rax .ds,.popReg .rax,.movToSeg .rax .es,.popReg .rax,.popReg .rbx,
    .popReg .rcx,.popReg .rdx,.popReg .rsi,.popReg .rdi,.popReg .rbp,.popReg .r8,.popReg .r9,
    .popReg .r10,.popReg .r11,.popReg .r12,.popReg .r13,.popReg .r14,.popReg .r15,.addRsp 2]

/-- An interrupt up to the call of idt_main_handler; ist is the stack of the task state segment. -/
def enter (ist : BitVec 64) (c : Cpu) (vector : Nat) (err : Option (BitVec 64)) : Machine :=
  (c.deliver ist err).run (intStub vector++intCommon)

/-- The rest of int_common, from the machine in which idt_main_handler returned. -/
def resume (m : Machine) : Cpu := (m.unwind intReturn).iretq

def interruptedCtx (c : Cpu) (vector : Nat) (err : BitVec 64) : CpuCtx :=
  let m := c.machine
  ⟨m.cr2,(m.seg .ds).setWidth 64,(m.seg .es).setWidth 64,m.reg .rax,m.reg .rbx,m.reg .rcx,m.reg .rdx,
    m.reg .rsi,m.reg .rdi,m.reg .rbp,m.reg .r8,m.reg .r9,m.reg .r10,m.reg .r11,m.reg .r12,m.reg .r13,
    m.reg .r14,m.reg .r15,BitVec.ofNat 64 vector,err,c.rip,c.cs.setWidth 64,c.rflags,m.reg .rsp,
    (m.seg .ss).setWidth 64⟩

@[ext]
structure Registers where
  reg : Reg → BitVec 64
  seg : Seg → BitVec 16
  rip : BitVec 64
  cs : BitVec 16
  rflags : BitVec 64

def cpuRegisters (c : Cpu) : Registers := ⟨c.machine.reg,c.machine.seg,c.rip,c.cs,c.rflags⟩

def ctxReg (ctx : CpuCtx) : Reg → BitVec 64
  | .rax => ctx.rax
  | .rbx => ctx.rbx
  | .rcx => ctx.rcx
  | .rdx => ctx.rdx
  | .rsi => ctx.rsi
  | .rdi => ctx.rdi
  | .rbp => ctx.rbp
  | .rsp => ctx.rsp
  | .r8 => ctx.r8
  | .r9 => ctx.r9
  | .r10 => ctx.r10
  | .r11 => ctx.r11
  | .r12 => ctx.r12
  | .r13 => ctx.r13
  | .r14 => ctx.r14
  | .r15 => ctx.r15

def ctxSeg (ctx : CpuCtx) : Seg → BitVec 16
  | .es => ctx.es.setWidth 16
  | .ds => ctx.ds.setWidth 16
  | .ss => ctx.ss.setWidth 16

def ctxRegisters (ctx : CpuCtx) : Registers :=
  ⟨ctxReg ctx,ctxSeg ctx,ctx.rip,ctx.cs.setWidth 16,legalFlags ctx.rflags⟩

def loadCtx (m : Machine) (ctx : CpuCtx) : Cpu :=
  .load { m with reg := ctxReg ctx, seg := ctxSeg ctx } ctx.rip (ctx.cs.setWidth 16) ctx.rflags

theorem registers_loadCtx (m : Machine) (ctx : CpuCtx) :
    cpuRegisters (loadCtx m ctx)=ctxRegisters ctx := rfl

theorem registers_interruptedCtx (c : Cpu) (vector : Nat) (err : BitVec 64) :
    ctxRegisters (interruptedCtx c vector err)=cpuRegisters c := by
  ext r
  · cases r <;> rfl
  · cases r <;> simp [ctxRegisters,ctxSeg,interruptedCtx,cpuRegisters]
  · rfl
  · simp [ctxRegisters,interruptedCtx,cpuRegisters]
  · simp [ctxRegisters,interruptedCtx,cpuRegisters,c.legal]

section Entry

variable {ist : BitVec 64} {c : Cpu} {vector : Nat} {err : Option (BitVec 64)}

theorem pushed_enter (herr : err.isSome=hasErrorCode vector) :
    (c.machine.setReg .rsp (ist &&& ~~~15#64)).pushed
      (c.delivery err++(intStub vector++intCommon))=
      ctxWords (interruptedCtx c vector (err.getD 0)) := by
  rw [intStub,← herr]
  cases err <;> simp [Cpu.delivery,intCommon,Machine.pushed,Machine.step,ctxWords,interruptedCtx]

theorem enter_eq : enter ist c vector err=
    (c.machine.setReg .rsp (ist &&& ~~~15#64)).run (c.delivery err++(intStub vector++intCommon)) := by
  rw [enter,Cpu.deliver,Machine.run_append (c.machine.setReg .rsp _)]

theorem keepsStack_enter (c : Cpu) (vector : Nat) (err : Option (BitVec 64)) :
    ∀ i∈c.delivery err++(intStub vector++intCommon), i.KeepsStack := by
  simp only [List.forall_mem_append]
  refine ⟨?_,?_,by decide⟩
  · simp [Cpu.delivery,Instr.KeepsStack]
  · rw [intStub]
    split <;> simp [Instr.KeepsStack]

theorem length_enter (c : Cpu) (vector : Nat) (err : Option (BitVec 64)) :
    (c.delivery err++(intStub vector++intCommon)).length < 2^61 := by
  rw [intStub]
  cases err <;> split <;> simp [Cpu.delivery,intCommon]

theorem enter_stack (herr : err.isSome=hasErrorCode vector) :
    (enter ist c vector err).Stack (ctxWords (interruptedCtx c vector (err.getD 0))) := by
  have hlen := length_enter c vector err
  have hstack := (Machine.stack_nil (c.machine.setReg .rsp (ist &&& ~~~15#64))).run
    (keepsStack_enter c vector err) (by rw [List.length_nil]; omega)
  rw [List.append_nil,pushed_enter herr] at hstack
  rw [enter_eq]
  exact hstack

theorem rsp_enter (herr : err.isSome=hasErrorCode vector) :
    (enter ist c vector err).reg .rsp=(ist &&& ~~~15#64)-200#64 := by
  rw [enter_eq,Machine.rsp_run (keepsStack_enter c vector err),pushed_enter herr,Machine.reg_setReg,
    update_self]
  rfl

theorem rdi_enter : (enter ist c vector err).reg .rdi=(enter ist c vector err).reg .rsp := by
  rw [enter,Machine.run_append]
  rfl

theorem enteredCtx_enter (herr : err.isSome=hasErrorCode vector) :
    cpuCtxAt (enter ist c vector err).mem ((enter ist c vector err).reg .rdi)=
      interruptedCtx c vector (err.getD 0) := by
  rw [rdi_enter]
  exact cpuCtxAt_stack (enter_stack herr)

theorem gs_enter : (enter ist c vector err).gsBase=c.machine.kernelGsBase ∧
    (enter ist c vector err).kernelGsBase=c.machine.gsBase := by
  rw [enter_eq,intStub]
  cases err <;> split <;> exact ⟨rfl,rfl⟩

end Entry

section Return

variable {m : Machine} {ctx : CpuCtx}

theorem stack_cpuCtxAt (m : Machine) : m.Stack (ctxWords (cpuCtxAt m.mem (m.reg .rsp))) := by
  intro k hk
  have hk' : k < 25 := hk
  interval_cases k <;> rfl

theorem unwindOn_intReturn (m : Machine) (ctx : CpuCtx) :
    m.unwindOn intReturn (ctxWords ctx)=
      { m with
        reg := update (ctxReg ctx) .rsp (m.reg .rsp+160#64)
        seg := update (ctxSeg ctx) .ss (m.seg .ss) } := by
  simp only [intReturn,ctxWords,Machine.unwindOn,Machine.unwindStep,List.headD_cons,List.tail_cons,
    List.drop_succ_cons,List.drop_zero,Machine.setReg,Machine.setSeg]
  ext r : 2
  · cases r <;> simp [ctxReg,BitVec.add_assoc]
  · cases r <;> simp [ctxSeg]
  all_goals rfl

theorem resume_stack (h : m.Stack (ctxWords ctx)) : resume m=loadCtx m ctx := by
  obtain ⟨heq,hrest⟩ := h.unwind (show ∀ i∈intReturn, i.keepsStack by decide) (Nat.le_add_left 20 5)
  have hiret : (m.unwind intReturn).Stack [ctx.rip,ctx.cs,ctx.rflags,ctx.rsp,ctx.ss] := by
    rw [heq]
    exact hrest
  rw [resume,hiret.iretq,heq,unwindOn_intReturn,loadCtx]
  congr 1
  simp only [Machine.setReg,Machine.setSeg,update_idem]
  ext r : 2
  · cases r <;> rfl
  · cases r <;> rfl
  all_goals rfl

/-- The call of a function returned: its stack is as it was, and it used no swapgs. -/
structure CallReturns (m m' : Machine) : Prop where
  rsp : m'.reg .rsp=m.reg .rsp
  gsBase : m'.gsBase=m.gsBase
  kernelGsBase : m'.kernelGsBase=m.kernelGsBase

theorem CallReturns.resume {ist : BitVec 64} {c : Cpu} {vector : Nat} {err : Option (BitVec 64)}
    (h : CallReturns (enter ist c vector err) m)
    (hctx : cpuCtxAt m.mem ((enter ist c vector err).reg .rdi)=ctx) : Arch.resume m=loadCtx m ctx := by
  rw [rdi_enter,← h.rsp] at hctx
  have hstack := stack_cpuCtxAt m
  rw [hctx] at hstack
  exact resume_stack hstack

end Return

/-- All gates have the same stack of the task state segment. The struct cpu_ctx of an interrupt
that comes during the handler of another one takes the place of the other's, so the other, if its
handler leaves the struct as it finds it then, returns to where the second one did, whatever it had
interrupted. An interrupt whose handler leaves the bases of gs alone leaves them exchanged. -/
theorem nested_interrupt_returns (ist : BitVec 64) (c c₂ : Cpu) (vector vector₂ : Nat)
    (err err₂ : Option (BitVec 64)) (herr : err.isSome=hasErrorCode vector)
    (herr₂ : err₂.isSome=hasErrorCode vector₂) (m m₂ : Machine)
    (hcall₂ : CallReturns (enter ist c₂ vector₂ err₂) m₂)
    (hcall : CallReturns (enter ist c vector err) m)
    (hkept : cpuCtxAt m.mem ((enter ist c vector err).reg .rdi)=
      cpuCtxAt m₂.mem ((enter ist c vector err).reg .rdi)) :
    cpuRegisters (resume m)=cpuRegisters (resume m₂) ∧
    (cpuCtxAt m₂.mem ((enter ist c₂ vector₂ err₂).reg .rdi)=
      cpuCtxAt (enter ist c₂ vector₂ err₂).mem ((enter ist c₂ vector₂ err₂).reg .rdi) →
      cpuRegisters (resume m)=cpuRegisters c₂) ∧
    (resume m).machine.gsBase=c.machine.kernelGsBase ∧
    (resume m).machine.kernelGsBase=c.machine.gsBase := by
  have hsame : (enter ist c vector err).reg .rdi=(enter ist c₂ vector₂ err₂).reg .rdi := by
    rw [rdi_enter,rdi_enter,rsp_enter herr,rsp_enter herr₂]
  obtain ⟨ctx,hctx⟩ : ∃ ctx, cpuCtxAt m₂.mem ((enter ist c₂ vector₂ err₂).reg .rdi)=ctx := ⟨_,rfl⟩
  rw [hcall.resume (hkept.trans (by rw [hsame,hctx])),hcall₂.resume hctx,registers_loadCtx,
    registers_loadCtx]
  refine ⟨rfl,?_,hcall.gsBase.trans gs_enter.1,hcall.kernelGsBase.trans gs_enter.2⟩
  intro hleft
  rw [← hctx,hleft,enteredCtx_enter herr₂,registers_interruptedCtx]

def plainCpu (rip : BitVec 64) : Cpu := .load (mmapCall 0) rip 0x28 0x202

theorem CallReturns.refl (m : Machine) : CallReturns m m := ⟨rfl,rfl,rfl⟩

theorem CallReturns.withMem (m : Machine) (mem : BitVec 64 → BitVec 64) :
    CallReturns m { m with mem := mem } := ⟨rfl,rfl,rfl⟩

section
variable (m : Machine) (ctx : CpuCtx)

end

/-- The end of a page fault at 1 during whose handler, at 2, the timer ticked. -/
def tickInFault : Machine :=
  { enter 0x1000 (plainCpu 1) 14 (some 4) with mem := (enter 0x1000 (plainCpu 2) 32 none).mem }

theorem nested_interrupt_returns_tick : cpuRegisters (resume tickInFault)=cpuRegisters (plainCpu 2) ∧
    (plainCpu 2).rip≠(plainCpu 1).rip := by
  refine ⟨?_,by decide⟩
  refine (nested_interrupt_returns 0x1000 (plainCpu 1) (plainCpu 2) 14 32 (some 4) none rfl rfl tickInFault
    (enter 0x1000 (plainCpu 2) 32 none) (.refl _) (.withMem _ _) ?_).2.1 ?_
  · rw [tickInFault]
  · rfl

end X64OS.Arch
