import Mathlib.Algebra.Group.Nat.Defs
import Mathlib.Logic.Function.Basic

namespace X64OS.Framework.X86

open Function

inductive Reg where
  | rax | rbx | rcx | rdx | rsi | rdi | rbp | rsp
  | r8 | r9 | r10 | r11 | r12 | r13 | r14 | r15
  deriving DecidableEq, Repr

inductive Seg where
  | es | ds | ss
  deriving DecidableEq, Repr

/-- What the instructions below read and write. A stack is accessed in words of eight
bytes, so mem gives the word that begins at an address. -/
structure Machine where
  reg : Reg → BitVec 64
  seg : Seg → BitVec 16
  cr2 : BitVec 64
  gsBase : BitVec 64
  kernelGsBase : BitVec 64
  direction : Bool
  mem : BitVec 64 → BitVec 64

inductive Instr where
  | swapgs
  | cld
  | pushReg (src : Reg)
  | pushImm (value : BitVec 64)
  | movReg (src dst : Reg)
  | movImm (value : BitVec 32) (dst : Reg)
  | movFromSeg (src : Seg) (dst : Reg)
  | movToSeg (src : Reg) (dst : Seg)
  | movFromCr2 (dst : Reg)

namespace Machine

section
variable (m : Machine)

def setReg (r : Reg) (v : BitVec 64) : Machine :=
  { m with reg := update m.reg r v }

def setSeg (s : Seg) (v : BitVec 16) : Machine :=
  { m with seg := update m.seg s v }

def swapGs : Machine := { m with gsBase := m.kernelGsBase, kernelGsBase := m.gsBase }

/-- The value is the one before the stack pointer moves. -/
def push (v : BitVec 64) : Machine :=
  { m with
    reg := update m.reg .rsp (m.reg .rsp-8#64)
    mem := update m.mem (m.reg .rsp-8#64) v }

/-- A write to a 32-bit register clears the upper half. -/
def step : Instr → Machine
  | .swapgs => m.swapGs
  | .cld => { m with direction := false }
  | .pushReg src => m.push (m.reg src)
  | .pushImm value => m.push value
  | .movReg src dst => m.setReg dst (m.reg src)
  | .movImm value dst => m.setReg dst (value.setWidth 64)
  | .movFromSeg src dst => m.setReg dst ((m.seg src).setWidth 64)
  | .movToSeg src dst => m.setSeg dst ((m.reg src).setWidth 16)
  | .movFromCr2 dst => m.setReg dst m.cr2

def run (code : List Instr) : Machine := code.foldl step m

end

def pushed (m : Machine) : List Instr → List (BitVec 64)
  | [] => []
  | .pushReg src::code => pushed (m.step (.pushReg src)) code++[m.reg src]
  | .pushImm value::code => pushed (m.step (.pushImm value)) code++[value]
  | i::code => pushed (m.step i) code

def Stack (m : Machine) (words : List (BitVec 64)) : Prop :=
  ∀ k (h : k < words.length), m.mem (m.reg .rsp+BitVec.ofNat 64 (8*k))=words[k]

end Machine

def Instr.KeepsStack : Instr → Prop
  | .movReg _ dst | .movImm _ dst | .movFromSeg _ dst | .movFromCr2 dst => dst≠.rsp
  | _ => True

instance : DecidablePred Instr.KeepsStack
  | .swapgs | .cld | .pushReg _ | .pushImm _ | .movToSeg .. => inferInstanceAs (Decidable True)
  | .movReg .. | .movImm .. | .movFromSeg .. | .movFromCr2 _ => inferInstanceAs (Decidable (_≠_))

namespace Machine

variable {m : Machine} {words : List (BitVec 64)}

section
variable (m : Machine) (r : Reg) (v : BitVec 64)

@[simp] theorem reg_setReg : (m.setReg r v).reg=update m.reg r v := rfl

@[simp] theorem seg_setReg : (m.setReg r v).seg=m.seg := rfl

@[simp] theorem cr2_setReg : (m.setReg r v).cr2=m.cr2 := rfl

end

@[simp] theorem reg_swapGs (m : Machine) : m.swapGs.reg=m.reg := rfl

@[simp] theorem seg_swapGs (m : Machine) : m.swapGs.seg=m.seg := rfl

@[simp] theorem cr2_swapGs (m : Machine) : m.swapGs.cr2=m.cr2 := rfl

section
variable (m : Machine) (v : BitVec 64)

@[simp] theorem reg_push : (m.push v).reg=update m.reg .rsp (m.reg .rsp-8#64) := rfl

@[simp] theorem seg_push : (m.push v).seg=m.seg := rfl

@[simp] theorem cr2_push : (m.push v).cr2=m.cr2 := rfl

@[simp] theorem mem_push : (m.push v).mem=update m.mem (m.reg .rsp-8#64) v := rfl

end

theorem Stack.push (h : m.Stack words) (hlen : words.length < 2^61-1) (v : BitVec 64) :
    (m.push v).Stack (v::words) := by
  intro k hk
  have hsp : (m.push v).reg .rsp=m.reg .rsp-8#64 := rfl
  rw [hsp]
  cases k with
  | zero =>
    rw [Nat.mul_zero,BitVec.add_zero,mem_push,update_self]
    rfl
  | succ k =>
    have hk' : k < words.length := Nat.lt_of_succ_lt_succ hk
    have hat : m.reg .rsp-8#64+BitVec.ofNat 64 (8*(k+1))=m.reg .rsp+BitVec.ofNat 64 (8*k) := by
      apply BitVec.eq_of_toNat_eq
      simp only [BitVec.toNat_add,BitVec.toNat_sub,BitVec.toNat_ofNat]
      omega
    -- the words that were there lie above the new one, and do not wrap around to it
    have hne : m.reg .rsp+BitVec.ofNat 64 (8*k)≠m.reg .rsp-8#64 := by
      intro he
      have := congrArg BitVec.toNat he
      simp only [BitVec.toNat_add,BitVec.toNat_sub,BitVec.toNat_ofNat] at this
      omega
    rw [hat,mem_push,update_of_ne hne]
    exact h k hk'

theorem Stack.setReg (h : m.Stack words) {r : Reg} (hr : r≠.rsp) (v : BitVec 64) :
    (m.setReg r v).Stack words := by
  intro k hk
  have hsp : (m.setReg r v).reg .rsp=m.reg .rsp := by
    rw [reg_setReg,update_of_ne (Ne.symm hr)]
  rw [hsp]
  exact h k hk

theorem Stack.run {code : List Instr} (h : m.Stack words) (hcode : ∀ i∈code, i.KeepsStack)
    (hlen : words.length+code.length < 2^61) : (m.run code).Stack (m.pushed code++words) := by
  induction code generalizing m words with
  | nil => exact h
  | cons i code ih =>
    have hrest : ∀ j∈code, j.KeepsStack := fun j hj => hcode j (List.mem_cons_of_mem _ hj)
    have hi := hcode i List.mem_cons_self
    rw [List.length_cons] at hlen
    have hsame : (m.step i).Stack words → (m.step i).pushed code=m.pushed (i::code) →
        (m.run (i::code)).Stack (m.pushed (i::code)++words) := by
      intro hstep he
      rw [← he]
      exact ih hstep hrest (by omega)
    have hpush : ∀ v, m.step i=m.push v → m.pushed (i::code)=(m.step i).pushed code++[v] →
        (m.run (i::code)).Stack (m.pushed (i::code)++words) := by
      intro v hv he
      rw [he,List.append_assoc]
      refine ih ?_ hrest (by rw [List.length_append,List.length_singleton]; omega)
      rw [hv]
      exact h.push (by omega) v
    cases i with
    | swapgs => exact hsame h rfl
    | cld => exact hsame h rfl
    | pushReg src => exact hpush _ rfl rfl
    | pushImm value => exact hpush _ rfl rfl
    | movReg src dst => exact hsame (h.setReg hi _) rfl
    | movImm value dst => exact hsame (h.setReg hi _) rfl
    | movFromSeg src dst => exact hsame (h.setReg hi _) rfl
    | movToSeg src dst => exact hsame h rfl
    | movFromCr2 dst => exact hsame (h.setReg hi _) rfl

theorem stack_nil (m : Machine) : m.Stack [] := fun _ h => absurd h (Nat.not_lt_zero _)

end Machine

end X64OS.Framework.X86
