import X64OS.Framework.X86

namespace X64OS.Framework.X86

open Function

attribute [ext] Machine

/-- The instructions with which a handler takes its frame off the stack; addRsp is by words. -/
inductive Unwind where
  | swapgs
  | popReg (dst : Reg)
  | addRsp (words : Nat)
  | movToSeg (src : Reg) (dst : Seg)

namespace Unwind

def depth : Unwind → Nat
  | .popReg _ => 1
  | .addRsp words => words
  | _ => 0

def depths : List Unwind → Nat
  | [] => 0
  | i::code => i.depth+depths code

def keepsStack : Unwind → Bool
  | .popReg dst => dst≠.rsp
  | _ => true

end Unwind

namespace Machine

def unwindStep (m : Machine) : Unwind → Machine
  | .swapgs => m.swapGs
  | .popReg dst => (m.setReg .rsp (m.reg .rsp+8#64)).setReg dst (m.mem (m.reg .rsp))
  | .addRsp words => m.setReg .rsp (m.reg .rsp+BitVec.ofNat 64 (8*words))
  | .movToSeg src dst => m.setSeg dst ((m.reg src).setWidth 16)

def unwind (m : Machine) (code : List Unwind) : Machine := code.foldl unwindStep m

def unwindOn (m : Machine) : List Unwind → List (BitVec 64) → Machine
  | [],_ => m
  | .popReg dst::code,words =>
    unwindOn ((m.setReg .rsp (m.reg .rsp+8#64)).setReg dst (words.headD 0)) code words.tail
  | .addRsp n::code,words => unwindOn (m.unwindStep (.addRsp n)) code (words.drop n)
  | i::code,words => unwindOn (m.unwindStep i) code words

variable {m : Machine} {words : List (BitVec 64)}

@[simp] theorem mem_setReg (m : Machine) (r : Reg) (v : BitVec 64) : (m.setReg r v).mem=m.mem := rfl

theorem step_cases (m : Machine) {i : Instr} (hi : i.KeepsStack) :
    ((m.step i).reg .rsp=m.reg .rsp ∧ (m.step i).mem=m.mem ∧
      ∀ code, m.pushed (i::code)=(m.step i).pushed code) ∨
    ∃ v, m.step i=m.push v ∧ ∀ code, m.pushed (i::code)=(m.step i).pushed code++[v] := by
  cases i with
  | pushReg src => exact .inr ⟨_,rfl,fun _ => rfl⟩
  | pushImm value => exact .inr ⟨_,rfl,fun _ => rfl⟩
  | swapgs => exact .inl ⟨rfl,rfl,fun _ => rfl⟩
  | cld => exact .inl ⟨rfl,rfl,fun _ => rfl⟩
  | movToSeg src dst => exact .inl ⟨rfl,rfl,fun _ => rfl⟩
  | _ => exact .inl ⟨update_of_ne (Ne.symm hi) _ _,rfl,fun _ => rfl⟩

theorem rsp_push (m : Machine) (v : BitVec 64) : (m.push v).reg .rsp=m.reg .rsp-8#64 := rfl

theorem rsp_run {code : List Instr} (hcode : ∀ i∈code, i.KeepsStack) :
    (m.run code).reg .rsp=m.reg .rsp-BitVec.ofNat 64 (8*(m.pushed code).length) := by
  induction code generalizing m with
  | nil => simp [Machine.run,Machine.pushed]
  | cons i code ih =>
    have hrest : ∀ j∈code, j.KeepsStack := fun j hj => hcode j (List.mem_cons_of_mem _ hj)
    rw [show m.run (i::code)=(m.step i).run code from rfl,ih hrest]
    obtain ⟨hsp,-,hpushed⟩ | ⟨v,hv,hpushed⟩ := m.step_cases (hcode i List.mem_cons_self)
    · rw [hpushed,hsp]
    · rw [hpushed,hv,rsp_push,List.length_append,List.length_singleton,Nat.mul_add,BitVec.ofNat_add,
        Nat.mul_one,BitVec.add_comm,← BitVec.sub_sub]

theorem run_append (m : Machine) (code code' : List Instr) :
    m.run (code++code')=(m.run code).run code' := List.foldl_append

theorem Stack.drop (h : m.Stack words) (n : Nat) :
    (m.setReg .rsp (m.reg .rsp+BitVec.ofNat 64 (8*n))).Stack (words.drop n) := by
  intro k hk
  rw [List.length_drop] at hk
  have hat : m.reg .rsp+BitVec.ofNat 64 (8*n)+BitVec.ofNat 64 (8*k)=
      m.reg .rsp+BitVec.ofNat 64 (8*(n+k)) := by
    rw [BitVec.add_assoc,← BitVec.ofNat_add,Nat.mul_add]
  rw [reg_setReg,update_self,mem_setReg,hat,List.getElem_drop]
  exact h (n+k) (by omega)

theorem Stack.head {w : BitVec 64} (h : m.Stack (w::words)) : m.mem (m.reg .rsp)=w := by
  have := h 0 (Nat.zero_lt_succ _)
  rwa [Nat.mul_zero,BitVec.add_zero] at this

theorem Stack.pop {w : BitVec 64} (h : m.Stack (w::words)) {dst : Reg} (hdst : dst≠.rsp) :
    m.unwindStep (.popReg dst)=(m.setReg .rsp (m.reg .rsp+8#64)).setReg dst w ∧
    ((m.setReg .rsp (m.reg .rsp+8#64)).setReg dst w).Stack words := by
  refine ⟨?_,?_⟩
  · rw [unwindStep,h.head]
  · exact (h.drop 1).setReg hdst w

theorem Stack.unwind {code : List Unwind} (h : m.Stack words) (hcode : ∀ i∈code, i.keepsStack)
    (hlen : Unwind.depths code ≤ words.length) :
    m.unwind code=m.unwindOn code words ∧
    (m.unwindOn code words).Stack (words.drop (Unwind.depths code)) := by
  induction code generalizing m words with
  | nil => exact ⟨rfl,h⟩
  | cons i code ih =>
    have hrest : ∀ j∈code, j.keepsStack := fun j hj => hcode j (List.mem_cons_of_mem _ hj)
    have hi := hcode i List.mem_cons_self
    rw [Unwind.depths] at hlen ⊢
    cases i with
    | swapgs =>
      simp only [Unwind.depth,Nat.zero_add] at hlen ⊢
      exact ih (m := m.swapGs) h hrest hlen
    | popReg dst =>
      cases words with
      | nil => simp [Unwind.depth] at hlen
      | cons w words =>
        obtain ⟨heq,hstack⟩ := h.pop (of_decide_eq_true hi)
        simp only [Unwind.depth,List.length_cons] at hlen ⊢
        rw [Nat.add_comm 1,List.drop_succ_cons,Machine.unwind,List.foldl_cons,heq]
        exact ih hstack hrest (by rw [List.tail_cons]; omega)
    | addRsp n =>
      simp only [Unwind.depth] at hlen ⊢
      rw [← List.drop_drop]
      exact ih (h.drop n) hrest (by rw [List.length_drop]; omega)
    | movToSeg src dst =>
      simp only [Unwind.depth,Nat.zero_add] at hlen ⊢
      exact ih (m := m.setSeg dst _) h hrest hlen

end Machine

/-- The flags that rflags can hold; the second bit is always set. -/
def legalFlags (v : BitVec 64) : BitVec 64 := (v &&& 0x3d7fd5) ||| 2

@[simp] theorem legalFlags_legalFlags (v : BitVec 64) : legalFlags (legalFlags v)=legalFlags v := by
  have hmask : (0x3d7fd5 : BitVec 64) &&& 0x3d7fd5=0x3d7fd5 := by decide
  have hbit : (2 : BitVec 64) &&& 0x3d7fd5=0 := by decide
  rw [legalFlags,legalFlags,BitVec.and_or_distrib_right,BitVec.and_assoc,hmask,hbit]
  simp

/-- The processor between two instructions. The direction flag is a bit of rflags. -/
structure Cpu where
  machine : Machine
  rip : BitVec 64
  cs : BitVec 16
  rflags : BitVec 64
  legal : legalFlags rflags=rflags
  direction : machine.direction=rflags.getLsbD 10

namespace Cpu

def load (m : Machine) (rip : BitVec 64) (cs : BitVec 16) (flags : BitVec 64) : Cpu where
  machine := { m with direction := (legalFlags flags).getLsbD 10 }
  rip := rip
  cs := cs
  rflags := legalFlags flags
  legal := legalFlags_legalFlags flags
  direction := rfl

def delivery (c : Cpu) (err : Option (BitVec 64)) : List Instr :=
  [.pushImm ((c.machine.seg .ss).setWidth 64),.pushImm (c.machine.reg .rsp),.pushImm c.rflags,
    .pushImm (c.cs.setWidth 64),.pushImm c.rip]++err.toList.map .pushImm

/-- An interrupt on a stack of its own, which is aligned to sixteen bytes first. -/
def deliver (c : Cpu) (stack : BitVec 64) (err : Option (BitVec 64)) : Machine :=
  (c.machine.setReg .rsp (stack &&& ~~~15#64)).run (c.delivery err)

end Cpu

namespace Machine

def iretq (m : Machine) : Cpu :=
  let word (k : Nat) := m.mem (m.reg .rsp+BitVec.ofNat 64 (8*k))
  .load ((m.setReg .rsp (word 3)).setSeg .ss ((word 4).setWidth 16)) (word 0) ((word 1).setWidth 16)
    (word 2)

theorem Stack.iretq {m : Machine} {rip cs rflags rsp ss : BitVec 64} {words : List (BitVec 64)}
    (h : m.Stack (rip::cs::rflags::rsp::ss::words)) :
    m.iretq=.load ((m.setReg .rsp rsp).setSeg .ss (ss.setWidth 16)) rip (cs.setWidth 16) rflags := by
  have h0 := h 0 (by simp)
  have h1 := h 1 (by simp)
  have h2 := h 2 (by simp)
  have h3 := h 3 (by simp)
  have h4 := h 4 (by simp)
  simp only [List.getElem_cons_zero,List.getElem_cons_succ] at h0 h1 h2 h3 h4
  simp only [Machine.iretq,h0,h1,h2,h3,h4]

end Machine

end X64OS.Framework.X86
