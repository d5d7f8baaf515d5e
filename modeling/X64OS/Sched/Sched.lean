import Mathlib.Algebra.Group.Nat.Defs
import Mathlib.Logic.Function.Basic

namespace X64OS.Sched

structure CpuCtx where
  cr2 : BitVec 64
  ds : BitVec 64
  es : BitVec 64
  rax : BitVec 64
  rbx : BitVec 64
  rcx : BitVec 64
  rdx : BitVec 64
  rsi : BitVec 64
  rdi : BitVec 64
  rbp : BitVec 64
  r8 : BitVec 64
  r9 : BitVec 64
  r10 : BitVec 64
  r11 : BitVec 64
  r12 : BitVec 64
  r13 : BitVec 64
  r14 : BitVec 64
  r15 : BitVec 64
  intVector : BitVec 64
  err : BitVec 64
  rip : BitVec 64
  cs : BitVec 64
  rflags : BitVec 64
  rsp : BitVec 64
  ss : BitVec 64
  deriving DecidableEq

def CpuCtx.zero : CpuCtx := ⟨0,0,0,0,0,0,0,0,0,0,0,0,0,0,0,0,0,0,0,0,0,0,0,0,0⟩

/-- Arch::Scheduler::SetupSchedState, on the registers that were there. -/
def setupSchedState (regs : CpuCtx) (usermode : Bool) (entry stack : BitVec 64) : CpuCtx :=
  let regs := { regs with rsp := stack, rip := entry, rflags := 0x202 }
  if usermode then { regs with cs := (8*8) ||| 3, ss := (7*8) ||| 3, es := 7*8, ds := 7*8 }
  else { regs with cs := 0x28, ss := 0x30, ds := 0x30, es := 0x30 }

inductive ThreadState where
  | new
  | running
  | sleep
  | stalled
  | zombie
  deriving DecidableEq, Repr

/-- What the scheduler uses of struct thread; threads go by number. A pid is an int,
here the number that its 32 bits are. -/
structure Thread where
  regs : CpuCtx
  pid : Nat
  state : ThreadState
  nextThread : Nat
  prevThread : Nat

/-- The variables of the scheduler and the threads made so far. linked lists the
threads that were put into the list and not taken out of it. -/
structure Scheduler where
  threads : Nat → Thread
  made : Nat
  rootThread : Nat
  currentThread : Nat
  schedRun : BitVec 8
  nextPid : Nat
  justStarted : Bool
  linked : List Nat

namespace Scheduler

section
variable (s : Scheduler)

def nextOf (i : Nat) : Nat := (s.threads i).nextThread

def prevOf (i : Nat) : Nat := (s.threads i).prevThread

def modify (i : Nat) (f : Thread → Thread) : Scheduler :=
  { s with threads := Function.update s.threads i (f (s.threads i)) }

def setNext (i j : Nat) : Scheduler := s.modify i (fun t => { t with nextThread := j })

def setPrev (i j : Nat) : Scheduler := s.modify i (fun t => { t with prevThread := j })

def setState (i : Nat) (state : ThreadState) : Scheduler :=
  s.modify i (fun t => { t with state := state })

def setRegs (i : Nat) (regs : CpuCtx) : Scheduler :=
  s.modify i (fun t => { t with regs := regs })

end

/-- Scheduler::Init, with the registers that new thread_t has. -/
def init (regs : CpuCtx) (idle stack : BitVec 64) : Scheduler :=
  ⟨fun _ => ⟨setupSchedState regs false idle stack,0,.new,0,0⟩,1,0,0,1,1,true,[0]⟩

def start (s : Scheduler) : Scheduler := { s with schedRun := s.schedRun-1 }

def stop (s : Scheduler) : Scheduler := { s with schedRun := s.schedRun+1 }

def latest (s : Scheduler) : Nat → Nat → Option Nat
  | 0,_ => none
  | n+1,tmp => if s.nextOf tmp=s.rootThread then some tmp else s.latest n (s.nextOf tmp)

/-- The registers that CreateThread gives a thread; rsp is where its arguments end,
if it has any. -/
def initialRegs (usermode : Bool) (entry stack : BitVec 64) (rsp : Option (BitVec 64)) : CpuCtx :=
  let regs := setupSchedState .zero usermode entry stack
  { regs with rsp := rsp.getD regs.rsp }

def newThread (s : Scheduler) (regs : CpuCtx) : Scheduler :=
  { s with
    threads := Function.update s.threads s.made ⟨regs,s.nextPid,.new,0,0⟩
    made := s.made+1, nextPid := (s.nextPid+1)%2^32 }

def insertAfter (s : Scheduler) (tmp thr : Nat) : Scheduler :=
  let s := s.setNext thr (s.nextOf tmp)
  let s := s.setNext tmp thr
  let s := s.setPrev thr tmp
  let s := s.setPrev s.rootThread thr
  { s with linked := s.linked++[thr] }

/-- Scheduler::CreateThread; between Stop and Start no tick does anything. -/
def createThread (s : Scheduler) (usermode : Bool) (entry stack : BitVec 64)
    (rsp : Option (BitVec 64)) : Option Scheduler :=
  let thr := s.made
  let s := s.newThread (initialRegs usermode entry stack rsp)
  (s.latest s.made s.rootThread).map (fun tmp => s.insertAfter tmp thr)

/-- find_thread_by_pid; the last thread is not looked at. -/
def findFrom (s : Scheduler) (pid : Nat) : Nat → Nat → Option (Option Nat)
  | 0,_ => none
  | n+1,tmp =>
    if s.nextOf tmp=s.rootThread then some none
    else if (s.threads tmp).pid=pid then some (some tmp)
    else s.findFrom pid n (s.nextOf tmp)

def findThreadByPid (s : Scheduler) (pid : Nat) : Option (Option Nat) :=
  s.findFrom pid s.made s.rootThread

def unlink (s : Scheduler) (thr : Nat) : Scheduler :=
  let s :=
    if s.prevOf s.rootThread=thr then s.setPrev s.rootThread (s.prevOf thr) else s
  let prev := s.prevOf thr
  let next := s.nextOf thr
  let s := (s.setNext prev next).setPrev next prev
  { s with linked := s.linked.erase thr }

def removeAndDestroyThread (s : Scheduler) (pid : Nat) : Option Scheduler :=
  (s.findThreadByPid pid).map (fun x =>
    match x with
    | none => s
    | some thr => s.unlink thr)

/-- The loop of sched_tick past threads that are not to run. -/
def skip : Nat → Scheduler → Option Scheduler
  | 0,_ => none
  | n+1,s =>
    match (s.threads s.currentThread).state with
    | .stalled => skip n { s with currentThread := s.nextOf s.currentThread }
    | .zombie =>
      let pid := (s.threads s.currentThread).pid
      ({ s with currentThread := s.nextOf s.currentThread }.removeAndDestroyThread pid).bind (skip n)
    | _ => some s

def preempt (s : Scheduler) (regs : CpuCtx) : Scheduler :=
  let s :=
    if s.justStarted then { s with justStarted := false, currentThread := s.prevOf s.currentThread }
    else s.setRegs s.currentThread regs
  let s := s.setState s.currentThread .sleep
  { s with currentThread := s.nextOf s.currentThread }

/-- sched_tick: the registers with which the interrupt returns. -/
def schedTick (s : Scheduler) (regs : CpuCtx) : Option (CpuCtx × Scheduler) :=
  if 0 < s.schedRun.toInt then some (regs,s)
  else
    ((s.preempt regs).skip (s.made+1)).map (fun s =>
      ((s.threads s.currentThread).regs,s.setState s.currentThread .running))

end Scheduler

end X64OS.Sched
