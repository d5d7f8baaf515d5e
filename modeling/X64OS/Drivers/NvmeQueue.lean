import X64OS.Framework.Laps
import X64OS.Framework.Runs
import Mathlib.Logic.Function.Basic

namespace X64OS.Drivers

open Framework Function

structure NvmeCmd (κ : Type) where
  cid : Nat
  body : κ

/-- What struct nvme_cmdcomp has of a completion; bit 0 of status is the phase. -/
structure NvmeCmdcomp where
  cid : Nat
  status : Nat

/-- struct nvme_queue and its rings; call is the command of the nvme_awaitsubmitcmd
that is waiting, calls counts those that returned. -/
structure NvmeQueue (κ : Type) where
  elements : Nat
  submit : Nat → NvmeCmd κ
  completion : Nat → NvmeCmdcomp
  submitdb : Nat
  completedb : Nat
  sqtail : Nat
  cqhead : Nat
  cqphase : Nat
  cmdid : Nat
  call : Option (NvmeCmd κ)
  calls : Nat

/-- The device side: the next command to take, the next completion to post with
its phase, and all that it did so far. -/
structure NvmeController (κ : Type) where
  sqhead : Nat
  cqtail : Nat
  phase : Nat
  served : List (NvmeCmd κ × BitVec 15)

structure NvmePair (κ : Type) where
  queue : NvmeQueue κ
  device : NvmeController κ

section

variable {κ : Type}

namespace NvmeQueue

def create (elements : Nat) (submit : Nat → NvmeCmd κ) : NvmeQueue κ :=
  ⟨elements,submit,fun _ => ⟨0,0⟩,0,0,0,0,1,0,none,0⟩

variable (q : NvmeQueue κ)

def nvmeSubmitcmd (cmd : NvmeCmd κ) : NvmeQueue κ :=
  let tail := ringNext q.elements q.sqtail
  { q with submit := update q.submit q.sqtail cmd, submitdb := tail, sqtail := tail }

/-- nvme_awaitsubmitcmd up to its loop; cmd.cid has 16 bits of cmdid. -/
def awaitBegin (body : κ) : NvmeQueue κ :=
  let cmd := ⟨q.cmdid%2^16,body⟩
  { { q with cmdid := (q.cmdid+1)%2^32 }.nvmeSubmitcmd cmd with call := some cmd }

def awaitEnd : NvmeQueue κ :=
  let head := ringNext q.elements q.cqhead
  { q with
    cqphase := if q.cqhead+1=q.elements then (if q.cqphase=0 then 1 else 0) else q.cqphase
    completedb := head, cqhead := head, call := none, calls := q.calls+1 }

/-- A round of the loop; the status that is returned, if the phase is that of cqphase. -/
def awaitPoll : Option (Nat × NvmeQueue κ) :=
  let status := (q.completion q.cqhead).status
  if status%2=q.cqphase then some (status/2,q.awaitEnd) else none

end NvmeQueue

namespace NvmePair

/-- The device takes the next command, if the doorbell is past it, and posts its
completion. -/
def serve (p : NvmePair κ) (status : BitVec 15) : Option (NvmePair κ) :=
  let q := p.queue
  let d := p.device
  if d.sqhead=q.submitdb then none
  else
    let cmd := q.submit d.sqhead
    some
      ⟨{ q with completion :=
          update q.completion d.cqtail ⟨cmd.cid,status.toNat*2+d.phase⟩ },
        ⟨ringNext q.elements d.sqhead,ringNext q.elements d.cqtail,
          if d.cqtail+1=q.elements then 1-d.phase else d.phase,d.served++[(cmd,status)]⟩⟩

end NvmePair

inductive NvmeEvent (κ : Type) where
  | call (body : κ)
  | poll
  | serve (status : BitVec 15)

def nvmeEvent (p : NvmePair κ) : NvmeEvent κ → Option (NvmePair κ)
  | .call body => if p.queue.call.isSome then none else some ⟨p.queue.awaitBegin body,p.device⟩
  | .poll =>
    if p.queue.call.isSome then
      match p.queue.awaitPoll with
      | none => some p
      | some x => some ⟨x.2,p.device⟩
    else none
  | .serve status => p.serve status

def nvmeProtocol : System (NvmePair κ) (NvmeEvent κ) := .ofPartial nvmeEvent

def NvmePair.create (elements : Nat) (submit : Nat → NvmeCmd κ) : NvmePair κ :=
  ⟨.create elements submit,⟨0,0,1,[]⟩⟩

/-- Where both sides are: the driver waits for the command number calls, if it waits
at all, and the device has served that command or not. -/
structure NvmePair.InStep (e : Nat) (p : NvmePair κ) : Prop where
  elements : p.queue.elements=e
  cqhead : p.queue.cqhead=p.queue.calls%e
  cqphase : p.queue.cqphase=lapPhase e p.queue.calls
  submitdb : p.queue.submitdb=p.queue.sqtail
  sqhead : p.device.sqhead=p.device.served.length%e
  cqtail : p.device.cqtail=p.device.served.length%e
  phase : p.device.phase=lapPhase e p.device.served.length
  stale : ∀ k, p.device.served.length ≤ k → k < p.device.served.length+e →
    (p.queue.completion (k%e)).status%2≠lapPhase e k
  idle : p.queue.call=none → p.queue.sqtail=p.queue.calls%e ∧
    p.device.served.length=p.queue.calls
  waiting : ∀ cmd, p.queue.call=some cmd → p.queue.sqtail=(p.queue.calls+1)%e ∧
    ((p.device.served.length=p.queue.calls ∧ p.queue.submit (p.queue.calls%e)=cmd) ∨
      ∃ status, p.device.served.length=p.queue.calls+1 ∧
        p.device.served.getLast?=some (cmd,status) ∧
        p.queue.completion (p.queue.calls%e)=
          ⟨cmd.cid,status.toNat*2+lapPhase e p.queue.calls⟩)

namespace NvmePair

variable {e : Nat} {p p' : NvmePair κ}

theorem create_inStep (e : Nat) (submit : Nat → NvmeCmd κ) :
    (NvmePair.create e submit).InStep e := by
  refine ⟨rfl,(Nat.zero_mod e).symm,?_,rfl,(Nat.zero_mod e).symm,(Nat.zero_mod e).symm,?_,?_,?_,?_⟩
  · rw [create,NvmeQueue.create,lapPhase,Nat.zero_div]
    rfl
  · rw [create,lapPhase,List.length_nil,Nat.zero_div]
    rfl
  · intro k _ hk
    have hlap : k/e=0 := Nat.div_eq_of_lt (by simpa [create] using hk)
    rw [lapPhase,hlap]
    exact Nat.zero_ne_one
  · intro _
    exact ⟨(Nat.zero_mod e).symm,rfl⟩
  · intro cmd h
    cases h

theorem InStep.call (he : 2 ≤ e) (hp : p.InStep e) (hidle : p.queue.call=none) (body : κ) :
    InStep e ⟨p.queue.awaitBegin body,p.device⟩ := by
  obtain ⟨htail,hserved⟩ := hp.idle hidle
  refine ⟨hp.elements,hp.cqhead,hp.cqphase,rfl,hp.sqhead,hp.cqtail,hp.phase,hp.stale,?_,?_⟩
  · intro h
    cases h
  · intro cmd h
    cases h
    refine ⟨?_,.inl ⟨hserved,?_⟩⟩
    · show ringNext p.queue.elements p.queue.sqtail=_
      rw [hp.elements,htail,ringNext_mod (by omega)]
      rfl
    · show update p.queue.submit p.queue.sqtail _ (p.queue.calls%e)=_
      rw [htail,update_self]

variable (hp : p.InStep e) (he : 2 ≤ e)
include hp he

theorem InStep.poll_cases {cmd : NvmeCmd κ} (hcall : p.queue.call=some cmd) :
    (p.device.served.length=p.queue.calls ∧ p.queue.awaitPoll=none) ∨
      ∃ status : BitVec 15, p.device.served.length=p.queue.calls+1 ∧
        p.device.served.getLast?=some (cmd,status) ∧
        p.queue.awaitPoll=some (status.toNat,p.queue.awaitEnd) ∧
        InStep e ⟨p.queue.awaitEnd,p.device⟩ := by
  have hphase := lapPhase_lt e p.queue.calls
  obtain ⟨htail,⟨hserved,-⟩ | ⟨status,hserved,hlast,hentry⟩⟩ := hp.waiting cmd hcall
  · refine .inl ⟨hserved,?_⟩
    have hstale := hp.stale p.queue.calls (by omega) (by omega)
    rw [← hp.cqhead,← hp.cqphase] at hstale
    rw [NvmeQueue.awaitPoll,if_neg hstale]
  · have hstatus : (p.queue.completion p.queue.cqhead).status=
        status.toNat*2+lapPhase e p.queue.calls := by
      rw [hp.cqhead,hentry]
    have hmatch : (p.queue.completion p.queue.cqhead).status%2=p.queue.cqphase := by
      rw [hstatus,hp.cqphase]
      omega
    refine .inr ⟨status,hserved,hlast,?_,?_⟩
    · rw [NvmeQueue.awaitPoll,if_pos hmatch,hstatus,show
        (status.toNat*2+lapPhase e p.queue.calls)/2=status.toNat by omega]
    · refine ⟨hp.elements,?_,?_,hp.submitdb,hp.sqhead,hp.cqtail,hp.phase,hp.stale,?_,?_⟩
      · show ringNext p.queue.elements p.queue.cqhead=(p.queue.calls+1)%e
        rw [hp.elements,hp.cqhead,ringNext_mod (by omega)]
      · show (if p.queue.cqhead+1=p.queue.elements then (if p.queue.cqphase=0 then 1 else 0)
          else p.queue.cqphase)=lapPhase e (p.queue.calls+1)
        rw [lapPhase_succ (by omega),hp.elements,hp.cqhead,hp.cqphase]
        split
        · split <;> omega
        · rfl
      · exact fun _ => ⟨htail,hserved⟩
      · intro c h
        cases h

theorem InStep.serve {status : BitVec 15} (h : p.serve status=some p') : p'.InStep e := by
  rw [NvmePair.serve] at h
  split at h
  · cases h
  rename_i hdoor
  cases h
  rw [hp.sqhead,hp.submitdb] at hdoor
  cases hcall : p.queue.call with
  | none =>
    obtain ⟨htail,hserved⟩ := hp.idle hcall
    exact absurd (by rw [htail,hserved]) hdoor
  | some cmd =>
    obtain ⟨htail,⟨hserved,hsubmit⟩ | ⟨_,hserved,-⟩⟩ := hp.waiting cmd hcall
    · have hlen : (p.device.served++[(p.queue.submit p.device.sqhead,status)]).length=
          p.queue.calls+1 := by
        rw [List.length_append,hserved]
        rfl
      have hphase := lapPhase_lt e p.queue.calls
      refine ⟨hp.elements,hp.cqhead,hp.cqphase,hp.submitdb,?_,?_,?_,?_,?_,?_⟩
      · dsimp only
        rw [hlen,hp.elements,hp.sqhead,hserved,ringNext_mod (by omega)]
      · dsimp only
        rw [hlen,hp.elements,hp.cqtail,hserved,ringNext_mod (by omega)]
      · dsimp only
        rw [hlen,hp.elements,hp.cqtail,hp.phase,hserved,lapPhase_succ (by omega)]
      · dsimp only
        rw [hlen]
        intro k hk hk'
        rw [hp.cqtail,hserved]
        by_cases hlap : k=p.queue.calls+e
        · rw [hlap,Nat.add_mod_right,update_self,lapPhase_add (by omega),hp.phase,hserved]
          dsimp only
          omega
        · rw [update_of_ne (mod_ne_mod (by omega) (by omega))]
          exact hp.stale k (by omega) (by omega)
      · intro h
        cases h
      · intro c hc
        cases hc
        dsimp only
        refine ⟨htail,.inr ⟨status,hlen,?_,?_⟩⟩
        · rw [List.getLast?_concat,hp.sqhead,hserved,hsubmit]
        · rw [hp.cqtail,hserved,update_self,hp.sqhead,hserved,hsubmit,hp.phase,hserved]
    · exact absurd (by rw [htail,hserved]) hdoor

theorem InStep.event {ev : NvmeEvent κ} (h : nvmeEvent p ev=some p') : p'.InStep e := by
  cases ev with
  | call body =>
    simp only [nvmeEvent] at h
    split at h
    · cases h
    · rename_i hidle
      cases h
      exact hp.call he (by simpa using hidle) body
  | poll =>
    simp only [nvmeEvent] at h
    split at h
    · rename_i hsome
      obtain ⟨cmd,hcall⟩ := Option.isSome_iff_exists.mp hsome
      obtain ⟨-,hpoll⟩ | ⟨status,-,-,hpoll,hend⟩ := hp.poll_cases he hcall
      · rw [hpoll] at h
        cases h
        exact hp
      · rw [hpoll] at h
        cases h
        exact hend
    · cases h
  | serve status => exact hp.serve he h

end NvmePair

/-- However driver and device interleave: between calls both indices are the number
of calls modulo the size of the rings, and the phase is that of the lap; a call ends
on the completion of its own command, with its status, and does so once it is there. -/
theorem nvme_queue_protocol (e : Nat) (he : 2 ≤ e) (submit : Nat → NvmeCmd κ) (p : NvmePair κ)
    (hr : nvmeProtocol.Reachable (NvmePair.create e submit) p) :
    (p.queue.call=none → p.queue.sqtail=p.queue.calls%e ∧ p.queue.cqhead=p.queue.calls%e ∧
      (p.queue.cqphase=1 ↔ p.queue.calls/e%2=0)) ∧
    ∀ cmd, p.queue.call=some cmd →
      (∀ st q, p.queue.awaitPoll=some (st,q) → p.device.served.length=p.queue.calls+1 ∧
        ∃ status, p.device.served.getLast?=some (cmd,status) ∧ st=status.toNat) ∧
      (p.device.served.length=p.queue.calls+1 → p.queue.awaitPoll≠none) := by
  have hp : p.InStep e := by
    refine hr.invariant (I := fun p => p.InStep e) (NvmePair.create_inStep e submit) ?_
    intro s ev s' hs hstep
    exact hs.event he hstep
  refine ⟨?_,?_⟩
  · intro hidle
    refine ⟨(hp.idle hidle).1,hp.cqhead,?_⟩
    rw [hp.cqphase,lapPhase]
    split <;> simp_all
  · intro cmd hcall
    obtain ⟨hserved,hpoll⟩ | ⟨status,hserved,hlast,hpoll,-⟩ := hp.poll_cases he hcall
    · rw [hpoll]
      refine ⟨?_,?_⟩
      · intro st q h
        cases h
      · intro h
        omega
    · rw [hpoll]
      refine ⟨?_,fun _ => Option.some_ne_none _⟩
      intro st q h
      cases h
      exact ⟨hserved,status,hlast,rfl⟩

/-- Three calls on rings of two slots: the third is in the second lap. In between the
loop of the third call finds the completion of the first in its slot. -/
def threeCalls : List (NvmeEvent Unit) :=
  [.call (),.serve 0,.poll,.call (),.poll,.serve 5,.poll,.call (),.poll,.serve 7,.poll]

theorem nvme_queue_protocol_three : ∃ p : NvmePair Unit,
    nvmeProtocol.Reachable (NvmePair.create 2 (fun _ => ⟨0,()⟩)) p ∧ p.queue.calls=3 ∧
    p.queue.sqtail=3%2 ∧ p.queue.cqhead=3%2 ∧ (p.queue.cqphase=1 ↔ 3/2%2=0) := by
  have hrun : (System.exec nvmeEvent (NvmePair.create 2 (fun _ => ⟨0,()⟩)) threeCalls).map
      (fun p => (p.queue.call.isSome,p.queue.calls))=some (false,3) := by
    decide +kernel
  obtain ⟨p,hp,hv⟩ := Option.map_eq_some_iff.mp hrun
  rw [Prod.mk.injEq] at hv
  have hr := System.reachable_exec nvmeEvent _ _ _ hp
  have hcall : p.queue.call=none := by simpa using hv.1
  have h := (nvme_queue_protocol 2 le_rfl _ p hr).1 hcall
  rw [hv.2] at h
  exact ⟨p,hr,hv.2,h⟩

end

end X64OS.Drivers
