import X64OS.Framework.Laps
import X64OS.Framework.Overlay
import X64OS.Framework.Runs
import X64OS.Fs.HashMap

namespace X64OS.Drivers

open Framework Fs Function

/-- What the driver and the card use of struct e1000_txdesc, with the page at its addr. -/
structure TxDesc where
  buffer : Nat → BitVec 8
  len : BitVec 16
  cmd : BitVec 8

structure Frame where
  bytes : Str
  cmd : BitVec 8
  deriving DecidableEq

def TxDesc.frame (d : TxDesc) : Frame := ⟨window d.buffer 0 d.len.toNat,d.cmd⟩

/-- The transmit ring: the driver's txtail, the registers TDH and TDT, the packets handed to
the driver so far and the frames sent so far. -/
structure E1000 where
  txdescs : Nat → TxDesc
  txtail : Nat
  tdh : Nat
  tdt : Nat
  handed : List Str
  sent : List Frame

namespace E1000

/-- What e1000_init and e1000_inittx leave; the pages of pmm_alloc are zeros. -/
def inittx : E1000 := ⟨fun _ => ⟨fun _ => 0,0,0⟩,0,0,255,[],[]⟩

/-- EOP, IFCS and RS. -/
def txCmd : BitVec 8 := (1 <<< 0) ||| (1 <<< 1) ||| (1 <<< 3)

def fill (d : TxDesc) (data : Str) : TxDesc :=
  ⟨overlay d.buffer 0 data,BitVec.ofNat 16 data.length,txCmd⟩

def transmitpacket (s : E1000) (data : Str) : E1000 :=
  let tail := (s.txtail+1)%256
  { s with
    txdescs := update s.txdescs s.txtail (fill (s.txdescs s.txtail) data)
    txtail := tail, tdt := tail, handed := s.handed++[data] }

/-- The card takes the descriptor at its head, unless the head is at the tail. -/
def consume (s : E1000) : Option E1000 :=
  if s.tdh=s.tdt then none
  else some { s with tdh := (s.tdh+1)%256, sent := s.sent++[(s.txdescs s.tdh).frame] }

end E1000

inductive TxEvent where
  | transmit (data : Str)
  | consume

def txEvent (s : E1000) : TxEvent → Option E1000
  | .transmit data => some (s.transmitpacket data)
  | .consume => s.consume

/-- A packet fits into its page and fewer than 255 are waiting; the card takes nothing
before the first packet. -/
def TxEvent.Paced (s : E1000) : TxEvent → Prop
  | .transmit data => data.length ≤ 4096 ∧ s.handed.length < s.sent.length+255
  | .consume => s.handed≠[]

instance (s : E1000) : (e : TxEvent) → Decidable (e.Paced s)
  | .transmit _ => inferInstanceAs (Decidable (_ ∧ _))
  | .consume => inferInstanceAs (Decidable (_≠_))

def txRuns : System E1000 TxEvent := (System.ofPartial txEvent).restrict TxEvent.Paced

def frameOf (data : Str) : Frame := ⟨data,E1000.txCmd⟩

theorem frame_fill (d : TxDesc) {data : Str} (h : data.length ≤ 4096) :
    (E1000.fill d data).frame=frameOf data := by
  have hlen : (BitVec.ofNat 16 data.length).toNat=data.length := by
    rw [BitVec.toNat_ofNat]
    exact Nat.mod_eq_of_lt (by omega)
  simp [TxDesc.frame,E1000.fill,frameOf,hlen,window_overlay]

/-- The frames sent are the first packets, and the packets that are waiting lie in the ring
from the head to the tail. -/
structure E1000.InRing (s : E1000) : Prop where
  sent : s.sent=(s.handed.take s.sent.length).map frameOf
  room : s.handed.length ≤ s.sent.length+255
  txtail : s.txtail=s.handed.length%256
  tdh : s.tdh=s.sent.length%256
  tdt : s.handed≠[] → s.tdt=s.txtail
  filled : ∀ k data, s.sent.length ≤ k → s.handed[k]?=some data →
    (s.txdescs (k%256)).frame=frameOf data

namespace E1000

variable {s s' : E1000}

theorem InRing.sent_le (h : s.InRing) : s.sent.length ≤ s.handed.length := by
  have hlen := congrArg List.length h.sent
  rw [List.length_map,List.length_take] at hlen
  omega

theorem inRing_inittx : inittx.InRing := by
  constructor <;> simp [inittx]

theorem InRing.transmitpacket (h : s.InRing) {data : Str} (hlen : data.length ≤ 4096)
    (hroom : s.handed.length < s.sent.length+255) : (s.transmitpacket data).InRing := by
  have hle := h.sent_le
  refine ⟨?_,?_,?_,h.tdh,fun _ => rfl,?_⟩
  · show s.sent=((s.handed++[data]).take s.sent.length).map frameOf
    rw [List.take_append_of_le_length hle]
    exact h.sent
  · show (s.handed++[data]).length ≤ s.sent.length+255
    simp
    omega
  · show (s.txtail+1)%256=(s.handed++[data]).length%256
    rw [h.txtail]
    simp
  · intro k p hk hp
    show (update s.txdescs s.txtail (fill (s.txdescs s.txtail) data) (k%256)).frame=frameOf p
    change (s.handed++[data])[k]?=some p at hp
    rw [h.txtail]
    by_cases hlast : k < s.handed.length
    · -- the slot of the new packet is none of those that are waiting
      have hne : k%256≠s.handed.length%256 :=
        Ne.symm (mod_ne_mod hlast (by change s.sent.length ≤ k at hk; omega))
      rw [update_of_ne hne]
      rw [List.getElem?_append_left hlast] at hp
      exact h.filled k p hk hp
    · have hk' : k=s.handed.length := by
        have := (List.getElem?_eq_some_iff.mp hp).1
        simp at this
        omega
      rw [hk',List.getElem?_concat_length] at hp
      cases hp
      rw [hk',update_self,frame_fill _ hlen]

/-- A card that takes a descriptor sends the next packet. -/
theorem InRing.consume (h : s.InRing) (hfirst : s.handed≠[]) (hs : s.consume=some s') :
    s'.InRing ∧ s'.handed=s.handed ∧ s'.sent.length=s.sent.length+1 := by
  have hle := h.sent_le
  have htdt := (h.tdt hfirst).trans h.txtail
  unfold E1000.consume at hs
  split at hs
  · cases hs
  rename_i hbusy
  have hlt : s.sent.length < s.handed.length := by
    refine Nat.lt_of_le_of_ne hle (fun heq => hbusy ?_)
    rw [h.tdh,htdt,heq]
  have hget : s.handed[s.sent.length]?=some (s.handed[s.sent.length]) := List.getElem?_eq_getElem hlt
  have hframe := h.filled _ _ (Nat.le_refl _) hget
  rw [← h.tdh] at hframe
  cases hs
  have hlen : (s.sent++[(s.txdescs s.tdh).frame]).length=s.sent.length+1 := by simp
  refine ⟨⟨?_,?_,h.txtail,?_,h.tdt,?_⟩,rfl,hlen⟩
  · show s.sent++[(s.txdescs s.tdh).frame]=_
    rw [hlen,List.take_add_one,hget,List.map_append,← h.sent,hframe]
    rfl
  · show s.handed.length ≤ (s.sent++[(s.txdescs s.tdh).frame]).length+255
    have := h.room
    omega
  · show (s.tdh+1)%256=(s.sent++[(s.txdescs s.tdh).frame]).length%256
    rw [hlen,h.tdh]
    simp
  · intro k p hk hp
    exact h.filled k p (by change (s.sent++[(s.txdescs s.tdh).frame]).length ≤ k at hk; omega) hp

theorem InRing.consume_isSome (h : s.InRing) (hwait : s.sent.length < s.handed.length) :
    s.consume.isSome := by
  have hfirst : s.handed≠[] := by
    intro he
    simp [he] at hwait
  have hne : s.tdh≠s.tdt := by
    rw [h.tdh,h.tdt hfirst,h.txtail]
    exact Ne.symm (mod_ne_mod hwait (by have := h.room; omega))
  simp [E1000.consume,hne]

theorem InRing.drain (h : s.InRing) (hfirst : s.handed≠[]) (n : Nat)
    (hn : s.sent.length+n=s.handed.length) :
    ∃ s', System.exec txEvent s (List.replicate n .consume)=some s' ∧ s'.InRing ∧
      s'.handed=s.handed ∧ s'.sent=s.handed.map frameOf := by
  induction n generalizing s with
  | zero =>
    refine ⟨s,rfl,h,rfl,?_⟩
    have hsent := h.sent
    rw [show s.sent.length=s.handed.length by omega,List.take_length] at hsent
    exact hsent
  | succ n ih =>
    obtain ⟨t,ht⟩ := Option.isSome_iff_exists.mp (h.consume_isSome (by omega))
    obtain ⟨hring,hhanded,hsent⟩ := h.consume hfirst ht
    obtain ⟨u,hu,hring',hsame,hall⟩ := ih hring (hhanded ▸ hfirst) (by rw [hhanded]; omega)
    refine ⟨u,?_,hring',hsame.trans hhanded,hhanded ▸ hall⟩
    rw [List.replicate_succ,System.exec]
    show (s.consume).bind _=_
    rw [ht]
    exact hu

end E1000

/-- In a run in which the card waits for the first packet and never more than 255 packets
are waiting, the frames sent are always the first packets in their order, with their bytes
and lengths; when the card goes on alone it sends all of them and then stops. -/
theorem tx_sends_packets (s : E1000) (hr : txRuns.Reachable .inittx s) :
    s.sent=(s.handed.take s.sent.length).map frameOf ∧ s.sent.length ≤ s.handed.length ∧
    (s.handed≠[] → ∃ s', System.exec txEvent s
        (List.replicate (s.handed.length-s.sent.length) .consume)=some s' ∧
      s'.sent=s.handed.map frameOf ∧ s'.consume=none) := by
  have hs : s.InRing := by
    refine hr.invariant (I := E1000.InRing) E1000.inRing_inittx ?_
    rintro s e t hs ⟨hpaced,hstep⟩
    cases e with
    | transmit data =>
      cases hstep
      exact hs.transmitpacket hpaced.1 hpaced.2
    | consume => exact (hs.consume hpaced hstep).1
  have hle := hs.sent_le
  refine ⟨hs.sent,hle,fun hfirst => ?_⟩
  obtain ⟨s',hs',hring,hhanded,hall⟩ := hs.drain hfirst _ (Nat.add_sub_of_le hle)
  refine ⟨s',hs',hall,?_⟩
  have hempty : s'.tdh=s'.tdt := by
    rw [hring.tdh,hring.tdt (hhanded ▸ hfirst),hring.txtail,hhanded,hall,List.length_map]
  simp [E1000.consume,hempty]

/-- Two packets, of which the card has sent the first. -/
theorem tx_sends_packets_two : ∃ s, txRuns.Reachable .inittx s ∧ s.handed=[[1,2],[3]] ∧
    s.sent=[frameOf [1,2]] ∧ ∃ s', System.exec txEvent s [.consume]=some s' ∧
      s'.sent=[frameOf [1,2],frameOf [3]] := by
  have hrun : (System.exec (fun s e => if TxEvent.Paced s e then txEvent s e else none) .inittx
      [.transmit [1,2],.transmit [3],.consume]).map (fun s => (s.handed,s.sent))=
        some ([[1,2],[3]],[frameOf [1,2]]) := by
    decide +kernel
  obtain ⟨s,hs,hend⟩ := Option.map_eq_some_iff.mp hrun
  obtain ⟨hhanded,hsent⟩ := Prod.mk.inj hend
  have hr := System.reachable_exec_restrict txEvent TxEvent.Paced _ _ _ hs
  obtain ⟨-,-,hdrain⟩ := tx_sends_packets s hr
  obtain ⟨s',hs',hall,-⟩ := hdrain (by simp [hhanded])
  rw [hhanded,hsent] at hs'
  rw [hhanded] at hall
  exact ⟨s,hr,hhanded,hsent,s',hs',hall⟩

/-- The tail register is 255 before any packet is there: the card sends descriptor 0, which
was never filled. And after 256 packets the tail is at the head, so that none of them goes. -/
theorem tx_unfilled_sent :
    (∃ s, System.exec txEvent .inittx [.consume]=some s ∧ s.handed=[] ∧ s.sent=[⟨[],0⟩]) ∧
    ∃ s, System.exec txEvent .inittx (List.replicate 256 (.transmit [1]))=some s ∧
      s.sent=[] ∧ s.consume.isNone := by
  constructor
  · have hrun : (System.exec txEvent .inittx [.consume]).map (fun s => (s.handed,s.sent))=
        some ([],[⟨[],0⟩]) := by
      decide +kernel
    obtain ⟨s,hs,hend⟩ := Option.map_eq_some_iff.mp hrun
    exact ⟨s,hs,Prod.mk.inj hend⟩
  · have hrun : (System.exec txEvent .inittx (List.replicate 256 (.transmit [1]))).map (fun s =>
        (s.sent,s.consume.isNone))=some ([],true) := by
      decide +kernel
    obtain ⟨s,hs,hend⟩ := Option.map_eq_some_iff.mp hrun
    exact ⟨s,hs,Prod.mk.inj hend⟩

end X64OS.Drivers
