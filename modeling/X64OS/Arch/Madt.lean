import X64OS.Framework.ByteMemory
import X64OS.Framework.Words

namespace X64OS.Arch

open Framework

structure MadtVecs where
  lapic : List Nat
  ioApic : List Nat
  ioApicIrqMap : List Nat
  deriving DecidableEq

def entryAt (table offset : Nat) : Nat := add64 (table+44) offset

def madtPush (mem : Mem) (a : Nat) (v : MadtVecs) : MadtVecs :=
  match (mem a).toNat with
  | 0 => { v with lapic := v.lapic++[a] }
  | 1 => { v with ioApic := v.ioApic++[a] }
  | 2 => { v with ioApicIrqMap := v.ioApicIrqMap++[a] }
  | _ => v

/-- The loop of MadtSetup, with the offsets of the entries that it reads; none if it takes more
than n rounds. -/
def madtLoop (mem : Mem) (table : Nat) (length : BitVec 32) :
    Nat → Nat → MadtVecs → Option (List Nat × MadtVecs)
  | 0,_,_ => none
  | n+1,offset,v =>
    if sub64 (sub64 length.toNat 44) offset < 2 then some ([],v)
    else
      let a := entryAt table offset
      (madtLoop mem table length n (add64 offset (max (mem (a+1)).toNat 2)) (madtPush mem a v)).map
        (fun x => (offset::x.1,x.2))

def madtSetup (mem : Mem) (table : Nat) (length : BitVec 32) (n : Nat) :
    Option (List Nat × MadtVecs) :=
  madtLoop mem table length n 0 ⟨[],[],[]⟩

/-- From the offset on, entry after entry ends at most one byte before the size. -/
inductive Tiles (mem : Mem) (table size : Nat) : Nat → Prop where
  | done {offset : Nat} (hle : offset ≤ size) (hend : size < offset+2) : Tiles mem table size offset
  | next {offset : Nat} (h : offset+2 ≤ size)
      (hrest : Tiles mem table size (offset+max (mem (entryAt table offset+1)).toNat 2)) :
      Tiles mem table size offset

section

variable {mem : Mem} {table offset n : Nat} {length : BitVec 32} {v : MadtVecs}

theorem madtLoop_stop (h : sub64 (sub64 length.toNat 44) offset < 2) :
    madtLoop mem table length (n+1) offset v=some ([],v) := by
  rw [madtLoop,if_pos h]

theorem madtLoop_step (h : ¬sub64 (sub64 length.toNat 44) offset < 2) :
    madtLoop mem table length (n+1) offset v=
      (madtLoop mem table length n
        (add64 offset (max (mem (entryAt table offset+1)).toNat 2))
        (madtPush mem (entryAt table offset) v)).map (fun x => (offset::x.1,x.2)) := by
  rw [madtLoop,if_neg h]

theorem remaining_lt_iff (hlen : 44 ≤ length.toNat) (hoffset : offset < 2^33) :
    sub64 (sub64 length.toNat 44) offset < 2 ↔
      offset ≤ length.toNat-44 ∧ length.toNat-44 < offset+2 := by
  have hlength := length.isLt
  rw [sub64,sub64]
  omega

theorem advance_eq (hoffset : offset < 2^33) :
    add64 offset (max (mem (entryAt table offset+1)).toNat 2)=
      offset+max (mem (entryAt table offset+1)).toNat 2 := by
  have hbyte := (mem (entryAt table offset+1)).isLt
  apply add64_eq
  omega

/-- A loop over entries that end with the table reads only entries that start in it. -/
theorem Tiles.loop (hlen : 44 ≤ length.toNat) (h : Tiles mem table (length.toNat-44) offset)
    (v : MadtVecs) :
    ∃ n x, madtLoop mem table length n offset v=some x ∧ ∀ o∈x.1, o+44 < length.toNat := by
  have hlength := length.isLt
  induction h generalizing v with
  | @done offset hle hend =>
    have hstop := (remaining_lt_iff hlen (by omega)).mpr ⟨hle,hend⟩
    exact ⟨1,([],v),madtLoop_stop hstop,by simp⟩
  | @next offset hnext hrest ih =>
    have hgo : ¬sub64 (sub64 length.toNat 44) offset < 2 := by
      rw [remaining_lt_iff hlen (by omega)]
      omega
    obtain ⟨n,x,hx,hreads⟩ := ih (madtPush mem (entryAt table offset) v)
    refine ⟨n+1,(offset::x.1,x.2),?_,?_⟩
    · rw [madtLoop_step hgo,advance_eq (by omega),hx,Option.map_some]
    · simp only [List.mem_cons,forall_eq_or_imp]
      exact ⟨by omega,hreads⟩

theorem tiles_of_loop (hlen : 44 ≤ length.toNat) (hoffset : offset < 2^33)
    {x : List Nat × MadtVecs} (h : madtLoop mem table length n offset v=some x)
    (hreads : ∀ o∈x.1, o+44 < length.toNat) : Tiles mem table (length.toNat-44) offset := by
  have hlength := length.isLt
  induction n generalizing offset v x with
  | zero => cases h
  | succ n ih =>
    by_cases hstop : sub64 (sub64 length.toNat 44) offset < 2
    · obtain ⟨hle,hend⟩ := (remaining_lt_iff hlen hoffset).mp hstop
      exact .done hle hend
    · rw [madtLoop_step hstop,advance_eq hoffset] at h
      obtain ⟨y,hy,rfl⟩ := Option.map_eq_some_iff.mp h
      simp only [List.mem_cons,forall_eq_or_imp] at hreads
      rw [remaining_lt_iff hlen hoffset] at hstop
      have hbyte := (mem (entryAt table offset+1)).isLt
      exact .next (by omega) (ih (by omega) hy hreads.2)

theorem short_reads (hlen : length.toNat < 44) {x : List Nat × MadtVecs}
    (h : madtLoop mem table length n 0 v=some x) : 0∈x.1 := by
  cases n with
  | zero => cases h
  | succ n =>
    have hgo : ¬sub64 (sub64 length.toNat 44) 0 < 2 := by
      rw [sub64,sub64]
      omega
    rw [madtLoop_step hgo] at h
    obtain ⟨y,hy,rfl⟩ := Option.map_eq_some_iff.mp h
    exact List.mem_cons_self

end

structure MadtEntry where
  type : BitVec 8
  length : BitVec 8

def EntriesAt (mem : Mem) (table : Nat) : List MadtEntry → Nat → Prop
  | [],_ => True
  | e::es,offset => 2 ≤ e.length.toNat ∧ mem (entryAt table offset)=e.type ∧
      mem (entryAt table offset+1)=e.length ∧ EntriesAt mem table es (offset+e.length.toNat)

def entriesOf (table : Nat) (type : BitVec 8) : List MadtEntry → Nat → List Nat
  | [],_ => []
  | e::es,offset =>
    (if e.type=type then [entryAt table offset] else [])++
      entriesOf table type es (offset+e.length.toNat)

def totalLength (es : List MadtEntry) : Nat := (es.map (fun e => e.length.toNat)).sum

theorem madtPush_eq (mem : Mem) (a : Nat) (v : MadtVecs) : madtPush mem a v=
    ⟨v.lapic++(if mem a=0 then [a] else []),v.ioApic++(if mem a=1 then [a] else []),
      v.ioApicIrqMap++(if mem a=2 then [a] else [])⟩ := by
  have htype : ∀ k : BitVec 8, mem a=k ↔ (mem a).toNat=k.toNat := fun k => BitVec.toNat_inj.symm
  unfold madtPush
  split <;> simp_all

theorem EntriesAt.loop {mem : Mem} {table : Nat} {length : BitVec 32} {es : List MadtEntry}
    {offset : Nat} (h : EntriesAt mem table es offset)
    (hsize : 44+offset+totalLength es=length.toNat) (v : MadtVecs) :
    ∃ n reads, madtLoop mem table length n offset v=some (reads,
      ⟨v.lapic++entriesOf table 0 es offset,v.ioApic++entriesOf table 1 es offset,
        v.ioApicIrqMap++entriesOf table 2 es offset⟩) := by
  have hlength := length.isLt
  induction es generalizing offset v with
  | nil =>
    have hstop : sub64 (sub64 length.toNat 44) offset < 2 := by
      rw [totalLength,List.map_nil,List.sum_nil] at hsize
      rw [remaining_lt_iff (by omega) (by omega)]
      omega
    exact ⟨1,[],by simp [madtLoop_stop hstop,entriesOf]⟩
  | cons e es ih =>
    obtain ⟨hmin,htype,hlen,hrest⟩ := h
    rw [totalLength,List.map_cons,List.sum_cons,← totalLength] at hsize
    have hgo : ¬sub64 (sub64 length.toNat 44) offset < 2 := by
      rw [remaining_lt_iff (by omega) (by omega)]
      omega
    obtain ⟨n,reads,hn⟩ := ih hrest (by omega) (madtPush mem (entryAt table offset) v)
    refine ⟨n+1,offset::reads,?_⟩
    rw [madtLoop_step hgo,advance_eq (by omega),hlen,Nat.max_eq_left hmin,hn,Option.map_some,
      madtPush_eq,htype]
    simp only [entriesOf,List.append_assoc]

/-- The loop of MadtSetup returns and reads only entries that start in the table exactly if
entry after entry ends with the table, or one byte before its end; where the entries are the whole
table it collects those of the three types in their order. -/
theorem madt_setup_iff (mem : Mem) (table : Nat) (length : BitVec 32) :
    ((∃ n x, madtSetup mem table length n=some x ∧ ∀ o∈x.1, o+44 < length.toNat) ↔
      44 ≤ length.toNat ∧ Tiles mem table (length.toNat-44) 0) ∧
    ∀ es, EntriesAt mem table es 0 → 44+totalLength es=length.toNat →
      ∃ n reads, madtSetup mem table length n=some (reads,
        ⟨entriesOf table 0 es 0,entriesOf table 1 es 0,entriesOf table 2 es 0⟩) := by
  constructor
  · constructor
    · rintro ⟨n,x,hx,hreads⟩
      have hlen : 44 ≤ length.toNat := by
        by_contra hshort
        have hzero := hreads 0 (short_reads (by omega) hx)
        omega
      exact ⟨hlen,tiles_of_loop hlen (by decide) hx hreads⟩
    · rintro ⟨hlen,htiles⟩
      exact htiles.loop hlen ⟨[],[],[]⟩
  · intro es hes hsize
    have hloop := hes.loop (show 44+0+totalLength es=length.toNat by omega) ⟨[],[],[]⟩
    simp only [List.nil_append] at hloop
    exact hloop

def apicMem : Mem := fun a =>
  if a=44 then 0 else if a=45 then 8 else if a=52 then 1 else if a=53 then 12
  else if a=64 then 2 else if a=65 then 10 else 0

theorem madt_setup_apic : ∃ n reads,
    madtSetup apicMem 0 74 n=some (reads,⟨[44],[52],[64]⟩) :=
  (madt_setup_iff apicMem 0 74).2 [⟨0,8⟩,⟨1,12⟩,⟨2,10⟩]
    ⟨by decide,by decide,by decide,by decide,by decide,by decide,by decide,by decide,by decide,
      trivial⟩ (by decide)

/-- An entry that runs over the end of the table: the loop goes on behind it. -/
theorem madt_overrun : ¬∃ n x, madtSetup apicMem 0 50 n=some x ∧ ∀ o∈x.1, o+44 < 50 := by
  rintro ⟨n,x,hx,hreads⟩
  have htiles := tiles_of_loop (show 44 ≤ (50 : BitVec 32).toNat by decide) (by decide) hx hreads
  cases htiles with
  | done hle hend => exact absurd hend (by decide)
  | next h hrest =>
    cases hrest with
    | done hle hend => exact absurd hle (by decide)
    | next h hrest => exact absurd h (by decide)

end X64OS.Arch
