import X64OS.Drivers.Pci
import X64OS.Framework.Words
import X64OS.Memory.Libc
import X64OS.Memory.Ram

namespace X64OS.Drivers

open Framework Memory

structure McfgEntry where
  mmioBase : BitVec 64
  segment : BitVec 16
  startBus : BitVec 8
  endBus : BitVec 8
  deriving DecidableEq

/-- The i-th entry behind the header of the table and its reserved field. -/
def mcfgEntryAt (mem : Mem) (table i : Nat) : McfgEntry :=
  let a := table+36+8+16*i
  ⟨mem.read64 a,mem.read16 (a+8),mem (a+10),mem (a+11)⟩

def mcfgEntries (mem : Mem) (table : Nat) (length : BitVec 32) : List McfgEntry :=
  (List.range ((length-44).toNat/16)).map (mcfgEntryAt mem table)

def McfgEntry.Covers (ent : McfgEntry) (seg bus : BitVec 8) : Prop :=
  seg.toNat=ent.segment.toNat ∧ ¬(ent.endBus < bus ∨ bus < ent.startBus)

instance decidableCovers (ent : McfgEntry) (seg bus : BitVec 8) : Decidable (ent.Covers seg bus) :=
  inferInstanceAs (Decidable (_ ∧ _))

/-- Where the registers of a function are in the space of the entry. -/
def McfgEntry.place (ent : McfgEntry) (fn : PciFunction) : Nat :=
  ((fn.bus.toNat-ent.startBus.toNat) <<< 20) ||| (fn.slot.toNat <<< 15) ||| (fn.func.toNat <<< 12)

section

variable (M : Machine)

def McfgEntry.target (ent : McfgEntry) (fn : PciFunction) (offset : Nat) : Nat :=
  add64 (ent.place fn) (ent.mmioBase.toNat+offset+M.hhdm)

/-- The address that mcfg_read and mcfg_write use, from the first entry for the device. -/
def mcfgTarget (entries : List McfgEntry) (seg : BitVec 8) (fn : PciFunction) (offset : Nat) :
    Option Nat :=
  (entries.find? (fun ent => ent.Covers seg fn.bus)).map (fun ent => ent.target M fn offset)

section
variable (entries : List McfgEntry) (mem : Mem) (seg : BitVec 8) (fn : PciFunction)

def mcfgRead (offset accessSize : Nat) : BitVec 32 :=
  match mcfgTarget M entries seg fn offset with
  | none => 0
  | some target =>
    match accessSize with
    | 1 => (mem target).setWidth 32
    | 2 => (mem.read16 target).setWidth 32
    | 4 => mem.read32 target
    | _ => 0

def mcfgWrite (offset : Nat) (value : BitVec 32) (accessSize : Nat) : Mem :=
  match mcfgTarget M entries seg fn offset with
  | none => mem
  | some target =>
    if accessSize=1 ∨ accessSize=2 ∨ accessSize=4 then mem.writeBytes target accessSize value.toNat
    else mem

end

def mapRangePages (start count : Nat) : Nat :=
  add64 (sub64 (alignUp (add64 start count) 4096/4096) (start/4096)) 1

/-- The address above VMM_HIGHER_HALF at which vmm_map_range maps its i-th page. -/
def mapRangePage (start i : Nat) : Nat :=
  add64 (add64 (alignDown start 4096) (mul64 i 4096)) M.hhdm

def McfgEntry.Mapped (ent : McfgEntry) (a : Nat) : Prop :=
  ∃ i < mapRangePages ent.mmioBase.toNat (4096*256),
    alignDown a 4096=mapRangePage M ent.mmioBase.toNat i

end

variable {M : Machine} {ent : McfgEntry} {fn : PciFunction} {offset : Nat}

def McfgEntry.index (ent : McfgEntry) (fn : PciFunction) : Nat :=
  (fn.bus.toNat-ent.startBus.toNat)*256+fn.slot.toNat*8+fn.func.toNat

theorem place_eq (ent : McfgEntry) (hslot : fn.slot.toNat < 32) (hfunc : fn.func.toNat < 8) :
    ent.place fn=ent.index fn*4096 := by
  have hlow : fn.func.toNat <<< 12 < 2^15 := by
    rw [Nat.shiftLeft_eq]
    omega
  have hmid : (fn.slot.toNat <<< 15)+(fn.func.toNat <<< 12) < 2^20 := by
    rw [Nat.shiftLeft_eq,Nat.shiftLeft_eq]
    omega
  rw [McfgEntry.place,McfgEntry.index,Nat.or_assoc,← Nat.shiftLeft_add_eq_or_of_lt hlow,
    ← Nat.shiftLeft_add_eq_or_of_lt hmid,Nat.shiftLeft_eq,Nat.shiftLeft_eq,Nat.shiftLeft_eq]
  omega

theorem index_lt (ent : McfgEntry) (hslot : fn.slot.toNat < 32) (hfunc : fn.func.toNat < 8) :
    ent.index fn < 2^16 := by
  have hbus := fn.bus.isLt
  rw [McfgEntry.index]
  omega

theorem alignDown_wrap {x r : Nat} (hr : r < 4096) :
    alignDown ((x*4096+r)%2^64) 4096=x%2^52*4096 := by
  rw [alignDown]
  omega

def McfgEntry.page (ent : McfgEntry) (fn : PciFunction) (offset : Nat) : Nat :=
  ent.index fn+(ent.mmioBase.toNat%4096+offset)/4096

theorem page_lt (ent : McfgEntry) (hslot : fn.slot.toNat < 32) (hfunc : fn.func.toNat < 8)
    (hoffset : offset < 4096) : ent.page fn offset < 2^52 := by
  have hindex := index_lt ent hslot hfunc
  rw [McfgEntry.page]
  omega

theorem alignDown_target (M : Machine) (ent : McfgEntry) (hslot : fn.slot.toNat < 32)
    (hfunc : fn.func.toNat < 8) :
    alignDown (ent.target M fn offset) 4096=
      (ent.mmioBase.toNat/4096+M.hhdm/4096+ent.page fn offset)%2^52*4096 := by
  have hhdm : M.hhdm%4096=0 := M.hhdm_aligned
  rw [McfgEntry.target,add64,place_eq ent hslot hfunc,McfgEntry.page]
  generalize ent.mmioBase.toNat=base
  generalize ent.index fn=index
  have hsum : index*4096+(base+offset+M.hhdm)=
      (base/4096+M.hhdm/4096+(index+(base%4096+offset)/4096))*4096+(base%4096+offset)%4096 := by
    omega
  rw [hsum]
  exact alignDown_wrap (Nat.mod_lt _ (by decide))

theorem mapRangePage_eq (M : Machine) (start i : Nat) :
    mapRangePage M start i=(start/4096+M.hhdm/4096+i)%2^52*4096 := by
  have hhdm : M.hhdm%4096=0 := M.hhdm_aligned
  rw [mapRangePage,add64,add64,mul64,alignDown]
  omega

theorem mapped_iff (M : Machine) (ent : McfgEntry) (hslot : fn.slot.toNat < 32)
    (hfunc : fn.func.toNat < 8) (hoffset : offset < 4096) :
    ent.Mapped M (ent.target M fn offset) ↔
      ent.page fn offset < mapRangePages ent.mmioBase.toNat (4096*256) := by
  have hpage := page_lt ent hslot hfunc hoffset
  unfold McfgEntry.Mapped
  rw [alignDown_target M ent hslot hfunc]
  constructor
  · rintro ⟨i,hi,heq⟩
    rw [mapRangePage_eq] at heq
    -- The pages may wrap, but the page of the address is the least of its residue.
    omega
  · intro hlt
    exact ⟨ent.page fn offset,hlt,(mapRangePage_eq M _ _).symm⟩

theorem mapRangePages_eq {start : Nat} (h : start+4096*256+4095 < 2^64) :
    mapRangePages start (4096*256)=if start%4096=0 then 257 else 258 := by
  rw [mapRangePages,add64,add64,sub64,alignUp,divRoundup]
  split <;> omega

/-- One mebibyte is what the functions of one bus take. -/
theorem page_lt_iff (hslot : fn.slot.toNat < 32) (hfunc : fn.func.toNat < 8) (hoffset : offset < 4096)
    (hbase : ent.mmioBase.toNat%4096=0) (hend : ent.mmioBase.toNat+4096*256+4095 < 2^64)
    (hbus : ent.startBus.toNat ≤ fn.bus.toNat) :
    ent.page fn offset < mapRangePages ent.mmioBase.toNat (4096*256) ↔
      fn.bus.toNat=ent.startBus.toNat ∨
        fn.bus.toNat=ent.startBus.toNat+1 ∧ fn.slot.toNat=0 ∧ fn.func.toNat=0 := by
  rw [mapRangePages_eq hend,if_pos hbase,McfgEntry.page,McfgEntry.index,hbase]
  omega

theorem target_injective {fn' : PciFunction} {offset' : Nat} {seg : BitVec 8}
    (hent : ent.Covers seg fn.bus) (hent' : ent.Covers seg fn'.bus)
    (hslot : fn.slot.toNat < 32) (hfunc : fn.func.toNat < 8) (hoffset : offset < 4096)
    (hslot' : fn'.slot.toNat < 32) (hfunc' : fn'.func.toNat < 8) (hoffset' : offset' < 4096)
    (h : ent.target M fn' offset'=ent.target M fn offset) : fn'=fn ∧ offset'=offset := by
  have hstart : ent.startBus.toNat ≤ fn.bus.toNat := Nat.le_of_not_lt (not_or.mp hent.2).2
  have hstart' : ent.startBus.toNat ≤ fn'.bus.toNat := Nat.le_of_not_lt (not_or.mp hent'.2).2
  have hindex := index_lt ent hslot hfunc
  have hindex' := index_lt ent hslot' hfunc'
  rw [McfgEntry.target,McfgEntry.target,place_eq ent hslot hfunc,place_eq ent hslot' hfunc',
    add64,add64] at h
  have hoff : offset'=offset := by omega
  have hsame : ent.index fn'=ent.index fn := by omega
  rw [McfgEntry.index,McfgEntry.index] at hsame
  refine ⟨?_,hoff⟩
  obtain ⟨bus,slot,func⟩ := fn
  obtain ⟨bus',slot',func'⟩ := fn'
  dsimp only at *
  rw [PciFunction.mk.injEq]
  refine ⟨BitVec.eq_of_toNat_eq ?_,BitVec.eq_of_toNat_eq ?_,BitVec.eq_of_toNat_eq ?_⟩ <;> omega

/-- The address for a register of a device that an entry covers is in the window of that entry
exactly if its page is one of those that vmm_map_range maps. For a window that begins with a page
these are the devices of the first bus and the first function of the next one. No two registers of
one entry have the same address. -/
theorem ecam_window_iff (M : Machine) (mem : Mem) (table : Nat) (length : BitVec 32)
    (seg : BitVec 8) (fn : PciFunction) (offset : Nat) (ent : McfgEntry)
    (hent : (mcfgEntries mem table length).find? (fun ent => ent.Covers seg fn.bus)=some ent)
    (hslot : fn.slot.toNat < 32) (hfunc : fn.func.toNat < 8) (hoffset : offset < 4096) :
    ((∃ a, mcfgTarget M (mcfgEntries mem table length) seg fn offset=some a ∧ ent.Mapped M a) ↔
      ent.page fn offset < mapRangePages ent.mmioBase.toNat (4096*256)) ∧
    (ent.mmioBase.toNat%4096=0 → ent.mmioBase.toNat+4096*256+4095 < 2^64 →
      ((∃ a, mcfgTarget M (mcfgEntries mem table length) seg fn offset=some a ∧ ent.Mapped M a) ↔
        fn.bus.toNat=ent.startBus.toNat ∨
          fn.bus.toNat=ent.startBus.toNat+1 ∧ fn.slot.toNat=0 ∧ fn.func.toNat=0)) ∧
    ∀ fn' offset', (mcfgEntries mem table length).find? (fun ent => ent.Covers seg fn'.bus)=some ent →
      fn'.slot.toNat < 32 → fn'.func.toNat < 8 → offset' < 4096 →
      mcfgTarget M (mcfgEntries mem table length) seg fn' offset'=
        mcfgTarget M (mcfgEntries mem table length) seg fn offset → fn'=fn ∧ offset'=offset := by
  have htarget : mcfgTarget M (mcfgEntries mem table length) seg fn offset=
      some (ent.target M fn offset) := by
    rw [mcfgTarget,hent,Option.map_some]
  have hcovers : ent.Covers seg fn.bus := by simpa using List.find?_some hent
  have hwindow : (∃ a, mcfgTarget M (mcfgEntries mem table length) seg fn offset=some a ∧
      ent.Mapped M a) ↔ ent.page fn offset < mapRangePages ent.mmioBase.toNat (4096*256) := by
    rw [← mapped_iff M ent hslot hfunc hoffset,htarget]
    simp
  refine ⟨hwindow,fun hbase hend => ?_,?_⟩
  · have hbus : ent.startBus.toNat ≤ fn.bus.toNat := Nat.le_of_not_lt (not_or.mp hcovers.2).2
    rw [hwindow,page_lt_iff hslot hfunc hoffset hbase hend hbus]
  · intro fn' offset' hent' hslot' hfunc' hoffset' hsame
    rw [htarget,mcfgTarget,hent',Option.map_some,Option.some_inj] at hsame
    have hcovers' : ent.Covers seg fn'.bus := by simpa using List.find?_some hent'
    exact target_injective hcovers hcovers' hslot hfunc hoffset hslot' hfunc' hoffset' hsame

def oneEntryMem : Mem := fun a => if a=47 then 0xb0 else if a=55 then 0xff else 0

def oneEntry : McfgEntry := ⟨0xb0000000,0,0,0xff⟩

def ecamMachine : Machine :=
  ⟨0xffff800000000000,16,0xffffffff80000000,directMap_aligned,directMap_pos,
    sixteenPages_le,sixteenPages_window,slabArray_le⟩

theorem oneEntry_found (bus : BitVec 8) :
    (mcfgEntries oneEntryMem 0 60).find? (fun ent => ent.Covers 0 bus)=some oneEntry := by
  have hentries : mcfgEntries oneEntryMem 0 60=[oneEntry] := by decide
  have hcovers : oneEntry.Covers 0 bus := by
    refine ⟨rfl,?_⟩
    rintro (h | h)
    · exact absurd bus.isLt (Nat.not_lt.mpr h)
    · exact absurd h (Nat.not_lt_zero _)
  rw [hentries]
  exact List.find?_cons_of_pos (decide_eq_true hcovers)

/-- The last register of the first bus is in the window. -/
theorem ecam_first_bus : ∃ a, mcfgTarget ecamMachine (mcfgEntries oneEntryMem 0 60) 0
    ⟨0,31,7⟩ 0xffc=some a ∧ oneEntry.Mapped ecamMachine a :=
  (ecam_window_iff ecamMachine oneEntryMem 0 60 0 ⟨0,31,7⟩ 0xffc oneEntry (oneEntry_found 0)
    (by decide) (by decide) (by decide)).2.1 (by decide) (by decide) |>.mpr (by decide)

/-- The registers of the second device on bus 1 are behind the window. -/
theorem ecam_second_bus :
    (mcfgEntries oneEntryMem 0 60).find? (fun ent => ent.Covers 0 1)=some oneEntry ∧
    mcfgTarget ecamMachine (mcfgEntries oneEntryMem 0 60) 0 ⟨1,1,0⟩ 0=
      some (ecamMachine.hhdm+0xb0108000) ∧
    ¬oneEntry.Mapped ecamMachine (ecamMachine.hhdm+0xb0108000) := by
  have htarget : oneEntry.target ecamMachine ⟨1,1,0⟩ 0=ecamMachine.hhdm+0xb0108000 := by decide
  refine ⟨oneEntry_found 1,?_,?_⟩
  · rw [mcfgTarget,oneEntry_found,Option.map_some,htarget]
  · rw [← htarget,mapped_iff _ _ (by decide) (by decide) (by decide),
      page_lt_iff (by decide) (by decide) (by decide) (by decide) (by decide) (by decide)]
    decide

end X64OS.Drivers
