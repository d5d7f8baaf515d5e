import X64OS.Fs.HashMap
import X64OS.Framework.ByteMemory

namespace X64OS.Drivers

open Framework Fs

structure GptHeader where
  sig : Str
  len : BitVec 32
  lba : BitVec 64
  first : BitVec 64
  last : BitVec 64
  partlba : BitVec 64
  entries : BitVec 32

structure GptEntry where
  unilow : BitVec 64
  unihi : BitVec 64
  start : BitVec 64
  endLba : BitVec 64
  attr : BitVec 64
  deriving DecidableEq

structure MbrEntry where
  type : BitVec 8
  startsect : BitVec 32
  sectors : BitVec 32
  deriving DecidableEq

/-- struct partition_device with the fields of its stat that partition_enum sets. -/
structure PartitionDevice where
  start : BitVec 64
  sectors : BitVec 64
  blksize : BitVec 16
  stBlksize : BitVec 64
  stSize : BitVec 64
  stBlocks : BitVec 64
  stRdev : Nat
  stMode : Nat
  canMmap : Bool
  deriving DecidableEq

/-- A call of devtmpfs_add_device, for partition number i+1 of the entry i. -/
structure Registration where
  number : Nat
  partname : Str
  device : PartitionDevice
  deriving DecidableEq

/-- "EFI PART". -/
def efiPart : Str := [0x45,0x46,0x49,0x20,0x50,0x41,0x52,0x54]

def partMode : Nat := 0o666 ||| 0x6000

def diskField (disk : Mem) (w : Nat) (pos n : Nat) : BitVec w := BitVec.ofNat w (disk.readBytes pos n)

def gptHeaderAt (disk : Mem) (loc : Nat) : GptHeader where
  sig := (List.range 8).map (fun k => disk (loc+k))
  len := diskField disk 32 (loc+12) 4
  lba := diskField disk 64 (loc+24) 8
  first := diskField disk 64 (loc+40) 8
  last := diskField disk 64 (loc+48) 8
  partlba := diskField disk 64 (loc+72) 8
  entries := diskField disk 32 (loc+80) 4

def gptEntryAt (disk : Mem) (loc : Nat) : GptEntry where
  unilow := diskField disk 64 (loc+16) 8
  unihi := diskField disk 64 (loc+24) 8
  start := diskField disk 64 (loc+32) 8
  endLba := diskField disk 64 (loc+40) 8
  attr := diskField disk 64 (loc+48) 8

def mbrEntryAt (disk : Mem) (loc : Nat) : MbrEntry where
  type := diskField disk 8 (loc+4) 1
  startsect := diskField disk 32 (loc+8) 4
  sectors := diskField disk 32 (loc+12) 4

/-- An entry with a unique GUID and neither GPT_DONTMOUNT nor GPT_LEGACY. -/
def GptEntry.Mountable (e : GptEntry) : Prop := ¬(e.unilow=0 ∧ e.unihi=0) ∧ e.attr &&& (2 ||| 4)=0

instance : DecidablePred GptEntry.Mountable := fun _ => inferInstanceAs (Decidable (_ ∧ _))

def gptDevice (e : GptEntry) (blocksize : BitVec 16) (devId : Nat) : PartitionDevice where
  start := e.start
  sectors := (e.endLba-e.start)/blocksize.setWidth 64
  blksize := blocksize
  stBlksize := blocksize.setWidth 64
  stSize := e.endLba-e.start
  stBlocks := (e.endLba-e.start)/blocksize.setWidth 64
  stRdev := devId
  stMode := partMode
  canMmap := false

/-- The product for st_size is one of 32 bits. -/
def mbrDevice (e : MbrEntry) (blocksize : BitVec 16) (devId : Nat) : PartitionDevice where
  start := e.startsect.setWidth 64
  sectors := e.sectors.setWidth 64
  blksize := blocksize
  stBlksize := blocksize.setWidth 64
  stSize := (e.sectors*blocksize.setWidth 32).setWidth 64
  stBlocks := e.sectors.setWidth 64
  stRdev := devId
  stMode := partMode
  canMmap := false

section Enum

-- what snprintf makes of the convention, the root's name and a number
variable (partname : Nat → Str) (disk : Mem) (blocksize : BitVec 16)

/-- The loop over n GPT entries from the entry i on; a division by a block size of 0 traps. -/
def gptLoop : Nat → Nat → BitVec 64 → Nat → Option (List Registration)
  | 0,_,_,_ => some []
  | n+1,i,loc,devId =>
    let entry := gptEntryAt disk loc.toNat
    if entry.unilow=0 ∧ entry.unihi=0 then gptLoop n (i+1) (loc+128) devId
    else if entry.attr &&& (2 ||| 4)≠0 then gptLoop n (i+1) (loc+128) devId
    else if blocksize=0 then none
    else (gptLoop n (i+1) (loc+128) (devId+1)).map (fun rest =>
      ⟨i+1,partname (i+1),gptDevice entry blocksize devId⟩::rest)

def mbrLoop : List MbrEntry → Nat → Nat → List Registration
  | [],_,_ => []
  | entry::entries,i,devId =>
    if entry.type=0 then mbrLoop entries (i+1) devId
    else ⟨i+1,partname (i+1),mbrDevice entry blocksize devId⟩::mbrLoop entries (i+1) (devId+1)

def mbrEnum (devId : Nat) : List Registration :=
  let hint := diskField disk 16 444 2
  if hint≠0 ∧ hint≠0x5a5a then []
  else mbrLoop partname blocksize ((List.range 4).map (fun k => mbrEntryAt disk (446+16*k))) 0 devId

/-- partition_enum, on what the root device reads at each position and its st_size; devId
is the next result of resource_create_dev_id. -/
def partitionEnum (stSize : Int) (devId : Nat) : Option (List Registration) :=
  let header := gptHeaderAt disk 512
  if header.sig≠efiPart then some (mbrEnum partname disk blocksize devId)
  else if header.len.toNat < 92 then some (mbrEnum partname disk blocksize devId)
  else if stSize < header.len.toNat then some (mbrEnum partname disk blocksize devId)
  else if header.lba≠1 then some (mbrEnum partname disk blocksize devId)
  else if header.last.toNat < header.first.toNat then some (mbrEnum partname disk blocksize devId)
  else gptLoop partname disk blocksize header.entries.toNat 0 (header.partlba*512) devId

end Enum

inductive RootOp where
  | read (loc count : BitVec 64)
  | write (loc count : BitVec 64)
  deriving DecidableEq

def RootOp.loc : RootOp → BitVec 64
  | .read loc _ | .write loc _ => loc

def RootOp.count : RootOp → BitVec 64
  | .read _ count | .write _ count => count

def RootOp.Touches (op : RootOp) (x : Nat) : Prop :=
  op.loc.toNat ≤ x ∧ x < op.loc.toNat+op.count.toNat

namespace PartitionDevice

section
variable (d : PartitionDevice)

/-- The common body of readpart and writepart; none is the result -1. -/
def request (op : BitVec 64 → BitVec 64 → RootOp) (loc count : BitVec 64) : Option RootOp :=
  if d.sectors*d.blksize.setWidth 64 ≤ loc then none
  else some (op (loc+d.start*d.blksize.setWidth 64) count)

def readpart (loc count : BitVec 64) : Option RootOp := d.request .read loc count

def writepart (loc count : BitVec 64) : Option RootOp := d.request .write loc count

def Owns (x : Nat) : Prop :=
  d.start.toNat*d.blksize.toNat ≤ x ∧ x < (d.start.toNat+d.sectors.toNat)*d.blksize.toNat

def Confined (r : Option RootOp) : Prop :=
  ∀ op, r=some op → ∀ x, op.Touches x → d.Owns x

/-- The request is turned down, empty, or ends inside a partition that it does not leave by
a wrap of the position. -/
def Fits (loc count : BitVec 64) : Prop :=
  d.sectors*d.blksize.setWidth 64 ≤ loc ∨ count=0 ∨
    d.start.toNat*d.blksize.toNat+loc.toNat < 2^64 ∧
      loc.toNat+count.toNat ≤ d.sectors.toNat*d.blksize.toNat

end

instance (d : PartitionDevice) (loc count : BitVec 64) : Decidable (d.Fits loc count) :=
  inferInstanceAs (Decidable (_ ∨ _ ∨ _))

variable (d : PartitionDevice)

theorem toNat_position (loc : BitVec 64) :
    (loc+d.start*d.blksize.setWidth 64).toNat=(loc.toNat+d.start.toNat*d.blksize.toNat)%2^64 := by
  have hblk : d.blksize.toNat%2^64=d.blksize.toNat := Nat.mod_eq_of_lt (by have := d.blksize.isLt; omega)
  rw [BitVec.toNat_add,BitVec.toNat_mul,BitVec.toNat_setWidth,hblk,Nat.add_mod_mod]

theorem owns_iff (x : Nat) :
    d.Owns x ↔ d.start.toNat*d.blksize.toNat ≤ x ∧
      x < d.start.toNat*d.blksize.toNat+d.sectors.toNat*d.blksize.toNat := by
  rw [Owns,Nat.add_mul]

/-- A position that wrapped lies in front of the partition. -/
theorem confined_request_iff (op : BitVec 64 → BitVec 64 → RootOp)
    (hop : ∀ loc count, (op loc count).loc=loc ∧ (op loc count).count=count)
    (loc count : BitVec 64) : d.Confined (d.request op loc count) ↔ d.Fits loc count := by
  unfold request Fits
  split
  · rename_i hout
    exact iff_of_true (fun op h => by cases h) (.inl hout)
  rename_i hin
  obtain ⟨hloc,hcount⟩ := hop (loc+d.start*d.blksize.setWidth 64) count
  have htouch : ∀ x, (op (loc+d.start*d.blksize.setWidth 64) count).Touches x ↔
      (loc.toNat+d.start.toNat*d.blksize.toNat)%2^64 ≤ x ∧
        x < (loc.toNat+d.start.toNat*d.blksize.toNat)%2^64+count.toNat := by
    intro x
    rw [RootOp.Touches,hloc,hcount,toNat_position]
  have hzero : count=0 ↔ count.toNat=0 :=
    ⟨fun h => by rw [h]; rfl,fun h => BitVec.eq_of_toNat_eq h⟩
  have hlt := loc.isLt
  rw [or_iff_right hin,hzero]
  have hconfined : d.Confined (some (op (loc+d.start*d.blksize.setWidth 64) count)) ↔
      ∀ x, (op (loc+d.start*d.blksize.setWidth 64) count).Touches x → d.Owns x :=
    ⟨fun h => h _ rfl,fun h op' hop' => by cases hop'; exact h⟩
  rw [hconfined]
  simp only [htouch,owns_iff]
  generalize d.start.toNat*d.blksize.toNat=s
  generalize d.sectors.toNat*d.blksize.toNat=z
  constructor
  · intro h
    by_cases hc : count.toNat=0
    · exact .inl hc
    · have hfirst := h ((loc.toNat+s)%2^64) (by omega)
      have hlast := h ((loc.toNat+s)%2^64+count.toNat-1) (by omega)
      omega
  · intro h x hx
    omega

end PartitionDevice

/-- A read or write of a partition is turned down or stays inside it exactly when it fits,
and then it reaches no byte of a partition that is apart from it. -/
theorem partition_isolated_iff (d : PartitionDevice) (loc count : BitVec 64) :
    (d.Confined (d.readpart loc count) ↔ d.Fits loc count) ∧
    (d.Confined (d.writepart loc count) ↔ d.Fits loc count) ∧
    (d.Fits loc count → ∀ other : PartitionDevice, (∀ x, d.Owns x → ¬other.Owns x) →
      ∀ op, d.readpart loc count=some op ∨ d.writepart loc count=some op →
        ∀ x, op.Touches x → ¬other.Owns x) := by
  have hread := d.confined_request_iff .read (fun _ _ => ⟨rfl,rfl⟩) loc count
  have hwrite := d.confined_request_iff .write (fun _ _ => ⟨rfl,rfl⟩) loc count
  refine ⟨hread,hwrite,?_⟩
  intro hfits other hapart op hop x hx
  apply hapart x
  rcases hop with hop | hop
  · exact hread.mpr hfits op hop x hx
  · exact hwrite.mpr hfits op hop x hx

def diskOf (fields : List (Nat × Nat × Nat)) : Mem :=
  fields.foldl (fun m f => m.writeBytes f.1 f.2.1 f.2.2) (fun _ => 0)

def twoSectors : Mem := diskOf [(450,1,0x83),(454,4,1),(458,4,1),(466,1,0x83),(470,4,2),(474,4,1)]

def firstSector : PartitionDevice := ⟨1,1,512,512,512,1,7,partMode,false⟩

def secondSector : PartitionDevice := ⟨2,1,512,512,512,1,8,partMode,false⟩

theorem partition_isolated_iff_inside : firstSector.Confined (firstSector.readpart 500 12) :=
  (partition_isolated_iff firstSector 500 12).1.mpr (by decide)

/-- A read of 1024 bytes at the start of the first partition goes on into the second. -/
theorem partition_read_crosses :
    partitionEnum (fun _ => []) twoSectors 512 4096 7=
      some [⟨1,[],firstSector⟩,⟨2,[],secondSector⟩] ∧
    firstSector.readpart 0 1024=some (.read 512 1024) ∧
    (RootOp.read 512 1024).Touches 1024 ∧ ¬firstSector.Owns 1024 ∧ secondSector.Owns 1024 := by
  refine ⟨by decide +kernel,by decide,?_,?_,?_⟩
  · exact ⟨by decide,by decide⟩
  · exact fun h => absurd h.2 (by decide)
  · exact ⟨by decide,by decide⟩

/-- The checks that a GPT header passes, on a device of stSize bytes. -/
structure GptHeader.Valid (h : GptHeader) (stSize : Int) : Prop where
  sig : h.sig=efiPart
  len : 92 ≤ h.len.toNat
  size : h.len.toNat ≤ stSize
  lba : h.lba=1
  range : h.first.toNat ≤ h.last.toNat

def gptEntry (disk : Mem) (i : Nat) : GptEntry :=
  gptEntryAt disk ((gptHeaderAt disk 512).partlba*512+BitVec.ofNat 64 (128*i)).toNat

def mountable (disk : Mem) (i n : Nat) : List Nat :=
  (List.range' i n).filter (fun k => (gptEntry disk k).Mountable)

section
variable (partname : Nat → Str)

theorem gptLoop_skip (disk : Mem) (blocksize : BitVec 16) {n i devId : Nat} {loc : BitVec 64}
    (h : ¬(gptEntryAt disk loc.toNat).Mountable) :
    gptLoop partname disk blocksize (n+1) i loc devId=
      gptLoop partname disk blocksize n (i+1) (loc+128) devId := by
  rw [gptLoop]
  split
  · rfl
  · rename_i hguid
    rw [if_pos (fun hattr => h ⟨hguid,hattr⟩)]

theorem gptLoop_take (disk : Mem) {blocksize : BitVec 16} (hblk : blocksize≠0) {n i devId : Nat}
    {loc : BitVec 64} (h : (gptEntryAt disk loc.toNat).Mountable) :
    gptLoop partname disk blocksize (n+1) i loc devId=
      (gptLoop partname disk blocksize n (i+1) (loc+128) (devId+1)).map (fun rest =>
        ⟨i+1,partname (i+1),gptDevice (gptEntryAt disk loc.toNat) blocksize devId⟩::rest) := by
  rw [gptLoop,if_neg h.1,if_neg (not_not.mpr h.2),if_neg hblk]

theorem gptLoop_eq (disk : Mem) {blocksize : BitVec 16} (hblk : blocksize≠0) (n i devId : Nat) :
    gptLoop partname disk blocksize n i
        ((gptHeaderAt disk 512).partlba*512+BitVec.ofNat 64 (128*i)) devId=
      some ((mountable disk i n).mapIdx (fun j k =>
        ⟨k+1,partname (k+1),gptDevice (gptEntry disk k) blocksize (devId+j)⟩)) := by
  induction n generalizing i devId with
  | zero => rfl
  | succ n ih =>
    have hloc : (gptHeaderAt disk 512).partlba*512+BitVec.ofNat 64 (128*i)+128=
        (gptHeaderAt disk 512).partlba*512+BitVec.ofNat 64 (128*(i+1)) := by
      rw [BitVec.add_assoc,Nat.mul_succ,BitVec.ofNat_add]
      rfl
    rw [mountable,List.range'_succ]
    by_cases h : (gptEntry disk i).Mountable
    · rw [gptLoop_take partname disk hblk h,hloc,ih,List.filter_cons_of_pos (by simpa using h),
        List.mapIdx_cons,Option.map_some]
      simp only [Nat.add_zero,Nat.add_assoc,Nat.add_comm 1]
      rfl
    · rw [gptLoop_skip partname disk blocksize h,hloc,ih,List.filter_cons_of_neg (by simpa using h)]
      rfl

theorem partitionEnum_gpt {disk : Mem} (blocksize : BitVec 16) {stSize : Int} (devId : Nat)
    (h : (gptHeaderAt disk 512).Valid stSize) :
    partitionEnum partname disk blocksize stSize devId=
      gptLoop partname disk blocksize (gptHeaderAt disk 512).entries.toNat 0
        ((gptHeaderAt disk 512).partlba*512) devId := by
  rw [partitionEnum,if_neg (not_not.mpr h.sig),if_neg (Nat.not_lt.mpr h.len),if_neg (Int.not_lt.mpr h.size),
    if_neg (not_not.mpr h.lba),if_neg (Nat.not_lt.mpr h.range)]

end

/-- The device gives the LBAs from the start of the entry to its end inclusive. -/
structure Exposes (d : PartitionDevice) (e : GptEntry) : Prop where
  start : d.start=e.start
  sectors : d.sectors=e.endLba-e.start+1
  blocks : d.stBlocks=e.endLba-e.start+1
  size : d.stSize=(e.endLba-e.start+1)*d.blksize.setWidth 64

theorem not_exposes_gptDevice (e : GptEntry) (devId : Nat) : ¬Exposes (gptDevice e 512 devId) e := by
  intro h
  have hs : (e.endLba-e.start)/512=e.endLba-e.start+1 := h.sectors
  have hnat : (e.endLba-e.start).toNat/512=((e.endLba-e.start).toNat+1)%2^64 := by
    have := congrArg BitVec.toNat hs
    rwa [BitVec.toNat_udiv,BitVec.toNat_add] at this
  have hlt := (e.endLba-e.start).isLt
  by_cases hlast : (e.endLba-e.start).toNat+1 < 2^64
  · rw [Nat.mod_eq_of_lt hlast] at hnat
    omega
  · have hk : (e.endLba-e.start).toNat=2^64-1 := by omega
    rw [hk] at hnat
    exact absurd hnat (by decide)

theorem map_mapIdx_eq {α β γ : Type} {f : Nat → α → β} {g : β → γ} {h : α → γ}
    (hf : ∀ j a, g (f j a)=h a) (l : List α) : (l.mapIdx f).map g=l.map h := by
  refine List.ext_getElem (by rw [List.length_map,List.length_mapIdx,List.length_map]) ?_
  intro k h1 h2
  rw [List.getElem_map,List.getElem_map,List.getElem_mapIdx]
  exact hf k _

/-- For a valid GPT there is one device for each entry with a unique GUID that is to be
mounted, numbered by its place and beginning at its start; the devices have the size of
their entries only if there is none. -/
theorem gpt_devices_iff (partname : Nat → Str) (disk : Mem) (stSize : Int) (devId : Nat)
    (hvalid : (gptHeaderAt disk 512).Valid stSize) :
    ∃ regs, partitionEnum partname disk 512 stSize devId=some regs ∧
      regs.map (fun r => (r.number,r.partname,r.device.start,r.device.blksize))=
        (mountable disk 0 (gptHeaderAt disk 512).entries.toNat).map (fun i =>
          (i+1,partname (i+1),(gptEntry disk i).start,512)) ∧
      ((∀ r∈regs, Exposes r.device (gptEntry disk (r.number-1))) ↔
        ∀ i, i < (gptHeaderAt disk 512).entries.toNat → ¬(gptEntry disk i).Mountable) := by
  have hloop := gptLoop_eq partname disk (show (512 : BitVec 16)≠0 by decide)
    (gptHeaderAt disk 512).entries.toNat 0 devId
  rw [Nat.mul_zero,BitVec.add_zero,← partitionEnum_gpt partname 512 devId hvalid] at hloop
  refine ⟨_,hloop,?_,?_⟩
  · apply map_mapIdx_eq
    intro _ _
    rfl
  · constructor
    · intro h i hi hm
      have hmem : i∈mountable disk 0 (gptHeaderAt disk 512).entries.toNat := by
        rw [mountable,List.mem_filter]
        exact ⟨List.mem_range'_1.mpr ⟨Nat.zero_le _,by omega⟩,decide_eq_true hm⟩
      obtain ⟨k,hk,rfl⟩ := List.getElem_of_mem hmem
      have hexposes := h _ (List.mem_mapIdx.mpr ⟨k,hk,rfl⟩)
      simp only [Nat.add_sub_cancel] at hexposes
      exact not_exposes_gptDevice _ _ hexposes
    · intro h r hr
      obtain ⟨k,hk,-⟩ := List.mem_mapIdx.mp hr
      obtain ⟨hrange,hm⟩ := List.mem_filter.mp (List.getElem_mem hk)
      have hlt := (List.mem_range'_1.mp hrange).2
      exact absurd (of_decide_eq_true hm) (h _ (by omega))

def gptDisk (entries unilow : Nat) : Mem :=
  diskOf [(512,8,0x5452415020494645),(524,4,92),(536,8,1),(552,8,34),(560,8,4000),(584,8,2),
    (592,4,entries),(1040,8,unilow),(1056,8,34),(1064,8,2047)]

theorem gpt_devices_iff_unused : (gptHeaderAt (gptDisk 1 0) 512).Valid 2097152 ∧
    ∃ regs, partitionEnum (fun _ => []) (gptDisk 1 0) 512 2097152 7=some regs ∧
      ∀ r∈regs, Exposes r.device (gptEntry (gptDisk 1 0) (r.number-1)) := by
  have hvalid : (gptHeaderAt (gptDisk 1 0) 512).Valid 2097152 := by
    constructor <;> decide +kernel
  obtain ⟨regs,hregs,-,hiff⟩ := gpt_devices_iff (fun _ => []) (gptDisk 1 0) 2097152 7 hvalid
  refine ⟨hvalid,regs,hregs,hiff.mpr ?_⟩
  have hnone : ∀ i, i < 1 → ¬(gptEntry (gptDisk 1 0) i).Mountable := by decide +kernel
  have hentries : (gptHeaderAt (gptDisk 1 0) 512).entries.toNat=1 := by decide +kernel
  rw [hentries]
  exact hnone

/-- The LBAs from 34 to 2047 are 2014 sectors; the device has 3, and 2013 bytes. -/
theorem gpt_device_too_small : (gptHeaderAt (gptDisk 1 1) 512).Valid 2097152 ∧
    partitionEnum (fun _ => []) (gptDisk 1 1) 512 2097152 7=
      some [⟨1,[],⟨34,3,512,512,2013,3,7,partMode,false⟩⟩] ∧
    gptEntry (gptDisk 1 1) 0=⟨1,0,34,2047,0⟩ ∧
    ¬Exposes ⟨34,3,512,512,2013,3,7,partMode,false⟩ (gptEntry (gptDisk 1 1) 0) := by
  have hentry : gptEntry (gptDisk 1 1) 0=⟨1,0,34,2047,0⟩ := by decide +kernel
  refine ⟨by constructor <;> decide +kernel,by decide +kernel,hentry,fun h => ?_⟩
  rw [hentry] at h
  exact absurd h.sectors (by decide)

def mbrEntry (disk : Mem) (i : Nat) : MbrEntry := mbrEntryAt disk (446+16*i)

def typed (disk : Mem) (i n : Nat) : List Nat :=
  (List.range' i n).filter (fun k => (mbrEntry disk k).type≠0)

theorem mbrLoop_eq (partname : Nat → Str) (disk : Mem) (blocksize : BitVec 16) (n i devId : Nat) :
    mbrLoop partname blocksize ((List.range' i n).map (mbrEntry disk)) i devId=
      (typed disk i n).mapIdx (fun j k =>
        ⟨k+1,partname (k+1),mbrDevice (mbrEntry disk k) blocksize (devId+j)⟩) := by
  induction n generalizing i devId with
  | zero => rfl
  | succ n ih =>
    rw [typed,List.range'_succ,List.map_cons,mbrLoop]
    by_cases h : (mbrEntry disk i).type=0
    · rw [if_pos h,ih,List.filter_cons_of_neg (by simpa using h)]
      rfl
    · rw [if_neg h,ih,List.filter_cons_of_pos (by simpa using h),List.mapIdx_cons]
      simp only [Nat.add_zero,Nat.add_assoc,Nat.add_comm 1]
      rfl

theorem partitionEnum_mbr (partname : Nat → Str) {disk : Mem} (blocksize : BitVec 16) {stSize : Int}
    (devId : Nat) (h : ¬(gptHeaderAt disk 512).Valid stSize) :
    partitionEnum partname disk blocksize stSize devId=some (mbrEnum partname disk blocksize devId) := by
  rw [partitionEnum]
  split_ifs with hsig hlen hsize hlba hrange
  · rfl
  · rfl
  · rfl
  · rfl
  · rfl
  · exact absurd ⟨not_not.mp hsig,Nat.not_lt.mp hlen,Int.not_lt.mp hsize,not_not.mp hlba,
      Nat.not_lt.mp hrange⟩ h

theorem mbrDevice_size_iff (e : MbrEntry) (blocksize : BitVec 16) (devId : Nat) :
    (mbrDevice e blocksize devId).stSize.toNat=e.sectors.toNat*blocksize.toNat ↔
      e.sectors.toNat*blocksize.toNat < 2^32 := by
  have hblk := blocksize.isLt
  have hsize : (mbrDevice e blocksize devId).stSize.toNat=e.sectors.toNat*blocksize.toNat%2^32 := by
    rw [mbrDevice,BitVec.toNat_setWidth,BitVec.toNat_mul,BitVec.toNat_setWidth,
      Nat.mod_eq_of_lt (show blocksize.toNat < 2^32 by omega)]
    omega
  rw [hsize]
  omega

/-- Without a GPT, and with a hint that allows an MBR, there is one device for each entry
with a type, with its start and its sectors; their sizes are exact if the products fit into
32 bits. -/
theorem mbr_devices_iff (partname : Nat → Str) (disk : Mem) (blocksize : BitVec 16) (stSize : Int)
    (devId : Nat) (hgpt : ¬(gptHeaderAt disk 512).Valid stSize)
    (hhint : diskField disk 16 444 2=0 ∨ diskField disk 16 444 2=0x5a5a) :
    ∃ regs, partitionEnum partname disk blocksize stSize devId=some regs ∧
      regs.map (fun r => (r.number,r.partname,r.device.start,r.device.sectors))=
        (typed disk 0 4).map (fun i => (i+1,partname (i+1),(mbrEntry disk i).startsect.setWidth 64,
          (mbrEntry disk i).sectors.setWidth 64)) ∧
      ((∀ r∈regs, r.device.stSize.toNat=r.device.sectors.toNat*blocksize.toNat) ↔
        ∀ i < 4, (mbrEntry disk i).type≠0 → (mbrEntry disk i).sectors.toNat*blocksize.toNat < 2^32) := by
  have henum : mbrEnum partname disk blocksize devId=(typed disk 0 4).mapIdx (fun j k =>
      ⟨k+1,partname (k+1),mbrDevice (mbrEntry disk k) blocksize (devId+j)⟩) := by
    rw [mbrEnum,if_neg (by tauto),List.range_eq_range']
    exact mbrLoop_eq partname disk blocksize 4 0 devId
  have hsectors : ∀ i j, (mbrDevice (mbrEntry disk i) blocksize j).sectors.toNat=
      (mbrEntry disk i).sectors.toNat :=
    fun i _ => BitVec.toNat_setWidth_of_le (by decide)
  refine ⟨_,partitionEnum_mbr partname blocksize devId hgpt,?_,?_⟩
  · rw [henum]
    apply map_mapIdx_eq
    intro _ _
    rfl
  · rw [henum]
    constructor
    · intro h i hi htype
      have hmem : i∈typed disk 0 4 := by
        rw [typed,List.mem_filter]
        exact ⟨List.mem_range'_1.mpr ⟨Nat.zero_le _,by omega⟩,decide_eq_true htype⟩
      obtain ⟨k,hk,rfl⟩ := List.getElem_of_mem hmem
      have hexact := h _ (List.mem_mapIdx.mpr ⟨k,hk,rfl⟩)
      rw [hsectors] at hexact
      exact (mbrDevice_size_iff _ _ _).mp hexact
    · intro h r hr
      obtain ⟨k,hk,rfl⟩ := List.mem_mapIdx.mp hr
      obtain ⟨hrange,htype⟩ := List.mem_filter.mp (List.getElem_mem hk)
      have hlt := (List.mem_range'_1.mp hrange).2
      rw [hsectors,mbrDevice_size_iff]
      exact h _ (by omega) (of_decide_eq_true htype)

/-- The MBR with two partitions of one sector each. -/
theorem mbr_devices_iff_small : ¬(gptHeaderAt twoSectors 512).Valid 4096 ∧
    ∃ regs, partitionEnum (fun _ => []) twoSectors 512 4096 7=some regs ∧
      ∀ r∈regs, r.device.stSize.toNat=r.device.sectors.toNat*512 := by
  have hgpt : ¬(gptHeaderAt twoSectors 512).Valid 4096 :=
    fun h => absurd h.sig (by decide +kernel)
  obtain ⟨regs,hregs,-,hiff⟩ := mbr_devices_iff (fun _ => []) twoSectors 512 4096 7 hgpt
    (.inl (by decide +kernel))
  exact ⟨hgpt,regs,hregs,hiff.mpr (by decide +kernel)⟩

/-- A partition of 2^23 sectors has 2^32 bytes, but its device has the size 0. -/
theorem mbr_device_wraps : ¬(gptHeaderAt (diskOf [(450,1,0x83),(454,4,1),(458,4,2^23)]) 512).Valid (2^33) ∧
    partitionEnum (fun _ => []) (diskOf [(450,1,0x83),(454,4,1),(458,4,2^23)]) 512 (2^33) 7=
      some [⟨1,[],⟨1,8388608,512,512,0,8388608,7,partMode,false⟩⟩] :=
  ⟨fun h => absurd h.sig (by decide +kernel),by decide +kernel⟩

end X64OS.Drivers
