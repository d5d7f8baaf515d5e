import X64OS.Drivers.NvmeCache
import X64OS.Memory.Ram

namespace X64OS.Drivers

open Framework Memory Function

/-- What nvme_rwlba uses of struct nvme_nsdevice and its queue; entries are those of the table
that begins at the address physregpgs. -/
structure NsDevice where
  nsid : Nat
  lbasize : Nat
  lbacount : Nat
  maxphysrpgs : Nat
  cmdid : Nat
  physregpgs : Nat
  entries : Nat → Nat

/-- cmd.rw, but for the fields that are 0. -/
structure NvmeRw where
  opcode : Nat
  nsid : Nat
  slba : Nat
  len : Nat
  prp1 : Nat
  prp2 : Nat
  deriving DecidableEq

/-- How a command describes its pages: by prp1, by prp1 and prp2, or by prp1 and a list. -/
inductive Prps where
  | page
  | pages
  | list (prpcount : Nat)
  deriving DecidableEq

/-- The choice of shoulduseprp and shoulduseprplist. -/
def prpsOf (lbasize count : Nat) : Prps :=
  if pageSize < mul64 count lbasize then
    if pageSize*2 < mul64 count lbasize then .list (mul64 (sub64 count 1) lbasize/pageSize)
    else .pages
  else .page

def Prps.prpcount : Prps → Nat
  | .list n => n
  | _ => 0

namespace NsDevice

variable (M : Machine) (d : NsDevice)

def prps (start count : Nat) : Prps := prpsOf d.lbasize (cutCount d.lbacount start count)

/-- The index cid * maxphysrpgs. -/
def firstEntry : Nat := mul64 d.cmdid d.maxphysrpgs

def physPage (buf i : Nat) : Nat :=
  add64 (add64 (sub64 (sub64 buf M.hhdm) (buf%pageSize)) pageSize) (mul64 i pageSize)

def fillEntries (buf : Nat) : Nat → Nat → Nat
  | 0 => d.entries
  | n+1 => update (fillEntries buf n) (add64 n d.firstEntry) (physPage M buf n)

def rwPrp1 (buf : Nat) : Prps → Nat
  | .pages => 0
  | _ => sub64 buf M.hhdm

def rwPrp2 (buf : Nat) : Prps → Nat
  | .page => 0
  | .pages => sub64 (add64 buf pageSize) M.hhdm
  | .list _ => sub64 (add64 d.physregpgs (mul64 8 d.firstEntry)) M.hhdm

/-- nvme_rwlba up to the command that it submits; nvme_awaitsubmitcmd takes the number cmdid. -/
def nvmeRwlba (buf start count : Nat) (write : Bool) : NvmeRw × NsDevice :=
  let prps := d.prps start count
  (⟨if write then 1 else 2,d.nsid,start,sub64 (cutCount d.lbacount start count) 1%2^16,
      rwPrp1 M buf prps,d.rwPrp2 M buf prps⟩,
    { d with entries := d.fillEntries M buf prps.prpcount, cmdid := (d.cmdid+1)%2^32 })

def entryAt (addr : Nat) : Nat := d.entries ((addr+M.hhdm-d.physregpgs)/8)

def described (c : NvmeRw) : Prps → List Nat
  | .page => [c.prp1]
  | .pages => [c.prp1,c.prp2]
  | .list n => c.prp1::(List.range n).map (fun i => d.entryAt M (c.prp2+8*i))

end NsDevice

theorem nvmeRwlba_rwCommand (M : Machine) (d : NsDevice) (buf start count : Nat) (write : Bool) :
    rwCommand d.lbacount start count write=
      ⟨write,(d.nvmeRwlba M buf start count write).1.slba,(d.nvmeRwlba M buf start count write).1.len⟩ :=
  rfl

/-- The pages of the bytes from buf on: the first one from the place in it on, then the others
one after the other. -/
def pagesOf (M : Machine) (buf bytes : Nat) : List Nat :=
  (buf-M.hhdm)::(List.range ((buf%pageSize+bytes-1)/pageSize)).map (fun i =>
    buf-M.hhdm-buf%pageSize+pageSize*(i+1))

/-- A buffer in the direct map, for a transfer inside the namespace. -/
structure NsDevice.Transfers (M : Machine) (d : NsDevice) (buf start count : Nat) : Prop where
  count_pos : 0 < count
  lbasize_pos : 0 < d.lbasize
  inside : start+count ≤ d.lbacount
  lbacount : d.lbacount < 2^64
  low : M.hhdm ≤ buf
  high : buf+count*d.lbasize ≤ 2^64
  table : M.hhdm ≤ d.physregpgs
  room : d.physregpgs+8*(d.cmdid*d.maxphysrpgs+(count-1)*d.lbasize/pageSize) < 2^64

variable {i n : Nat}

namespace NsDevice.Transfers

variable {M : Machine} {d : NsDevice} {buf start count : Nat}

variable (h : d.Transfers M buf start count)
include h

theorem cutCount_eq : cutCount d.lbacount start count=count := by
  have h1 := h.inside
  have h2 := h.lbacount
  rw [cutCount]
  split
  · rename_i hpast
    rw [add64_eq (by omega)] at hpast ⊢
    have hend : sub64 (start+count) d.lbacount=0 := by
      rw [sub64_eq (by omega) hpast]
      omega
    rw [hend]
    exact sub64_eq (by omega) (Nat.zero_le _)
  · rfl

theorem bytes_lt : count*d.lbasize < 2^64 := by
  have h1 := h.high
  have h2 := h.low
  have h3 := M.hhdm_pos
  omega

theorem prps_eq : d.prps start count=
    if pageSize < count*d.lbasize then
      if pageSize*2 < count*d.lbasize then .list ((count-1)*d.lbasize/pageSize) else .pages
    else .page := by
  have hlast : (count-1)*d.lbasize ≤ count*d.lbasize := Nat.mul_le_mul_right _ (Nat.sub_le _ _)
  have hbytes := h.bytes_lt
  have h1 := h.inside
  have h2 := h.lbacount
  have h3 := h.count_pos
  rw [prps,h.cutCount_eq,prpsOf,mul64_eq hbytes,sub64_eq (by omega) (by omega),mul64_eq (by omega)]

theorem physPage_eq (hi : pageSize*(i+1) ≤ count*d.lbasize) :
    physPage M buf i=buf-M.hhdm-buf%pageSize+pageSize*(i+1) := by
  have h1 := h.low
  have h2 := h.high
  have h3 := M.hhdm_pos
  have h4 := M.hhdm_aligned
  have hmod : buf%pageSize ≤ buf-M.hhdm := by
    simp only [pageSize] at h4 ⊢
    omega
  rw [physPage]
  simp only [pageSize] at hi hmod ⊢
  rw [sub64_eq (by omega) h1,sub64_eq (by omega) hmod,mul64_eq (by omega),
    add64_eq (show buf-M.hhdm-buf%4096+4096 < 2^64 by omega),add64_eq (by omega)]
  omega

end NsDevice.Transfers

theorem fillEntries_of_lt (M : Machine) (d : NsDevice) (buf : Nat) (hi : i < n)
    (hroom : d.firstEntry+n ≤ 2^64) :
    d.fillEntries M buf n (d.firstEntry+i)=NsDevice.physPage M buf i := by
  induction n with
  | zero => omega
  | succ n ih =>
    rw [NsDevice.fillEntries,add64_eq (by omega)]
    by_cases hin : i=n
    · rw [hin,Nat.add_comm,update_self]
    · rw [update_of_ne (by omega)]
      exact ih (by omega) (by omega)

namespace NsDevice.Transfers

variable {M : Machine} {d : NsDevice} {buf start count : Nat}

variable (h : d.Transfers M buf start count) (write : Bool) (hn : d.prps start count=.list n)
  (hle : n ≤ (count-1)*d.lbasize/pageSize)
include h hn hle

theorem entryAt_eq (hi : i < n) :
    (d.nvmeRwlba M buf start count write).2.entryAt M
      ((d.nvmeRwlba M buf start count write).1.prp2+8*i)=physPage M buf i := by
  have h1 := h.room
  have h2 := h.table
  have h3 := M.hhdm_pos
  have hfirst : d.firstEntry=d.cmdid*d.maxphysrpgs := mul64_eq (by omega)
  have hprp2 : (d.nvmeRwlba M buf start count write).1.prp2=d.physregpgs+8*d.firstEntry-M.hhdm := by
    rw [nvmeRwlba]
    dsimp only
    rw [hn,rwPrp2,mul64_eq (by omega),add64_eq (by omega),sub64_eq (by omega) (by omega)]
  have hindex : (d.physregpgs+8*d.firstEntry-M.hhdm+8*i+M.hhdm-d.physregpgs)/8=d.firstEntry+i := by
    omega
  rw [hprp2,entryAt,nvmeRwlba]
  dsimp only
  rw [hn,Prps.prpcount,hindex]
  exact fillEntries_of_lt M d buf hi (by omega)

theorem described_list :
    (d.nvmeRwlba M buf start count write).2.described M (d.nvmeRwlba M buf start count write).1
        (.list n)=
      (buf-M.hhdm)::(List.range n).map (fun i => buf-M.hhdm-buf%pageSize+pageSize*(i+1)) := by
  have hhigh := h.high
  have hpos := Nat.mul_pos h.count_pos h.lbasize_pos
  have hprp1 : (d.nvmeRwlba M buf start count write).1.prp1=buf-M.hhdm := by
    rw [nvmeRwlba]
    dsimp only
    rw [hn]
    exact sub64_eq (by omega) h.low
  rw [described,hprp1]
  congr 1
  apply List.map_congr_left
  intro i hi
  rw [List.mem_range] at hi
  rw [h.entryAt_eq write hn hle hi]
  apply h.physPage_eq
  have hlast : (count-1)*d.lbasize ≤ count*d.lbasize := Nat.mul_le_mul_right _ (Nat.sub_le _ _)
  have hdiv := Nat.div_mul_le_self ((count-1)*d.lbasize) pageSize
  have hmul := Nat.mul_le_mul_left pageSize (show i+1 ≤ (count-1)*d.lbasize/pageSize by omega)
  rw [Nat.mul_comm pageSize (_/_)] at hmul
  omega

end NsDevice.Transfers

theorem pagesOf_eq_iff (M : Machine) (buf bytes n : Nat) :
    (buf-M.hhdm)::(List.range n).map (fun i => buf-M.hhdm-buf%pageSize+pageSize*(i+1))=
      pagesOf M buf bytes ↔ n=(buf%pageSize+bytes-1)/pageSize := by
  constructor
  · intro h
    have hlen := congrArg List.length h
    simpa [pagesOf] using hlen
  · rintro rfl
    rfl

/-- The command describes the pages of the buffer exactly if a transfer of at most a page
stays in one, one of at most two pages starts at the physical address 0, and a longer one
touches as many pages behind the first as prpcount says. -/
theorem prp_pages_iff (M : Machine) (d : NsDevice) (buf start count : Nat) (write : Bool)
    (h : d.Transfers M buf start count) :
    (d.nvmeRwlba M buf start count write).2.described M (d.nvmeRwlba M buf start count write).1
        (d.prps start count)=pagesOf M buf (count*d.lbasize) ↔
      if count*d.lbasize ≤ pageSize then buf%pageSize+count*d.lbasize ≤ pageSize
      else if count*d.lbasize ≤ pageSize*2 then buf=M.hhdm
      else (count-1)*d.lbasize/pageSize=(buf%pageSize+count*d.lbasize-1)/pageSize := by
  have hpos := Nat.mul_pos h.count_pos h.lbasize_pos
  have hlow := h.low
  have hhigh := h.high
  have haligned := M.hhdm_aligned
  have hprps := h.prps_eq
  by_cases hone : count*d.lbasize ≤ pageSize
  · rw [if_neg (Nat.not_lt.mpr hone)] at hprps
    rw [if_pos hone]
    have hprp1 : (d.nvmeRwlba M buf start count write).1.prp1=buf-M.hhdm := by
      rw [NsDevice.nvmeRwlba]
      dsimp only
      rw [hprps]
      exact sub64_eq (by omega) hlow
    rw [hprps,NsDevice.described,hprp1]
    have hiff := pagesOf_eq_iff M buf (count*d.lbasize) 0
    rw [List.range_zero,List.map_nil] at hiff
    rw [hiff]
    simp only [pageSize] at hone ⊢
    omega
  · rw [if_pos (Nat.not_le.mp hone)] at hprps
    rw [if_neg hone]
    by_cases htwo : count*d.lbasize ≤ pageSize*2
    · rw [if_neg (Nat.not_lt.mpr htwo)] at hprps
      rw [if_pos htwo,hprps,NsDevice.described,NsDevice.nvmeRwlba]
      dsimp only
      rw [hprps]
      constructor
      · intro heq
        have hhead : 0=buf-M.hhdm := (List.cons.inj heq).1
        omega
      · rintro rfl
        have hpages : (M.hhdm%pageSize+count*d.lbasize-1)/pageSize=1 := by
          simp only [pageSize] at haligned hone htwo ⊢
          omega
        rw [pagesOf,hpages,haligned]
        have hsecond : sub64 (add64 M.hhdm pageSize) M.hhdm=pageSize := by
          simp only [pageSize] at hone ⊢
          rw [add64,sub64]
          omega
        rw [NsDevice.rwPrp2,hsecond]
        simp [NsDevice.rwPrp1]
    · rw [if_pos (Nat.not_le.mp htwo)] at hprps
      rw [if_neg htwo,hprps,h.described_list write hprps le_rfl,pagesOf_eq_iff]

theorem smallPages_le : 1024 ≤ 2^40 := by decide

theorem smallPages_window : 0xffff800000000000+1024*pageSize ≤ 2^64 := by decide

def smallMachine : Machine :=
  ⟨0xffff800000000000,1024,0xffffffff80000000,directMap_aligned,directMap_pos,smallPages_le,
    smallPages_window,slabArray_le⟩

def NsDevice.nvmeCreatequeue (d : NsDevice) (physregpgs : Nat) (entries : Nat → Nat) : NsDevice :=
  { d with cmdid := 0, physregpgs, entries }

/-- A namespace of 1000 LBAs with room for 256 pages a command, and its new queue. -/
def newQueue (lbasize : Nat) : NsDevice :=
  NsDevice.nvmeCreatequeue ⟨1,lbasize,1000,256,0,0,fun _ => 0⟩ 0xffff800000002000 (fun _ => 0)

/-- Four LBAs of a page each, in a buffer at the physical address 0x10000. -/
theorem prp_pages_iff_list : (newQueue 4096).prps 0 4=.list 3 ∧
    ((newQueue 4096).nvmeRwlba smallMachine 0xffff800000010000 0 4 false).2.described smallMachine
        ((newQueue 4096).nvmeRwlba smallMachine 0xffff800000010000 0 4 false).1 ((newQueue 4096).prps 0 4)=
      pagesOf smallMachine 0xffff800000010000 (4*4096) :=
  ⟨by decide,(prp_pages_iff smallMachine (newQueue 4096) 0xffff800000010000 0 4 false
    ⟨by decide,by decide,by decide,by decide,by decide,by decide,by decide,by decide⟩).mpr (by decide)⟩

/-- Four LBAs of 2048 bytes make two pages, and prp1 is not set: the first of them goes to the
physical address 0. -/
theorem prp1_not_set :
    (newQueue 2048).nvmeRwlba smallMachine 0xffff800000010000 0 4 false=
      (⟨2,1,0,3,0,0x11000⟩,{ newQueue 2048 with cmdid := 1 }) ∧
    (newQueue 2048).prps 0 4=.pages ∧
    (newQueue 2048).described smallMachine ⟨2,1,0,3,0,0x11000⟩ .pages=[0,0x11000] ∧
    pagesOf smallMachine 0xffff800000010000 (4*2048)=[0x10000,0x11000] :=
  ⟨rfl,by decide,rfl,by decide⟩

structure RwRequest where
  buf : Nat
  start : Nat
  count : Nat
  write : Bool

namespace NsDevice

variable (M : Machine)

def prpcount (d : NsDevice) (r : RwRequest) : Nat := (d.prps r.start r.count).prpcount

def writtenEntries (d : NsDevice) (r : RwRequest) : List Nat :=
  (List.range (d.prpcount r)).map (fun i => add64 i d.firstEntry)

def runEntries : NsDevice → List RwRequest → List Nat
  | _,[] => []
  | d,r::rs => d.writtenEntries r++runEntries (d.nvmeRwlba M r.buf r.start r.count r.write).2 rs

def run : NsDevice → List RwRequest → NsDevice
  | d,[] => d
  | d,r::rs => run (d.nvmeRwlba M r.buf r.start r.count r.write).2 rs

theorem fillEntries_of_notMem (d : NsDevice) (buf : Nat) {j : Nat}
    (hj : j∉(List.range n).map (fun i => add64 i d.firstEntry)) :
    d.fillEntries M buf n j=d.entries j := by
  induction n with
  | zero => rfl
  | succ n ih =>
    rw [List.range_succ,List.map_append,List.mem_append,not_or] at hj
    rw [fillEntries,update_of_ne (by simpa using hj.2)]
    exact ih hj.1

theorem run_entries (d : NsDevice) (rs : List RwRequest) {j : Nat} (hj : j∉d.runEntries M rs) :
    (d.run M rs).entries j=d.entries j := by
  induction rs generalizing d with
  | nil => rfl
  | cons r rs ih =>
    rw [runEntries,List.mem_append,not_or] at hj
    exact (ih _ hj.2).trans (d.fillEntries_of_notMem M r.buf hj.1)

theorem mem_runEntries (d : NsDevice) (hcid : d.cmdid < 2^32) (rs : List RwRequest) (j : Nat) :
    j∈d.runEntries M rs ↔ ∃ k r i, rs[k]?=some r ∧ i < d.prpcount r ∧
      j=add64 i (mul64 ((d.cmdid+k)%2^32) d.maxphysrpgs) := by
  induction rs generalizing d with
  | nil => simp [runEntries]
  | cons r rs ih =>
    have hnext := ih (d.nvmeRwlba M r.buf r.start r.count r.write).2 (Nat.mod_lt _ (by decide))
    have hnumber : ∀ k, ((d.cmdid+1)%2^32+k)%2^32=(d.cmdid+(k+1))%2^32 := by
      intro k
      rw [Nat.mod_add_mod,Nat.add_right_comm,Nat.add_assoc]
    have hfirst : d.firstEntry=mul64 ((d.cmdid+0)%2^32) d.maxphysrpgs := by
      rw [Nat.add_zero,Nat.mod_eq_of_lt hcid]
      rfl
    rw [runEntries,List.mem_append,hnext,writtenEntries,List.mem_map]
    constructor
    · rintro (⟨i,hi,rfl⟩ | ⟨k,r',i,hk,hi,rfl⟩)
      · exact ⟨0,r,i,rfl,List.mem_range.mp hi,by rw [hfirst]⟩
      · exact ⟨k+1,r',i,hk,hi,by rw [← hnumber]; rfl⟩
    · rintro ⟨k,r',i,hk,hi,rfl⟩
      cases k with
      | zero =>
        cases hk
        exact .inl ⟨i,List.mem_range.mpr hi,by rw [hfirst]⟩
      | succ k => exact .inr ⟨k,r',i,hk,hi,by rw [← hnumber]; rfl⟩

end NsDevice

theorem forall_add64_lt_iff {s bound : Nat} (hn : 0 < n) (hs : s < 2^64) :
    (∀ i < n, add64 i s < bound) ↔ min (s+n) (2^64) ≤ bound := by
  constructor
  · intro h
    have hlast := h (min n (2^64-s)-1) (by omega)
    rw [add64_eq (by omega)] at hlast
    omega
  · intro h i hi
    have hwrapped : add64 i s < 2^64 := Nat.mod_lt _ (by decide)
    have hle : add64 i s ≤ i+s := Nat.mod_le _ _
    omega

/-- Over any run of a new queue all indices are inside the table exactly if the slice of each
command with a list, by its number, ends inside it. -/
theorem physregpgs_bounded_iff (M : Machine) (ns : NsDevice) (physregpgs : Nat) (entries : Nat → Nat)
    (slots : Nat) (rs : List RwRequest) :
    (∀ j∈(ns.nvmeCreatequeue physregpgs entries).runEntries M rs, j < ns.maxphysrpgs*slots) ↔
      ∀ (k : Nat) (r : RwRequest), rs[k]?=some r → 0 < ns.prpcount r →
        min (mul64 (k%2^32) ns.maxphysrpgs+ns.prpcount r) (2^64) ≤ ns.maxphysrpgs*slots := by
  have hmem : ∀ j, j∈(ns.nvmeCreatequeue physregpgs entries).runEntries M rs ↔
      ∃ k r i, rs[k]?=some r ∧ i < ns.prpcount r ∧
        j=add64 i (mul64 ((0+k)%2^32) ns.maxphysrpgs) :=
    NsDevice.mem_runEntries M _ (by show 0 < 2^32; decide) rs
  simp only [Nat.zero_add] at hmem
  have hslice : ∀ k, mul64 (k%2^32) ns.maxphysrpgs < 2^64 := fun _ => Nat.mod_lt _ (by decide)
  constructor
  · intro h k r hk hpos
    refine (forall_add64_lt_iff hpos (hslice k)).mp ?_
    intro i hi
    exact h _ ((hmem _).mpr ⟨k,r,i,hk,hi,rfl⟩)
  · intro h j hj
    obtain ⟨k,r,i,hk,hi,rfl⟩ := (hmem j).mp hj
    exact (forall_add64_lt_iff (by omega) (hslice k)).mpr (h k r hk (by omega)) i hi

/-- With two slots the third command with a list is behind the table: its list begins at index
512, one past the last. -/
theorem physregpgs_third_command :
    512∈(newQueue 4096).runEntries smallMachine [⟨0xffff800000010000,0,4,false⟩,
      ⟨0xffff800000010000,4,4,false⟩,⟨0xffff800000010000,8,4,false⟩] ∧
    ¬512 < (newQueue 4096).maxphysrpgs*2 :=
  ⟨by decide,by decide⟩

end X64OS.Drivers
