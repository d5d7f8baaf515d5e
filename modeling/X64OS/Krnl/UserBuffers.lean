import X64OS.Krnl.Syscalls
import X64OS.Memory.MmapProtection

namespace X64OS.Krnl

open Framework Memory Function

variable {M : Machine} {P : Type} {A : PageAllocator M P}
variable {r : Ram P} {T : List Table} {top : Nat}

/-- MAGIC_TEXT with its final zero. -/
def magicText : List (BitVec 8) :=
  "This program is only for x64OS. Please use x64OS to run this program.\n".toList.map
    (fun c => BitVec.ofNat 8 c.toNat)++[0]

def strcmpIsZero (m : Mem) : List (BitVec 8) → BitVec 64 → Bool
  | [],_ => true
  | c1::s1,s2 =>
    if c1≠m s2.toNat then false else if c1=0 then true else strcmpIsZero m s1 (s2+1)

def pointee (m : Mem) (p : BitVec 64) : Mem := fun j => m (p+BitVec.ofNat 64 j).toNat

def bytesAt (m : Mem) (p : BitVec 64) (n : Nat) : List (BitVec 8) := (List.range n).map (pointee m p)

section

variable (A) (r : Ram P) (top : Nat)

/-- USERSPACE_ADDR_TO_KRNL for a thread with the pagemap of this top level. -/
def userspaceAddrToKrnl (addr : BitVec 64) : BitVec 64 :=
  (vmmVirt2phys A r top addr).getD invalidPhys

/-- What HandleSyscall reads of memory and of the page tables. -/
def syscallEnv (heapStart : BitVec 64) (pid : BitVec 32) : SyscallEnv where
  virt2phys := userspaceAddrToKrnl A r top
  higherHalf := word M.hhdm
  hhdm := word M.hhdm
  isMagicText := strcmpIsZero r.mem magicText
  heapStart := heapStart
  pid := pid

def krnlAddr (p : BitVec 64) : BitVec 64 := userspaceAddrToKrnl A r top p+word M.hhdm

def userMem : Mem := fun x => r.mem (krnlAddr A r top (word x)).toNat

end

/-- What a system call write hands to the write operation of an open file. -/
def passed (m : Mem) : Handler → List (List (BitVec 8))
  | .syscallWrite _ buf count => [bytesAt m buf count.toNat]
  | _ => []

/-- The frames of a buffer follow each other as its pages do. -/
def Contiguous (A : PageAllocator M P) (r : Ram P) (top : Nat) (p : BitVec 64) (n : Nat) : Prop :=
  ∀ j < n, krnlAddr A r top (p+BitVec.ofNat 64 j)=krnlAddr A r top p+BitVec.ofNat 64 j

instance decidableContiguous (p : BitVec 64) (n : Nat) : Decidable (Contiguous A r top p n) :=
  inferInstanceAs (Decidable (∀ j < n, _))

@[simp] theorem bytesAt_length (m : Mem) (p : BitVec 64) (n : Nat) : (bytesAt m p n).length=n := by
  rw [bytesAt,List.length_map,List.length_range]

theorem pointee_userMem (p : BitVec 64) (j : Nat) : pointee (userMem A r top) p j=
    r.mem (krnlAddr A r top (p+BitVec.ofNat 64 j)).toNat := by
  rw [pointee,userMem,word,BitVec.ofNat_toNat,BitVec.setWidth_eq]

variable {j : Nat}

namespace Contiguous

variable {p : BitVec 64} {n : Nat}

variable (h : Contiguous A r top p n)
include h

theorem pointee_eq (hj : j < n) :
    pointee r.mem (krnlAddr A r top p) j=pointee (userMem A r top) p j := by
  rw [pointee_userMem,h j hj,pointee]

theorem bytesAt_eq : bytesAt r.mem (krnlAddr A r top p) n=bytesAt (userMem A r top) p n :=
  List.map_congr_left (fun _ hj => h.pointee_eq (List.mem_range.mp hj))

theorem read64_eq {a : Nat} (ha : a+8 ≤ n) :
    (pointee r.mem (krnlAddr A r top p)).read64 a=(pointee (userMem A r top) p).read64 a := by
  apply Mem.read64_congr
  intro x hx
  rw [Span.mem_mk] at hx
  exact h.pointee_eq (by omega)

end Contiguous

section Contents

variable {r' : Ram P} {m : Mem}

def tablePlaces (T : List Table) : Set Nat := {x | ∃ t∈T, x∈t.span}

theorem entry_congr (hm : Set.EqOn m r.mem (tablePlaces T)) {u : Table} (hu : u∈T) (hj : j < 512) :
    entry m u.base j=entry r.mem u.base j := by
  apply Mem.read64_congr
  exact fun x hx => hm ⟨u,hu,Forest.entry_inside hj x hx⟩

theorem forest_eqOn (hf : Forest A r T) (hm : Set.EqOn r'.mem r.mem (tablePlaces T))
    (hp : r'.pmm=r.pmm) : Forest A r' T := by
  have hcongr : Forest A ⟨r'.mem,r.pmm⟩ T := hf.congr (fun _ hu _ _ hj => entry_congr hm hu hj)
  rw [← hp] at hcongr
  exact hcongr

theorem krnlAddr_congr (hf : Forest A r T) (ht : ⟨top,3⟩∈T)
    (hm : Set.EqOn r'.mem r.mem (tablePlaces T)) (p : BitVec 64) :
    krnlAddr A r' top p=krnlAddr A r top p := by
  have hf' : Forest A ⟨r'.mem,r.pmm⟩ T := forest_eqOn hf hm rfl
  rw [krnlAddr,krnlAddr,userspaceAddrToKrnl,userspaceAddrToKrnl,vmmVirt2phys_pmm r' r.pmm,
    vmmVirt2phys_eq hf' ht,vmmVirt2phys_eq hf ht,
    hf.view_congr (fun _ hu _ hj => entry_congr hm hu hj) le_rfl ht rfl]

theorem eqOn_update {fixed : Set Nat} {x : Nat} (hx : x∉fixed) (m : Mem) (value : BitVec 8) :
    Set.EqOn (update m x value) m fixed := by
  intro y hy
  refine update_of_ne ?_ _ _
  rintro rfl
  exact hx hy

variable {buf count : BitVec 64}

/-- Bytes that are read right whatever lies in a buffer are read at the places of the buffer.
One byte z of memory need not take every value. -/
theorem read_place (fixed : Set Nat) (hkrnl : ∀ m, Set.EqOn m r.mem fixed →
      ∀ p, krnlAddr A ⟨m,r.pmm⟩ top p=krnlAddr A r top p) {z : Nat} {avoid : BitVec 8}
    (hz : r.mem z≠avoid) {ptr : BitVec 64} {n : Nat}
    (hdata : ∀ j < n, (krnlAddr A r top (buf+BitVec.ofNat 64 j)).toNat∉fixed)
    (h : ∀ m, Set.EqOn m r.mem fixed → m z≠avoid →
      bytesAt m ptr n=bytesAt (userMem A ⟨m,r.pmm⟩ top) buf n) (hj : j < n) :
    ptr+BitVec.ofNat 64 j=krnlAddr A r top (buf+BitVec.ofNat 64 j) := by
  by_contra hne
  have hplace : (ptr+BitVec.ofNat 64 j).toNat≠(krnlAddr A r top (buf+BitVec.ofNat 64 j)).toNat :=
    fun heq => hne (BitVec.eq_of_toNat_eq heq)
  -- a byte of the buffer that differs from the one that is read
  obtain ⟨value,hvalue,havoid⟩ :
      ∃ value, r.mem (ptr+BitVec.ofNat 64 j).toNat≠value ∧ value≠avoid := by
    generalize r.mem (ptr+BitVec.ofNat 64 j).toNat=old
    by_cases hold : old+1=avoid
    · exact ⟨old+2,by bv_omega,by bv_omega⟩
    · exact ⟨old+1,by bv_omega,hold⟩
  have hm := eqOn_update (hdata j hj) r.mem value
  have hz' : update r.mem (krnlAddr A r top (buf+BitVec.ofNat 64 j)).toNat value z≠avoid := by
    rw [update_apply]
    split
    · exact havoid
    · exact hz
  have hbyte := List.map_inj_left.mp (h _ hm hz') j (List.mem_range.mpr hj)
  rw [pointee_userMem,hkrnl _ hm,pointee,update_of_ne hplace] at hbyte
  exact hvalue (hbyte.trans (update_self _ _ _))

def IsMagic (A : PageAllocator M P) (r : Ram P) (top : Nat) (buf count : BitVec 64) : Prop :=
  count=magicTextSize ∧ strcmpIsZero r.mem magicText (krnlAddr A r top buf)=true

theorem passed_write (heapStart : BitVec 64) (pid : BitVec 32)
    (arg1 buf count arg4 arg5 arg6 : BitVec 64) :
    (IsMagic A r top buf count → passed r.mem (handleSyscall (syscallEnv A r top heapStart pid)
        ⟨1,arg1,buf,count,arg4,arg5,arg6⟩)=[]) ∧
    (¬IsMagic A r top buf count → passed r.mem (handleSyscall (syscallEnv A r top heapStart pid)
        ⟨1,arg1,buf,count,arg4,arg5,arg6⟩)=
      [bytesAt r.mem (krnlAddr A r top (krnlAddr A r top buf)) count.toNat]) := by
  unfold IsMagic
  change (_ → passed _ (if count=magicTextSize ∧
      strcmpIsZero r.mem magicText (krnlAddr A r top buf)=true then _ else _)=_) ∧
    (_ → passed _ (if count=magicTextSize ∧
      strcmpIsZero r.mem magicText (krnlAddr A r top buf)=true then _ else _)=_)
  constructor
  · intro hmagic
    rw [if_pos hmagic]
    rfl
  · intro hmagic
    rw [if_neg hmagic]
    rfl

theorem IsMagic.head (h : IsMagic A r top buf count) :
    r.mem (krnlAddr A r top buf).toNat=0x54#8 := by
  by_contra hne
  have hcmp := h.2
  rw [show magicText=0x54#8::magicText.tail by decide,strcmpIsZero,if_pos (Ne.symm hne)] at hcmp
  exact absurd hcmp (by decide)

/-- The buffer of write is in the direct map, and its frames follow each other. -/
def WritePlaces (A : PageAllocator M P) (r : Ram P) (top : Nat) (buf count : BitVec 64) : Prop :=
  (count≠0 → krnlAddr A r top (krnlAddr A r top buf)=krnlAddr A r top buf) ∧
    Contiguous A r top buf count.toNat

instance decidableWritePlaces (buf count : BitVec 64) : Decidable (WritePlaces A r top buf count) :=
  inferInstanceAs (Decidable ((_ → _) ∧ _))

theorem WritePlaces.bytesAt_eq (hf : Forest A r T) (ht : ⟨top,3⟩∈T)
    (h : WritePlaces A r top buf count) (hm : Set.EqOn r'.mem r.mem (tablePlaces T)) :
    bytesAt r'.mem (krnlAddr A r' top (krnlAddr A r' top buf)) count.toNat=
      bytesAt (userMem A r' top) buf count.toNat := by
  have haddr := krnlAddr_congr hf ht hm
  have hcont : Contiguous A r' top buf count.toNat := by
    intro j hj
    rw [haddr,haddr]
    exact h.2 j hj
  rw [← hcont.bytesAt_eq,haddr,haddr]
  by_cases hz : count=0
  · rw [hz,BitVec.ofNat_eq_ofNat,BitVec.toNat_zero,bytesAt,bytesAt,List.range_zero,List.map_nil,
      List.map_nil]
  · rw [h.1 hz]

variable (hf : Forest A r T) (ht : ⟨top,3⟩∈T)
  (hdata : ∀ j < count.toNat, (krnlAddr A r top (buf+BitVec.ofNat 64 j)).toNat∉tablePlaces T)
include hf ht hdata

theorem writePlaces_of_bytesAt
    (h : ∀ m, Set.EqOn m r.mem (tablePlaces T) → ¬IsMagic A ⟨m,r.pmm⟩ top buf count →
      bytesAt m (krnlAddr A ⟨m,r.pmm⟩ top (krnlAddr A ⟨m,r.pmm⟩ top buf)) count.toNat=
        bytesAt (userMem A ⟨m,r.pmm⟩ top) buf count.toNat) : WritePlaces A r top buf count := by
  by_cases hc : count=0
  · rw [hc]
    exact ⟨fun hne => absurd rfl hne,fun j hj => absurd hj (Nat.not_lt_zero j)⟩
  have hpos := BitVec.toNat_pos_of_ne_zero hc
  have hfirst := hdata 0 hpos
  rw [BitVec.add_zero] at hfirst
  -- contents with another first letter are not taken for MAGIC_TEXT
  have hstart : Set.EqOn (update r.mem (krnlAddr A r top buf).toNat 0) r.mem
      (tablePlaces T) := eqOn_update hfirst r.mem 0
  have hkrnl : ∀ m, Set.EqOn m (update r.mem (krnlAddr A r top buf).toNat 0)
      (tablePlaces T) → ∀ p, krnlAddr A ⟨m,r.pmm⟩ top p=krnlAddr A r top p :=
    fun m hm p => krnlAddr_congr hf ht (hm.trans hstart) p
  have hplace : ∀ j < count.toNat, krnlAddr A r top (krnlAddr A r top buf)+BitVec.ofNat 64 j=
      krnlAddr A r top (buf+BitVec.ofNat 64 j) := by
    intro j hj
    have hsame := hkrnl _ (Set.eqOn_refl _ _)
    have hread : krnlAddr A r top (krnlAddr A r top buf)+BitVec.ofNat 64 j=
        krnlAddr A ⟨update r.mem (krnlAddr A r top buf).toNat 0,r.pmm⟩ top
          (buf+BitVec.ofNat 64 j) := by
      refine read_place (tablePlaces T) (fun m hm p => ?_) (z := (krnlAddr A r top buf).toNat)
        (show update r.mem _ 0 _≠0x54#8 by rw [update_self]; decide)
        (fun j hj => ?_) (fun m hm hz => ?_) hj
      · exact (hkrnl m hm p).trans (hsame p).symm
      · rw [hsame]
        exact hdata j hj
      · have hbytes := h m (hm.trans hstart) (fun hmagic => hz ?_)
        · rw [hkrnl m hm,hkrnl m hm] at hbytes
          exact hbytes
        · rw [← hkrnl m hm]
          exact hmagic.head
    rw [hread,hsame]
  have hdirect := hplace 0 hpos
  rw [BitVec.add_zero,BitVec.add_zero] at hdirect
  refine ⟨fun _ => hdirect,fun j hj => ?_⟩
  rw [← hplace j hj,hdirect]

theorem write_faithful_iff (heapStart : BitVec 64) (pid : BitVec 32)
    (arg1 arg4 arg5 arg6 : BitVec 64) :
    (∀ m, Set.EqOn m r.mem (tablePlaces T) →
      (passed m (handleSyscall (syscallEnv A ⟨m,r.pmm⟩ top heapStart pid)
          ⟨1,arg1,buf,count,arg4,arg5,arg6⟩)=
          [bytesAt (userMem A ⟨m,r.pmm⟩ top) buf count.toNat] ↔
        ¬IsMagic A ⟨m,r.pmm⟩ top buf count)) ↔
      WritePlaces A r top buf count := by
  constructor
  · intro h
    refine writePlaces_of_bytesAt hf ht hdata (fun m hm hmagic => ?_)
    have hpassed := (h m hm).mpr hmagic
    rw [(passed_write (r := ⟨m,r.pmm⟩) heapStart pid arg1 buf count arg4 arg5 arg6).2 hmagic]
      at hpassed
    exact List.singleton_inj.mp hpassed
  · intro h m hm
    constructor
    · intro hpassed hmagic
      rw [(passed_write (r := ⟨m,r.pmm⟩) heapStart pid arg1 buf count arg4 arg5 arg6).1 hmagic]
        at hpassed
      exact List.cons_ne_nil _ _ hpassed.symm
    · intro hmagic
      rw [(passed_write (r := ⟨m,r.pmm⟩) heapStart pid arg1 buf count arg4 arg5 arg6).2 hmagic]
      exact congrArg (fun b => [b]) (h.bytesAt_eq hf ht hm)

end Contents

def mappedPages : List (Nat × Nat) → Option (MmapState bumpMachine Nat)
  | [] => some processState
  | (virt,phys)::pages => (mappedPages pages).bind (fun s =>
    (mapOver (bumpPages bumpMachine) s (some 0) virt phys (ptePresent ||| pteWritable)).map
      (fun x => x.2))

theorem mappedPages_rooted {pages : List (Nat × Nat)} {s : MmapState bumpMachine Nat}
    (h : mappedPages pages=some s) :
    s.tops=processState.tops ∧ ∃ T, Rooted (bumpPages bumpMachine) s T := by
  induction pages generalizing s with
  | nil =>
    cases h
    exact ⟨rfl,_,processState_booted.toRooted⟩
  | cons page pages ih =>
    obtain ⟨s₁,h₁,h⟩ := Option.bind_eq_some_iff.mp h
    obtain ⟨⟨ok,s₂⟩,hm,rfl⟩ := Option.map_eq_some_iff.mp h
    obtain ⟨htops,T,hr⟩ := ih h₁
    obtain ⟨-,-,T',r',-,rfl,hr',-⟩ := mapOver_entry hr hm
    exact ⟨htops,T',hr'⟩

def framePages (second : Nat) : List (Nat × Nat) :=
  [(0x80000000000,600*pageSize),(0x80000001000,second*pageSize),
    (bumpMachine.hhdm+600*pageSize,600*pageSize)]

end X64OS.Krnl
