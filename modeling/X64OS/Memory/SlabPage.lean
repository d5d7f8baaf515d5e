import X64OS.Memory.Slab

namespace X64OS.Memory

open Framework

/-- A free list in memory: each entry's first word points to the next one. -/
def FreeChain (m : Mem) : Nat → List Nat → Prop
  | head,[] => head=0
  | head,a::l => head=a ∧ 0 < a ∧ FreeChain m (m.read64 a).toNat l

theorem FreeChain.congr {m m' : Mem} {head : Nat} {l : List Nat} (h : FreeChain m head l)
    (hm : ∀ a∈l, m'.read64 a=m.read64 a) : FreeChain m' head l := by
  induction l generalizing head with
  | nil => exact h
  | cons a l ih =>
    obtain ⟨he,hp,ht⟩ := h
    refine ⟨he,hp,?_⟩
    rw [hm a (List.mem_cons_self)]
    exact ih ht (fun b hb => hm b (List.mem_cons_of_mem _ hb))

/-- Links at a fixed stride make a chain in address order. -/
theorem freeChain_stride (m : Mem) (arr ent n : Nat) (hpos : 0 < arr)
    (hnext : ∀ k, k < n → (m.read64 (arr+k*ent)).toNat=arr+(k+1)*ent)
    (hlast : (m.read64 (arr+n*ent)).toNat=0) :
    FreeChain m arr ((List.range (n+1)).map (fun k => arr+k*ent)) := by
  induction n generalizing arr with
  | zero => exact ⟨by simp,by simpa using hpos,by simpa [FreeChain] using hlast⟩
  | succ n ih =>
    rw [List.range_succ_eq_map,List.map_cons,List.map_map]
    have hstart : (m.read64 (arr+0*ent)).toNat=arr+ent := by
      rw [hnext 0 (Nat.succ_pos n)]
      ring
    have hshift : ∀ k, arr+ent+k*ent=arr+(k+1)*ent := by intro k; ring
    have htail := ih (arr+ent) (by omega) (by
      intro k hk
      rw [hshift,hshift]
      exact hnext (k+1) (by omega)) (by
      rw [hshift]
      exact hlast)
    refine ⟨by simp,by simpa using hpos,?_⟩
    rw [hstart]
    have hmap : (fun k => arr+ent+k*ent)=(fun k => arr+k*ent)∘Nat.succ := funext hshift
    rw [← hmap]
    exact htail

/-- The entry sizes for which a page holds a header and at least one entry. -/
structure EntOk (ent : Nat) : Prop where
  low : 8 ≤ ent
  high : ent ≤ 2048
  words : ent%8=0

variable {ent a p : Nat}

theorem headerOffset_eq (h : EntOk ent) : headerOffset ent=ent := by
  have hl := h.low
  have hh := h.high
  have hm : (8+(ent-1))%2^64=ent+7 := by omega
  have hd : (ent+7)/ent=1 := Nat.div_eq_of_lt_le (by omega) (by omega)
  rw [headerOffset,alignUp,divRoundup,hm,hd]
  omega

def Slot (p ent a : Nat) : Prop := ∃ k, 1 ≤ k ∧ (k+1)*ent ≤ pageSize ∧ a=p+k*ent

def slotsOf (p ent : Nat) : List Nat :=
  (List.range ((pageSize-ent)/ent)).map (fun k => p+ent+k*ent)

theorem mem_slotsOf (h : EntOk ent) : a∈slotsOf p ent ↔ Slot p ent a := by
  have hpos : 0 < ent := by have := h.low; omega
  have hle : ent ≤ pageSize := by have := h.high; simp only [pageSize]; omega
  have hcount (k : Nat) : k < (pageSize-ent)/ent ↔ (k+1+1)*ent ≤ pageSize := by
    rw [← Nat.succ_le_iff,Nat.le_div_iff_mul_le hpos,Nat.succ_eq_add_one,
      show (k+1+1)*ent=(k+1)*ent+ent by ring]
    omega
  constructor
  · intro ha
    obtain ⟨k,hk,rfl⟩ := List.mem_map.mp ha
    exact ⟨k+1,by omega,(hcount k).mp (List.mem_range.mp hk),by ring⟩
  · intro ha
    obtain ⟨k,hk,hb,rfl⟩ := ha
    have hs : k-1+1=k := by omega
    refine List.mem_map.mpr ⟨k-1,List.mem_range.mpr ((hcount _).mpr ?_),?_⟩
    · rw [hs]
      exact hb
    · calc
        p+ent+(k-1)*ent = p+(k-1+1)*ent := by ring
        _ = p+k*ent := by rw [hs]

theorem slotsOf_nodup (h : EntOk ent) : (slotsOf p ent).Nodup := by
  have hpos : 0 < ent := by have := h.low; omega
  apply List.Nodup.map _ List.nodup_range
  intro j k hjk
  have hm : j*ent=k*ent := by simpa using hjk
  exact Nat.eq_of_mul_eq_mul_right hpos hm

theorem Slot.inside (hs : Slot p ent a) : p+ent ≤ a ∧ a+ent ≤ p+pageSize := by
  obtain ⟨k,hk,hb,rfl⟩ := hs
  have hmul : 1*ent ≤ k*ent := Nat.mul_le_mul_right ent hk
  have hexp : (k+1)*ent=k*ent+ent := by ring
  omega

theorem Slot.page (h : EntOk ent) (hs : Slot p ent a) (hp : p%pageSize=0) :
    a/pageSize*pageSize=p ∧ a%pageSize≠0 := by
  have hi := hs.inside
  have hl := h.low
  simp only [pageSize] at hi hp ⊢
  omega

theorem Slot.separate {b : Nat} (ha : Slot p ent a) (hb : Slot p ent b) (hne : a≠b) :
    (⟨a,ent⟩ : Span).Separate ⟨b,ent⟩ := by
  obtain ⟨j,-,-,rfl⟩ := ha
  obtain ⟨k,-,-,rfl⟩ := hb
  have hjk : j≠k := by
    intro he
    exact hne (by rw [he])
  obtain hlt | hlt := Nat.lt_or_gt_of_ne hjk
  · apply Span.separate_of_le
    have hm : (j+1)*ent ≤ k*ent := Nat.mul_le_mul_right ent hlt
    have hexp : (j+1)*ent=j*ent+ent := by ring
    simp only [Span.stop]
    omega
  · apply Span.Separate.symm
    apply Span.separate_of_le
    have hm : (k+1)*ent ≤ j*ent := Nat.mul_le_mul_right ent hlt
    have hexp : (k+1)*ent=k*ent+ent := by ring
    simp only [Span.stop]
    omega

theorem sameOff_linkSlots (m : Mem) (arr fact n : Nat) (hf : 1 ≤ fact) :
    Mem.SameOff ⟨arr,8*(n*fact)⟩ m (linkSlots m arr fact n) := by
  induction n with
  | zero => exact fun x _ => rfl
  | succ n ih =>
    have hexp : (n+1)*fact=n*fact+fact := by ring
    apply (ih.widen _ _).trans ((Mem.sameOff_write64 _ _ _).widen _ _)
    all_goals omega

theorem read64_linkSlots (m : Mem) (arr fact n k : Nat) (hf : 1 ≤ fact) (hk : k < n) :
    (linkSlots m arr fact n).read64 (arr+8*(k*fact))=BitVec.ofNat 64 (arr+8*((k+1)*fact)) := by
  induction n with
  | zero => omega
  | succ n ih =>
    rw [linkSlots]
    obtain rfl | hlt := Nat.eq_or_lt_of_le (Nat.le_of_lt_succ hk)
    · rw [Mem.read64_write64]
    · have hm : (k+1)*fact ≤ n*fact := Nat.mul_le_mul_right fact hlt
      have hexp : (k+1)*fact=k*fact+fact := by ring
      rw [Mem.read64_write64_of_le _ _ _ _ (by omega)]
      exact ih hlt

section

variable {m : Mem} {page slab : Nat} (h : EntOk ent)

include h

private theorem words_mul (k : Nat) : 8*(k*(ent/8))=k*ent := by
  have hw := h.words
  have he : 8*(ent/8)=ent := by omega
  calc
    8*(k*(ent/8)) = k*(8*(ent/8)) := by ring
    _ = k*ent := by rw [he]

private theorem slot_count : ∃ n, (pageSize-ent)/ent=n+1 ∧ (n+1)*ent+ent ≤ pageSize := by
  have hl := h.low
  have hh := h.high
  have hone : 1 ≤ (pageSize-ent)/ent := by
    rw [Nat.le_div_iff_mul_le (by omega)]
    simp only [pageSize]
    omega
  refine ⟨(pageSize-ent)/ent-1,by omega,?_⟩
  have hm := Nat.div_mul_le_self (pageSize-ent) ent
  rw [Nat.sub_add_cancel hone]
  simp only [pageSize] at hm ⊢
  omega

theorem sameOff_threadPage : Mem.SameOff ⟨page,pageSize⟩ m (threadPage m page slab ent) := by
  obtain ⟨n,hn,hroom⟩ := slot_count h
  have hl := h.low
  have hexp : (n+1)*ent=n*ent+ent := by ring
  unfold threadPage
  rw [headerOffset_eq h,hn]
  simp only [Nat.add_sub_cancel,words_mul h]
  have hlinks := sameOff_linkSlots (m.write64 page (BitVec.ofNat 64 slab)) (page+ent) (ent/8) n
    (by omega)
  rw [words_mul h] at hlinks
  apply (((Mem.sameOff_write64 _ _ _).widen _ _).trans (hlinks.widen _ _)).trans
    ((Mem.sameOff_write64 _ _ _).widen _ _)
  all_goals
    simp only [pageSize] at hroom ⊢
    omega

theorem read64_threadPage_header :
    (threadPage m page slab ent).read64 page=BitVec.ofNat 64 slab := by
  obtain ⟨n,hn,hroom⟩ := slot_count h
  have hl := h.low
  unfold threadPage
  rw [headerOffset_eq h,hn]
  simp only [Nat.add_sub_cancel,words_mul h]
  rw [Mem.read64_write64_of_le _ _ _ _ (by omega)]
  have hlinks := sameOff_linkSlots (m.write64 page (BitVec.ofNat 64 slab)) (page+ent) (ent/8) n
    (by omega)
  rw [hlinks.read64 page,Mem.read64_write64]
  apply Span.Separate.symm
  apply Span.separate_of_le
  simp only [Span.stop]
  omega

theorem freeChain_threadPage (hpage : page+pageSize ≤ 2^64) :
    FreeChain (threadPage m page slab ent) (page+ent) (slotsOf page ent) := by
  obtain ⟨n,hn,hroom⟩ := slot_count h
  have hl := h.low
  unfold slotsOf threadPage
  rw [headerOffset_eq h,hn]
  simp only [Nat.add_sub_cancel,words_mul h]
  apply freeChain_stride
  · omega
  · intro k hk
    have hle : (k+1)*ent ≤ n*ent := Nat.mul_le_mul_right ent hk
    have hexp : (k+1)*ent=k*ent+ent := by ring
    have hexp' : (n+1)*ent=n*ent+ent := by ring
    have hread := read64_linkSlots (m.write64 page (BitVec.ofNat 64 slab)) (page+ent) (ent/8) n k
      (by omega) hk
    rw [words_mul h,words_mul h] at hread
    rw [Mem.read64_write64_of_le _ _ _ _ (by omega),hread,BitVec.toNat_ofNat,Nat.mod_eq_of_lt]
    simp only [pageSize] at hroom hpage
    omega
  · rw [Mem.read64_write64]
    rfl

theorem slotsOf_ordered : (slotsOf page ent).Pairwise (fun a b =>
    a < b ∧ (⟨a,ent⟩ : Span).Separate ⟨b,ent⟩) := by
  have hl := h.low
  apply List.Pairwise.map _ _ List.pairwise_lt_range
  intro j k hjk
  have hm : (j+1)*ent ≤ k*ent := Nat.mul_le_mul_right ent hjk
  have hexp : (j+1)*ent=j*ent+ent := by ring
  refine ⟨by omega,?_⟩
  apply Span.separate_of_le
  simp only [Span.stop]
  omega

end

/-- 8, the size of struct slab_header, rounded up to a multiple of ent_size. -/
def headerSize (ent : Nat) : Nat := (8+(ent-1))/ent*ent

theorem headerSize_eq (h : EntOk ent) : headerSize ent=ent := by
  have hl := h.low
  have hd : (8+(ent-1))/ent=1 := Nat.div_eq_of_lt_le (by omega) (by omega)
  rw [headerSize,hd,Nat.one_mul]

/-- create_slab with a page from pmm_alloc_nozero: from first_free on, each entry points to the
next one up to a null, in address order. The entries lie in the page behind its header, apart from
each other, and none of them at the start of a page. -/
theorem create_slab_threads {M : Machine} {P : Type} (A : PageAllocator M P) (h : Heap P)
    (hv : A.Valid h.ram.pmm) (i : Fin 10) (ent : Nat) (hpos : 0 < ent) (hwords : ent%8=0)
    (hle : ent ≤ 2048) (phys : Nat) (r : Ram P)
    (halloc : pmmAllocNozero A h.ram 1=some (phys,r)) :
    ∃ h' slots, createSlab A h i ent=some h' ∧
      slots=(List.range ((4096-headerSize ent)/ent)).map
        (fun k => phys+M.hhdm+headerSize ent+k*ent) ∧
      FreeChain h'.ram.mem (h'.slabs i).firstFree slots ∧
      slots.Pairwise (fun a b => a < b ∧ (⟨a,ent⟩ : Span).Separate ⟨b,ent⟩) ∧
      (∀ a∈slots, phys+M.hhdm+8 ≤ a ∧ a+ent ≤ phys+M.hhdm+4096 ∧ a%4096≠0) ∧
      h'.ram.mem.read64 (phys+M.hhdm)=BitVec.ofNat 64 (slabAddr M i) := by
  have hok : EntOk ent := ⟨by omega,hle,hwords⟩
  have hg := pmmAllocNozero_granted hv le_rfl halloc
  obtain ⟨haligned,-,hend⟩ := hg.base
  refine ⟨_,slotsOf (phys+M.hhdm) ent,Option.map_eq_some_iff.mpr ⟨_,halloc,rfl⟩,?_,?_,
    slotsOf_ordered hok,?_,?_⟩
  · rw [headerSize_eq hok]
    rfl
  · dsimp only
    rw [Function.update_self,headerOffset_eq hok]
    exact freeChain_threadPage hok hend
  · intro a ha
    have hslot := (mem_slotsOf hok).mp ha
    obtain ⟨hlow,hhigh⟩ := hslot.inside
    have hent := hok.low
    exact ⟨by omega,hhigh,(hslot.page hok haligned).2⟩
  · exact read64_threadPage_header hok

def slabMachine : Machine :=
  ⟨0xffff800000000000,16,0xffffffff80000000,directMap_aligned,directMap_pos,
    sixteenPages_le,sixteenPages_window,slabArray_le⟩

/-- Slabs before slab_init, on a machine whose next page is the first one. -/
def emptyHeap : Heap Nat := ⟨⟨fun _ => 0,1⟩,fun _ => ⟨0,0⟩,0⟩

/-- Entries of 48 bytes: 84 of them, with 16 bytes left at the end of the page. -/
theorem create_slab_threads_forty_eight : ∃ h' slots,
    createSlab (bumpPages slabMachine) emptyHeap 4 48=some h' ∧
    slots=(List.range 84).map (fun k => 4096+slabMachine.hhdm+48+k*48) ∧
    FreeChain h'.ram.mem (h'.slabs 4).firstFree slots := by
  obtain ⟨h',slots,hcreate,hslots,hchain,-⟩ :=
    create_slab_threads (bumpPages slabMachine) emptyHeap Nat.one_pos 4 48 (by decide) (by decide)
      (by decide) 4096 _ rfl
  exact ⟨h',slots,hcreate,hslots,hchain⟩

end X64OS.Memory
