import X64OS.Memory.SlabInvariant

namespace X64OS.Memory

open Framework Function

variable {M : Machine} {P : Type} {A : PageAllocator M P}
variable {i : Fin 10}

namespace HeapInv

variable {h : Heap P} {live : List Block} {L : Layout}
variable {a n phys : Nat} {r : Ram P}

section
variable (hi : HeapInv A h live L)
include hi

theorem addSlot {size : Nat} (hs : SlotIn L i a) (hn : a∉L.free i) (hd : ∀ b∈live, b.addr≠a)
    (hsize : size ≤ entOf i) : HeapInv A h (⟨a,size,some i⟩::live) L := by
  refine ⟨hi.valid,hi.ents,hi.pageBase,hi.pageUsed,hi.pageApart,hi.header,hi.chain,hi.freeNodup,
    hi.freeSlot,?_,?_,?_,?_,?_,?_,?_,?_⟩
  · intro b hb j hk
    obtain rfl | hb := List.mem_cons.mp hb
    · cases hk
      exact ⟨hs,hsize⟩
    · exact hi.liveSlot b hb j hk
  · intro j c hc b hb hk he
    obtain rfl | hb := List.mem_cons.mp hb
    · cases hk
      change a=c at he
      exact hn (by rw [he]; exact hc)
    · exact hi.freeNotLive j c hc b hb hk he
  · exact List.pairwise_cons.mpr ⟨fun b hb he => hd b hb he.symm,hi.distinct⟩
  · intro b hb hk
    obtain rfl | hb := List.mem_cons.mp hb
    · cases hk
    · exact hi.bigBase b hb hk
  · intro b hb hk
    obtain rfl | hb := List.mem_cons.mp hb
    · cases hk
    · exact hi.bigMeta b hb hk
  · intro b hb hk
    obtain rfl | hb := List.mem_cons.mp hb
    · cases hk
    · exact hi.bigUsed b hb hk
  · refine List.pairwise_cons.mpr ⟨?_,hi.bigApart⟩
    intro b _ hk
    cases hk
  · intro p hp b hb hk
    obtain rfl | hb := List.mem_cons.mp hb
    · cases hk
    · exact hi.bigPage p hp b hb hk

theorem relist (i : Fin 10) {first : Nat} {l : List Nat} (hc : FreeChain h.ram.mem first l)
    (hnd : l.Nodup) (hs : ∀ a∈l, SlotIn L i a) (hn : ∀ a∈l, ∀ b∈live, b.kind=some i → b.addr≠a) :
    HeapInv A { h with slabs := update h.slabs i ⟨first,(h.slabs i).entSize⟩ } live
      { L with free := update L.free i l } := by
  have hsplit {p : Fin 10 → List Nat → Prop} (h1 : p i l) (h2 : ∀ j, j≠i → p j (L.free j)) :
      ∀ j, p j (update L.free i l j) := by
    intro j
    by_cases hj : j=i
    · subst hj
      rw [update_self]
      exact h1
    · rw [update_of_ne hj]
      exact h2 j hj
  refine ⟨hi.valid,?_,hi.pageBase,hi.pageUsed,hi.pageApart,hi.header,?_,
    hsplit (p := fun _ l => l.Nodup) hnd (fun j _ => hi.freeNodup j),
    hsplit (p := fun j l => ∀ a∈l, SlotIn L j a) hs (fun j _ => hi.freeSlot j),hi.liveSlot,
    hsplit (p := fun j l => ∀ a∈l, ∀ b∈live, b.kind=some j → b.addr≠a) hn
      (fun j _ => hi.freeNotLive j),
    hi.distinct,hi.bigBase,hi.bigMeta,hi.bigUsed,hi.bigApart,hi.bigPage⟩
  · intro j
    dsimp only
    by_cases hj : j=i
    · subst hj
      rw [update_self]
      exact hi.ents j
    · rw [update_of_ne hj]
      exact hi.ents j
  · intro j
    dsimp only
    by_cases hj : j=i
    · subst hj
      rw [update_self,update_self]
      exact hc
    · rw [update_of_ne hj,update_of_ne hj]
      exact hi.chain j

theorem addBig {b : Block} (hk : b.kind=none)
    (hbase : b.addr%pageSize=0 ∧ M.hhdm+pageSize < b.addr ∧
      b.addr+divRoundup b.size 4096*pageSize ≤ 2^64 ∧ b.size+4095 < 2^64 ∧ 1 ≤ divRoundup b.size 4096)
    (hmeta : metaPages h b.addr=divRoundup b.size 4096 ∧ metaSize h b.addr=b.size)
    (hused : ∀ x∈b.region, A.inUse h.ram.pmm ((x-M.hhdm)/pageSize))
    (hpages : ∀ p∈L.pages, (pageSpan p).Separate b.region)
    (hbig : ∀ c∈live, c.kind=none → b.region.Separate c.region) (hd : ∀ c∈live, c.addr≠b.addr) :
    HeapInv A h (b::live) L := by
  refine ⟨hi.valid,hi.ents,hi.pageBase,hi.pageUsed,hi.pageApart,hi.header,hi.chain,hi.freeNodup,
    hi.freeSlot,?_,?_,?_,?_,?_,?_,?_,?_⟩
  · intro c hc j hkc
    obtain rfl | hc := List.mem_cons.mp hc
    · rw [hk] at hkc
      cases hkc
    · exact hi.liveSlot c hc j hkc
  · intro j a ha c hc hkc
    obtain rfl | hc := List.mem_cons.mp hc
    · rw [hk] at hkc
      cases hkc
    · exact hi.freeNotLive j a ha c hc hkc
  · exact List.pairwise_cons.mpr ⟨fun c hc he => hd c hc he.symm,hi.distinct⟩
  · intro c hc hkc
    obtain rfl | hc := List.mem_cons.mp hc
    · exact hbase
    · exact hi.bigBase c hc hkc
  · intro c hc hkc
    obtain rfl | hc := List.mem_cons.mp hc
    · exact hmeta
    · exact hi.bigMeta c hc hkc
  · intro c hc hkc
    obtain rfl | hc := List.mem_cons.mp hc
    · exact hused
    · exact hi.bigUsed c hc hkc
  · exact List.pairwise_cons.mpr ⟨fun c hc _ hkc => hbig c hc hkc,hi.bigApart⟩
  · intro p hp c hc hkc
    obtain rfl | hc := List.mem_cons.mp hc
    · exact hpages p hp
    · exact hi.bigPage p hp c hc hkc

theorem repage {p : P} (hv : A.Valid p)
    (hpages : ∀ q∈L.pages, ∀ x∈pageSpan q, A.inUse p ((x-M.hhdm)/pageSize))
    (hbig : ∀ b∈live, b.kind=none → ∀ x∈b.region, A.inUse p ((x-M.hhdm)/pageSize)) :
    HeapInv A { h with ram := ⟨h.ram.mem,p⟩ } live L :=
  ⟨hv,hi.ents,hi.pageBase,hpages,hi.pageApart,hi.header,hi.chain,hi.freeNodup,hi.freeSlot,
    hi.liveSlot,hi.freeNotLive,hi.distinct,hi.bigBase,hi.bigMeta,hbig,hi.bigApart,hi.bigPage⟩

theorem recount (n : BitVec 64) : HeapInv A { h with usedRam := n } live L :=
  ⟨hi.valid,hi.ents,hi.pageBase,hi.pageUsed,hi.pageApart,hi.header,hi.chain,hi.freeNodup,
    hi.freeSlot,hi.liveSlot,hi.freeNotLive,hi.distinct,hi.bigBase,hi.bigMeta,hi.bigUsed,
    hi.bigApart,hi.bigPage⟩

theorem fresh_pages (hg : Granted A h.ram r phys n) :
    (∀ p∈L.pages, (mapped M phys n).Separate (pageSpan p)) ∧
    (∀ b∈live, b.kind=none → (mapped M phys n).Separate b.region) :=
  ⟨fun p hp => hg.separate _ (hi.pageUsed p hp),fun b hb hk => hg.separate _ (hi.bigUsed b hb hk)⟩

theorem fresh_clear (hg : Granted A h.ram r phys n) : Clear live L (mapped M phys n) := by
  obtain ⟨hp,hb⟩ := hi.fresh_pages hg
  refine ⟨?_,?_,?_⟩
  · intro p hpm
    apply (hp p hpm).mono (fun _ hx => hx)
    intro x hx
    rw [Span.mem_mk] at hx
    rw [pageSpan,Span.mem_mk]
    simp only [pageSize]
    omega
  · intro i a ha
    obtain ⟨p,hpm,hs⟩ := hi.freeSlot i a ha
    exact (hp _ hpm).mono (fun _ hx => hx) (fun x hx => slot_inside hs x (link_le i a x hx))
  · intro b hbm hk
    exact (hb b hbm hk).mono (fun _ hx => hx) (hi.meta_le hbm hk)

theorem addPage {page : Nat} (hbase : page%pageSize=0 ∧ M.hhdm ≤ page ∧ page+pageSize ≤ 2^64)
    (hused : ∀ x∈pageSpan (page,i), A.inUse h.ram.pmm ((x-M.hhdm)/pageSize))
    (hpages : ∀ q∈L.pages, (pageSpan (page,i)).Separate (pageSpan q))
    (hhead : h.ram.mem.read64 page=BitVec.ofNat 64 (slabAddr M i))
    (hbig : ∀ b∈live, b.kind=none → (pageSpan (page,i)).Separate b.region) :
    HeapInv A h live { L with pages := (page,i)::L.pages } := by
  have hmono {j : Fin 10} {a : Nat} (hs : SlotIn L j a) :
      SlotIn { L with pages := (page,i)::L.pages } j a := by
    obtain ⟨q,hq,hs⟩ := hs
    exact ⟨q,List.mem_cons_of_mem _ hq,hs⟩
  refine ⟨hi.valid,hi.ents,List.forall_mem_cons.mpr ⟨hbase,hi.pageBase⟩,
    List.forall_mem_cons.mpr ⟨hused,hi.pageUsed⟩,List.pairwise_cons.mpr ⟨hpages,hi.pageApart⟩,
    List.forall_mem_cons.mpr ⟨hhead,hi.header⟩,hi.chain,hi.freeNodup,
    fun j a ha => hmono (hi.freeSlot j a ha),?_,hi.freeNotLive,hi.distinct,hi.bigBase,hi.bigMeta,
    hi.bigUsed,hi.bigApart,List.forall_mem_cons.mpr ⟨hbig,hi.bigPage⟩⟩
  intro b hb j hk
  obtain ⟨hs,hle⟩ := hi.liveSlot b hb j hk
  exact ⟨hmono hs,hle⟩

theorem granted {m : Mem} (hg : Granted A h.ram r phys n)
    (hm : Mem.SameOff (mapped M phys n) r.mem m) :
    HeapInv A { h with ram := ⟨m,r.pmm⟩ } live L := by
  have hkeep : ∀ i, A.inUse h.ram.pmm i → A.inUse r.pmm i := fun i hu => (hg.used i).mpr (.inr hu)
  have h1 := hi.frame (hg.frame.trans hm) (hi.fresh_clear hg)
  exact h1.repage hg.valid (fun q hq x hx => hkeep _ (hi.pageUsed q hq x hx))
    (fun b hb hk x hx => hkeep _ (hi.bigUsed b hb hk x hx))

end

theorem slotIn_page {p : Nat} (hs : Slot p (entOf i) a) : a∈pageSpan (p,i) := by
  have hl := (entOf_ok i).low
  exact slot_inside hs a ((Span.mem_mk _ _ _).mpr (by omega))

variable (hi : HeapInv A h live L)
include hi

theorem slot_base (hs : SlotIn L i a) : 0 < a ∧ a < 2^64 ∧ M.hhdm ≤ a ∧ a%pageSize≠0 := by
  obtain ⟨p,hp,hs⟩ := hs
  have hb := hi.pageBase _ hp
  have hin := hs.inside
  have hal := (hs.page (entOf_ok i) hb.1).2
  have hl := (entOf_ok i).low
  dsimp only at hb
  exact ⟨by omega,by omega,by omega,hal⟩

theorem free_not_held (ha : a∈L.free i) : ∀ b∈live, b.addr≠a := by
  intro b hb he
  have hs := hi.freeSlot i a ha
  cases hk : b.kind with
  | none =>
    have hal := (hi.slot_base hs).2.2.2
    rw [← he] at hal
    exact hal (hi.bigBase b hb hk).1
  | some j =>
    by_cases hij : j=i
    · subst hij
      exact hi.freeNotLive j a ha b hb hk he
    · have hsep := hi.slot_separate (hi.liveSlot b hb j hk).1 hs (fun hc => absurd hc hij)
      have hl := (entOf_ok i).low
      have hl' := (entOf_ok j).low
      exact hsep a ((Span.mem_mk _ _ _).mpr (by omega)) ((Span.mem_mk _ _ _).mpr (by omega))

theorem firstFree_lt (i : Fin 10) : (h.slabs i).firstFree < 2^64 := by
  have hc := hi.chain i
  cases hl : L.free i with
  | nil =>
    rw [hl] at hc
    rw [show (h.slabs i).firstFree=0 from hc]
    decide
  | cons a l =>
    rw [hl] at hc
    rw [hc.1]
    exact (hi.slot_base (hi.freeSlot i a (by rw [hl]; exact List.mem_cons_self))).2.1

end HeapInv

/-- Some layout makes the heap valid for the blocks its clients hold. -/
def Sound (A : PageAllocator M P) (h : Heap P) (live : List Block) : Prop :=
  ∃ L, HeapInv A h live L

variable {h h' : Heap P} {live : List Block} {L : Layout}

theorem createSlab_inv (hi : HeapInv A h live L) (hc : createSlab A h i (entOf i)=some h') :
    ∃ p, HeapInv A h' live ⟨(p,i)::L.pages,update L.free i (slotsOf p (entOf i))⟩ ∧
      (h'.slabs i).firstFree=p+entOf i := by
  obtain ⟨⟨phys,r⟩,hr,rfl⟩ := Option.map_eq_some_iff.mp hc
  have hg := pmmAllocNozero_granted hi.valid le_rfl hr
  have hok := entOf_ok i
  have hspan : mapped M phys 1=pageSpan (phys+M.hhdm,i) := by simp [mapped,pageSpan]
  have hbase := hg.base
  have hthread : Mem.SameOff (mapped M phys 1) r.mem
      (threadPage r.mem (phys+M.hhdm) (slabAddr M i) (entOf i)) := by
    rw [hspan]
    exact sameOff_threadPage hok
  have h1 := hi.granted hg hthread
  have hfresh := hi.fresh_pages hg
  rw [hspan] at hfresh
  have h2 := h1.addPage hbase
    (fun x hx => hg.inUse x (by rw [hspan]; exact hx)) hfresh.1
    (read64_threadPage_header hok) hfresh.2
  have hslot : ∀ a∈slotsOf (phys+M.hhdm) (entOf i),
      SlotIn ⟨(phys+M.hhdm,i)::L.pages,L.free⟩ i a :=
    fun a ha => ⟨_,List.mem_cons_self,(mem_slotsOf hok).mp ha⟩
  have h3 := h2.relist i (freeChain_threadPage hok hbase.2.2) (slotsOf_nodup hok) hslot (by
    intro a ha b hb hk he
    -- a held entry lies in an older page, the new entries in the fresh one
    obtain ⟨q,hq,hs⟩ := (hi.liveSlot b hb i hk).1
    have hin := HeapInv.slotIn_page ((mem_slotsOf hok).mp ha)
    exact hfresh.1 _ hq a hin (he ▸ HeapInv.slotIn_page hs))
  refine ⟨phys+M.hhdm,?_,?_⟩
  · have hent := hi.ents i
    simp only [hent] at h3
    rw [headerOffset_eq hok]
    exact h3
  · simp [headerOffset_eq hok]

end X64OS.Memory
