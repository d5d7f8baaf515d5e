import X64OS.Memory.SlabPage
import Mathlib.Data.List.Pairwise

namespace X64OS.Memory

open Framework

/-- A block a client holds, with the size last asked for it and the slab whose
branch of slab_alloc produced it (none: the multi-page branch). -/
structure Block where
  addr : Nat
  size : Nat
  kind : Option (Fin 10)

def Block.extent (b : Block) : Span :=
  match b.kind with
  | some i => ⟨b.addr,entOf i⟩
  | none => ⟨b.addr,divRoundup b.size 4096*pageSize⟩

def Block.region (b : Block) : Span := ⟨b.addr-pageSize,(divRoundup b.size 4096+1)*pageSize⟩

def dropBlock (live : List Block) (addr : Nat) : List Block :=
  live.filter (fun b => b.addr≠addr)

/-- Which pages are slab pages of which slab, and the free list of each slab. -/
structure Layout where
  pages : List (Nat × Fin 10)
  free : Fin 10 → List Nat

def pageSpan (p : Nat × Fin 10) : Span := ⟨p.1,pageSize⟩

def SlotIn (L : Layout) (i : Fin 10) (a : Nat) : Prop :=
  ∃ p, (p,i)∈L.pages ∧ Slot p (entOf i) a

theorem entOf_ok : ∀ i, EntOk (entOf i) := by
  have h : ∀ i, 8 ≤ entOf i ∧ entOf i ≤ 2048 ∧ entOf i%8=0 := by decide
  exact fun i => ⟨(h i).1,(h i).2.1,(h i).2.2⟩

variable {M : Machine} {P : Type} {A : PageAllocator M P}

/-- The heap invariant. Slab pages and multi-page regions are disjoint memory
in use; headers, links and metadata are intact; no entry is both free and held. -/
structure HeapInv (A : PageAllocator M P) (h : Heap P) (live : List Block) (L : Layout) :
    Prop where
  valid : A.Valid h.ram.pmm
  ents : ∀ i, (h.slabs i).entSize=entOf i
  pageBase : ∀ p∈L.pages, p.1%pageSize=0 ∧ M.hhdm ≤ p.1 ∧ p.1+pageSize ≤ 2^64
  pageUsed : ∀ p∈L.pages, ∀ x∈pageSpan p, A.inUse h.ram.pmm ((x-M.hhdm)/pageSize)
  pageApart : L.pages.Pairwise (fun p q => (pageSpan p).Separate (pageSpan q))
  header : ∀ p∈L.pages, h.ram.mem.read64 p.1=BitVec.ofNat 64 (slabAddr M p.2)
  chain : ∀ i, FreeChain h.ram.mem (h.slabs i).firstFree (L.free i)
  freeNodup : ∀ i, (L.free i).Nodup
  freeSlot : ∀ i, ∀ a∈L.free i, SlotIn L i a
  liveSlot : ∀ b∈live, ∀ i, b.kind=some i → SlotIn L i b.addr ∧ b.size ≤ entOf i
  freeNotLive : ∀ i, ∀ a∈L.free i, ∀ b∈live, b.kind=some i → b.addr≠a
  distinct : live.Pairwise (fun b c => b.addr≠c.addr)
  bigBase : ∀ b∈live, b.kind=none → b.addr%pageSize=0 ∧ M.hhdm+pageSize < b.addr ∧
    b.addr+divRoundup b.size 4096*pageSize ≤ 2^64 ∧ b.size+4095 < 2^64 ∧ 1 ≤ divRoundup b.size 4096
  bigMeta : ∀ b∈live, b.kind=none →
    metaPages h b.addr=divRoundup b.size 4096 ∧ metaSize h b.addr=b.size
  bigUsed : ∀ b∈live, b.kind=none → ∀ x∈b.region, A.inUse h.ram.pmm ((x-M.hhdm)/pageSize)
  bigApart : live.Pairwise (fun b c => b.kind=none → c.kind=none → b.region.Separate c.region)
  bigPage : ∀ p∈L.pages, ∀ b∈live, b.kind=none → (pageSpan p).Separate b.region

/-- w touches no header, no free-list link and no metadata. -/
structure Clear (live : List Block) (L : Layout) (w : Span) : Prop where
  headers : ∀ p∈L.pages, w.Separate ⟨p.1,8⟩
  links : ∀ i, ∀ a∈L.free i, w.Separate ⟨a,8⟩
  metas : ∀ b∈live, b.kind=none → w.Separate ⟨b.addr-pageSize,16⟩

namespace HeapInv

variable {h : Heap P} {live : List Block} {L : Layout}

theorem frame (hi : HeapInv A h live L) {m : Mem} {w : Span}
    (hs : Mem.SameOff w h.ram.mem m) (hc : Clear live L w) :
    HeapInv A { h with ram := ⟨m,h.ram.pmm⟩ } live L := by
  refine ⟨hi.valid,hi.ents,hi.pageBase,hi.pageUsed,hi.pageApart,?_,?_,hi.freeNodup,hi.freeSlot,
    hi.liveSlot,hi.freeNotLive,hi.distinct,hi.bigBase,?_,hi.bigUsed,hi.bigApart,hi.bigPage⟩
  · intro p hp
    exact (hs.read64 _ (hc.headers p hp)).trans (hi.header p hp)
  · intro i
    exact (hi.chain i).congr (fun a ha => hs.read64 a (hc.links i a ha))
  · intro b hb hk
    have hd := hc.metas b hb hk
    have hlow : w.Separate ⟨b.addr-pageSize,8⟩ := by
      apply hd.mono (fun _ hx => hx)
      intro x hx
      rw [Span.mem_mk] at hx ⊢
      omega
    have hhigh : w.Separate ⟨b.addr-pageSize+8,8⟩ := by
      apply hd.mono (fun _ hx => hx)
      intro x hx
      rw [Span.mem_mk] at hx ⊢
      omega
    have hm := hi.bigMeta b hb hk
    unfold metaPages metaSize at hm ⊢
    rw [hs.read64 _ hlow,hs.read64 _ hhigh]
    exact hm

theorem sub (hi : HeapInv A h live L) {live' : List Block} (hs : live'.Sublist live) :
    HeapInv A h live' L :=
  ⟨hi.valid,hi.ents,hi.pageBase,hi.pageUsed,hi.pageApart,hi.header,hi.chain,hi.freeNodup,
    hi.freeSlot,fun b hb => hi.liveSlot b (hs.subset hb),
    fun i a ha b hb => hi.freeNotLive i a ha b (hs.subset hb),hi.distinct.sublist hs,
    fun b hb => hi.bigBase b (hs.subset hb),fun b hb => hi.bigMeta b (hs.subset hb),
    fun b hb => hi.bigUsed b (hs.subset hb),hi.bigApart.sublist hs,
    fun p hp b hb => hi.bigPage p hp b (hs.subset hb)⟩

theorem page_unique (hi : HeapInv A h live L) {p q : Nat × Fin 10} (hp : p∈L.pages)
    (hq : q∈L.pages) : p=q ∨ (pageSpan p).Separate (pageSpan q) := by
  by_cases he : p=q
  · exact .inl he
  · have hsym : Std.Symm (fun p q => (pageSpan p).Separate (pageSpan q)) := ⟨fun _ _ h => h.symm⟩
    exact .inr (hi.pageApart.forall hp hq he)

variable {a : Nat} {i : Fin 10} {b : Block}

theorem slot_inside {p : Nat} (hs : Slot p (entOf i) a) :
    ∀ x∈(⟨a,entOf i⟩ : Span), x∈pageSpan (p,i) := by
  intro x hx
  have hb := hs.inside
  rw [Span.mem_mk] at hx
  rw [pageSpan,Span.mem_mk]
  omega

section
variable (hi : HeapInv A h live L) (ha : SlotIn L i a)
include hi ha

theorem slot_separate {j : Fin 10} {b : Nat} (hb : SlotIn L j b) (hne : i=j → a≠b) :
    (⟨a,entOf i⟩ : Span).Separate ⟨b,entOf j⟩ := by
  obtain ⟨p,hp,hsa⟩ := ha
  obtain ⟨q,hq,hsb⟩ := hb
  obtain he | hsep := hi.page_unique hp hq
  · cases he
    exact hsa.separate hsb (hne rfl)
  · exact hsep.mono (slot_inside hsa) (slot_inside hsb)

theorem slot_header : ∀ q∈L.pages, (⟨a,entOf i⟩ : Span).Separate ⟨q.1,8⟩ := by
  intro q hq
  obtain ⟨p,hp,hs⟩ := ha
  have hl := (entOf_ok i).low
  obtain he | hsep := hi.page_unique hp hq
  · subst he
    apply Span.Separate.symm
    apply Span.separate_of_le
    have hb := hs.inside
    simp only [Span.stop]
    omega
  · apply hsep.mono (slot_inside hs)
    intro x hx
    rw [Span.mem_mk] at hx
    rw [pageSpan,Span.mem_mk]
    simp only [pageSize]
    omega

theorem slot_region (hb : b∈live) (hk : b.kind=none) : (⟨a,entOf i⟩ : Span).Separate b.region := by
  obtain ⟨p,hp,hs⟩ := ha
  exact (hi.bigPage _ hp b hb hk).mono (slot_inside hs) (fun _ hx => hx)

end

theorem link_le (i : Fin 10) (a : Nat) : ∀ x∈(⟨a,8⟩ : Span), x∈(⟨a,entOf i⟩ : Span) := by
  intro x hx
  have hl := (entOf_ok i).low
  rw [Span.mem_mk] at hx ⊢
  omega

theorem meta_le (hi : HeapInv A h live L) (hb : b∈live) (hk : b.kind=none) :
    ∀ x∈(⟨b.addr-pageSize,16⟩ : Span), x∈b.region := by
  intro x hx
  have hbase := hi.bigBase b hb hk
  rw [Span.mem_mk] at hx
  rw [Block.region,Span.mem_mk]
  simp only [pageSize] at hbase hx ⊢
  omega

theorem clear_slot (hi : HeapInv A h live L) (ha : SlotIn L i a) (hn : a∉L.free i) :
    Clear live L ⟨a,entOf i⟩ := by
  refine ⟨hi.slot_header ha,?_,?_⟩
  · intro j b hb
    apply (hi.slot_separate ha (hi.freeSlot j b hb) _).mono (fun _ hx => hx) (link_le j b)
    intro hij he
    subst hij
    exact hn (by rw [he]; exact hb)
  · intro b hb hk
    exact (hi.slot_region ha hb hk).mono (fun _ hx => hx) (hi.meta_le hb hk)

variable (hi : HeapInv A h live L) (hb : b∈live)
include hi hb

theorem body_le (hk : b.kind=none) :
    ∀ x∈b.extent, x∈b.region ∧ x∉(⟨b.addr-pageSize,pageSize⟩ : Span) := by
  intro x hx
  have hbase := hi.bigBase b hb hk
  rw [Block.extent,hk,Span.mem_mk] at hx
  rw [Block.region,Span.mem_mk,Span.mem_mk]
  simp only [pageSize] at hbase hx ⊢
  omega

theorem region_separate {c : Block} (hc : c∈live) (hkb : b.kind=none) (hkc : c.kind=none)
    (hne : b.addr≠c.addr) : b.region.Separate c.region := by
  have hbc : b≠c := fun he => hne (by rw [he])
  have hsym : Std.Symm (fun b c : Block => b.kind=none → c.kind=none →
      b.region.Separate c.region) := ⟨fun _ _ hs h1 h2 => (hs h2 h1).symm⟩
  exact hi.bigApart.forall hb hc hbc hkb hkc

/-- A holder may write every byte of its block's extent. -/
theorem clear_extent : Clear live L b.extent := by
  cases hk : b.kind with
  | some i =>
    obtain ⟨hs,-⟩ := hi.liveSlot b hb i hk
    have hn : b.addr∉L.free i := fun hf => hi.freeNotLive i _ hf b hb hk rfl
    rw [Block.extent,hk]
    exact hi.clear_slot hs hn
  | none =>
    have hin := hi.body_le hb hk
    refine ⟨?_,?_,?_⟩
    · intro p hp
      apply (hi.bigPage p hp b hb hk).symm.mono (fun x hx => (hin x hx).1)
      intro x hx
      rw [Span.mem_mk] at hx
      rw [pageSpan,Span.mem_mk]
      simp only [pageSize]
      omega
    · intro i a ha
      apply (hi.slot_region (hi.freeSlot i a ha) hb hk).symm.mono (fun x hx => (hin x hx).1)
      exact link_le i a
    · intro c hc hkc
      by_cases he : b.addr=c.addr
      · intro x hx hm
        have hout := (hin x hx).2
        rw [← he,Span.mem_mk] at hm
        rw [Span.mem_mk] at hout
        simp only [pageSize] at hout hm
        omega
      · apply (hi.region_separate hb hc hk hkc he).mono (fun x hx => (hin x hx).1)
        exact hi.meta_le hc hkc

theorem extent_separate {c : Block} (hc : c∈live) (hne : b.addr≠c.addr) :
    b.extent.Separate c.extent := by
  cases hkb : b.kind with
  | some i =>
    obtain ⟨hsb,-⟩ := hi.liveSlot b hb i hkb
    cases hkc : c.kind with
    | some j =>
      obtain ⟨hsc,-⟩ := hi.liveSlot c hc j hkc
      rw [Block.extent,Block.extent,hkb,hkc]
      exact hi.slot_separate hsb hsc (fun _ => hne)
    | none =>
      rw [Block.extent,hkb]
      exact (hi.slot_region hsb hc hkc).mono (fun _ hx => hx) (fun x hx => (hi.body_le hc hkc x hx).1)
  | none =>
    cases hkc : c.kind with
    | some j =>
      obtain ⟨hsc,-⟩ := hi.liveSlot c hc j hkc
      apply Span.Separate.symm
      rw [Block.extent,hkc]
      exact (hi.slot_region hsc hb hkb).mono (fun _ hx => hx) (fun x hx => (hi.body_le hb hkb x hx).1)
    | none =>
      exact (hi.region_separate hb hc hkb hkc hne).mono (fun x hx => (hi.body_le hb hkb x hx).1)
        (fun x hx => (hi.body_le hc hkc x hx).1)

theorem size_le_extent : b.size ≤ b.extent.length := by
  cases hk : b.kind with
  | some i =>
    rw [Block.extent,hk]
    exact (hi.liveSlot b hb i hk).2
  | none =>
    rw [Block.extent,hk]
    exact le_divRoundup _ (hi.bigBase b hb hk).2.2.2.1

end HeapInv

end X64OS.Memory
