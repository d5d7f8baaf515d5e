import X64OS.Memory.SlabRuns

namespace X64OS.Memory

open Framework

variable {M : Machine} {P : Type} {A : PageAllocator M P}
variable {h h' : Heap P} {live : List Block} {L : Layout}

def Kept (live : List Block) (h h' : Heap P) : Prop :=
  ∀ c∈live, ∀ x∈c.extent, h'.ram.mem x=h.ram.mem x

theorem Kept.trans {h1 : Heap P} (hk : Kept live h h1) (hk' : Kept live h1 h') :
    Kept live h h' :=
  fun c hc x hx => (hk' c hc x hx).trans (hk c hc x hx)

theorem Kept.of_sameOff {w : Span} (hm : Mem.SameOff w h.ram.mem h'.ram.mem)
    (hw : ∀ c∈live, w.Separate c.extent) : Kept live h h' :=
  fun c hc x hx => hm x (fun hin => hw c hc x hin hx)

theorem HeapInv.fresh_extent (hi : HeapInv A h live L) {r : Ram P} {phys n : Nat}
    (hg : Granted A h.ram r phys n) : ∀ c∈live, (mapped M phys n).Separate c.extent := by
  intro c hc
  obtain ⟨hpages,hbig⟩ := hi.fresh_pages hg
  cases hk : c.kind with
  | none => exact (hbig c hc hk).mono (fun _ hx => hx) (fun x hx => (hi.body_le hc hk x hx).1)
  | some i =>
    obtain ⟨⟨p,hp,hs⟩,-⟩ := hi.liveSlot c hc i hk
    rw [Block.extent,hk]
    exact (hpages _ hp).mono (fun _ hx => hx) (HeapInv.slot_inside hs)

variable {i : Fin 10} {a size : Nat} {b : Block}

section
variable (hi : HeapInv A h live L)
include hi

theorem createSlab_kept (hc : createSlab A h i (entOf i)=some h') : Kept live h h' := by
  obtain ⟨⟨phys,r⟩,hr,rfl⟩ := Option.map_eq_some_iff.mp hc
  have hg := pmmAllocNozero_granted hi.valid le_rfl hr
  have hthread : Mem.SameOff (mapped M phys 1) r.mem
      (threadPage r.mem (phys+M.hhdm) (slabAddr M i) (entOf i)) := by
    rw [mapped,Nat.one_mul]
    exact sameOff_threadPage (entOf_ok i)
  exact .of_sameOff (hg.frame.trans hthread) (hi.fresh_extent hg)

theorem popFree_kept (hne : (h.slabs i).firstFree≠0) (hp : popFree M h i=some (a,h')) :
    Kept live h h' := by
  have hc := hi.chain i
  cases hl : L.free i with
  | nil =>
    rw [hl] at hc
    exact absurd hc hne
  | cons c l =>
    rw [hl] at hc
    have hmem : c∈L.free i := by rw [hl]; exact List.mem_cons_self
    obtain ⟨-,he⟩ := Option.ite_none_left_eq_some.mp hp
    cases he
    refine .of_sameOff (w := ⟨c,entOf i⟩) ?_ (fun b hb => hi.free_separate hmem hb)
    rw [← hi.ents i,← hc.1]
    exact Mem.sameOff_fill _ _ _ _

theorem allocFromSlab_kept (hp : allocFromSlab A h i=some (a,h')) : Kept live h h' := by
  obtain ⟨h₁,L₁,hi₁,hne,hpop,rfl | hc⟩ := allocFromSlab_pops hi hp
  · exact popFree_kept hi₁ hne hpop
  · exact (createSlab_kept hi hc).trans (popFree_kept hi₁ hne hpop)

theorem allocPages_kept (hp : allocPages A h size=some (a,h')) : Kept live h h' := by
  obtain ⟨⟨phys,r⟩,hr,he⟩ := Option.map_eq_some_iff.mp hp
  obtain ⟨hg,-⟩ := pmmAlloc_granted hi.valid (Nat.le_add_left 1 _) hr
  rw [if_neg (Nat.pos_iff_ne_zero.mp hg.pos)] at he
  cases he
  refine .of_sameOff (hg.frame.trans ?_) (hi.fresh_extent hg)
  exact sameOff_metadata M r.mem phys _ _ _

end

section
variable (hs : Sound A h live)
include hs

theorem slabAlloc_kept (hp : slabAlloc A h size=some (a,h')) : Kept live h h' := by
  obtain ⟨L,hi⟩ := hs
  unfold slabAlloc at hp
  split at hp
  · exact allocFromSlab_kept hi hp
  · exact allocPages_kept hi hp

theorem slabFree_kept (hb : b∈live) (hf : slabFree A h b.addr=some h') :
    Kept (dropBlock live b.addr) h h' := by
  have hne := (hs.branch hb).1
  rw [slabFree_eq hs hb] at hf
  obtain ⟨L,hi⟩ := hs
  cases hk : b.kind with
  | none =>
    rw [hk] at hf
    cases hf
    exact fun c _ x _ => rfl
  | some i =>
    rw [hk] at hf
    cases hf
    rw [freeInSlab,if_neg hne]
    apply Kept.of_sameOff (Mem.sameOff_write64 _ _ _)
    intro c hc
    obtain ⟨hcl,hca⟩ := mem_dropBlock.mp hc
    apply (hi.extent_separate hb hcl hca.symm).mono _ (fun _ hx => hx)
    rw [Block.extent,hk]
    exact HeapInv.link_le i b.addr

/-- A block that slab_realloc moves takes its bytes along. -/
theorem Relocated.contents {p n : Nat} {h1 : Heap P} (hb : b∈live)
    (hr : Relocated A h h' live b p size n h1) :
    (∀ k < n, h'.ram.mem (p+k)=h.ram.mem (b.addr+k)) ∧ Kept (dropBlock live b.addr) h h' := by
  have hnew : p≠b.addr := fun he => hr.handed.new b hb he.symm
  have hb' := List.mem_cons_of_mem (⟨p,size,slabFor h size⟩ : Block) hb
  have halloc := slabAlloc_kept hs hr.alloc
  have hcopy := copyBlock_sound hr.handed.sound List.mem_cons_self b.addr hr.fits.1
  have hfree := slabFree_kept hcopy hb' hr.free
  rw [dropBlock_cons hnew] at hfree
  have hin := mem_extent hr.handed.sound List.mem_cons_self hr.fits.1
  have hold : ∀ x∈(⟨b.addr,n⟩ : Span), x∈b.extent := by
    intro x hx
    have hn := hr.fits.2
    rw [Span.mem_mk] at hx
    rw [Span.mem_iff,extent_base]
    omega
  obtain ⟨L1,hi1⟩ := hr.handed.sound
  have hapart : ∀ c∈live, (⟨p,n⟩ : Span).Separate c.extent := fun c hc =>
    (hi1.extent_separate List.mem_cons_self (List.mem_cons_of_mem _ hc)
      (hr.handed.new c hc).symm).mono hin (fun _ hx => hx)
  constructor
  · intro k hk
    have hdst : p+k∈(⟨p,n⟩ : Span) := (Span.mem_mk _ _ _).mpr (by omega)
    have hsrc : b.addr+k∈(⟨b.addr,n⟩ : Span) := (Span.mem_mk _ _ _).mpr (by omega)
    rw [hfree _ List.mem_cons_self _ (hin _ hdst)]
    refine (memcpy_copies h1.ram.mem ((hapart b hb).mono (fun _ hx => hx) hold) hk).trans ?_
    exact halloc b hb _ (hold _ hsrc)
  · intro c hc x hx
    obtain ⟨hcl,-⟩ := mem_dropBlock.mp hc
    rw [hfree c (List.mem_cons_of_mem _ hc) x hx]
    refine (sameOff_memcpy h1.ram.mem p b.addr n x (fun hw => hapart c hcl x hw hx)).trans ?_
    exact halloc c hcl x hx

theorem slabRealloc_contents (hb : b∈live) {p : Nat} (hsize : size+4095 < 2^64)
    (hp : slabRealloc A h b.addr size=some (p,h')) :
    (∀ k < min b.size size, h'.ram.mem (p+k)=h.ram.mem (b.addr+k)) ∧
      Kept (dropBlock live b.addr) h h' := by
  obtain ⟨rfl,rfl,-⟩ | ⟨rfl,hk,-,rfl⟩ | ⟨-,n,h1,hr⟩ := slabRealloc_cases hs hb hsize hp
  · exact ⟨fun k _ => rfl,fun c _ x _ => rfl⟩
  · -- only the size in the metadata is written
    have hkept : Kept live h { h with
        ram := ⟨h.ram.mem.write64 (b.addr-pageSize+8) (BitVec.ofNat 64 size),h.ram.pmm⟩ } := by
      apply Kept.of_sameOff (Mem.sameOff_write64 _ _ _)
      intro c hc
      obtain ⟨L,hi⟩ := hs
      apply ((hi.clear_extent hc).metas b hb hk).symm.mono _ (fun _ hx => hx)
      intro x hx
      rw [Span.mem_mk] at hx ⊢
      omega
    refine ⟨fun k hlt => ?_,fun c hc => hkept c (mem_dropBlock.mp hc).1⟩
    apply hkept b hb
    exact mem_extent hs hb le_rfl _ ((Span.mem_mk _ _ _).mpr (by omega))
  · obtain ⟨hcopied,hkept⟩ := hr.contents hs hb
    have hn := hr.atLeast
    exact ⟨fun k hk => hcopied k (by omega),hkept⟩

theorem slabAlloc_none (hp : slabAlloc A h size=none) :
    ∃ n, (n=1 ∨ n=divRoundup size 4096+1) ∧ A.alloc h.ram.pmm n=none := by
  obtain ⟨L,hi⟩ := hs
  have hpop : ∀ {g : Heap P} {L' : Layout} (i : Fin 10), HeapInv A g live L' →
      (g.slabs i).firstFree≠0 → popFree M g i≠none := by
    intro g L' i hg hne hnone
    have hc := hg.chain i
    cases hl : L'.free i with
    | nil =>
      rw [hl] at hc
      exact hne hc
    | cons c l =>
      rw [hl] at hc
      have hhd := (hg.slot_base (hg.freeSlot i c (by rw [hl]; exact List.mem_cons_self))).2.2.1
      rw [popFree,hc.1,if_neg (Nat.not_lt.mpr hhd)] at hnone
      cases hnone
  unfold slabAlloc at hp
  cases hf : slabFor h size with
  | none =>
    rw [hf] at hp
    simp only [allocPages,pmmAlloc,pmmAllocNozero,Option.map_eq_none_iff] at hp
    exact ⟨_,.inr rfl,hp⟩
  | some i =>
    rw [hf] at hp
    simp only [allocFromSlab] at hp
    split_ifs at hp with hz
    · cases hc : createSlab A h i (h.slabs i).entSize with
      | none =>
        simp only [createSlab,pmmAllocNozero,Option.map_eq_none_iff] at hc
        exact ⟨1,.inl rfl,hc⟩
      | some h1 =>
        rw [hc,Option.bind_some] at hp
        rw [hi.ents i] at hc
        obtain ⟨q,hi1,hfirst⟩ := createSlab_inv hi hc
        have hl := (entOf_ok i).low
        exact absurd hp (hpop i hi1 (by omega))
    · exact absurd hp (hpop i hi hz)

theorem slabRealloc_none (hb : b∈live) (hsize : size+4095 < 2^64)
    (hp : slabRealloc A h b.addr size=none) : slabAlloc A h size=none := by
  rw [slabRealloc_eq hs hb] at hp
  cases ha : slabAlloc A h size with
  | none => rfl
  | some x =>
    have hh : Handed A x.2 live ⟨x.1,size,slabFor h size⟩ := slabAlloc_handed hs hsize ha
    have hx : x.1≠0 := Nat.pos_iff_ne_zero.mp hh.pos
    cases hk : b.kind with
    | none =>
      rw [hk] at hp
      have hcopy := copyBlock_sound hh.sound List.mem_cons_self b.addr
        (n := if size < metaSize x.2 b.addr then size else metaSize x.2 b.addr)
        (by dsimp only; split <;> omega)
      obtain ⟨h1,hf,-⟩ := slabFree_sound hcopy (List.mem_cons_of_mem _ hb)
      change reallocPages A h b.addr size=none at hp
      unfold reallocPages at hp
      split at hp
      · cases hp
      · rw [ha,Option.bind_some,if_neg hx] at hp
        rw [Option.map_eq_none_iff.mp hp] at hf
        cases hf
    | some i =>
      rw [hk] at hp
      simp only [reallocSlot,ha,Option.map_some] at hp
      split_ifs at hp

end

/-- In every reachable state realloc and slab_realloc of a held block return a block
with room for the new size that starts with the old bytes, and leave the bytes of all
other blocks alone, unless the page allocator never answers. -/
theorem realloc_keeps_contents (A : PageAllocator M P) (r : Ram P) (hv : A.Valid r.pmm)
    (h₀ : Heap P) (hinit : slabInit A r=some h₀) (s : HeldHeap P)
    (hr : (heapSystem A).Reachable ⟨h₀,[]⟩ s) (b : Block) (hb : b∈s.live) (size : Nat)
    (hsize : size+4095 < 2^64) :
    realloc A s.heap b.addr size=slabRealloc A s.heap b.addr size ∧
    ((slabRealloc A s.heap b.addr size=none ∧
      ∃ n, (n=1 ∨ n=divRoundup size 4096+1) ∧ A.alloc s.heap.ram.pmm n=none) ∨
    ∃ p h', slabRealloc A s.heap b.addr size=some (p,h') ∧
      0 < p ∧ size ≤ (reserved M h' p).length ∧
      (∀ k < min b.size size, h'.ram.mem (p+k)=s.heap.ram.mem (b.addr+k)) ∧
      ∀ c∈s.live, c.addr≠b.addr →
        reserved M h' c.addr=reserved M s.heap c.addr ∧
        (reserved M h' p).Separate (reserved M h' c.addr) ∧
        ∀ x∈reserved M h' c.addr, h'.ram.mem x=s.heap.ram.mem x) := by
  have hs := heap_reachable_sound hv hinit hr
  refine ⟨by rw [realloc,if_neg (hs.branch hb).1],?_⟩
  cases hp : slabRealloc A s.heap b.addr size with
  | none => exact .inl ⟨rfl,slabAlloc_none hs (slabRealloc_none hs hb hsize hp)⟩
  | some x =>
    obtain ⟨p,h'⟩ := x
    have hm := slabRealloc_moved hs hb hsize hp
    obtain ⟨hcopied,hkept⟩ := slabRealloc_contents hs hb hsize hp
    have hres := reserved_eq hm.sound List.mem_cons_self
    dsimp only at hres
    have hm' := hm.sound
    obtain ⟨L,hi⟩ := hm'
    refine .inr ⟨p,h',rfl,hm.pos,?_,hcopied,fun c hc hne => ?_⟩
    · rw [hres]
      exact hi.size_le_extent List.mem_cons_self
    · have hcd : c∈dropBlock s.live b.addr := mem_dropBlock.mpr ⟨hc,hne⟩
      have hres' := reserved_eq hm.sound (List.mem_cons_of_mem _ hcd)
      rw [hres',reserved_eq hs hc,hres]
      exact ⟨rfl,hi.extent_separate List.mem_cons_self (List.mem_cons_of_mem _ hcd)
        (hm.new c hcd).symm,hkept c hcd⟩

theorem smallRun_isSome : (System.exec (heapCall (bitmapPages smallMachine)) ⟨smallHeap,[]⟩
    smallCalls).isSome=true := by decide +kernel

def smallState : HeldHeap Pmm.State :=
  (System.exec (heapCall (bitmapPages smallMachine)) ⟨smallHeap,[]⟩ smallCalls).get smallRun_isSome

theorem smallState_live : 0 < smallState.live.length := by decide +kernel

def smallBlock : Block := smallState.live.get ⟨0,smallState_live⟩

theorem realloc_keeps_contents_smallBlock :
    (smallBlock.addr-smallMachine.hhdm,smallBlock.size,smallBlock.kind)=(0x3018,20,some 2) ∧
    ∃ p h', slabRealloc (bitmapPages smallMachine) smallState.heap smallBlock.addr 30=some (p,h') ∧
      30 ≤ (reserved smallMachine h' p).length ∧
      ∀ k < min smallBlock.size 30,
        h'.ram.mem (p+k)=smallState.heap.ram.mem (smallBlock.addr+k) := by
  obtain ⟨-,⟨-,n,rfl | rfl,hn⟩ | ⟨p,h',hp,-,hroom,hcopied,-⟩⟩ :=
    realloc_keeps_contents (bitmapPages smallMachine) smallRam smallRam_valid smallHeap
      (Option.some_get _).symm smallState (System.reachable_exec _ _ _ smallCalls
        (Option.some_get _).symm) smallBlock (List.get_mem _ _) 30 (by decide)
  · exact absurd hn (by decide +kernel)
  · exact absurd hn (by decide +kernel)
  · exact ⟨by decide +kernel,p,h',hp,hroom,hcopied⟩

end X64OS.Memory
