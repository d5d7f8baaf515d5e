import X64OS.Framework.Runs
import X64OS.Memory.SlabSpecs

namespace X64OS.Memory

open Framework Function
open Option (map_eq_some_iff bind_eq_some_iff)

inductive HeapCall where
  | slabAlloc (size : Nat)
  | malloc (size : Nat)
  | slabRealloc (addr size : Nat)
  | realloc (addr size : Nat)
  | slabFree (addr : Nat)
  | free (addr : Nat)
  | write (addr offset count value : Nat)

/-- The heap with the blocks its clients hold. -/
structure HeldHeap (P : Type) where
  heap : Heap P
  live : List Block

section

variable {M : Machine} {P : Type} (A : PageAllocator M P)

def findBlock (live : List Block) (addr : Nat) : Option Block :=
  live.find? (fun b => b.addr=addr)

section
variable (s : HeldHeap P)

def HeldHeap.hold (size : Nat) (x : Nat × Heap P) : HeldHeap P :=
  ⟨x.2,⟨x.1,size,slabFor s.heap size⟩::s.live⟩

def HeldHeap.rehold (old : Block) (size : Nat) (x : Nat × Heap P) : HeldHeap P :=
  ⟨x.2,⟨x.1,size,if x.1=old.addr then old.kind else slabFor s.heap size⟩
    ::dropBlock s.live old.addr⟩

def HeldHeap.regrow (f : Heap P → Nat → Nat → Option (Nat × Heap P)) (addr size : Nat) :
    Option (HeldHeap P) :=
  if ¬size+4095 < 2^64 then none
  else if addr=0 then (f s.heap addr size).map (s.hold size)
  else (findBlock s.live addr).bind (fun b => (f s.heap addr size).map (s.rehold b size))

def HeldHeap.release (f : Heap P → Nat → Option (Heap P)) (addr : Nat) : Option (HeldHeap P) :=
  if addr=0 ∨ (findBlock s.live addr).isSome then
    (f s.heap addr).map (fun h => ⟨h,dropBlock s.live addr⟩)
  else none

/-- What clients may do: sizes that round up to pages without wrapping, free
and realloc of NULL or a held block, writes within the requested bytes. A
request the page allocator never answers is no step. -/
def heapCall : HeapCall → Option (HeldHeap P)
  | .slabAlloc size =>
    if size+4095 < 2^64 then (slabAlloc A s.heap size).map (s.hold size) else none
  | .malloc size =>
    if size+4095 < 2^64 then (malloc A s.heap size).map (s.hold size) else none
  | .slabRealloc addr size => s.regrow (slabRealloc A) addr size
  | .realloc addr size => s.regrow (realloc A) addr size
  | .slabFree addr => s.release (slabFree A) addr
  | .free addr => s.release (free A) addr
  | .write addr offset count value =>
    (findBlock s.live addr).bind (fun b =>
      if offset+count ≤ b.size then
        some ⟨{ s.heap with
          ram := ⟨s.heap.ram.mem.writeBytes (addr+offset) count value,s.heap.ram.pmm⟩ },s.live⟩
      else none)

end

def heapSystem : System (HeldHeap P) HeapCall := System.ofPartial (heapCall A)

/-- The bytes the heap's own records set aside for the block at addr: the
entry size of the slab its page header names, or the pages in its metadata. -/
def reserved (M : Machine) (h : Heap P) (addr : Nat) : Span :=
  if addr%pageSize=0 then ⟨addr,metaPages h addr*pageSize⟩
  else
    match headerSlab M h addr with
    | some i => ⟨addr,(h.slabs i).entSize⟩
    | none => ⟨addr,0⟩

end

variable {M : Machine} {P : Type} {A : PageAllocator M P}
variable {h h' : Heap P} {live : List Block} {s s' : HeldHeap P}
variable {addr : Nat} {b : Block}

theorem findBlock_some (hf : findBlock live addr=some b) : b∈live ∧ b.addr=addr :=
  ⟨List.mem_of_find?_eq_some hf,by simpa using List.find?_some hf⟩

theorem dropBlock_zero (hs : Sound A h live) : dropBlock live 0=live := by
  apply List.filter_eq_self.mpr
  intro b hb
  simpa using (hs.branch hb).1

theorem createSlab_slabs {i : Fin 10} {n : Nat} (f : Fin 10 → Slab)
    (hc : createSlab A h i n=some h') :
    createSlab A { h with slabs := f } i n=
      some { h' with slabs := update f i (h'.slabs i) } ∧
    ∀ j, j≠i → h'.slabs j=h.slabs j := by
  obtain ⟨x,hx,rfl⟩ := map_eq_some_iff.mp hc
  refine ⟨?_,fun j hj => update_of_ne hj _ _⟩
  simp [createSlab,hx]

theorem createSlabs_sound {h : Heap P} (l : List (Fin 10)) (f : Fin 10 → Slab)
    (hf : ∀ j, j∉l → f j=h.slabs j) (hs : Sound A { h with slabs := f } [])
    (hc : l.foldlM (fun h i => createSlab A h i (entOf i)) h=some h') : Sound A h' [] := by
  induction l generalizing h f with
  | nil =>
    have he : f=h.slabs := funext (fun j => hf j List.not_mem_nil)
    rw [he] at hs
    cases hc
    exact hs
  | cons i l ih =>
    obtain ⟨h1,h2,h3⟩ := bind_eq_some_iff.mp hc
    obtain ⟨L,hi⟩ := hs
    obtain ⟨hcr,hother⟩ := createSlab_slabs f h2
    obtain ⟨p,hp,-⟩ := createSlab_inv hi hcr
    apply ih _ _ ⟨_,hp⟩ h3
    intro j hj
    by_cases hji : j=i
    · subst hji
      exact update_self _ _ _
    · rw [update_of_ne hji,hother j hji]
      apply hf
      simp [hji,hj]

theorem slabInit_sound {r : Ram P} (hv : A.Valid r.pmm) (hs : slabInit A r=some h) :
    Sound A h [] := by
  apply createSlabs_sound (List.finRange 10) (fun j => ⟨0,entOf j⟩) _ _ hs
  · intro j hj
    exact absurd (List.mem_finRange j) hj
  · refine ⟨⟨[],fun _ => []⟩,?_⟩
    constructor <;> simp [hv,FreeChain]

theorem regrow_sound {f : Heap P → Nat → Nat → Option (Nat × Heap P)} {size : Nat}
    (hs : Sound A s.heap s.live) (hnull : ∀ p h', size+4095 < 2^64 → f s.heap 0 size=some (p,h') →
      Handed A h' s.live ⟨p,size,slabFor s.heap size⟩)
    (hheld : ∀ b∈s.live, f s.heap b.addr size=slabRealloc A s.heap b.addr size)
    (hc : s.regrow f addr size=some s') : Sound A s'.heap s'.live := by
  unfold HeldHeap.regrow at hc
  split_ifs at hc with hsize haddr
  · obtain ⟨⟨p,h'⟩,hf,rfl⟩ := map_eq_some_iff.mp hc
    rw [haddr] at hf
    exact (hnull p h' hsize hf).sound
  · obtain ⟨b,hb,hc⟩ := bind_eq_some_iff.mp hc
    obtain ⟨⟨p,h'⟩,hf,rfl⟩ := map_eq_some_iff.mp hc
    obtain ⟨hm,rfl⟩ := findBlock_some hb
    rw [hheld b hm] at hf
    exact (slabRealloc_moved hs hm hsize hf).sound

theorem release_sound (hs : Sound A s.heap s.live) (hc : s.release (slabFree A) addr=some s') :
    Sound A s'.heap s'.live := by
  unfold HeldHeap.release at hc
  split_ifs at hc with hok
  obtain ⟨h1,hf,rfl⟩ := map_eq_some_iff.mp hc
  obtain rfl | hsome := hok
  · rw [slabFree,if_pos rfl] at hf
    cases hf
    rw [dropBlock_zero hs]
    exact hs
  · obtain ⟨b,hb⟩ := Option.isSome_iff_exists.mp hsome
    obtain ⟨hm,rfl⟩ := findBlock_some hb
    obtain ⟨h2,hf2,hs2⟩ := slabFree_sound hs hm
    rw [hf] at hf2
    cases hf2
    exact hs2

theorem heapCall_sound {c : HeapCall} (hs : Sound A s.heap s.live)
    (hc : heapCall A s c=some s') : Sound A s'.heap s'.live := by
  cases c with
  | slabAlloc size =>
    simp only [heapCall] at hc
    split_ifs at hc with hsize
    obtain ⟨⟨p,h'⟩,hf,rfl⟩ := map_eq_some_iff.mp hc
    exact (slabAlloc_handed hs hsize hf).sound
  | malloc size =>
    simp only [heapCall] at hc
    split_ifs at hc with hsize
    obtain ⟨⟨p,h'⟩,hf,rfl⟩ := map_eq_some_iff.mp hc
    exact (malloc_handed hs hsize hf).sound
  | slabRealloc addr size =>
    apply regrow_sound hs _ (fun _ _ => rfl) hc
    intro p h' hsize hf
    rw [slabRealloc,if_pos rfl] at hf
    exact slabAlloc_handed hs hsize hf
  | realloc addr size =>
    apply regrow_sound hs _ _ hc
    · intro p h' hsize hf
      rw [realloc,if_pos rfl] at hf
      obtain ⟨⟨q,h1⟩,hm,he⟩ := map_eq_some_iff.mp hf
      cases he
      have hh := malloc_handed hs hsize hm
      exact ⟨hh.pos,hh.new,clearBlock_sound hh.sound List.mem_cons_self le_rfl⟩
    · intro b hb
      rw [realloc,if_neg (hs.branch hb).1]
  | slabFree addr => exact release_sound hs hc
  | free addr => exact release_sound hs hc
  | write addr offset count value =>
    obtain ⟨b,hb,hc⟩ := bind_eq_some_iff.mp hc
    split_ifs at hc with hle
    cases hc
    obtain ⟨hm,rfl⟩ := findBlock_some hb
    apply hs.write hm _ (Mem.sameOff_writeBytes s.heap.ram.mem (b.addr+offset) count value)
    intro x hx
    apply mem_extent hs hm le_rfl
    rw [Span.mem_mk] at hx ⊢
    omega

theorem heap_reachable_sound {r : Ram P} (hv : A.Valid r.pmm) (h₀ : slabInit A r=some h)
    (hr : (heapSystem A).Reachable ⟨h,[]⟩ s) : Sound A s.heap s.live :=
  hr.invariant (I := fun s => Sound A s.heap s.live) (slabInit_sound hv h₀)
    (fun _ _ _ hs hc => heapCall_sound hs hc)

theorem reserved_eq (hs : Sound A h live) (hb : b∈live) : reserved M h b.addr=b.extent := by
  obtain ⟨-,hal,hhead⟩ := hs.branch hb
  obtain ⟨L,hi⟩ := hs
  cases hk : b.kind with
  | none => rw [reserved,if_pos (hal.mpr hk),(hi.bigMeta b hb hk).1,Block.extent,hk]
  | some i =>
    have hn : ¬b.addr%pageSize=0 := fun hc => by rw [hal.mp hc] at hk; cases hk
    rw [reserved,if_neg hn,hhead i hk,Block.extent,hk]
    dsimp only
    rw [hi.ents i]

theorem HeapInv.free_separate {L : Layout} (hi : HeapInv A h live L) {i : Fin 10} {a : Nat}
    (ha : a∈L.free i) (hb : b∈live) : (⟨a,entOf i⟩ : Span).Separate b.extent := by
  have hs := hi.freeSlot i a ha
  cases hk : b.kind with
  | some j =>
    obtain ⟨hsb,-⟩ := hi.liveSlot b hb j hk
    rw [Block.extent,hk]
    exact hi.slot_separate hs hsb (fun _ => (hi.free_not_held ha b hb).symm)
  | none =>
    exact (hi.slot_region hs hb hk).mono (fun _ hx => hx) (fun x hx => (hi.body_le hb hk x hx).1)

/-- In every reachable state the held blocks are disjoint and large enough,
each slab's free list is a finite chain of distinct unused entries of pages
that name the slab, and free and realloc take the branch the block came from. -/
theorem heap_runs_sound (A : PageAllocator M P) (r : Ram P) (hv : A.Valid r.pmm) (h₀ : Heap P)
    (hinit : slabInit A r=some h₀) (s : HeldHeap P)
    (hr : (heapSystem A).Reachable ⟨h₀,[]⟩ s) :
    s.live.Pairwise (fun b c =>
      (reserved M s.heap b.addr).Separate (reserved M s.heap c.addr)) ∧
    (∀ b∈s.live, b.addr≠0 ∧ b.size ≤ (reserved M s.heap b.addr).length) ∧
    (∀ i, ∃ l, FreeChain s.heap.ram.mem (s.heap.slabs i).firstFree l ∧ l.Nodup ∧
      ∀ a∈l, Slot (a/pageSize*pageSize) (s.heap.slabs i).entSize a ∧
        headerSlab M s.heap a=some i ∧
        ∀ b∈s.live, (⟨a,(s.heap.slabs i).entSize⟩ : Span).Separate (reserved M s.heap b.addr)) ∧
    (∀ b∈s.live, (b.addr%pageSize=0 ↔ b.kind=none) ∧
      slabFree A s.heap b.addr=
        (match b.kind with
        | none => some (freePages A s.heap b.addr)
        | some i => some (freeInSlab s.heap i b.addr)) ∧
      ∀ size, slabRealloc A s.heap b.addr size=
        match b.kind with
        | none => reallocPages A s.heap b.addr size
        | some i => reallocSlot A s.heap i b.addr size) := by
  have hs := heap_reachable_sound hv hinit hr
  have hs' := hs
  obtain ⟨L,hi⟩ := hs'
  refine ⟨?_,?_,?_,?_⟩
  · apply hi.distinct.imp_of_mem
    intro b c hb hc hne
    rw [reserved_eq hs hb,reserved_eq hs hc]
    exact hi.extent_separate hb hc hne
  · intro b hb
    rw [reserved_eq hs hb]
    exact ⟨(hs.branch hb).1,hi.size_le_extent hb⟩
  · intro i
    refine ⟨L.free i,hi.chain i,hi.freeNodup i,?_⟩
    intro a ha
    have hin := hi.freeSlot i a ha
    refine ⟨?_,headerSlab_slot hi hin,?_⟩
    · obtain ⟨p,hp,hslot⟩ := hin
      rw [(hslot.page (entOf_ok i) (hi.pageBase _ hp).1).1,hi.ents i]
      exact hslot
    · intro b hb
      rw [reserved_eq hs hb,hi.ents i]
      exact hi.free_separate ha hb
  · intro b hb
    exact ⟨(hs.branch hb).2.1,slabFree_eq hs hb,slabRealloc_eq hs hb⟩

def smallMachine : Machine :=
  ⟨0xffff800000000000,64,0xffffffff80000000,directMap_aligned,directMap_pos,
    by decide,by decide,slabArray_le⟩

def smallRam : Ram Pmm.State :=
  ⟨fun _ => 0,⟨fun i => if i=0 then 1 else 0,64,0,0,by decide⟩⟩

theorem smallRam_valid : (bitmapPages smallMachine).Valid smallRam.pmm :=
  ⟨⟨by decide,by decide⟩,by decide⟩

def smallHeap : Heap Pmm.State := (slabInit (bitmapPages smallMachine) smallRam).get (by decide +kernel)

def smallCalls : List HeapCall :=
  [.malloc 5000,.slabAlloc 100,.realloc 0 20,.free 0]

theorem heap_runs_sound_smallHeap :
    ∃ s : HeldHeap Pmm.State,
      System.exec (heapCall (bitmapPages smallMachine)) ⟨smallHeap,[]⟩ smallCalls=some s ∧
      s.live.map (fun b => (b.addr-smallMachine.hhdm,b.size,b.kind))=
        [(0x3018,20,some 2),(0x7080,100,some 6),(0xc000,5000,none)] ∧
      s.live.Pairwise (fun b c => (reserved smallMachine s.heap b.addr).Separate
        (reserved smallMachine s.heap c.addr)) := by
  refine ⟨(System.exec (heapCall (bitmapPages smallMachine)) ⟨smallHeap,[]⟩ smallCalls).get
    (by decide +kernel),(Option.some_get _).symm,by decide +kernel,?_⟩
  exact (heap_runs_sound (bitmapPages smallMachine) smallRam smallRam_valid smallHeap
    (Option.some_get _).symm _ (System.reachable_exec _ _ _ smallCalls
      (Option.some_get _).symm)).1

end X64OS.Memory
