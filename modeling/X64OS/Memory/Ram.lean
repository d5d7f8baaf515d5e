import X64OS.Framework.ByteMemory
import X64OS.Memory.Pmm

namespace X64OS.Memory

open Framework

/-- Where the boot loader put things: the direct map of physical memory
(VMM_HIGHER_HALF) and the kernel's static array of slabs. Every physical page
has its place in the direct map and fits the address bits of a page-table entry. -/
structure Machine where
  hhdm : Nat
  physPages : Nat
  slabs : Nat
  hhdm_aligned : hhdm%pageSize=0
  hhdm_pos : 0 < hhdm
  phys_le : physPages ≤ 2^40
  window : hhdm+physPages*pageSize ≤ 2^64
  slabs_le : slabs+320 ≤ 2^64

/-! The direct map and the slabs of the machines on which fixed runs start. -/

theorem directMap_aligned : 0xffff800000000000%pageSize=0 := by decide

theorem directMap_pos : 0 < 0xffff800000000000 := by decide

theorem slabArray_le : 0xffffffff80000000+320 ≤ 2^64 := by decide

theorem sixteenPages_le : 16 ≤ 2^40 := by decide

theorem sixteenPages_window : 0xffff800000000000+16*pageSize ≤ 2^64 := by decide

/-- What the kernel relies on when it calls the page allocator: pages handed
out are inside physical memory, not page 0, and in nobody's use. -/
structure PageAllocator (M : Machine) (P : Type) where
  alloc : P → Nat → Option (Nat × P)
  free : P → Nat → Nat → P
  Valid : P → Prop
  inUse : P → Nat → Prop
  alloc_valid : ∀ p n a p', Valid p → 1 ≤ n → alloc p n=some (a,p') → Valid p'
  alloc_aligned : ∀ p n a p', Valid p → 1 ≤ n → alloc p n=some (a,p') → a=a/pageSize*pageSize
  alloc_pos : ∀ p n a p', Valid p → 1 ≤ n → alloc p n=some (a,p') → 0 < a/pageSize
  alloc_bound : ∀ p n a p', Valid p → 1 ≤ n → alloc p n=some (a,p') → a/pageSize+n ≤ M.physPages
  alloc_fresh : ∀ p n a p', Valid p → 1 ≤ n → alloc p n=some (a,p') →
    ∀ i∈(⟨a/pageSize,n⟩ : Span), ¬inUse p i
  alloc_used : ∀ p n a p', Valid p → 1 ≤ n → alloc p n=some (a,p') →
    ∀ i, inUse p' i ↔ i∈(⟨a/pageSize,n⟩ : Span) ∨ inUse p i
  free_valid : ∀ p a n, Valid p → 0∉(⟨a/pageSize,n⟩ : Span) → Valid (free p a n)
  free_keeps : ∀ p a n i, Valid p → i∉(⟨a/pageSize,n⟩ : Span) → inUse p i → inUse (free p a n) i

/-- The bitmap allocator meets these laws as long as its bitmap ends inside
physical memory; a page above the bitmap counts as in use. -/
def bitmapPages (M : Machine) : PageAllocator M Pmm.State where
  alloc := Pmm.pmmAllocNozero
  free := Pmm.pmmFree
  Valid s := Pmm.Valid s ∧ s.highestPageIndex ≤ M.physPages
  inUse s i := Pmm.bitmapTest s.bitmap i=true
  alloc_valid p n a p' hv hn h := by
    obtain ⟨hg,-⟩ := Pmm.pmmAllocNozero_spec p p' n a hv.1 hn h
    refine ⟨⟨?_,?_⟩,?_⟩
    · rw [hg.taken,hv.1.page0,Bool.or_true]
    · rw [hg.highest]
      exact hg.cursor
    · rw [hg.highest]
      exact hv.2
  alloc_aligned p n a p' hv hn h := (Pmm.pmmAllocNozero_spec p p' n a hv.1 hn h).1.addr_eq
  alloc_pos p n a p' hv hn h := (Pmm.pmmAllocNozero_spec p p' n a hv.1 hn h).1.pos
  alloc_bound p n a p' hv hn h :=
    (Pmm.pmmAllocNozero_spec p p' n a hv.1 hn h).1.bound.trans hv.2
  alloc_fresh p n a p' hv hn h i hi hu := by
    rw [(Pmm.pmmAllocNozero_spec p p' n a hv.1 hn h).1.free i hi] at hu
    cases hu
  alloc_used p n a p' hv hn h i := by
    rw [(Pmm.pmmAllocNozero_spec p p' n a hv.1 hn h).1.taken,Bool.or_eq_true,decide_eq_true_iff]
  free_valid p a n hv h0 := by
    refine ⟨⟨?_,hv.1.cursor⟩,hv.2⟩
    rw [Pmm.bitmapTest_pmmFree,decide_eq_false h0,hv.1.page0]
    rfl
  free_keeps p a n i hv hi hu := by
    rw [Pmm.bitmapTest_pmmFree,decide_eq_false hi,hu]
    rfl

/-- An allocator that hands out pages in order and takes none back also meets
the laws; its state is the next page. -/
def bumpPages (M : Machine) : PageAllocator M Nat where
  alloc p n := if p+n ≤ M.physPages then some (p*pageSize,p+n) else none
  free p _ _ := p
  Valid p := 0 < p
  inUse p i := i < p
  alloc_valid p n a p' hv _ h := by
    simp only [Option.ite_none_right_eq_some,Option.some.injEq,Prod.mk.injEq] at h
    omega
  alloc_aligned p n a p' _ _ h := by
    simp only [Option.ite_none_right_eq_some,Option.some.injEq,Prod.mk.injEq,pageSize] at h ⊢
    omega
  alloc_pos p n a p' hv _ h := by
    simp only [Option.ite_none_right_eq_some,Option.some.injEq,Prod.mk.injEq,pageSize] at h ⊢
    omega
  alloc_bound p n a p' _ _ h := by
    simp only [Option.ite_none_right_eq_some,Option.some.injEq,Prod.mk.injEq,pageSize] at h ⊢
    omega
  alloc_fresh p n a p' _ _ h i hi hu := by
    rw [Span.mem_mk] at hi
    simp only [Option.ite_none_right_eq_some,Option.some.injEq,Prod.mk.injEq,pageSize] at h hi
    omega
  alloc_used p n a p' _ _ h i := by
    rw [Span.mem_mk]
    simp only [Option.ite_none_right_eq_some,Option.some.injEq,Prod.mk.injEq,pageSize] at h ⊢
    omega
  free_valid _ _ _ hv _ := hv
  free_keeps _ _ _ _ _ _ hu := hu

/-- Physical memory, seen through the direct map, with its allocator. -/
structure Ram (P : Type) where
  mem : Mem
  pmm : P

section

variable {M : Machine} {P : Type} (A : PageAllocator M P)

/-- Only the first sizeof(size_t) bytes are cleared. -/
def pmmAllocNozero (r : Ram P) (pages : Nat) : Option (Nat × Ram P) :=
  (A.alloc r.pmm pages).map (fun x => (x.1,⟨Mem.fill r.mem (x.1+M.hhdm) 8 0,x.2⟩))

def pmmAlloc (r : Ram P) (pages : Nat) : Option (Nat × Ram P) :=
  (pmmAllocNozero A r pages).map (fun x =>
    if x.1≠0 then (x.1,⟨Mem.fill x.2.mem (x.1+M.hhdm) (pages*pageSize) 0,x.2.pmm⟩) else x)

def pmmFree (r : Ram P) (addr pages : Nat) : Ram P := ⟨r.mem,A.free r.pmm addr pages⟩

def mapped (M : Machine) (phys n : Nat) : Span := ⟨phys+M.hhdm,n*pageSize⟩

/-- A granted request: fresh pages, marked in use, with no other byte changed. -/
structure Granted (r r' : Ram P) (phys pages : Nat) : Prop where
  valid : A.Valid r'.pmm
  aligned : phys%pageSize=0
  pos : 0 < phys
  bound : phys+pages*pageSize ≤ M.physPages*pageSize
  fresh : ∀ i∈(⟨phys/pageSize,pages⟩ : Span), ¬A.inUse r.pmm i
  used : ∀ i, A.inUse r'.pmm i ↔ i∈(⟨phys/pageSize,pages⟩ : Span) ∨ A.inUse r.pmm i
  frame : Mem.SameOff (mapped M phys pages) r.mem r'.mem

variable {A}
variable {pages phys : Nat} {r r' : Ram P}

theorem pmmAllocNozero_granted (hv : A.Valid r.pmm) (hn : 1 ≤ pages)
    (h : pmmAllocNozero A r pages=some (phys,r')) : Granted A r r' phys pages := by
  obtain ⟨⟨a,p'⟩,ha,he⟩ := Option.map_eq_some_iff.mp h
  simp only [Prod.mk.injEq] at he
  obtain ⟨rfl,rfl⟩ := he
  have hal := A.alloc_aligned _ _ _ _ hv hn ha
  have hpos := A.alloc_pos _ _ _ _ hv hn ha
  have hb := A.alloc_bound _ _ _ _ hv hn ha
  have hsize : 8 ≤ pages*pageSize := by
    simp only [pageSize]
    omega
  refine ⟨A.alloc_valid _ _ _ _ hv hn ha,?_,?_,?_,A.alloc_fresh _ _ _ _ hv hn ha,
    A.alloc_used _ _ _ _ hv hn ha,?_⟩
  · rw [hal]
    exact Nat.mul_mod_left _ _
  · rw [hal]
    exact Nat.mul_pos hpos (by decide)
  · rw [hal,← Nat.add_mul]
    exact Nat.mul_le_mul_right _ hb
  · apply (Mem.sameOff_fill _ _ _ _).widen
    · exact Nat.le_refl _
    · omega

theorem pmmAlloc_granted (hv : A.Valid r.pmm) (hn : 1 ≤ pages)
    (h : pmmAlloc A r pages=some (phys,r')) :
    Granted A r r' phys pages ∧ ∀ x∈mapped M phys pages, r'.mem x=0 := by
  obtain ⟨⟨a,r₁⟩,ha,he⟩ := Option.map_eq_some_iff.mp h
  have hg := pmmAllocNozero_granted hv hn ha
  have hne : a≠0 := Nat.pos_iff_ne_zero.mp hg.pos
  rw [if_pos hne] at he
  simp only [Prod.mk.injEq] at he
  obtain ⟨rfl,rfl⟩ := he
  refine ⟨⟨hg.valid,hg.aligned,hg.pos,hg.bound,hg.fresh,hg.used,?_⟩,fun x hx => if_pos hx⟩
  exact hg.frame.trans (Mem.sameOff_fill _ _ _ _)

theorem Granted.base (hg : Granted A r r' phys 1) :
    (phys+M.hhdm)%pageSize=0 ∧ M.hhdm ≤ phys+M.hhdm ∧ phys+M.hhdm+pageSize ≤ 2^64 := by
  have h1 := hg.aligned
  have h2 := M.hhdm_aligned
  have h3 := hg.bound
  have h4 := M.window
  simp only [pageSize] at h1 h2 h3 h4 ⊢
  omega

theorem Granted.base_mod (hg : Granted A r r' phys 1) : (phys+M.hhdm)%2^64=phys+M.hhdm := by
  have hend := hg.base.2.2
  apply Nat.mod_eq_of_lt
  simp only [pageSize] at hend
  omega

theorem Granted.separate (hg : Granted A r r' phys pages) (s : Span)
    (hu : ∀ x∈s, A.inUse r.pmm ((x-M.hhdm)/pageSize)) : (mapped M phys pages).Separate s := by
  intro x hx hs
  refine hg.fresh _ ?_ (hu x hs)
  have hal := hg.aligned
  rw [mapped,Span.mem_mk] at hx
  rw [Span.mem_mk]
  simp only [pageSize] at hx hal ⊢
  omega

theorem Granted.inUse (hg : Granted A r r' phys pages) (x : Nat) (hx : x∈mapped M phys pages) :
    A.inUse r'.pmm ((x-M.hhdm)/pageSize) := by
  have hal := hg.aligned
  refine (hg.used _).mpr (.inl ?_)
  rw [mapped,Span.mem_mk] at hx
  rw [Span.mem_mk]
  simp only [pageSize] at hx hal ⊢
  omega

end

end X64OS.Memory
