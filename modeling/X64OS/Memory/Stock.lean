import X64OS.Memory.PmmSearch
import X64OS.Memory.Vmm

namespace X64OS.Memory

open Framework
open Option (bind_some map_some)

/-- What an allocator still has: where m+n pages are left, a request for n is met and leaves m. -/
structure Stock {M : Machine} {P : Type} (A : PageAllocator M P) where
  Left : Nat → P → Prop
  less : ∀ n p, Left (n+1) p → Left n p
  take : ∀ n m p, 1 ≤ n → Left (m+n) p → ∃ a p', A.alloc p n=some (a,p') ∧ Left m p'

theorem bump_take {M : Machine} (n m p : Nat) (h : p+(m+n) ≤ M.physPages) :
    ∃ a p', (bumpPages M).alloc p n=some (a,p') ∧ p'+m ≤ M.physPages :=
  ⟨p*pageSize,p+n,if_pos (by omega),by omega⟩

def bumpStock (M : Machine) : Stock (bumpPages M) where
  Left n p := p+n ≤ M.physPages
  less _ _ h := Nat.le_of_succ_le h
  take n m p _ h := bump_take n m p h

namespace Pmm

variable {s : State} {n m a : Nat}

theorem pmmAllocNozero_first (hn : 1 ≤ n) (ha : 0 < a)
    (h : FirstRun s.bitmap s.lastUsedIndex s.highestPageIndex n a) :
    pmmAllocNozero s n=some (a*pageSize,{ s with
      bitmap := bitmapEach bitmapSet s.bitmap a n
      lastUsedIndex := a+n
      usedPages := s.usedPages+BitVec.ofNat 64 n }) := by
  have hscan := (innerScan_spec s.bitmap s.lastUsedIndex s.highestPageIndex hn a).mpr h
  rcases hs : innerScan s.bitmap n s.highestPageIndex (s.highestPageIndex-s.lastUsedIndex) 0
      s.lastUsedIndex with ⟨page,idx⟩
  rw [hs] at hscan
  cases hscan
  obtain ⟨hidx,-,-⟩ := innerScan_some _ _ _ _ _ _ _ _ (Nat.zero_le _) (fun i h1 h2 => by omega) hs
  have hne : ¬a*pageSize=0 := Nat.mul_ne_zero (by omega) (by decide)
  rw [pmmAllocNozero,innerAlloc,hs]
  dsimp only
  rw [if_neg hne,accountPages,if_neg hne,← hidx,Nat.add_sub_cancel_left]

/-- A free run behind the cursor. -/
def Ahead (n : Nat) (s : State) : Prop :=
  Valid s ∧ ∃ a, FreeRun s.bitmap s.lastUsedIndex s.highestPageIndex n a

theorem Ahead.less (h : Ahead (n+1) s) : Ahead n s := by
  obtain ⟨hv,a,hlow,hhigh,hfree⟩ := h
  refine ⟨hv,a,hlow,by omega,fun i hi => hfree i ?_⟩
  rw [Span.mem_mk] at hi ⊢
  omega

theorem Ahead.take (hn : 1 ≤ n) (h : Ahead (m+n) s) :
    ∃ x, pmmAllocNozero s n=some x ∧ Ahead m x.2 := by
  obtain ⟨hv,a,hlow,hhigh,hfree⟩ := h
  have hrun : FreeRun s.bitmap s.lastUsedIndex s.highestPageIndex n a := by
    refine ⟨hlow,by omega,fun i hi => hfree i ?_⟩
    rw [Span.mem_mk] at hi ⊢
    omega
  obtain ⟨b,hb⟩ := hrun.exists_first
  have hba : b ≤ a := by
    by_contra hlt
    exact hb.2 a (by omega) hrun
  have hpos : 0 < b := by
    rw [Nat.pos_iff_ne_zero]
    rintro rfl
    have hused := hb.1.free 0 (by rw [Span.mem_mk]; omega)
    rw [hv.page0] at hused
    cases hused
  have hend := hb.1.high
  refine ⟨_,pmmAllocNozero_first hn hpos hb,⟨?_,hend⟩,a+n,?_,?_,?_⟩
  · dsimp only
    rw [bitmapTest_setEach,hv.page0,Bool.or_true]
  · dsimp only
    omega
  · dsimp only
    omega
  · intro i hi
    rw [Span.mem_mk] at hi
    dsimp only
    rw [bitmapTest_setEach,hfree i (by rw [Span.mem_mk]; omega),Bool.or_false,
      decide_eq_false_iff_not,Span.mem_mk]
    omega

end Pmm

namespace Stock

variable {M : Machine} {P : Type} {A : PageAllocator M P} (S : Stock A) {r : Ram P} {n m : Nat}

theorem of_more {p : P} (n : Nat) (h : S.Left (m+n) p) : S.Left m p := by
  induction n with
  | zero => exact h
  | succ n ih => exact ih (S.less _ _ h)

theorem pmmAlloc (hn : 1 ≤ n) (h : S.Left (m+n) r.pmm) :
    ∃ x, Memory.pmmAlloc A r n=some x ∧ S.Left m x.2.pmm := by
  obtain ⟨a,p',halloc,hleft⟩ := S.take n m r.pmm hn h
  rw [Memory.pmmAlloc,Memory.pmmAllocNozero,halloc,map_some,map_some]
  refine ⟨_,rfl,?_⟩
  split_ifs <;> exact hleft

/-- get_next_level returns as long as a page is left. -/
theorem getNextLevel (h : S.Left (m+1) r.pmm) (top i : Nat) :
    ∃ x, Memory.getNextLevel A r top i true=some x ∧ S.Left m x.2.pmm := by
  rw [Memory.getNextLevel]
  split
  · exact ⟨_,rfl,S.less _ _ h⟩
  · obtain ⟨x,halloc,hleft⟩ := S.pmmAlloc le_rfl h
    rw [if_neg (by simp),halloc,map_some]
    refine ⟨_,rfl,?_⟩
    split_ifs <;> exact hleft

theorem findPml1 (h : S.Left (m+3) r.pmm) (pml4 : Nat) (virt : BitVec 64) :
    ∃ x, Memory.findPml1 A r pml4 virt true=some x ∧ S.Left m x.2.pmm := by
  obtain ⟨x,hx,h⟩ := S.getNextLevel (m:=m+2) h pml4 (pml4Entry virt)
  rw [Memory.findPml1,hx,bind_some]
  split_ifs
  · exact ⟨x,rfl,S.of_more 2 h⟩
  obtain ⟨y,hy,h⟩ := S.getNextLevel (m:=m+1) h x.1 (pml3Entry virt)
  rw [hy,bind_some]
  split_ifs
  · exact ⟨y,rfl,S.of_more 1 h⟩
  · exact S.getNextLevel h y.1 (pml2Entry virt)

theorem vmmMapPage (h : S.Left (m+3) r.pmm) (top : Nat) (virt phys flags : BitVec 64)
    (overwrite : Bool) : ∃ x, Memory.vmmMapPage A r (some top) virt phys flags overwrite=some x ∧
      S.Left m x.2.pmm := by
  obtain ⟨x,hx,h⟩ := S.findPml1 h (liftTable M top) virt
  rw [Memory.vmmMapPage,hx,map_some]
  refine ⟨_,rfl,?_⟩
  split_ifs <;> exact h

theorem vmmNewPagemap (h : S.Left (m+7) r.pmm) (k : Nat) :
    ∃ x, Memory.vmmNewPagemap A r (some k)=some x ∧ S.Left m x.2.pmm := by
  obtain ⟨x,hx,h⟩ := S.pmmAlloc (m:=m+6) le_rfl h
  rw [Memory.vmmNewPagemap,hx,bind_some]
  split_ifs
  · exact ⟨_,rfl,S.of_more 6 h⟩
  · dsimp only
    generalize copyEntries _ _ _ _=mem
    obtain ⟨y,hy,h⟩ := S.vmmMapPage (r:=⟨mem,x.2.pmm⟩) (m:=m+3) h ((x.1+M.hhdm)%2^64) 0x37fc024#64
      0x37fc024#64 (ptePresent ||| pteWritable) false
    obtain ⟨z,hz,h⟩ := S.vmmMapPage h ((x.1+M.hhdm)%2^64) 0x37fd024#64 0x37fd024#64
      (pteWritable ||| ptePresent) false
    rw [hy,bind_some,hz,map_some]
    exact ⟨_,rfl,h⟩

theorem populate (h : S.Left (m+n) r.pmm) (top : Nat) :
    ∃ r', Memory.populate A r top n=some r' ∧ S.Left m r'.pmm := by
  induction n generalizing m with
  | zero => exact ⟨r,rfl,h⟩
  | succ n ih =>
    obtain ⟨r₁,h1,hleft⟩ := ih (m:=m+1) (by rwa [Nat.add_right_comm])
    obtain ⟨x,h2,hleft⟩ := S.getNextLevel hleft top n
    refine ⟨x.2,?_,hleft⟩
    rw [Memory.populate,h1,bind_some,h2,map_some]

end Stock

end X64OS.Memory
