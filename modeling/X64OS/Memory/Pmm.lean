import Mathlib.Algebra.Group.Nat.Defs
import Mathlib.Logic.Function.Basic
import Mathlib.Tactic.SplitIfs
import X64OS.Framework.Span

namespace X64OS.Memory

open Framework Function

def pageSize : Nat := 4096

namespace Pmm

/-- Byte k of the allocation bitmap; bit i of it is page i, set when not free. -/
abbrev Bitmap := Nat → BitVec 8

section
variable (bitmap : Bitmap) (bit : Nat)

def bitmapTest : Bool :=
  bitmap (bit/8) &&& (1#8 <<< (bit%8)) != 0#8

def bitmapSet : Bitmap :=
  update bitmap (bit/8) (bitmap (bit/8) ||| (1#8 <<< (bit%8)))

def bitmapReset : Bitmap :=
  update bitmap (bit/8) (bitmap (bit/8) &&& ~~~(1#8 <<< (bit%8)))

end

def bitmapEach (f : Bitmap → Nat → Bitmap) (bitmap : Bitmap) (page : Nat) : Nat → Bitmap
  | 0 => bitmap
  | n+1 => f (bitmapEach f bitmap page n) (page+n)

/-- The allocator's globals. highestPageIndex is a 64-bit byte address divided
by the page size, which bounds it below 2^52. -/
structure State where
  bitmap : Bitmap
  highestPageIndex : Nat
  lastUsedIndex : Nat
  usedPages : BitVec 64
  highest_lt : highestPageIndex < 2^52

/-- The scan of inner_alloc: p counts the free pages that end at the cursor
idx. The answer is the first page of the run found and the cursor left behind;
fuel is the number of pages between the cursor and the limit. -/
def innerScan (bitmap : Bitmap) (pages limit : Nat) : Nat → Nat → Nat → Option Nat × Nat
  | 0,_,idx => (none,idx)
  | fuel+1,p,idx =>
    if idx < limit then
      if bitmapTest bitmap idx then innerScan bitmap pages limit fuel 0 (idx+1)
      else if p+1=pages then (some (idx+1-pages),idx+1)
      else innerScan bitmap pages limit fuel (p+1) (idx+1)
    else (none,idx)

/-- Address 0 is the null pointer the callers test for. -/
def innerAlloc (s : State) (pages limit : Nat) : Nat × State :=
  match innerScan s.bitmap pages limit (limit-s.lastUsedIndex) 0 s.lastUsedIndex with
  | (some page,idx) =>
    (page*pageSize,{ s with
      bitmap := bitmapEach bitmapSet s.bitmap page (idx-page), lastUsedIndex := idx })
  | (none,idx) => (0,{ s with lastUsedIndex := idx })

/-- The end of pmm_alloc_nozero: none is the endless loop on exhaustion. -/
def accountPages (r : Nat × State) (pages : Nat) : Option (Nat × State) :=
  if r.1=0 then none
  else some (r.1,{ r.2 with usedPages := r.2.usedPages+BitVec.ofNat 64 pages })

/-- The second scan stops where the first one had begun. -/
def pmmAllocNozero (s : State) (pages : Nat) : Option (Nat × State) :=
  let last := s.lastUsedIndex
  let r := innerAlloc s pages s.highestPageIndex
  accountPages (if r.1=0 then innerAlloc { r.2 with lastUsedIndex := 0 } pages last else r) pages

def pmmFree (s : State) (addr pages : Nat) : State :=
  { s with
    bitmap := bitmapEach bitmapReset s.bitmap (addr/pageSize) pages
    usedPages := s.usedPages-BitVec.ofNat 64 pages }

theorem innerScan_zero (bitmap : Bitmap) (limit fuel p idx : Nat) :
    (innerScan bitmap 0 limit fuel p idx).1=none := by
  induction fuel generalizing p idx with
  | zero => rfl
  | succ fuel ih =>
    rw [innerScan,if_neg (Nat.succ_ne_zero p)]
    by_cases hidx : idx < limit
    · rw [if_pos hidx]
      by_cases hbit : bitmapTest bitmap idx=true
      · rw [if_pos hbit]
        exact ih _ _
      · rw [if_neg hbit]
        exact ih _ _
    · rw [if_neg hidx]

theorem pmmAllocNozero_zero (s : State) : pmmAllocNozero s 0=none := by
  have hinner : ∀ (s : State) (limit : Nat), (innerAlloc s 0 limit).1=0 := by
    intro s limit
    have h := innerScan_zero s.bitmap limit (limit-s.lastUsedIndex) 0 s.lastUsedIndex
    rw [innerAlloc]
    split
    · rename_i heq
      rw [heq] at h
      cases h
    · rfl
  rw [pmmAllocNozero]
  dsimp only
  rw [if_pos (hinner _ _),accountPages,if_pos (hinner _ _)]

section
variable (bitmap : Bitmap)

theorem bitmapTest_eq (i : Nat) : bitmapTest bitmap i=(bitmap (i/8)).getLsbD (i%8) := by
  have hk : i%8 < 8 := Nat.mod_lt _ (by decide)
  have hp : BitVec.twoPow 8 (i%8)≠0#8 := by
    intro h
    have h1 := congrArg (fun v => v.getLsbD (i%8)) h
    simp [hk] at h1
  change (bitmap (i/8) &&& BitVec.twoPow 8 (i%8) != 0#8)=_
  rw [BitVec.and_twoPow]
  cases (bitmap (i/8)).getLsbD (i%8) <;> simp [hp]

theorem bitmapTest_set (i j : Nat) :
    bitmapTest (bitmapSet bitmap i) j=(decide (j=i) || bitmapTest bitmap j) := by
  rw [bitmapTest_eq,bitmapTest_eq,bitmapSet]
  by_cases h : j/8=i/8
  · have hij : j=i ↔ j%8=i%8 := by omega
    rw [h,update_self,BitVec.getLsbD_or]
    change (_ || (BitVec.twoPow 8 (i%8)).getLsbD (j%8))=_
    have hi : i%8 < 8 := Nat.mod_lt _ (by decide)
    rw [BitVec.getLsbD_twoPow,Bool.or_comm]
    simp [hij,hi,eq_comm]
  · have hij : j≠i := by intro he; exact h (by rw [he])
    rw [update_of_ne h]
    simp [hij]

theorem bitmapTest_reset (i j : Nat) :
    bitmapTest (bitmapReset bitmap i) j=(!decide (j=i) && bitmapTest bitmap j) := by
  rw [bitmapTest_eq,bitmapTest_eq,bitmapReset]
  by_cases h : j/8=i/8
  · have hij : j=i ↔ j%8=i%8 := by omega
    rw [h,update_self,BitVec.getLsbD_and,BitVec.getLsbD_not]
    change (_ && (_ && !(BitVec.twoPow 8 (i%8)).getLsbD (j%8)))=_
    have hi : i%8 < 8 := Nat.mod_lt _ (by decide)
    have hj : j%8 < 8 := Nat.mod_lt _ (by decide)
    rw [BitVec.getLsbD_twoPow,Bool.and_comm]
    simp [hij,hi,hj,eq_comm]
  · have hij : j≠i := by intro he; exact h (by rw [he])
    rw [update_of_ne h]
    simp [hij]

theorem bitmapTest_setEach (page n j : Nat) :
    bitmapTest (bitmapEach bitmapSet bitmap page n) j=
      (decide (j∈(⟨page,n⟩ : Span)) || bitmapTest bitmap j) := by
  induction n with
  | zero => simp [bitmapEach]
  | succ n ih =>
    rw [bitmapEach,bitmapTest_set,ih,← Bool.or_assoc,← Bool.decide_or]
    congr 2
    simp only [Span.mem_mk,eq_iff_iff]
    omega

theorem bitmapTest_resetEach (page n j : Nat) :
    bitmapTest (bitmapEach bitmapReset bitmap page n) j=
      (!decide (j∈(⟨page,n⟩ : Span)) && bitmapTest bitmap j) := by
  induction n with
  | zero =>
    have hj : j∉(⟨page,0⟩ : Span) := fun h => by simp at h; omega
    simp only [bitmapEach,hj,decide_false,Bool.not_false,Bool.true_and]
  | succ n ih =>
    rw [bitmapEach,bitmapTest_reset,ih,← Bool.and_assoc,← Bool.not_or,← Bool.decide_or]
    congr 3
    simp only [Span.mem_mk,eq_iff_iff]
    omega

theorem innerScan_some (pages limit fuel p idx page idx' : Nat) (hp : p ≤ idx)
    (hfree : ∀ i, idx-p ≤ i → i < idx → bitmapTest bitmap i=false)
    (h : innerScan bitmap pages limit fuel p idx=(some page,idx')) :
    page+pages=idx' ∧ idx' ≤ limit ∧
      ∀ i, page ≤ i → i < idx' → bitmapTest bitmap i=false := by
  induction fuel generalizing p idx with
  | zero => simp [innerScan] at h
  | succ fuel ih =>
    unfold innerScan at h
    split_ifs at h with hlt hused hlast
    · exact ih 0 (idx+1) (by omega) (fun i h1 h2 => by omega) h
    · simp only [Prod.mk.injEq,Option.some.injEq] at h
      obtain ⟨rfl,rfl⟩ := h
      refine ⟨by omega,by omega,?_⟩
      intro i h1 h2
      by_cases hi : i=idx
      · rw [hi]
        simpa using hused
      · exact hfree i (by omega) (by omega)
    · refine ih (p+1) (idx+1) (by omega) ?_ h
      intro i h1 h2
      by_cases hi : i=idx
      · rw [hi]
        simpa using hused
      · exact hfree i (by omega) (by omega)
    · cases h

theorem innerScan_cursor (pages limit fuel p idx : Nat) (h : idx ≤ limit) :
    (innerScan bitmap pages limit fuel p idx).2 ≤ limit := by
  induction fuel generalizing p idx with
  | zero => exact h
  | succ fuel ih =>
    unfold innerScan
    split_ifs with hlt
    · exact ih 0 (idx+1) hlt
    · exact hlt
    · exact ih (p+1) (idx+1) hlt
    · exact h

end

/-- The allocator's own invariant: page 0 is never handed out and the cursor
stays inside the bitmap. -/
structure Valid (s : State) : Prop where
  page0 : bitmapTest s.bitmap 0=true
  cursor : s.lastUsedIndex ≤ s.highestPageIndex

/-- What one call of inner_alloc that returns a nonnull address did. -/
structure Grabbed (s s' : State) (addr pages : Nat) : Prop where
  addr_eq : addr=addr/pageSize*pageSize
  pos : 0 < addr/pageSize
  bound : addr/pageSize+pages ≤ s.highestPageIndex
  free : ∀ i∈(⟨addr/pageSize,pages⟩ : Span), bitmapTest s.bitmap i=false
  taken : ∀ i, bitmapTest s'.bitmap i=
    (decide (i∈(⟨addr/pageSize,pages⟩ : Span)) || bitmapTest s.bitmap i)
  highest : s'.highestPageIndex=s.highestPageIndex
  cursor : s'.lastUsedIndex ≤ s.highestPageIndex

theorem Grabbed.addr_ne {s s' : State} {addr pages : Nat} (h : Grabbed s s' addr pages) :
    addr≠0 := by
  intro hz
  have hp := h.pos
  rw [hz] at hp
  exact absurd hp (by decide)

theorem accountPages_grabbed {s s' : State} {r : Nat × State} {addr pages : Nat}
    (hg : Grabbed s r.2 r.1 pages) (hu : r.2.usedPages=s.usedPages)
    (h : accountPages r pages=some (addr,s')) :
    Grabbed s s' addr pages ∧ s'.usedPages=s.usedPages+BitVec.ofNat 64 pages := by
  rw [accountPages,if_neg hg.addr_ne] at h
  simp only [Option.some.injEq,Prod.mk.injEq] at h
  obtain ⟨rfl,rfl⟩ := h
  exact ⟨⟨hg.addr_eq,hg.pos,hg.bound,hg.free,hg.taken,hg.highest,hg.cursor⟩,by rw [hu]⟩

/-- Every outcome of inner_alloc from a valid state. A run that starts at page 0
would be reported as a failure, but page 0 is in use. -/
theorem innerAlloc_cases (s : State) (pages limit : Nat) (hpages : 1 ≤ pages)
    (h0 : bitmapTest s.bitmap 0=true) (hl : limit ≤ s.highestPageIndex)
    (hc : s.lastUsedIndex ≤ limit) :
    ((innerAlloc s pages limit).1=0 ∧
      ∃ idx, idx ≤ limit ∧ (innerAlloc s pages limit).2={ s with lastUsedIndex := idx }) ∨
    (Grabbed s (innerAlloc s pages limit).2 (innerAlloc s pages limit).1 pages ∧
      (innerAlloc s pages limit).2.usedPages=s.usedPages) := by
  have hcur := innerScan_cursor s.bitmap pages limit (limit-s.lastUsedIndex) 0 s.lastUsedIndex hc
  unfold innerAlloc
  rcases hscan : innerScan s.bitmap pages limit (limit-s.lastUsedIndex) 0 s.lastUsedIndex with
    ⟨_ | page,idx⟩
  · rw [hscan] at hcur
    exact .inl ⟨rfl,idx,hcur,rfl⟩
  · obtain ⟨hrun,hle,hfree⟩ := innerScan_some _ _ _ _ _ _ _ _ (Nat.zero_le _)
      (fun i h1 h2 => by omega) hscan
    have hpage : 0 < page := by
      rcases Nat.eq_zero_or_pos page with hz | hz
      · rw [hfree 0 (by omega) (by omega)] at h0
        cases h0
      · exact hz
    have hdiv : page*pageSize/pageSize=page := Nat.mul_div_cancel _ (by decide)
    have hlen : idx-page=pages := by omega
    refine .inr ⟨⟨?_,?_,?_,?_,?_,rfl,?_⟩,rfl⟩ <;> simp only [hdiv]
    · exact hpage
    · omega
    · intro i hi
      exact hfree i hi.1 (by rw [← hrun]; exact hi.2)
    · intro i
      rw [hlen,bitmapTest_setEach]
    · omega

theorem pmmAllocNozero_spec (s s' : State) (pages addr : Nat) (hv : Valid s)
    (hpages : 1 ≤ pages) (h : pmmAllocNozero s pages=some (addr,s')) :
    Grabbed s s' addr pages ∧ s'.usedPages=s.usedPages+BitVec.ofNat 64 pages := by
  unfold pmmAllocNozero at h
  simp only at h
  rcases innerAlloc_cases s pages s.highestPageIndex hpages hv.page0 le_rfl hv.cursor with
    ⟨hnull,idx,-,hst⟩ | ⟨hg,hu⟩
  · -- the wrapped scan runs from page 0 up to the old cursor
    rw [if_pos hnull,hst] at h
    rcases innerAlloc_cases { s with lastUsedIndex := 0 } pages s.lastUsedIndex hpages
        hv.page0 hv.cursor (Nat.zero_le _) with ⟨hnull',-⟩ | ⟨hg,hu⟩
    · rw [accountPages,if_pos hnull'] at h
      cases h
    · exact accountPages_grabbed ⟨hg.addr_eq,hg.pos,hg.bound,hg.free,hg.taken,hg.highest,hg.cursor⟩
        hu h
  · have hnz : (innerAlloc s pages s.highestPageIndex).1≠0 := hg.addr_ne
    rw [if_neg hnz] at h
    exact accountPages_grabbed hg hu h

theorem bitmapTest_pmmFree (s : State) (addr pages i : Nat) :
    bitmapTest (pmmFree s addr pages).bitmap i=
      (!decide (i∈(⟨addr/pageSize,pages⟩ : Span)) && bitmapTest s.bitmap i) :=
  bitmapTest_resetEach _ _ _ _

end Pmm

end X64OS.Memory
