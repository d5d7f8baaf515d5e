import X64OS.Memory.MmapOps
import X64OS.Memory.Pagemaps

namespace X64OS.Memory

open Framework Function
open Option (map_eq_some_iff bind_eq_some_iff)

variable {M : Machine} {P : Type} {A : PageAllocator M P}
variable {s s' s'' : MmapState M P} {hit : RangeHit} {pm i e limit : Nat}

/-- The ranges listed for a pagemap are distinct objects that hold disjoint
whole pages. -/
structure RangesOk (s : MmapState M P) (pm : Nat) : Prop where
  known : pm < s.nextPagemap
  nodup : (s.ranges pm).Nodup
  bound : ∀ k∈s.ranges pm, k < s.nextLocal
  cell : ∀ k∈s.ranges pm, ∃ l, s.locals k=some l ∧ RangeOk l
  apart : ∀ k∈s.ranges pm, ∀ k'∈s.ranges pm, k≠k' → ∀ l l', s.locals k=some l →
    s.locals k'=some l' → l.span.Separate l'.span

variable {k : Nat} {l : LocalRange}

theorem RangesOk.rangeOk (h : RangesOk s pm) (hk : k∈s.ranges pm) (hl : s.locals k=some l) :
    RangeOk l := by
  obtain ⟨l',hl',hok⟩ := h.cell k hk
  cases hl.symm.trans hl'
  exact hok

theorem RangesOk.new_notMem (h : RangesOk s pm) : s.nextLocal∉s.ranges pm :=
  fun hk => absurd (h.bound _ hk) (Nat.lt_irrefl _)

theorem RangesOk.nodup_append (h : RangesOk s pm) : (s.ranges pm++[s.nextLocal]).Nodup :=
  List.nodup_append.mpr ⟨h.nodup,List.nodup_singleton _,fun _ ha _ hb hab =>
    h.new_notMem (List.mem_singleton.mp hb ▸ hab ▸ ha)⟩

theorem RangesOk.bound_append (h : RangesOk s pm) :
    ∀ k∈s.ranges pm++[s.nextLocal], k < s.nextLocal+1 := by
  intro k hk
  obtain hk | hk := List.mem_append.mp hk
  · exact Nat.lt_succ_of_lt (h.bound k hk)
  · rw [List.mem_singleton.mp hk]
    exact Nat.lt_succ_self _

def Remains (s s' : MmapState M P) (pm : Nat) : Prop :=
  ∀ k∈s'.ranges pm, ∀ l', s'.locals k=some l' →
    ∃ k₀∈s.ranges pm, ∃ l, s.locals k₀=some l ∧ ∀ x∈l'.span, x∈l.span

theorem Remains.refl (s : MmapState M P) (pm : Nat) : Remains s s pm :=
  fun k hk l hl => ⟨k,hk,l,hl,fun _ hx => hx⟩

theorem Remains.trans (h : Remains s s' pm) (h' : Remains s' s'' pm) : Remains s s'' pm := by
  intro k hk l hl
  obtain ⟨k₁,hk₁,l₁,hl₁,hsub₁⟩ := h' k hk l hl
  obtain ⟨k₂,hk₂,l₂,hl₂,hsub₂⟩ := h k₁ hk₁ l₁ hl₁
  exact ⟨k₂,hk₂,l₂,hl₂,fun x hx => hsub₂ x (hsub₁ x hx)⟩

/-- The variables of mmap that munmap leaves alone; numbers are never reused. -/
structure SameBases (s s' : MmapState M P) : Prop where
  base : s'.base=s.base
  anonBase : s'.anonBase=s.anonBase
  pgm : s'.pgm=s.pgm
  next : s.nextLocal ≤ s'.nextLocal

theorem SameBases.refl (s : MmapState M P) : SameBases s s := ⟨rfl,rfl,rfl,Nat.le_refl _⟩

theorem SameBases.trans (h : SameBases s s') (h' : SameBases s' s'') : SameBases s s'' :=
  ⟨h'.base.trans h.base,h'.anonBase.trans h.anonBase,h'.pgm.trans h.pgm,h.next.trans h'.next⟩

/-- The pages from i on, up to limit, are cut out of one range: the other
ranges are as they were, the pieces lie outside the cut. -/
structure Cut (s s' : MmapState M P) (pm : Nat) (hit : RangeHit) (i limit : Nat) : Prop where
  known : s'.nextPagemap=s.nextPagemap
  bases : SameBases s s'
  nodup : (s'.ranges pm).Nodup
  bound : ∀ k∈s'.ranges pm, k < s'.nextLocal
  kept : ∀ k∈s.ranges pm, k≠hit.id → s'.locals k=s.locals k
  piece : ∀ k∈s'.ranges pm, (k∈s.ranges pm → k=hit.id) → ∃ l, s'.locals k=some l ∧ RangeOk l ∧
    ∀ x∈l.span, x∈hit.range.span ∧ (x < i ∨ limit ≤ x)
  apart : ∀ k∈s'.ranges pm, ∀ k'∈s'.ranges pm, k≠k' → (k∈s.ranges pm → k=hit.id) →
    (k'∈s.ranges pm → k'=hit.id) → ∀ l l', s'.locals k=some l → s'.locals k'=some l' →
    l.span.Separate l'.span

theorem Cut.cases (h : Cut s s' pm hit i limit) (hk : k∈s'.ranges pm) (hl : s'.locals k=some l) :
    (k∈s.ranges pm ∧ k≠hit.id ∧ s.locals k=some l) ∨
      ((k∈s.ranges pm → k=hit.id) ∧ RangeOk l ∧
        ∀ x∈l.span, x∈hit.range.span ∧ (x < i ∨ limit ≤ x)) := by
  by_cases hp : k∈s.ranges pm → k=hit.id
  · obtain ⟨l₁,hl₁,hok,hin⟩ := h.piece k hk hp
    rw [hl] at hl₁
    cases hl₁
    exact .inr ⟨hp,hok,hin⟩
  · simp only [Classical.not_imp] at hp
    rw [h.kept k hp.1 hp.2] at hl
    exact .inl ⟨hp.1,hp.2,hl⟩

theorem Cut.rangesOk (h : Cut s s' pm hit i limit) (hs : RangesOk s pm)
    (hid : hit.id∈s.ranges pm) (hl : s.locals hit.id=some hit.range) : RangesOk s' pm := by
  refine ⟨h.known ▸ hs.known,h.nodup,h.bound,?_,?_⟩
  · intro k hk
    by_cases hp : k∈s.ranges pm → k=hit.id
    · obtain ⟨l,hl,hok,-⟩ := h.piece k hk hp
      exact ⟨l,hl,hok⟩
    · simp only [Classical.not_imp] at hp
      rw [h.kept k hp.1 hp.2]
      exact hs.cell k hp.1
  · intro k hk k' hk' hne l l' hkl hkl'
    obtain ⟨h1,hn1,hold⟩ | ⟨h1,-,hin⟩ := h.cases hk hkl
    all_goals obtain ⟨h2,hn2,hold'⟩ | ⟨h2,-,hin'⟩ := h.cases hk' hkl'
    · exact hs.apart k h1 k' h2 hne l l' hold hold'
    · exact (hs.apart k h1 _ hid hn1 _ _ hold hl).mono (fun _ hx => hx) (fun x hx => (hin' x hx).1)
    · exact (hs.apart _ hid k' h2 hn2.symm _ _ hl hold').mono (fun x hx => (hin x hx).1)
        (fun _ hx => hx)
    · exact h.apart k hk k' hk' hne h1 h2 l l' hkl hkl'

theorem Cut.remains (h : Cut s s' pm hit i limit) (hid : hit.id∈s.ranges pm)
    (hl : s.locals hit.id=some hit.range) : Remains s s' pm := by
  intro k hk l hkl
  obtain ⟨h1,-,hold⟩ | ⟨-,-,hin⟩ := h.cases hk hkl
  · exact ⟨k,h1,l,hold,fun _ hx => hx⟩
  · exact ⟨hit.id,hid,hit.range,hl,fun x hx => (hin x hx).1⟩

theorem Cut.of_carved {Piece : Nat → LocalRange → Prop} (hs : RangesOk s pm)
    (hid : hit.id∈s.ranges pm) (hok : RangeOk hit.range) (he : e=min hit.range.stop limit)
    (h : Carved s s' pm hit i e Piece) : Cut s s' pm hit i limit := by
  obtain ⟨r,ranges,locals,n,hs'⟩ := h.frame
  have hpiece : ∀ k∈s'.ranges pm, (k∈s.ranges pm → k=hit.id) → ∃ l, Piece k l := by
    intro k hk hp
    obtain ⟨hold,hne⟩ | hl := (h.listed k).mp hk
    · exact absurd (hp hold) hne
    · exact hl
  refine ⟨by rw [hs'],⟨by rw [hs'],by rw [hs'],by rw [hs'],h.next⟩,h.nodup hs.nodup hs.new_notMem,
    ?_,?_,?_,?_⟩
  · intro k hk
    obtain ⟨hold,-⟩ | ⟨l,hl⟩ := (h.listed k).mp hk
    · exact Nat.lt_of_lt_of_le (hs.bound k hold) h.next
    · obtain rfl | ⟨rfl,hlt⟩ := h.number k l hl
      · exact Nat.lt_of_lt_of_le (hs.bound _ hid) h.next
      · exact hlt
  · intro k hk hne
    apply h.kept k hne
    exact fun hn => absurd (hs.bound k hk) (by omega)
  · intro k hk hp
    obtain ⟨l,hl⟩ := hpiece k hk hp
    refine ⟨l,h.cell k l hl,(h.like k l hl).1,?_⟩
    intro x hx
    obtain ⟨hin,hout⟩ := h.within k l hl x hx
    refine ⟨hin,?_⟩
    rw [hok.stop_eq] at he
    rw [LocalRange.span,Span.mem_mk] at hin
    omega
  · intro k hk k' hk' hne hp hp' l l' hl hl'
    obtain ⟨l₁,h1⟩ := hpiece k hk hp
    obtain ⟨l₂,h2⟩ := hpiece k' hk' hp'
    have e1 := (h.cell k l₁ h1).symm.trans hl
    have e2 := (h.cell k' l₂ h2).symm.trans hl'
    cases e1
    cases e2
    exact h.apart k l k' l' h1 h2 hne

variable {evs : List (FreeEvent M P)} {addr length flags offset prot ret : Nat} {s₀ : MmapState M P}
  {node : Option (Resource M)}

section
variable (hs : RangesOk s pm) (hf : addr2range s pm i=some (some hit)) (hi : i%pageSize=0)
include hs hf hi

theorem snip_cut (hea : e%pageSize=0) (hil : i < limit) (he : e=min hit.range.stop limit)
    {ok : Bool} (h : snip A s pm hit i e=some (ok,s',evs)) : ok=true ∧ Cut s s' pm hit i limit := by
  obtain ⟨hid,hl,hcov,-⟩ := findRange_some hf
  have hok := hs.rangeOk hid hl
  have hmem := (hok.covers_iff i).mp hcov
  have hm := hmem
  rw [LocalRange.span,Span.mem_mk] at hm
  have hstop := hok.stop_eq
  obtain ⟨hok',⟨Piece,hc⟩,-⟩ := snip_carved hid (Nat.ne_of_gt (hs.bound _ hid)) hok hi hea hmem
    (by omega) (by omega) h
  exact ⟨hok',.of_carved hs hid hok he hc⟩

theorem snipStop_hit (hlim : limit%pageSize=0) (hil : i < limit)
    (h : snipStop hit.range.stop limit rounds i=some e) :
    e=min hit.range.stop limit ∧ e%pageSize=0 ∧ RangeOk hit.range := by
  obtain ⟨hid,hl,hcov,-⟩ := findRange_some hf
  have hok := hs.rangeOk hid hl
  have hmem := (hok.covers_iff i).mp hcov
  have hb := hok.base
  have hlen := hok.length
  have hw := hok.wraps
  simp only [LocalRange.span,Span.mem_mk] at hmem
  rw [hok.stop_eq] at h ⊢
  have hstop : (hit.range.base+hit.range.length)%pageSize=0 := by
    rw [Nat.add_mod,hb,hlen,Nat.zero_mod]
  have he := snipStop_eq hi hstop hlim hmem.2 hil hw h
  refine ⟨he,?_,hok⟩
  rw [he]
  obtain hc | hc := Nat.le_total (hit.range.base+hit.range.length) limit
  · rw [Nat.min_eq_left hc,hstop]
  · rw [Nat.min_eq_right hc,hlim]

end

theorem add64_aligned {a b : Nat} (ha : a%pageSize=0) (hb : b%pageSize=0) :
    add64 a b%pageSize=0 := by
  simp only [add64,pageSize] at *
  omega

structure Snipped (s s' : MmapState M P) (pm : Nat) : Prop where
  ok : RangesOk s' pm
  remains : Remains s s' pm
  bases : SameBases s s'

theorem Snipped.cut (h : Snipped s s' pm) (hid : hit.id∈s'.ranges pm)
    (hl : s'.locals hit.id=some hit.range) (hc : Cut s' s'' pm hit i limit) : Snipped s s'' pm :=
  ⟨hc.rangesOk h.ok hid hl,h.remains.trans (hc.remains hid hl),h.bases.trans hc.bases⟩

def RangeFree (s : MmapState M P) (pm a b : Nat) : Prop :=
  ∀ k∈s.ranges pm, ∀ l, s.locals k=some l → ∀ x∈l.span, x < a ∨ b ≤ x

theorem Remains.rangeFree {a b : Nat} (h : Remains s s' pm) (hc : RangeFree s pm a b) :
    RangeFree s' pm a b := by
  intro k hk l hl x hx
  obtain ⟨k₀,hk₀,l₀,hl₀,hsub⟩ := h k hk l hl
  exact hc k₀ hk₀ l₀ hl₀ x (hsub x hx)

/-- No range that meets the window ends where another one begins in it. The
loop of munmap never looks at the page at which a range ended. -/
def NoAdjacent (s : MmapState M P) (pm a b : Nat) : Prop :=
  ∀ k∈s.ranges pm, ∀ k'∈s.ranges pm, ∀ l l', s.locals k=some l → s.locals k'=some l' →
    a < l.base+l.length → l'.base=l.base+l.length → b ≤ l'.base

/-- Up to page i the window is clear, and what is left in it is as it was. -/
structure Sweep (s₀ s : MmapState M P) (pm addr limit i : Nat) : Prop where
  started : addr ≤ i
  done : RangeFree s pm addr i
  ahead : ∀ k∈s.ranges pm, ∀ l, s.locals k=some l → (∃ x∈l.span, i ≤ x ∧ x < limit) →
    k∈s₀.ranges pm ∧ s₀.locals k=some l

section
variable (h : Sweep s₀ s pm addr limit i) (hs : RangesOk s pm)
include h hs

theorem Sweep.skip (hi : i%pageSize=0) (hf : addr2range s pm i=some none) :
    Sweep s₀ s pm addr limit (i+pageSize) := by
  refine ⟨by have := h.started; omega,?_,?_⟩
  · intro k hk l hl x hx
    have hok := hs.rangeOk hk hl
    have hnot : i∉l.span := by
      rw [← hok.covers_iff,findRange_none hf k hk l hl]
      exact Bool.noConfusion
    have hd := h.done k hk l hl x hx
    have hb := hok.base
    have hlen := hok.length
    simp only [LocalRange.span,Span.mem_mk,pageSize] at *
    omega
  · intro k hk l hl hx
    obtain ⟨x,hx,hxi,hxl⟩ := hx
    exact h.ahead k hk l hl ⟨x,hx,by omega,hxl⟩

theorem Sweep.finish (hid : hit.id∈s.ranges pm) (hl : s.locals hit.id=some hit.range)
    (hc : Cut s s' pm hit i limit) (hlast : ∀ x, i ≤ x → x < limit → x∈hit.range.span) :
    RangeFree s' pm addr limit := by
  intro k hk l hkl x hx
  obtain ⟨hold,hne,hkl⟩ | ⟨-,-,hin⟩ := hc.cases hk hkl
  · have hd := h.done k hold l hkl x hx
    have hsep := hs.apart k hold hit.id hid hne l hit.range hkl hl x hx
    by_contra hcon
    exact hsep (hlast x (by omega) (by omega))
  · have hd := h.done hit.id hid hit.range hl x (hin x hx).1
    have hx' := (hin x hx).2
    omega

/-- A round that stops at the end of its range has also dealt with the page
behind, as no range begins there. -/
theorem Sweep.pass (hadj : NoAdjacent s₀ pm addr limit) (hi : i%pageSize=0)
    (hid : hit.id∈s.ranges pm) (hl : s.locals hit.id=some hit.range) (hok : RangeOk hit.range)
    (hmem : i∈hit.range.span) (hc : Cut s s' pm hit i limit)
    (hstop : hit.range.base+hit.range.length < limit) :
    Sweep s₀ s' pm addr limit (hit.range.base+hit.range.length+pageSize) := by
  have hfst := h.ahead hit.id hid hit.range hl ⟨i,hmem,Nat.le_refl i,by
    simp only [LocalRange.span,Span.mem_mk] at hmem
    omega⟩
  have hst := h.started
  have hb := hok.base
  have hlen := hok.length
  refine ⟨by simp only [LocalRange.span,Span.mem_mk] at hmem; omega,?_,?_⟩
  · intro k hk l hkl x hx
    obtain ⟨hold,hne,hkl⟩ | ⟨-,-,hin⟩ := hc.cases hk hkl
    · have hd := h.done k hold l hkl x hx
      have hsep := hs.apart k hold hit.id hid hne l hit.range hkl hl
      have hok' := hs.rangeOk hold hkl
      have hp := hok'.pos
      have hb' := hok'.base
      rw [Span.separate_iff hp hok.pos] at hsep
      by_contra hcon
      simp only [LocalRange.span,Span.stop,Span.mem_mk,pageSize] at hsep hx hmem hb hlen hb' hi hcon
      have heq : l.base=hit.range.base+hit.range.length := by omega
      have hsnd := h.ahead k hold l hkl
        ⟨l.base,⟨Nat.le_refl _,by simp only [LocalRange.span,Span.stop]; omega⟩,by omega,by omega⟩
      have := hadj hit.id hfst.1 k hsnd.1 hit.range l hfst.2 hsnd.2 (by omega) heq
      omega
    · have hd := h.done hit.id hid hit.range hl x (hin x hx).1
      have hx' := hin x hx
      simp only [LocalRange.span,Span.mem_mk] at hx' hmem
      omega
  · intro k hk l hkl hx
    obtain ⟨x,hx,hxi,hxl⟩ := hx
    simp only [LocalRange.span,Span.mem_mk] at hmem
    obtain ⟨hold,-,hkl⟩ | ⟨-,-,hin⟩ := hc.cases hk hkl
    · exact h.ahead k hold l hkl ⟨x,hx,by omega,hxl⟩
    · have hx' := (hin x hx).2
      omega

end

theorem munmapLoop_snipped (hs : RangesOk s pm) {n : Nat} (ha : addr%pageSize=0)
    (hlim : limit%pageSize=0) (hl64 : limit < 2^64) {ok : Bool}
    (h : munmapLoop A pm limit n addr s=some (ok,s',evs)) :
    ok=true ∧ Snipped s s' pm ∧ (NoAdjacent s pm addr limit → RangeFree s' pm addr limit) := by
  have hrule := munmapLoop_rule
    (fun i t => i%pageSize=0 ∧ Snipped s t pm ∧
      (NoAdjacent s pm addr limit → Sweep s t pm addr limit i ∨ RangeFree t pm addr limit))
    (fun _ => True) ?_ ?_ ⟨ha,⟨hs,Remains.refl s pm,SameBases.refl s⟩,?_⟩ h
  · obtain ⟨hok,⟨j,hj,-,hsn,hcl⟩,-⟩ := hrule
    refine ⟨hok,hsn,?_⟩
    intro hadj
    obtain hsw | hcl := hcl hadj
    · intro k hk l hl x hx
      have := hsw.done k hk l hl x hx
      omega
    · exact hcl
  · intro i t hI hlt hf
    obtain ⟨hi,hsn,hcl⟩ := hI
    have hadd : add64 i pageSize=i+pageSize := by
      apply add64_eq
      simp only [pageSize] at hi hlim ⊢
      omega
    refine ⟨add64_aligned hi (Nat.mod_self _),hsn,?_⟩
    intro hadj
    obtain hsw | hcl := hcl hadj
    · rw [hadd]
      exact .inl (hsw.skip hsn.ok hi hf)
    · exact .inr hcl
  · intro i t hit e ok₁ t' evs₁ hI hlt hf he hsnip
    obtain ⟨hi,hsn,hcl⟩ := hI
    obtain ⟨hmin,hea,hrok⟩ := snipStop_hit hsn.ok hf hi hlim hlt he
    obtain ⟨hid,hl,hcov,-⟩ := findRange_some hf
    obtain ⟨hok,hcut⟩ := snip_cut hsn.ok hf hi hea hlt hmin hsnip
    have hmem := (hrok.covers_iff i).mp hcov
    refine ⟨hok,⟨add64_aligned hea (Nat.mod_self _),hsn.cut hid hl hcut,?_⟩,fun _ _ => trivial⟩
    intro hadj
    rw [hrok.stop_eq] at hmin
    obtain hsw | hcl := hcl hadj
    · by_cases hst : hit.range.base+hit.range.length < limit
      · have hadd : add64 e pageSize=hit.range.base+hit.range.length+pageSize := by
          rw [hmin,Nat.min_eq_left (Nat.le_of_lt hst)]
          apply add64_eq
          have hb := hrok.base
          have hlen := hrok.length
          simp only [pageSize] at hb hlen hlim ⊢
          omega
        rw [hadd]
        exact .inl (hsw.pass hsn.ok hadj hi hid hl hrok hmem hcut hst)
      · refine .inr (hsw.finish hsn.ok hid hl hcut ?_)
        intro x hix hxl
        simp only [LocalRange.span,Span.mem_mk] at hmem ⊢
        omega
    · exact .inr ((hcut.remains hid hl).rangeFree hcl)
  · intro _
    refine .inl ⟨Nat.le_refl _,?_,fun k hk l hl _ => ⟨hk,hl⟩⟩
    intro k hk l hl x hx
    omega

theorem alignUp_aligned (n : Nat) : alignUp n pageSize%pageSize=0 := by
  simp only [alignUp,divRoundup,pageSize]
  omega

theorem munmap_snipped (hs : RangesOk s pm) (ha : addr%pageSize=0) {ok : Bool}
    (h : munmap A s pm addr length=some (ok,s',evs)) :
    Snipped s s' pm ∧ (0 < length → ok=true ∧
      (NoAdjacent s pm addr (add64 addr (alignUp length pageSize)) →
        RangeFree s' pm addr (add64 addr (alignUp length pageSize)))) := by
  rw [munmap] at h
  by_cases h0 : length=0
  · rw [if_pos h0] at h
    cases h
    exact ⟨⟨hs,Remains.refl s pm,SameBases.refl s⟩,fun hpos => absurd h0 (Nat.ne_of_gt hpos)⟩
  · rw [if_neg h0] at h
    obtain ⟨hok,hsn,hcl⟩ := munmapLoop_snipped hs ha (add64_aligned ha (alignUp_aligned length))
      (Nat.mod_lt _ (by decide)) h
    exact ⟨hsn,fun _ => ⟨hok,hcl⟩⟩

theorem alignUp_idem (n : Nat) : alignUp (alignUp n pageSize) pageSize=alignUp n pageSize := by
  simp only [alignUp,divRoundup,pageSize]
  omega

theorem alignUp_bounds {n : Nat} (h : n+(pageSize-1) < 2^64) :
    n ≤ alignUp n pageSize ∧ alignUp n pageSize ≤ n+(pageSize-1) := by
  simp only [alignUp,divRoundup,pageSize] at *
  omega

/-- The pagemap has one more range, at ret; every other range is part of one
that was there. -/
def Gained (s s' : MmapState M P) (pm ret length : Nat) : Prop :=
  ∃ k∈s'.ranges pm, k∉s.ranges pm ∧ (∃ l, s'.locals k=some l ∧ l.span=⟨ret,length⟩) ∧
    ∀ k'∈s'.ranges pm, k'≠k → ∀ l', s'.locals k'=some l' →
      ∃ k₀∈s.ranges pm, ∃ l, s.locals k₀=some l ∧ ∀ x∈l'.span, x∈l.span

theorem newRange_spec (hs : RangesOk s pm) (hrem : Remains s₀ s pm)
    (hfresh : s.nextLocal∉s₀.ranges pm) (hb : s.base%pageSize=0) (hlen : length%pageSize=0)
    (hpos : 0 < length) (hw : s.base+length < 2^64) (hc : RangeFree s pm s.base (s.base+length))
    (h : newRange A s pm length prot flags node offset=some s') :
    RangesOk s' pm ∧ Gained s₀ s' pm s.base length ∧ SameBases s s' := by
  obtain ⟨x,-,rfl⟩ := map_eq_some_iff.mp h
  have hnew := hs.new_notMem
  have hpm : pm≠s.nextPagemap := Nat.ne_of_lt hs.known
  have hne : ∀ k∈s.ranges pm, k≠s.nextLocal := fun k hk heq => hnew (heq ▸ hk)
  have hsep : ∀ k∈s.ranges pm, ∀ l, s.locals k=some l → l.span.Separate ⟨s.base,length⟩ := by
    intro k hk l hl x hx hx'
    have := hc k hk l hl x hx
    rw [Span.mem_mk] at hx'
    omega
  refine ⟨⟨Nat.lt_succ_of_lt hs.known,?_,?_,?_,?_⟩,⟨s.nextLocal,?_⟩,⟨rfl,rfl,rfl,Nat.le_succ _⟩⟩
  all_goals simp only [update_self,update_of_ne hpm]
  · exact hs.nodup_append
  · exact hs.bound_append
  · intro k hk
    obtain hk | hk := List.mem_append.mp hk
    · rw [update_of_ne (hne k hk)]
      exact hs.cell k hk
    · rw [List.mem_singleton.mp hk,update_self]
      exact ⟨_,rfl,hb,hlen,hpos,hw⟩
  · intro k hk k' hk' hkk l l' hl hl'
    obtain hk | hk := List.mem_append.mp hk
    all_goals obtain hk' | hk' := List.mem_append.mp hk'
    · rw [update_of_ne (hne k hk)] at hl
      rw [update_of_ne (hne k' hk')] at hl'
      exact hs.apart k hk k' hk' hkk l l' hl hl'
    · rw [update_of_ne (hne k hk)] at hl
      rw [List.mem_singleton.mp hk',update_self] at hl'
      cases hl'
      exact hsep k hk l hl
    · rw [update_of_ne (hne k' hk')] at hl'
      rw [List.mem_singleton.mp hk,update_self] at hl
      cases hl
      exact (hsep k' hk' l' hl').symm
    · exact absurd ((List.mem_singleton.mp hk).trans (List.mem_singleton.mp hk').symm) hkk
  · refine ⟨List.mem_append_right _ List.mem_cons_self,hfresh,⟨_,rfl,rfl⟩,?_⟩
    intro k hk hkn l hl
    obtain hk | hk := List.mem_append.mp hk
    · rw [update_of_ne hkn] at hl
      exact hrem k hk l hl
    · exact absurd (List.mem_singleton.mp hk) hkn

theorem newRange_adds (h : newRange A s pm length prot flags node offset=some s')
    (hpm : pm < s.nextPagemap) :
    s'.ranges pm=s.ranges pm++[s.nextLocal] ∧
      s'.locals=update s.locals s.nextLocal
        (some ⟨pm,s.nextGlobal,s.base,length,offset,prot,flags⟩) ∧
      s'.anonBase=s.anonBase ∧ s'.pgm=s.pgm := by
  obtain ⟨x,-,rfl⟩ := map_eq_some_iff.mp h
  refine ⟨?_,rfl,rfl,rfl⟩
  simp only [update_self,update_of_ne (Nat.ne_of_lt hpm)]

/-- The ranges of a pagemap, all below the mmap_anon_base of the thread. -/
structure Laid (s : MmapState M P) (task pm : Nat) : Prop where
  ranges : RangesOk s pm
  anon : s.anonBase task%pageSize=0
  below : ∀ k∈s.ranges pm, ∀ l, s.locals k=some l → l.base+l.length ≤ s.anonBase task

theorem Laid.empty {task : Nat} (hknown : pm < s.nextPagemap) (hempty : s.ranges pm=[])
    (hanon : s.anonBase task%pageSize=0) : Laid s task pm := by
  refine ⟨⟨hknown,?_,?_,?_,?_⟩,hanon,?_⟩
  all_goals simp [hempty]

theorem Laid.snipped {task : Nat} (hs : Laid s task pm) (h : Snipped s s' pm) :
    Laid s' task pm := by
  refine ⟨h.ok,by rw [h.bases.anonBase]; exact hs.anon,?_⟩
  intro k hk l hl
  have hok := h.ok.rangeOk hk hl
  obtain ⟨k₀,hk₀,l₀,hl₀,hin⟩ := h.remains k hk l hl
  have hpos := hok.pos
  have hlast := hin (l.base+l.length-1) (by rw [LocalRange.span,Span.mem_mk]; omega)
  have hb := hs.below k₀ hk₀ l₀ hl₀
  rw [LocalRange.span,Span.mem_mk] at hlast
  rw [h.bases.anonBase]
  omega

/-- A range on free addresses below mmap_anon_base. -/
theorem Laid.newRange {task : Nat} (hs : Laid s task pm) (hrem : Remains s₀ s pm)
    (hfresh : s.nextLocal∉s₀.ranges pm) (hb : s.base%pageSize=0) (hlen : length%pageSize=0)
    (hpos : 0 < length) (hw : s.base+length < 2^64) (hend : s.base+length ≤ s.anonBase task)
    (hc : RangeFree s pm s.base (s.base+length))
    (h : newRange A s pm length prot flags node offset=some s') :
    Laid s' task pm ∧ Gained s₀ s' pm s.base length ∧ SameBases s s' := by
  obtain ⟨hok,hgained,hsame⟩ := newRange_spec hs.ranges hrem hfresh hb hlen hpos hw hc h
  obtain ⟨hranges,hlocals,-,-⟩ := newRange_adds h hs.ranges.known
  refine ⟨⟨hok,by rw [hsame.anonBase]; exact hs.anon,?_⟩,hgained,hsame⟩
  rw [hsame.anonBase,hranges,hlocals]
  intro k hk l hl
  obtain hk | hk := List.mem_append.mp hk
  · have hne : k≠s.nextLocal := fun heq => hs.ranges.new_notMem (heq ▸ hk)
    rw [update_of_ne hne] at hl
    exact hs.below k hk l hl
  · rw [List.mem_singleton.mp hk,update_self] at hl
    cases hl
    exact hend

theorem Laid.mmap_anywhere {task : Nat} {pagemap : Option Nat} (hs : Laid s task pm)
    (hpm : pm=pagemap.getD (s.pgm task)) (hfix : flags &&& mapFixed=0) (hpos : 0 < length)
    (hround : length+(pageSize-1) < 2^64)
    (hroom : s.anonBase task+alignUp length pageSize+pageSize < 2^64)
    (h : mmap A s task pagemap addr length prot flags node offset=some (ret,s',evs)) :
    Laid s' task pm ∧ Gained s s' pm ret (alignUp length pageSize) ∧ s'.pgm=s.pgm := by
  have hlen := alignUp_bounds hround
  have hla := alignUp_aligned length
  have hanon : add64 (s.anonBase task) (add64 (alignUp length pageSize) pageSize)=
      s.anonBase task+(alignUp length pageSize+pageSize) := by
    rw [add64_eq (a := alignUp length pageSize) (by omega),add64_eq (by omega)]
  unfold mmap at h
  rw [← hpm] at h
  dsimp only at h
  rw [if_neg (not_not.mpr hfix),hanon] at h
  obtain ⟨s₁,hn,heq⟩ := map_eq_some_iff.mp h
  cases heq
  have hs' : Laid { s with
      base := s.anonBase task
      anonBase := update s.anonBase task
        (s.anonBase task+(alignUp length pageSize+pageSize)) } task pm := by
    refine ⟨⟨hs.ranges.known,hs.ranges.nodup,hs.ranges.bound,hs.ranges.cell,hs.ranges.apart⟩,?_,?_⟩
    all_goals
      dsimp only
      rw [update_self]
    · rw [← hanon]
      exact add64_aligned hs.anon (add64_aligned hla (Nat.mod_self _))
    · intro k hk l hl
      have hb := hs.below k hk l hl
      omega
  have hfree : RangeFree s pm (s.anonBase task) (s.anonBase task+alignUp length pageSize) := by
    intro k hk l hl x hx
    have hb := hs.below k hk l hl
    rw [LocalRange.span,Span.mem_mk] at hx
    omega
  obtain ⟨hlaid,hg,hsame⟩ := hs'.newRange (Remains.refl s pm) hs.ranges.new_notMem hs.anon hla
    (by omega) (by dsimp only; omega)
    (by dsimp only; rw [update_self]; omega) hfree hn
  exact ⟨hlaid,by rw [hsame.base]; exact hg,hsame.pgm⟩

/-- The calls whose arguments the interface allows. -/
def Admissible (addr length : Nat) : Prop :=
  addr%pageSize=0 ∧ 0 < length ∧ addr+length+(pageSize-1) < 2^64

instance (addr length : Nat) : Decidable (Admissible addr length) :=
  inferInstanceAs (Decidable (_ ∧ _ ∧ _))

/-- At a fixed address the range is put there only if the variable base happens to hold it, and the
window is clear only if munmap meets no adjacent ranges. -/
theorem Laid.mmap_fixed {task : Nat} {pagemap : Option Nat} (hs : Laid s task pm)
    (hpm : pm=pagemap.getD (s.pgm task)) (hfix : flags &&& mapFixed≠0)
    (hadm : Admissible addr length) (hbase : s.base=addr)
    (hend : addr+alignUp length pageSize ≤ s.anonBase task)
    (hadj : NoAdjacent s pm addr (addr+alignUp length pageSize))
    (h : mmap A s task pagemap addr length prot flags node offset=some (ret,s',evs)) :
    Laid s' task pm ∧ Gained s s' pm ret (alignUp length pageSize) ∧ s'.pgm=s.pgm ∧ ret=addr := by
  obtain ⟨ha,hpos,hw⟩ := hadm
  have hlen := alignUp_bounds (n := length) (by omega)
  have hla := alignUp_aligned length
  unfold mmap at h
  rw [← hpm] at h
  dsimp only at h
  rw [if_pos hfix] at h
  obtain ⟨⟨ok,t,evs₁⟩,hm,h⟩ := bind_eq_some_iff.mp h
  obtain ⟨hsn,hm'⟩ := munmap_snipped hs.ranges ha hm
  rw [alignUp_idem,add64_eq (by omega)] at hm'
  obtain ⟨rfl,hcl⟩ := hm' (by omega)
  rw [if_neg (by simp)] at h
  obtain ⟨s₁,hn,heq⟩ := map_eq_some_iff.mp h
  cases heq
  have htbase : t.base=addr := hsn.bases.base.trans hbase
  have hfresh : t.nextLocal∉s.ranges pm := fun hk =>
    absurd (hs.ranges.bound _ hk) (Nat.not_lt.mpr hsn.bases.next)
  obtain ⟨hlaid,hg,hsame⟩ := (hs.snipped hsn).newRange hsn.remains hfresh (by rw [htbase]; exact ha)
    hla (by omega) (by rw [htbase]; omega) (by rw [htbase,hsn.bases.anonBase]; exact hend)
    (by rw [htbase]; exact hcl hadj) hn
  have hret : s'.base=addr := hsame.base.trans htbase
  rw [htbase] at hg
  exact ⟨hlaid,by rw [hret]; exact hg,hsame.pgm.trans hsn.bases.pgm,hret⟩

/-- Where mmap may be asked to put a range: at a fixed address that base holds, in a window below
mmap_anon_base in which munmap meets no adjacent ranges; or anywhere, if the addresses go on. -/
def Placed (s : MmapState M P) (task pm addr length flags : Nat) : Prop :=
  if flags &&& mapFixed≠0 then
    s.base=addr ∧ addr+alignUp length pageSize ≤ s.anonBase task ∧
      NoAdjacent s pm addr (addr+alignUp length pageSize)
  else s.anonBase task+alignUp length pageSize+pageSize < 2^64

theorem Laid.mmap {task : Nat} {pagemap : Option Nat} (hs : Laid s task pm)
    (hpm : pm=pagemap.getD (s.pgm task)) (hadm : Admissible addr length)
    (hplaced : Placed s task pm addr length flags)
    (h : mmap A s task pagemap addr length prot flags node offset=some (ret,s',evs)) :
    Laid s' task pm ∧ Gained s s' pm ret (alignUp length pageSize) ∧ s'.pgm=s.pgm ∧
      (flags &&& mapFixed≠0 → ret=addr) := by
  by_cases hfix : flags &&& mapFixed≠0
  · rw [Placed,if_pos hfix] at hplaced
    obtain ⟨hlaid,hg,hpgm,hret⟩ := hs.mmap_fixed hpm hfix hadm hplaced.1 hplaced.2.1 hplaced.2.2 h
    exact ⟨hlaid,hg,hpgm,fun _ => hret⟩
  · rw [Placed,if_neg hfix] at hplaced
    obtain ⟨-,hpos,hw⟩ := hadm
    obtain ⟨hlaid,hg,hpgm⟩ := hs.mmap_anywhere hpm (not_not.mp hfix) hpos (by omega) hplaced h
    exact ⟨hlaid,hg,hpgm,fun hf => absurd hf hfix⟩

inductive RangeCall (M : Machine) where
  | mmap (addr length prot flags : Nat) (node : Option (Resource M)) (offset : Nat)
  | munmap (addr length : Nat)

section Runs

variable (A) (task : Nat) (pagemap : Option Nat)

def rangeCall (s : MmapState M P) : RangeCall M → Option (MmapState M P)
  | .mmap addr length prot flags node offset =>
    if Admissible addr length then
      (mmap A s task pagemap addr length prot flags node offset).map (fun x => x.2.1)
    else none
  | .munmap addr length =>
    if addr < 2^64 ∧ length < 2^64 then
      (munmap A s (pagemap.getD (s.pgm task)) addr length).map (fun x => x.2.1)
    else none

def rangeSystem : System (MmapState M P) (RangeCall M) := .ofPartial (rangeCall A task pagemap)

/-- The calls under which ranges stay apart. -/
def KeepsApart (s : MmapState M P) : RangeCall M → Prop
  | .mmap addr length _ flags _ _ => Placed s task (pagemap.getD (s.pgm task)) addr length flags
  | .munmap addr _ => addr%pageSize=0

def RangesDisjoint (s : MmapState M P) (pm : Nat) : Prop :=
  (s.ranges pm).Pairwise (fun k k' => ∃ l l', s.locals k=some l ∧ s.locals k'=some l' ∧
    l.span.Separate l'.span)

theorem RangesOk.disjoint (h : RangesOk s pm) : RangesDisjoint s pm := by
  apply h.nodup.pairwise_of_forall_ne
  intro k hk k' hk' hne
  obtain ⟨l,hl,-⟩ := h.cell k hk
  obtain ⟨l',hl',-⟩ := h.cell k' hk'
  exact ⟨l,l',hl,hl',h.apart k hk k' hk' hne l l' hl hl'⟩

theorem rangeCall_laid {c : RangeCall M} (hs : Laid s task (pagemap.getD (s.pgm task)))
    (hc : KeepsApart task pagemap s c) (h : rangeCall A task pagemap s c=some s') :
    Laid s' task (pagemap.getD (s'.pgm task)) := by
  cases c with
  | mmap addr length prot flags node offset =>
    obtain ⟨hadm,h⟩ := Option.ite_none_right_eq_some.mp h
    obtain ⟨⟨ret,t,evs⟩,hm,rfl⟩ := map_eq_some_iff.mp h
    obtain ⟨hlaid,-,hpgm,-⟩ := hs.mmap rfl hadm hc hm
    rw [hpgm]
    exact hlaid
  | munmap addr length =>
    obtain ⟨-,h⟩ := Option.ite_none_right_eq_some.mp h
    obtain ⟨⟨ok,t,evs⟩,hm,rfl⟩ := map_eq_some_iff.mp h
    obtain ⟨hsn,-⟩ := munmap_snipped hs.ranges hc hm
    rw [hsn.bases.pgm]
    exact hs.snipped hsn

/-- Along calls that keep ranges apart the ranges of a pagemap are disjoint,
and each such mmap adds the one range it returns, at addr if that is fixed. -/
theorem mmap_runs_disjoint (s₀ s : MmapState M P)
    (hknown : pagemap.getD (s₀.pgm task) < s₀.nextPagemap)
    (hempty : s₀.ranges (pagemap.getD (s₀.pgm task))=[]) (hanon : s₀.anonBase task%pageSize=0)
    (hr : ((rangeSystem A task pagemap).restrict (KeepsApart task pagemap)).Reachable s₀ s) :
    RangesDisjoint s (pagemap.getD (s.pgm task)) ∧
      ∀ addr length prot flags node offset ret s' evs, Admissible addr length →
        Placed s task (pagemap.getD (s.pgm task)) addr length flags →
        mmap A s task pagemap addr length prot flags node offset=some (ret,s',evs) →
        Gained s s' (pagemap.getD (s.pgm task)) ret (alignUp length pageSize) ∧
          (flags &&& mapFixed≠0 → ret=addr) := by
  have hs : Laid s task (pagemap.getD (s.pgm task)) :=
    hr.invariant (I := fun s => Laid s task (pagemap.getD (s.pgm task)))
      (Laid.empty hknown hempty hanon)
      (fun _ _ _ hs hc => rangeCall_laid A task pagemap hs hc.1 hc.2)
  refine ⟨hs.ranges.disjoint,?_⟩
  intro addr length prot flags node offset ret s' evs hadm hplaced h
  obtain ⟨-,hg,-,hret⟩ := hs.mmap rfl hadm hplaced h
  exact ⟨hg,hret⟩

end Runs

/-- The memory a first process starts in: page 1 is the top level of krnl_page,
with the 512 empty tables of InitStage2 behind it, and page 514 the top level
of the process, with the same upper half. -/
def processMem : Mem := fun x =>
  let offset := x-bumpMachine.hhdm
  let idx := offset%pageSize/8
  if bumpMachine.hhdm ≤ x ∧ (offset/pageSize=1 ∨ (offset/pageSize=514 ∧ 256 ≤ idx)) then
    BitVec.ofNat 8 (((2+idx)*pageSize+7)/256^(offset%8))
  else 0

def processState : MmapState bumpMachine Nat where
  ram := ⟨processMem,515⟩
  krnlPage := bumpMachine.hhdm+pageSize
  krnlMain := 0xffffffff80001000
  base := 0
  anonBase _ := 0x80000000000
  pgm _ := 0
  tops pm := if pm=0 then some (bumpMachine.hhdm+514*pageSize) else none
  ranges _ := []
  locals _ := none
  globals _ := none
  nextPagemap := 1
  nextLocal := 0
  nextGlobal := 0

def MmapState.window (s : MmapState M P) (k : Nat) : Option Span := (s.locals k).map LocalRange.span

theorem window_some {w : Span} (h : s.window k=some w) (hl : s.locals k=some l) :
    l.base=w.base ∧ l.length=w.length := by
  rw [MmapState.window,hl] at h
  cases h
  exact ⟨rfl,rfl⟩

set_option synthInstance.maxSize 512 in
/-- Three pages anywhere, the middle one given back, the first one mapped anew at its address, and
one more page anywhere. -/
theorem mmap_runs_disjoint_split : ∃ s, s.ranges 0=[1,2,3] ∧
    s.window 1=some ⟨0x80000002000,4096⟩ ∧ s.window 2=some ⟨0x80000000000,4096⟩ ∧
    s.window 3=some ⟨0x80000004000,4096⟩ ∧ RangesDisjoint s 0 ∧
    ((rangeSystem (bumpPages bumpMachine) 0 none).restrict (KeepsApart 0 none)).Reachable
      processState s := by
  have hrun : (((rangeCall (bumpPages bumpMachine) 0 none processState
      (.mmap 0 12288 protWrite mapAnonymous none 0)).bind (fun s =>
        rangeCall (bumpPages bumpMachine) 0 none s (.munmap 0x80000001000 4096))).bind (fun s =>
          (rangeCall (bumpPages bumpMachine) 0 none s (.mmap 0x80000000000 4096 protWrite
            (mapFixed ||| mapAnonymous) none 0)).bind (fun t =>
              (rangeCall (bumpPages bumpMachine) 0 none t
                (.mmap 0 4096 protWrite mapAnonymous none 0)).map (fun u =>
        (((s.base,s.anonBase 0,s.pgm 0,t.anonBase 0),s.ranges 0,s.window 0,s.window 1),u.pgm 0,
          u.ranges 0,u.window 1,u.window 2,u.window 3)))))=
      some (((0x80000000000,0x80000004000,0,0x80000004000),[0,1],some ⟨0x80000000000,4096⟩,
        some ⟨0x80000002000,4096⟩),0,[1,2,3],some ⟨0x80000002000,4096⟩,
        some ⟨0x80000000000,4096⟩,some ⟨0x80000004000,4096⟩) := by
    decide +kernel
  obtain ⟨s,hs,hrun⟩ := bind_eq_some_iff.mp hrun
  obtain ⟨s₁,h1,h2⟩ := bind_eq_some_iff.mp hs
  obtain ⟨t,h3,hrun⟩ := bind_eq_some_iff.mp hrun
  obtain ⟨u,h4,hv⟩ := map_eq_some_iff.mp hrun
  simp only [Prod.mk.injEq] at hv
  obtain ⟨⟨⟨hbase,hanon,hpgm,hanon'⟩,hranges,hw0,hw1⟩,hpgm',hranges',hu1,hu2,hu3⟩ := hv
  have hfirst : KeepsApart 0 none processState (.mmap 0 12288 protWrite mapAnonymous none 0) := by
    rw [KeepsApart,Placed,if_neg (by decide)]
    decide
  have hfixed : KeepsApart 0 none s (.mmap 0x80000000000 4096 protWrite
      (mapFixed ||| mapAnonymous) none 0) := by
    rw [KeepsApart,Placed,if_pos (by decide),hbase,hanon,Option.getD_none,hpgm]
    refine ⟨rfl,by decide,?_⟩
    intro k hk k' hk' l l' hl hl' _ heq
    rw [hranges] at hk hk'
    simp only [List.mem_cons,List.not_mem_nil,or_false] at hk hk'
    -- the two ranges that are left do not touch
    obtain rfl | rfl := hk
    all_goals obtain rfl | rfl := hk'
    all_goals
      first
      | have hl := window_some hw0 hl
      | have hl := window_some hw1 hl
      first
      | have hl' := window_some hw0 hl'
      | have hl' := window_some hw1 hl'
      dsimp only at hl hl'
      omega
  have hlast : KeepsApart 0 none t (.mmap 0 4096 protWrite mapAnonymous none 0) := by
    rw [KeepsApart,Placed,if_neg (by decide),hanon']
    decide
  have hr : ((rangeSystem (bumpPages bumpMachine) 0 none).restrict (KeepsApart 0 none)).Reachable
      processState u :=
    (((Relation.ReflTransGen.single ⟨_,hfirst,h1⟩).tail
      ⟨.munmap 0x80000001000 4096,Nat.mod_eq_zero_of_dvd (by decide),h2⟩).tail
      ⟨_,hfixed,h3⟩).tail ⟨_,hlast,h4⟩
  have h := mmap_runs_disjoint (bumpPages bumpMachine) 0 none processState u (by decide) rfl
    (by decide) hr
  rw [Option.getD_none,hpgm'] at h
  exact ⟨u,hranges',hu1,hu2,hu3,h.1,hr⟩

/-- A fixed mmap after an anonymous one returns the older address and puts its
range over the older range. -/
theorem mmap_fixed_overlaps : ∃ s s' ret evs,
    (rangeSystem (bumpPages bumpMachine) 0 none).Reachable processState s ∧
    Admissible 0x90000000000 pageSize ∧
    mmap (bumpPages bumpMachine) s 0 none 0x90000000000 pageSize protWrite
      (mapFixed ||| mapAnonymous) none 0=some (ret,s',evs) ∧
    ret≠0x90000000000 ∧ ¬RangesDisjoint s' 0 := by
  have hrun : (((rangeCall (bumpPages bumpMachine) 0 none processState
      (.mmap 0 pageSize protWrite mapAnonymous none 0)).bind (fun s =>
        mmap (bumpPages bumpMachine) s 0 none 0x90000000000 pageSize protWrite
          (mapFixed ||| mapAnonymous) none 0)).map (fun x =>
            (x.1,x.2.1.ranges 0,x.2.1.window 0,x.2.1.window 1)))=
      some (0x80000000000,[0,1],some ⟨0x80000000000,pageSize⟩,some ⟨0x80000000000,pageSize⟩) := by
    decide +kernel
  obtain ⟨⟨ret,s',evs⟩,hb,hv⟩ := map_eq_some_iff.mp hrun
  obtain ⟨s,h1,h2⟩ := bind_eq_some_iff.mp hb
  simp only [Prod.mk.injEq] at hv
  refine ⟨s,s',ret,evs,Relation.ReflTransGen.single ⟨_,h1⟩,by decide,h2,by omega,?_⟩
  intro hd
  rw [RangesDisjoint,hv.2.1,List.pairwise_pair] at hd
  obtain ⟨l,l',hl,hl',hsep⟩ := hd
  have hw := hv.2.2
  rw [MmapState.window,MmapState.window,hl,hl'] at hw
  simp only [Option.map_some,Option.some.injEq] at hw
  rw [hw.1,hw.2] at hsep
  exact hsep 0x80000000000 (by decide) (by decide)

end X64OS.Memory
