import X64OS.Memory.Mmap
import X64OS.Memory.VmmSpecs

namespace X64OS.Memory

open Framework Function
open Option (map_eq_some_iff bind_eq_some_iff)

variable {M : Machine} {P : Type} {A : PageAllocator M P}
variable {s s' : MmapState M P} {pm i e : Nat}

def LocalRange.span (l : LocalRange) : Span := ⟨l.base,l.length⟩

/-- Whole pages that do not reach the end of the address space. -/
structure RangeOk (l : LocalRange) : Prop where
  base : l.base%pageSize=0
  length : l.length%pageSize=0
  pos : 0 < l.length
  wraps : l.base+l.length < 2^64

variable {l : LocalRange} {hit : RangeHit} {n : Nat} {ok : Bool} {r : Ram P}
  {evs : List (FreeEvent M P)}

theorem RangeOk.stop_eq (h : RangeOk l) : l.stop=l.base+l.length :=
  add64_eq h.wraps

theorem RangeOk.covers_iff (h : RangeOk l) (v : Nat) : l.covers v=true ↔ v∈l.span := by
  rw [LocalRange.covers,decide_eq_true_iff,h.stop_eq,LocalRange.span,Span.mem_mk]

theorem findRange_some {locals : Nat → Option LocalRange} {virt : Nat} {ids : List Nat}
    (h : findRange locals virt ids=some (some hit)) :
    hit.id∈ids ∧ locals hit.id=some hit.range ∧ hit.range.covers virt=true ∧
      hit.memoryPage=virt/pageSize := by
  induction ids with
  | nil => cases h
  | cons id ids ih =>
    rw [findRange] at h
    cases hl : locals id with
    | none =>
      rw [hl] at h
      cases h
    | some l =>
      rw [hl] at h
      dsimp only at h
      split at h
      · cases h
        exact ⟨List.mem_cons_self,hl,‹_›,rfl⟩
      · obtain ⟨h1,h2⟩ := ih h
        exact ⟨List.mem_cons_of_mem _ h1,h2⟩

theorem findRange_none {locals : Nat → Option LocalRange} {virt : Nat} {ids : List Nat}
    (h : findRange locals virt ids=some none) :
    ∀ id∈ids, ∀ l, locals id=some l → l.covers virt=false := by
  induction ids with
  | nil => exact fun id hid => absurd hid List.not_mem_nil
  | cons id ids ih =>
    rw [findRange] at h
    cases hl : locals id with
    | none =>
      rw [hl] at h
      cases h
    | some l =>
      rw [hl] at h
      dsimp only at h
      split at h
      · cases h
      · intro k hk l' hl'
        obtain rfl | hk := List.mem_cons.mp hk
        · rw [hl] at hl'
          cases hl'
          simpa using ‹¬l.covers virt=true›
        · exact ih h k hk l' hl'

theorem snipStop_eq {stop limit i e : Nat} (hi : i%pageSize=0) (hs : stop%pageSize=0)
    (hl : limit%pageSize=0) (his : i < stop) (hil : i < limit) (hs64 : stop < 2^64)
    (h : snipStop stop limit n i=some e) : e=min stop limit := by
  induction n generalizing i with
  | zero => cases h
  | succ n ih =>
    have hadd : add64 i pageSize=i+pageSize := by
      apply add64_eq
      simp only [pageSize] at hi hs ⊢
      omega
    rw [snipStop,hadd] at h
    by_cases hc : stop ≤ i+pageSize ∨ limit ≤ i+pageSize
    · rw [if_pos hc] at h
      cases h
      simp only [pageSize] at hi hs hl hc ⊢
      omega
    · rw [if_neg hc] at h
      apply ih _ _ _ h
      all_goals
        simp only [pageSize] at hi hc ⊢
        omega

theorem vmmUnmapPage_of_phys {r' : Ram P} {top : Nat} {v phys : BitVec 64}
    (hp : vmmVirt2phys A r top v=some phys) (hne : phys≠invalidPhys)
    (h : vmmUnmapPage A r top v=some (ok,r')) : ok=true := by
  obtain ⟨y,hy,he⟩ := map_eq_some_iff.mp hp
  obtain ⟨x,hx,rfl⟩ := map_eq_some_iff.mp hy
  obtain ⟨z,hz,hok⟩ := map_eq_some_iff.mp h
  rw [hx] at hz
  cases hz
  by_cases h0 : x.1=0
  · rw [if_pos h0,if_pos (.inl rfl)] at he
    exact absurd he.symm hne
  · rw [if_neg h0] at he hok
    by_cases hpr : isPresent (entry x.2.mem x.1 (pml1Entry v))=false
    · rw [if_pos (.inr ((pteGetFlags_present _).mpr hpr))] at he
      exact absurd he.symm hne
    · rw [if_neg hpr] at hok
      exact (congrArg Prod.fst hok).symm

theorem freeShadow_frame {shadow stop j : Nat}
    (h : freeShadow A shadow stop n j s=some (ok,s',evs)) : ok=true ∧ s'=s.setRam s'.ram := by
  induction n generalizing j s evs with
  | zero => cases h
  | succ n ih =>
    rw [freeShadow] at h
    split at h
    · obtain ⟨phys,hp,h⟩ := bind_eq_some_iff.mp h
      split at h
      · exact ih h
      · obtain ⟨⟨ok',r⟩,hu,h⟩ := bind_eq_some_iff.mp h
        have ht := vmmUnmapPage_of_phys hp ‹_› hu
        rw [if_neg (by rw [ht]; exact Bool.noConfusion)] at h
        obtain ⟨⟨ok₁,s₁,evs₁⟩,h1,he⟩ := map_eq_some_iff.mp h
        cases he
        have hih := ih h1
        exact hih
    · cases h
      exact ⟨rfl,rfl⟩

/-- Of the state a split changes only the lists of ranges. -/
theorem splitRange_frame (s : MmapState M P) (pm id : Nat) (l : LocalRange) (i e : Nat) :
    ∃ ranges locals n, (splitRange s pm id l i e).2=
      { s with ranges := ranges, locals := locals, nextLocal := n } := by
  rw [splitRange]
  split
  · exact ⟨_,_,_,rfl⟩
  · exact ⟨_,_,_,rfl⟩

/-- A cut inside the range leaves what is behind it to a new range. -/
theorem splitRange_inside (hok : RangeOk l) (hi : l.base < i) (hie : i < e)
    (he : e < l.base+l.length) (id : Nat) :
    splitRange s pm id l i e=({ l with length := e-l.base },{ s with
      ranges := update s.ranges pm (s.ranges pm++[s.nextLocal])
      locals := update (update s.locals s.nextLocal (some { l with
          base := e
          length := l.base+l.length-e
          offset := add64 l.offset (e-l.base) }))
        id (some { l with length := e-l.base })
      nextLocal := s.nextLocal+1 }) := by
  have hw := hok.wraps
  have hpost : sub64 (l.base+l.length) e=l.base+l.length-e := sub64_eq hw (by omega)
  have hoff : sub64 e l.base=e-l.base := sub64_eq (by omega) (by omega)
  have hlen : sub64 l.length (l.base+l.length-e)=e-l.base := by
    rw [sub64_eq (by omega) (by omega)]
    omega
  rw [splitRange,hok.stop_eq,if_pos ⟨hi,he⟩]
  simp only [hpost,hoff,hlen]
  rfl

/-- The four ways a round of munmap can end, by how the pages from i to e lie
in the range: inside, at its front, at its end, or all of it. -/
theorem snip_cases (hok : RangeOk hit.range) (hi : hit.range.base ≤ i) (hie : i < e)
    (he : e ≤ hit.range.base+hit.range.length) (h : snip A s pm hit i e=some (ok,s',evs)) :
    ∃ g top r, s.globals hit.range.global=some g ∧ s.tops pm=some top ∧
      unmapPages A top e rounds i s.ram=some r ∧
      ((hit.range.base < i ∧ e < hit.range.base+hit.range.length ∧ ok=true ∧ evs=[] ∧
        s'={ s with
          ram := r
          ranges := update s.ranges pm (s.ranges pm++[s.nextLocal])
          locals := update (update s.locals s.nextLocal (some { hit.range with
              base := e
              length := hit.range.base+hit.range.length-e
              offset := add64 hit.range.offset (e-hit.range.base) }))
            hit.id (some { hit.range with length := i-hit.range.base })
          nextLocal := s.nextLocal+1 }) ∨
      (hit.range.base=i ∧ e < hit.range.base+hit.range.length ∧ ok=true ∧ evs=[] ∧
        s'=(s.setRam r).setLocal hit.id { hit.range with
          offset := add64 hit.range.offset (e-i)
          base := e
          length := hit.range.base+hit.range.length-e }) ∨
      (hit.range.base < i ∧ e=hit.range.base+hit.range.length ∧ ok=true ∧ evs=[] ∧
        s'=(s.setRam r).setLocal hit.id { hit.range with length := i-hit.range.base }) ∨
      (hit.range.base=i ∧ e=hit.range.base+hit.range.length ∧
        dropRange A (s.setRam r) pm hit.id hit.range g i e=some (ok,s',evs))) := by
  have hw := hok.wraps
  have hstop := hok.stop_eq
  have hei : sub64 e i=e-i := sub64_eq (by omega) (by omega)
  obtain ⟨g,hg,h⟩ := bind_eq_some_iff.mp h
  obtain ⟨top,ht,h⟩ := bind_eq_some_iff.mp h
  obtain ⟨r,hr,h⟩ := bind_eq_some_iff.mp h
  by_cases hsplit : hit.range.base < i ∧ e < hit.range.base+hit.range.length
  · have hrest : sub64 (e-hit.range.base) (e-i)=i-hit.range.base := by
      rw [sub64_eq (by omega) (by omega)]
      omega
    rw [splitRange_inside hok hsplit.1 hie hsplit.2] at hr h
    dsimp only at hr h
    rw [hei,if_neg (by omega)] at h
    simp only [trimRange,hei,hrest] at h
    rw [if_neg (by omega)] at h
    cases h
    refine ⟨g,top,r,hg,ht,hr,.inl ⟨hsplit.1,hsplit.2,rfl,rfl,?_⟩⟩
    simp only [MmapState.setLocal,MmapState.setRam,update_idem]
  · have hx : splitRange s pm hit.id hit.range i e=(hit.range,s) := by
      rw [splitRange,if_neg (by rw [hstop]; exact hsplit)]
    rw [hx] at hr h
    dsimp only at hr h
    refine ⟨g,top,r,hg,ht,hr,.inr ?_⟩
    rw [hei] at h
    by_cases hwhole : e-i=hit.range.length
    · rw [if_pos hwhole] at h
      exact .inr (.inr ⟨by omega,by omega,h⟩)
    · rw [if_neg hwhole] at h
      have hrest : sub64 hit.range.length (e-i)=hit.range.length-(e-i) :=
        sub64_eq (by omega) (by omega)
      simp only [trimRange,hei,hrest] at h
      by_cases hfront : i=hit.range.base
      · rw [if_pos hfront] at h
        have hl : hit.range.length-(e-i)=hit.range.base+hit.range.length-e := by omega
        rw [hl] at h
        cases h
        exact .inl ⟨hfront.symm,by omega,rfl,rfl,rfl⟩
      · rw [if_neg hfront] at h
        have hl : hit.range.length-(e-i)=i-hit.range.base := by omega
        rw [hl] at h
        cases h
        exact .inr (.inl ⟨by omega,by omega,rfl,rfl,rfl⟩)

/-- The ranges of a pagemap without one of them. -/
abbrev MmapState.unlist (s : MmapState M P) (pm id : Nat) : MmapState M P :=
  s.setRanges pm ((s.ranges pm).filter (fun k => k≠id))

/-- What a range that goes whole leaves: as the only local of its global range the object is
freed, after the pages if they are anonymous; otherwise it is cut. -/
theorem dropRange_eq_some {id : Nat} {g : GlobalRange M}
    (h : dropRange A s pm id l g i e=some (ok,s',evs)) :
    ok=true ∧
    ((g.locals.length=1 ∧ ∃ s₁, s'={ s₁ with locals := update s₁.locals id none } ∧
      ((l.flags &&& mapAnonymous≠0 ∧ ∃ shadow, g.shadowPagemap.bind s.tops=some shadow ∧
        freeShadow A shadow (add64 g.base g.length) rounds g.base (s.unlist pm id)=
          some (true,s₁,evs)) ∨
      (l.flags &&& mapAnonymous=0 ∧ evs=[] ∧ s₁=s.unlist pm id))) ∨
    (g.locals.length≠1 ∧ evs=[] ∧ s'=trimRange (s.unlist pm id) id l i e)) := by
  unfold dropRange at h
  dsimp only at h
  split at h
  · rename_i hone
    obtain ⟨⟨ok₁,s₁,evs₁⟩,h,he⟩ := map_eq_some_iff.mp h
    split at h
    · rename_i hanon
      obtain ⟨shadow,hshadow,hfree⟩ := bind_eq_some_iff.mp h
      obtain ⟨rfl,-⟩ := freeShadow_frame hfree
      cases he
      exact ⟨rfl,.inl ⟨hone,s₁,rfl,.inl ⟨hanon,shadow,hshadow,hfree⟩⟩⟩
    · rename_i hfile
      cases h
      cases he
      exact ⟨rfl,.inl ⟨hone,_,rfl,.inr ⟨not_not.mp hfile,rfl,rfl⟩⟩⟩
  · rename_i hmany
    cases h
    exact ⟨rfl,.inr ⟨hmany,rfl,rfl⟩⟩

/-- A range that goes whole leaves mmap_ranges, whatever happens to its pages
and to its object. -/
theorem dropRange_cases {id : Nat} {g : GlobalRange M}
    (h : dropRange A s pm id l g i e=some (ok,s',evs)) :
    ok=true ∧ ∃ r cell, s'={ s with
      ram := r
      ranges := update s.ranges pm ((s.ranges pm).filter (fun k => k≠id))
      locals := update s.locals id cell } := by
  obtain ⟨hok,⟨-,s₁,rfl,⟨-,shadow,-,hfree⟩ | ⟨-,-,rfl⟩⟩ | ⟨-,-,rfl⟩⟩ := dropRange_eq_some h
  · rw [(freeShadow_frame hfree).2]
    exact ⟨hok,_,none,rfl⟩
  · exact ⟨hok,_,none,rfl⟩
  · rw [trimRange]
    split <;> exact ⟨hok,_,_,rfl⟩

/-- The rule for the outer loop of munmap: what a page without a range and a
round on a range keep holds at the end. -/
theorem munmapLoop_rule {limit : Nat} (I : Nat → MmapState M P → Prop) (E : FreeEvent M P → Prop)
    (hskip : ∀ i s, I i s → i < limit → addr2range s pm i=some none → I (add64 i pageSize) s)
    (hsnip : ∀ i s hit e ok s' evs, I i s → i < limit → addr2range s pm i=some (some hit) →
      snipStop hit.range.stop limit rounds i=some e → snip A s pm hit i e=some (ok,s',evs) →
      ok=true ∧ I (add64 e pageSize) s' ∧ ∀ ev∈evs, E ev) (hI : I i s)
    (h : munmapLoop A pm limit n i s=some (ok,s',evs)) :
    ok=true ∧ (∃ j, limit ≤ j ∧ I j s') ∧ ∀ ev∈evs, E ev := by
  induction n generalizing i s evs with
  | zero => cases h
  | succ n ih =>
    rw [munmapLoop] at h
    by_cases hlt : i < limit
    · rw [if_pos hlt] at h
      obtain ⟨found,hf,h⟩ := bind_eq_some_iff.mp h
      cases found with
      | none => exact ih (hskip i s hI hlt hf) h
      | some hit =>
        obtain ⟨e,he,h⟩ := bind_eq_some_iff.mp h
        obtain ⟨⟨ok₁,s₁,evs₁⟩,hs,h⟩ := bind_eq_some_iff.mp h
        obtain ⟨rfl,hI₁,hE₁⟩ := hsnip i s hit e ok₁ s₁ evs₁ hI hlt hf he hs
        rw [if_neg (by simp)] at h
        obtain ⟨⟨ok₂,s₂,evs₂⟩,h2,heq⟩ := map_eq_some_iff.mp h
        cases heq
        obtain ⟨hok,hend,hE₂⟩ := ih hI₁ h2
        refine ⟨hok,hend,?_⟩
        intro ev hev
        obtain hev | hev := List.mem_append.mp hev
        · exact hE₁ ev hev
        · exact hE₂ ev hev
    · rw [if_neg hlt] at h
      cases h
      exact ⟨rfl,⟨i,Nat.le_of_not_lt hlt,hI⟩,fun ev hev => absurd hev List.not_mem_nil⟩

def Munmapped (s s' : MmapState M P) : Prop :=
  ∃ r ranges locals n, s'={ s with ram := r, ranges := ranges, locals := locals, nextLocal := n }

theorem snip_munmapped (h : snip A s pm hit i e=some (ok,s',evs)) : ok=true ∧ Munmapped s s' := by
  obtain ⟨g,-,h⟩ := bind_eq_some_iff.mp h
  obtain ⟨top,-,h⟩ := bind_eq_some_iff.mp h
  obtain ⟨r,-,h⟩ := bind_eq_some_iff.mp h
  obtain ⟨ranges,locals,n,hsplit⟩ := splitRange_frame s pm hit.id hit.range i e
  dsimp only at h
  rw [hsplit] at h
  split at h
  · obtain ⟨rfl,r',cell,rfl⟩ := dropRange_cases h
    exact ⟨rfl,_,_,_,_,rfl⟩
  · cases h
    rw [trimRange]
    split <;> exact ⟨rfl,_,_,_,_,rfl⟩

/-- What a round of munmap makes of the range it found: pieces outside the cut,
the first in the range's own object, the others in a new one. -/
structure Carved (s s' : MmapState M P) (pm : Nat) (hit : RangeHit) (i e : Nat)
    (Piece : Nat → LocalRange → Prop) : Prop where
  frame : Munmapped s s'
  next : s.nextLocal ≤ s'.nextLocal
  others : ∀ pm', pm'≠pm → s'.ranges pm'=s.ranges pm'
  nodup : (s.ranges pm).Nodup → s.nextLocal∉s.ranges pm → (s'.ranges pm).Nodup
  listed : ∀ k, k∈s'.ranges pm ↔ (k∈s.ranges pm ∧ k≠hit.id) ∨ ∃ l, Piece k l
  kept : ∀ k, k≠hit.id → (k=s.nextLocal → ∀ l, ¬Piece k l) → s'.locals k=s.locals k
  cell : ∀ k l, Piece k l → s'.locals k=some l
  first : ∀ k l, Piece k l → ∃ l', Piece hit.id l'
  number : ∀ k l, Piece k l → k=hit.id ∨ (k=s.nextLocal ∧ s.nextLocal < s'.nextLocal)
  like : ∀ k l, Piece k l → RangeOk l ∧ l.pagemap=hit.range.pagemap ∧
    l.global=hit.range.global ∧ l.flags=hit.range.flags
  within : ∀ k l, Piece k l → ∀ x∈l.span, x∈hit.range.span ∧ (x < i ∨ e ≤ x)
  apart : ∀ k l k' l', Piece k l → Piece k' l' → k≠k' → l.span.Separate l'.span
  cover : ∀ x∈hit.range.span, x < i ∨ e ≤ x → ∃ k l, Piece k l ∧ x∈l.span

theorem Carved.setRam {Piece : Nat → LocalRange → Prop} (h : Carved s s' pm hit i e Piece) :
    Carved (s.setRam r) s' pm hit i e Piece := by
  obtain ⟨r',ranges,locals,n,hs'⟩ := h.frame
  exact ⟨⟨r',ranges,locals,n,hs'⟩,h.next,h.others,h.nodup,h.listed,h.kept,h.cell,h.first,h.number,
    h.like,h.within,h.apart,h.cover⟩

theorem Carved.cell_cases {Piece : Nat → LocalRange → Prop} {k₀ k : Nat} {l₀ : LocalRange}
    (h : Carved s s' pm hit i e Piece) (hp : Piece k₀ l₀) (hl : s'.locals k=some l) :
    Piece k l ∨ (k≠hit.id ∧ s.locals k=some l) := by
  by_cases hk : ∃ l', Piece k l'
  · obtain ⟨l',hl'⟩ := hk
    cases (h.cell k l' hl').symm.trans hl
    exact .inl hl'
  · have hne : k≠hit.id := by
      intro heq
      exact hk (heq ▸ h.first k₀ l₀ hp)
    rw [h.kept k hne (fun _ l' hl' => hk ⟨l',hl'⟩)] at hl
    exact .inr ⟨hne,hl⟩

theorem Carved.of_setLocal (hid : hit.id∈s.ranges pm) (hok : RangeOk l)
    (hpm : l.pagemap=hit.range.pagemap) (hg : l.global=hit.range.global)
    (hf : l.flags=hit.range.flags) (hspan : ∀ x, x∈l.span ↔ x∈hit.range.span ∧ (x < i ∨ e ≤ x)) :
    Carved s ((s.setRam r).setLocal hit.id l) pm hit i e (fun k l' => k=hit.id ∧ l'=l) where
  frame := ⟨_,_,_,_,rfl⟩
  next := Nat.le_refl _
  others _ _ := rfl
  nodup h _ := h
  listed k := by
    change k∈s.ranges pm ↔ _
    by_cases hk : k=hit.id <;> simp [hk,hid]
  kept k hk _ := update_of_ne hk _ _
  cell k l' h := by
    rw [h.1,h.2]
    exact update_self _ _ _
  first k l' h := ⟨l,rfl,rfl⟩
  number k l' h := .inl h.1
  like k l' h := by
    rw [h.2]
    exact ⟨hok,hpm,hg,hf⟩
  within k l' h x hx := (hspan x).mp (h.2 ▸ hx)
  apart k l₁ k' l₂ h h' hne := absurd (h.1.trans h'.1.symm) hne
  cover x hx hout := ⟨hit.id,l,⟨rfl,rfl⟩,(hspan x).mpr ⟨hx,hout⟩⟩

theorem Carved.of_drop {cell : Option LocalRange} (hwhole : ∀ x∈hit.range.span, ¬(x < i ∨ e ≤ x)) :
    Carved s { s with
      ram := r
      ranges := update s.ranges pm ((s.ranges pm).filter (fun k => k≠hit.id))
      locals := update s.locals hit.id cell } pm hit i e (fun _ _ => False) where
  frame := ⟨_,_,_,_,rfl⟩
  next := Nat.le_refl _
  others pm' h := update_of_ne h _ _
  nodup h _ := by
    simp only [update_self]
    exact h.filter _
  listed k := by simp
  kept k hk _ := update_of_ne hk _ _
  cell _ _ h := h.elim
  first _ _ h := h.elim
  number _ _ h := h.elim
  like _ _ h := h.elim
  within _ _ h := h.elim
  apart _ _ _ _ h := h.elim
  cover x hx hout := absurd hout (hwhole x hx)

theorem Carved.of_split {l' : LocalRange} (hid : hit.id∈s.ranges pm) (hne : s.nextLocal≠hit.id)
    (hok : RangeOk l) (hok' : RangeOk l')
    (hl : l.pagemap=hit.range.pagemap ∧ l.global=hit.range.global ∧ l.flags=hit.range.flags)
    (hl' : l'.pagemap=hit.range.pagemap ∧ l'.global=hit.range.global ∧ l'.flags=hit.range.flags)
    (hspan : ∀ x, x∈l.span ↔ x∈hit.range.span ∧ x < i)
    (hspan' : ∀ x, x∈l'.span ↔ x∈hit.range.span ∧ e ≤ x) (hie : i ≤ e) :
    Carved s { s with
      ram := r
      ranges := update s.ranges pm (s.ranges pm++[s.nextLocal])
      locals := update (update s.locals s.nextLocal (some l')) hit.id (some l)
      nextLocal := s.nextLocal+1 } pm hit i e
      (fun k l₁ => (k=hit.id ∧ l₁=l) ∨ (k=s.nextLocal ∧ l₁=l')) where
  frame := ⟨_,_,_,_,rfl⟩
  next := Nat.le_succ _
  others pm' h := update_of_ne h _ _
  nodup h hn := by
    simp only [update_self]
    exact List.nodup_append.mpr ⟨h,List.nodup_singleton _,fun _ ha _ hb hab =>
      hn (List.mem_singleton.mp hb ▸ hab ▸ ha)⟩
  listed k := by
    simp only [update_self,List.mem_append,List.mem_singleton]
    by_cases hk : k=hit.id
    · simp [hk,hid]
    · by_cases hn : k=s.nextLocal <;> simp [hk,hn,hne]
  kept k hk hn := by
    have hkn : k≠s.nextLocal := fun h => hn h l' (.inr ⟨h,rfl⟩)
    simp only [update_of_ne hk,update_of_ne hkn]
  cell k l₁ h := by
    obtain ⟨rfl,rfl⟩ | ⟨rfl,rfl⟩ := h
    · exact update_self _ _ _
    · simp only [update_of_ne hne,update_self]
  first k l₁ h := ⟨l,.inl ⟨rfl,rfl⟩⟩
  number k l₁ h := h.imp (fun h => h.1) (fun h => ⟨h.1,Nat.lt_succ_self _⟩)
  like k l₁ h := by
    obtain ⟨-,rfl⟩ | ⟨-,rfl⟩ := h
    · exact ⟨hok,hl⟩
    · exact ⟨hok',hl'⟩
  within k l₁ h x hx := by
    obtain ⟨-,rfl⟩ | ⟨-,rfl⟩ := h
    · exact ⟨((hspan x).mp hx).1,.inl ((hspan x).mp hx).2⟩
    · exact ⟨((hspan' x).mp hx).1,.inr ((hspan' x).mp hx).2⟩
  apart k l₁ k' l₂ h h' hkk x hx hy := by
    obtain ⟨rfl,rfl⟩ | ⟨rfl,rfl⟩ := h
    all_goals obtain ⟨rfl,rfl⟩ | ⟨rfl,rfl⟩ := h'
    · exact hkk rfl
    · have := ((hspan x).mp hx).2
      have := ((hspan' x).mp hy).2
      omega
    · have := ((hspan x).mp hy).2
      have := ((hspan' x).mp hx).2
      omega
    · exact hkk rfl
  cover x hx hout := by
    obtain h | h := hout
    · exact ⟨hit.id,l,.inl ⟨rfl,rfl⟩,(hspan x).mpr ⟨hx,h⟩⟩
    · exact ⟨s.nextLocal,l',.inr ⟨rfl,rfl⟩,(hspan' x).mpr ⟨hx,h⟩⟩

theorem snip_carved (hid : hit.id∈s.ranges pm) (hne : s.nextLocal≠hit.id) (hok : RangeOk hit.range)
    (hia : i%pageSize=0) (hea : e%pageSize=0) (hi : i∈hit.range.span) (hie : i < e)
    (he : e ≤ hit.range.base+hit.range.length) (h : snip A s pm hit i e=some (ok,s',evs)) :
    ok=true ∧ (∃ Piece, Carved s s' pm hit i e Piece) ∧ ∃ g top r,
      s.globals hit.range.global=some g ∧ s.tops pm=some top ∧
      unmapPages A top e rounds i s.ram=some r ∧
      (((hit.range.base < i ∨ e < hit.range.base+hit.range.length) ∧ s'.ram=r ∧ evs=[]) ∨
        (hit.range.base=i ∧ e=hit.range.base+hit.range.length ∧
          dropRange A (s.setRam r) pm hit.id hit.range g i e=some (ok,s',evs))) := by
  have hb := hok.base
  have hlen := hok.length
  have hw := hok.wraps
  simp only [LocalRange.span,Span.mem_mk,pageSize] at hi hia hea hb hlen
  obtain ⟨g,top,r,hg,ht,hr,hc⟩ := snip_cases hok hi.1 hie he h
  obtain ⟨h1,h2,rfl,rfl,rfl⟩ | ⟨h1,h2,rfl,rfl,rfl⟩ | ⟨h1,h2,rfl,rfl,rfl⟩ | ⟨h1,h2,h⟩ := hc
  · refine ⟨rfl,⟨_,Carved.of_split hid hne ⟨hb,?_,?_,?_⟩ ⟨?_,?_,?_,?_⟩ ⟨rfl,rfl,rfl⟩
      ⟨rfl,rfl,rfl⟩ ?_ ?_ (Nat.le_of_lt hie)⟩,g,top,r,hg,ht,hr,.inl ⟨by omega,rfl,rfl⟩⟩
    all_goals simp only [LocalRange.span,Span.mem_mk,pageSize]
    all_goals omega
  · refine ⟨rfl,⟨_,Carved.of_setLocal hid ⟨?_,?_,?_,?_⟩ rfl rfl rfl ?_⟩,g,top,r,hg,ht,hr,
      .inl ⟨by omega,rfl,rfl⟩⟩
    all_goals simp only [LocalRange.span,Span.mem_mk,pageSize]
    all_goals omega
  · refine ⟨rfl,⟨_,Carved.of_setLocal hid ⟨hb,?_,?_,?_⟩ rfl rfl rfl ?_⟩,g,top,r,hg,ht,hr,
      .inl ⟨by omega,rfl,rfl⟩⟩
    all_goals simp only [LocalRange.span,Span.mem_mk,pageSize]
    all_goals omega
  · obtain ⟨hok',r',cell,hs'⟩ := dropRange_cases h
    refine ⟨hok',⟨fun _ _ => False,?_⟩,g,top,r,hg,ht,hr,.inr ⟨h1,h2,h⟩⟩
    rw [hs']
    apply Carved.of_drop
    intro x hx
    simp only [LocalRange.span,Span.mem_mk] at hx
    omega

/-- A fault that is not handled leaves the state alone, or takes a page and loses it. -/
theorem mmapPf_cases {task cr2 err rip : Nat} (h : mmapPf A s task cr2 err rip=some (ok,s')) :
    (ok=false ∧ s'=s) ∨ err%2≠1 ∧ ∃ hit g page r, addr2range s (s.pgm task) cr2=some (some hit) ∧
      s.globals hit.range.global=some g ∧ faultPage A s hit g=some (page,r) ∧
      ((page=0 ∧ ok=false ∧ s'=s.setRam r) ∨ (page≠0 ∧
        mmapPageInRange A (s.setRam r) g (cr2/pageSize*pageSize) page hit.range.prot=some (ok,s'))) := by
  unfold mmapPf at h
  split at h
  · cases h
    exact .inl ⟨rfl,rfl⟩
  · rename_i herr
    split at h
    · cases h
      exact .inl ⟨rfl,rfl⟩
    · obtain ⟨found,hf,h⟩ := bind_eq_some_iff.mp h
      cases found with
      | none =>
        cases h
        exact .inl ⟨rfl,rfl⟩
      | some hit =>
        obtain ⟨g,hg,h⟩ := bind_eq_some_iff.mp h
        obtain ⟨⟨page,r⟩,hpage,h⟩ := bind_eq_some_iff.mp h
        refine .inr ⟨herr,hit,g,page,r,hf,hg,hpage,?_⟩
        dsimp only at h
        split at h
        · cases h
          exact .inl ⟨‹_›,rfl,rfl⟩
        · rw [(findRange_some hf).2.2.2] at h
          exact .inr ⟨‹_›,h⟩

theorem munmap_munmapped {addr length : Nat} (h : munmap A s pm addr length=some (ok,s',evs)) :
    Munmapped s s' := by
  rw [munmap] at h
  split at h
  · cases h
    exact ⟨_,_,_,_,rfl⟩
  · have hrule := munmapLoop_rule (fun _ t => Munmapped s t) (fun _ => True)
      (fun _ _ hI _ _ => hI) ?_ ⟨_,_,_,_,rfl⟩ h
    · obtain ⟨-,⟨-,-,hm⟩,-⟩ := hrule
      exact hm
    · intro i t hit e ok₁ t' evs₁ hI _ _ _ hs
      obtain ⟨r,ranges,locals,n,rfl⟩ := hI
      obtain ⟨hok,r',ranges',locals',n',rfl⟩ := snip_munmapped hs
      exact ⟨hok,⟨r',ranges',locals',n',rfl⟩,fun _ _ => trivial⟩

end X64OS.Memory
