import X64OS.Memory.MmapFaults
import X64OS.Memory.MunmapPages

namespace X64OS.Memory

open Framework Function

variable {M : Machine} {P : Type} {A : PageAllocator M P}
variable {s₀ s s' : MmapState M P} {T : List Table} {hit : RangeHit} {pm addr limit i e : Nat}

def Covered (s : MmapState M P) (pm x : Nat) : Prop :=
  ∃ k∈s.ranges pm, ∃ l, s.locals k=some l ∧ x∈l.span

theorem findRange_total {locals : Nat → Option LocalRange} {ids : List Nat}
    (h : ∀ id∈ids, ∃ l, locals id=some l) (virt : Nat) :
    ∃ found, findRange locals virt ids=some found := by
  induction ids with
  | nil => exact ⟨none,rfl⟩
  | cons id ids ih =>
    obtain ⟨⟨l,hl⟩,hids⟩ := List.forall_mem_cons.mp h
    rw [findRange,hl]
    dsimp only
    split
    · exact ⟨_,rfl⟩
    · exact ih hids

theorem RangesOk.found_iff (hs : RangesOk s pm) (x : Nat) :
    (∃ hit, addr2range s pm x=some (some hit)) ↔ Covered s pm x := by
  constructor
  · rintro ⟨hit,hf⟩
    obtain ⟨hid,hl,hcov,-⟩ := findRange_some hf
    have hok := hs.rangeOk hid hl
    exact ⟨hit.id,hid,hit.range,hl,(hok.covers_iff x).mp hcov⟩
  · rintro ⟨k,hk,l,hl,hx⟩
    obtain ⟨found,hf⟩ := findRange_total (fun k hk => (hs.cell k hk).imp fun _ h => h.1) x
    cases found with
    | some hit => exact ⟨hit,hf⟩
    | none =>
      have hok := hs.rangeOk hk hl
      have hno := findRange_none hf k hk l hl
      rw [(hok.covers_iff x).mpr hx] at hno
      cases hno

theorem RangesOk.absent_iff (hs : RangesOk s pm) (x : Nat) :
    addr2range s pm x=some none ↔ ¬Covered s pm x := by
  rw [← hs.found_iff x]
  obtain ⟨found,hf⟩ := findRange_total (fun k hk => (hs.cell k hk).imp fun _ h => h.1) x
  rw [addr2range,hf]
  cases found <;> simp

theorem RangesOk.covered_page (hs : RangesOk s pm) {x y : Nat} (h : x/pageSize=y/pageSize)
    (hx : Covered s pm x) : Covered s pm y := by
  obtain ⟨k,hk,l,hl,hx⟩ := hx
  have hok := hs.rangeOk hk hl
  have hb := hok.base
  have hlen := hok.length
  refine ⟨k,hk,l,hl,?_⟩
  simp only [LocalRange.span,Span.mem_mk,pageSize] at *
  omega

theorem Remains.covered (h : Remains s s' pm) {x : Nat} (hx : Covered s' pm x) :
    Covered s pm x := by
  obtain ⟨k,hk,l,hl,hx⟩ := hx
  obtain ⟨k₀,hk₀,l₀,hl₀,hin⟩ := h k hk l hl
  exact ⟨k₀,hk₀,l₀,hl₀,hin x hx⟩

/-- What is left of a range keeps its prot and its flags, and its offset moves with
its base. -/
def Trimmed (l l' : LocalRange) (e : Nat) : Prop :=
  l'.prot=l.prot ∧ l'.flags=l.flags ∧ ((l'.base=l.base ∧ l'.offset=l.offset) ∨
    (e < l.base+l.length ∧ l'.base=e ∧ l'.offset=add64 l.offset (e-l.base)))

variable {evs : List (FreeEvent M P)} {k : Nat} {l : LocalRange}

theorem snip_trimmed (hok : RangeOk hit.range) (hi : hit.range.base ≤ i) (hie : i < e)
    (he : e ≤ hit.range.base+hit.range.length) {ok : Bool}
    (h : snip A s pm hit i e=some (ok,s',evs)) (hk : k∈s'.ranges pm) (hl : s'.locals k=some l) :
    (k∈s.ranges pm ∧ s.locals k=some l) ∨ Trimmed hit.range l e := by
  obtain ⟨g,top,r,-,-,-,hc⟩ := snip_cases hok hi hie he h
  obtain ⟨-,hend,-,-,rfl⟩ | ⟨rfl,hend,-,-,rfl⟩ | ⟨-,-,-,-,rfl⟩ | ⟨-,-,h⟩ := hc
  · obtain ⟨-,rfl⟩ | ⟨-,hl⟩ := update_cases hl
    · exact .inr ⟨rfl,rfl,.inl ⟨rfl,rfl⟩⟩
    · obtain ⟨-,rfl⟩ | ⟨hnew,hl⟩ := update_cases hl
      · exact .inr ⟨rfl,rfl,.inr ⟨hend,rfl,rfl⟩⟩
      · simp only [update_self,List.mem_append,List.mem_singleton,hnew,or_false] at hk
        exact .inl ⟨hk,hl⟩
  · obtain ⟨-,rfl⟩ | ⟨-,hl⟩ := update_cases hl
    · exact .inr ⟨rfl,rfl,.inr ⟨hend,rfl,rfl⟩⟩
    · exact .inl ⟨hk,hl⟩
  · obtain ⟨-,rfl⟩ | ⟨-,hl⟩ := update_cases hl
    · exact .inr ⟨rfl,rfl,.inl ⟨rfl,rfl⟩⟩
    · exact .inl ⟨hk,hl⟩
  · obtain ⟨-,r',cell,rfl⟩ := dropRange_cases h
    simp only [update_self,List.mem_filter,decide_eq_true_eq] at hk
    simp only [update_of_ne hk.2] at hl
    exact .inl ⟨hk.1,hl⟩

/-- A round of munmap at page i: the range it found, and where it stopped. -/
structure Round (s s' : MmapState M P) (pm : Nat) (hit : RangeHit) (i e limit : Nat) : Prop where
  listed : hit.id∈s.ranges pm
  cell : s.locals hit.id=some hit.range
  ok : RangeOk hit.range
  mem : i∈hit.range.span
  stop : e=min (hit.range.base+hit.range.length) limit
  aligned : e%pageSize=0
  lt : i < e
  cut : Cut s s' pm hit i limit
  carved : ∃ Piece, Carved s s' pm hit i e Piece
  trimmed : ∀ k∈s'.ranges pm, ∀ l, s'.locals k=some l →
    (k∈s.ranges pm ∧ s.locals k=some l) ∨ Trimmed hit.range l e

def RoundPages (A : PageAllocator M P) (s s' : MmapState M P) (pm : Nat) (hit : RangeHit)
    (i e : Nat) : Prop :=
  ∃ g top r, s.globals hit.range.global=some g ∧ s.tops pm=some top ∧
    unmapPages A top e rounds i s.ram=some r ∧
    (((hit.range.base < i ∨ e < hit.range.base+hit.range.length) ∧ s'.ram=r) ∨
      (hit.range.base=i ∧ e=hit.range.base+hit.range.length ∧
        ∃ ok evs, dropRange A (s.setRam r) pm hit.id hit.range g i e=some (ok,s',evs)))

theorem snip_round (hs : RangesOk s pm) (hf : addr2range s pm i=some (some hit)) (hi : i%pageSize=0)
    (hlim : limit%pageSize=0) (hil : i < limit) (he : snipStop hit.range.stop limit rounds i=some e)
    {ok : Bool} (h : snip A s pm hit i e=some (ok,s',evs)) :
    ok=true ∧ Round s s' pm hit i e limit ∧ RoundPages A s s' pm hit i e := by
  obtain ⟨hid,hl,hcov,-⟩ := findRange_some hf
  obtain ⟨hmin,hea,hrok⟩ := snipStop_hit hs hf hi hlim hil he
  have hmem := (hrok.covers_iff i).mp hcov
  obtain ⟨-,hcut⟩ := snip_cut hs hf hi hea hil hmin h
  rw [hrok.stop_eq] at hmin
  have hm := hmem
  rw [LocalRange.span,Span.mem_mk] at hm
  obtain ⟨hok,hcarved,g,top,r,hg,ht,hr,hram⟩ := snip_carved hid (Nat.ne_of_gt (hs.bound _ hid))
    hrok hi hea hmem (by omega) (by omega) h
  have htrim := fun k hk l => snip_trimmed (k := k) (l := l) hrok hm.1 (by omega) (by omega) h hk
  refine ⟨hok,⟨hid,hl,hrok,hmem,hmin,hea,by omega,hcut,hcarved,htrim⟩,g,top,r,hg,ht,hr,?_⟩
  obtain ⟨hpart,hram,-⟩ | ⟨hbase,hend,hdrop⟩ := hram
  · exact .inl ⟨hpart,hram⟩
  · exact .inr ⟨hbase,hend,ok,evs,hdrop⟩

theorem Round.unmaps {p : P} {top : Nat} (h : Round s s' pm hit i e limit)
    (hpages : RoundPages A s s' pm hit i e) (hi : i%pageSize=0) (he : e < 2^64)
    (hf : Forest A ⟨s.ram.mem,p⟩ T) (htops : ∀ pm t, s.tops pm=some t → ⟨t,3⟩∈T)
    (ht : s.tops pm=some top) :
    ∃ g, s.globals hit.range.global=some g ∧
      Unmaps A p T (fun top' v => (top'=top ∧ i ≤ v ∧ v < e) ∨
        (hit.range.base=i ∧ e=hit.range.base+hit.range.length ∧ Frees s hit.range g top' ∧
          Visited (add64 g.base g.length) g.base v)) s.ram.mem s'.ram.mem := by
  obtain ⟨g,top',r,hg,ht',hu,hram⟩ := hpages
  cases ht.symm.trans ht'
  have hlt := h.lt
  have hrounds : e < i+rounds*pageSize := by
    rw [rounds]
    simp only [pageSize]
    omega
  obtain ⟨r₁,hu₁,-,h₁⟩ :=
    unmapPages_unmaps hf (htops pm top ht) hi h.aligned he (Nat.le_of_lt hlt) hrounds
  cases hu.symm.trans hu₁
  refine ⟨g,hg,?_⟩
  obtain ⟨hpart,rfl⟩ | ⟨hbase,hend,ok,evs,hdrop⟩ := hram
  · exact h₁.congr (fun _ _ => or_iff_left (fun hc => by omega))
  · have h₂ := dropRange_unmaps (s := s.setRam r) h₁.trees htops hdrop
    refine h₁.trans h₂ (fun top' v => ?_)
    rw [and_iff_right hbase,and_iff_right hend]
    rfl

theorem Round.covered_iff (h : Round s s' pm hit i e limit) (hs : RangesOk s pm) (x : Nat) :
    Covered s' pm x ↔ Covered s pm x ∧ (x < i ∨ e ≤ x) := by
  obtain ⟨Piece,hc⟩ := h.carved
  have hmem := h.mem
  have hstop := h.stop
  rw [LocalRange.span,Span.mem_mk] at hmem
  constructor
  · rintro ⟨k,hk,l,hl,hx⟩
    obtain ⟨hold,hne⟩ | ⟨l',hl'⟩ := (hc.listed k).mp hk
    · have hkl : s.locals k=some l := by
        rw [← h.cut.kept k hold hne]
        exact hl
      refine ⟨⟨k,hold,l,hkl,hx⟩,?_⟩
      have hsep := hs.apart k hold hit.id h.listed hne l hit.range hkl h.cell x hx
      rw [LocalRange.span,Span.mem_mk] at hsep
      omega
    · cases (hc.cell k l' hl').symm.trans hl
      obtain ⟨hin,hout⟩ := hc.within k l hl' x hx
      exact ⟨⟨hit.id,h.listed,hit.range,h.cell,hin⟩,hout⟩
  · rintro ⟨⟨k,hk,l,hl,hx⟩,hout⟩
    by_cases hne : k=hit.id
    · subst hne
      cases hl.symm.trans h.cell
      obtain ⟨k',l',hp,hx'⟩ := hc.cover x hx hout
      exact ⟨k',(hc.listed k').mpr (.inr ⟨l',hp⟩),l',hc.cell k' l' hp,hx'⟩
    · refine ⟨k,(hc.listed k).mpr (.inl ⟨hk,hne⟩),l,?_,hx⟩
      rw [h.cut.kept k hk hne]
      exact hl

/-- What holds when the cursor of munmap is at page i: pages ahead and pages
outside the window are covered as at first, and a range ahead is still whole. -/
structure Ahead (s₀ s : MmapState M P) (pm addr limit i : Nat) : Prop where
  aligned : i%pageSize=0
  started : addr ≤ i
  ok : RangesOk s pm
  less : ∀ x, Covered s pm x → Covered s₀ pm x
  cover : ∀ x, x < addr ∨ limit ≤ x ∨ i ≤ x → Covered s₀ pm x → Covered s pm x
  whole : ∀ k∈s.ranges pm, ∀ l, s.locals k=some l → (∃ x∈l.span, i ≤ x ∧ x < limit) →
    k∈s₀.ranges pm ∧ s₀.locals k=some l

theorem Ahead.refl (hs : RangesOk s pm) (ha : addr%pageSize=0) : Ahead s s pm addr limit addr :=
  ⟨ha,Nat.le_refl _,hs,fun _ h => h,fun _ _ h => h,fun _ hk _ hl _ => ⟨hk,hl⟩⟩

section
variable (h : Ahead s₀ s pm addr limit i)
include h

theorem Ahead.skip : Ahead s₀ s pm addr limit (i+pageSize) := by
  have hst := h.started
  refine ⟨by rw [Nat.add_mod_right]; exact h.aligned,by omega,h.ok,h.less,?_,?_⟩
  · exact fun x hx => h.cover x (by omega)
  · rintro k hk l hl ⟨x,hx,hxi,hxl⟩
    exact h.whole k hk l hl ⟨x,hx,by omega,hxl⟩

theorem Ahead.round (hr : Round s s' pm hit i e limit) :
    Ahead s₀ s' pm addr limit (e+pageSize) := by
  have hst := h.started
  have hlt := hr.lt
  have hstop := hr.stop
  have hcov := hr.covered_iff h.ok
  refine ⟨by rw [Nat.add_mod_right]; exact hr.aligned,by omega,
    hr.cut.rangesOk h.ok hr.listed hr.cell,fun x hx => h.less x ((hcov x).mp hx).1,?_,?_⟩
  · exact fun x hx hx₀ => (hcov x).mpr ⟨h.cover x (by omega) hx₀,by omega⟩
  · rintro k hk l hl ⟨x,hx,hxi,hxl⟩
    obtain ⟨hold,-,hkl⟩ | ⟨-,-,hin⟩ := hr.cut.cases hk hl
    · exact h.whole k hold l hkl ⟨x,hx,by omega,hxl⟩
    · have hout := (hin x hx).2
      omega

theorem Ahead.original (hr : Round s s' pm hit i e limit) (hil : i < limit) :
    hit.id∈s₀.ranges pm ∧ s₀.locals hit.id=some hit.range :=
  h.whole hit.id hr.listed hit.range hr.cell ⟨i,hr.mem,Nat.le_refl _,hil⟩

end

/-- No round ends at the last page of the address space, behind which the cursor of
munmap is 0 again. -/
def CursorFits (s : MmapState M P) (pm limit : Nat) : Prop :=
  ∀ k∈s.ranges pm, ∀ l, s.locals k=some l → min (l.base+l.length) limit+pageSize < 2^64

theorem CursorFits.of_limit (h : limit+pageSize < 2^64) : CursorFits s pm limit :=
  fun _ _ _ _ => by omega

theorem munmapLoop_rounds (hs : RangesOk s pm) (ha : addr%pageSize=0) (hlim : limit%pageSize=0)
    (hl64 : limit < 2^64) (hcur : CursorFits s pm limit) (J : Nat → MmapState M P → Prop)
    (hskip : ∀ i t, Ahead s t pm addr limit i → i < limit → ¬Covered t pm i → J i t →
      J (i+pageSize) t) (hround : ∀ i t hit e t', Ahead s t pm addr limit i → i < limit →
      Round t t' pm hit i e limit → RoundPages A t t' pm hit i e → Munmapped t t' → J i t →
      J (e+pageSize) t') (hJ : J addr s) {n : Nat} {ok : Bool}
    (h : munmapLoop A pm limit n addr s=some (ok,s',evs)) :
    ok=true ∧ ∃ j, limit ≤ j ∧ Ahead s s' pm addr limit j ∧ J j s' := by
  have hrule := munmapLoop_rule (fun i t => Ahead s t pm addr limit i ∧ J i t) (fun _ => True)
    ?_ ?_ ⟨Ahead.refl hs ha,hJ⟩ h
  · exact ⟨hrule.1,hrule.2.1⟩
  · intro i t ⟨hah,hi⟩ hlt hf
    have hadd : i+pageSize < 2^64 := by
      have hal := hah.aligned
      simp only [pageSize] at hal hlim ⊢
      omega
    rw [add64_eq hadd]
    exact ⟨hah.skip,hskip i t hah hlt ((hah.ok.absent_iff i).mp hf) hi⟩
  · intro i t hit e ok₁ t' evs₁ ⟨hah,hi⟩ hlt hf he hsnip
    obtain ⟨hok,hr,hpages⟩ := snip_round hah.ok hf hah.aligned hlim hlt he hsnip
    obtain ⟨hid,hcell⟩ := hah.original hr hlt
    have hend := hcur hit.id hid hit.range hcell
    rw [← hr.stop] at hend
    rw [add64_eq hend]
    exact ⟨hok,⟨hah.round hr,hround i t hit e t' hah hlt hr hpages (snip_munmapped hsnip).2 hi⟩,
      fun _ _ => trivial⟩

/-- A range that is found where another has ended begins there. -/
theorem RangesOk.adjacent (hs : RangesOk s pm) {k' : Nat} {l' : LocalRange} (hk : k∈s.ranges pm)
    (hk' : k'∈s.ranges pm) (hl : s.locals k=some l) (hl' : s.locals k'=some l')
    (hx : l.base+l.length∈l'.span) : l'.base=l.base+l.length := by
  have hne : k≠k' := by
    rintro rfl
    cases hl.symm.trans hl'
    rw [LocalRange.span,Span.mem_mk] at hx
    omega
  have hok := hs.rangeOk hk hl
  have hpos := hok.pos
  have hsep := hs.apart k hk k' hk' hne l l' hl hl'
  rw [LocalRange.span,Span.mem_mk] at hx
  rw [Span.separate_iff hpos (by simp only [LocalRange.span]; omega)] at hsep
  simp only [LocalRange.span,Span.stop] at hsep
  omega

theorem RangesOk.first_adjacent (hs : RangesOk s pm) (h : ¬NoAdjacent s pm addr limit) :
    ∃ k∈s.ranges pm, ∃ k'∈s.ranges pm, ∃ l l', s.locals k=some l ∧ s.locals k'=some l' ∧
      addr < l.base+l.length ∧ l'.base=l.base+l.length ∧ l'.base < limit ∧
      ∀ k₁∈s.ranges pm, ∀ l₁, s.locals k₁=some l₁ → addr < l₁.base+l₁.length →
        l.base≠l₁.base+l₁.length := by
  classical
  have hex : ∃ n, ∃ k∈s.ranges pm, ∃ k'∈s.ranges pm, ∃ l l', s.locals k=some l ∧
      s.locals k'=some l' ∧ addr < l.base+l.length ∧ l'.base=l.base+l.length ∧
      l'.base < limit ∧ l.base+l.length=n := by
    rw [NoAdjacent] at h
    push Not at h
    obtain ⟨k,hk,k',hk',l,l',hl,hl',hfrom,hadj,hin⟩ := h
    exact ⟨_,k,hk,k',hk',l,l',hl,hl',hfrom,hadj,hin,rfl⟩
  obtain ⟨k,hk,k',hk',l,l',hl,hl',hfrom,hadj,hin,hfind⟩ := Nat.find_spec hex
  refine ⟨k,hk,k',hk',l,l',hl,hl',hfrom,hadj,hin,?_⟩
  intro k₁ hk₁ l₁ hl₁ hfrom₁ hadj₁
  have hok := hs.rangeOk hk hl
  have hpos := hok.pos
  have hle := Nat.find_min' hex ⟨k₁,hk₁,k,hk,l₁,l,hl₁,hl,hfrom₁,hadj₁,by omega,rfl⟩
  omega

/-- The pages that the cursor of munmap jumps over: page n+1 is one if a range ends there that the
cursor has met, which it has not only if the range is one page and the cursor jumped over that. -/
def Skipped (s : MmapState M P) (pm addr : Nat) : Nat → Prop
  | 0 => False
  | n+1 => addr < (n+1)*pageSize ∧ ∃ k∈s.ranges pm, ∃ l, s.locals k=some l ∧
      l.base+l.length=(n+1)*pageSize ∧ (l.base=n*pageSize → ¬Skipped s pm addr n)

theorem skipped_iff {b : Nat} (hb : b%pageSize=0) : Skipped s pm addr (b/pageSize) ↔
    addr < b ∧ ∃ k∈s.ranges pm, ∃ l, s.locals k=some l ∧ l.base+l.length=b ∧
      (l.base+pageSize=b → ¬Skipped s pm addr (l.base/pageSize)) := by
  obtain ⟨n,rfl⟩ := Nat.dvd_of_mod_eq_zero hb
  rw [Nat.mul_div_cancel_left n (by decide),Nat.mul_comm]
  cases n with
  | zero => exact iff_of_false (fun h => h) (fun h => by omega)
  | succ n =>
    rw [Skipped]
    refine and_congr_right (fun _ => exists_congr (fun k => and_congr_right (fun _ => exists_congr
      (fun l => and_congr_right (fun _ => and_congr_right (fun _ => ?_))))))
    rw [Nat.succ_mul,Nat.add_right_cancel_iff]
    refine forall_congr' (fun hbase => ?_)
    rw [hbase,Nat.mul_div_cancel n (by decide)]

/-- Around a range that the cursor has met at page i: the rest of the range is not jumped over, the
page behind it is, and the next one is not. -/
theorem RangesOk.skips (hs : RangesOk s pm) (hk : k∈s.ranges pm) (hl : s.locals k=some l)
    (hi : i%pageSize=0) (hai : addr ≤ i) (hmem : i∈l.span)
    (hfirst : ¬Skipped s pm addr (i/pageSize)) :
    (∀ v, i ≤ v → v < l.base+l.length → ¬Skipped s pm addr (v/pageSize)) ∧
    Skipped s pm addr ((l.base+l.length)/pageSize) ∧
    ¬Skipped s pm addr ((l.base+l.length+pageSize)/pageSize) := by
  have hok := hs.rangeOk hk hl
  have hb := hok.base
  have hlen := hok.length
  have hpos := hok.pos
  rw [LocalRange.span,Span.mem_mk] at hmem
  -- a range that ends in or behind this one and begins before its end is this one
  have hsame : ∀ k'∈s.ranges pm, ∀ l', s.locals k'=some l' → i < l'.base+l'.length →
      l'.base < l.base+l.length → l'=l := by
    intro k' hk' l' hl' hend hbase
    by_cases hkk : k=k'
    · subst hkk
      exact Option.some_inj.mp (hl'.symm.trans hl)
    · have hok' := hs.rangeOk hk' hl'
      have hsep := hs.apart k hk k' hk' hkk l l' hl hl'
      rw [Span.separate_iff hpos hok'.pos] at hsep
      simp only [LocalRange.span,Span.stop] at hsep
      omega
  have hskipped : Skipped s pm addr ((l.base+l.length)/pageSize) := by
    rw [skipped_iff (by rw [Nat.add_mod,hb,hlen]; rfl)]
    refine ⟨by omega,k,hk,l,hl,rfl,fun hone => ?_⟩
    obtain rfl : i=l.base := by
      simp only [pageSize] at hi hb hone
      omega
    exact hfirst
  refine ⟨fun v hv hve hskip => ?_,hskipped,fun hskip => ?_⟩
  · rw [show v/pageSize=v/pageSize*pageSize/pageSize from
      (Nat.mul_div_cancel _ (by decide)).symm] at hskip
    obtain ⟨-,k',hk',l',hl',hend,hone⟩ := (skipped_iff (Nat.mul_mod_left _ _)).mp hskip
    have hok' := hs.rangeOk hk' hl'
    have hpos' := hok'.pos
    by_cases hpage : v/pageSize*pageSize=i
    · rw [hpage] at hskip
      exact hfirst hskip
    · have heq := hsame k' hk' l' hl' (by simp only [pageSize] at *; omega)
        (by simp only [pageSize] at *; omega)
      subst heq
      simp only [pageSize] at *
      omega
  · obtain ⟨-,k',hk',l',hl',hend,hone⟩ := (skipped_iff (by
      rw [Nat.add_mod_right,Nat.add_mod,hb,hlen]; rfl)).mp hskip
    by_cases hbase : l'.base=l.base+l.length
    · refine hone (by omega) ?_
      rw [hbase]
      exact hskipped
    · have hok' := hs.rangeOk hk' hl'
      have hb' := hok'.base
      have hpos' := hok'.pos
      have heq := hsame k' hk' l' hl' (by omega) (by simp only [pageSize] at *; omega)
      subst heq
      simp only [pageSize] at hend
      omega

/-- The translations that munmap has taken when its cursor is at page i: of the pages of the window
that had a range, and were not jumped over, and in shadow pagemaps of the pages of anonymous ranges
that went whole. -/
def Takes (s : MmapState M P) (pm top addr limit i top' v : Nat) : Prop :=
  (top'=top ∧ addr ≤ v ∧ v < i ∧ v < limit ∧ Covered s pm v ∧ ¬Skipped s pm addr (v/pageSize)) ∨
  ∃ k∈s.ranges pm, ∃ l, s.locals k=some l ∧ addr ≤ l.base ∧ l.base < i ∧ l.base+l.length ≤ limit ∧
    ¬Skipped s pm addr (l.base/pageSize) ∧ ∃ g, s.globals l.global=some g ∧ Frees s l g top' ∧
      Visited (add64 g.base g.length) g.base v

/-- What munmap has done when its cursor is at page i. -/
structure Swept (A : PageAllocator M P) (p : P) (T : List Table) (s t : MmapState M P)
    (pm top addr limit i : Nat) : Prop where
  met : i < limit → ¬Skipped s pm addr (i/pageSize)
  tops : t.tops=s.tops
  globals : t.globals=s.globals
  covered : ∀ x, Covered t pm x ↔
    Covered s pm x ∧ (x < addr ∨ i ≤ x ∨ limit ≤ x ∨ Skipped s pm addr (x/pageSize))
  unmaps : Unmaps A p T (Takes s pm top addr limit i) s.ram.mem t.ram.mem

section Sweep

variable {p : P} {t t' : MmapState M P} {top : Nat}

theorem Swept.refl (ha : addr%pageSize=0) (hf : Forest A ⟨s.ram.mem,p⟩ T) :
    Swept A p T s s pm top addr limit addr where
  met _ hskip := Nat.lt_irrefl _ ((skipped_iff ha).mp hskip).1
  tops := rfl
  globals := rfl
  covered x := by
    rw [iff_self_and]
    exact fun _ => by omega
  unmaps := by
    refine .refl hf ?_
    rintro top' v (⟨-,hv,hlt,-⟩ | ⟨k,-,l,-,hbase,hlt,-⟩) <;> omega

theorem Swept.skip (h : Swept A p T s t pm top addr limit i) (hs : RangesOk s pm)
    (hah : Ahead s t pm addr limit i) (hfree : ¬Covered t pm i) :
    Swept A p T s t pm top addr limit (i+pageSize) := by
  have hi := hah.aligned
  have hst := hah.started
  have hno : ∀ x, i ≤ x → x < i+pageSize → ¬Covered s pm x := by
    intro x hx hxi hcov
    have hpage : x/pageSize=i/pageSize := by
      simp only [pageSize] at hi hxi ⊢
      omega
    exact hfree (hah.ok.covered_page hpage (hah.cover x (.inr (.inr hx)) hcov))
  have hpage : 0 < pageSize := by decide
  refine ⟨fun _ hskip => ?_,h.tops,h.globals,fun x => ?_,h.unmaps.congr (fun top' v => ?_)⟩
  · obtain ⟨-,k,hk,l,hl,hend,-⟩ := (skipped_iff (by rw [Nat.add_mod_right]; exact hi)).mp hskip
    have hok := hs.rangeOk hk hl
    have hb := hok.base
    have hpos := hok.pos
    refine hno i (Nat.le_refl i) (by omega) ⟨k,hk,l,hl,?_⟩
    simp only [LocalRange.span,Span.mem_mk,pageSize] at *
    omega
  · rw [h.covered x]
    refine and_congr_right (fun hcov => ?_)
    have hx := hno x
    by_cases hin : i ≤ x ∧ x < i+pageSize
    · exact absurd hcov (hx hin.1 hin.2)
    · rw [show i ≤ x ↔ i+pageSize ≤ x by omega]
  · refine or_congr (and_congr_right (fun _ => and_congr_right (fun _ => ?_))) ?_
    · constructor
      · rintro ⟨hv,hvl,hcov,hskip⟩
        refine ⟨?_,hvl,hcov,hskip⟩
        by_contra hge
        exact hno v (by omega) hv hcov
      · exact fun hc => ⟨by omega,hc.2⟩
    · refine exists_congr (fun k => and_congr_right (fun hk => exists_congr (fun l =>
        and_congr_right (fun hl => and_congr_right (fun _ => ?_)))))
      constructor
      · rintro ⟨hv,hrest⟩
        refine ⟨?_,hrest⟩
        by_contra hge
        have hok := hs.rangeOk hk hl
        have hpos := hok.pos
        exact hno l.base (by omega) hv ⟨k,hk,l,hl,by rw [LocalRange.span,Span.mem_mk]; omega⟩
      · exact fun hc => ⟨by omega,hc.2⟩

theorem takes_round {g : GlobalRange M} (hs : RangesOk s pm) (hid : hit.id∈s.ranges pm)
    (hcell : s.locals hit.id=some hit.range) (hai : addr ≤ i) (hmem : i∈hit.range.span)
    (hstop : e=min (hit.range.base+hit.range.length) limit) (hie : i < e) (hea : e%pageSize=0)
    (hin : ∀ v, i ≤ v → v < e → ¬Skipped s pm addr (v/pageSize))
    (hend : e < limit → Skipped s pm addr (e/pageSize))
    (hg : s.globals hit.range.global=some g) (top' v : Nat) :
    Takes s pm top addr limit (e+pageSize) top' v ↔ Takes s pm top addr limit i top' v ∨
      ((top'=top ∧ i ≤ v ∧ v < e) ∨ (hit.range.base=i ∧ e=hit.range.base+hit.range.length ∧
        Frees s hit.range g top' ∧ Visited (add64 g.base g.length) g.base v)) := by
  have hm := hmem
  rw [LocalRange.span,Span.mem_mk] at hm
  have hpage : 0 < pageSize := by decide
  constructor
  · rintro (⟨rfl,hav,hv,hvl,hcov,hskip⟩ | ⟨k,hk,l,hl,hab,hlb,hle,hskip,g',hg',hfrees,hvis⟩)
    · by_cases hvi : v < i
      · exact .inl (.inl ⟨rfl,hav,hvi,hvl,hcov,hskip⟩)
      · refine .inr (.inl ⟨rfl,by omega,?_⟩)
        by_contra hve
        have hpg : v/pageSize=e/pageSize := by
          simp only [pageSize] at hea hv ⊢
          omega
        rw [hpg] at hskip
        exact hskip (hend (by omega))
    · by_cases hbi : l.base < i
      · exact .inl (.inr ⟨k,hk,l,hl,hab,hbi,hle,hskip,g',hg',hfrees,hvis⟩)
      · have hok := hs.rangeOk hk hl
        have hpos := hok.pos
        have hb := hok.base
        have hbe : l.base < e := by
          by_contra hge
          have heq : l.base=e := by
            simp only [pageSize] at hea hb hlb
            omega
          rw [heq] at hskip
          exact hskip (hend (by omega))
        obtain rfl : k=hit.id := by
          by_contra hne
          exact hs.apart k hk hit.id hid hne l hit.range hl hcell l.base
            (by rw [LocalRange.span,Span.mem_mk]; omega) (by rw [LocalRange.span,Span.mem_mk]; omega)
        cases hl.symm.trans hcell
        cases hg.symm.trans hg'
        exact .inr (.inr ⟨by omega,by omega,hfrees,hvis⟩)
  · rintro (hold | ⟨rfl,hv,hve⟩ | ⟨hbase,hend',hfrees,hvis⟩)
    · obtain ⟨rfl,hav,hv,hrest⟩ | ⟨k,hk,l,hl,hab,hlb,hrest⟩ := hold
      · exact .inl ⟨rfl,hav,by omega,hrest⟩
      · exact .inr ⟨k,hk,l,hl,hab,by omega,hrest⟩
    · exact .inl ⟨rfl,by omega,by omega,by omega,
        ⟨hit.id,hid,hit.range,hcell,by rw [LocalRange.span,Span.mem_mk]; omega⟩,hin v hv hve⟩
    · refine .inr ⟨hit.id,hid,hit.range,hcell,by omega,by omega,by omega,?_,g,hg,hfrees,hvis⟩
      rw [hbase]
      exact hin i (Nat.le_refl i) hie

theorem Swept.round (h : Swept A p T s t pm top addr limit i) (hs : RangesOk s pm)
    (hah : Ahead s t pm addr limit i) (hlt : i < limit) (hl64 : limit < 2^64)
    (hr : Round t t' pm hit i e limit) (hpages : RoundPages A t t' pm hit i e)
    (hmun : Munmapped t t') (htops : ∀ pm t, s.tops pm=some t → ⟨t,3⟩∈T)
    (ht : s.tops pm=some top) : Swept A p T s t' pm top addr limit (e+pageSize) := by
  obtain ⟨hid,hcell⟩ := hah.original hr hlt
  have hstop := hr.stop
  have hie := hr.lt
  have hst := hah.started
  have hpage : 0 < pageSize := by decide
  obtain ⟨hin,hend,hnext⟩ := hs.skips hid hcell hah.aligned hst hr.mem (h.met hlt)
  have hin' : ∀ v, i ≤ v → v < e → ¬Skipped s pm addr (v/pageSize) :=
    fun v hv hve => hin v hv (by omega)
  have hend' : e < limit → Skipped s pm addr (e/pageSize) := by
    intro hel
    rw [show e=hit.range.base+hit.range.length by omega]
    exact hend
  obtain ⟨g,hg,hu⟩ := hr.unmaps (p := p) hpages hah.aligned (by omega) h.unmaps.trees
    (by rw [h.tops]; exact htops) (by rw [h.tops]; exact ht)
  have hcov := hr.covered_iff hah.ok
  obtain ⟨r,ranges,locals,next,rfl⟩ := hmun
  refine ⟨fun hel => ?_,h.tops,h.globals,fun x => ?_,?_⟩
  · rw [show e=hit.range.base+hit.range.length by omega]
    exact hnext
  · rw [hcov x,h.covered x,and_assoc]
    refine and_congr_right (fun _ => ?_)
    have hbehind : e ≤ x → x < e+pageSize → x < limit → Skipped s pm addr (x/pageSize) := by
      intro hex hxe hxl
      have hpg : x/pageSize=e/pageSize := by
        have hea := hr.aligned
        simp only [pageSize] at hea hxe ⊢
        omega
      rw [hpg]
      exact hend' (by omega)
    have hinside := hin' x
    by_cases hskip : Skipped s pm addr (x/pageSize)
    · simp only [hskip,or_true,true_and,iff_true]
      by_contra hc
      exact hinside (by omega) (by omega) hskip
    · simp only [hskip,or_false]
      have hne : ¬(e ≤ x ∧ x < e+pageSize ∧ x < limit) :=
        fun hc => hskip (hbehind hc.1 hc.2.1 hc.2.2)
      omega
  · refine h.unmaps.trans hu (fun top' v => ?_)
    have hfrees : Frees t hit.range g top' ↔ Frees s hit.range g top' := by
      rw [Frees,Frees,h.tops]
    rw [hfrees]
    exact takes_round hs hid hcell hst hr.mem hstop hie hr.aligned hin' hend'
      (by rw [← h.globals]; exact hg) top' v

theorem munmapLoop_swept (hs : RangesOk s pm) (ha : addr%pageSize=0) (hlim : limit%pageSize=0)
    (hl64 : limit < 2^64) (hcur : CursorFits s pm limit) (hf : Forest A ⟨s.ram.mem,p⟩ T)
    (htops : ∀ pm t, s.tops pm=some t → ⟨t,3⟩∈T) (ht : s.tops pm=some top) {n : Nat} {ok : Bool}
    (h : munmapLoop A pm limit n addr s=some (ok,s',evs)) :
    ∃ j, limit ≤ j ∧ Swept A p T s s' pm top addr limit j := by
  obtain ⟨-,j,hj,-,hsw⟩ := munmapLoop_rounds hs ha hlim hl64 hcur
    (fun i t => Swept A p T s t pm top addr limit i)
    (fun i t hah _ hfree hsw => hsw.skip hs hah hfree)
    (fun i t hit e t' hah hlt hr hpages hmun hsw =>
      hsw.round hs hah hlt hl64 hr hpages hmun htops ht) (.refl ha hf) h
  exact ⟨j,hj,hsw⟩

end Sweep

theorem RangesOk.noAdjacent_iff (hs : RangesOk s pm) : NoAdjacent s pm addr limit ↔
    ∀ x, addr ≤ x → x < limit → Covered s pm x → ¬Skipped s pm addr (x/pageSize) := by
  constructor
  · intro hno x _ hxl hcov hskip
    rw [show x/pageSize=x/pageSize*pageSize/pageSize from
      (Nat.mul_div_cancel _ (by decide)).symm] at hskip
    obtain ⟨hfrom,k,hk,l,hl,hend,-⟩ := (skipped_iff (Nat.mul_mod_left _ _)).mp hskip
    have hpage : x/pageSize=(l.base+l.length)/pageSize := by
      rw [hend,Nat.mul_div_cancel _ (by decide)]
    obtain ⟨k',hk',l',hl',hx'⟩ := hs.covered_page hpage hcov
    have hadj := hs.adjacent hk hk' hl hl' hx'
    have hbehind := hno k hk k' hk' l l' hl hl' (by omega) hadj
    simp only [pageSize] at *
    omega
  · intro hmet
    by_contra hadj
    obtain ⟨k,hk,k',hk',l,l',hl,hl',hfrom,hmeet,hin,hfirst⟩ := hs.first_adjacent hadj
    have hok' := hs.rangeOk hk' hl'
    have hpos' := hok'.pos
    refine hmet l'.base (by omega) hin ⟨k',hk',l',hl',by rw [LocalRange.span,Span.mem_mk]; omega⟩ ?_
    rw [skipped_iff hok'.base]
    refine ⟨by omega,k,hk,l,hl,by omega,fun hone hskip => ?_⟩
    -- the first of the two is not itself behind another
    have hok := hs.rangeOk hk hl
    obtain ⟨hbefore,k₁,hk₁,l₁,hl₁,hend,-⟩ := (skipped_iff hok.base).mp hskip
    exact hfirst k₁ hk₁ l₁ hl₁ (by omega) hend.symm

theorem window_fits {length : Nat} (ha : addr%pageSize=0)
    (hw : addr+length+(pageSize-1) < 2^64) :
    addr+alignUp length pageSize < 2^64 ∧ (addr+alignUp length pageSize)%pageSize=0 := by
  have hbounds := alignUp_bounds (n := length) (by omega)
  refine ⟨by omega,?_⟩
  rw [Nat.add_mod,ha,alignUp_aligned]
  rfl

/-- munmap of a window takes the ranges and the translations of its pages exactly if
no range that meets the window ends where another begins in it. -/
theorem munmap_clears_iff (A : PageAllocator M P) (s s' : MmapState M P) (T : List Table)
    (hf : Forest A s.ram T) (htops : ∀ pm t, s.tops pm=some t → ⟨t,3⟩∈T) (pm top : Nat)
    (hs : RangesOk s pm) (ht : s.tops pm=some top) (addr length : Nat)
    (hadm : Admissible addr length) (hcur : CursorFits s pm (addr+alignUp length pageSize))
    (ok : Bool) (evs : List (FreeEvent M P))
    (h : munmap A s pm addr length=some (ok,s',evs)) :
    ok=true ∧ ((∀ v, addr ≤ v → v < addr+alignUp length pageSize →
        (∃ hit, addr2range s pm v=some (some hit)) →
        addr2range s' pm v=some none ∧ vmmVirt2phys A s'.ram top (word v)=some invalidPhys) ↔
      NoAdjacent s pm addr (addr+alignUp length pageSize)) := by
  obtain ⟨ha,hpos,hw⟩ := hadm
  obtain ⟨hfits,hlim⟩ := window_fits ha hw
  obtain ⟨hsn,hok⟩ := munmap_snipped hs ha h
  refine ⟨(hok hpos).1,?_⟩
  rw [munmap,if_neg (Nat.ne_of_gt hpos),add64_eq hfits] at h
  obtain ⟨j,hj,hsw⟩ := munmapLoop_swept hs ha hlim hfits hcur hf htops ht h
  rw [hs.noAdjacent_iff]
  refine forall_congr' (fun v => forall_congr' (fun hv => forall_congr' (fun hvl => ?_)))
  rw [hs.found_iff v]
  refine forall_congr' (fun hcov => ?_)
  rw [hsn.ok.absent_iff v,hsw.covered v]
  constructor
  · exact fun hgone hskip => hgone.1 ⟨hcov,.inr (.inr (.inr hskip))⟩
  · intro hskip
    have habs := hsw.unmaps.taken top v (.inl ⟨rfl,hv,by omega,hvl,hcov,hskip⟩)
    refine ⟨fun hc => ?_,?_⟩
    · obtain hc | hc | hc | hc := hc.2
      · omega
      · omega
      · omega
      · exact hskip hc
    · rw [vmmVirt2phys_pmm s'.ram s.ram.pmm,vmmVirt2phys_eq hsw.unmaps.trees (htops pm top ht),
        translate,if_neg (by rw [habs]; exact Bool.false_ne_true)]

def twoFiles (second : Nat) : MmapState bumpMachine Nat :=
  { processState with
    ranges := fun pm => if pm=0 then [0,1] else []
    locals := fun k =>
      if k=0 then some ⟨0,0,0x80000000000,pageSize,0,protWrite,0⟩
      else if k=1 then some ⟨0,1,second,pageSize,0,protWrite,0⟩
      else none
    globals := fun k =>
      if k=0 then some ⟨none,[0],none,0x80000000000,pageSize,0⟩
      else if k=1 then some ⟨none,[1],none,second,pageSize,0⟩
      else none
    nextLocal := 2
    nextGlobal := 2 }

theorem twoFiles_ok {second : Nat} (ha : second%pageSize=0) (hfrom : 0x80000001000 ≤ second)
    (hw : second+pageSize < 2^64) : RangesOk (twoFiles second) 0 where
  known := Nat.one_pos
  nodup := (by decide : [0,1].Nodup)
  bound := (by decide : ∀ k∈[0,1], k < 2)
  cell k hk := by
    obtain rfl | rfl : k=0 ∨ k=1 := by simpa [twoFiles] using hk
    · exact ⟨_,rfl,by constructor <;> decide⟩
    · exact ⟨_,rfl,ha,Nat.mod_self _,(by decide : 0 < pageSize),hw⟩
  apart k hk k' hk' hne l l' hl hl' := by
    have hsep : (⟨0x80000000000,pageSize⟩ : Span).Separate ⟨second,pageSize⟩ := by
      intro x hx hx'
      simp only [Span.mem_mk,pageSize] at hx hx'
      omega
    obtain rfl | rfl : k=0 ∨ k=1 := by simpa [twoFiles] using hk
    · obtain rfl | rfl : k'=0 ∨ k'=1 := by simpa [twoFiles] using hk'
      · exact absurd rfl hne
      · cases hl
        cases hl'
        exact hsep
    · obtain rfl | rfl : k'=0 ∨ k'=1 := by simpa [twoFiles] using hk'
      · cases hl
        cases hl'
        exact hsep.symm
      · exact absurd rfl hne

theorem munmap_clears_iff_gap : ∃ s' evs,
    munmap (bumpPages bumpMachine) (twoFiles 0x80000002000) 0 0x80000000000 12288=
      some (true,s',evs) ∧
    ((∀ v, 0x80000000000 ≤ v → v < 0x80000000000+alignUp 12288 pageSize →
        (∃ hit, addr2range (twoFiles 0x80000002000) 0 v=some (some hit)) →
        addr2range s' 0 v=some none ∧
          vmmVirt2phys (bumpPages bumpMachine) s'.ram processTop (word v)=some invalidPhys) ↔
      NoAdjacent (twoFiles 0x80000002000) 0 0x80000000000
        (0x80000000000+alignUp 12288 pageSize)) := by
  have hrun : (munmap (bumpPages bumpMachine) (twoFiles 0x80000002000) 0 0x80000000000 12288).map
      (fun x => x.1)=some true := by
    decide +kernel
  obtain ⟨⟨ok,s',evs⟩,h,rfl⟩ := Option.map_eq_some_iff.mp hrun
  exact ⟨s',evs,h,(munmap_clears_iff (bumpPages bumpMachine) (twoFiles 0x80000002000) s'
    processTables processForest processState_booted.top 0 processTop
    (twoFiles_ok (by decide) (by decide) (by decide)) rfl 0x80000000000 12288 (by decide)
    (.of_limit (by decide)) true evs h).2⟩

/-- Two files without a gap between them: munmap of both leaves the second. -/
theorem munmap_leaves_adjacent : RangesOk (twoFiles 0x80000001000) 0 ∧
    ∃ s' evs hit hit', munmap (bumpPages bumpMachine) (twoFiles 0x80000001000) 0 0x80000000000 8192=
        some (true,s',evs) ∧
      addr2range (twoFiles 0x80000001000) 0 0x80000001000=some (some hit) ∧
      addr2range s' 0 0x80000001000=some (some hit') := by
  have hrun : (munmap (bumpPages bumpMachine) (twoFiles 0x80000001000) 0 0x80000000000 8192).map
      (fun x => (x.1,(addr2range (twoFiles 0x80000001000) 0 0x80000001000).map Option.isSome,
        (addr2range x.2.1 0 0x80000001000).map Option.isSome))=some (true,some true,some true) := by
    decide +kernel
  obtain ⟨⟨ok,s',evs⟩,h,hv⟩ := Option.map_eq_some_iff.mp hrun
  simp only [Prod.mk.injEq] at hv
  obtain ⟨rfl,hbefore,hafter⟩ := hv
  obtain ⟨found,hf,hsome⟩ := Option.map_eq_some_iff.mp hbefore
  obtain ⟨hit,rfl⟩ := Option.isSome_iff_exists.mp hsome
  obtain ⟨found',hf',hsome'⟩ := Option.map_eq_some_iff.mp hafter
  obtain ⟨hit',rfl⟩ := Option.isSome_iff_exists.mp hsome'
  exact ⟨twoFiles_ok (by decide) (by decide) (by decide),s',evs,hit,hit',h,hf,hf'⟩

end X64OS.Memory
