import X64OS.Memory.MunmapWindows

namespace X64OS.Memory

open Framework
open Option (bind_some map_some some_ne_none)

variable {M : Machine} {P : Type} {A : PageAllocator M P}
variable {s s' : MmapState M P} {T : List Table} {p : P} {hit : RangeHit}
variable {pm top addr limit i e : Nat}

def LocalRange.report (l : LocalRange) (x : Nat) : Nat×Nat×Nat :=
  (l.prot,l.flags,add64 (l.offset/pageSize) (sub64 (x/pageSize) (l.base/pageSize)))

def reported (s : MmapState M P) (pm x : Nat) : Option (Option (Nat×Nat×Nat)) :=
  (addr2range s pm x).map (Option.map (fun hit => (hit.range.prot,hit.range.flags,hit.filePage)))

def Reports (s : MmapState M P) (pm x : Nat) (v : Nat×Nat×Nat) : Prop :=
  ∃ k∈s.ranges pm, ∃ l, s.locals k=some l ∧ x∈l.span ∧ l.report x=v

theorem findRange_report {locals : Nat → Option LocalRange} {virt : Nat} {ids : List Nat}
    (h : findRange locals virt ids=some (some hit)) :
    (hit.range.prot,hit.range.flags,hit.filePage)=hit.range.report virt := by
  induction ids with
  | nil => cases h
  | cons id ids ih =>
    rw [findRange] at h
    cases hl : locals id with
    | none =>
      rw [hl] at h
      cases h
    | some l =>
      rw [hl] at h
      dsimp only at h
      split at h
      · cases h
        rfl
      · exact ih h

variable {x top' v : Nat} {l : LocalRange}

theorem RangesOk.reports_unique (hs : RangesOk s pm) {v v' : Nat×Nat×Nat} (h : Reports s pm x v)
    (h' : Reports s pm x v') : v=v' := by
  obtain ⟨k,hk,l,hl,hx,rfl⟩ := h
  obtain ⟨k',hk',l',hl',hx',rfl⟩ := h'
  by_cases hkk : k=k'
  · subst hkk
    cases hl.symm.trans hl'
    rfl
  · exact absurd hx' (hs.apart k hk k' hk' hkk l l' hl hl' x hx)

theorem RangesOk.reported_some (hs : RangesOk s pm) {v : Nat×Nat×Nat} (h : Reports s pm x v) :
    reported s pm x=some (some v) := by
  have hcov : Covered s pm x := by
    obtain ⟨k,hk,l,hl,hx,-⟩ := h
    exact ⟨k,hk,l,hl,hx⟩
  obtain ⟨hit,hf⟩ := (hs.found_iff x).mpr hcov
  have hrep := findRange_report hf
  obtain ⟨hid,hl,hc,-⟩ := findRange_some hf
  have hok := hs.rangeOk hid hl
  have hown : Reports s pm x (hit.range.report x) :=
    ⟨hit.id,hid,hit.range,hl,(hok.covers_iff x).mp hc,rfl⟩
  rw [reported,hf,map_some,map_some,hrep,hs.reports_unique hown h]

theorem reported_congr (hs : RangesOk s pm) (hs' : RangesOk s' pm)
    (h : ∀ v, Reports s' pm x v ↔ Reports s pm x v) : reported s' pm x=reported s pm x := by
  by_cases hcov : Covered s pm x
  · obtain ⟨k,hk,l,hl,hx⟩ := hcov
    have hrep : Reports s pm x (l.report x) := ⟨k,hk,l,hl,hx,rfl⟩
    rw [hs.reported_some hrep,hs'.reported_some ((h _).mpr hrep)]
  · have hcov' : ¬Covered s' pm x := by
      rintro ⟨k,hk,l,hl,hx⟩
      obtain ⟨k₀,hk₀,l₀,hl₀,hx₀,-⟩ := (h _).mp ⟨k,hk,l,hl,hx,rfl⟩
      exact hcov ⟨k₀,hk₀,l₀,hl₀,hx₀⟩
    rw [reported,reported,(hs.absent_iff x).mpr hcov,(hs'.absent_iff x).mpr hcov']

theorem Trimmed.report_iff {l' : LocalRange} (h : Trimmed l l' e) (hok : RangeOk l)
    (hoff : l.offset < 2^64) (he : e%pageSize=0) (hle : l.base < e) (hx : x∈l.span)
    (hx' : x∈l'.span) (hrear : e ≤ x → e ≤ l'.base) :
    l'.report x=l.report x ↔ ¬(e ≤ x ∧ 2^64 ≤ l.offset+(e-l.base)) := by
  have hw := hok.wraps
  have hb := hok.base
  rw [LocalRange.span,Span.mem_mk] at hx hx'
  obtain ⟨hprot,hflags,⟨hbase,hoffset⟩ | ⟨hend,hbase,hoffset⟩⟩ := h
  · rw [LocalRange.report,LocalRange.report,hprot,hflags,hbase,hoffset]
    exact iff_of_true rfl (fun hc => by have := hrear hc.1; omega)
  · have hpages : l.base/pageSize ≤ x/pageSize ∧ e/pageSize ≤ x/pageSize ∧ x/pageSize < 2^64 := by
      simp only [pageSize]
      omega
    rw [LocalRange.report,LocalRange.report,hprot,hflags,hbase,hoffset,
      sub64_eq hpages.2.2 hpages.1,sub64_eq hpages.2.2 hpages.2.1,Prod.mk.injEq,Prod.mk.injEq,
      and_iff_right rfl,and_iff_right rfl]
    -- the offset loses 2^64 at most once, and file_page 2^52 with it
    simp only [add64,pageSize] at he hb hend hx hx' ⊢
    omega

theorem Round.reported_iff (h : Round s s' pm hit i e limit) (hs : RangesOk s pm)
    (hoff : hit.range.offset < 2^64) (hout : x < i ∨ e ≤ x) :
    reported s' pm x=reported s pm x ↔ ¬(x∈hit.range.span ∧ e ≤ x ∧
      2^64 ≤ hit.range.offset+(e-hit.range.base)) := by
  have hs' : RangesOk s' pm := h.cut.rangesOk hs h.listed h.cell
  have hmem := h.mem
  have hlt := h.lt
  have hstop := h.stop
  rw [LocalRange.span,Span.mem_mk] at hmem
  by_cases hx : x∈hit.range.span
  · rw [and_iff_right hx]
    have hcov : Covered s pm x := ⟨hit.id,h.listed,hit.range,h.cell,hx⟩
    obtain ⟨k,hk,l,hl,hxl⟩ := (h.covered_iff hs x).mpr ⟨hcov,hout⟩
    rw [hs.reported_some ⟨hit.id,h.listed,hit.range,h.cell,hx,rfl⟩,
      hs'.reported_some ⟨k,hk,l,hl,hxl,rfl⟩,Option.some_inj,Option.some_inj]
    obtain ⟨hold,hne,hl₀⟩ | ⟨hpiece,-,hin⟩ := h.cut.cases hk hl
    · exact absurd hx (hs.apart k hold hit.id h.listed hne l hit.range hl₀ h.cell x hxl)
    · -- the window is not in the piece
      have hnot : i∉l.span := fun hi => by have := (hin i hi).2; omega
      rw [LocalRange.span,Span.mem_mk] at hnot
      obtain ⟨hold,hl₀⟩ | htrim := h.trimmed k hk l hl
      · have hid := hpiece hold
        rw [hid,h.cell,Option.some_inj] at hl₀
        rw [← hl₀] at hnot
        exact absurd hmem hnot
      · have hxl' := hxl
        rw [LocalRange.span,Span.mem_mk] at hxl'
        refine htrim.report_iff h.ok hoff h.aligned (by omega) hx hxl (fun hex => ?_)
        obtain ⟨-,-,⟨hbase,-⟩ | ⟨-,hbase,-⟩⟩ := htrim <;> omega
  · refine iff_of_true (reported_congr hs hs' (fun v => ?_)) (fun hc => hx hc.1)
    obtain ⟨Piece,hc⟩ := h.carved
    constructor
    · rintro ⟨k,hk,l,hl,hxl,hv⟩
      obtain ⟨hold,hne,hl₀⟩ | ⟨-,-,hin⟩ := h.cut.cases hk hl
      · exact ⟨k,hold,l,hl₀,hxl,hv⟩
      · exact absurd (hin x hxl).1 hx
    · rintro ⟨k,hk,l,hl,hxl,hv⟩
      have hne : k≠hit.id := by
        rintro rfl
        cases hl.symm.trans h.cell
        exact hx hxl
      refine ⟨k,(hc.listed k).mpr (.inl ⟨hk,hne⟩),l,?_,hxl,hv⟩
      rw [h.cut.kept k hk hne]
      exact hl

/-- The page is behind the window in a range that munmap cuts at the end of the window, and the offset
of what is left wraps. A range of which one page is in the window is not cut if the cursor jumps over
that page. -/
def Wraps (s : MmapState M P) (pm addr limit x : Nat) : Prop :=
  addr < limit ∧ limit ≤ x ∧ ∃ k∈s.ranges pm, ∃ l, s.locals k=some l ∧ x∈l.span ∧ l.base < limit ∧
    ¬(l.base+pageSize=limit ∧ Skipped s pm addr (l.base/pageSize)) ∧
    2^64 ≤ l.offset+(limit-l.base)

def OffsetsFit (s : MmapState M P) (pm : Nat) : Prop :=
  ∀ k∈s.ranges pm, ∀ l, s.locals k=some l → l.offset < 2^64

/-- What munmap has done to the reports outside the window when its cursor is at page i. -/
def ReportsAt (s t : MmapState M P) (pm addr limit i : Nat) : Prop :=
  ∀ x, x < addr ∨ limit ≤ x → (reported t pm x=reported s pm x ↔
    (limit ≤ i → ¬Wraps s pm addr limit x))

section Reports

variable {t t' : MmapState M P}

variable (h : ReportsAt s t pm addr limit i) (hah : Ahead s t pm addr limit i) (hs : RangesOk s pm)
include h hah hs

theorem ReportsAt.skip (hlim : limit%pageSize=0) (hlt : i < limit) (hfree : ¬Covered t pm i) :
    ReportsAt s t pm addr limit (i+pageSize) := by
  intro x hx
  rw [h x hx]
  refine iff_of_true (fun hc => by omega) ?_
  rintro hle ⟨-,hlx,k,hk,l,hl,hxl,hbase,-,-⟩
  have hok := hs.rangeOk hk hl
  have hb := hok.base
  have hi := hah.aligned
  refine hfree (hah.cover i (.inr (.inr (Nat.le_refl i))) ⟨k,hk,l,hl,?_⟩)
  simp only [LocalRange.span,Span.mem_mk,pageSize] at *
  omega

theorem ReportsAt.round (hoff : OffsetsFit s pm) (hlim : limit%pageSize=0) (hlt : i < limit)
    (hmet : ¬Skipped s pm addr (i/pageSize)) (hr : Round t t' pm hit i e limit) :
    ReportsAt s t' pm addr limit (e+pageSize) := by
  intro x hx
  obtain ⟨hid,hcell⟩ := hah.original hr hlt
  have hstop := hr.stop
  have hie := hr.lt
  have hst := hah.started
  have hi := hah.aligned
  have hea := hr.aligned
  have hb := hr.ok.base
  have hmem := hr.mem
  rw [LocalRange.span,Span.mem_mk] at hmem
  obtain ⟨-,hend,-⟩ := hs.skips hid hcell hi hst hr.mem hmet
  have hbefore : reported t pm x=reported s pm x := (h x hx).mpr (fun hc => by omega)
  rw [← hbefore,hr.reported_iff hah.ok (hoff hit.id hid hit.range hcell) (by omega)]
  -- a range over the end of the window that begins before the end of this one is this one
  have hsame : ∀ k∈s.ranges pm, ∀ l, s.locals k=some l → x∈l.span → limit ≤ x → l.base < e →
      l=hit.range := by
    intro k hk l hl hxl hlx hbase
    by_cases hne : k=hit.id
    · rw [hne,hcell] at hl
      exact (Option.some_inj.mp hl).symm
    · refine absurd ?_ (hs.apart k hk hit.id hid hne l hit.range hl hcell (e-1) ?_)
      · rw [LocalRange.span,Span.mem_mk]
        omega
      · rw [LocalRange.span,Span.mem_mk] at hxl ⊢
        omega
  constructor
  · rintro hno hle ⟨-,hlx,k,hk,l,hl,hxl,hbase,hskip,hwrap⟩
    by_cases hbe : l.base < e
    · obtain rfl := hsame k hk l hl hxl hlx hbe
      have hxl' := hxl
      rw [LocalRange.span,Span.mem_mk] at hxl'
      refine hno ⟨hxl,by omega,?_⟩
      rw [show e=limit by omega]
      exact hwrap
    · -- the page behind the range is jumped over
      have hok := hs.rangeOk hk hl
      have hb' := hok.base
      refine hskip ⟨?_,?_⟩
      · simp only [pageSize] at *
        omega
      · rw [show l.base=hit.range.base+hit.range.length by simp only [pageSize] at *; omega]
        exact hend
  · rintro hno ⟨hxl,hex,hwrap⟩
    have hxl' := hxl
    rw [LocalRange.span,Span.mem_mk] at hxl'
    have hlimit : e=limit := by omega
    refine hno (by omega) ⟨by omega,by omega,hit.id,hid,hit.range,hcell,hxl,by omega,?_,?_⟩
    · rintro ⟨hone,hskip⟩
      rw [show hit.range.base=i by simp only [pageSize] at *; omega] at hskip
      exact hmet hskip
    · rw [← hlimit]
      exact hwrap

end Reports

section Returns

theorem snipStop_returns {stop n : Nat} (hi : i%pageSize=0) (hs : stop%pageSize=0)
    (hs64 : stop < 2^64) (his : i < stop) (hn : stop ≤ i+n*pageSize) :
    ∃ e, snipStop stop limit n i=some e := by
  induction n generalizing i with
  | zero => omega
  | succ n ih =>
    have hadd : add64 i pageSize=i+pageSize := by
      apply add64_eq
      simp only [pageSize] at hi hs ⊢
      omega
    rw [snipStop,hadd]
    by_cases hc : stop ≤ i+pageSize ∨ limit ≤ i+pageSize
    · exact ⟨_,if_pos hc⟩
    · rw [if_neg hc]
      rw [Nat.succ_mul] at hn
      exact ih (by rw [Nat.add_mod_right]; exact hi) (by omega) (by omega)

/-- The ranges in the window have a global range, and the pages that are given back with one can be
found: they have a shadow pagemap, and they end before the last page. -/
def Resident (s : MmapState M P) (pm addr limit : Nat) : Prop :=
  ∀ k∈s.ranges pm, ∀ l, s.locals k=some l → l.base < limit → addr < l.base+l.length →
    ∃ g, s.globals l.global=some g ∧ (addr ≤ l.base → l.base+l.length ≤ limit →
      g.locals.length=1 → l.flags &&& mapAnonymous≠0 →
      (∃ shadow, g.shadowPagemap.bind s.tops=some shadow) ∧ add64 g.base g.length+pageSize ≤ 2^64)

theorem dropRange_returns {id : Nat} {g : GlobalRange M} (hf : Forest A ⟨s.ram.mem,p⟩ T)
    (htops : ∀ pm t, s.tops pm=some t → ⟨t,3⟩∈T)
    (hfree : g.locals.length=1 → l.flags &&& mapAnonymous≠0 →
      (∃ shadow, g.shadowPagemap.bind s.tops=some shadow) ∧ add64 g.base g.length+pageSize ≤ 2^64) :
    dropRange A s pm id l g i e≠none := by
  unfold dropRange
  dsimp only
  split
  · rename_i hone
    rw [Ne,Option.map_eq_none_iff]
    split
    · rename_i hanon
      obtain ⟨⟨shadow,hsh⟩,hfit⟩ := hfree hone hanon
      obtain ⟨sh,-,htop⟩ := Option.bind_eq_some_iff.mp hsh
      rw [hsh,bind_some]
      refine freeShadow_returns hf (htops sh shadow htop) hfit (by rw [rounds]; omega) ?_
      rw [rounds]
      simp only [pageSize] at hfit ⊢
      omega
    · exact some_ne_none _
  · exact some_ne_none _

theorem snip_returns {g : GlobalRange M} (hf : Forest A ⟨s.ram.mem,p⟩ T)
    (htops : ∀ pm t, s.tops pm=some t → ⟨t,3⟩∈T) (ht : s.tops pm=some top)
    (hg : s.globals hit.range.global=some g) (hok : RangeOk hit.range) (hi : i%pageSize=0)
    (he : e%pageSize=0) (hbase : hit.range.base ≤ i) (hie : i < e)
    (hend : e ≤ hit.range.base+hit.range.length)
    (hfree : hit.range.base=i → e=hit.range.base+hit.range.length → g.locals.length=1 →
      hit.range.flags &&& mapAnonymous≠0 → (∃ shadow, g.shadowPagemap.bind s.tops=some shadow) ∧
        add64 g.base g.length+pageSize ≤ 2^64) : snip A s pm hit i e≠none := by
  have hw := hok.wraps
  have hei : sub64 e i=e-i := sub64_eq (by omega) (by omega)
  obtain ⟨r,hr,-,hu⟩ := unmapPages_unmaps (r := s.ram) (n := rounds) hf (htops pm top ht) hi he
    (by omega) (Nat.le_of_lt hie) (by rw [rounds]; simp only [pageSize]; omega)
  rw [snip,hg,bind_some]
  dsimp only
  rw [ht,bind_some]
  by_cases hsplit : hit.range.base < i ∧ e < hit.range.base+hit.range.length
  · rw [splitRange_inside hok hsplit.1 hie hsplit.2]
    dsimp only
    rw [hr,bind_some,hei,if_neg (by omega)]
    exact some_ne_none _
  · rw [splitRange,if_neg (by rw [hok.stop_eq]; exact hsplit)]
    dsimp only
    rw [hr,bind_some,hei]
    split
    · exact dropRange_returns hu.trees htops (hfree (by omega) (by omega))
    · exact some_ne_none _

/-- The loop of munmap ends: it takes at least one page a round. -/
theorem munmapLoop_returns {t : MmapState M P} (hs : RangesOk s pm) (hlim : limit%pageSize=0)
    (hl64 : limit < 2^64) (hcur : CursorFits s pm limit)
    (htops : ∀ pm t, s.tops pm=some t → ⟨t,3⟩∈T) (ht : s.tops pm=some top)
    (hback : Resident s pm addr limit) {n : Nat} (hah : Ahead s t pm addr limit i)
    (hsw : Swept A p T s t pm top addr limit i) (hpos : 0 < n)
    (hn : limit+pageSize ≤ i+n*pageSize) : munmapLoop A pm limit n i t≠none := by
  induction n generalizing i t with
  | zero => omega
  | succ n ih =>
    rw [munmapLoop]
    by_cases hlt : i < limit
    · rw [Nat.succ_mul] at hn
      have hi := hah.aligned
      have hnext : i+pageSize ≤ limit := by
        simp only [pageSize] at hi hlim ⊢
        omega
      have hpos' : 0 < n := Nat.pos_of_ne_zero (fun hz => by subst hz; omega)
      obtain ⟨found,hf⟩ := findRange_total (fun k hk => (hah.ok.cell k hk).imp fun _ h => h.1) i
      rw [if_pos hlt,addr2range,hf,bind_some]
      cases found with
      | none =>
        dsimp only
        rw [add64_eq (by omega)]
        exact ih hah.skip (hsw.skip hs hah ((hah.ok.absent_iff i).mp hf)) hpos' (by omega)
      | some hit =>
        obtain ⟨hid,hl,hcov,-⟩ := findRange_some hf
        have hok := hah.ok.rangeOk hid hl
        have hmem := (hok.covers_iff i).mp hcov
        rw [LocalRange.span,Span.mem_mk] at hmem
        have hw := hok.wraps
        have hb := hok.base
        have hlen := hok.length
        have hst := hah.started
        obtain ⟨e,he⟩ : ∃ e, snipStop hit.range.stop limit rounds i=some e := snipStop_returns hi
          (by rw [hok.stop_eq,Nat.add_mod,hb,hlen]; rfl) (by rw [hok.stop_eq]; exact hw)
          (by rw [hok.stop_eq]; omega) (by rw [hok.stop_eq,rounds]; simp only [pageSize]; omega)
        obtain ⟨hmin,hea,-⟩ := snipStop_hit hah.ok hf hi hlim hlt he
        rw [hok.stop_eq] at hmin
        obtain ⟨hid₀,hcell⟩ := hah.whole hit.id hid hit.range hl ⟨i,hmem,Nat.le_refl _,hlt⟩
        obtain ⟨g,hg,hfree⟩ := hback hit.id hid₀ hit.range hcell (by omega) (by omega)
        have hret : snip A t pm hit i e≠none := snip_returns hsw.unmaps.trees
          (by rw [hsw.tops]; exact htops) (by rw [hsw.tops]; exact ht)
          (by rw [hsw.globals]; exact hg) hok hi hea hmem.1 (by omega) (by omega)
          (fun hbase hend => by rw [hsw.tops]; exact hfree (by omega) (by omega))
        obtain ⟨⟨ok,t',evs⟩,hsnip⟩ := Option.ne_none_iff_exists'.mp hret
        obtain ⟨rfl,hr,hpages⟩ := snip_round hah.ok hf hi hlim hlt he hsnip
        have hfit := hcur hit.id hid₀ hit.range hcell
        have hrest := ih (hah.round hr) (hsw.round hs hah hlt hl64 hr hpages
          (snip_munmapped hsnip).2 htops ht) hpos' (by omega)
        dsimp only
        rw [he,bind_some,hsnip,bind_some,if_neg (by simp),add64_eq (by omega),Ne,
          Option.map_eq_none_iff]
        exact hrest
    · rw [if_neg hlt]
      exact some_ne_none _

end Returns

def Canonical (x : Nat) : Prop := x < 2^47 ∨ (2^64-2^47 ≤ x ∧ x < 2^64)

/-- A window in the lower half, where the pages that are given back are in the lower half of other
pagemaps. -/
def LowWindow (s : MmapState M P) (pm top addr limit : Nat) : Prop :=
  limit ≤ 2^47 ∧ ∀ k∈s.ranges pm, ∀ l, s.locals k=some l → addr ≤ l.base → l.base+l.length ≤ limit →
    ∀ g, s.globals l.global=some g → ∀ shadow, Frees s l g shadow →
      shadow≠top ∧ add64 g.base g.length ≤ 2^47

theorem Takes.other_entry (h : Takes s pm top addr limit limit top' v)
    (hlow : LowWindow s pm top addr limit) (ha : addr%pageSize=0) (hlim : limit%pageSize=0)
    (hx : x < addr ∨ limit ≤ x) (hc : Canonical x) : ¬SameEntry top' (word v) top (word x) := by
  intro hsame
  have hv : v < 2^47 ∧ (top'=top → addr ≤ v ∧ v < limit) := by
    obtain ⟨-,hav,-,hvl,-⟩ | ⟨k,hk,l,hl,hab,-,hle,-,g,hg,hfrees,hvis⟩ := h
    · exact ⟨hvl.trans_le hlow.1,fun _ => ⟨hav,hvl⟩⟩
    · obtain ⟨hne,hend⟩ := hlow.2 k hk l hl hab hle g hg top' hfrees
      exact ⟨hvis.lt.trans_le hend,fun heq => absurd heq hne⟩
  obtain rfl : top'=top := by
    obtain heq | hup := hsame.2
    · exact heq
    · exact absurd (levelIndex_word hv.1) (by omega)
  have hwin := hv.2 rfl
  have hkey := hsame.1
  rw [pageKey_word hv.1] at hkey
  simp only [pageKey,word,BitVec.toNat_ofNat,pageSize,Canonical] at *
  omega

theorem takes_limit {j : Nat} (hs : RangesOk s pm) (hj : limit ≤ j) :
    Takes s pm top addr limit limit top' v ↔ Takes s pm top addr limit j top' v := by
  refine or_congr (and_congr_right (fun _ => and_congr_right (fun _ => ?_))) ?_
  · exact ⟨fun h => ⟨by omega,h.2⟩,fun h => ⟨h.2.1,h.2⟩⟩
  · refine exists_congr (fun k => and_congr_right (fun hk => exists_congr (fun l =>
      and_congr_right (fun hl => and_congr_right (fun _ => ?_)))))
    have hok := hs.rangeOk hk hl
    have hpos := hok.pos
    exact ⟨fun h => ⟨by omega,h.2⟩,fun h => ⟨by omega,h.2⟩⟩

theorem not_takes_empty : ¬Takes s pm top addr addr addr top' v := by
  rintro (⟨-,hav,hv,-⟩ | ⟨k,hk,l,hl,hab,hlb,-⟩) <;> omega

/-- munmap returns if the ranges in the window are backed. Of a page outside the window the report
stays as it is exactly if no new offset wraps, and the translation exactly if there was none or its
entry is not one that is taken; for a canonical address and a window in the lower half it never is. -/
theorem munmap_frame (A : PageAllocator M P) (s : MmapState M P) (T : List Table)
    (hf : Forest A s.ram T) (htops : ∀ pm t, s.tops pm=some t → ⟨t,3⟩∈T) (pm top : Nat)
    (hs : RangesOk s pm) (hoff : OffsetsFit s pm) (ht : s.tops pm=some top) (addr length : Nat)
    (ha : addr%pageSize=0) (hw : addr+length+(pageSize-1) < 2^64)
    (hcur : CursorFits s pm (addr+alignUp length pageSize)) :
    (Resident s pm addr (addr+alignUp length pageSize) → (munmap A s pm addr length).isSome) ∧
    ∀ ok s' evs, munmap A s pm addr length=some (ok,s',evs) → RangesOk s' pm ∧
      ∀ x, x < addr ∨ addr+alignUp length pageSize ≤ x →
        (reported s' pm x=reported s pm x ↔ ¬Wraps s pm addr (addr+alignUp length pageSize) x) ∧
        (vmmVirt2phys A s'.ram top (word x)=vmmVirt2phys A s.ram top (word x) ↔
          ¬(vmmVirt2phys A s.ram top (word x)≠some invalidPhys ∧ ∃ top' v,
            Takes s pm top addr (addr+alignUp length pageSize) (addr+alignUp length pageSize) top' v ∧
              SameEntry top' (word v) top (word x))) ∧
        (Canonical x → LowWindow s pm top addr (addr+alignUp length pageSize) → ∀ top' v,
          Takes s pm top addr (addr+alignUp length pageSize) (addr+alignUp length pageSize) top' v →
            ¬SameEntry top' (word v) top (word x)) := by
  obtain ⟨hfits,hlim⟩ := window_fits ha hw
  by_cases hz : length=0
  · subst hz
    have hempty : alignUp 0 pageSize=0 := rfl
    rw [hempty,Nat.add_zero,munmap,if_pos rfl]
    refine ⟨fun _ => rfl,?_⟩
    rintro ok s' evs h
    cases h
    refine ⟨hs,fun x hx => ⟨iff_of_true rfl (fun hwrap => Nat.lt_irrefl _ hwrap.1),
      iff_of_true rfl ?_,fun _ _ top' v hv => absurd hv not_takes_empty⟩⟩
    rintro ⟨-,top',v,hv,-⟩
    exact not_takes_empty hv
  · rw [munmap,if_neg hz,add64_eq hfits]
    generalize addr+alignUp length pageSize=limit at *
    refine ⟨fun hback => Option.isSome_iff_ne_none.mpr ?_,fun ok s' evs h => ?_⟩
    · refine munmapLoop_returns (p := s.ram.pmm) hs hlim hfits hcur htops ht hback (.refl hs ha)
        (.refl ha hf) (by rw [rounds]; omega) ?_
      rw [rounds]
      simp only [pageSize]
      omega
    · obtain ⟨-,j,hj,hah,hsw,hrep⟩ := munmapLoop_rounds hs ha hlim hfits hcur
        (fun i t => Swept A s.ram.pmm T s t pm top addr limit i ∧ ReportsAt s t pm addr limit i)
        (fun i t hah hlt hfree hsw => ⟨hsw.1.skip hs hah hfree,hsw.2.skip hah hs hlim hlt hfree⟩)
        (fun i t hit e t' hah hlt hr hpages hmun hsw =>
          ⟨hsw.1.round hs hah hlt hfits hr hpages hmun htops ht,
            hsw.2.round hah hs hoff hlim hlt (hsw.1.met hlt) hr⟩)
        ⟨.refl ha hf,fun x hx => iff_of_true rfl (fun hle hwrap => absurd hwrap.1 (by omega))⟩ h
      have htakes : ∀ top' v, Takes s pm top addr limit limit top' v ↔
          Takes s pm top addr limit j top' v := fun _ _ => takes_limit hs hj
      refine ⟨hah.ok,fun x hx => ⟨?_,?_,fun hc hlow top' v hv => hv.other_entry hlow ha hlim hx hc⟩⟩
      · rw [hrep x hx]
        exact ⟨fun hno => hno hj,fun hno _ => hno⟩
      · have hphys := (hsw.unmaps.congr htakes).phys_iff hf (htops pm top ht) (word x)
        rw [vmmVirt2phys_pmm s'.ram s.ram.pmm]
        exact hphys

def oneFile (offset : Nat) : MmapState bumpMachine Nat :=
  oneRange ⟨0,0,0x80000000000,2*pageSize,offset,protWrite,0⟩

theorem oneFile_local {offset k : Nat} (hk : k∈(oneFile offset).ranges 0)
    (hl : (oneFile offset).locals k=some l) :
    k=0 ∧ l=⟨0,0,0x80000000000,2*pageSize,offset,protWrite,0⟩ := by
  obtain rfl : k=0 := List.mem_singleton.mp hk
  exact ⟨rfl,(Option.some.inj hl).symm⟩

theorem oneFile_ok (offset : Nat) : RangesOk (oneFile offset) 0 where
  known := (by decide : 0 < 2)
  nodup := List.nodup_singleton 0
  bound k hk := by
    obtain rfl : k=0 := List.mem_singleton.mp hk
    exact Nat.one_pos
  cell k hk := by
    obtain rfl : k=0 := List.mem_singleton.mp hk
    exact ⟨_,rfl,⟨(by decide : 0x80000000000%pageSize=0),(by decide : 2*pageSize%pageSize=0),
      (by decide : 0 < 2*pageSize),(by decide : 0x80000000000+2*pageSize < 2^64)⟩⟩
  apart k hk k' hk' hne :=
    absurd ((List.mem_singleton.mp hk).trans (List.mem_singleton.mp hk').symm) hne

theorem munmap_frame_front : ∃ ok s' evs,
    munmap (bumpPages bumpMachine) (oneFile 0) 0 0x80000000000 pageSize=some (ok,s',evs) ∧
      RangesOk s' 0 ∧ ∀ x, x < 0x80000000000 ∨ 0x80000000000+alignUp pageSize pageSize ≤ x →
        reported s' 0 x=reported (oneFile 0) 0 x ∧ (Canonical x →
          vmmVirt2phys (bumpPages bumpMachine) s'.ram processTop (word x)=
            vmmVirt2phys (bumpPages bumpMachine) (oneFile 0).ram processTop (word x)) := by
  have hlimit : 0x80000000000+alignUp pageSize pageSize=0x80000001000 := by decide
  have h := munmap_frame (bumpPages bumpMachine) (oneFile 0) processTables processForest
    (oneRange_rooted _).top 0 processTop (oneFile_ok 0)
    (fun k hk l hl => by rw [(oneFile_local hk hl).2]; exact Nat.two_pow_pos 64) rfl 0x80000000000
    pageSize (by decide) (by decide) (.of_limit (by decide))
  rw [hlimit] at h ⊢
  -- the range reaches over the end of the window, so that no range goes whole
  have hwhole : ∀ k∈(oneFile 0).ranges 0, ∀ l, (oneFile 0).locals k=some l →
      ¬l.base+l.length ≤ 0x80000001000 := by
    intro k hk l hl
    rw [(oneFile_local hk hl).2]
    exact (by decide : ¬0x80000000000+2*pageSize ≤ 0x80000001000)
  have hback : Resident (oneFile 0) 0 0x80000000000 0x80000001000 := by
    intro k hk l hl _ _
    obtain ⟨g,hg⟩ : ∃ g, (oneFile 0).globals l.global=some g := by
      rw [(oneFile_local hk hl).2]
      exact ⟨_,rfl⟩
    exact ⟨g,hg,fun _ hend => absurd hend (hwhole k hk l hl)⟩
  obtain ⟨⟨ok,s',evs⟩,hrun⟩ := Option.isSome_iff_exists.mp (h.1 hback)
  obtain ⟨hok,hframe⟩ := h.2 ok s' evs hrun
  refine ⟨ok,s',evs,hrun,hok,fun x hx => ⟨(hframe x hx).1.mpr ?_,fun hc => (hframe x hx).2.1.mpr ?_⟩⟩
  · rintro ⟨-,-,k,hk,l,hl,-,-,-,hwrap⟩
    rw [(oneFile_local hk hl).2] at hwrap
    exact absurd hwrap (by decide)
  · rintro ⟨-,top',v,hv,hsame⟩
    exact (hframe x hx).2.2 hc ⟨by decide,fun k hk l hl _ hend => absurd hend (hwhole k hk l hl)⟩
      top' v hv hsame

/-- The second page is page 2^52 of the file; after munmap of the first page it is page
0, because the new offset wraps. -/
theorem munmap_moves_file_page : RangesOk (oneFile (2^64-pageSize)) 0 ∧ ∃ s' evs,
    munmap (bumpPages bumpMachine) (oneFile (2^64-pageSize)) 0 0x80000000000 pageSize=
      some (true,s',evs) ∧
    reported (oneFile (2^64-pageSize)) 0 0x80000001000=some (some (protWrite,0,2^52)) ∧
    reported s' 0 0x80000001000=some (some (protWrite,0,0)) := by
  have hrun : (munmap (bumpPages bumpMachine) (oneFile (2^64-pageSize)) 0 0x80000000000 pageSize).map
      (fun x => (x.1,reported x.2.1 0 0x80000001000))=
      some (true,some (some (protWrite,0,0))) := by
    decide +kernel
  obtain ⟨⟨ok,s',evs⟩,h,hv⟩ := Option.map_eq_some_iff.mp hrun
  simp only [Prod.mk.injEq] at hv
  obtain ⟨rfl,hafter⟩ := hv
  exact ⟨oneFile_ok _,s',evs,h,by decide +kernel,hafter⟩

end X64OS.Memory
