import X64OS.Memory.MmapPages

namespace X64OS.Memory

open Framework Function
open Option (map_eq_some_iff bind_eq_some_iff)

variable {M : Machine} {P : Type} {A : PageAllocator M P}
variable {r' : Ram P} {T T' : List Table} {s s' : MmapState M P} {N : Nat}

/-- Whole pages of the lower half, above the two pages every pagemap maps to
themselves. -/
def UserWindow (base length : Nat) : Prop :=
  base%pageSize=0 ∧ 0x37fe000 ≤ base ∧ base+length ≤ 2^47

/-- An anonymous global range has page p for the page at v in its shadow pagemap. -/
structure Held (s : MmapState M P) (gid v p : Nat) : Prop where
  intro ::
  owner : ∃ k l, s.locals k=some l ∧ l.global=gid ∧ l.flags &&& mapAnonymous≠0
  page : ∃ g sh top, s.globals gid=some g ∧ v∈(⟨g.base,g.length⟩ : Span) ∧ v%pageSize=0 ∧
    g.shadowPagemap=some sh ∧ s.tops sh=some top ∧ pageAt M s.ram.mem top v=some p

/-- The pagemap objects below N belong to processes, the others are shadow
pagemaps, and no page is held twice, is free or holds a table. -/
structure Paged (A : PageAllocator M P) (N : Nat) (s : MmapState M P) (T : List Table) : Prop
    extends Rooted A s T where
  processes : N ≤ s.nextPagemap
  threads : ∀ task, s.pgm task < N
  known : ∀ pm t, s.tops pm=some t → pm < s.nextPagemap
  cell : ∀ k l, s.locals k=some l → l.pagemap < N ∧ l.global < s.nextGlobal
  object : ∀ gid g, s.globals gid=some g → gid < s.nextGlobal ∧ UserWindow g.base g.length ∧
    ∃ sh, g.shadowPagemap=some sh ∧ N ≤ sh ∧ sh < s.nextPagemap
  shadow : ∀ gid g gid' g', s.globals gid=some g → s.globals gid'=some g' →
    g.shadowPagemap=g'.shadowPagemap → gid=gid'
  flags : ∀ k l k' l', s.locals k=some l → s.locals k'=some l' → l.global=l'.global →
    l.flags=l'.flags
  used : ∀ gid v p, Held s gid v p → A.inUse s.ram.pmm p ∧ 0 < p ∧ ∀ t∈T, t.page M≠p
  own : ∀ gid v gid' v' p, Held s gid v p → Held s gid' v' p → gid=gid' ∧ v=v'

/-- A page that was free and is now in use, not for a table. -/
structure Acquired (A : PageAllocator M P) (r r' : Ram P) (T' : List Table) (p : Nat) : Prop where
  free : ¬A.inUse r.pmm p
  used : A.inUse r'.pmm p
  pos : 0 < p
  table : ∀ t∈T', t.page M≠p

/-- Memory may change as long as the pages held are those from before, and for
one address at most a new one. -/
theorem Paged.evolve (hp : Paged A N s T) (he : Evolved A s.ram T r' T') (gid₀ v₀ : Nat)
    (hheld : ∀ gid v p, Held (s.setRam r') gid v p → Held s gid v p ∨
      (gid=gid₀ ∧ v=v₀ ∧ Acquired A s.ram r' T' p)) : Paged A N (s.setRam r') T' := by
  refine ⟨hp.toRooted.evolve he,hp.processes,hp.threads,hp.known,hp.cell,hp.object,hp.shadow,hp.flags,
    ?_,?_⟩
  · intro gid v p hh
    obtain hold | ⟨-,-,hnew⟩ := hheld gid v p hh
    · obtain ⟨hu,hpos,ht⟩ := hp.used gid v p hold
      refine ⟨he.used p hu,hpos,?_⟩
      intro t htm heq
      by_cases hT : t∈T
      · exact ht t hT heq
      · have hfr := he.fresh t htm hT
        rw [← Table.page,heq] at hfr
        exact hfr hu
    · exact ⟨hnew.used,hnew.pos,hnew.table⟩
  · intro gid v gid' v' p h1 h2
    obtain hold | ⟨rfl,rfl,hnew⟩ := hheld gid v p h1
    all_goals obtain hold' | ⟨rfl,rfl,hnew'⟩ := hheld gid' v' p h2
    · exact hp.own gid v gid' v' p hold hold'
    · exact absurd (hp.used gid v p hold).1 hnew'.free
    · exact absurd (hp.used gid' v' p hold').1 hnew.free
    · exact ⟨rfl,rfl⟩

variable {gid p v sh k n phys top pm j e i length : Nat} {g : GlobalRange M} {l : LocalRange}
  {locals : Nat → Option LocalRange} {r : Ram P} {hit : RangeHit} {ok : Bool}
  {evs : List (FreeEvent M P)}

theorem Held.lower (hp : Paged A N s T) (h : Held s gid v p) : 0x37fe000 ≤ v ∧ v < 2^47 := by
  obtain ⟨g,sh,top,hg,hv,-⟩ := h.page
  have hw := (hp.object gid g hg).2.1
  rw [Span.mem_mk] at hv
  rw [UserWindow] at hw
  omega

theorem Paged.shadow_bounds (hp : Paged A N s T) (hg : s.globals gid=some g)
    (hsh : g.shadowPagemap=some sh) : N ≤ sh ∧ sh < s.nextPagemap := by
  obtain ⟨-,-,sh',hsh',hN,hlt⟩ := hp.object gid g hg
  cases hsh.symm.trans hsh'
  exact ⟨hN,hlt⟩

theorem Held.of_shadow (hp : Paged A N s T)
    (hview : ∀ sh top, N ≤ sh → s.tops sh=some top → ∀ v < 2^47, ∀ p,
      pageAt M r'.mem top v=some p → pageAt M s.ram.mem top v=some p)
    (h : Held (s.setRam r') gid v p) : Held s gid v p := by
  obtain ⟨g,sh,top,hg,hv,hva,hsh,ht,hpage⟩ := h.page
  refine ⟨h.owner,g,sh,top,hg,hv,hva,hsh,ht,
    hview sh top (hp.shadow_bounds hg hsh).1 ht v ?_ p hpage⟩
  have hw := (hp.object gid g hg).2.1
  rw [Span.mem_mk] at hv
  rw [UserWindow] at hw
  omega

theorem Held.setRam (h : Held s gid v p)
    (hview : ∀ g sh top, s.globals gid=some g → g.shadowPagemap=some sh → s.tops sh=some top →
      pageAt M s.ram.mem top v=some p → pageAt M r'.mem top v=some p) :
    Held (s.setRam r') gid v p := by
  obtain ⟨g,sh,top,hg,hv,hva,hsh,ht,hpage⟩ := h.page
  exact ⟨h.owner,g,sh,top,hg,hv,hva,hsh,ht,hview g sh top hg hsh ht hpage⟩

def Continues (s : MmapState M P) (locals : Nat → Option LocalRange) : Prop :=
  ∀ k l, locals k=some l → ∃ k₀ l₀, s.locals k₀=some l₀ ∧ l.pagemap=l₀.pagemap ∧
    l.global=l₀.global ∧ l.flags=l₀.flags

theorem Continues.refl (s : MmapState M P) : Continues s s.locals :=
  fun k l hl => ⟨k,l,hl,rfl,rfl,rfl⟩

theorem Continues.update {k₀ : Nat} {l₀ : LocalRange} (h : Continues s locals)
    (hl₀ : s.locals k₀=some l₀) (hpm : l.pagemap=l₀.pagemap) (hg : l.global=l₀.global)
    (hf : l.flags=l₀.flags) : Continues s (update locals k (some l)) := by
  intro k' l' hl'
  by_cases hk : k'=k
  · rw [hk,update_self] at hl'
    cases hl'
    exact ⟨k₀,l₀,hl₀,hpm,hg,hf⟩
  · rw [update_of_ne hk] at hl'
    exact h k' l' hl'

theorem Continues.remove (h : Continues s locals) :
    Continues s (Function.update locals k none) := by
  intro k' l' hl'
  by_cases hk : k'=k
  · rw [hk,update_self] at hl'
    cases hl'
  · rw [update_of_ne hk] at hl'
    exact h k' l' hl'

/-- The list of ranges and the ranges themselves may change as long as every
range continues one from before. -/
theorem Paged.recell (hp : Paged A N s T) {ranges : Nat → List Nat} (hcell : Continues s locals) :
    Paged A N { s with ranges := ranges, locals := locals, nextLocal := n } T := by
  have hheld : ∀ gid v p, Held { s with ranges := ranges, locals := locals, nextLocal := n } gid v p →
      Held s gid v p := by
    intro gid v p h
    obtain ⟨k,l,hl,hgid,hflags⟩ := h.owner
    obtain ⟨k₀,l₀,hl₀,-,hglobal,hfl⟩ := hcell k l hl
    exact ⟨⟨k₀,l₀,hl₀,hglobal ▸ hgid,hfl ▸ hflags⟩,h.page⟩
  refine ⟨⟨hp.forest,hp.full,hp.krnl,hp.top,hp.inj⟩,hp.processes,hp.threads,hp.known,?_,hp.object,
    hp.shadow,?_,fun gid v p h => hp.used gid v p (hheld gid v p h),
    fun gid v gid' v' p h h' => hp.own gid v gid' v' p (hheld _ _ _ h) (hheld _ _ _ h')⟩
  · intro k l hl
    obtain ⟨k₀,l₀,hl₀,hpm,hglobal,-⟩ := hcell k l hl
    rw [hpm,hglobal]
    exact hp.cell k₀ l₀ hl₀
  · intro k l k' l' hl hl' heq
    obtain ⟨k₀,l₀,hl₀,-,hglobal,hfl⟩ := hcell k l hl
    obtain ⟨k₁,l₁,hl₁,-,hglobal',hfl'⟩ := hcell k' l' hl'
    rw [hfl,hfl']
    exact hp.flags k₀ l₀ k₁ l₁ hl₀ hl₁ (by rw [← hglobal,← hglobal',heq])

theorem Granted.view {r' : Ram P} {pages : Nat} (hf : Forest A r T) (hg : Granted A r r' phys pages)
    (ht : ⟨top,3⟩∈T) (w : BitVec 64) : pteFrom M r'.mem 3 top w=pteFrom M r.mem 3 top w :=
  hf.view_congr (hg.entries hf) le_rfl ht rfl w

/-- Getting the page for a fault changes no translation. -/
theorem faultPage_evolved (hr : Rooted A s T) {page : Nat}
    (h : faultPage A s hit g=some (page,r')) :
    Evolved A s.ram T r' T ∧ page%pageSize=0 ∧ page < 2^52 ∧
      ∀ pm top, s.tops pm=some top → ∀ w, pteFrom M r'.mem 3 top w=pteFrom M s.ram.mem 3 top w := by
  obtain ⟨rfl,-,ha,hlt⟩ | hg := faultPage_spec hr.forest.valid h
  · exact ⟨.refl hr.forest hr.full,ha,hlt,fun _ _ _ _ => rfl⟩
  · refine ⟨hg.evolved hr.forest hr.full,hg.aligned,?_,?_⟩
    · have hb := hg.bound
      have hM := M.phys_le
      simp only [pageSize] at hb
      omega
    · exact fun pm top ht w => hg.view hr.forest (hr.top pm top ht) w

theorem Granted.acquired {r₁ : Ram P} (hf : Forest A r T) (hg : Granted A r r₁ phys 1)
    (he : Evolved A r₁ T r' T') : Acquired A r r' T' (phys/pageSize) := by
  have hmem : phys/pageSize∈(⟨phys/pageSize,1⟩ : Span) := by
    rw [Span.mem_mk]
    omega
  have hin : A.inUse r₁.pmm (phys/pageSize) := (hg.used _).mpr (.inl hmem)
  refine ⟨hg.fresh _ hmem,he.used _ hin,?_,?_⟩
  · have hpos := hg.pos
    have hal := hg.aligned
    simp only [pageSize] at hal ⊢
    omega
  · intro t ht heq
    by_cases hT : t∈T
    · have hu := hf.used t hT t.base (by rw [Table.span,Span.mem_mk]; simp only [pageSize]; omega)
      rw [← Table.page,heq] at hu
      exact hg.fresh _ hmem hu
    · have hfr := he.fresh t ht hT
      rw [← Table.page,heq] at hfr
      exact hfr hin

theorem Paged.not_serves (hp : Paged A N s T) {ids : List Nat} {virt : Nat} (hN : N ≤ pm) :
    ¬Serves s ids virt pm := by
  rintro ⟨id,-,l,hcell,-,hpm⟩
  have hlt := (hp.cell id l hcell).1
  omega

structure Faulted (A : PageAllocator M P) (N : Nat) (s s' : MmapState M P) (g : GlobalRange M)
    (sh virt page prot : Nat) : Prop where
  ram : s'=s.setRam s'.ram
  aligned : page%pageSize=0
  bound : page < 2^52
  paged : ∃ T', Paged A N s' T'
  used : ∀ i, A.inUse s.ram.pmm i → A.inUse s'.ram.pmm i
  held : ∀ gid v p, Held s' gid v p → Held s gid v p ∨ ¬A.inUse s.ram.pmm p
  mapped : ∀ pm top, s.tops pm=some top → ∀ v < 2^47, pageKey (word virt)=v/pageSize →
    (pm=sh ∨ Serves s g.locals virt pm) →
    pteFrom M s'.ram.mem 3 top (word v)=mapEntry (word page) (ptFlags prot)
  same : ∀ pm top, s.tops pm=some top → ∀ v < 2^47,
    ¬(pageKey (word virt)=v/pageSize ∧ (pm=sh ∨ Serves s g.locals virt pm)) →
    pteFrom M s'.ram.mem 3 top (word v)=pteFrom M s.ram.mem 3 top (word v)

theorem Paged.fault (hp : Paged A N s T) {r₁ : Ram P} {virt page : Nat}
    (hl : s.locals k=some hit.range) (hg : s.globals hit.range.global=some g)
    (hsh : g.shadowPagemap=some sh) (hf : faultPage A s hit g=some (page,r₁))
    (h : mmapPageInRange A (s.setRam r₁) g virt page hit.range.prot=some (ok,s')) :
    ok=true ∧ Faulted A N s s' g sh virt page hit.range.prot := by
  obtain ⟨e₁,hal,hlt,hsame⟩ := faultPage_evolved hp.toRooted hf
  obtain ⟨hok,hs',T',e₂,hview⟩ := mmapPageInRange_spec (hp.toRooted.evolve e₁) hsh h
  obtain ⟨r',rfl⟩ : ∃ r', s'=s.setRam r' := ⟨_,hs'⟩
  have hold : ∀ pm top, s.tops pm=some top → ∀ v < 2^47,
      ¬(pageKey (word virt)=v/pageSize ∧ (pm=sh ∨ Serves s g.locals virt pm)) →
      pteFrom M r'.mem 3 top (word v)=pteFrom M s.ram.mem 3 top (word v) :=
    fun pm top ht v hv hn => ((hview pm top ht v hv).2 hn).trans (hsame pm top ht (word v))
  have hheld : ∀ gid v p, Held (s.setRam r') gid v p → Held s gid v p ∨
      (gid=hit.range.global ∧ v=pageKey (word virt)*pageSize ∧ Acquired A s.ram r' T' p) := ?_
  · refine ⟨hok,rfl,hal,hlt,⟨T',hp.evolve (e₁.trans e₂) _ _ hheld⟩,(e₁.trans e₂).used,?_,
      fun pm top ht v hv => (hview pm top ht v hv).1,hold⟩
    exact fun gid v p hh => (hheld gid v p hh).imp id (fun h => h.2.2.free)
  intro gid v p hh
  obtain ⟨g',sh',top,hg',hv,hva,hsh',ht,hpage⟩ := hh.page
  obtain ⟨-,hw,sh'',hsh'',hN,-⟩ := hp.object gid g' hg'
  have heq : sh''=sh' := Option.some.inj (hsh''.symm.trans hsh')
  subst heq
  have hv47 : v < 2^47 := by
    rw [Span.mem_mk] at hv
    rw [UserWindow] at hw
    omega
  by_cases hc : pageKey (word virt)=v/pageSize ∧ sh''=sh
  · right
    obtain ⟨hkey,rfl⟩ := hc
    have hgid : gid=hit.range.global := hp.shadow gid g' _ g hg' hg (hsh'.trans hsh.symm)
    obtain ⟨k',l',hl',hglobal,hflags⟩ := hh.owner
    rw [hp.flags k' l' k hit.range hl' hl (hglobal.trans hgid)] at hflags
    have hp' : pageAt M r'.mem top v=some (page/pageSize) :=
      pageAt_mapEntry hal hlt ((hview sh'' top ht v hv47).1 hkey (.inl rfl))
    refine ⟨hgid,?_,?_⟩
    · rw [hkey]
      simp only [pageSize] at hva ⊢
      omega
    · rw [show p=page/pageSize from Option.some.inj (hpage.symm.trans hp')]
      obtain ⟨-,hno,-⟩ | hgr := faultPage_spec hp.forest.valid hf
      · exact absurd hno hflags
      · exact hgr.acquired hp.forest e₂
  · left
    refine ⟨hh.owner,g',sh'',top,hg',hv,hva,hsh',ht,?_⟩
    rw [← hpage]
    apply (pageAt_congr _).symm
    apply hold sh'' top ht v hv47
    intro hcon
    obtain hcon' | hcon' := hcon.2
    · exact hc ⟨hcon.1,hcon'⟩
    · exact hp.not_serves (by omega) hcon'

/-- Pages went from one shadow pagemap, nothing else was unmapped. -/
structure Drained (A : PageAllocator M P) (N : Nat) (T : List Table) (sh : Nat)
    (s s' : MmapState M P) : Prop where
  ram : s'=s.setRam s'.ram
  paged : Paged A N s' T
  same : ∀ pm top, s.tops pm=some top → pm≠sh → ∀ v < 2^47,
    pteFrom M s'.ram.mem 3 top (word v)=pteFrom M s.ram.mem 3 top (word v)
  less : ∀ top, s.tops sh=some top → ∀ v < 2^47, ∀ p,
    pageAt M s'.ram.mem top v=some p → pageAt M s.ram.mem top v=some p
  kept : ∀ p, A.inUse s.ram.pmm p → (∀ gid v, ¬Held s gid v p) → A.inUse s'.ram.pmm p

section
variable (hp : Paged A N s T)
include hp

theorem Drained.refl (sh : Nat) : Drained A N T sh s s :=
  ⟨rfl,hp,fun _ _ _ _ _ _ => rfl,fun _ _ _ _ _ h => h,fun _ h _ => h⟩

theorem Drained.held (h : Drained A N T sh s s') (hh : Held s' gid v p) : Held s gid v p := by
  obtain ⟨r₁,rfl⟩ : ∃ r₁, s'=s.setRam r₁ := ⟨_,h.ram⟩
  apply Held.of_shadow hp _ hh
  intro sh' top _ ht v hv p hpage
  by_cases hsh : sh'=sh
  · exact h.less top (hsh ▸ ht) v hv p hpage
  · exact (pageAt_congr (h.same sh' top ht hsh v hv)).symm.trans hpage

theorem Drained.trans {s'' : MmapState M P} (h : Drained A N T sh s s')
    (k : Drained A N T sh s' s'') : Drained A N T sh s s'' := by
  have hheld : ∀ gid v p, Held s' gid v p → Held s gid v p := fun _ _ _ => h.held hp
  obtain ⟨r₁,rfl⟩ : ∃ r₁, s'=s.setRam r₁ := ⟨_,h.ram⟩
  refine ⟨k.ram,k.paged,?_,?_,?_⟩
  · intro pm top ht hne v hv
    exact (k.same pm top ht hne v hv).trans (h.same pm top ht hne v hv)
  · intro top ht v hv p hpage
    exact h.less top ht v hv p (k.less top ht v hv p hpage)
  · intro p hu hn
    exact k.kept p (h.kept p hu hn) (fun gid v hh => hn gid v (hheld gid v p hh))

theorem Paged.unmapShadow (ht : s.tops sh=some top)
    (h : vmmUnmapPage A s.ram top (word j)=some (ok,r')) :
    Drained A N T sh s (s.setRam r') ∧ (j < 2^47 → pageAt M r'.mem top j=none) := by
  obtain ⟨e,hview⟩ := vmmUnmapPage_evolved hp.toRooted ht h
  have hsame : ∀ pm top', s.tops pm=some top' → pm≠sh → ∀ v < 2^47,
      pteFrom M r'.mem 3 top' (word v)=pteFrom M s.ram.mem 3 top' (word v) := by
    intro pm top' ht' hne v hv
    rw [hview pm top' ht' v hv,if_neg (fun hc => hne hc.2.2.symm)]
  have hless : ∀ v < 2^47, ∀ p, pageAt M r'.mem top v=some p → pageAt M s.ram.mem top v=some p := by
    intro v hv p hpage
    have hw := hview sh top ht v hv
    split at hw
    · rw [pageAt_zero hw] at hpage
      cases hpage
    · rw [← pageAt_congr hw]
      exact hpage
  refine ⟨⟨rfl,?_,hsame,?_,fun p hu _ => e.used p hu⟩,?_⟩
  · apply hp.evolve e 0 0
    intro gid v p hh
    left
    apply Held.of_shadow hp _ hh
    intro sh' top' _ ht' v hv p hpage
    by_cases hsh : sh'=sh
    · subst hsh
      rw [ht] at ht'
      cases ht'
      exact hless v hv p hpage
    · rw [← pageAt_congr (hsame sh' top' ht' hsh v hv)]
      exact hpage
  · intro top' ht' v hv p hpage
    rw [ht] at ht'
    cases ht'
    exact hless v hv p hpage
  · intro hj
    have hw := hview sh top ht j hj
    rw [pageKey_word hj] at hw
    by_cases hpr : isPresent (pteFrom M s.ram.mem 3 top (word j))=true
    · rw [if_pos ⟨hpr,rfl,rfl⟩] at hw
      exact pageAt_zero hw
    · rw [if_neg (fun hc => hpr hc.1)] at hw
      rw [pageAt,hw,if_neg hpr]

theorem Paged.free (h0 : 0 < phys/pageSize) (ht : ∀ t∈T, t.page M≠phys/pageSize)
    (hn : ∀ gid v, ¬Held s gid v (phys/pageSize)) :
    Paged A N (s.setRam (pmmFree A s.ram phys 1)) T := by
  have hheld : ∀ gid v p, Held (s.setRam (pmmFree A s.ram phys 1)) gid v p → Held s gid v p :=
    fun gid v p h => ⟨h.owner,h.page⟩
  refine ⟨⟨hp.forest.freed h0 ht,hp.full,hp.krnl,hp.top,hp.inj⟩,hp.processes,hp.threads,hp.known,
    hp.cell,hp.object,hp.shadow,hp.flags,?_,?_⟩
  · intro gid v p h
    obtain ⟨hu,hpos,htab⟩ := hp.used gid v p (hheld gid v p h)
    refine ⟨A.free_keeps _ _ _ _ hp.forest.valid ?_ hu,hpos,htab⟩
    rw [Span.mem_mk]
    intro hc
    have heq : p=phys/pageSize := by omega
    exact hn gid v (heq ▸ hheld gid v p h)
  · exact fun gid v gid' v' p h h' => hp.own gid v gid' v' p (hheld _ _ _ h) (hheld _ _ _ h')

end

theorem translate_page {m : Mem} (hj : j%pageSize=0) (hlt : j < 2^47)
    (h : translate (pteFrom M m 3 top (word j)) (word j)≠invalidPhys) :
    pageAt M m top j=
      some ((translate (pteFrom M m 3 top (word j)) (word j)).toNat/pageSize) := by
  rw [translate] at h ⊢
  rw [pageAt]
  by_cases hp : isPresent (pteFrom M m 3 top (word j))=true
  · have hoff : word j%4096#64=0#64 := by
      apply BitVec.eq_of_toNat_eq
      rw [BitVec.toNat_umod,word_toNat hlt]
      exact hj
    rw [if_pos hp,if_pos hp,hoff,BitVec.add_zero]
  · rw [if_neg hp] at h
    exact absurd rfl h

/-- A page that munmap gives back: until just before, and by this range only,
it was held. -/
structure Released (A : PageAllocator M P) (N : Nat) (T : List Table) (gid sh : Nat)
    (s : MmapState M P) (ev : FreeEvent M P) : Prop where
  drained : Drained A N T sh s ev.state
  before : ∃ v, Held s gid v (ev.phys/pageSize)
  after : ∀ gid' v, ¬Held ev.state gid' v (ev.phys/pageSize)

theorem Released.mono {ev : FreeEvent M P} (hp : Paged A N s T) (hd : Drained A N T sh s s')
    (h : Released A N T gid sh s' ev) : Released A N T gid sh s ev := by
  obtain ⟨v,hv⟩ := h.before
  exact ⟨hd.trans hp h.drained,⟨v,hd.held hp hv⟩,h.after⟩

theorem pageAt_key {m : Mem} (hv : v < 2^47) (hj : j < 2^47) (h : v/pageSize=j/pageSize) :
    pageAt M m top v=pageAt M m top j := by
  have hk : pageKey (word v)=pageKey (word j) := by rw [pageKey_word hv,pageKey_word hj,h]
  rw [pageAt,pageAt,pteFrom_key hk]

section
variable (hp : Paged A N s T) (hl : s.locals k=some l) (hanon : l.flags &&& mapAnonymous≠0)
  (hg : s.globals l.global=some g) (hsh : g.shadowPagemap=some sh) (ht : s.tops sh=some top)
  (hj : j%pageSize=0)
include hp hl hanon hg hsh ht hj

theorem Paged.release (hin : j∈(⟨g.base,g.length⟩ : Span)) (hj47 : j < 2^47)
    (hpage : pageAt M s.ram.mem top j=some (phys/pageSize))
    (hu : vmmUnmapPage A s.ram top (word j)=some (ok,r')) :
    Released A N T l.global sh s ⟨s.setRam r',phys⟩ ∧
      Drained A N T sh s (s.setRam (pmmFree A r' phys 1)) ∧ pageAt M r'.mem top j=none := by
  have hheld : Held s l.global j (phys/pageSize) :=
    ⟨⟨k,l,hl,rfl,hanon⟩,g,sh,top,hg,hin,hj,hsh,ht,hpage⟩
  obtain ⟨hd,hnone⟩ := hp.unmapShadow ht hu
  have hafter : ∀ gid v, ¬Held (s.setRam r') gid v (phys/pageSize) := by
    intro gid v hh
    obtain ⟨rfl,rfl⟩ := hp.own _ _ _ _ _ (hd.held hp hh) hheld
    obtain ⟨g',sh',top',hg',-,-,hsh',ht',hp'⟩ := hh.page
    have hgg : g'=g := Option.some.inj (hg'.symm.trans hg)
    subst hgg
    have hss : sh'=sh := Option.some.inj (hsh'.symm.trans hsh)
    subst hss
    have htt : top'=top := Option.some.inj (ht'.symm.trans ht)
    subst htt
    rw [show pageAt M (s.setRam r').ram.mem top' v=none from hnone hj47] at hp'
    cases hp'
  obtain ⟨-,hpos,htab⟩ := hp.used _ _ _ hheld
  refine ⟨⟨hd,⟨j,hheld⟩,hafter⟩,⟨rfl,hd.paged.free hpos htab hafter,hd.same,hd.less,?_⟩,hnone hj47⟩
  intro p hu' hn
  apply A.free_keeps _ _ _ _ hd.paged.forest.valid _ (hd.kept p hu' hn)
  rw [Span.mem_mk]
  intro hc
  have heq : p=phys/pageSize := by omega
  exact hn _ _ (heq ▸ hheld)

/-- The freeing loop on the window of an anonymous range. -/
theorem freeShadow_spec (hb : g.base ≤ j)
    (h : freeShadow A top (g.base+g.length) n j s=some (ok,s',evs)) :
    Drained A N T sh s s' ∧
      (∀ v < 2^47, ∀ p, pageAt M s'.ram.mem top v=some p → v < j ∨ g.base+g.length ≤ v) ∧
      ∀ ev∈evs, Released A N T l.global sh s ev := by
  induction n generalizing j s evs with
  | zero => cases h
  | succ n ih =>
    have hw := (hp.object _ g hg).2.1
    rw [UserWindow] at hw
    rw [freeShadow] at h
    by_cases hlt : j < g.base+g.length
    · have hj47 : j < 2^47 := by omega
      have hadd : add64 j pageSize=j+pageSize := add64_eq (by simp only [pageSize]; omega)
      have hnext : (j+pageSize)%pageSize=0 := by rw [Nat.add_mod_right,hj]
      rw [if_pos hlt,hp.toRooted.virt2phys ht j,Option.bind_some,hadd] at h
      by_cases hinv : translate (pteFrom M s.ram.mem 3 top (word j)) (word j)=invalidPhys
      · rw [if_pos hinv] at h
        obtain ⟨hd,hgone,hev⟩ := ih hp hl hg ht hnext (by omega) h
        refine ⟨hd,?_,hev⟩
        intro v hv p hpage
        have hout := hgone v hv p hpage
        by_contra hcon
        have hkey : v/pageSize=j/pageSize := by
          simp only [pageSize] at hj hout hcon ⊢
          omega
        have hold := hd.less top ht v hv p hpage
        rw [pageAt_key hv hj47 hkey] at hold
        exact translate_valid (isPresent_of_pageAt hold) hinv
      · rw [if_neg hinv] at h
        have hpage := translate_page hj hj47 hinv
        obtain ⟨⟨ok₁,r₁⟩,hu,h⟩ := bind_eq_some_iff.mp h
        have hok := vmmUnmapPage_of_phys (hp.toRooted.virt2phys ht j) hinv hu
        generalize translate (pteFrom M s.ram.mem 3 top (word j)) (word j)=phys at h hpage
        obtain ⟨hrel,hd₁,hnone⟩ := hp.release hl hanon hg hsh ht hj
          (by rw [Span.mem_mk]; omega) hj47 hpage hu
        rw [if_neg (by rw [hok]; exact Bool.noConfusion)] at h
        obtain ⟨⟨ok₂,s₂,evs₂⟩,h2,he⟩ := map_eq_some_iff.mp h
        cases he
        obtain ⟨hd₂,hgone,hev⟩ := ih hd₁.paged hl hg ht hnext (by omega) h2
        refine ⟨hd₁.trans hp hd₂,?_,?_⟩
        · intro v hv p hpage'
          have hout := hgone v hv p hpage'
          by_contra hcon
          have hkey : v/pageSize=j/pageSize := by
            simp only [pageSize] at hj hout hcon ⊢
            omega
          have hold : pageAt M r₁.mem top v=some p := hd₂.less top ht v hv p hpage'
          rw [pageAt_key hv hj47 hkey,hnone] at hold
          cases hold
        · intro ev hev'
          obtain rfl | hev' := List.mem_cons.mp hev'
          · exact hrel
          · exact (hev ev hev').mono hp hd₁
    · rw [if_neg hlt] at h
      cases h
      refine ⟨.refl hp sh,fun v _ p _ => by omega,fun ev hev => absurd hev List.not_mem_nil⟩

end

/-- The range that is split goes on under its number. -/
theorem splitRange_cases {id : Nat} (hl : s.locals id=some l) (pm i e : Nat) :
    ∃ l' ranges locals n, splitRange s pm id l i e=
        (l',{ s with ranges := ranges, locals := locals, nextLocal := n }) ∧
      Continues s locals ∧ locals id=some l' ∧ l'.pagemap=l.pagemap ∧ l'.global=l.global ∧
      l'.flags=l.flags := by
  rw [splitRange]
  split
  · refine ⟨_,_,_,_,rfl,?_,update_self _ _ _,rfl,rfl,rfl⟩
    refine Continues.update (Continues.update (Continues.refl s) hl ?_ ?_ ?_) hl ?_ ?_ ?_
    all_goals rfl
  · exact ⟨l,_,_,_,rfl,Continues.refl s,hl,rfl,rfl,rfl⟩

theorem Paged.trimRange (hp : Paged A N s T) {id : Nat} (hl : s.locals id=some l) :
    Paged A N (trimRange s id l i e) T := by
  rw [Memory.trimRange]
  split
  all_goals
    refine hp.recell (Continues.update (Continues.refl s) hl ?_ ?_ ?_)
    all_goals rfl

theorem Paged.unmapPages (hp : Paged A N s T) {stop : Nat} (hpm : pm < N) (ht : s.tops pm=some top)
    (h : unmapPages A top stop n j s.ram=some r') : Paged A N (s.setRam r') T := by
  obtain ⟨e,hother,-⟩ := unmapPages_spec hp.toRooted ht h
  apply hp.evolve e 0 0
  intro gid v p hh
  left
  apply Held.of_shadow hp _ hh
  intro sh top' hN ht' v hv p hpage
  rw [← pageAt_congr (hother sh top' ht' (by omega) v hv)]
  exact hpage

theorem Paged.dropRange (hp : Paged A N s T) {id : Nat} (hl : s.locals id=some l)
    (hg : s.globals l.global=some g) (h : dropRange A s pm id l g i e=some (ok,s',evs)) :
    Paged A N s' T := by
  have hp' : Paged A N (s.unlist pm id) T := hp.recell (Continues.refl s)
  obtain ⟨-,⟨-,s₁,rfl,⟨hanon,top,htop,hfree⟩ | ⟨-,-,rfl⟩⟩ | ⟨-,-,rfl⟩⟩ := dropRange_eq_some h
  · obtain ⟨sh,hsh,ht⟩ := bind_eq_some_iff.mp htop
    have hw := (hp.object _ g hg).2.1
    rw [UserWindow] at hw
    rw [add64_eq (by omega)] at hfree
    have hdrained := (freeShadow_spec hp' hl hanon hg hsh ht hw.1 le_rfl hfree).1
    exact hdrained.paged.recell (Continues.refl s₁).remove
  · exact hp'.recell (Continues.refl _).remove
  · exact hp'.trimRange hl

theorem Paged.snip (hp : Paged A N s T) (hpm : pm < N) (hl : s.locals hit.id=some hit.range)
    (h : snip A s pm hit i e=some (ok,s',evs)) : ok=true ∧ Paged A N s' T := by
  obtain ⟨g,hg,h⟩ := bind_eq_some_iff.mp h
  obtain ⟨l,ranges,locals,n,hsplit,hcont,hcell,-,hglobal,-⟩ := splitRange_cases hl pm i e
  rw [hsplit] at h
  obtain ⟨top,ht,h⟩ := bind_eq_some_iff.mp h
  obtain ⟨r,hr,h⟩ := bind_eq_some_iff.mp h
  have hp₁ := (hp.recell hcont).unmapPages hpm ht hr
  dsimp only at h
  split at h
  · exact ⟨(dropRange_cases h).1,hp₁.dropRange hcell (hglobal ▸ hg) h⟩
  · cases h
    exact ⟨rfl,hp₁.trimRange hcell⟩

def MmapState.addRange (s : MmapState M P) (top : Nat) (ranges : Nat → List Nat) (l : LocalRange)
    (g : GlobalRange M) : MmapState M P :=
  { s with
    tops := update s.tops s.nextPagemap (some top)
    ranges := ranges
    locals := update s.locals s.nextLocal (some l)
    globals := update s.globals s.nextGlobal (some g)
    nextPagemap := s.nextPagemap+1
    nextLocal := s.nextLocal+1
    nextGlobal := s.nextGlobal+1 }

section AddRange

variable {ranges : Nat → List Nat}

theorem update_cases {α : Type} {f : Nat → Option α} {x y : α}
    (h : update f n (some x) k=some y) : (k=n ∧ y=x) ∨ (k≠n ∧ f k=some y) := by
  by_cases hk : k=n
  · rw [hk,update_self] at h
    exact .inl ⟨hk,(Option.some.inj h).symm⟩
  · rw [update_of_ne hk] at h
    exact .inr ⟨hk,h⟩

theorem Held.of_addRange (hp : Paged A N s T) (hlg : l.global=s.nextGlobal)
    (hsh : g.shadowPagemap=some s.nextPagemap)
    (hempty : ∀ v∈(⟨g.base,g.length⟩ : Span), pageAt M s.ram.mem top v=none)
    (hh : Held (s.addRange top ranges l g) gid v p) : Held s gid v p := by
  obtain ⟨g',sh,t,hg',hv,hva,hsh',ht,hpage⟩ := hh.page
  obtain ⟨k,l',hl',hgid,hflags⟩ := hh.owner
  obtain ⟨-,rfl⟩ | ⟨hne,hg'⟩ := update_cases hg'
  · rw [hsh] at hsh'
    cases hsh'
    obtain ⟨-,rfl⟩ | ⟨hne,-⟩ := update_cases ht
    · rw [show pageAt M (s.addRange t ranges l g').ram.mem t v=none from hempty v hv] at hpage
      cases hpage
    · exact absurd rfl hne
  · obtain ⟨heq,-⟩ | ⟨-,ht⟩ := update_cases ht
    · exact absurd heq (Nat.ne_of_lt (hp.shadow_bounds hg' hsh').2)
    · obtain ⟨-,rfl⟩ | ⟨-,hl'⟩ := update_cases hl'
      · exact absurd (hgid.symm.trans hlg) hne
      · exact ⟨⟨k,l',hl',hgid,hflags⟩,g',sh,t,hg',hv,hva,hsh',ht,hpage⟩

theorem Held.addRange (hp : Paged A N s T) (hfresh : s.locals s.nextLocal=none)
    (hh : Held s gid v p) : Held (s.addRange top ranges l g) gid v p := by
  obtain ⟨g',sh,t,hg',hv,hva,hsh',ht,hpage⟩ := hh.page
  obtain ⟨k,l',hl',hgid,hflags⟩ := hh.owner
  have hk : k≠s.nextLocal := by
    intro heq
    rw [heq,hfresh] at hl'
    cases hl'
  exact ⟨⟨k,l',(update_of_ne hk _ _).trans hl',hgid,hflags⟩,g',sh,t,
    (update_of_ne (Nat.ne_of_lt (hp.object gid g' hg').1) _ _).trans hg',hv,hva,hsh',
    (update_of_ne (Nat.ne_of_lt (hp.known sh t ht)) _ _).trans ht,hpage⟩

theorem Paged.addRange (hp : Paged A N s T) (htop : ⟨top,3⟩∈T) (hnew : ∀ pm, s.tops pm≠some top)
    (hpm : l.pagemap < N) (hlg : l.global=s.nextGlobal) (hw : UserWindow g.base g.length)
    (hsh : g.shadowPagemap=some s.nextPagemap)
    (hempty : ∀ v∈(⟨g.base,g.length⟩ : Span), pageAt M s.ram.mem top v=none) :
    Paged A N (s.addRange top ranges l g) T := by
  have hheld : ∀ gid v p, Held (s.addRange top ranges l g) gid v p → Held s gid v p :=
    fun _ _ _ hh => Held.of_addRange hp hlg hsh hempty hh
  refine ⟨⟨hp.forest,hp.full,hp.krnl,?_,?_⟩,hp.processes.trans (Nat.le_succ _),hp.threads,?_,?_,?_,?_,?_,
    fun gid v p h => hp.used gid v p (hheld gid v p h),
    fun gid v gid' v' p h h' => hp.own gid v gid' v' p (hheld _ _ _ h) (hheld _ _ _ h')⟩
  · intro pm t ht
    obtain ⟨-,rfl⟩ | ⟨-,ht⟩ := update_cases ht
    · exact htop
    · exact hp.top pm t ht
  · intro pm pm' t ht ht'
    obtain ⟨rfl,rfl⟩ | ⟨-,hold⟩ := update_cases ht
    all_goals obtain ⟨rfl,h2⟩ | ⟨-,hold'⟩ := update_cases ht'
    · rfl
    · exact absurd hold' (hnew pm')
    · exact absurd (h2 ▸ hold) (hnew pm)
    · exact hp.inj pm pm' t hold hold'
  · intro pm t ht
    obtain ⟨rfl,-⟩ | ⟨-,hold⟩ := update_cases ht
    · exact Nat.lt_succ_self _
    · exact Nat.lt_succ_of_lt (hp.known pm t hold)
  · intro k l' hl'
    obtain ⟨-,rfl⟩ | ⟨-,hold⟩ := update_cases hl'
    · exact ⟨hpm,hlg ▸ Nat.lt_succ_self _⟩
    · exact ⟨(hp.cell k l' hold).1,Nat.lt_succ_of_lt (hp.cell k l' hold).2⟩
  · intro gid g' hg'
    obtain ⟨rfl,rfl⟩ | ⟨-,hold⟩ := update_cases hg'
    · exact ⟨Nat.lt_succ_self _,hw,_,hsh,hp.processes,Nat.lt_succ_self _⟩
    · obtain ⟨h1,h2,sh,h3,h4,h5⟩ := hp.object gid g' hold
      exact ⟨Nat.lt_succ_of_lt h1,h2,sh,h3,h4,Nat.lt_succ_of_lt h5⟩
  · intro gid g₁ gid' g₂ h1 h2 heq
    obtain ⟨rfl,rfl⟩ | ⟨-,hold⟩ := update_cases h1
    all_goals obtain ⟨rfl,rfl⟩ | ⟨-,hold'⟩ := update_cases h2
    · rfl
    · obtain ⟨-,-,sh,h3,-,h5⟩ := hp.object gid' g₂ hold'
      rw [hsh,h3] at heq
      cases heq
      exact absurd h5 (Nat.lt_irrefl _)
    · obtain ⟨-,-,sh,h3,-,h5⟩ := hp.object gid g₁ hold
      rw [hsh,h3] at heq
      cases heq
      exact absurd h5 (Nat.lt_irrefl _)
    · exact hp.shadow gid g₁ gid' g₂ hold hold' heq
  · intro k l₁ k' l₂ h1 h2 heq
    obtain ⟨-,rfl⟩ | ⟨-,hold⟩ := update_cases h1
    all_goals obtain ⟨-,rfl⟩ | ⟨-,hold'⟩ := update_cases h2
    · rfl
    · have := (hp.cell k' l₂ hold').2
      omega
    · have := (hp.cell k l₁ hold).2
      omega
    · exact hp.flags k l₁ k' l₂ hold hold' heq

end AddRange

def newLocal (s : MmapState M P) (pm length prot flags offset : Nat) : LocalRange :=
  ⟨pm,s.nextGlobal,s.base,length,offset,prot,flags⟩

def newGlobal (s : MmapState M P) (length : Nat) (node : Option (Resource M)) (offset : Nat) :
    GlobalRange M :=
  ⟨some s.nextPagemap,[s.nextLocal],node,s.base,length,offset⟩

def newRanges (s : MmapState M P) (pm : Nat) : Nat → List Nat :=
  let ranges := update s.ranges s.nextPagemap []
  update ranges pm (ranges pm++[s.nextLocal])

theorem Created.empty {r' : Ram P} (hc : Created A r T k top r' T') (hlow : 0x37fe000 ≤ v)
    (hv : v < 2^47) : pageAt M r'.mem top v=none := by
  apply pageAt_zero
  have hkey := pageKey_word hv
  simp only [pageSize] at hkey
  rw [hc.view (word v),if_neg (by omega),if_neg (by omega),
    if_neg (Nat.not_le.mpr (levelIndex_word hv))]

theorem Paged.newRange (hp : Paged A N s T) {prot flags offset : Nat} {node : Option (Resource M)}
    (hpm : pm < N) (hw : UserWindow s.base length)
    (h : newRange A s pm length prot flags node offset=some s') :
    ∃ top r' T', Created A s.ram T s.krnlPage top r' T' ∧ Paged A N (s.setRam r') T' ∧
      s'=(s.setRam r').addRange top (newRanges s pm) (newLocal s pm length prot flags offset)
        (newGlobal s length node offset) ∧
      Paged A N s' T' := by
  obtain ⟨⟨x,r'⟩,hx,rfl⟩ := map_eq_some_iff.mp h
  obtain ⟨top,T',rfl,hc⟩ := vmmNewPagemap_created hp.forest hp.full hp.krnl hx
  have hp' : Paged A N (s.setRam r') T' := by
    apply hp.evolve hc.evolved 0 0
    intro gid v p hh
    left
    apply Held.of_shadow hp _ hh
    intro sh t _ ht v _ p hpage
    rw [← pageAt_congr (hc.views _ (hp.top sh t ht) rfl (word v))]
    exact hpage
  have hempty : ∀ v∈(⟨s.base,length⟩ : Span), pageAt M r'.mem top v=none := by
    intro v hv
    rw [UserWindow] at hw
    rw [Span.mem_mk] at hv
    exact hc.empty (by omega) (by omega)
  have hpaged : Paged A N ((s.setRam r').addRange top (newRanges s pm)
      (newLocal s pm length prot flags offset) (newGlobal s length node offset)) T' :=
    hp'.addRange hc.self (fun pm' ht => hc.new (hp.top pm' top ht)) hpm rfl hw rfl hempty
  exact ⟨top,r',T',hc,hp',rfl,hpaged⟩

theorem Paged.munmap (hp : Paged A N s T) {addr : Nat} (hpm : pm < N)
    (h : munmap A s pm addr length=some (ok,s',evs)) : ∃ T', Paged A N s' T' := by
  rw [Memory.munmap] at h
  split at h
  · cases h
    exact ⟨T,hp⟩
  · have hrule := munmapLoop_rule (fun _ t => ∃ T', Paged A N t T') (fun _ => True)
      (fun _ _ hI _ _ => hI) ?_ ⟨T,hp⟩ h
    · obtain ⟨-,⟨-,-,hp'⟩,-⟩ := hrule
      exact hp'
    · intro i t hit e ok₁ t' evs₁ hI _ hf _ hs
      obtain ⟨T₁,hp₁⟩ := hI
      obtain ⟨hok,hp₂⟩ := hp₁.snip hpm (findRange_some hf).2.1 hs
      exact ⟨hok,⟨T₁,hp₂⟩,fun _ _ => trivial⟩

def mmapBase (s : MmapState M P) (task flags : Nat) : Nat :=
  if flags &&& mapFixed≠0 then s.base else s.anonBase task

theorem Paged.mmap (hp : Paged A N s T) {task addr prot flags offset ret : Nat}
    {node : Option (Resource M)} (hw : UserWindow (mmapBase s task flags) (alignUp length pageSize))
    (h : mmap A s task none addr length prot flags node offset=some (ret,s',evs)) :
    ∃ T', Paged A N s' T' := by
  have hpm := hp.threads task
  unfold Memory.mmap at h
  dsimp only at h
  rw [Option.getD_none] at h
  by_cases hfix : flags &&& mapFixed≠0
  · rw [if_pos hfix] at h
    rw [mmapBase,if_pos hfix] at hw
    obtain ⟨⟨ok,t,evs₁⟩,hm,h⟩ := bind_eq_some_iff.mp h
    obtain ⟨T₁,hp₁⟩ := hp.munmap hpm hm
    dsimp only at h
    split at h
    · cases h
      exact ⟨T₁,hp₁⟩
    · obtain ⟨s₁,hn,he⟩ := map_eq_some_iff.mp h
      cases he
      obtain ⟨r,ranges,locals,n,rfl⟩ := munmap_munmapped hm
      obtain ⟨-,-,T₂,-,-,-,hp₂⟩ := hp₁.newRange hpm hw hn
      exact ⟨T₂,hp₂⟩
  · rw [if_neg hfix] at h
    rw [mmapBase,if_neg hfix] at hw
    obtain ⟨s₁,hn,he⟩ := map_eq_some_iff.mp h
    cases he
    have hp' : Paged A N { s with
        base := s.anonBase task
        anonBase := update s.anonBase task (add64 (s.anonBase task)
          (add64 (alignUp length pageSize) pageSize)) } T :=
      ⟨⟨hp.forest,hp.full,hp.krnl,hp.top,hp.inj⟩,hp.processes,hp.threads,hp.known,hp.cell,hp.object,
        hp.shadow,hp.flags,fun gid v p h => hp.used gid v p ⟨h.owner,h.page⟩,
        fun gid v gid' v' p h h' => hp.own gid v gid' v' p ⟨h.owner,h.page⟩ ⟨h'.owner,h'.page⟩⟩
    obtain ⟨-,-,T₂,-,-,-,hp₂⟩ := hp'.newRange hpm hw hn
    exact ⟨T₂,hp₂⟩

theorem Paged.mmapPf (hp : Paged A N s T) {task cr2 err rip : Nat}
    (h : mmapPf A s task cr2 err rip=some (ok,s')) : ∃ T', Paged A N s' T' := by
  obtain ⟨-,rfl⟩ | ⟨-,hit,g,page,r₁,hf,hg,hpage,⟨-,-,rfl⟩ | ⟨-,hm⟩⟩ := mmapPf_cases h
  · exact ⟨T,hp⟩
  · obtain ⟨e,-,-,hsame⟩ := faultPage_evolved hp.toRooted hpage
    refine ⟨T,hp.evolve e 0 0 (fun gid v p hh => .inl (Held.of_shadow hp ?_ hh))⟩
    intro sh' top _ ht v _ p hpg
    rw [← pageAt_congr (hsame sh' top ht (word v))]
    exact hpg
  · obtain ⟨-,-,sh,hsh,-⟩ := hp.object _ g hg
    exact (hp.fault (findRange_some hf).2.1 hg hsh hpage hm).2.paged

end X64OS.Memory
