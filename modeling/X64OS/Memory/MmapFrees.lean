import X64OS.Memory.MmapFaults

namespace X64OS.Memory

open Framework Function
open Option (map_eq_some_iff bind_eq_some_iff)

variable {M : Machine} {P : Type} {A : PageAllocator M P}
variable {r' : Ram P} {T T' : List Table} {s s' : MmapState M P} {N : Nat}

def UserPage (v : Nat) : Prop := v%pageSize=0 ∧ 0x37fe000 ≤ v ∧ v < 2^47

/-- The page stands in a range of the pagemap, whose global range holds it. -/
def Backed (s : MmapState M P) (pm v p : Nat) : Prop :=
  ∃ k l, s.locals k=some l ∧ l.pagemap=pm ∧ v∈l.span ∧ Held s l.global v p

/-- A page in use that belongs to no anonymous range. -/
def Foreign (A : PageAllocator M P) (s : MmapState M P) (p : Nat) : Prop :=
  A.inUse s.ram.pmm p ∧ ∀ gid v, ¬Held s gid v p

/-- The ranges that exist are those on the lists, each part of its global range, and each global
range has a pagemap. -/
structure Booked (N : Nat) (s : MmapState M P) : Prop where
  listed : ∀ pm, ∀ k∈s.ranges pm, ∃ l, s.locals k=some l ∧ l.pagemap=pm
  live : ∀ k l, s.locals k=some l → k∈s.ranges l.pagemap ∧ k < s.nextLocal
  range : ∀ k l, s.locals k=some l → RangeOk l ∧ l.flags &&& mapAnonymous≠0 ∧
    ∃ g, s.globals l.global=some g ∧ ∀ x∈l.span, x∈(⟨g.base,g.length⟩ : Span)
  same : ∀ k l k' l', s.locals k=some l → s.locals k'=some l' → l.global=l'.global →
    l.pagemap=l'.pagemap
  single : ∀ gid g, s.globals gid=some g → ∃ id, g.locals=[id] ∧ id < s.nextLocal ∧
    ∀ l, s.locals id=some l → l.global=gid
  shadowTop : ∀ gid g, s.globals gid=some g → ∃ sh top, g.shadowPagemap=some sh ∧ s.tops sh=some top
  kinds : ∀ pm top, s.tops pm=some top → pm < N ∨
    ∃ gid g, s.globals gid=some g ∧ g.shadowPagemap=some pm

/-- Every user page is mapped on behalf of a range that holds it. -/
structure Owned (A : PageAllocator M P) (N : Nat) (s : MmapState M P) (T : List Table) : Prop
    extends Paged A N s T, Booked N s where
  shadowed : ∀ gid g sh top, s.globals gid=some g → g.shadowPagemap=some sh → s.tops sh=some top →
    ∀ v p, UserPage v → pageAt M s.ram.mem top v=some p → Held s gid v p
  backed : ∀ pm top, pm < N → s.tops pm=some top → ∀ v p, UserPage v →
    pageAt M s.ram.mem top v=some p → Backed s pm v p ∨ Foreign A s p

theorem Owned.window (hs : Owned A N s T) {k x : Nat} {l : LocalRange} (hl : s.locals k=some l)
    (hx : x∈l.span) : 0x37fe000 ≤ x ∧ x < 2^47 := by
  obtain ⟨-,-,g,hg,hin⟩ := hs.range k l hl
  have hw := (hs.object _ g hg).2.1
  have hm := hin x hx
  rw [Span.mem_mk] at hm
  rw [UserWindow] at hw
  omega

theorem Owned.stop_le (hs : Owned A N s T) {k : Nat} {l : LocalRange} (hl : s.locals k=some l) :
    l.base+l.length ≤ 2^47 := by
  have hpos := (hs.range k l hl).1.pos
  have hlast : l.base+l.length-1∈l.span := by
    simp only [LocalRange.span,Span.mem_mk]
    omega
  have := (hs.window hl hlast).2
  omega

theorem RangeOk.page_mem {l : LocalRange} (h : RangeOk l) {x : Nat} (hx : x∈l.span) :
    x/pageSize*pageSize∈l.span := by
  have hb := h.base
  simp only [LocalRange.span,Span.mem_mk,pageSize] at hx hb ⊢
  omega

theorem Owned.setRam (hs : Owned A N s T) (hp : Paged A N (s.setRam r') T')
    (hshadowed : ∀ gid g sh top, s.globals gid=some g → g.shadowPagemap=some sh →
      s.tops sh=some top → ∀ v p, UserPage v → pageAt M r'.mem top v=some p →
      Held (s.setRam r') gid v p)
    (hbacked : ∀ pm top, pm < N → s.tops pm=some top → ∀ v p, UserPage v →
      pageAt M r'.mem top v=some p → Backed (s.setRam r') pm v p ∨ Foreign A (s.setRam r') p) :
    Owned A N (s.setRam r') T' :=
  ⟨hp,⟨hs.listed,hs.live,hs.range,hs.same,hs.single,hs.shadowTop,hs.kinds⟩,hshadowed,hbacked⟩

theorem UserPage.key_iff {v virt : Nat} (hv : UserPage v) (hvirt : UserPage virt) :
    pageKey (word virt)=v/pageSize ↔ v=virt := by
  rw [UserPage] at hv hvirt
  rw [pageKey_word hvirt.2.2]
  simp only [pageSize] at hv hvirt ⊢
  omega

namespace Faulted

variable {g : GlobalRange M} {sh virt page prot pm top : Nat}

variable (h : Faulted A N s s' g sh virt page prot)
include h

theorem pageAt_mapped (hvirt : UserPage virt) (ht : s.tops pm=some top)
    (hor : pm=sh ∨ Serves s g.locals virt pm) : pageAt M s'.ram.mem top virt=some (page/pageSize) :=
  pageAt_mapEntry h.aligned h.bound (h.mapped pm top ht virt hvirt.2.2 (pageKey_word hvirt.2.2) hor)

theorem pageAt_same (hvirt : UserPage virt) (ht : s.tops pm=some top) {v : Nat} (hv : UserPage v)
    (hother : ¬(v=virt ∧ (pm=sh ∨ Serves s g.locals virt pm))) :
    pageAt M s'.ram.mem top v=pageAt M s.ram.mem top v := by
  apply pageAt_congr
  apply h.same pm top ht v hv.2.2
  rw [hv.key_iff hvirt]
  exact hother

theorem pageAt_shadow (hp : Paged A N s T) (hvirt : UserPage virt) (hN : N ≤ pm)
    (ht : s.tops pm=some top) {v : Nat} (hv : UserPage v) (hother : ¬(v=virt ∧ pm=sh)) :
    pageAt M s'.ram.mem top v=pageAt M s.ram.mem top v := by
  apply h.pageAt_same hvirt ht hv
  rintro ⟨rfl,hsh | hserves⟩
  · exact hother ⟨rfl,hsh⟩
  · exact hp.not_serves hN hserves

theorem foreign {p : Nat} (hp : Foreign A s p) : Foreign A s' p := by
  refine ⟨h.used p hp.1,?_⟩
  intro gid v hheld
  obtain hold | hnew := h.held gid v p hheld
  · exact hp.2 gid v hold
  · exact hnew hp.1

end Faulted

variable {g : GlobalRange M} {cr2 task top flags offset prot addr limit : Nat} {ok : Bool}
  {node : Option (Resource M)} {evs : List (FreeEvent M P)} {s₀ : MmapState M P}

theorem Owned.serves_range (hs : Owned A N s T) {gid virt pm : Nat} (hg : s.globals gid=some g)
    (hserves : Serves s g.locals virt pm) :
    ∃ id l, s.locals id=some l ∧ l.pagemap=pm ∧ virt∈l.span ∧ l.global=gid := by
  obtain ⟨id,hid,l,hcell,hcovers,hpm⟩ := hserves
  obtain ⟨id₀,hlocals,-,hglobal⟩ := hs.single gid g hg
  rw [hlocals,List.mem_singleton] at hid
  subst hid
  exact ⟨id,l,hcell,hpm,((hs.range id l hcell).1.covers_iff virt).mp hcovers,hglobal l hcell⟩

theorem Owned.fault (hs : Owned A N s T) {hit : RangeHit} {r₁ : Ram P} {page : Nat}
    (hf : addr2range s (s.pgm task) cr2=some (some hit)) (hg : s.globals hit.range.global=some g)
    (ht : s.tops (s.pgm task)=some top)
    (habs : ∀ p, pageAt M s.ram.mem top (cr2/pageSize*pageSize)≠some p)
    (hpage : faultPage A s hit g=some (page,r₁))
    (h : mmapPageInRange A (s.setRam r₁) g (cr2/pageSize*pageSize) page hit.range.prot=some (ok,s')) :
    ok=true ∧ ∃ T', Owned A N s' T' := by
  obtain ⟨hid,hl,hcov,-⟩ := findRange_some hf
  obtain ⟨hok,-,g',hg',hin⟩ := hs.range _ _ hl
  cases hg.symm.trans hg'
  obtain ⟨sh,shTop,hsh,hsht⟩ := hs.shadowTop _ g hg
  have hN := (hs.shadow_bounds hg hsh).1
  obtain ⟨htrue,hfault⟩ := hs.toPaged.fault hl hg hsh hpage h
  obtain ⟨T',hp'⟩ := hfault.paged
  obtain ⟨r',rfl⟩ : ∃ r', s'=s.setRam r' := ⟨_,hfault.ram⟩
  have hvirt := hok.page_mem ((hok.covers_iff cr2).mp hcov)
  have huser : UserPage (cr2/pageSize*pageSize) := ⟨Nat.mul_mod_left _ _,hs.window hl hvirt⟩
  generalize cr2/pageSize*pageSize=virt at *
  have hnew : Held (s.setRam r') hit.range.global virt (page/pageSize) :=
    ⟨⟨hit.id,hit.range,hl,rfl,(hs.range _ _ hl).2.1⟩,g,sh,shTop,hg,hin virt hvirt,huser.1,hsh,hsht,
      hfault.pageAt_mapped huser hsht (.inl rfl)⟩
  refine ⟨htrue,T',hs.setRam hp' ?_ ?_⟩
  · intro gid g₁ sh₁ t hg₁ hsh₁ ht₁ v p hv hp
    by_cases hc : v=virt ∧ sh₁=sh
    · obtain ⟨rfl,rfl⟩ := hc
      rw [hs.shadow gid g₁ _ g hg₁ hg (hsh₁.trans hsh.symm),
        ← Option.some.inj ((hfault.pageAt_mapped huser ht₁ (.inl rfl)).symm.trans hp)]
      exact hnew
    · have hN₁ := (hs.shadow_bounds hg₁ hsh₁).1
      have hp₁ := (hfault.pageAt_shadow hs.toPaged huser hN₁ ht₁ hv hc).symm.trans hp
      refine (hs.shadowed gid g₁ sh₁ t hg₁ hsh₁ ht₁ v p hv hp₁).setRam ?_
      intro g₂ sh₂ t₂ hg₂ hsh₂ ht₂ _
      cases hg₁.symm.trans hg₂
      cases hsh₁.symm.trans hsh₂
      cases ht₁.symm.trans ht₂
      exact hp
  · intro pm t hpm ht₁ v p hv hp
    by_cases hc : v=virt ∧ Serves s g.locals virt pm
    · obtain ⟨rfl,hserves⟩ := hc
      cases (hfault.pageAt_mapped huser ht₁ (.inr hserves)).symm.trans hp
      obtain ⟨id,l,hcell,hlpm,hvl,hlg⟩ := hs.serves_range hg hserves
      exact .inl ⟨id,l,hcell,hlpm,hvl,hlg ▸ hnew⟩
    · have hne : pm≠sh := by omega
      have hp₁ := (hfault.pageAt_same huser ht₁ hv
        (fun hcon => hc ⟨hcon.1,hcon.2.resolve_left hne⟩)).symm.trans hp
      obtain ⟨k,l,hcell,hlpm,hvl,hheld⟩ | hfor := hs.backed pm t hpm ht₁ v p hv hp₁
      · left
        refine ⟨k,l,hcell,hlpm,hvl,hheld.setRam ?_⟩
        intro g₁ sh₁ t₁ hg₁ hsh₁ ht₁' hp₂
        have hN₁ := (hs.shadow_bounds hg₁ hsh₁).1
        by_cases hc' : v=virt ∧ sh₁=sh
        · -- the page would be mapped for the thread, but the fault found it missing
          exfalso
          obtain ⟨rfl,rfl⟩ := hc'
          have hgl := hs.shadow _ g₁ _ g hg₁ hg (hsh₁.trans hsh.symm)
          have hpmeq := hs.same k l _ _ hcell hl hgl
          obtain ⟨l₁,hl₁,hpm₁⟩ := hs.listed _ _ hid
          cases hl.symm.trans hl₁
          rw [hlpm,hpm₁] at hpmeq
          subst hpmeq
          cases ht.symm.trans ht₁
          exact habs p hp₁
        · exact (hfault.pageAt_shadow hs.toPaged huser hN₁ ht₁' hv hc').trans hp₂
      · exact .inr (hfault.foreign hfor)

section
variable (hs : Owned A N s T) (hp : Paged A N (s.setRam r') T')
  (hused : ∀ i, A.inUse s.ram.pmm i → A.inUse r'.pmm i)
include hs hp hused

theorem Owned.lose (hshadow : ∀ sh top, N ≤ sh → s.tops sh=some top → ∀ v, UserPage v →
      pageAt M r'.mem top v=pageAt M s.ram.mem top v)
    (hprocess : ∀ pm top, s.tops pm=some top → ∀ v p, UserPage v →
      pageAt M r'.mem top v=some p → pageAt M s.ram.mem top v=some p) :
    Owned A N (s.setRam r') T' := by
  have hup : ∀ gid v p, UserPage v → Held s gid v p → Held (s.setRam r') gid v p := by
    intro gid v p hv hh
    apply hh.setRam
    intro g sh top hg hsh ht hpage
    rw [hshadow sh top (hs.shadow_bounds hg hsh).1 ht v hv]
    exact hpage
  have hdown : ∀ gid v p, Held (s.setRam r') gid v p → Held s gid v p := by
    intro gid v p hh
    obtain ⟨g,sh,top,hg,hv,hva,hsh,ht,hpage⟩ := hh.page
    exact ⟨hh.owner,g,sh,top,hg,hv,hva,hsh,ht,hprocess sh top ht v p ⟨hva,hh.lower hp⟩ hpage⟩
  refine hs.setRam hp ?_ ?_
  · intro gid g sh top hg hsh ht v p hv hpage
    have hold := hprocess sh top ht v p hv hpage
    exact hup gid v p hv (hs.shadowed gid g sh top hg hsh ht v p hv hold)
  · intro pm top hpm ht v p hv hpage
    have hold := hprocess pm top ht v p hv hpage
    obtain ⟨k,l,hl,hlpm,hvl,hh⟩ | hfor := hs.backed pm top hpm ht v p hv hold
    · exact .inl ⟨k,l,hl,hlpm,hvl,hup _ v p hv hh⟩
    · exact .inr ⟨hused p hfor.1,fun gid v' hh => hfor.2 gid v' (hdown gid v' p hh)⟩

theorem Owned.evolve (hsame : ∀ pm top, s.tops pm=some top → ∀ v, UserPage v →
      pageAt M r'.mem top v=pageAt M s.ram.mem top v) : Owned A N (s.setRam r') T' :=
  hs.lose hp hused (fun sh top _ => hsame sh top)
    (fun pm top ht v _ hv hpage => (hsame pm top ht v hv).symm.trans hpage)

end

theorem newRanges_mem {pm pm' k : Nat} (hne : pm≠s.nextPagemap) (hk : k∈newRanges s pm pm') :
    (pm'=pm ∧ k=s.nextLocal) ∨ k∈s.ranges pm' := by
  simp only [newRanges,update_apply,hne,if_false] at hk
  split at hk
  · rename_i heq
    rw [List.mem_append,List.mem_singleton] at hk
    exact hk.symm.imp (fun h => ⟨heq,h⟩) (fun h => heq ▸ h)
  · split at hk
    · cases hk
    · exact .inr hk

theorem mem_newRanges {pm pm' k : Nat} (hne : pm≠s.nextPagemap) (hne' : pm'≠s.nextPagemap)
    (hk : (pm'=pm ∧ k=s.nextLocal) ∨ k∈s.ranges pm') : k∈newRanges s pm pm' := by
  simp only [newRanges,update_apply,hne,hne',if_false]
  split
  · rename_i heq
    subst heq
    simpa [or_comm] using hk
  · rename_i hn
    exact hk.resolve_left (fun h => hn h.1)

theorem Owned.newRange_booked (hs : Owned A N s T) {pm length : Nat} (hpm : pm < N)
    (hw : UserWindow s.base length) (hlen : length%pageSize=0) (hpos : 0 < length)
    (hanon : flags &&& mapAnonymous≠0) :
    Booked N ((s.setRam r').addRange top (newRanges s pm)
      (newLocal s pm length prot flags offset) (newGlobal s length node offset)) := by
  have hprocess : ∀ pm' < N, pm'≠s.nextPagemap := by
    intro pm' hlt
    have := hs.processes
    omega
  refine ⟨?_,?_,?_,?_,?_,?_,?_⟩
  · intro pm' k hk
    obtain ⟨rfl,rfl⟩ | hk := newRanges_mem (hprocess pm hpm) hk
    · exact ⟨_,update_self _ _ _,rfl⟩
    · obtain ⟨l,hl,hlpm⟩ := hs.listed pm' k hk
      exact ⟨l,(update_of_ne (Nat.ne_of_lt (hs.live k l hl).2) _ _).trans hl,hlpm⟩
  · intro k l hl
    obtain ⟨rfl,rfl⟩ | ⟨-,hl⟩ := update_cases hl
    · exact ⟨mem_newRanges (hprocess pm hpm) (hprocess pm hpm) (.inl ⟨rfl,rfl⟩),Nat.lt_succ_self _⟩
    · exact ⟨mem_newRanges (hprocess pm hpm) (hprocess _ (hs.cell k l hl).1) (.inr (hs.live k l hl).1),
        Nat.lt_succ_of_lt (hs.live k l hl).2⟩
  · intro k l hl
    obtain ⟨-,rfl⟩ | ⟨-,hl⟩ := update_cases hl
    · rw [UserWindow] at hw
      refine ⟨⟨hw.1,hlen,hpos,?_⟩,hanon,_,update_self _ _ _,fun x hx => hx⟩
      simp only [newLocal]
      omega
    · obtain ⟨hok,hfl,g,hg,hin⟩ := hs.range k l hl
      exact ⟨hok,hfl,g,
        (update_of_ne (Nat.ne_of_lt (hs.object _ g hg).1) _ _).trans hg,hin⟩
  · intro k l k' l' h1 h2 heq
    obtain ⟨-,rfl⟩ | ⟨-,hold⟩ := update_cases h1
    all_goals obtain ⟨-,rfl⟩ | ⟨-,hold'⟩ := update_cases h2
    · rfl
    · exact absurd heq.symm (Nat.ne_of_lt (hs.cell k' l' hold').2)
    · exact absurd heq (Nat.ne_of_lt (hs.cell k l hold).2)
    · exact hs.same k l k' l' hold hold' heq
  · intro gid g hg
    obtain ⟨rfl,rfl⟩ | ⟨-,hg⟩ := update_cases hg
    · refine ⟨s.nextLocal,rfl,Nat.lt_succ_self _,?_⟩
      intro l hl
      obtain ⟨-,rfl⟩ | ⟨hn,-⟩ := update_cases hl
      · rfl
      · exact absurd rfl hn
    · obtain ⟨id,hids,hlt,hglobal⟩ := hs.single gid g hg
      refine ⟨id,hids,Nat.lt_succ_of_lt hlt,?_⟩
      intro l hl
      obtain ⟨heq,-⟩ | ⟨-,hl⟩ := update_cases hl
      · exact absurd heq (Nat.ne_of_lt hlt)
      · exact hglobal l hl
  · intro gid g hg
    obtain ⟨rfl,rfl⟩ | ⟨-,hg⟩ := update_cases hg
    · exact ⟨_,top,rfl,update_self _ _ _⟩
    · obtain ⟨sh,t,hsh,ht⟩ := hs.shadowTop gid g hg
      exact ⟨sh,t,hsh,(update_of_ne (Nat.ne_of_lt (hs.known sh t ht)) _ _).trans ht⟩
  · intro pm' t ht
    obtain ⟨rfl,-⟩ | ⟨-,ht⟩ := update_cases ht
    · exact .inr ⟨s.nextGlobal,_,update_self _ _ _,rfl⟩
    · refine (hs.kinds pm' t ht).imp id ?_
      intro hk
      obtain ⟨gid,g,hg,hsh⟩ := hk
      exact ⟨gid,g,(update_of_ne (Nat.ne_of_lt (hs.object gid g hg).1) _ _).trans hg,hsh⟩

theorem Owned.newRange (hs : Owned A N s T) {pm length : Nat} (hpm : pm < N)
    (hw : UserWindow s.base length) (hlen : length%pageSize=0) (hpos : 0 < length)
    (hanon : flags &&& mapAnonymous≠0) (h : newRange A s pm length prot flags node offset=some s') :
    ∃ T', Owned A N s' T' := by
  obtain ⟨top,r',T',hc,hp₁,rfl,hp'⟩ := hs.toPaged.newRange hpm hw h
  have hs₁ : Owned A N (s.setRam r') T' := by
    apply hs.evolve hp₁ hc.used
    exact fun pm' t ht v _ => pageAt_congr (hc.views _ (hs.top pm' t ht) rfl (word v))
  have hfresh : s.locals s.nextLocal=none := by
    cases hl : s.locals s.nextLocal with
    | none => rfl
    | some l => exact absurd (hs.live _ l hl).2 (Nat.lt_irrefl _)
  have hempty : ∀ v∈(⟨s.base,length⟩ : Span), pageAt M r'.mem top v=none := by
    intro v hv
    rw [UserWindow] at hw
    rw [Span.mem_mk] at hv
    exact hc.empty (by omega) (by omega)
  have hup : ∀ gid v p, Held (s.setRam r') gid v p → Held ((s.setRam r').addRange top
      (newRanges s pm) (newLocal s pm length prot flags offset) (newGlobal s length node offset))
      gid v p := fun _ _ _ hh => hh.addRange hp₁ hfresh
  refine ⟨T',hp',hs.newRange_booked hpm hw hlen hpos hanon,?_,?_⟩
  · intro gid g sh t hg hsh ht v p hv hpage
    obtain ⟨rfl,rfl⟩ | ⟨-,hg⟩ := update_cases hg
    · cases hsh
      obtain ⟨-,rfl⟩ | ⟨hn,-⟩ := update_cases ht
      · cases (hc.empty hv.2.1 hv.2.2).symm.trans hpage
      · exact absurd rfl hn
    · obtain ⟨heq,-⟩ | ⟨-,ht⟩ := update_cases ht
      · exact absurd heq (Nat.ne_of_lt (hs.shadow_bounds hg hsh).2)
      · exact hup gid v p (hs₁.shadowed gid g sh t hg hsh ht v p hv hpage)
  · intro pm' t hpm' ht v p hv hpage
    obtain ⟨heq,-⟩ | ⟨-,ht⟩ := update_cases ht
    · have := hs.processes
      have : pm'=s.nextPagemap := heq
      omega
    · obtain ⟨k,l,hl,hlpm,hvl,hh⟩ | hfor := hs₁.backed pm' t hpm' ht v p hv hpage
      · exact .inl ⟨k,l,(update_of_ne (Nat.ne_of_lt (hs.live k l hl).2) _ _).trans hl,hlpm,hvl,
          hup _ v p hh⟩
      · exact .inr ⟨hfor.1,fun gid v' hh => hfor.2 gid v' (Held.of_addRange hp₁ rfl rfl hempty hh)⟩

theorem Owned.unmapPages (hs : Owned A N s T) {pm stop n j : Nat} (hpm : pm < N)
    (ht : s.tops pm=some top) (h : unmapPages A top stop n j s.ram=some r') :
    Owned A N (s.setRam r') T ∧ (j%pageSize=0 → stop ≤ 2^47 → ∀ v p, UserPage v →
      pageAt M r'.mem top v=some p → v < j ∨ stop ≤ v) := by
  have hp' := hs.toPaged.unmapPages hpm ht h
  obtain ⟨e,hother,hself⟩ := unmapPages_spec hs.toRooted ht h
  refine ⟨hs.lose hp' e.used ?_ ?_,fun hj hst v p hv hpage => (hself v hv.2.2 p hpage).2 hj hst⟩
  · exact fun sh t hN ht' v hv => pageAt_congr (hother sh t ht' (by omega) v hv.2.2)
  · intro pm' t ht' v p hv hpage
    by_cases heq : pm'=pm
    · subst heq
      cases ht.symm.trans ht'
      exact (hself v hv.2.2 p hpage).1
    · exact (pageAt_congr (hother pm' t ht' heq v hv.2.2)).symm.trans hpage

section Carve

variable {pm i e k₀ : Nat} {hit : RangeHit} {l₀ : LocalRange} {Piece : Nat → LocalRange → Prop}

variable (hs : Owned A N s T)
include hs

theorem Owned.carve_kept (hc : Carved s s' pm hit i e Piece) {k : Nat} {l : LocalRange}
    (hne : k≠hit.id) (hl : s.locals k=some l) : s'.locals k=some l := by
  rw [hc.kept k hne (fun heq => absurd (hs.live k l hl).2 (by omega))]
  exact hl

theorem Owned.carve_like (hl : s.locals hit.id=some hit.range) (hc : Carved s s' pm hit i e Piece)
    (hp₀ : Piece k₀ l₀) {k : Nat} {l : LocalRange} (hk : s'.locals k=some l) :
    ∃ k₁ l₁, s.locals k₁=some l₁ ∧ RangeOk l ∧
      l.pagemap=l₁.pagemap ∧ l.global=l₁.global ∧ l.flags=l₁.flags ∧ ∀ x∈l.span, x∈l₁.span := by
  obtain hpiece | ⟨-,hold⟩ := hc.cell_cases hp₀ hk
  · obtain ⟨hok,hpm,hglobal,hflags⟩ := hc.like k l hpiece
    exact ⟨_,_,hl,hok,hpm,hglobal,hflags,fun x hx => (hc.within k l hpiece x hx).1⟩
  · exact ⟨k,l,hold,(hs.range k l hold).1,rfl,rfl,rfl,fun _ hx => hx⟩

theorem Owned.carve_booked (hl : s.locals hit.id=some hit.range) (hlpm : hit.range.pagemap=pm)
    (hc : Carved s s' pm hit i e Piece) (hp₀ : Piece k₀ l₀) (hglobals : s'.globals=s.globals)
    (htops : s'.tops=s.tops) : Booked N s' := by
  refine ⟨?_,?_,?_,?_,?_,?_,?_⟩
  · intro pm' k hk
    by_cases hpm : pm'=pm
    · subst hpm
      obtain ⟨hold,hne⟩ | ⟨l,hpiece⟩ := (hc.listed k).mp hk
      · obtain ⟨l,hl',hpm'⟩ := hs.listed _ k hold
        exact ⟨l,hs.carve_kept hc hne hl',hpm'⟩
      · exact ⟨l,hc.cell k l hpiece,(hc.like k l hpiece).2.1.trans hlpm⟩
    · rw [hc.others pm' hpm] at hk
      obtain ⟨l,hl',hpm'⟩ := hs.listed _ k hk
      refine ⟨l,hs.carve_kept hc ?_ hl',hpm'⟩
      rintro rfl
      cases hl.symm.trans hl'
      exact hpm (hpm'.symm.trans hlpm)
  · intro k l hk
    obtain hpiece | ⟨hne,hold⟩ := hc.cell_cases hp₀ hk
    · refine ⟨?_,?_⟩
      · rw [(hc.like k l hpiece).2.1,hlpm]
        exact (hc.listed k).mpr (.inr ⟨l,hpiece⟩)
      · have hnext := hc.next
        have hlive := (hs.live _ _ hl).2
        obtain rfl | ⟨rfl,hlt⟩ := hc.number k l hpiece
        · omega
        · exact hlt
    · obtain ⟨hmem,hlt⟩ := hs.live k l hold
      refine ⟨?_,Nat.lt_of_lt_of_le hlt hc.next⟩
      by_cases hpm : l.pagemap=pm
      · rw [hpm] at hmem ⊢
        exact (hc.listed k).mpr (.inl ⟨hmem,hne⟩)
      · rw [hc.others _ hpm]
        exact hmem
  · intro k l hk
    obtain ⟨k₁,l₁,hk₁,hok,-,hglobal,hflags,hspan⟩ := hs.carve_like hl hc hp₀ hk
    obtain ⟨-,hanon,g,hg,hin⟩ := hs.range k₁ l₁ hk₁
    rw [hflags,hglobal,hglobals]
    exact ⟨hok,hanon,g,hg,fun x hx => hin x (hspan x hx)⟩
  · intro k l k' l' hk hk' heq
    obtain ⟨k₁,l₁,hk₁,-,hpm,hglobal,-,-⟩ := hs.carve_like hl hc hp₀ hk
    obtain ⟨k₂,l₂,hk₂,-,hpm',hglobal',-,-⟩ := hs.carve_like hl hc hp₀ hk'
    rw [hpm,hpm']
    exact hs.same k₁ l₁ k₂ l₂ hk₁ hk₂ (hglobal ▸ hglobal' ▸ heq)
  · intro gid g hg
    rw [hglobals] at hg
    obtain ⟨id,hlocals,hid,hof⟩ := hs.single gid g hg
    refine ⟨id,hlocals,Nat.lt_of_lt_of_le hid hc.next,?_⟩
    intro l hk
    obtain hpiece | ⟨-,hold⟩ := hc.cell_cases hp₀ hk
    · obtain rfl | ⟨rfl,-⟩ := hc.number id l hpiece
      · rw [(hc.like _ l hpiece).2.2.1]
        exact hof _ hl
      · exact absurd hid (Nat.lt_irrefl _)
    · exact hof l hold
  · rw [hglobals,htops]
    exact hs.shadowTop
  · rw [hglobals,htops]
    exact hs.kinds

theorem Owned.carve (ht : s.tops pm=some top) (hl : s.locals hit.id=some hit.range)
    (hlpm : hit.range.pagemap=pm)
    (hgone : ∀ v p, UserPage v → pageAt M s.ram.mem top v=some p → v < i ∨ e ≤ v)
    (hc : Carved s s' pm hit i e Piece) (hp₀ : Piece k₀ l₀) (hram : s'.ram=s.ram) :
    Owned A N s' T := by
  obtain ⟨r,ranges,locals,n,hs'⟩ := hc.frame
  have hsub : s'={ s with ranges := s'.ranges, locals := s'.locals, nextLocal := s'.nextLocal } := by
    rw [hs'] at hram ⊢
    simp only at hram
    rw [hram]
  obtain ⟨lf,hlf⟩ := hc.first k₀ l₀ hp₀
  have hup : ∀ gid v p, Held s gid v p → Held s' gid v p := by
    intro gid v p hh
    rw [hsub]
    refine ⟨?_,hh.page⟩
    obtain ⟨k,l,hk,hgid,hfl⟩ := hh.owner
    by_cases hne : k=hit.id
    · subst hne
      cases hl.symm.trans hk
      obtain ⟨-,-,hglobal,hflags⟩ := hc.like _ _ hlf
      exact ⟨hit.id,lf,hc.cell _ _ hlf,hglobal ▸ hgid,hflags ▸ hfl⟩
    · exact ⟨k,l,hs.carve_kept hc hne hk,hgid,hfl⟩
  have hdown : ∀ gid v p, Held s' gid v p → Held s gid v p := by
    intro gid v p hh
    rw [hsub] at hh
    obtain ⟨k,l,hk,hgid,hfl⟩ := hh.owner
    obtain ⟨k₁,l₁,hk₁,-,-,hglobal,hflags,-⟩ := hs.carve_like hl hc hp₀ hk
    exact ⟨⟨k₁,l₁,hk₁,hglobal ▸ hgid,hflags ▸ hfl⟩,hh.page⟩
  have hp' : Paged A N s' T := by
    rw [hsub]
    apply hs.toPaged.recell
    intro k l hk
    obtain ⟨k₁,l₁,hk₁,-,hpm,hglobal,hflags,-⟩ := hs.carve_like hl hc hp₀ hk
    exact ⟨k₁,l₁,hk₁,hpm,hglobal,hflags⟩
  have hglobals : s'.globals=s.globals := by rw [hsub]
  have htops : s'.tops=s.tops := by rw [hsub]
  refine ⟨hp',hs.carve_booked hl hlpm hc hp₀ hglobals htops,?_,?_⟩
  · intro gid g sh t hg hsh ht' v p hv hpage
    rw [hglobals] at hg
    rw [htops] at ht'
    rw [hram] at hpage
    exact hup gid v p (hs.shadowed gid g sh t hg hsh ht' v p hv hpage)
  · intro pm' t hpm' ht' v p hv hpage
    rw [htops] at ht'
    rw [hram] at hpage
    obtain ⟨k,l,hk,hkpm,hvl,hh⟩ | hfor := hs.backed pm' t hpm' ht' v p hv hpage
    · by_cases hne : k=hit.id
      · subst hne
        cases hl.symm.trans hk
        cases hkpm.symm.trans hlpm
        cases ht.symm.trans ht'
        obtain ⟨k₁,l₁,hpiece,hv₁⟩ := hc.cover v hvl (hgone v p hv hpage)
        obtain ⟨-,hpm₁,hglobal,-⟩ := hc.like k₁ l₁ hpiece
        exact .inl ⟨k₁,l₁,hc.cell _ _ hpiece,hpm₁.trans hlpm,hv₁,hglobal ▸ hup _ v p hh⟩
      · exact .inl ⟨k,l,hs.carve_kept hc hne hk,hkpm,hvl,hup _ v p hh⟩
    · refine .inr ⟨?_,fun gid v' hh => hfor.2 gid v' (hdown gid v' p hh)⟩
      rw [hram]
      exact hfor.1

end Carve

/-- Some pagemap still translates an address inside a live range to the page. -/
def Dangling (A : PageAllocator M P) (s : MmapState M P) (phys : Nat) : Prop :=
  ∃ pm top v q, s.tops pm=some top ∧ (∃ pm', ∃ k∈s.ranges pm', ∃ l, s.locals k=some l ∧ v∈l.span) ∧
    vmmVirt2phys A s.ram top (word v)=some q ∧ q≠invalidPhys ∧ q.toNat/pageSize=phys/pageSize

theorem translate_pageAt {m : Mem} {v : Nat}
    (h : translate (pteFrom M m 3 top (word v)) (word v)≠invalidPhys) : pageAt M m top v=
      some ((translate (pteFrom M m 3 top (word v)) (word v)).toNat/pageSize) := by
  have hp : isPresent (pteFrom M m 3 top (word v))=true := by
    by_contra hn
    exact h (by rw [translate,if_neg hn])
  rw [pageAt,if_pos hp,translate,if_pos hp]
  have hmask : pteAddrMask.toNat=(2^40-1)*2^12 := by decide
  have hlow : (pteGetAddr (pteFrom M m 3 top (word v))).toNat%2^12=0 := by
    rw [pteGetAddr,BitVec.toNat_and,Nat.and_mod_two_pow,hmask,Nat.mul_mod_left,Nat.and_zero]
  have hle : (pteGetAddr (pteFrom M m 3 top (word v))).toNat ≤ pteAddrMask.toNat := by
    rw [pteGetAddr,BitVec.toNat_and]
    exact Nat.and_le_right
  have hoff : (word v%4096#64).toNat < 4096 := by
    rw [BitVec.toNat_umod]
    exact Nat.mod_lt _ (by decide)
  generalize pteGetAddr (pteFrom M m 3 top (word v))=a at hlow hle
  rw [BitVec.toNat_add,Nat.mod_eq_of_lt (by omega)]
  congr 1
  simp only [pageSize]
  omega

theorem dropRange_spec (hs : Owned A N s T) {pm id i e : Nat} {l : LocalRange}
    (hl : s.locals id=some l) (hg : s.globals l.global=some g)
    (h : dropRange A s pm id l g i e=some (ok,s',evs)) :
    ∃ sh shTop t, g.shadowPagemap=some sh ∧ s.tops sh=some shTop ∧
      Drained A N T sh (s.unlist pm id) t ∧
      s'={ t with locals := update t.locals id none } ∧
      (∀ v p, UserPage v → pageAt M t.ram.mem shTop v=some p → v < g.base ∨ g.base+g.length ≤ v) ∧
      ∀ ev∈evs, Released A N T l.global sh (s.unlist pm id) ev := by
  have hp' : Paged A N (s.unlist pm id) T := hs.toPaged.recell (Continues.refl s)
  obtain ⟨id₀,hlocals,-⟩ := hs.single _ g hg
  have hanon := (hs.range id l hl).2.1
  have hw := (hs.object _ g hg).2.1
  rw [UserWindow] at hw
  obtain ⟨-,⟨-,t,rfl,⟨-,shTop,htop,hfree⟩ | ⟨hfile,-⟩⟩ | ⟨hmany,-⟩⟩ := dropRange_eq_some h
  · obtain ⟨sh,hsh,ht⟩ := bind_eq_some_iff.mp htop
    rw [add64_eq (by omega)] at hfree
    obtain ⟨hdrained,hempty,hreleased⟩ := freeShadow_spec hp' hl hanon hg hsh ht hw.1 le_rfl hfree
    exact ⟨sh,shTop,t,hsh,ht,hdrained,rfl,fun v p hv hp => hempty v hv.2.2 p hp,hreleased⟩
  · exact absurd hfile hanon
  · rw [hlocals] at hmany
    exact absurd rfl hmany

theorem Drained.pageAt {sh pm v : Nat} (h : Drained A N T sh s s') (ht : s.tops pm=some top)
    (hne : pm≠sh) (hv : UserPage v) : pageAt M s'.ram.mem top v=pageAt M s.ram.mem top v :=
  pageAt_congr (h.same pm top ht hne v hv.2.2)

theorem update_none_iff {id k : Nat} {l : LocalRange} {locals : Nat → Option LocalRange} :
    update locals id none k=some l ↔ k≠id ∧ locals k=some l := by
  by_cases hne : k=id
  · simp [hne]
  · simp [hne]

theorem Owned.drop_booked (hs : Owned A N s T) {pm id : Nat} {l : LocalRange}
    (hl : s.locals id=some l) (hlpm : l.pagemap=pm) :
    Booked N { (s.unlist pm id).setRam r' with locals := update s.locals id none } := by
  refine ⟨?_,?_,?_,?_,?_,hs.shadowTop,hs.kinds⟩
  · intro pm' k hk
    by_cases hpm : pm'=pm
    · subst hpm
      have hk' : k∈(s.ranges pm').filter (fun k => k≠id) := by
        have := update_self pm' ((s.ranges pm').filter (fun k => k≠id)) s.ranges
        exact this ▸ hk
      rw [List.mem_filter] at hk'
      obtain ⟨l',hl',hpm'⟩ := hs.listed _ k hk'.1
      exact ⟨l',update_none_iff.mpr ⟨by simpa using hk'.2,hl'⟩,hpm'⟩
    · have hk' : k∈s.ranges pm' := by
        have := update_of_ne hpm ((s.ranges pm).filter (fun k => k≠id)) s.ranges
        exact this ▸ hk
      obtain ⟨l',hl',hpm'⟩ := hs.listed _ k hk'
      refine ⟨l',update_none_iff.mpr ⟨?_,hl'⟩,hpm'⟩
      rintro rfl
      cases hl.symm.trans hl'
      exact hpm (hpm'.symm.trans hlpm)
  · intro k l' hk
    obtain ⟨hne,hold⟩ := update_none_iff.mp hk
    obtain ⟨hmem,hlt⟩ := hs.live k l' hold
    refine ⟨?_,hlt⟩
    show k∈update s.ranges pm ((s.ranges pm).filter (fun k => k≠id)) l'.pagemap
    by_cases hpm : l'.pagemap=pm
    · rw [hpm,update_self,List.mem_filter]
      exact ⟨hpm ▸ hmem,by simpa using hne⟩
    · rw [update_of_ne hpm]
      exact hmem
  · intro k l' hk
    exact hs.range k l' (update_none_iff.mp hk).2
  · intro k l₁ k' l₂ hk hk'
    exact hs.same k l₁ k' l₂ (update_none_iff.mp hk).2 (update_none_iff.mp hk').2
  · intro gid g' hg'
    obtain ⟨id',hlocals,hid,hof⟩ := hs.single gid g' hg'
    exact ⟨id',hlocals,hid,fun l' hk => hof l' (update_none_iff.mp hk).2⟩

theorem Owned.drop (hs : Owned A N s T) {pm id i e : Nat} {l : LocalRange} (hl : s.locals id=some l)
    (hlpm : l.pagemap=pm) (ht : s.tops pm=some top) (hg : s.globals l.global=some g)
    (hgone : ∀ v p, UserPage v → Memory.pageAt M s.ram.mem top v=some p → v∉l.span)
    (halone : ∀ k l', s.locals k=some l' → k≠id → l'.global≠l.global)
    (h : dropRange A s pm id l g i e=some (ok,s',evs)) : Owned A N s' T := by
  have hp' := hs.toPaged.dropRange hl hg h
  obtain ⟨sh,shTop,t,hsh,hshTop,hd,rfl,hempty,-⟩ := dropRange_spec hs hl hg h
  obtain ⟨r,rfl⟩ : ∃ r, t=(s.unlist pm id).setRam r := ⟨_,hd.ram⟩
  have hshadow : ∀ gid g' sh', s.globals gid=some g' → g'.shadowPagemap=some sh' → gid≠l.global →
      sh'≠sh := by
    intro gid g' sh' hg' hsh' hne heq
    exact hne (hs.shadow gid g' _ g hg' hg (hsh'.trans (heq ▸ hsh.symm)))
  have hup : ∀ gid v p, gid≠l.global → UserPage v → Held s gid v p →
      Held { (s.unlist pm id).setRam r with locals := update s.locals id none } gid v p := by
    intro gid v p hne hv hh
    obtain ⟨k,l',hk,hgid,hfl⟩ := hh.owner
    obtain ⟨g',sh',top',hg',hin,ha,hsh',ht',hpage⟩ := hh.page
    refine ⟨⟨k,l',update_none_iff.mpr ⟨?_,hk⟩,hgid,hfl⟩,g',sh',top',hg',hin,ha,hsh',ht',?_⟩
    · rintro rfl
      cases hl.symm.trans hk
      exact hne hgid.symm
    · exact (hd.pageAt ht' (hshadow gid g' sh' hg' hsh' hne) hv).trans hpage
  have hdown : ∀ gid v p, Held { (s.unlist pm id).setRam r with
      locals := update s.locals id none } gid v p → Held s gid v p := by
    intro gid v p hh
    obtain ⟨k,l',hk,hgid,hfl⟩ := hh.owner
    have hmid : Held ((s.unlist pm id).setRam r) gid v p :=
      ⟨⟨k,l',(update_none_iff.mp hk).2,hgid,hfl⟩,hh.page⟩
    have hold := hd.held (hs.toPaged.recell (Continues.refl s)) hmid
    exact ⟨hold.owner,hold.page⟩
  refine ⟨hp',hs.drop_booked hl hlpm,?_,?_⟩
  · intro gid g' sh' top' hg' hsh' ht' v p hv hpage
    by_cases hne : gid=l.global
    · subst hne
      cases hg.symm.trans hg'
      cases hsh.symm.trans hsh'
      cases hshTop.symm.trans ht'
      have hh := hs.shadowed _ g sh shTop hg hsh hshTop v p hv (hd.less shTop hshTop v hv.2.2 p hpage)
      obtain ⟨g₁,-,-,hg₁,hin,-⟩ := hh.page
      cases hg.symm.trans hg₁
      rw [Span.mem_mk] at hin
      have := hempty v p hv hpage
      omega
    · refine hup gid v p hne hv (hs.shadowed gid g' sh' top' hg' hsh' ht' v p hv ?_)
      exact (hd.pageAt ht' (hshadow gid g' sh' hg' hsh' hne) hv).symm.trans hpage
  · intro pm' top' hpm' ht' v p hv hpage
    have hN := (hs.shadow_bounds hg hsh).1
    have hold := (hd.pageAt ht' (by omega) hv).symm.trans hpage
    obtain ⟨k,l',hk,hkpm,hvl,hh⟩ | hfor := hs.backed pm' top' hpm' ht' v p hv hold
    · have hne : k≠id := by
        rintro rfl
        cases hl.symm.trans hk
        cases hkpm.symm.trans hlpm
        cases ht.symm.trans ht'
        exact hgone v p hv hold hvl
      exact .inl ⟨k,l',update_none_iff.mpr ⟨hne,hk⟩,hkpm,hvl,hup _ v p (halone k l' hk hne) hv hh⟩
    · refine .inr ⟨hd.kept p hfor.1 ?_,fun gid v' hh => hfor.2 gid v' (hdown gid v' p hh)⟩
      intro gid v' hh
      exact hfor.2 gid v' ⟨hh.owner,hh.page⟩

theorem Owned.drop_events (hs : Owned A N s T) {pm id i e : Nat} {l : LocalRange}
    (hl : s.locals id=some l) (hlpm : l.pagemap=pm) (ht : s.tops pm=some top)
    (hg : s.globals l.global=some g)
    (hgone : ∀ v p, UserPage v → Memory.pageAt M s.ram.mem top v=some p → v∉l.span)
    (halone : ∀ k l', s.locals k=some l' → k≠id → l'.global≠l.global)
    (h : dropRange A s pm id l g i e=some (ok,s',evs)) :
    ∀ ev∈evs, ¬Dangling A ev.state ev.phys := by
  obtain ⟨sh,shTop,t,hsh,hshTop,-,-,-,hreleased⟩ := dropRange_spec hs hl hg h
  rintro ev hev ⟨pm',top',v,q,ht',⟨pm₁,k,hk,l',hl',hv⟩,hq,hvalid,hphys⟩
  obtain ⟨hd,⟨v₁,hbefore⟩,hafter⟩ := hreleased ev hev
  have hpaged := hd.paged
  generalize ev.state=u at *
  obtain ⟨r,rfl⟩ : ∃ r, u=(s.unlist pm id).setRam r := ⟨_,hd.ram⟩
  have huser : UserPage (v/pageSize*pageSize) ∧ v < 2^47 := by
    have hb := hs.window hl' ((hs.range k l' hl').1.page_mem hv)
    exact ⟨⟨Nat.mul_mod_left _ _,hb⟩,(hs.window hl' hv).2⟩
  rw [hpaged.toRooted.virt2phys ht' v,Option.some.injEq] at hq
  subst hq
  have hpage := translate_pageAt hvalid
  rw [hphys,pageAt_key huser.2 huser.1.2.2 (Nat.mul_div_cancel _ (by decide)).symm] at hpage
  have hv' := huser.1
  generalize v/pageSize*pageSize=w at hpage hv'
  obtain hN' | ⟨gid,g',hg',hsh'⟩ := hs.kinds pm' top' ht'
  · have hN := (hs.shadow_bounds hg hsh).1
    have hold := (hd.pageAt ht' (by omega) hv').symm.trans hpage
    obtain ⟨k₁,l₁,hk₁,hkpm,hvl,hh⟩ | hfor := hs.backed pm' top' hN' ht' w _ hv' hold
    · have hsame := (hs.own _ _ _ _ _ hh ⟨hbefore.owner,hbefore.page⟩).1
      have hid : k₁=id := by
        by_contra hne
        exact halone k₁ l₁ hk₁ hne hsame
      subst hid
      cases hl.symm.trans hk₁
      cases hkpm.symm.trans hlpm
      cases ht.symm.trans ht'
      exact hgone w _ hv' hold hvl
    · exact hfor.2 _ _ ⟨hbefore.owner,hbefore.page⟩
  · have hold : Memory.pageAt M s.ram.mem top' w=some (ev.phys/pageSize) := by
      by_cases hne : pm'=sh
      · subst hne
        exact hd.less top' ht' w hv'.2.2 _ hpage
      · exact (hd.pageAt ht' hne hv').symm.trans hpage
    have hh := hs.shadowed gid g' pm' top' hg' hsh' ht' w _ hv' hold
    obtain ⟨g₁,sh₁,top₁,hg₁,hin,ha,hsh₁,ht₁,-⟩ := hh.page
    cases hg'.symm.trans hg₁
    cases hsh'.symm.trans hsh₁
    cases ht'.symm.trans ht₁
    exact hafter gid w ⟨hh.owner,g',pm',top',hg',hin,ha,hsh',ht',hpage⟩

theorem Owned.snip (hs : Owned A N s T) {pm i e : Nat} {hit : RangeHit} (hpm : pm < N)
    (hid : hit.id∈s.ranges pm) (hl : s.locals hit.id=some hit.range) (hia : i%pageSize=0)
    (hea : e%pageSize=0) (hi : i∈hit.range.span) (hie : i < e)
    (he : e ≤ hit.range.base+hit.range.length)
    (halone : hit.range.base=i → e=hit.range.base+hit.range.length →
      ∀ k l', s.locals k=some l' → k≠hit.id → l'.global≠hit.range.global)
    (h : snip A s pm hit i e=some (ok,s',evs)) :
    Owned A N s' T ∧ (∀ ev∈evs, ¬Dangling A ev.state ev.phys) ∧
      ∃ Piece, Carved s s' pm hit i e Piece := by
  have hok := (hs.range _ _ hl).1
  have hlpm : hit.range.pagemap=pm := by
    obtain ⟨l',hl',hpm'⟩ := hs.listed pm _ hid
    cases hl.symm.trans hl'
    exact hpm'
  obtain ⟨-,⟨Piece,hc⟩,g,top,r,hg,ht,hr,hcase⟩ :=
    snip_carved hid (Nat.ne_of_gt (hs.live _ _ hl).2) hok hia hea hi hie he h
  obtain ⟨hs₁,hgone⟩ := hs.unmapPages hpm ht hr
  have he47 : e ≤ 2^47 := Nat.le_trans he (hs.stop_le hl)
  have hgone' : ∀ v p, UserPage v → Memory.pageAt M r.mem top v=some p → v < i ∨ e ≤ v := hgone hia he47
  obtain ⟨hpart,hram,rfl⟩ | ⟨hb,hstop,hdrop⟩ := hcase
  · obtain ⟨k₀,l₀,hp₀⟩ : ∃ k l, Piece k l := by
      obtain hlt | hlt := hpart
      · obtain ⟨k,l,hp,-⟩ := hc.cover hit.range.base
          (by simp only [LocalRange.span,Span.mem_mk] at hi ⊢; omega) (.inl hlt)
        exact ⟨k,l,hp⟩
      · obtain ⟨k,l,hp,-⟩ := hc.cover e
          (by simp only [LocalRange.span,Span.mem_mk] at hi ⊢; omega) (.inr le_rfl)
        exact ⟨k,l,hp⟩
    exact ⟨hs₁.carve ht hl hlpm hgone' hc.setRam hp₀ hram,fun _ hev => absurd hev List.not_mem_nil,
      Piece,hc⟩
  · have hspan : ∀ v p, UserPage v → Memory.pageAt M r.mem top v=some p → v∉hit.range.span := by
      intro v p hv hp hmem
      have := hgone' v p hv hp
      simp only [LocalRange.span,Span.mem_mk] at hmem
      omega
    have hal := halone hb hstop
    exact ⟨hs₁.drop hl hlpm ht hg hspan hal hdrop,hs₁.drop_events hl hlpm ht hg hspan hal hdrop,
      Piece,hc⟩

/-- A range that the window holds whole is the only range of its global range. -/
def Alone (s : MmapState M P) (pm addr limit : Nat) : Prop :=
  ∀ k∈s.ranges pm, ∀ l, s.locals k=some l → addr ≤ l.base → l.base+l.length ≤ limit →
    ∀ k'∈s.ranges pm, k'≠k → ∀ l', s.locals k'=some l' → l'.global≠l.global

/-- How far a munmap has come: behind page i a range is as it was, or what is
left of one that is no longer as it was. -/
structure Progress (A : PageAllocator M P) (N : Nat) (T : List Table) (s₀ s : MmapState M P)
    (addr limit i : Nat) : Prop where
  owned : Owned A N s T
  aligned : i%pageSize=0
  started : addr ≤ i
  next : s₀.nextLocal ≤ s.nextLocal
  origin : ∀ k l, s.locals k=some l → s₀.locals k=some l ∨
    ((∀ x∈l.span, x < i ∨ limit ≤ x) ∧
      ∃ k₀ l₀, s₀.locals k₀=some l₀ ∧ l.global=l₀.global ∧ s.locals k₀≠some l₀)

theorem Progress.skip {i : Nat} (h : Progress A N T s₀ s addr limit i) :
    Progress A N T s₀ s addr limit (i+pageSize) := by
  refine ⟨h.owned,?_,Nat.le_add_right_of_le h.started,h.next,?_⟩
  · rw [Nat.add_mod_right]
    exact h.aligned
  · intro k l hl
    obtain hold | ⟨hx,hpart⟩ := h.origin k l hl
    · exact .inl hold
    · exact .inr ⟨fun x hm => (hx x hm).imp_left (Nat.lt_add_right _),hpart⟩

theorem Progress.original {i k : Nat} {l : LocalRange} (h : Progress A N T s₀ s addr limit i)
    (hl : s.locals k=some l) (hi : i∈l.span) (hlim : i < limit) : s₀.locals k=some l := by
  obtain hold | ⟨hx,-⟩ := h.origin k l hl
  · exact hold
  · have := hx i hi
    omega

/-- So it may go whole: the rest of its global range is gone already. -/
theorem Progress.alone {pm i : Nat} {hit : RangeHit} (h : Progress A N T s₀ s addr limit i)
    (hs₀ : Owned A N s₀ T) (halone : Alone s₀ pm addr limit) (hid : hit.id∈s₀.ranges pm)
    (hl : s.locals hit.id=some hit.range) (hl₀ : s₀.locals hit.id=some hit.range)
    (hb : addr ≤ hit.range.base) (he : hit.range.base+hit.range.length ≤ limit) :
    ∀ k l', s.locals k=some l' → k≠hit.id → l'.global≠hit.range.global := by
  intro k l' hk hne
  have hone : ∀ k₀ l₀, s₀.locals k₀=some l₀ → k₀≠hit.id → l₀.global≠hit.range.global := by
    intro k₀ l₀ hk₀ hne₀ heq
    obtain ⟨l₁,hl₁,hpm⟩ := hs₀.listed pm _ hid
    cases hl₀.symm.trans hl₁
    have hmem := (hs₀.live k₀ l₀ hk₀).1
    rw [hs₀.same k₀ l₀ _ _ hk₀ hl₀ heq,hpm] at hmem
    exact halone _ hid _ hl₀ hb he k₀ hmem hne₀ l₀ hk₀ heq
  obtain hold | ⟨-,k₀,l₀,hk₀,hglobal,hchanged⟩ := h.origin k l' hk
  · exact hone k l' hold hne
  · rw [hglobal]
    apply hone k₀ l₀ hk₀
    rintro rfl
    cases hl₀.symm.trans hk₀
    exact hchanged hl

theorem Owned.carved_cases {pm i e k : Nat} {hit : RangeHit} {l : LocalRange}
    {Piece : Nat → LocalRange → Prop} (hs : Owned A N s T) (hs' : Owned A N s' T)
    (hid : hit.id∈s.ranges pm) (hc : Carved s s' pm hit i e Piece) (hk : s'.locals k=some l) :
    Piece k l ∨ (k≠hit.id ∧ s.locals k=some l) := by
  have hmem := (hs'.live k l hk).1
  have hkept : ∀ pm', k∈s.ranges pm' → k≠hit.id → s.locals k=some l := by
    intro pm' hold hne
    obtain ⟨l₁,hl₁,-⟩ := hs.listed pm' k hold
    have hlt := (hs.live k l₁ hl₁).2
    rw [← hc.kept k hne (fun heq => absurd heq (Nat.ne_of_lt hlt))]
    exact hk
  by_cases hpm : l.pagemap=pm
  · rw [hpm] at hmem
    obtain ⟨hold,hne⟩ | ⟨l₁,hpiece⟩ := (hc.listed k).mp hmem
    · exact .inr ⟨hne,hkept pm hold hne⟩
    · cases (hc.cell k l₁ hpiece).symm.trans hk
      exact .inl hpiece
  · rw [hc.others _ hpm] at hmem
    have hne : k≠hit.id := by
      rintro rfl
      obtain ⟨l₁,hl₁,hpm₁⟩ := hs.listed _ _ hmem
      obtain ⟨l₂,hl₂,hpm₂⟩ := hs.listed _ _ hid
      cases hl₁.symm.trans hl₂
      exact hpm (hpm₁.symm.trans hpm₂)
    exact .inr ⟨hne,hkept _ hmem hne⟩

theorem Progress.snip {pm i e : Nat} {hit : RangeHit} {Piece : Nat → LocalRange → Prop}
    (h : Progress A N T s₀ s addr limit i) (hs₀ : Owned A N s₀ T) (hs' : Owned A N s' T)
    (hid : hit.id∈s.ranges pm) (hl : s.locals hit.id=some hit.range) (hi : i∈hit.range.span)
    (hlim : i < limit) (hea : e%pageSize=0) (hie : i < e)
    (he : e=min (hit.range.base+hit.range.length) limit) (hc : Carved s s' pm hit i e Piece) :
    Progress A N T s₀ s' addr limit (e+pageSize) := by
  have hl₀ := h.original hl hi hlim
  have hcells := fun k l => h.owned.carved_cases (k := k) (l := l) hs' hid hc
  have hchanged : s'.locals hit.id≠some hit.range := by
    intro hsame
    obtain hpiece | ⟨hne,-⟩ := hcells _ _ hsame
    · have := (hc.within _ _ hpiece i hi).2
      omega
    · exact hne rfl
  refine ⟨hs',?_,?_,Nat.le_trans h.next hc.next,?_⟩
  · rw [Nat.add_mod_right]
    exact hea
  · have := h.started
    omega
  · intro k l hk
    obtain hpiece | ⟨hne,hold⟩ := hcells k l hk
    · refine .inr ⟨?_,hit.id,hit.range,hl₀,(hc.like k l hpiece).2.2.1,hchanged⟩
      intro x hx
      obtain ⟨hin,hout⟩ := hc.within k l hpiece x hx
      simp only [LocalRange.span,Span.mem_mk] at hin
      omega
    · obtain horig | ⟨hx,k₀,l₀,hk₀,hglobal,hch⟩ := h.origin k l hold
      · exact .inl horig
      · refine .inr ⟨?_,k₀,l₀,hk₀,hglobal,?_⟩
        · intro x hm
          have := hx x hm
          omega
        · intro hsame
          obtain hpiece | ⟨-,hold₀⟩ := hcells k₀ l₀ hsame
          · obtain rfl | ⟨rfl,-⟩ := hc.number k₀ l₀ hpiece
            · cases hl₀.symm.trans hk₀
              exact hchanged hsame
            · have := (hs₀.live _ _ hk₀).2
              have := h.next
              omega
          · exact hch hold₀

theorem Owned.munmap (hs : Owned A N s T) {pm length : Nat} (hpm : pm < N) (ha : addr%pageSize=0)
    (halone : Alone s pm addr (add64 addr (alignUp length pageSize)))
    (h : munmap A s pm addr length=some (ok,s',evs)) :
    Owned A N s' T ∧ ∀ ev∈evs, ¬Dangling A ev.state ev.phys := by
  rw [Memory.munmap] at h
  split at h
  · cases h
    exact ⟨hs,fun _ hev => absurd hev List.not_mem_nil⟩
  · have hlim := add64_aligned ha (alignUp_aligned length)
    have hl64 : add64 addr (alignUp length pageSize) < 2^64 := Nat.mod_lt _ (by decide)
    generalize add64 addr (alignUp length pageSize)=limit at *
    have hrule := munmapLoop_rule (fun i t => Progress A N T s t addr limit i)
      (fun ev => ¬Dangling A ev.state ev.phys) ?_ ?_
      ⟨hs,ha,le_rfl,le_rfl,fun _ _ hl => .inl hl⟩ h
    · obtain ⟨-,⟨j,-,hp⟩,hev⟩ := hrule
      exact ⟨hp.owned,hev⟩
    · intro i t hp hlt _
      have hi := hp.aligned
      rw [add64_eq (by simp only [pageSize] at *; omega)]
      exact hp.skip
    · intro i t hit e ok₁ t' evs₁ hp hlt hf hstop hsnip
      obtain ⟨hid,hl,hcov,-⟩ := findRange_some hf
      have hok := (hp.owned.range _ _ hl).1
      have hmem := (hok.covers_iff i).mp hcov
      have hi := hp.aligned
      have hw := hok.wraps
      have hst : (hit.range.base+hit.range.length)%pageSize=0 := by
        rw [Nat.add_mod,hok.base,hok.length,Nat.zero_mod]
      have hin : hit.range.base ≤ i ∧ i < hit.range.base+hit.range.length := by
        simpa only [LocalRange.span,Span.mem_mk] using hmem
      rw [hok.stop_eq] at hstop
      have he := snipStop_eq hi hst hlim hin.2 hlt hw hstop
      have hea : e%pageSize=0 := by
        rw [he]
        obtain hle | hle := Nat.le_total (hit.range.base+hit.range.length) limit
        · rw [Nat.min_eq_left hle,hst]
        · rw [Nat.min_eq_right hle,hlim]
      have hl₀ := hp.original hl hmem hlt
      have hid₀ : hit.id∈s.ranges pm := by
        obtain ⟨l₁,hl₁,hpm₁⟩ := hp.owned.listed pm _ hid
        cases hl.symm.trans hl₁
        exact hpm₁ ▸ (hs.live _ _ hl₀).1
      have hal : hit.range.base=i → e=hit.range.base+hit.range.length →
          ∀ k l', t.locals k=some l' → k≠hit.id → l'.global≠hit.range.global := by
        intro hb hee
        have hst := hp.started
        exact hp.alone hs halone hid₀ hl hl₀ (by omega) (by omega)
      obtain ⟨hs',hev,Piece,hc⟩ := hp.owned.snip hpm hid hl hi hea hmem (by omega) (by omega) hal hsnip
      refine ⟨(snip_munmapped hsnip).1,?_,hev⟩
      have htop := hp.owned.stop_le hl
      rw [add64_eq (by simp only [pageSize]; omega)]
      exact hp.snip hs hs' hid hl hmem hlt hea (by omega) he hc

/-- mmap of anonymous memory on user pages, and no munmap, MAP_FIXED included,
that takes a range while another part of its global range lives. -/
def WholeRanges (s : MmapState M P) : MmapCall M → Prop
  | .mmap task addr length _ flags _ _ =>
    flags &&& mapAnonymous≠0 ∧ 0 < alignUp length pageSize ∧
      UserWindow (mmapBase s task flags) (alignUp length pageSize) ∧
      (flags &&& mapFixed≠0 → addr%pageSize=0 ∧
        Alone s (s.pgm task) addr (add64 addr (alignUp length pageSize)))
  | .munmap task addr length =>
    addr%pageSize=0 ∧ Alone s (s.pgm task) addr (add64 addr (alignUp length pageSize))
  | .fault .. => True

theorem Owned.setBase (hs : Owned A N s T) (base : Nat) (anonBase : Nat → Nat) :
    Owned A N { s with base := base, anonBase := anonBase } T := by
  have hup : ∀ gid v p, Held s gid v p → Held { s with base := base, anonBase := anonBase } gid v p :=
    fun _ _ _ hh => ⟨hh.owner,hh.page⟩
  have hdown : ∀ gid v p, Held { s with base := base, anonBase := anonBase } gid v p → Held s gid v p :=
    fun _ _ _ hh => ⟨hh.owner,hh.page⟩
  refine ⟨⟨⟨hs.forest,hs.full,hs.krnl,hs.top,hs.inj⟩,hs.processes,hs.threads,hs.known,hs.cell,
    hs.object,hs.shadow,hs.flags,fun gid v p h => hs.used gid v p (hdown _ _ _ h),
    fun gid v gid' v' p h h' => hs.own gid v gid' v' p (hdown _ _ _ h) (hdown _ _ _ h')⟩,
    ⟨hs.listed,hs.live,hs.range,hs.same,hs.single,hs.shadowTop,hs.kinds⟩,?_,?_⟩
  · exact fun gid g sh top hg hsh ht v p hv hp => hup _ _ _ (hs.shadowed gid g sh top hg hsh ht v p hv hp)
  · intro pm top hpm ht v p hv hp
    obtain ⟨k,l,hl,hlpm,hvl,hh⟩ | hfor := hs.backed pm top hpm ht v p hv hp
    · exact .inl ⟨k,l,hl,hlpm,hvl,hup _ _ _ hh⟩
    · exact .inr ⟨hfor.1,fun gid v' hh => hfor.2 gid v' (hdown _ _ _ hh)⟩

theorem Owned.mmap (hs : Owned A N s T) {length ret : Nat}
    (hc : WholeRanges s (.mmap task addr length prot flags node offset))
    (h : mmap A s task none addr length prot flags node offset=some (ret,s',evs)) :
    (∃ T', Owned A N s' T') ∧ ∀ ev∈evs, ¬Dangling A ev.state ev.phys := by
  obtain ⟨hanon,hpos,hw,hfixed⟩ := hc
  have hpm := hs.threads task
  have hlen := alignUp_aligned length
  unfold Memory.mmap at h
  dsimp only at h
  rw [Option.getD_none] at h
  by_cases hfix : flags &&& mapFixed≠0
  · rw [if_pos hfix] at h
    rw [mmapBase,if_pos hfix] at hw
    obtain ⟨ha,halone⟩ := hfixed hfix
    rw [← alignUp_idem] at halone
    obtain ⟨⟨ok,t,evs₁⟩,hm,h⟩ := bind_eq_some_iff.mp h
    obtain ⟨hs₁,hev⟩ := hs.munmap hpm ha halone hm
    dsimp only at h
    split at h
    · cases h
      exact ⟨⟨T,hs₁⟩,hev⟩
    · obtain ⟨s₁,hn,he⟩ := map_eq_some_iff.mp h
      cases he
      obtain ⟨r,ranges,locals,n,rfl⟩ := munmap_munmapped hm
      exact ⟨hs₁.newRange hpm hw hlen hpos hanon hn,hev⟩
  · rw [if_neg hfix] at h
    rw [mmapBase,if_neg hfix] at hw
    obtain ⟨s₁,hn,he⟩ := map_eq_some_iff.mp h
    cases he
    exact ⟨(hs.setBase _ _).newRange hpm hw hlen hpos hanon hn,fun _ hev => absurd hev List.not_mem_nil⟩

theorem Owned.mmapPf (hs : Owned A N s T) {err rip : Nat} (hcode : FaultCode A s task cr2 err)
    (h : mmapPf A s task cr2 err rip=some (ok,s')) : ∃ T', Owned A N s' T' := by
  obtain ⟨-,rfl⟩ | ⟨herr,hit,g,page,r₁,hf,hg,hpage,⟨-,-,rfl⟩ | ⟨-,hm⟩⟩ := mmapPf_cases h
  · exact ⟨T,hs⟩
  · obtain ⟨e,-,-,hsame⟩ := faultPage_evolved hs.toRooted hpage
    refine ⟨T,hs.evolve ?_ e.used ?_⟩
    · refine hs.toPaged.evolve e 0 0 (fun gid v p hh => .inl (Held.of_shadow hs.toPaged ?_ hh))
      intro sh' top _ ht v _ p hpg
      rw [← pageAt_congr (hsame sh' top ht (word v))]
      exact hpg
    · exact fun pm top ht v _ => pageAt_congr (hsame pm top ht (word v))
  · obtain ⟨-,hl,hcov,-⟩ := findRange_some hf
    obtain ⟨top,ht,habs⟩ := bind_eq_some_iff.mp (hcode.resolve_left herr)
    refine (hs.fault hf hg ht ?_ hpage hm).2
    intro p hp
    have hcr2 := (hs.window hl (((hs.range _ _ hl).1.covers_iff cr2).mp hcov)).2
    have hle : cr2/pageSize*pageSize ≤ cr2 := Nat.div_mul_le_self _ _
    rw [pageAt_key (by omega) hcr2 (Nat.mul_div_cancel _ (by decide))] at hp
    rw [hs.toRooted.virt2phys ht cr2] at habs
    exact translate_valid (isPresent_of_pageAt hp) (Option.some.inj habs)

theorem Owned.call (hs : Owned A N s T) {c : MmapCall M} (hc : WholeRanges s c)
    (h : mmapCall A s c=some (s',evs)) :
    (∃ T', Owned A N s' T') ∧ ∀ ev∈evs, ¬Dangling A ev.state ev.phys := by
  cases c with
  | mmap task addr length prot flags node offset =>
    obtain ⟨⟨ret,t',evs'⟩,hm,he⟩ := map_eq_some_iff.mp h
    cases he
    exact hs.mmap hc hm
  | munmap task addr length =>
    obtain ⟨⟨ok,t',evs'⟩,hm,he⟩ := map_eq_some_iff.mp h
    cases he
    obtain ⟨hs',hev⟩ := hs.munmap (hs.threads task) hc.1 hc.2 hm
    exact ⟨⟨T,hs'⟩,hev⟩
  | fault task cr2 err rip =>
    obtain ⟨hcode,hpf⟩ := Option.ite_none_right_eq_some.mp h
    obtain ⟨⟨ok,t'⟩,hm,he⟩ := map_eq_some_iff.mp hpf
    cases he
    exact ⟨hs.mmapPf hcode hm,fun _ hev => absurd hev List.not_mem_nil⟩

/-- Processes before their first mmap, every user page they have in use. -/
structure Started (A : PageAllocator M P) (s : MmapState M P) (T : List Table) : Prop
    extends Booted A s T where
  ranges : ∀ pm, s.ranges pm=[]
  pages : ∀ pm top, s.tops pm=some top → ∀ v p, UserPage v → pageAt M s.ram.mem top v=some p →
    A.inUse s.ram.pmm p

theorem Started.owned (h : Started A s T) : Owned A s.nextPagemap s T := by
  refine ⟨h.toBooted.paged,⟨?_,?_,?_,?_,?_,?_,?_⟩,?_,?_⟩
  · intro pm k hk
    rw [h.ranges] at hk
    cases hk
  · intro k l hl
    rw [h.locals] at hl
    cases hl
  · intro k l hl
    rw [h.locals] at hl
    cases hl
  · intro k l _ _ hl
    rw [h.locals] at hl
    cases hl
  · intro gid g hg
    rw [h.globals] at hg
    cases hg
  · intro gid g hg
    rw [h.globals] at hg
    cases hg
  · exact fun pm top ht => .inl (h.known pm top ht)
  · intro gid g sh top hg
    rw [h.globals] at hg
    cases hg
  · intro pm top _ ht v p hv hp
    refine .inr ⟨h.pages pm top ht v p hv hp,?_⟩
    intro gid v' hh
    obtain ⟨k,l,hl,-⟩ := hh.owner
    rw [h.locals] at hl
    cases hl

/-- In a run in which no munmap takes a whole range while another part of its
global range lives, no page is given back to the page allocator while some
pagemap translates an address inside a range to it. -/
theorem munmap_frees_untranslated (s₀ : MmapState M P) (h₀ : Started A s₀ T)
    (hr : ((mmapSystem A).restrict WholeRanges).Reachable s₀ s) (c : MmapCall M)
    (hc : WholeRanges s c) (evs : List (FreeEvent M P)) (h : mmapCall A s c=some (s',evs)) :
    ∀ ev∈evs, ¬Dangling A ev.state ev.phys := by
  obtain ⟨T',hs⟩ : ∃ T', Owned A s₀.nextPagemap s T' := by
    refine hr.invariant (I := fun s => ∃ T', Owned A s₀.nextPagemap s T') ⟨T,h₀.owned⟩ ?_
    rintro t c t' ⟨T₁,hs₁⟩ ⟨hc₁,hstep⟩
    obtain ⟨⟨u,evs₁⟩,hcall,rfl⟩ := map_eq_some_iff.mp hstep
    exact (hs₁.call hc₁ hcall).1
  exact (hs.call hc h).2

theorem pageAt_absent {m : Mem} {v : Nat} (h : entry m top (levelIndex 3 (word v))=0) :
    pageAt M m top v=none := by
  have hleaf : leafTable M m (2+1) top (word v)=none := by
    rw [leafTable,h,isPresent_zero]
    exact if_neg Bool.false_ne_true
  apply pageAt_zero
  rw [pteFrom,hleaf]

theorem processTop_empty {v : Nat} (hv : v < 2^47) :
    pageAt bumpMachine processMem processTop v=none := by
  have hidx := levelIndex_word hv
  apply pageAt_absent
  rw [processTop,processMem_entry 514 (by omega)]
  exact if_neg (by omega)

theorem processState_started : Started (bumpPages bumpMachine) processState processTables where
  toBooted := processState_booted
  ranges _ := rfl
  pages pm top ht v p hv hp := by
    obtain ⟨-,h⟩ := Option.ite_none_right_eq_some.mp ht
    have heq : top=processTop := (Option.some.inj h).symm
    have hempty := processTop_empty hv.2.2
    rw [← heq] at hempty
    exact absurd (hempty.symm.trans hp) (Option.some_ne_none p).symm

theorem mmapCall_fault {err rip : Nat} (ht : s.tops (s.pgm task)=some top)
    (habs : vmmVirt2phys A s.ram top (word cr2)=some invalidPhys)
    (h : mmapPf A s task cr2 err rip=some (ok,s')) :
    mmapCall A s (.fault task cr2 err rip)=some (s',[]) := by
  have hcode : FaultCode A s task cr2 err := by
    refine .inr ?_
    rw [ht,Option.bind_some,habs]
  rw [mmapCall,if_pos hcode,h]
  rfl

/-- Of two pages, the second and then the first: the page of the first goes
back, and nothing translates to it. -/
theorem munmap_frees_untranslated_tail : ∃ s s' ev,
    ((mmapSystem (bumpPages bumpMachine)).restrict WholeRanges).Reachable processState s ∧
    mmapCall (bumpPages bumpMachine) s (.munmap 0 0x80000000000 4096)=some (s',[ev]) ∧
    ¬Dangling (bumpPages bumpMachine) ev.state ev.phys := by
  have hrun : ((mmapCall (bumpPages bumpMachine) processState
      (.mmap 0 0 8192 protWrite mapAnonymous none 0)).bind (fun x =>
        (mmapPf (bumpPages bumpMachine) x.1 0 0x80000000123 4 0).bind (fun y =>
          (mmapCall (bumpPages bumpMachine) y.2 (.munmap 0 0x80000001000 4096)).bind (fun z =>
            (mmapCall (bumpPages bumpMachine) z.1 (.munmap 0 0x80000000000 4096)).map (fun w =>
              (x.1.tops (x.1.pgm 0),
                vmmVirt2phys (bumpPages bumpMachine) x.1.ram processTop (word 0x80000000123),
                y.2.ranges (y.2.pgm 0),z.1.ranges (z.1.pgm 0),w.2.length))))))=
      some (some processTop,some invalidPhys,[0],[0],1) := by
    decide +kernel
  obtain ⟨⟨s₁,evs₁⟩,h1,hrest⟩ := bind_eq_some_iff.mp hrun
  obtain ⟨⟨ok,s₂⟩,h2,hrest⟩ := bind_eq_some_iff.mp hrest
  obtain ⟨⟨s₃,evs₃⟩,h3,hrest⟩ := bind_eq_some_iff.mp hrest
  obtain ⟨⟨s₄,evs⟩,h4,hv⟩ := map_eq_some_iff.mp hrest
  simp only [Prod.mk.injEq] at hv
  obtain ⟨htop,habs,hr2,hr3,hlen⟩ := hv
  obtain ⟨ev,rfl⟩ := List.length_eq_one_iff.mp hlen
  have halone : ∀ (t : MmapState bumpMachine Nat) pm addr limit, t.ranges pm=[0] →
      Alone t pm addr limit := by
    intro t pm addr limit ht k hk l hl _ _ k' hk' hne
    rw [ht,List.mem_singleton] at hk hk'
    exact absurd (hk'.trans hk.symm) hne
  have hc1 : WholeRanges processState (.mmap 0 0 8192 protWrite mapAnonymous none 0) :=
    ⟨by decide,by decide,⟨by decide,by decide,by decide⟩,fun h => absurd rfl h⟩
  have hc3 : WholeRanges s₂ (.munmap 0 0x80000001000 4096) := ⟨by decide,halone _ _ _ _ hr2⟩
  have hc4 : WholeRanges s₃ (.munmap 0 0x80000000000 4096) := ⟨by decide,halone _ _ _ _ hr3⟩
  have hr : ((mmapSystem (bumpPages bumpMachine)).restrict WholeRanges).Reachable processState s₃ :=
    ((Relation.ReflTransGen.single ⟨_,hc1,map_eq_some_iff.mpr ⟨_,h1,rfl⟩⟩).tail
      ⟨.fault 0 0x80000000123 4 0,trivial,
        map_eq_some_iff.mpr ⟨_,mmapCall_fault htop habs h2,rfl⟩⟩).tail
      ⟨_,hc3,map_eq_some_iff.mpr ⟨_,h3,rfl⟩⟩
  exact ⟨s₃,s₄,ev,hr,h4,munmap_frees_untranslated processState processState_started hr _ hc4 [ev] h4 ev
    (List.mem_singleton_self ev)⟩

/-- With the middle of three pages gone, munmap of the first gives the page of
the third back, which is still mapped. -/
theorem munmap_frees_translated : ∃ s s' ev,
    (mmapSystem (bumpPages bumpMachine)).Reachable processState s ∧
    mmapCall (bumpPages bumpMachine) s (.munmap 0 0x80000000000 4096)=some (s',[ev]) ∧
    Dangling (bumpPages bumpMachine) ev.state ev.phys := by
  have hrun : ((mmapCall (bumpPages bumpMachine) processState
      (.mmap 0 0 12288 protWrite mapAnonymous none 0)).bind (fun x =>
        (mmapPf (bumpPages bumpMachine) x.1 0 0x80000002123 4 0).bind (fun y =>
          (mmapCall (bumpPages bumpMachine) y.2 (.munmap 0 0x80000001000 4096)).bind (fun z =>
            (mmapCall (bumpPages bumpMachine) z.1 (.munmap 0 0x80000000000 4096)).map (fun w =>
              (x.1.tops (x.1.pgm 0),
                vmmVirt2phys (bumpPages bumpMachine) x.1.ram processTop (word 0x80000002123),
                w.2.map (fun ev => decide (ev.state.tops 0=some processTop ∧ ev.state.ranges 0=[1] ∧
                  (ev.state.locals 1).map LocalRange.span=some ⟨0x80000002000,4096⟩ ∧
                  vmmVirt2phys (bumpPages bumpMachine) ev.state.ram processTop
                    (word 0x80000002000)=some (word ev.phys) ∧ ev.phys=0x207000))))))))=
      some (some processTop,some invalidPhys,[true]) := by
    decide +kernel
  obtain ⟨⟨s₁,evs₁⟩,h1,hrest⟩ := bind_eq_some_iff.mp hrun
  obtain ⟨⟨ok,s₂⟩,h2,hrest⟩ := bind_eq_some_iff.mp hrest
  obtain ⟨⟨s₃,evs₃⟩,h3,hrest⟩ := bind_eq_some_iff.mp hrest
  obtain ⟨⟨s₄,evs⟩,h4,hv⟩ := map_eq_some_iff.mp hrest
  simp only [Prod.mk.injEq] at hv
  obtain ⟨htop,habs,hevs⟩ := hv
  obtain ⟨ev,rfl,hev⟩ := List.map_eq_singleton_iff.mp hevs
  rw [decide_eq_true_iff] at hev
  obtain ⟨ht,hranges,hspan,hphys,hval⟩ := hev
  obtain ⟨l,hl,hspan⟩ := map_eq_some_iff.mp hspan
  have hr : (mmapSystem (bumpPages bumpMachine)).Reachable processState s₃ :=
    ((Relation.ReflTransGen.single ⟨_,map_eq_some_iff.mpr ⟨_,h1,rfl⟩⟩).tail
      ⟨.fault 0 0x80000002123 4 0,map_eq_some_iff.mpr ⟨_,mmapCall_fault htop habs h2,rfl⟩⟩).tail
      ⟨_,map_eq_some_iff.mpr ⟨_,h3,rfl⟩⟩
  refine ⟨s₃,s₄,ev,hr,h4,0,processTop,0x80000002000,word ev.phys,ht,⟨0,1,?_,l,hl,?_⟩,hphys,?_,?_⟩
  · rw [hranges]
    exact List.mem_singleton_self 1
  · rw [hspan,Span.mem_mk]
    decide
  · rw [hval]
    decide
  · rw [hval]
    decide

end X64OS.Memory
