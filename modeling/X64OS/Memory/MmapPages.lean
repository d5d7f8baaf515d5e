import X64OS.Memory.MmapOps
import X64OS.Memory.Pagemaps
import X64OS.Memory.VmmRuns

namespace X64OS.Memory

open Framework

variable {M : Machine} {P : Type} {A : PageAllocator M P}
variable {r r' r'' : Ram P} {T T' T'' : List Table} {s s' : MmapState M P}

def pageAt (M : Machine) (m : Mem) (top v : Nat) : Option Nat :=
  if isPresent (pteFrom M m 3 top (word v)) then
    some ((pteGetAddr (pteFrom M m 3 top (word v))).toNat/pageSize)
  else none

/-- The memory changed, the tables stayed and new ones are fresh pages. -/
structure Evolved (A : PageAllocator M P) (r : Ram P) (T : List Table) (r' : Ram P)
    (T' : List Table) : Prop where
  forest : Forest A r' T'
  full : UpperFull r' T'
  tables : ∀ t∈T, t∈T'
  used : ∀ i, A.inUse r.pmm i → A.inUse r'.pmm i
  fresh : ∀ t∈T', t∉T → ¬A.inUse r.pmm ((t.base-M.hhdm)/pageSize)

theorem Evolved.refl (hf : Forest A r T) (hu : UpperFull r T) : Evolved A r T r T :=
  ⟨hf,hu,fun _ h => h,fun _ h => h,fun _ h hn => absurd h hn⟩

theorem Evolved.trans (h : Evolved A r T r' T') (k : Evolved A r' T' r'' T'') :
    Evolved A r T r'' T'' := by
  refine ⟨k.forest,k.full,fun t ht => k.tables t (h.tables t ht),fun i hi => k.used i (h.used i hi),?_⟩
  intro t ht hn hu
  by_cases h' : t∈T'
  · exact h.fresh t h' hn hu
  · exact k.fresh t ht h' (h.used _ hu)

theorem Extended.evolved (he : Extended A r T r' T') (hu : UpperFull r T) : Evolved A r T r' T' :=
  ⟨he.forest,he.upperFull hu,he.tables,he.used,he.fresh⟩

theorem Created.evolved {k top : Nat} (hc : Created A r T k top r' T') : Evolved A r T r' T' :=
  ⟨hc.forest,hc.full,hc.tables,hc.used,hc.fresh⟩

variable {phys v pm virt : Nat} {ok : Bool} {m : Mem}

theorem Granted.entries {pages : Nat} (hf : Forest A r T) (hg : Granted A r r' phys pages) :
    ∀ t∈T, ∀ i < 512, entry r'.mem t.base i=entry r.mem t.base i :=
  fun t ht _ hi => Forest.entry_frame hg.frame (hg.separate _ (hf.used t ht)) hi

theorem Granted.evolved {pages : Nat} (hf : Forest A r T) (hu : UpperFull r T)
    (hg : Granted A r r' phys pages) : Evolved A r T r' T := by
  have hsame := hg.entries hf
  refine ⟨?_,?_,fun _ h => h,fun i hi => (hg.used i).mpr (.inr hi),fun _ h hn => absurd h hn⟩
  · exact (hf.congr (fun t ht _ => hsame t ht)).repage hg.valid
      (fun t ht x hx => (hg.used _).mpr (.inr (hf.used t ht x hx)))
  · intro t ht hl i h256 hi
    rw [hsame t ht i hi]
    exact hu t ht hl i h256 hi

def Table.page (M : Machine) (t : Table) : Nat := (t.base-M.hhdm)/pageSize

theorem Forest.freed (hf : Forest A r T) (h0 : 0 < phys/pageSize)
    (hp : ∀ t∈T, t.page M≠phys/pageSize) : Forest A (pmmFree A r phys 1) T := by
  apply hf.repage
  · apply A.free_valid _ _ _ hf.valid
    rw [Span.mem_mk]
    omega
  · intro t ht x hx
    apply A.free_keeps _ _ _ _ hf.valid
    · have hne := hp t ht
      have hb := hf.base t ht
      have ha := M.hhdm_aligned
      rw [Table.span,Span.mem_mk] at hx
      rw [Span.mem_mk]
      simp only [Table.page,pageSize] at hne hb ha hx ⊢
      omega
    · exact hf.used t ht x hx

theorem word_toNat (hv : v < 2^47) : (word v).toNat=v := by
  rw [word,BitVec.toNat_ofNat]
  omega

theorem pageKey_word (hv : v < 2^47) : pageKey (word v)=v/pageSize := by
  rw [pageKey,word_toNat hv]
  simp only [pageSize]
  omega

theorem levelIndex_word (hv : v < 2^47) : levelIndex 3 (word v) < 256 := by
  rw [levelIndex_eq le_rfl,word_toNat hv]
  simp only [Nat.reduceMul,Nat.reduceAdd,Nat.reducePow]
  omega

theorem sameEntry_word {top top' : Nat} {w : BitVec 64} (hv : v < 2^47) :
    SameEntry top w top' (word v) ↔ pageKey w=v/pageSize ∧ top=top' := by
  rw [SameEntry,pageKey_word hv]
  constructor
  · intro h
    obtain h' | h' := h.2
    · exact ⟨h.1,h'⟩
    · have hk : pageKey w=pageKey (word v) := h.1.trans (pageKey_word hv).symm
      rw [levelIndex_key _ _ hk 3 le_rfl] at h'
      exact absurd h' (Nat.not_le.mpr (levelIndex_word hv))
  · exact fun h => ⟨h.1,.inl h.2⟩

/-- All pagemap objects are top levels of one forest, each of its own. -/
structure Rooted (A : PageAllocator M P) (s : MmapState M P) (T : List Table) : Prop where
  forest : Forest A s.ram T
  full : UpperFull s.ram T
  krnl : ⟨s.krnlPage,3⟩∈T
  top : ∀ pm t, s.tops pm=some t → ⟨t,3⟩∈T
  inj : ∀ pm pm' t, s.tops pm=some t → s.tops pm'=some t → pm=pm'

theorem Rooted.evolve (hr : Rooted A s T) (he : Evolved A s.ram T r' T') :
    Rooted A (s.setRam r') T' :=
  ⟨he.forest,he.full,he.tables _ hr.krnl,fun pm t ht => he.tables _ (hr.top pm t ht),hr.inj⟩

theorem Rooted.virt2phys (hr : Rooted A s T) {top : Nat} (ht : s.tops pm=some top) (v : Nat) :
    vmmVirt2phys A s.ram top (word v)=
      some (translate (pteFrom M s.ram.mem 3 top (word v)) (word v)) :=
  vmmVirt2phys_eq hr.forest (hr.top pm top ht) _

theorem mapOver_spec (hr : Rooted A s T) {top : Nat} {flags : BitVec 64} (ht : s.tops pm=some top)
    (h : mapOver A s (some pm) virt phys flags=some (ok,s')) :
    ok=true ∧ s'=s.setRam s'.ram ∧ ∃ T', Evolved A s.ram T s'.ram T' ∧
      ∀ pm' top', s.tops pm'=some top' → ∀ v < 2^47, pteFrom M s'.ram.mem 3 top' (word v)=
        if pageKey (word virt)=v/pageSize ∧ pm=pm' then mapEntry (word phys) flags
        else pteFrom M s.ram.mem 3 top' (word v) := by
  rw [mapOver,ht,Option.bind_some] at h
  obtain ⟨⟨ok',r'⟩,hm,he⟩ := Option.map_eq_some_iff.mp h
  cases he
  have htop := hr.top pm top ht
  obtain ⟨hok,T',e,hview⟩ := vmmMapPage_spec hr.forest htop
    (hr.full.mayGrow htop (levelIndex_lt le_rfl _)) hm
  rw [Bool.or_true] at hok
  refine ⟨hok,rfl,T',e.evolved hr.full,?_⟩
  intro pm' top' ht' v hv
  have hw := hview _ (hr.top pm' top' ht') rfl (word v)
  simp only [hok,true_and,sameEntry_word hv] at hw
  refine hw.trans ?_
  by_cases hpm : pm=pm'
  · subst hpm
    rw [ht] at ht'
    cases ht'
    simp only [and_true]
  · have hne : top≠top' := fun he => hpm (hr.inj pm pm' top ht (he ▸ ht'))
    rw [if_neg (fun hc => hne hc.2),if_neg (fun hc => hpm hc.2)]

theorem vmmUnmapPage_evolved (hr : Rooted A s T) {top j : Nat} (ht : s.tops pm=some top)
    (h : vmmUnmapPage A s.ram top (word j)=some (ok,r')) :
    Evolved A s.ram T r' T ∧
      ∀ pm' top', s.tops pm'=some top' → ∀ v < 2^47, pteFrom M r'.mem 3 top' (word v)=
        if isPresent (pteFrom M s.ram.mem 3 top (word j)) ∧ pageKey (word j)=v/pageSize ∧ pm=pm'
        then 0 else pteFrom M s.ram.mem 3 top' (word v) := by
  obtain ⟨r₁,h1,e,hview⟩ := vmmUnmapPage_spec hr.forest (hr.top pm top ht) (word j)
  rw [h] at h1
  cases h1
  refine ⟨e.evolved hr.full,?_⟩
  intro pm' top' ht' v hv
  have hw := hview _ (hr.top pm' top' ht') rfl (word v)
  simp only [sameEntry_word hv] at hw
  refine hw.trans ?_
  by_cases hpm : pm=pm'
  · subst hpm
    rw [ht] at ht'
    cases ht'
    simp only [and_true]
  · have hne : top≠top' := fun he => hpm (hr.inj pm pm' top ht (he ▸ ht'))
    rw [if_neg (fun hc => hne hc.2.2),if_neg (fun hc => hpm hc.2.2)]

theorem pageAt_congr {m' : Mem} {top : Nat}
    (h : pteFrom M m' 3 top (word v)=pteFrom M m 3 top (word v)) :
    pageAt M m' top v=pageAt M m top v := by
  rw [pageAt,pageAt,h]

theorem pageAt_zero {top : Nat} (h : pteFrom M m 3 top (word v)=0) : pageAt M m top v=none := by
  rw [pageAt,h,isPresent_zero]
  rfl

theorem isPresent_of_pageAt {top p : Nat} (h : pageAt M m top v=some p) :
    isPresent (pteFrom M m 3 top (word v))=true := by
  rw [pageAt] at h
  split at h
  · assumption
  · cases h

theorem pteFrom_key {top : Nat} {v w : BitVec 64} (h : pageKey v=pageKey w) :
    pteFrom M m 3 top v=pteFrom M m 3 top w := by
  have hidx := levelIndex_key v w h
  rw [pteFrom,pteFrom,leafTable_index hidx,hidx 0 (Nat.zero_le 3)]

theorem translate_valid {pte virt : BitVec 64} (h : isPresent pte=true) :
    translate pte virt≠invalidPhys := by
  have haddr : (pteGetAddr pte).toNat ≤ pteAddrMask.toNat := by
    rw [pteGetAddr,BitVec.toNat_and]
    exact Nat.and_le_right
  have hmask : pteAddrMask.toNat < 2^52 := by decide
  have hoff : (virt%4096#64).toNat < 4096 := by
    rw [BitVec.toNat_umod]
    exact Nat.mod_lt _ (by decide)
  rw [translate,if_pos h]
  intro he
  have hn := congrArg BitVec.toNat he
  rw [BitVec.toNat_add,Nat.mod_eq_of_lt (by omega)] at hn
  have hinv : invalidPhys.toNat=2^64-1 := by decide
  omega

theorem unmapPages_spec (hr : Rooted A s T) {top stop n j : Nat} (ht : s.tops pm=some top)
    (h : unmapPages A top stop n j s.ram=some r') :
    Evolved A s.ram T r' T ∧
      (∀ pm' top', s.tops pm'=some top' → pm'≠pm → ∀ v < 2^47,
        pteFrom M r'.mem 3 top' (word v)=pteFrom M s.ram.mem 3 top' (word v)) ∧
      ∀ v < 2^47, ∀ p, pageAt M r'.mem top v=some p → pageAt M s.ram.mem top v=some p ∧
        (j%pageSize=0 → stop ≤ 2^47 → v < j ∨ stop ≤ v) := by
  induction n generalizing j s with
  | zero => cases h
  | succ n ih =>
    rw [unmapPages] at h
    by_cases hj : j < stop
    · rw [if_pos hj] at h
      obtain ⟨⟨ok,r₁⟩,hu,h⟩ := Option.bind_eq_some_iff.mp h
      obtain ⟨e1,hview⟩ := vmmUnmapPage_evolved hr ht hu
      obtain ⟨e2,hother,hself⟩ := ih (s := s.setRam r₁) (hr.evolve e1) ht h
      refine ⟨e1.trans e2,?_,?_⟩
      · intro pm' top' ht' hne v hv
        rw [hother pm' top' ht' hne v hv]
        refine (hview pm' top' ht' v hv).trans (if_neg ?_)
        exact fun hc => hne hc.2.2.symm
      · intro v hv p hp
        obtain ⟨hp1,hout⟩ := hself v hv p hp
        have hold := hview pm top ht v hv
        by_cases hc : isPresent (pteFrom M s.ram.mem 3 top (word j)) ∧
            pageKey (word j)=v/pageSize ∧ pm=pm
        · rw [if_pos hc] at hold
          rw [show pageAt M (s.setRam r₁).ram.mem top v=none from pageAt_zero hold] at hp1
          cases hp1
        · rw [if_neg hc] at hold
          have hp2 : pageAt M s.ram.mem top v=some p := (pageAt_congr hold).symm.trans hp1
          refine ⟨hp2,?_⟩
          intro hja hst
          have hadd : add64 j pageSize=j+pageSize := add64_eq (by simp only [pageSize]; omega)
          rw [hadd] at hout
          have hnext := hout (by rw [Nat.add_mod_right,hja]) hst
          -- a page that is still there is not the one just unmapped
          have hkey : v/pageSize≠j/pageSize := by
            intro hk
            apply hc
            refine ⟨?_,by rw [pageKey_word (by omega),hk],rfl⟩
            rw [pteFrom_key (w := word v) (by rw [pageKey_word (by omega),pageKey_word hv,hk])]
            exact isPresent_of_pageAt hp2
          simp only [pageSize] at hkey hja hnext ⊢
          omega
    · rw [if_neg hj] at h
      cases h
      refine ⟨.refl hr.forest hr.full,fun _ _ _ _ _ _ => rfl,fun v hv p hp => ⟨hp,?_⟩⟩
      intro _ _
      omega

def Serves (s : MmapState M P) (ids : List Nat) (virt pm : Nat) : Prop :=
  ∃ id∈ids, ∃ l, s.locals id=some l ∧ l.covers virt=true ∧ l.pagemap=pm

theorem serves_cons {id : Nat} {ids : List Nat} {l : LocalRange} (hl : s.locals id=some l) :
    Serves s (id::ids) virt pm ↔
      (l.covers virt=true ∧ l.pagemap=pm) ∨ Serves s ids virt pm := by
  simp [Serves,hl]

theorem mapLocals_spec (hr : Rooted A s T) {flags : BitVec 64} {ids : List Nat}
    (h : mapLocals A virt phys flags ids s=some (ok,s')) :
    ok=true ∧ s'=s.setRam s'.ram ∧ ∃ T', Evolved A s.ram T s'.ram T' ∧
      ∀ pm top, s.tops pm=some top → ∀ v < 2^47,
        (pageKey (word virt)=v/pageSize → Serves s ids virt pm →
          pteFrom M s'.ram.mem 3 top (word v)=mapEntry (word phys) flags) ∧
        (¬(pageKey (word virt)=v/pageSize ∧ Serves s ids virt pm) →
          pteFrom M s'.ram.mem 3 top (word v)=pteFrom M s.ram.mem 3 top (word v)) := by
  induction ids generalizing s T with
  | nil =>
    cases h
    refine ⟨rfl,rfl,T,.refl hr.forest hr.full,fun pm top ht v hv => ⟨?_,fun _ => rfl⟩⟩
    intro _ hserves
    obtain ⟨id,hid,-⟩ := hserves
    cases hid
  | cons id ids ih =>
    obtain ⟨l,hl,h⟩ := Option.bind_eq_some_iff.mp h
    by_cases hc : l.covers virt=true
    · rw [if_pos hc] at h
      obtain ⟨⟨ok₁,s₁⟩,hm,h⟩ := Option.bind_eq_some_iff.mp h
      obtain ⟨top₁,ht₁,-⟩ := Option.bind_eq_some_iff.mp hm
      obtain ⟨rfl,hs₁,T₁,e₁,hview₁⟩ := mapOver_spec hr ht₁ hm
      obtain ⟨r₁,rfl⟩ : ∃ r₁, s₁=s.setRam r₁ := ⟨_,hs₁⟩
      rw [if_neg (by simp)] at h
      obtain ⟨hok,hs',T₂,e₂,hview₂⟩ := ih (hr.evolve e₁) h
      refine ⟨hok,hs',T₂,e₁.trans e₂,?_⟩
      intro pm top ht v hv
      have h1 := hview₁ pm top ht v hv
      obtain ⟨h2,h3⟩ := hview₂ pm top ht v hv
      rw [serves_cons hl]
      by_cases hs : pageKey (word virt)=v/pageSize ∧ Serves s ids virt pm
      · exact ⟨fun _ _ => h2 hs.1 hs.2,fun hn => absurd ⟨hs.1,.inr hs.2⟩ hn⟩
      · rw [(h3 hs).trans h1]
        by_cases hk : pageKey (word virt)=v/pageSize ∧ l.pagemap=pm
        · rw [if_pos hk]
          exact ⟨fun _ _ => rfl,fun hn => absurd ⟨hk.1,.inl ⟨hc,hk.2⟩⟩ hn⟩
        · rw [if_neg hk]
          refine ⟨fun hk' hs' => ?_,fun _ => rfl⟩
          obtain hs' | hs' := hs'
          · exact absurd ⟨hk',hs'.2⟩ hk
          · exact absurd ⟨hk',hs'⟩ hs
    · rw [if_neg hc] at h
      obtain ⟨hok,hs',T',e,hview⟩ := ih hr h
      refine ⟨hok,hs',T',e,?_⟩
      intro pm top ht v hv
      rw [serves_cons hl]
      simp only [hc,Bool.false_eq_true,false_and,false_or]
      exact hview pm top ht v hv

theorem mmapPageInRange_spec (hr : Rooted A s T) {g : GlobalRange M} {prot sh : Nat}
    (hsh : g.shadowPagemap=some sh) (h : mmapPageInRange A s g virt phys prot=some (ok,s')) :
    ok=true ∧ s'=s.setRam s'.ram ∧ ∃ T', Evolved A s.ram T s'.ram T' ∧
      ∀ pm top, s.tops pm=some top → ∀ v < 2^47,
        (pageKey (word virt)=v/pageSize → (pm=sh ∨ Serves s g.locals virt pm) →
          pteFrom M s'.ram.mem 3 top (word v)=mapEntry (word phys) (ptFlags prot)) ∧
        (¬(pageKey (word virt)=v/pageSize ∧ (pm=sh ∨ Serves s g.locals virt pm)) →
          pteFrom M s'.ram.mem 3 top (word v)=pteFrom M s.ram.mem 3 top (word v)) := by
  rw [mmapPageInRange,hsh] at h
  obtain ⟨⟨ok₁,s₁⟩,hm,h⟩ := Option.bind_eq_some_iff.mp h
  obtain ⟨top₁,ht₁,-⟩ := Option.bind_eq_some_iff.mp hm
  obtain ⟨rfl,hs₁,T₁,e₁,hview₁⟩ := mapOver_spec hr ht₁ hm
  obtain ⟨r₁,rfl⟩ : ∃ r₁, s₁=s.setRam r₁ := ⟨_,hs₁⟩
  rw [if_neg (by simp)] at h
  obtain ⟨hok,hs',T₂,e₂,hview₂⟩ := mapLocals_spec (hr.evolve e₁) h
  refine ⟨hok,hs',T₂,e₁.trans e₂,?_⟩
  intro pm top ht v hv
  have h1 := hview₁ pm top ht v hv
  obtain ⟨h2,h3⟩ := hview₂ pm top ht v hv
  by_cases hs : pageKey (word virt)=v/pageSize ∧ Serves s g.locals virt pm
  · exact ⟨fun _ _ => h2 hs.1 hs.2,fun hn => absurd ⟨hs.1,.inr hs.2⟩ hn⟩
  · rw [(h3 hs).trans h1]
    by_cases hk : pageKey (word virt)=v/pageSize ∧ sh=pm
    · rw [if_pos hk]
      exact ⟨fun _ _ => rfl,fun hn => absurd ⟨hk.1,.inl hk.2.symm⟩ hn⟩
    · rw [if_neg hk]
      refine ⟨fun hk' hor => ?_,fun _ => rfl⟩
      obtain hor | hor := hor
      · exact absurd ⟨hk',hor.symm⟩ hk
      · exact absurd ⟨hk',hor⟩ hs

theorem copyFilePage_granted (hv : A.Valid r.pmm) {data filePage page : Nat}
    (h : copyFilePage A r data filePage=some (page,r')) : Granted A r r' page 1 := by
  obtain ⟨⟨a,r₁⟩,ha,he⟩ := Option.map_eq_some_iff.mp h
  have hg := pmmAllocNozero_granted hv le_rfl ha
  rw [if_neg (Nat.pos_iff_ne_zero.mp hg.pos)] at he
  simp only [Prod.mk.injEq] at he
  obtain ⟨rfl,rfl⟩ := he
  refine ⟨hg.valid,hg.aligned,hg.pos,hg.bound,hg.fresh,hg.used,hg.frame.trans ?_⟩
  rw [mapped,Nat.one_mul]
  exact sameOff_memcpy _ _ _ _

theorem fbdevMmap_page (device : Framebuffer M) (filePage : Nat) :
    fbdevMmap device filePage%pageSize=0 ∧ fbdevMmap device filePage < 2^52 := by
  have h1 := device.aligned
  have h2 := device.low
  have h3 := device.high
  have h4 := M.hhdm_aligned
  rw [fbdevMmap]
  by_cases hc : device.smemLen ≤ filePage*pageSize%2^64
  · rw [if_pos hc]
    decide
  · rw [if_neg hc]
    simp only [pageSize] at *
    omega

theorem faultPage_spec (hv : A.Valid s.ram.pmm) {hit : RangeHit} {g : GlobalRange M} {page : Nat}
    (h : faultPage A s hit g=some (page,r')) :
    (r'=s.ram ∧ hit.range.flags &&& mapAnonymous=0 ∧ page%pageSize=0 ∧ page < 2^52) ∨
      Granted A s.ram r' page 1 := by
  rw [faultPage] at h
  by_cases hanon : hit.range.flags &&& mapAnonymous≠0
  · rw [if_pos hanon] at h
    exact .inr (pmmAlloc_granted hv le_rfl h).1
  · rw [if_neg hanon] at h
    obtain ⟨res,-,h⟩ := Option.bind_eq_some_iff.mp h
    cases res with
    | stub =>
      cases h
      exact .inl ⟨rfl,by omega,rfl,by decide⟩
    | tmpfs data => exact .inr (copyFilePage_granted hv h)
    | devtmpfs data => exact .inr (copyFilePage_granted hv h)
    | fbdev device =>
      cases h
      exact .inl ⟨rfl,by omega,fbdevMmap_page device hit.filePage⟩

theorem mapEntry_page {page : Nat} (prot : Nat) (ha : page%pageSize=0) (hlt : page < 2^52) :
    isPresent (mapEntry (word page) (ptFlags prot))=true ∧
      pteGetAddr (mapEntry (word page) (ptFlags prot))=word page := by
  have hw : (word page).toNat=page := by
    rw [word,BitVec.toNat_ofNat]
    omega
  refine ⟨mapEntry_present ?_,mapEntry_addr (by rw [hw]; exact ha) (by rw [hw]; exact hlt) ?_⟩
  all_goals
    rw [ptFlags]
    split <;> split <;> decide

theorem pageAt_mapEntry {top page prot : Nat} (ha : page%pageSize=0) (hlt : page < 2^52)
    (h : pteFrom M m 3 top (word v)=mapEntry (word page) (ptFlags prot)) :
    pageAt M m top v=some (page/pageSize) := by
  obtain ⟨hpres,haddr⟩ := mapEntry_page prot ha hlt
  rw [pageAt,h,if_pos hpres,haddr,word,BitVec.toNat_ofNat,Nat.mod_eq_of_lt (by omega)]

end X64OS.Memory
