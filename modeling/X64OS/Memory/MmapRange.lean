import X64OS.Memory.MmapOwners
import X64OS.Memory.VmmFrames

namespace X64OS.Memory

open Framework Function
open Option (map_eq_some_iff bind_eq_some_iff bind_some map_some)

structure Mapping where
  virt : Nat
  phys : Nat
  deriving DecidableEq

section

variable {M : Machine} {P : Type} (A : PageAllocator M P)

def mapPages (g : GlobalRange M) (virt phys length prot : Nat) :
    Nat → Nat → MmapState M P → Option (Bool × MmapState M P × List Mapping)
  | 0,_,_ => none
  | n+1,i,s =>
    if i < length then
      (mmapPageInRange A s g (add64 virt i) (add64 phys i) prot).bind (fun x =>
        if x.1=false then some (false,x.2,[])
        else (mapPages g virt phys length prot n (add64 i pageSize) x.2).map (fun y =>
          (y.1,y.2.1,⟨add64 virt i,add64 phys i⟩::y.2.2)))
    else some (true,s,[])

/-- The local range is freed and the global range deleted; pagemap->mmap_ranges
keeps the pointer. -/
def MmapState.cleanup (s : MmapState M P) (id gid : Nat) : MmapState M P :=
  { s with
    locals := update s.locals id none
    globals := update s.globals gid none }

/-- mmap_range. Its objects come from operator new, which clears them. -/
def mmapRange (s : MmapState M P) (pm virt phys length prot flags : Nat) :
    Option (Bool × MmapState M P × List Mapping) :=
  let flags := flags ||| mapAnonymous
  let alignedVirt := alignDown virt pageSize
  let alignedLength := alignUp (add64 length (sub64 virt alignedVirt)) pageSize
  (vmmNewPagemap A s.ram (some s.krnlPage)).bind (fun x =>
    match x.1 with
    | none => some (false,s.setRam x.2,[])
    | some top =>
      let g : GlobalRange M :=
        ⟨some s.nextPagemap,[s.nextLocal],none,alignedVirt,alignedLength,0⟩
      let l : LocalRange := ⟨pm,s.nextGlobal,alignedVirt,alignedLength,0,prot,flags⟩
      (mapPages A g alignedVirt phys alignedLength prot rounds 0
          ((s.setRam x.2).addRange top (newRanges s pm) l g)).map (fun y =>
        if y.1=false then (false,y.2.1.cleanup s.nextLocal s.nextGlobal,y.2.2) else y))

end

variable {M : Machine} {P : Type} {A : PageAllocator M P} {s s' : MmapState M P}

/-- Pages were taken from the allocator and memory was written; the objects are
as they were. -/
structure Grew (A : PageAllocator M P) (s s' : MmapState M P) : Prop where
  objects : s'=s.setRam s'.ram
  took : Relation.ReflTransGen (Took A) s.ram.pmm s'.ram.pmm

theorem Grew.refl (s : MmapState M P) : Grew A s s := ⟨rfl,.refl⟩

theorem Grew.trans {s'' : MmapState M P} (h : Grew A s s') (k : Grew A s' s'') : Grew A s s'' := by
  refine ⟨?_,h.took.trans k.took⟩
  rw [k.objects,h.objects]
  rfl

theorem took_valid {p p' : P} (h : Relation.ReflTransGen (Took A) p p') (hv : A.Valid p) :
    A.Valid p' := by
  induction h with
  | refl => exact hv
  | tail _ hstep ih =>
    obtain ⟨a,ha⟩ := hstep
    exact A.alloc_valid _ _ _ _ ih le_rfl ha

variable {r r' : Ram P} {flags : BitVec 64} {ok : Bool}
  {phys virt prot i length n pm sh top top₁ : Nat} {g : GlobalRange M} {maps : List Mapping}
  {l : LocalRange}

theorem findPml1_took {pml4 c : Nat} {virt : BitVec 64} {b : Bool}
    (h : findPml1 A r pml4 virt b=some (c,r')) : Relation.ReflTransGen (Took A) r.pmm r'.pmm := by
  obtain ⟨⟨c₁,r₁⟩,h1,h⟩ := bind_eq_some_iff.mp h
  have t1 := getNextLevel_took h1
  by_cases hz1 : c₁=0
  · rw [if_pos hz1] at h
    cases h
    exact t1
  · rw [if_neg hz1] at h
    obtain ⟨⟨c₂,r₂⟩,h2,h⟩ := bind_eq_some_iff.mp h
    have t2 := getNextLevel_took h2
    by_cases hz2 : c₂=0
    · rw [if_pos hz2] at h
      cases h
      exact t1.trans t2
    · rw [if_neg hz2] at h
      exact (t1.trans t2).trans (getNextLevel_took h)

theorem vmmMapPage_took {top : Option Nat} {virt phys : BitVec 64} {overwrite : Bool}
    (h : vmmMapPage A r top virt phys flags overwrite=some (ok,r')) :
    Relation.ReflTransGen (Took A) r.pmm r'.pmm := by
  cases top with
  | none =>
    cases h
    exact .refl
  | some top =>
    obtain ⟨⟨c,r₁⟩,h1,h⟩ := map_eq_some_iff.mp h
    have t1 := findPml1_took h1
    dsimp only at h
    split at h
    · cases h
      exact t1
    · split at h <;> cases h <;> exact t1

theorem vmmNewPagemap_took {k pm : Option Nat} (h : vmmNewPagemap A r k=some (pm,r')) :
    Relation.ReflTransGen (Took A) r.pmm r'.pmm := by
  obtain ⟨⟨phys,r₁⟩,h1,h⟩ := bind_eq_some_iff.mp h
  obtain ⟨a,ha⟩ := pmmAlloc_took h1
  have t1 : Relation.ReflTransGen (Took A) r.pmm r₁.pmm := .single ⟨a,ha⟩
  by_cases hz : phys=0
  · rw [if_pos hz] at h
    cases h
    exact t1
  · rw [if_neg hz] at h
    obtain ⟨⟨ok₁,r₂⟩,h2,h⟩ := bind_eq_some_iff.mp h
    obtain ⟨⟨ok₂,r₃⟩,h3,h⟩ := map_eq_some_iff.mp h
    cases h
    have t2 := vmmMapPage_took h2
    exact (t1.trans t2).trans (vmmMapPage_took h3)

theorem mapOver_grew {pm : Option Nat} (h : mapOver A s pm virt phys flags=some (ok,s')) :
    Grew A s s' := by
  cases pm with
  | none =>
    rw [mapOver] at h
    obtain ⟨⟨ok',r'⟩,hm,he⟩ := map_eq_some_iff.mp h
    cases he
    exact ⟨rfl,vmmMapPage_took hm⟩
  | some pm =>
    obtain ⟨top,-,h⟩ := bind_eq_some_iff.mp h
    obtain ⟨⟨ok',r'⟩,hm,he⟩ := map_eq_some_iff.mp h
    cases he
    exact ⟨rfl,vmmMapPage_took hm⟩

theorem mapLocals_grew {ids : List Nat} (h : mapLocals A virt phys flags ids s=some (ok,s')) :
    Grew A s s' := by
  induction ids generalizing s with
  | nil =>
    cases h
    exact .refl _
  | cons id ids ih =>
    obtain ⟨l,-,h⟩ := bind_eq_some_iff.mp h
    split at h
    · obtain ⟨⟨ok₁,s₁⟩,hm,h⟩ := bind_eq_some_iff.mp h
      have g1 := mapOver_grew hm
      split at h
      · cases h
        exact g1
      · exact g1.trans (ih h)
    · exact ih h

theorem mmapPageInRange_grew (h : mmapPageInRange A s g virt phys prot=some (ok,s')) :
    Grew A s s' := by
  obtain ⟨⟨ok₁,s₁⟩,hm,h⟩ := bind_eq_some_iff.mp h
  have g1 := mapOver_grew hm
  split at h
  · cases h
    exact g1
  · exact g1.trans (mapLocals_grew h)

theorem mapPages_grew (h : mapPages A g virt phys length prot n i s=some (ok,s',maps)) :
    Grew A s s' := by
  induction n generalizing i s maps with
  | zero => cases h
  | succ n ih =>
    rw [mapPages] at h
    split at h
    · obtain ⟨⟨ok₁,s₁⟩,hm,h⟩ := bind_eq_some_iff.mp h
      have g1 := mmapPageInRange_grew hm
      split at h
      · cases h
        exact g1
      · obtain ⟨⟨ok₂,s₂,maps₂⟩,h2,he⟩ := map_eq_some_iff.mp h
        cases he
        exact g1.trans (ih h2)
    · cases h
      exact .refl _

theorem mem_mapPages (hlen : length%pageSize=0) (hlt : length < 2^64) (hi : i%pageSize=0)
    (h : mapPages A g virt phys length prot n i s=some (true,s',maps)) (m : Mapping) :
    m∈maps ↔ ∃ j, i ≤ j ∧ j < length ∧ j%pageSize=0 ∧ m=⟨add64 virt j,add64 phys j⟩ := by
  induction n generalizing i s maps with
  | zero => cases h
  | succ n ih =>
    rw [mapPages] at h
    by_cases hc : i < length
    · rw [if_pos hc] at h
      obtain ⟨⟨ok₁,s₁⟩,-,h⟩ := bind_eq_some_iff.mp h
      split at h
      · cases h
      · obtain ⟨⟨ok₂,s₂,maps₂⟩,h2,he⟩ := map_eq_some_iff.mp h
        cases he
        have hnext : add64 i pageSize=i+pageSize := by
          apply add64_eq
          simp only [pageSize] at *
          omega
        rw [hnext] at h2
        rw [List.mem_cons,ih (by simp only [pageSize] at *; omega) h2]
        constructor
        · rintro (rfl | ⟨j,hj,hjl,hja,rfl⟩)
          · exact ⟨i,le_rfl,hc,hi,rfl⟩
          · exact ⟨j,by omega,hjl,hja,rfl⟩
        · rintro ⟨j,hj,hjl,hja,rfl⟩
          by_cases hij : j=i
          · exact .inl (by rw [hij])
          · refine .inr ⟨j,?_,hjl,hja,rfl⟩
            simp only [pageSize] at *
            omega
    · rw [if_neg hc] at h
      cases h
      simp only [List.not_mem_nil,false_iff]
      rintro ⟨j,hj,hjl,-⟩
      omega

theorem mmapRange_true {flags : Nat}
    (h : mmapRange A s pm virt phys length prot flags=some (true,s',maps)) :
    ∃ top r₁ l g, vmmNewPagemap A s.ram (some s.krnlPage)=some (some top,r₁) ∧
      l=(⟨pm,s.nextGlobal,alignDown virt pageSize,
        alignUp (add64 length (sub64 virt (alignDown virt pageSize))) pageSize,0,prot,
        flags ||| mapAnonymous⟩ : LocalRange) ∧
      g=(⟨some s.nextPagemap,[s.nextLocal],none,l.base,l.length,0⟩ : GlobalRange M) ∧
      mapPages A g l.base phys l.length prot rounds 0
        ((s.setRam r₁).addRange top (newRanges s pm) l g)=some (true,s',maps) := by
  obtain ⟨⟨top,r₁⟩,hnew,h⟩ := bind_eq_some_iff.mp h
  cases top with
  | none => cases h
  | some top =>
    obtain ⟨⟨ok,s₁,maps₁⟩,hmap,h⟩ := map_eq_some_iff.mp h
    cases ok with
    | false => cases h
    | true =>
      cases h
      exact ⟨top,r₁,_,_,hnew,rfl,rfl,hmap⟩

theorem mapPages_evolved {T : List Table} (hr : Rooted A s T) (hg : g.shadowPagemap=some sh)
    (h : mapPages A g virt phys length prot n i s=some (ok,s',maps)) :
    ok=true ∧ s'=s.setRam s'.ram ∧ ∃ T', Evolved A s.ram T s'.ram T' ∧ Spares A s.ram T s'.ram := by
  induction n generalizing i s T maps with
  | zero => cases h
  | succ n ih =>
    rw [mapPages] at h
    split at h
    · obtain ⟨⟨ok₁,s₁⟩,hm,h⟩ := bind_eq_some_iff.mp h
      have k₁ := mmapPageInRange_spares hr hg hm
      obtain ⟨rfl,hs₁,T₁,e₁,-⟩ := mmapPageInRange_spec hr hg hm
      obtain ⟨r₁,rfl⟩ : ∃ r₁, s₁=s.setRam r₁ := ⟨_,hs₁⟩
      rw [if_neg (by simp)] at h
      obtain ⟨⟨ok₂,s₂,maps₂⟩,h2,he⟩ := map_eq_some_iff.mp h
      cases he
      obtain ⟨hok,hs',T₂,e₂,k₂⟩ := ih (hr.evolve e₁) h2
      exact ⟨hok,hs',T₂,e₁.trans e₂,k₁.trans e₁ k₂⟩
    · cases h
      exact ⟨rfl,rfl,T,.refl hr.forest hr.full,.refl _ _⟩

/-- Pages from base on, at most one of them above the lower half. -/
structure Placement (base phys length : Nat) : Prop where
  base_aligned : base%pageSize=0
  length_aligned : length%pageSize=0
  stop : base+length ≤ 2^47+pageSize
  phys_stop : phys+length < 2^64

theorem mapPage_spec {T : List Table} (hr : Rooted A s T) {id : Nat}
    (hg : g.shadowPagemap=some sh ∧ g.locals=[id]) (hl : s.locals id=some l)
    (htop : s.tops l.pagemap=some top) (hp : Placement l.base phys l.length) (hi : i%pageSize=0)
    (hc : i < l.length) (h : mmapPageInRange A s g (l.base+i) (phys+i) prot=some (ok,s')) :
    ok=true ∧ ∃ r' T', s'=s.setRam r' ∧ Evolved A s.ram T r' T' ∧ Spares A s.ram T r' ∧
      ∀ v < 2^47, pteFrom M r'.mem 3 top (word v)=
        if (l.base+i)/pageSize=v/pageSize then mapEntry (word (phys+i)) (ptFlags prot)
        else pteFrom M s.ram.mem 3 top (word v) := by
  have hb := hp.stop
  have hba := hp.base_aligned
  have hla := hp.length_aligned
  have hspares := mmapPageInRange_spares hr hg.1 h
  obtain ⟨rfl,hs',T',e,hview⟩ := mmapPageInRange_spec hr hg.1 h
  refine ⟨rfl,s'.ram,T',hs',e,hspares,?_⟩
  intro v hv
  have hserves : Serves s g.locals (l.base+i) l.pagemap := by
    rw [hg.2]
    refine ⟨id,List.mem_singleton_self _,l,hl,?_,rfl⟩
    rw [LocalRange.covers,LocalRange.stop,add64_eq (by simp only [pageSize] at *; omega),
      decide_eq_true_iff]
    omega
  have hkey : pageKey (word (l.base+i))=(l.base+i)/pageSize := by
    rw [pageKey,word,BitVec.toNat_ofNat]
    simp only [pageSize] at *
    omega
  obtain ⟨hhit,hmiss⟩ := hview l.pagemap top htop v hv
  by_cases hpage : (l.base+i)/pageSize=v/pageSize
  · rw [if_pos hpage]
    exact hhit (hkey.trans hpage) (.inr hserves)
  · rw [if_neg hpage]
    exact hmiss (fun hk => hpage (hkey.symm.trans hk.1))

theorem mapPages_spec {T : List Table} (hr : Rooted A s T) {id : Nat}
    (hg : g.shadowPagemap=some sh ∧ g.locals=[id]) (hl : s.locals id=some l)
    (htop : s.tops l.pagemap=some top) (hp : Placement l.base phys l.length) (hi : i%pageSize=0)
    (h : mapPages A g l.base phys l.length prot n i s=some (ok,s',maps)) :
    ok=true ∧ s'=s.setRam s'.ram ∧ ∃ T', Evolved A s.ram T s'.ram T' ∧ Spares A s.ram T s'.ram ∧
      ∀ v < 2^47, pteFrom M s'.ram.mem 3 top (word v)=
        if l.base+i ≤ v ∧ v < l.base+l.length then
          mapEntry (word (phys+(v/pageSize*pageSize-l.base))) (ptFlags prot)
        else pteFrom M s.ram.mem 3 top (word v) := by
  induction n generalizing i s T maps with
  | zero => cases h
  | succ n ih =>
    have hb := hp.stop
    have hps := hp.phys_stop
    have hba := hp.base_aligned
    have hla := hp.length_aligned
    rw [mapPages] at h
    by_cases hc : i < l.length
    · rw [if_pos hc] at h
      obtain ⟨⟨ok₁,s₁⟩,hm,h⟩ := bind_eq_some_iff.mp h
      have hnext : add64 i pageSize=i+pageSize := by
        apply add64_eq
        simp only [pageSize] at *
        omega
      rw [add64_eq (show l.base+i < 2^64 by simp only [pageSize] at hb; omega),
        add64_eq (show phys+i < 2^64 by omega)] at hm
      obtain ⟨rfl,r₁,T₁,rfl,e₁,k₁,hview₁⟩ := mapPage_spec hr hg hl htop hp hi hc hm
      rw [if_neg (by simp),hnext] at h
      obtain ⟨⟨ok₂,s₂,maps₂⟩,h2,he⟩ := map_eq_some_iff.mp h
      cases he
      obtain ⟨hok,hs',T₂,e₂,k₂,hview₂⟩ := ih (hr.evolve e₁) hl htop
        (by simp only [pageSize] at *; omega) h2
      refine ⟨hok,hs',T₂,e₁.trans e₂,k₁.trans e₁ k₂,?_⟩
      intro v hv
      rw [hview₂ v hv]
      show (if _ then _ else pteFrom M r₁.mem 3 top (word v))=_
      rw [hview₁ v hv]
      by_cases hpage : (l.base+i)/pageSize=v/pageSize
      · have hoff : phys+i=phys+(v/pageSize*pageSize-l.base) := by
          simp only [pageSize] at *
          omega
        rw [if_neg (by simp only [pageSize] at *; omega),if_pos hpage,
          if_pos (by simp only [pageSize] at *; omega),hoff]
      · have hiff : (l.base+(i+pageSize) ≤ v ∧ v < l.base+l.length) ↔
            (l.base+i ≤ v ∧ v < l.base+l.length) := by
          simp only [pageSize] at *
          omega
        rw [if_neg hpage]
        simp only [hiff]
    · rw [if_neg hc] at h
      cases h
      refine ⟨rfl,rfl,T,.refl hr.forest hr.full,.refl _ _,?_⟩
      intro v _
      rw [if_neg (by omega)]

/-- The pagemaps are known by number; the next one is free. -/
structure Stocked (A : PageAllocator M P) (s : MmapState M P) (T : List Table) : Prop
    extends Rooted A s T where
  known : ∀ pm t, s.tops pm=some t → pm < s.nextPagemap

theorem Stocked.setRam {T T' : List Table} (h : Stocked A s T) (he : Evolved A s.ram T r' T') :
    Stocked A (s.setRam r') T' :=
  ⟨h.toRooted.evolve he,h.known⟩

theorem Stocked.addRange {T : List Table} {ranges : Nat → List Nat} (h : Stocked A s T)
    (htop : ⟨top,3⟩∈T) (hnew : ∀ pm, s.tops pm≠some top) :
    Stocked A (s.addRange top ranges l g) T := by
  refine ⟨⟨h.forest,h.full,h.krnl,?_,?_⟩,?_⟩
  · intro pm t ht
    obtain ⟨-,rfl⟩ | ⟨-,ht⟩ := update_cases ht
    · exact htop
    · exact h.top pm t ht
  · intro pm pm' t ht ht'
    obtain ⟨rfl,rfl⟩ | ⟨-,hold⟩ := update_cases ht
    all_goals obtain ⟨rfl,h2⟩ | ⟨-,hold'⟩ := update_cases ht'
    · rfl
    · exact absurd hold' (hnew pm')
    · exact absurd (h2 ▸ hold) (hnew pm)
    · exact h.inj pm pm' t hold hold'
  · intro pm t ht
    obtain ⟨rfl,-⟩ | ⟨-,hold⟩ := update_cases ht
    · exact Nat.lt_succ_self _
    · exact Nat.lt_succ_of_lt (h.known pm t hold)

theorem Stocked.newRange {T : List Table} (hs : Stocked A s T) {x : Option Nat} {r₁ : Ram P}
    (hnew : vmmNewPagemap A s.ram (some s.krnlPage)=some (x,r₁)) :
    ∃ top₁ T₁, x=some top₁ ∧ Created A s.ram T s.krnlPage top₁ r₁ T₁ ∧
      ∀ ranges l g, Stocked A ((s.setRam r₁).addRange top₁ ranges l g) T₁ := by
  obtain ⟨top₁,T₁,rfl,hc⟩ := vmmNewPagemap_created hs.forest hs.full hs.krnl hnew
  have hfresh : ∀ pm', s.tops pm'≠some top₁ := fun pm' ht => hc.new (hs.top pm' top₁ ht)
  exact ⟨top₁,T₁,rfl,hc,fun _ _ _ => (hs.setRam hc.evolved).addRange hc.self hfresh⟩

theorem Stocked.tops_newRange {T : List Table} (hs : Stocked A s T) (htop : s.tops pm=some top) :
    update s.tops s.nextPagemap (some top₁) pm=some top :=
  (update_of_ne (Nat.ne_of_lt (hs.known pm top htop)) _ _).trans htop

theorem mmapRange_evolved {T : List Table} (hs : Stocked A s T) {flags : Nat}
    (htop : s.tops pm=some top)
    (h : mmapRange A s pm virt phys length prot flags=some (ok,s',maps)) :
    ok=true ∧ s'.tops pm=some top ∧ ∃ T', Stocked A s' T' ∧ Evolved A s.ram T s'.ram T' := by
  obtain ⟨⟨x,r₁⟩,hnew,h⟩ := bind_eq_some_iff.mp h
  obtain ⟨top₁,T₁,rfl,hc,hst⟩ := hs.newRange hnew
  obtain ⟨⟨ok₁,s₁,maps₁⟩,hmap,h⟩ := map_eq_some_iff.mp h
  obtain ⟨rfl,hs',T₂,e₂,-⟩ := mapPages_evolved (hst _ _ _).toRooted rfl hmap
  cases h
  rw [hs']
  exact ⟨rfl,hs.tops_newRange htop,T₂,(hst _ _ _).setRam e₂,hc.evolved.trans e₂⟩

theorem mmapRange_spec {T : List Table} (hs : Stocked A s T) {flags : Nat}
    (htop : s.tops pm=some top) (hp : Placement (alignDown virt pageSize) phys
      (alignUp (add64 length (sub64 virt (alignDown virt pageSize))) pageSize))
    (h : mmapRange A s pm virt phys length prot flags=some (true,s',maps)) :
    s'.tops pm=some top ∧ ∃ T', Stocked A s' T' ∧ Evolved A s.ram T s'.ram T' ∧
      Spares A s.ram T s'.ram ∧
      ∀ v < 2^47, pteFrom M s'.ram.mem 3 top (word v)=
        if v∈(⟨alignDown virt pageSize,
            alignUp (add64 length (sub64 virt (alignDown virt pageSize))) pageSize⟩ : Span) then
          mapEntry (word (phys+(v/pageSize*pageSize-alignDown virt pageSize))) (ptFlags prot)
        else pteFrom M s.ram.mem 3 top (word v) := by
  obtain ⟨top₁,r₁,l,g,hnew,rfl,rfl,hmap⟩ := mmapRange_true h
  obtain ⟨t,T₁,ht,hc,hnext⟩ := hs.newRange hnew
  cases ht
  have hst := hnext (newRanges s pm)
    ⟨pm,s.nextGlobal,alignDown virt pageSize,
      alignUp (add64 length (sub64 virt (alignDown virt pageSize))) pageSize,0,prot,
      flags ||| mapAnonymous⟩
    ⟨some s.nextPagemap,[s.nextLocal],none,alignDown virt pageSize,
      alignUp (add64 length (sub64 virt (alignDown virt pageSize))) pageSize,0⟩
  have htop' : update s.tops s.nextPagemap (some top₁) pm=some top := hs.tops_newRange htop
  obtain ⟨-,hs',T₂,e₂,k₂,hview⟩ := mapPages_spec hst.toRooted ⟨rfl,rfl⟩
    (update_self s.nextLocal _ _) htop' hp (Nat.zero_mod _) hmap
  have hspare := vmmNewPagemap_spares hs.forest hs.full hs.krnl hnew
  obtain ⟨r',rfl⟩ : ∃ r', s'=_ := ⟨_,hs'⟩
  refine ⟨htop',T₂,hst.setRam e₂,hc.evolved.trans e₂,hspare.trans hc.evolved k₂,?_⟩
  intro v hv
  have hnow := hview v hv
  have hold := hc.views _ (hs.top pm top htop) rfl (word v)
  simp only [Nat.add_zero] at hnow
  rw [hnow]
  by_cases hm : v∈(⟨alignDown virt pageSize,
      alignUp (add64 length (sub64 virt (alignDown virt pageSize))) pageSize⟩ : Span)
  · rw [if_pos hm,if_pos ((Span.mem_mk _ _ _).mp hm)]
  · rw [if_neg hm,if_neg (fun h => hm ((Span.mem_mk _ _ _).mpr h))]
    exact hold

namespace Stock

variable (S : Stock A) {m : Nat}

theorem mapOver (h : S.Left (m+3) s.ram.pmm) (htop : s.tops pm=some top) (virt phys : Nat)
    (flags : BitVec 64) :
    ∃ x, Memory.mapOver A s (some pm) virt phys flags=some x ∧ S.Left m x.2.ram.pmm := by
  obtain ⟨x,hx,hleft⟩ := S.vmmMapPage h top (word virt) (word phys) flags true
  rw [Memory.mapOver,htop,bind_some,hx,map_some]
  exact ⟨_,rfl,hleft⟩

theorem mmapPageInRange (h : S.Left (m+6) s.ram.pmm) {id : Nat}
    (hg : g.shadowPagemap=some sh ∧ g.locals=[id]) (hsh : s.tops sh=some top₁)
    (hl : s.locals id=some l) (htop : s.tops l.pagemap=some top) (virt phys prot : Nat) :
    ∃ x, Memory.mmapPageInRange A s g virt phys prot=some x ∧ S.Left m x.2.ram.pmm := by
  obtain ⟨⟨ok,s₁⟩,hm,hleft⟩ := S.mapOver (m:=m+3) h hsh virt phys (ptFlags prot)
  rw [Memory.mmapPageInRange,hg.1,hm,bind_some]
  split
  · exact ⟨_,rfl,S.of_more 3 hleft⟩
  obtain ⟨r₁,rfl⟩ : ∃ r₁, s₁=s.setRam r₁ := ⟨_,(mapOver_grew hm).objects⟩
  rw [hg.2,mapLocals,show (s.setRam r₁).locals id=some l from hl,bind_some]
  split
  · obtain ⟨y,hy,hleft⟩ := S.mapOver hleft (s:=s.setRam r₁) htop virt phys (ptFlags prot)
    rw [hy,bind_some]
    split
    · exact ⟨_,rfl,hleft⟩
    · exact ⟨_,rfl,hleft⟩
  · exact ⟨_,rfl,S.of_more 3 hleft⟩

theorem mapPages {id k : Nat} (h : S.Left (m+6*k) s.ram.pmm)
    (hg : g.shadowPagemap=some sh ∧ g.locals=[id]) (hsh : s.tops sh=some top₁)
    (hl : s.locals id=some l) (htop : s.tops l.pagemap=some top) (virt phys prot : Nat)
    (hlt : i+k*pageSize < 2^64) (hn : k < n) :
    ∃ x, Memory.mapPages A g virt phys (i+k*pageSize) prot n i s=some x ∧
      S.Left m x.2.1.ram.pmm := by
  induction k generalizing n i s with
  | zero =>
    obtain ⟨n,rfl⟩ := Nat.exists_eq_add_of_lt hn
    rw [Nat.zero_add,Memory.mapPages,if_neg (by omega)]
    exact ⟨_,rfl,h⟩
  | succ k ih =>
    obtain ⟨n,rfl⟩ : ∃ n', n=n'+1 := ⟨n-1,by omega⟩
    rw [Nat.succ_mul] at hlt ⊢
    obtain ⟨⟨ok,s₁⟩,hm,hleft⟩ := S.mmapPageInRange (m:=m+6*k) h hg hsh hl htop (add64 virt i)
      (add64 phys i) prot
    rw [Memory.mapPages,if_pos (by rw [pageSize]; omega),hm,bind_some]
    split
    · exact ⟨_,rfl,S.of_more (6*k) hleft⟩
    obtain ⟨r₁,rfl⟩ : ∃ r₁, s₁=s.setRam r₁ := ⟨_,(mmapPageInRange_grew hm).objects⟩
    obtain ⟨y,hy,hleft⟩ := ih hleft hsh hl htop (i:=i+pageSize) (n:=n) (by omega) (by omega)
    rw [add64_eq (show i+pageSize < 2^64 by omega),
      show i+(k*pageSize+pageSize)=i+pageSize+k*pageSize by omega,hy,map_some]
    exact ⟨_,rfl,hleft⟩

theorem mmapRange {T : List Table} (hs : Stocked A s T) {k : Nat} (h : S.Left (m+6*k+7) s.ram.pmm)
    (htop : s.tops pm=some top)
    (hk : alignUp (add64 length (sub64 virt (alignDown virt pageSize))) pageSize=k*pageSize)
    (phys prot flags : Nat) : ∃ x, Memory.mmapRange A s pm virt phys length prot flags=some x ∧
      S.Left m x.2.1.ram.pmm := by
  obtain ⟨⟨x,r₁⟩,hnew,hleft⟩ := S.vmmNewPagemap h s.krnlPage
  obtain ⟨top₁,T₁,rfl,-,-⟩ := hs.newRange hnew
  have hlt : k*pageSize < 2^64 := by
    rw [← hk,alignUp]
    exact Nat.mod_lt _ (by decide)
  rw [Memory.mmapRange,hnew,bind_some]
  dsimp only
  have hround : k < rounds := by
    rw [rounds]
    rw [pageSize] at hlt
    omega
  rw [hk]
  generalize hl : (⟨pm,s.nextGlobal,alignDown virt pageSize,k*pageSize,0,prot,
    flags ||| mapAnonymous⟩ : LocalRange)=l
  generalize hg : (⟨some s.nextPagemap,[s.nextLocal],none,alignDown virt pageSize,k*pageSize,0⟩ :
    GlobalRange M)=g
  have hshadow : ((s.setRam r₁).addRange top₁ (newRanges s pm) l g).tops s.nextPagemap=some top₁ :=
    update_self _ _ _
  have hlocal : ((s.setRam r₁).addRange top₁ (newRanges s pm) l g).locals s.nextLocal=some l :=
    update_self _ _ _
  have hpm : ((s.setRam r₁).addRange top₁ (newRanges s pm) l g).tops l.pagemap=some top := by
    rw [← hl]
    exact hs.tops_newRange htop
  obtain ⟨⟨ok,y⟩,hy,hleft⟩ := S.mapPages
    (s:=(s.setRam r₁).addRange top₁ (newRanges s pm) l g) (g:=g) (i:=0) (n:=rounds) hleft
    (by rw [← hg]; exact ⟨rfl,rfl⟩) hshadow hlocal hpm (alignDown virt pageSize) phys prot
    (by omega) hround
  rw [Nat.zero_add] at hy
  rw [hy,map_some]
  cases ok
  · exact ⟨_,rfl,hleft⟩
  · exact ⟨_,rfl,hleft⟩

end Stock

end X64OS.Memory
