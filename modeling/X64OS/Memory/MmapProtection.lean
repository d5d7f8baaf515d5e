import X64OS.Memory.MmapFaults
import X64OS.Memory.MunmapPages

namespace X64OS.Memory

open Framework

variable {M : Machine} {P : Type} {A : PageAllocator M P}
variable {s s' : MmapState M P} {T : List Table} {top virt phys : Nat} {flags : BitVec 64}

/-- The entry allows what prot allows. -/
def CarriesProt (pte : BitVec 64) (prot : Nat) : Prop :=
  (pte &&& pteWritable≠0 ↔ prot &&& protWrite≠0) ∧ (pte &&& pteNx≠0 ↔ prot &&& protExec=0)

theorem entry_and_bit {page i : Nat} (flags : BitVec 64) (h : page/2^i%2=0) :
    (word page ||| flags) &&& BitVec.twoPow 64 i=flags &&& BitVec.twoPow 64 i := by
  have hbit : (word page).getLsbD i=false := by
    rw [word,BitVec.getLsbD_ofNat,Nat.testBit_eq_decide_div_mod_eq,h]
    exact Bool.and_false _
  have hzero : word page &&& BitVec.twoPow 64 i=0#64 := by
    rw [BitVec.and_twoPow,hbit]
    rfl
  rw [BitVec.and_or_distrib_right,hzero,BitVec.zero_or]

/-- The entry of a fault: the writable bit follows PROT_WRITE, the no-execute bit is
never set. -/
theorem mapEntry_prot {page : Nat} (prot : Nat) (ha : page%pageSize=0) (hlt : page < 2^52) :
    (mapEntry (word page) (ptFlags prot) &&& pteWritable≠0 ↔ prot &&& protWrite≠0) ∧
      mapEntry (word page) (ptFlags prot) &&& pteNx=0 := by
  have hw : pteWritable=BitVec.twoPow 64 1 := by decide
  have hnx : pteNx=BitVec.twoPow 64 63 := by decide
  simp only [pageSize] at ha
  constructor
  · rw [mapEntry,hw,entry_and_bit _ (by omega),ptFlags]
    by_cases hprot : prot &&& protWrite=0
    · rw [if_neg (not_not.mpr hprot)]
      refine iff_of_false ?_ (not_not.mpr hprot)
      split <;> decide
    · rw [if_pos hprot]
      refine iff_of_true ?_ hprot
      split <;> decide
  · rw [mapEntry,hnx,entry_and_bit _ (by omega),ptFlags]
    split <;> split <;> decide

theorem mapOver_entry (hr : Rooted A s T) {pm : Nat} {ok : Bool}
    (h : mapOver A s (some pm) virt phys flags=some (ok,s')) :
    ok=true ∧ ∃ top T' r, s.tops pm=some top ∧ s'=s.setRam r ∧ Rooted A s' T' ∧
      ∀ pm' top', s.tops pm'=some top' → ∀ w, pteFrom M s'.ram.mem 3 top' w=
        if SameEntry top (word virt) top' w then mapEntry (word phys) flags
        else pteFrom M s.ram.mem 3 top' w := by
  obtain ⟨top,ht,h⟩ := Option.bind_eq_some_iff.mp h
  obtain ⟨⟨ok',r⟩,hm,he⟩ := Option.map_eq_some_iff.mp h
  cases he
  have htop := hr.top pm top ht
  obtain ⟨hok,T',e,hview⟩ := vmmMapPage_spec hr.forest htop
    (hr.full.mayGrow htop (levelIndex_lt le_rfl _)) hm
  rw [Bool.or_true] at hok
  refine ⟨hok,top,T',r,ht,rfl,hr.evolve (e.evolved hr.full),fun pm' top' ht' w => ?_⟩
  have hw := hview _ (hr.top pm' top' ht') rfl w
  simp only [hok,true_and] at hw
  exact hw

theorem mapLocals_entry (hr : Rooted A s T) {pm cr2 : Nat} {ids : List Nat} {ok : Bool}
    (ht : s.tops pm=some top) (hkey : pageKey (word virt)=pageKey (word cr2))
    (h : mapLocals A virt phys flags ids s=some (ok,s'))
    (hmap : Serves s ids virt pm ∨
      pteFrom M s.ram.mem 3 top (word cr2)=mapEntry (word phys) flags) :
    pteFrom M s'.ram.mem 3 top (word cr2)=mapEntry (word phys) flags := by
  induction ids generalizing s T with
  | nil =>
    cases h
    obtain ⟨id,hid,-⟩ | hmap := hmap
    · cases hid
    · exact hmap
  | cons id ids ih =>
    obtain ⟨l,hl,h⟩ := Option.bind_eq_some_iff.mp h
    rw [serves_cons hl] at hmap
    by_cases hc : l.covers virt=true
    · rw [if_pos hc] at h
      obtain ⟨⟨ok₁,s₁⟩,hm,h⟩ := Option.bind_eq_some_iff.mp h
      obtain ⟨rfl,top₁,T₁,r₁,ht₁,rfl,hr₁,hview⟩ := mapOver_entry hr hm
      rw [if_neg (by simp)] at h
      have hnow := hview pm top ht (word cr2)
      have hkeep : Serves s ids virt pm ∨
          pteFrom M r₁.mem 3 top (word cr2)=mapEntry (word phys) flags := by
        obtain (⟨-,hpm⟩ | hserves) | hold := hmap
        · rw [hpm,ht] at ht₁
          cases ht₁
          exact .inr (hnow.trans (if_pos ⟨hkey,.inl rfl⟩))
        · exact .inl hserves
        · refine .inr (hnow.trans ?_)
          split
          · rfl
          · exact hold
      exact ih hr₁ ht h hkeep
    · rw [if_neg hc] at h
      exact ih hr ht h (hmap.imp (fun hs => hs.resolve_left (fun hcov => hc hcov.1)) (fun h => h))

theorem mmapPf_entry (hr : Rooted A s T) {task cr2 err rip : Nat} {hit : RangeHit}
    {g : GlobalRange M} (ht : s.tops (s.pgm task)=some top)
    (hf : addr2range s (s.pgm task) cr2=some (some hit)) (hg : s.globals hit.range.global=some g)
    (hserves : Serves s g.locals (cr2/pageSize*pageSize) (s.pgm task))
    (h : mmapPf A s task cr2 err rip=some (true,s')) :
    ∃ page, page%pageSize=0 ∧ page < 2^52 ∧
      pteFrom M s'.ram.mem 3 top (word cr2)=mapEntry (word page) (ptFlags hit.range.prot) := by
  obtain ⟨hit',g',page,r,hf',hg',hpage,-,hm⟩ := mmapPf_true h
  cases hf.symm.trans hf'
  cases hg.symm.trans hg'
  obtain ⟨e,ha,hlt,-⟩ := faultPage_evolved hr hpage
  refine ⟨page,ha,hlt,?_⟩
  have hkey : pageKey (word (cr2/pageSize*pageSize))=pageKey (word cr2) :=
    pageKey_page (Nat.mul_div_cancel _ (by decide))
  obtain ⟨⟨ok,s₁⟩,hsh,hrest⟩ := Option.bind_eq_some_iff.mp hm
  cases hnone : g.shadowPagemap with
  | none =>
    rw [hnone] at hsh
    cases hsh
    cases hrest
  | some sh =>
    rw [hnone] at hsh
    obtain ⟨rfl,-,T₁,r₁,-,rfl,hr₁,-⟩ := mapOver_entry (hr.evolve e) hsh
    rw [if_neg (by simp)] at hrest
    exact mapLocals_entry hr₁ ht hkey hrest (.inl hserves)

/-- Where a handled fault installs an entry, it carries the protection of the range
exactly if the range is executable. -/
theorem fault_protection_iff (A : PageAllocator M P) (s s' : MmapState M P) (T : List Table)
    (hr : Rooted A s T) (task cr2 err rip top : Nat) (ht : s.tops (s.pgm task)=some top)
    (hit : RangeHit) (hf : addr2range s (s.pgm task) cr2=some (some hit)) (g : GlobalRange M)
    (hg : s.globals hit.range.global=some g)
    (hserves : Serves s g.locals (cr2/pageSize*pageSize) (s.pgm task))
    (h : mmapPf A s task cr2 err rip=some (true,s')) :
    isPresent (pteFrom M s'.ram.mem 3 top (word cr2))=true ∧
      (pteFrom M s'.ram.mem 3 top (word cr2) &&& pteWritable≠0 ↔
        hit.range.prot &&& protWrite≠0) ∧
      (CarriesProt (pteFrom M s'.ram.mem 3 top (word cr2)) hit.range.prot ↔
        hit.range.prot &&& protExec≠0) := by
  obtain ⟨page,ha,hlt,hpte⟩ := mmapPf_entry hr ht hf hg hserves h
  obtain ⟨hwrite,hnx⟩ := mapEntry_prot hit.range.prot ha hlt
  rw [hpte]
  refine ⟨(mapEntry_page _ ha hlt).1,hwrite,?_⟩
  rw [CarriesProt,hnx,and_iff_right hwrite,iff_false_left (not_not.mpr rfl)]

def onePage (prot : Nat) : MmapState bumpMachine Nat :=
  oneRange ⟨0,0,0x80000000000,pageSize,0,prot,mapAnonymous⟩

theorem onePage_serves (prot : Nat) : Serves (onePage prot) [0] 0x80000000000 0 :=
  ⟨0,List.mem_singleton_self 0,_,rfl,
    (by decide : decide (0x80000000000 ≤ 0x80000000000 ∧
      0x80000000000 < add64 0x80000000000 pageSize)=true),rfl⟩

theorem onePage_found (prot : Nat) : ∃ hit, addr2range (onePage prot) 0 0x80000000123=some (some hit) ∧
    hit.range=⟨0,0,0x80000000000,pageSize,0,prot,mapAnonymous⟩ := by
  have hcov : (⟨0,0,0x80000000000,pageSize,0,prot,mapAnonymous⟩ : LocalRange).covers 0x80000000123=
      true :=
    (by decide : decide (0x80000000000 ≤ 0x80000000123 ∧
      0x80000000123 < add64 0x80000000000 pageSize)=true)
  rw [addr2range,show (onePage prot).ranges 0=[0] from rfl,findRange,
    show (onePage prot).locals 0=some _ from rfl]
  dsimp only
  rw [if_pos hcov]
  exact ⟨_,rfl,rfl⟩

theorem fault_protection_iff_readExec : ∃ s',
    mmapPf (bumpPages bumpMachine) (onePage 6) 0 0x80000000123 4 0=some (true,s') ∧
      isPresent (pteFrom bumpMachine s'.ram.mem 3 processTop (word 0x80000000123))=true ∧
      (pteFrom bumpMachine s'.ram.mem 3 processTop (word 0x80000000123) &&& pteWritable≠0 ↔
        6 &&& protWrite≠0) ∧
      (CarriesProt (pteFrom bumpMachine s'.ram.mem 3 processTop (word 0x80000000123)) 6 ↔
        6 &&& protExec≠0) := by
  have hrun : (mmapPf (bumpPages bumpMachine) (onePage 6) 0 0x80000000123 4 0).map (fun x => x.1)=
      some true := by
    decide +kernel
  obtain ⟨⟨ok,s'⟩,h,rfl⟩ := Option.map_eq_some_iff.mp hrun
  obtain ⟨hit,hf,hrange⟩ := onePage_found 6
  have hspec := fault_protection_iff (bumpPages bumpMachine) (onePage 6) s' processTables
    (oneRange_rooted _) 0 0x80000000123 4 0 processTop rfl hit hf _ (by rw [hrange]; rfl)
    (onePage_serves 6) h
  rw [hrange] at hspec
  exact ⟨s',h,hspec⟩

/-- A page that may be read and written: its entry lacks the no-execute bit. -/
theorem fault_allows_execution : ∃ s',
    mmapPf (bumpPages bumpMachine) (onePage 3) 0 0x80000000123 4 0=some (true,s') ∧
      pteFrom bumpMachine s'.ram.mem 3 processTop (word 0x80000000123) &&& ptePresent≠0 ∧
      3 &&& protExec=0 ∧
      pteFrom bumpMachine s'.ram.mem 3 processTop (word 0x80000000123) &&& pteNx=0 := by
  have hrun : (mmapPf (bumpPages bumpMachine) (onePage 3) 0 0x80000000123 4 0).map (fun x =>
      (x.1,pteFrom bumpMachine x.2.ram.mem 3 processTop (word 0x80000000123)))=
      some (true,0x203007#64) := by
    decide +kernel
  obtain ⟨⟨ok,s'⟩,h,hv⟩ := Option.map_eq_some_iff.mp hrun
  simp only [Prod.mk.injEq] at hv
  obtain ⟨rfl,hpte⟩ := hv
  refine ⟨s',h,?_,by decide,?_⟩
  all_goals
    rw [hpte]
    decide

end X64OS.Memory
