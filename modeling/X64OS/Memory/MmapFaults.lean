import X64OS.Memory.MmapOwners
import X64OS.Memory.MmapRuns

namespace X64OS.Memory

open Framework
open Option (map_eq_some_iff bind_eq_some_iff ite_none_right_eq_some)

variable {M : Machine} {P : Type} {A : PageAllocator M P}
variable {T : List Table} {s s' : MmapState M P} {N : Nat}

/-- What the threads ask of mmap.cpp, with the page faults of the processor. -/
inductive MmapCall (M : Machine) where
  | mmap (task addr length prot flags : Nat) (node : Option (Resource M)) (offset : Nat)
  | munmap (task addr length : Nat)
  | fault (task cr2 err rip : Nat)

/-- Bit 0 of the error code is clear only for a page that is not present. -/
def FaultCode (A : PageAllocator M P) (s : MmapState M P) (task cr2 err : Nat) : Prop :=
  err%2=1 ∨ (s.tops (s.pgm task)).bind (fun top => vmmVirt2phys A s.ram top (word cr2))=
    some invalidPhys

instance (s : MmapState M P) (task cr2 err : Nat) : Decidable (FaultCode A s task cr2 err) :=
  inferInstanceAs (Decidable (_ ∨ _))

section

variable (A)

def mmapCall (s : MmapState M P) : MmapCall M → Option (MmapState M P × List (FreeEvent M P))
  | .mmap task addr length prot flags node offset =>
    (mmap A s task none addr length prot flags node offset).map (fun x => x.2)
  | .munmap task addr length => (munmap A s (s.pgm task) addr length).map (fun x => x.2)
  | .fault task cr2 err rip =>
    if FaultCode A s task cr2 err then (mmapPf A s task cr2 err rip).map (fun x => (x.2,[])) else none

def mmapSystem : System (MmapState M P) (MmapCall M) :=
  .ofPartial (fun s c => (mmapCall A s c).map (fun x => x.1))

end

/-- Every mmap places its range on user pages. -/
def InUserSpace (s : MmapState M P) : MmapCall M → Prop
  | .mmap task _ length _ flags _ _ => UserWindow (mmapBase s task flags) (alignUp length pageSize)
  | _ => True

/-- Processes with their pagemaps, before the first mmap. -/
structure Booted (A : PageAllocator M P) (s : MmapState M P) (T : List Table) : Prop
    extends Rooted A s T where
  known : ∀ pm t, s.tops pm=some t → pm < s.nextPagemap
  threads : ∀ task, s.pgm task < s.nextPagemap
  locals : ∀ k, s.locals k=none
  globals : ∀ gid, s.globals gid=none

theorem Booted.paged (h : Booted A s T) : Paged A s.nextPagemap s T := by
  have hheld : ∀ gid v p, ¬Held s gid v p := by
    intro gid v p hh
    obtain ⟨k,l,hl,-⟩ := hh.owner
    rw [h.locals] at hl
    cases hl
  refine ⟨h.toRooted,le_rfl,h.threads,h.known,?_,?_,?_,?_,?_,?_⟩
  · intro k l hl
    rw [h.locals] at hl
    cases hl
  · intro gid g hg
    rw [h.globals] at hg
    cases hg
  · intro gid g _ _ hg
    rw [h.globals] at hg
    cases hg
  · intro k l _ _ hl
    rw [h.locals] at hl
    cases hl
  · exact fun gid v p hh => absurd hh (hheld gid v p)
  · exact fun gid v _ _ p hh => absurd hh (hheld gid v p)

theorem Paged.call (hp : Paged A N s T) {c : MmapCall M} (hc : InUserSpace s c)
    (h : (mmapSystem A).step s c s') : ∃ T', Paged A N s' T' := by
  obtain ⟨⟨t,evs⟩,hcall,rfl⟩ := map_eq_some_iff.mp h
  cases c with
  | mmap task addr length prot flags node offset =>
    obtain ⟨⟨ret,t',evs'⟩,hm,he⟩ := map_eq_some_iff.mp hcall
    cases he
    exact hp.mmap hc hm
  | munmap task addr length =>
    obtain ⟨⟨ok,t',evs'⟩,hm,he⟩ := map_eq_some_iff.mp hcall
    cases he
    exact hp.munmap (hp.threads task) hm
  | fault task cr2 err rip =>
    obtain ⟨-,hpf⟩ := ite_none_right_eq_some.mp hcall
    obtain ⟨⟨ok,t'⟩,hm,he⟩ := map_eq_some_iff.mp hpf
    cases he
    exact hp.mmapPf hm

theorem mmapPf_true {task cr2 err rip : Nat} (h : mmapPf A s task cr2 err rip=some (true,s')) :
    ∃ hit g page r, addr2range s (s.pgm task) cr2=some (some hit) ∧
      s.globals hit.range.global=some g ∧ faultPage A s hit g=some (page,r) ∧ page≠0 ∧
      mmapPageInRange A (s.setRam r) g (cr2/pageSize*pageSize) page hit.range.prot=some (true,s') := by
  obtain ⟨hok,-⟩ | ⟨-,hit,g,page,r,hf,hg,hpage,⟨-,hok,-⟩ | ⟨hne,hm⟩⟩ := mmapPf_cases h
  · cases hok
  · cases hok
  · exact ⟨hit,g,page,r,hf,hg,hpage,hne,hm⟩

theorem translate_word {page cr2 : Nat} (prot : Nat) (ha : page%pageSize=0) (hlt : page < 2^52)
    (hcr2 : cr2 < 2^47) :
    translate (mapEntry (word page) (ptFlags prot)) (word cr2)=word (page+cr2%pageSize) := by
  obtain ⟨hp,haddr⟩ := mapEntry_page prot ha hlt
  rw [translate,if_pos hp,haddr]
  apply BitVec.eq_of_toNat_eq
  rw [BitVec.toNat_add,BitVec.toNat_umod,word_toNat hcr2]
  simp only [word,BitVec.toNat_ofNat,pageSize,Nat.reducePow,Nat.reduceMod]
  omega

/-- A fault on a missing user page that mmap_pf claims to have handled is
resolved exactly if a range on global->locals holds the page for the thread's
pagemap. -/
theorem fault_resolved_iff (s₀ : MmapState M P) (h₀ : Booted A s₀ T)
    (hr : ((mmapSystem A).restrict InUserSpace).Reachable s₀ s) (task cr2 err rip top : Nat)
    (hcr2 : cr2 < 2^47) (ht : s.tops (s.pgm task)=some top)
    (habs : vmmVirt2phys A s.ram top (word cr2)=some invalidPhys)
    (h : mmapPf A s task cr2 err rip=some (true,s')) :
    ∃ hit g page r, addr2range s (s.pgm task) cr2=some (some hit) ∧
      s.globals hit.range.global=some g ∧ faultPage A s hit g=some (page,r) ∧
      word (page+cr2%pageSize)≠invalidPhys ∧
      (vmmVirt2phys A s'.ram top (word cr2)=some (word (page+cr2%pageSize)) ↔
        Serves s g.locals (cr2/pageSize*pageSize) (s.pgm task)) := by
  obtain ⟨T,hp⟩ : ∃ T, Paged A s₀.nextPagemap s T :=
    hr.invariant (I := fun s => ∃ T, Paged A s₀.nextPagemap s T) ⟨T,h₀.paged⟩
      (fun _ _ _ ⟨_,hp⟩ hc => hp.call hc.1 hc.2)
  obtain ⟨hit,g,page,r,hf,hg,hpage,-,hm⟩ := mmapPf_true h
  obtain ⟨-,-,sh,hsh,hN,-⟩ := hp.object _ g hg
  obtain ⟨-,hfault⟩ := hp.fault (findRange_some hf).2.1 hg hsh hpage hm
  have hvalid : word (page+cr2%pageSize)≠invalidPhys := by
    rw [← translate_word 0 hfault.aligned hfault.bound hcr2]
    exact translate_valid (mapEntry_page 0 hfault.aligned hfault.bound).1
  refine ⟨hit,g,page,r,hf,hg,hpage,hvalid,?_⟩
  obtain ⟨T',hp'⟩ := hfault.paged
  obtain ⟨r',rfl⟩ : ∃ r', s'=s.setRam r' := ⟨_,hfault.ram⟩
  have hkey : pageKey (word (cr2/pageSize*pageSize))=cr2/pageSize := by
    have hle : cr2/pageSize*pageSize ≤ cr2 := Nat.div_mul_le_self _ _
    rw [pageKey_word (by omega)]
    exact Nat.mul_div_cancel _ (by decide)
  have hne : s.pgm task≠sh := by
    have hlt := hp.threads task
    omega
  rw [hp'.toRooted.virt2phys (show (s.setRam r').tops (s.pgm task)=some top from ht) cr2]
  constructor
  · intro hphys
    by_contra hno
    have hold := hfault.same _ top ht cr2 hcr2 (fun hc => hc.2.elim hne hno)
    rw [hp.toRooted.virt2phys ht cr2,← hold] at habs
    rw [habs] at hphys
    exact hvalid (Option.some.inj hphys).symm
  · intro hserves
    rw [hfault.mapped _ top ht cr2 hcr2 hkey (.inr hserves),
      translate_word _ hfault.aligned hfault.bound hcr2]

theorem processMem_byte {p i j : Nat} (hi : i < 512) (hj : j < 8) :
    processMem (bumpMachine.hhdm+p*pageSize+8*i+j)=
      if p=1 ∨ (p=514 ∧ 256 ≤ i) then BitVec.ofNat 8 (((2+i)*pageSize+7)/256^j) else 0 := by
  rw [processMem]
  generalize bumpMachine.hhdm=base
  have hoff : base+p*pageSize+8*i+j-base=p*pageSize+8*i+j := by omega
  have hdiv : (p*pageSize+8*i+j)/pageSize=p := by
    simp only [pageSize]
    omega
  have hidx : (p*pageSize+8*i+j)%pageSize/8=i := by
    simp only [pageSize]
    omega
  have hmod : (p*pageSize+8*i+j)%8=j := by
    simp only [pageSize]
    omega
  have hle : base ≤ base+p*pageSize+8*i+j := by omega
  simp only [hoff,hdiv,hidx,hmod,hle,true_and]

theorem processMem_entry (p : Nat) {i : Nat} (hi : i < 512) :
    entry processMem (bumpMachine.hhdm+p*pageSize) i=
      if p=1 ∨ (p=514 ∧ 256 ≤ i) then BitVec.ofNat 64 ((2+i)*pageSize+7) else 0 := by
  have hbyte : ∀ x∈(⟨bumpMachine.hhdm+p*pageSize+8*i,8⟩ : Span), processMem x=
      if p=1 ∨ (p=514 ∧ 256 ≤ i) then
        BitVec.ofNat 8 (((2+i)*pageSize+7)/256^(x-(bumpMachine.hhdm+p*pageSize+8*i))) else 0 := by
    intro x hx
    rw [Span.mem_mk] at hx
    obtain ⟨j,rfl⟩ := Nat.exists_eq_add_of_le hx.1
    rw [processMem_byte hi (by omega),Nat.add_sub_cancel_left]
  by_cases hc : p=1 ∨ (p=514 ∧ 256 ≤ i)
  · simp only [if_pos hc] at hbyte ⊢
    have hv : (BitVec.ofNat 64 ((2+i)*pageSize+7)).toNat=(2+i)*pageSize+7 := by
      rw [BitVec.toNat_ofNat]
      simp only [pageSize]
      omega
    rw [entry,← Mem.read64_write64 processMem (bumpMachine.hhdm+p*pageSize+8*i)
      (BitVec.ofNat 64 ((2+i)*pageSize+7))]
    apply Mem.read64_congr
    intro x hx
    rw [Mem.write64,Mem.writeBytes,if_pos hx,hv]
    exact hbyte x hx
  · simp only [if_neg hc] at hbyte ⊢
    exact Mem.read64_eq_zero hbyte

def processTable (p : Nat) : Table :=
  ⟨bumpMachine.hhdm+p*pageSize,if p=1 ∨ p=514 then 3 else 2⟩

def processTables : List Table := (List.range' 1 514).map processTable

theorem mem_processTables {t : Table} :
    t∈processTables ↔ ∃ p, (1 ≤ p ∧ p < 515) ∧ processTable p=t := by
  simp only [processTables,List.mem_map,List.mem_range'_1,Nat.reduceAdd]

theorem processEntry_present : ∀ i < 512, isPresent (BitVec.ofNat 64 ((2+i)*pageSize+7))=true ∧
    nextTable bumpMachine (BitVec.ofNat 64 ((2+i)*pageSize+7))=bumpMachine.hhdm+(2+i)*pageSize := by
  decide +kernel

theorem processTable_present {p i : Nat} (hi : i < 512)
    (h : isPresent (entry processMem (processTable p).base i)=true) :
    (p=1 ∨ (p=514 ∧ 256 ≤ i)) ∧
      nextTable bumpMachine (entry processMem (processTable p).base i)=(processTable (2+i)).base := by
  rw [processTable] at h ⊢
  dsimp only at h ⊢
  rw [processMem_entry p hi] at h ⊢
  by_cases hc : p=1 ∨ (p=514 ∧ 256 ≤ i)
  · rw [if_pos hc]
    exact ⟨hc,(processEntry_present i hi).2⟩
  · rw [if_neg hc,isPresent_zero] at h
    cases h

theorem processTable_separate {p q : Nat} (h : p≠q) :
    (processTable p).span.Separate (processTable q).span := by
  intro x hx hy
  rw [Table.span,processTable,Span.mem_mk] at hx hy
  simp only [pageSize] at hx hy
  omega

theorem processTable_level {p k : Nat} (h : (processTable p).level=k+1) :
    (p=1 ∨ p=514) ∧ k=2 ∨ ¬(p=1 ∨ p=514) ∧ k=1 := by
  rw [processTable] at h
  dsimp only at h
  split at h
  · exact .inl ⟨‹_›,by omega⟩
  · exact .inr ⟨‹_›,by omega⟩

theorem processForest : Forest (bumpPages bumpMachine) processState.ram processTables where
  valid := Nat.succ_pos 514
  base t ht := by
    obtain ⟨p,hp,rfl⟩ := mem_processTables.mp ht
    have hw := bumpMachine.window
    have ha := bumpMachine.hhdm_aligned
    have hn : bumpMachine.physPages=1024 := rfl
    rw [hn] at hw
    simp only [processTable,pageSize] at hw ha ⊢
    omega
  used t ht x hx := by
    obtain ⟨p,hp,rfl⟩ := mem_processTables.mp ht
    rw [Table.span,processTable,Span.mem_mk] at hx
    have hlt : (x-bumpMachine.hhdm)/pageSize < 515 := by
      simp only [pageSize] at hx ⊢
      omega
    exact hlt
  apart := by
    rw [processTables,List.pairwise_map]
    exact List.Pairwise.imp processTable_separate (List.nodup_range' 1)
  child t ht k hl i hi hpres := by
    obtain ⟨p,hp,rfl⟩ := mem_processTables.mp ht
    obtain ⟨hc,hnext⟩ := processTable_present hi hpres
    obtain ⟨-,rfl⟩ | ⟨hno,-⟩ := processTable_level hl
    · refine mem_processTables.mpr ⟨2+i,by omega,?_⟩
      have hmid : ¬(2+i=1 ∨ 2+i=514) := by omega
      change _=(⟨nextTable bumpMachine (entry processMem (processTable p).base i),2⟩ : Table)
      rw [hnext,processTable,if_neg hmid]
    · omega
  single t ht u hu _ _ i hi j hj hpi hpj heq := by
    obtain ⟨p,hp,rfl⟩ := mem_processTables.mp ht
    obtain ⟨q,hq,rfl⟩ := mem_processTables.mp hu
    obtain ⟨hcp,hnp⟩ := processTable_present hi hpi
    obtain ⟨hcq,hnq⟩ := processTable_present hj hpj
    have hij : i=j := by
      have h := hnp.symm.trans (Eq.trans heq hnq)
      simp only [processTable,pageSize] at h
      omega
    refine ⟨hij,?_⟩
    by_cases hpq : p=q
    · rw [hpq]
      exact .inl rfl
    · refine .inr ⟨?_,?_,by omega⟩
      · rw [processTable]
        exact if_pos (by omega)
      · rw [processTable]
        exact if_pos (by omega)
  upper t ht u hu hlt hlu i h256 hi := by
    obtain ⟨p,hp,rfl⟩ := mem_processTables.mp ht
    obtain ⟨q,hq,rfl⟩ := mem_processTables.mp hu
    obtain ⟨hcp,-⟩ | ⟨-,h⟩ := processTable_level hlt
    · obtain ⟨hcq,-⟩ | ⟨-,h⟩ := processTable_level hlu
      · change entry processMem _ i=entry processMem _ i
        rw [processTable,processTable,processMem_entry p hi,processMem_entry q hi,
          if_pos (by omega),if_pos (by omega)]
      · cases h
    · cases h

def processTop : Nat := bumpMachine.hhdm+514*pageSize

theorem processState_booted : Booted (bumpPages bumpMachine) processState processTables where
  forest := processForest
  full t ht hl i h256 hi := by
    obtain ⟨p,hp,rfl⟩ := mem_processTables.mp ht
    obtain ⟨hc,-⟩ | ⟨-,h⟩ := processTable_level hl
    · change isPresent (entry processMem _ i)=true
      rw [processTable,processMem_entry p hi,if_pos (by omega)]
      exact (processEntry_present i hi).1
    · cases h
  krnl := mem_processTables.mpr ⟨1,by omega,rfl⟩
  top pm t ht := by
    obtain ⟨-,h⟩ := ite_none_right_eq_some.mp ht
    exact mem_processTables.mpr ⟨514,by omega,by rw [← Option.some.inj h]; rfl⟩
  inj pm pm' t ht ht' := by
    obtain ⟨h,-⟩ := ite_none_right_eq_some.mp ht
    obtain ⟨h',-⟩ := ite_none_right_eq_some.mp ht'
    exact h.trans h'.symm
  known pm t ht := by
    obtain ⟨h,-⟩ := ite_none_right_eq_some.mp ht
    rw [h]
    exact Nat.one_pos
  threads _ := Nat.one_pos
  locals _ := rfl
  globals _ := rfl

/-- The first process with one range. Pagemap 1 is the shadow pagemap of its global
range. -/
def oneRange (l : LocalRange) : MmapState bumpMachine Nat :=
  { processState with
    tops := fun pm =>
      if pm=0 then some processTop else if pm=1 then some (bumpMachine.hhdm+pageSize) else none
    ranges := fun pm => if pm=0 then [0] else []
    locals := fun k => if k=0 then some l else none
    globals := fun k => if k=0 then some ⟨some 1,[0],none,l.base,l.length,l.offset⟩ else none
    nextPagemap := 2
    nextLocal := 1
    nextGlobal := 1 }

theorem oneRange_tops {l : LocalRange} {pm t : Nat} (h : (oneRange l).tops pm=some t) :
    (pm=0 ∧ t=processTop) ∨ (pm=1 ∧ t=bumpMachine.hhdm+pageSize) := by
  dsimp only [oneRange] at h
  split at h
  · exact .inl ⟨‹_›,(Option.some.inj h).symm⟩
  · obtain ⟨hpm,h⟩ := ite_none_right_eq_some.mp h
    exact .inr ⟨hpm,(Option.some.inj h).symm⟩

theorem oneRange_rooted (l : LocalRange) :
    Rooted (bumpPages bumpMachine) (oneRange l) processTables where
  forest := processForest
  full := processState_booted.full
  krnl := processState_booted.krnl
  top pm t ht := by
    obtain ⟨-,rfl⟩ | ⟨-,rfl⟩ := oneRange_tops ht
    · exact mem_processTables.mpr ⟨514,by omega,rfl⟩
    · exact mem_processTables.mpr ⟨1,by omega,rfl⟩
  inj pm pm' t ht ht' := by
    have hne : processTop≠bumpMachine.hhdm+pageSize := by decide
    obtain ⟨rfl,rfl⟩ | ⟨rfl,rfl⟩ := oneRange_tops ht
    · exact (oneRange_tops ht').elim (fun h => h.1.symm) (fun h => absurd h.2 hne)
    · exact (oneRange_tops ht').elim (fun h => absurd h.2.symm hne) (fun h => h.1.symm)

theorem fault_resolved_iff_first : ∃ s s',
    ((mmapSystem (bumpPages bumpMachine)).restrict InUserSpace).Reachable processState s ∧
    mmapPf (bumpPages bumpMachine) s 0 0x80000000123 4 0=some (true,s') ∧
    ∃ hit g page r, addr2range s (s.pgm 0) 0x80000000123=some (some hit) ∧
      s.globals hit.range.global=some g ∧
      faultPage (bumpPages bumpMachine) s hit g=some (page,r) ∧
      word (page+0x80000000123%pageSize)≠invalidPhys ∧
      (vmmVirt2phys (bumpPages bumpMachine) s'.ram processTop (word 0x80000000123)=
          some (word (page+0x80000000123%pageSize)) ↔
        Serves s g.locals (0x80000000123/pageSize*pageSize) (s.pgm 0)) := by
  have hrun : ((mmapCall (bumpPages bumpMachine) processState
      (.mmap 0 0 4096 protWrite mapAnonymous none 0)).bind (fun x =>
        (mmapPf (bumpPages bumpMachine) x.1 0 0x80000000123 4 0).map (fun y => (y.1,x.1.tops (x.1.pgm 0),
          vmmVirt2phys (bumpPages bumpMachine) x.1.ram processTop (word 0x80000000123)))))=
      some (true,some processTop,some invalidPhys) := by
    decide +kernel
  obtain ⟨⟨s,evs⟩,hcall,hpf⟩ := bind_eq_some_iff.mp hrun
  obtain ⟨⟨ok,s'⟩,hpf,hv⟩ := map_eq_some_iff.mp hpf
  simp only [Prod.mk.injEq] at hv
  obtain ⟨rfl,htop,habs⟩ := hv
  have hfirst : InUserSpace processState (.mmap 0 0 4096 protWrite mapAnonymous none 0) := by
    refine ⟨?_,?_,?_⟩ <;> decide
  have hr : ((mmapSystem (bumpPages bumpMachine)).restrict InUserSpace).Reachable processState s :=
    .single ⟨_,hfirst,map_eq_some_iff.mpr ⟨_,hcall,rfl⟩⟩
  exact ⟨s,s',hr,hpf,fault_resolved_iff processState processState_booted hr 0 0x80000000123 4 0
    processTop (by decide) htop habs hpf⟩

/-- After munmap of the middle page of three, mmap_pf handles a fault on the
third page and leaves it unmapped. -/
theorem fault_after_split_unresolved : ∃ s s' hit,
    (mmapSystem (bumpPages bumpMachine)).Reachable processState s ∧
    s.tops (s.pgm 0)=some processTop ∧
    addr2range s (s.pgm 0) 0x80000002000=some (some hit) ∧
    vmmVirt2phys (bumpPages bumpMachine) s.ram processTop (word 0x80000002000)=some invalidPhys ∧
    mmapPf (bumpPages bumpMachine) s 0 0x80000002000 4 0=some (true,s') ∧
    vmmVirt2phys (bumpPages bumpMachine) s'.ram processTop (word 0x80000002000)=some invalidPhys := by
  have hrun : ((mmapCall (bumpPages bumpMachine) processState
      (.mmap 0 0 12288 protWrite mapAnonymous none 0)).bind (fun x =>
        (mmapCall (bumpPages bumpMachine) x.1 (.munmap 0 0x80000001000 4096)).bind (fun y =>
          (mmapPf (bumpPages bumpMachine) y.1 0 0x80000002000 4 0).map (fun z =>
            (z.1,y.1.tops (y.1.pgm 0),
              (addr2range y.1 (y.1.pgm 0) 0x80000002000).map Option.isSome,
              vmmVirt2phys (bumpPages bumpMachine) y.1.ram processTop (word 0x80000002000),
              vmmVirt2phys (bumpPages bumpMachine) z.2.ram processTop (word 0x80000002000))))))=
      some (true,some processTop,some true,some invalidPhys,some invalidPhys) := by
    decide +kernel
  obtain ⟨⟨s₁,evs₁⟩,hmap,hrest⟩ := bind_eq_some_iff.mp hrun
  obtain ⟨⟨s,evs⟩,hunmap,hrest⟩ := bind_eq_some_iff.mp hrest
  obtain ⟨⟨ok,s'⟩,hpf,hv⟩ := map_eq_some_iff.mp hrest
  simp only [Prod.mk.injEq] at hv
  obtain ⟨rfl,htop,hfound,habs,hstill⟩ := hv
  obtain ⟨found,hf,hsome⟩ := map_eq_some_iff.mp hfound
  obtain ⟨hit,rfl⟩ := Option.isSome_iff_exists.mp hsome
  have hr : (mmapSystem (bumpPages bumpMachine)).Reachable processState s :=
    (Relation.ReflTransGen.single ⟨_,map_eq_some_iff.mpr ⟨_,hmap,rfl⟩⟩).tail
      ⟨_,map_eq_some_iff.mpr ⟨_,hunmap,rfl⟩⟩
  exact ⟨s,s',hit,hr,htop,hf,habs,hpf,hstill⟩

end X64OS.Memory
