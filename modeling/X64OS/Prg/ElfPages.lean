import X64OS.Memory.MmapRuns
import X64OS.Prg.Elf

namespace X64OS.Prg

open Framework Memory Function
open Option (map_eq_some_iff bind_eq_some_iff map_some)
open Fs (Str)

variable {M : Machine} {P : Type} {A : PageAllocator M P} {read : Read} {st st' : Loading M P}
variable {loadBase pm n : Nat} {ph : Elf64Phdr} {heap : Mem} {room : Nat → Bool}
  {phs : List Elf64Phdr} {s : MmapState M P} {x : Load} {l : LocalRange}

theorem loadSegment_true (h : loadSegment A read pm loadBase ph st=some (true,st')) :
    ∃ pageCount phys r₁ mm maps z, pageCount=divRoundup (add64 ph.memsz (ph.vaddr%pageSize)) pageSize ∧
      pmmAlloc A st.mm.ram pageCount=some (phys,r₁) ∧
      mmapRange A (st.mm.setRam r₁) pm (add64 ph.vaddr loadBase) phys (pageCount*pageSize%2^64)
        (phdrProt ph) mapAnonymous=some (true,mm,maps) ∧
      read ph.offset ph.filesz=some z ∧
      st'={ st with
        mm := mm.setRam ⟨overlay mm.ram.mem (add64 (add64 phys (ph.vaddr%pageSize)) M.hhdm) z.2,
          mm.ram.pmm⟩
        loads := st.loads++[⟨ph,phys,pageCount,st.mm.nextLocal,maps⟩] } := by
  obtain ⟨⟨phys,r₁⟩,halloc,h⟩ := bind_eq_some_iff.mp h
  dsimp only at h
  split at h
  · cases h
  · obtain ⟨⟨ok,mm,maps⟩,hrange,h⟩ := bind_eq_some_iff.mp h
    cases ok with
    | false => cases h
    | true =>
      obtain ⟨z,hz,h⟩ := map_eq_some_iff.mp h
      simp only [Prod.mk.injEq] at h
      exact ⟨_,phys,r₁,mm,maps,z,rfl,halloc,hrange,hz,h.2.symm⟩

theorem loadPhdr_other {ok : Bool} (hne : ph.type≠ptLoad)
    (h : loadPhdr A read room heap pm loadBase ph st=some (ok,st')) :
    st'.mm=st.mm ∧ st'.loads=st.loads := by
  rw [loadPhdr,if_neg hne] at h
  split at h
  · cases h
    exact ⟨rfl,rfl⟩
  · split at h
    · rw [loadInterp] at h
      split at h
      · cases h
        exact ⟨rfl,rfl⟩
      · obtain ⟨z,-,h⟩ := map_eq_some_iff.mp h
        split at h <;> cases h <;> exact ⟨rfl,rfl⟩
    · cases h
      exact ⟨rfl,rfl⟩

theorem phdrLoop_succ {i : Nat} {h : Elf64Ehdr} {buf : Mem}
    (hrun : phdrLoop A read room heap pm loadBase h (n+1) i buf st=some (true,st')) :
    ∃ buf' st₁, loadPhdr A read room heap pm loadBase (elf64Phdr buf') st=some (true,st₁) ∧
      phdrLoop A read room heap pm loadBase h n (i+1) buf' st₁=some (true,st') ∧
      programHeaders read h (n+1) i buf=
        (programHeaders read h n (i+1) buf').map (fun phs => elf64Phdr buf'::phs) := by
  obtain ⟨x,hx,hrun⟩ := bind_eq_some_iff.mp hrun
  split at hrun
  · cases hrun
  · rename_i hneg
    obtain ⟨⟨ok,st₁⟩,h1,hrun⟩ := bind_eq_some_iff.mp hrun
    cases ok with
    | false => cases hrun
    | true =>
      refine ⟨overlay buf 0 x.2,st₁,h1,hrun,?_⟩
      rw [programHeaders,hx,Option.bind_some,if_neg hneg]

def Elf64Phdr.isLoad (ph : Elf64Phdr) : Bool := ph.type=ptLoad

/-- A rule for the loop: what holds before a header for the headers read and
loaded so far holds after it, so it holds at the end for all of them. -/
theorem phdrLoop_rule {h : Elf64Ehdr} (I : List Elf64Phdr → Loading M P → Prop)
    (hload : ∀ phs ph st st', ph.type=ptLoad → I phs st →
      loadSegment A read pm loadBase ph st=some (true,st') → I (phs++[ph]) st')
    (hother : ∀ phs ph st st', ph.type≠ptLoad → I phs st → st'.mm=st.mm → st'.loads=st.loads →
      I (phs++[ph]) st') {i : Nat} {buf : Mem} (hi : I phs st)
    (hrun : phdrLoop A read room heap pm loadBase h n i buf st=some (true,st')) :
    ∃ phs', programHeaders read h n i buf=some phs' ∧ I (phs++phs') st' := by
  induction n generalizing i buf st phs with
  | zero =>
    cases hrun
    exact ⟨[],rfl,by rw [List.append_nil]; exact hi⟩
  | succ n ih =>
    obtain ⟨buf',st₁,h1,hrest,hread⟩ := phdrLoop_succ hrun
    have hi₁ : I (phs++[elf64Phdr buf']) st₁ := by
      by_cases hl : (elf64Phdr buf').type=ptLoad
      · rw [loadPhdr,if_pos hl] at h1
        exact hload phs _ st st₁ hl hi h1
      · obtain ⟨hmm,hloads⟩ := loadPhdr_other hl h1
        exact hother phs _ st st₁ hl hi hmm hloads
    obtain ⟨phs',hphs,hend⟩ := ih hi₁ hrest
    refine ⟨elf64Phdr buf'::phs',?_,?_⟩
    · rw [hread,hphs,map_some]
    · rw [List.append_assoc] at hend
      exact hend

/-- The pages of a segment in the addresses of the file. -/
def Elf64Phdr.pages (ph : Elf64Phdr) : Span :=
  ⟨ph.vaddr-ph.vaddr%pageSize,(ph.vaddr%pageSize+ph.memsz+(pageSize-1))/pageSize*pageSize⟩

/-- No address modulo 2^64 in common. -/
def Apart64 (a b : Span) : Prop :=
  ∀ x < a.length, ∀ y < b.length, (a.base+x)%2^64≠(b.base+y)%2^64

structure Load.Done (s : MmapState M P) (loadBase : Nat) (x : Load) : Prop where
  lt : x.range < s.nextLocal
  recorded : ∃ l, s.locals x.range=some l ∧ l.base=alignDown (add64 x.phdr.vaddr loadBase) pageSize ∧
    l.length=x.pageCount*pageSize+(if (x.phdr.vaddr+loadBase)%pageSize=0 then 0 else pageSize) ∧
    ∀ m, m∈x.maps ↔ ∃ j < l.length, j%pageSize=0 ∧ m=⟨add64 l.base j,add64 x.phys j⟩
  count : x.pageCount=divRoundup (add64 x.phdr.memsz (x.phdr.vaddr%pageSize)) pageSize
  bound : 1 ≤ x.pageCount → x.phys+x.pageCount*pageSize ≤ M.physPages*pageSize

theorem Load.Done.frame {s' : MmapState M P} (h : x.Done s loadBase)
    (hlocals : s'.locals x.range=s.locals x.range) (hnext : s.nextLocal ≤ s'.nextLocal) :
    x.Done s' loadBase := by
  refine ⟨h.lt.trans_le hnext,?_,h.count,h.bound⟩
  rw [hlocals]
  exact h.recorded

theorem sub64_alignDown (v : Nat) : sub64 v (alignDown v pageSize)=v%pageSize := by
  rw [alignDown,sub64]
  simp only [pageSize]
  omega

theorem add64_mod_page (a b : Nat) : add64 a b%pageSize=(a+b)%pageSize := by
  rw [add64]
  simp only [pageSize]
  omega

/-- The length mmap_range records: the misalignment, already in the page count,
is rounded up to one more page. -/
theorem alignUp_pages {k : Nat} (hn : n ≤ 2^40) (hk : k < pageSize) :
    alignUp (add64 (n*pageSize%2^64) k) pageSize=n*pageSize+(if k=0 then 0 else pageSize) := by
  rw [alignUp,divRoundup,add64]
  simp only [pageSize] at *
  split <;> omega

theorem pmmAlloc_valid (hzero : ∀ p a p', A.Valid p → A.alloc p 0=some (a,p') → A.Valid p')
    {r r' : Ram P} {phys pages : Nat} (hv : A.Valid r.pmm) (h : pmmAlloc A r pages=some (phys,r')) :
    A.Valid r'.pmm ∧ (1 ≤ pages → phys+pages*pageSize ≤ M.physPages*pageSize) ∧ pages ≤ 2^40 := by
  by_cases hn : 1 ≤ pages
  · obtain ⟨hg,-⟩ := pmmAlloc_granted hv hn h
    refine ⟨hg.valid,fun _ => hg.bound,?_⟩
    have hb := hg.bound
    have hM := M.phys_le
    simp only [pageSize] at hb
    omega
  · obtain ⟨a,ha⟩ := pmmAlloc_took h
    obtain rfl : pages=0 := by omega
    exact ⟨hzero _ _ _ hv ha,fun h1 => absurd h1 hn,Nat.zero_le _⟩

theorem bitmapPages_zero (p : Pmm.State) (a : Nat) (p' : Pmm.State) (_ : (bitmapPages M).Valid p)
    (h : (bitmapPages M).alloc p 0=some (a,p')) : (bitmapPages M).Valid p' := by
  rw [show (bitmapPages M).alloc p 0=none from Pmm.pmmAllocNozero_zero p] at h
  cases h

theorem loadSegment_done (hzero : ∀ p a p', A.Valid p → A.alloc p 0=some (a,p') → A.Valid p')
    (hv : A.Valid st.mm.ram.pmm) (h : loadSegment A read pm loadBase ph st=some (true,st')) :
    A.Valid st'.mm.ram.pmm ∧ st.mm.nextLocal ≤ st'.mm.nextLocal ∧
      (∀ k < st.mm.nextLocal, st'.mm.locals k=st.mm.locals k) ∧
      ∃ x, st'.loads=st.loads++[x] ∧ x.phdr=ph ∧ x.Done st'.mm loadBase := by
  obtain ⟨pageCount,phys,r₁,mm,maps,z,hcount,halloc,hrange,-,rfl⟩ := loadSegment_true h
  obtain ⟨hv₁,hbound,hle⟩ := pmmAlloc_valid hzero hv halloc
  obtain ⟨top,r₂,l,g,hnew,hl,-,hmap⟩ := mmapRange_true hrange
  have hgrew := mapPages_grew hmap
  have hlocals : mm.locals=update st.mm.locals st.mm.nextLocal (some l) := by
    rw [hgrew.objects]
    rfl
  have hnext : mm.nextLocal=st.mm.nextLocal+1 := by
    rw [hgrew.objects]
    rfl
  have hlen : l.length=pageCount*pageSize+(if (ph.vaddr+loadBase)%pageSize=0 then 0 else pageSize) := by
    rw [hl]
    dsimp only
    rw [sub64_alignDown,alignUp_pages hle (Nat.mod_lt _ (by decide)),add64_mod_page]
  have hwhole : l.length%pageSize=0 ∧ l.length < 2^64 := by
    rw [hlen]
    split_ifs <;> simp only [pageSize] <;> omega
  have hmem := mem_mapPages hwhole.1 hwhole.2 (Nat.zero_mod _) hmap
  refine ⟨took_valid hgrew.took (took_valid (vmmNewPagemap_took hnew) hv₁),?_,?_,_,rfl,rfl,?_⟩
  · exact (Nat.le_succ _).trans_eq hnext.symm
  · intro k hk
    exact (congrFun hlocals k).trans (update_of_ne (Nat.ne_of_lt hk) _ _)
  · refine ⟨hnext ▸ Nat.lt_succ_self _,⟨l,?_,?_,hlen,?_⟩,hcount,hbound⟩
    · exact (congrFun hlocals _).trans (update_self _ _ _)
    · rw [hl]
    · intro m
      rw [hmem m]
      simp only [Nat.zero_le,true_and]

/-- Every page the pagemap gets for a segment is one pmm_alloc gave for it. The
pagemap gets a page if the local range holds its address. -/
def Load.Own (s : MmapState M P) (x : Load) : Prop :=
  ∃ l, s.locals x.range=some l ∧
    ∀ m∈x.maps, l.covers m.virt=true → m.phys∈(⟨x.phys,x.pageCount*pageSize⟩ : Span)

/-- Both segments have a range, and no address is in both. -/
def RecordedApart (s : MmapState M P) (x y : Load) : Prop :=
  ∃ l l', s.locals x.range=some l ∧ s.locals y.range=some l' ∧
    ∀ v, l.covers v=true → l'.covers v=false

def Elf64Phdr.pageCount (ph : Elf64Phdr) : Nat :=
  divRoundup (add64 ph.memsz (ph.vaddr%pageSize)) pageSize

/-- The segment starts on a page, or one page more than it needs already passes
the end of the address space. -/
def Elf64Phdr.Fits (loadBase : Nat) (ph : Elf64Phdr) : Prop :=
  (ph.vaddr+loadBase)%pageSize=0 ∨
    2^64 ≤ alignDown (add64 ph.vaddr loadBase) pageSize+ph.pageCount*pageSize+pageSize

theorem covers_iff_of_lt (h : l.base+l.length < 2^64) (v : Nat) :
    l.covers v=true ↔ l.base ≤ v ∧ v < l.base+l.length := by
  rw [LocalRange.covers,LocalRange.stop,add64_eq h,decide_eq_true_iff]

theorem covers_of_le (hb : l.base < 2^64) (hl : l.length < 2^64) (h : 2^64 ≤ l.base+l.length)
    (v : Nat) : l.covers v=false := by
  rw [LocalRange.covers,LocalRange.stop,add64,decide_eq_false_iff_not]
  omega

theorem alignDown_lt (a b : Nat) : alignDown (add64 a b) pageSize < 2^64 := by
  rw [alignDown,add64]
  simp only [pageSize]
  omega

section
variable (h : x.Done s loadBase)
include h

theorem Load.Done.pageCount_le : x.pageCount ≤ 2^40 := by
  have hM := M.phys_le
  by_cases hpos : 1 ≤ x.pageCount
  · have hb := h.bound hpos
    simp only [pageSize] at hb
    omega
  · omega

/-- A range that holds an address does not pass the end of the address space, so a segment that
fits starts on a page. -/
theorem Load.Done.aligned {v : Nat} (hf : x.phdr.Fits loadBase) (hl : s.locals x.range=some l)
    (hc : l.covers v=true) : (x.phdr.vaddr+loadBase)%pageSize=0 ∧ l.base+l.length < 2^64 := by
  obtain ⟨l₁,hl₁,hlb,hlen,-⟩ := h.recorded
  cases hl.symm.trans hl₁
  have hcount := h.pageCount_le
  have hbase : l.base < 2^64 := by
    rw [hlb]
    exact alignDown_lt _ _
  have hlt : l.length < 2^64 := by
    by_cases hal : (x.phdr.vaddr+loadBase)%pageSize=0
    · rw [hlen,if_pos hal]
      simp only [pageSize]
      omega
    · rw [hlen,if_neg hal]
      simp only [pageSize]
      omega
  have hroom : l.base+l.length < 2^64 := by
    by_contra hno
    rw [covers_of_le hbase hlt (by omega)] at hc
    cases hc
  refine ⟨?_,hroom⟩
  by_contra hmis
  have hwrap := hf.resolve_left hmis
  rw [Elf64Phdr.pageCount,← h.count,← hlb] at hwrap
  rw [hlen,if_neg hmis] at hroom
  omega

/-- The page behind the allocation is mapped, unless the segment fits. -/
theorem Load.Done.fits_of_own (hown : x.Own s) : x.phdr.Fits loadBase := by
  obtain ⟨l,hl,hlb,hlen,hmaps⟩ := h.recorded
  obtain ⟨l₁,hl₁,hown⟩ := hown
  cases hl.symm.trans hl₁
  have hM := M.phys_le
  have hb := h.bound
  rw [Elf64Phdr.Fits,Elf64Phdr.pageCount,← h.count,← hlb]
  by_contra hno
  obtain ⟨hmis,hroom⟩ := not_or.mp hno
  rw [if_neg hmis] at hlen
  have hin : x.pageCount*pageSize < l.length := by
    simp only [pageSize] at hlen ⊢
    omega
  have hvirt : add64 l.base (x.pageCount*pageSize)=l.base+x.pageCount*pageSize := by
    apply add64_eq
    simp only [pageSize] at hroom ⊢
    omega
  have hm := hown ⟨add64 l.base (x.pageCount*pageSize),add64 x.phys (x.pageCount*pageSize)⟩
    ((hmaps _).mpr ⟨_,hin,Nat.mul_mod_left _ _,rfl⟩)
    ((covers_iff_of_lt (by omega) _).mpr (by dsimp only; omega))
  rw [Span.mem_mk] at hm
  dsimp only at hm
  by_cases hpos : 1 ≤ x.pageCount
  · rw [add64_eq (by simp only [pageSize] at hb ⊢; omega)] at hm
    omega
  · simp only [pageSize] at hm
    omega

theorem Load.Done.own_iff : x.Own s ↔ x.phdr.Fits loadBase := by
  refine ⟨h.fits_of_own,?_⟩
  intro hfits
  obtain ⟨l,hl,hlb,hlen,hmaps⟩ := h.recorded
  refine ⟨l,hl,?_⟩
  intro m hm hc
  obtain ⟨j,hj,-,rfl⟩ := (hmaps m).mp hm
  rw [hlen,if_pos (h.aligned hfits hl hc).1] at hj
  have hM := M.phys_le
  have hb := h.bound
  have hsum : add64 x.phys j=x.phys+j := by
    apply add64_eq
    simp only [pageSize] at hb hj
    omega
  rw [Span.mem_mk]
  dsimp only
  rw [hsum]
  omega

theorem Load.Done.covered (hf : x.phdr.Fits loadBase) :
    ∃ l, s.locals x.range=some l ∧
      ∀ v, l.covers v=true → (x.phdr.vaddr+loadBase)%pageSize=0 ∧
        ∃ a < x.phdr.pages.length, v=add64 x.phdr.vaddr loadBase+a := by
  obtain ⟨l,hl,hlb,hlen,-⟩ := h.recorded
  refine ⟨l,hl,?_⟩
  intro v hc
  obtain ⟨hal,hroom⟩ := h.aligned hf hl hc
  have hpages : x.pageCount*pageSize ≤ x.phdr.pages.length := by
    have hcount := h.count
    simp only [Elf64Phdr.pages,divRoundup,add64,pageSize] at *
    omega
  rw [if_pos hal] at hlen
  rw [covers_iff_of_lt hroom] at hc
  have hstart : l.base=add64 x.phdr.vaddr loadBase := by
    rw [hlb,alignDown,add64]
    simp only [pageSize] at hal ⊢
    omega
  exact ⟨hal,v-l.base,by omega,by omega⟩

end

theorem Load.Done.apart {y : Load} (hx : x.Done s loadBase) (hy : y.Done s loadBase)
    (hxf : x.phdr.Fits loadBase) (hyf : y.phdr.Fits loadBase)
    (hapart : Apart64 x.phdr.pages y.phdr.pages) : RecordedApart s x y := by
  obtain ⟨l,hl,hlv⟩ := hx.covered hxf
  obtain ⟨l',hl',hlv'⟩ := hy.covered hyf
  refine ⟨l,l',hl,hl',?_⟩
  intro v hv
  by_contra hv'
  obtain ⟨hxa,a,ha,hva⟩ := hlv v hv
  obtain ⟨hya,b,hb,hvb⟩ := hlv' v (Bool.eq_true_of_not_eq_false hv')
  -- both ranges are the pages in the file, moved by the same distance
  apply hapart a ha b hb
  simp only [Elf64Phdr.pages,add64,pageSize] at *
  omega

structure Progress (A : PageAllocator M P) (loadBase : Nat) (phs : List Elf64Phdr)
    (st : Loading M P) : Prop where
  valid : A.Valid st.mm.ram.pmm
  headers : st.loads.map Load.phdr=phs.filter Elf64Phdr.isLoad
  done : ∀ x∈st.loads, x.Done st.mm loadBase

theorem Progress.load (hzero : ∀ p a p', A.Valid p → A.alloc p 0=some (a,p') → A.Valid p')
    (hl : ph.type=ptLoad) (h : Progress A loadBase phs st)
    (hrun : loadSegment A read pm loadBase ph st=some (true,st')) :
    Progress A loadBase (phs++[ph]) st' := by
  obtain ⟨hv,hnext,hold,x,hloads,hph,hx⟩ := loadSegment_done hzero h.valid hrun
  refine ⟨hv,?_,?_⟩
  · have hfilter : [ph].filter Elf64Phdr.isLoad=[ph] :=
      List.filter_cons_of_pos (decide_eq_true hl)
    rw [hloads,List.map_append,h.headers,List.filter_append,hfilter,List.map_singleton,hph]
  · intro y hy
    rw [hloads,List.mem_append,List.mem_singleton] at hy
    rcases hy with hy | rfl
    · have hdone := h.done y hy
      exact hdone.frame (hold _ hdone.lt) hnext
    · exact hx

theorem Progress.other (hl : ph.type≠ptLoad) (h : Progress A loadBase phs st) (hmm : st'.mm=st.mm)
    (hloads : st'.loads=st.loads) : Progress A loadBase (phs++[ph]) st' := by
  refine ⟨hmm ▸ h.valid,?_,?_⟩
  · have hfilter : [ph].filter Elf64Phdr.isLoad=[] :=
      List.filter_cons_of_neg (by rw [Elf64Phdr.isLoad,decide_eq_true_iff]; exact hl)
    rw [hloads,h.headers,List.filter_append,hfilter,List.append_nil]
  · rw [hmm,hloads]
    exact h.done

theorem elfLoad_true {stack : Mem}
    (h : elfLoad A read room heap stack pm loadBase st=some (true,st')) :
    ∃ x auxv, read 0 64=some x ∧ ¬x.1 < 0 ∧
      phdrLoop A read room heap pm loadBase (elf64Ehdr (overlay stack 0 x.2))
        (elf64Ehdr (overlay stack 0 x.2)).phnum 0 (fun i => stack (64+i)) { st with auxv := auxv }=
      some (true,st') := by
  obtain ⟨x,hx,h⟩ := bind_eq_some_iff.mp h
  dsimp only at h
  split at h
  · cases h
  · rename_i hok
    obtain ⟨⟨ok,st₁⟩,hloop,h⟩ := map_eq_some_iff.mp h
    cases ok with
    | false => cases h
    | true =>
      cases h
      exact ⟨x,_,hx,fun hneg => hok (.inl hneg),hloop⟩

/-- The pages elf_load maps into the pagemap are all its own, segment by
segment, and page-disjoint segments get disjoint ranges, exactly if every
segment starts on a page. -/
theorem elf_pages_owned_iff (A : PageAllocator M P) (read : Read) (room : Nat → Bool)
    (heap stack : Mem) (pm loadBase : Nat) (st st' : Loading M P)
    (hzero : ∀ p a p', A.Valid p → A.alloc p 0=some (a,p') → A.Valid p')
    (hvalid : A.Valid st.mm.ram.pmm) (hnone : st.loads=[])
    (hrun : elfLoad A read room heap stack pm loadBase st=some (true,st')) :
    ∃ phs, fileHeaders read stack=some phs ∧
      st'.loads.map Load.phdr=phs.filter Elf64Phdr.isLoad ∧
      (((∀ x∈st'.loads, x.Own st'.mm) ∧
        st'.loads.Pairwise (fun x y =>
          Apart64 x.phdr.pages y.phdr.pages → RecordedApart st'.mm x y)) ↔
      ∀ ph∈phs, ph.type=ptLoad → ph.Fits loadBase) := by
  obtain ⟨x,auxv,hx,-,hloop⟩ := elfLoad_true hrun
  have hstart : Progress A loadBase [] { st with auxv := auxv } := by
    refine ⟨hvalid,?_,?_⟩
    · dsimp only
      rw [hnone]
      rfl
    · intro y hy
      dsimp only at hy
      rw [hnone] at hy
      cases hy
  obtain ⟨phs,hphs,hp⟩ := phdrLoop_rule (Progress A loadBase)
    (fun _ _ _ _ hl hi h => hi.load hzero hl h) (fun _ _ _ _ hl hi hmm h => hi.other hl hmm h)
    hstart hloop
  rw [List.nil_append] at hp
  have hmem : ∀ ph, (∃ y∈st'.loads, y.phdr=ph) ↔ ph∈phs ∧ ph.type=ptLoad := by
    intro ph
    rw [← List.mem_map,hp.headers,List.mem_filter,Elf64Phdr.isLoad,decide_eq_true_iff]
  refine ⟨phs,by rw [fileHeaders,hx]; exact hphs,hp.headers,?_⟩
  constructor
  · intro hown ph hph hl
    obtain ⟨y,hy,rfl⟩ := (hmem ph).mpr ⟨hph,hl⟩
    exact (hp.done y hy).own_iff.mp (hown.1 y hy)
  · intro hfits
    have hall : ∀ y∈st'.loads, y.phdr.Fits loadBase := by
      intro y hy
      obtain ⟨hph,hl⟩ := (hmem y.phdr).mp ⟨y,hy,rfl⟩
      exact hfits _ hph hl
    refine ⟨fun y hy => (hp.done y hy).own_iff.mpr (hall y hy),?_⟩
    rw [List.pairwise_iff_getElem]
    intro i j hi hj _
    have hx := List.getElem_mem hi
    have hy := List.getElem_mem hj
    exact (hp.done _ hx).apart (hp.done _ hy) (hall _ hx) (hall _ hy)

def putPhdr (m : Mem) (a : Nat) (ph : Elf64Phdr) : Mem :=
  ((((Mem.writeBytes m a 4 ph.type).writeBytes (a+4) 4 ph.flags).writeBytes (a+8) 8 ph.offset).writeBytes
    (a+16) 8 ph.vaddr).writeBytes (a+32) 8 ph.filesz |>.writeBytes (a+40) 8 ph.memsz

def smallElf (phs : List Elf64Phdr) : Fs.Resource where
  stMode := Fs.sIfreg
  stSize := 256
  capacity := 4096
  data :=
    let m := (((Mem.writeBytes (BitVec.ofNat 8) 0 240 0).writeBytes 18 2 emX8664).writeBytes 32 8 64)
    let m := overlay ((m.writeBytes 54 2 56).writeBytes 56 2 phs.length) 0 (elfMag++[elfClass64,elfData2lsb])
    (phs.foldl (fun x ph => (putPhdr x.1 x.2 ph,x.2+56)) (m,64)).1

def tinyElf (vaddr : Nat) : Fs.Resource := smallElf [⟨ptLoad,pfW+pfX,240,vaddr,4,8⟩]

def tinyLoading : Loading bumpMachine Nat := ⟨processState,⟨0,0,0,0⟩,some none,[]⟩

/-- The segments loaded: their pages, the pages mapped and the range recorded. -/
def Loading.segments (st : Loading bumpMachine Nat) : List (Nat × Nat × List Mapping × Option Span) :=
  st.loads.map (fun x => (x.phys,x.pageCount,x.maps,st.mm.window x.range))

def tinyLoad (vaddr : Nat) : Option (Bool × Loading bumpMachine Nat) :=
  elfLoad (bumpPages bumpMachine) (tmpfsRead (tinyElf vaddr)) (fun _ => true) (fun _ => 0)
    (fun _ => 0) 0 0 tinyLoading

set_option synthInstance.maxSize 512 in
theorem elf_pages_owned_iff_tiny : ∃ st', tinyLoad 0x400000=some (true,st') ∧
    st'.segments=[(515*pageSize,1,[⟨0x400000,515*pageSize⟩],some ⟨0x400000,pageSize⟩)] ∧
    ∀ x∈st'.loads, x.Own st'.mm := by
  have hrun : (tinyLoad 0x400000).map (fun x => (x.1,x.2.segments))=
      some (true,[(515*pageSize,1,[⟨0x400000,515*pageSize⟩],some ⟨0x400000,pageSize⟩)]) := by
    decide +kernel
  obtain ⟨⟨ok,st'⟩,hload,hv⟩ := map_eq_some_iff.mp hrun
  simp only [Prod.mk.injEq] at hv
  obtain ⟨rfl,hsegs⟩ := hv
  refine ⟨st',hload,hsegs,?_⟩
  obtain ⟨phs,hphs,-,hiff⟩ := elf_pages_owned_iff (bumpPages bumpMachine) (tmpfsRead (tinyElf 0x400000))
    (fun _ => true) (fun _ => 0) (fun _ => 0) 0 0 tinyLoading st'
    (fun p a p' hp ha => by
      obtain ⟨-,he⟩ := Option.ite_none_right_eq_some.mp ha
      cases he
      exact hp)
    (Nat.succ_pos 514) rfl hload
  refine (hiff.mpr ?_).1
  have hvaddr : (fileHeaders (tmpfsRead (tinyElf 0x400000)) (fun _ => 0)).map (List.map Elf64Phdr.vaddr)=
      some [0x400000] := by
    decide +kernel
  rw [hphs,map_some,Option.some.injEq] at hvaddr
  intro ph hph _
  have hat := List.mem_map_of_mem (f := Elf64Phdr.vaddr) hph
  rw [hvaddr,List.mem_singleton] at hat
  left
  rw [hat]
  decide

set_option synthInstance.maxSize 512 in
/-- A segment that starts 16 bytes into its page: mmap_range maps one page more
than pmm_alloc gave. -/
theorem elf_maps_foreign_page : ∃ st' x l, tinyLoad 0x400010=some (true,st') ∧ st'.loads=[x] ∧
    x.phys=515*pageSize ∧ x.pageCount=1 ∧ st'.mm.locals x.range=some l ∧
    ⟨0x401000,516*pageSize⟩∈x.maps ∧ l.covers 0x401000=true ∧ ¬x.Own st'.mm := by
  have hrun : (tinyLoad 0x400010).map (fun x => (x.1,x.2.segments))=
      some (true,[(515*pageSize,1,[⟨0x400000,515*pageSize⟩,⟨0x401000,516*pageSize⟩],
        some ⟨0x400000,2*pageSize⟩)]) := by
    decide +kernel
  obtain ⟨⟨ok,st'⟩,hload,hv⟩ := map_eq_some_iff.mp hrun
  simp only [Prod.mk.injEq] at hv
  obtain ⟨rfl,hsegs⟩ := hv
  obtain ⟨x,hx,hsegs⟩ := List.map_eq_singleton_iff.mp hsegs
  simp only [Prod.mk.injEq] at hsegs
  obtain ⟨hphys,hcount,hmaps,hwindow⟩ := hsegs
  obtain ⟨l,hl,hspan⟩ := map_eq_some_iff.mp hwindow
  have hm : (⟨0x401000,516*pageSize⟩ : Mapping)∈x.maps := by
    rw [hmaps]
    decide
  have hc : l.covers 0x401000=true := by
    have hbase : l.base=0x400000 := congrArg Span.base hspan
    have hlen : l.length=2*pageSize := congrArg Span.length hspan
    rw [LocalRange.covers,LocalRange.stop,hbase,hlen]
    decide
  refine ⟨st',x,l,hload,hx,hphys,hcount,hl,hm,hc,?_⟩
  rintro ⟨l₁,hl₁,hown⟩
  rw [hl] at hl₁
  cases hl₁
  have hmem := hown _ hm hc
  rw [hphys,hcount] at hmem
  revert hmem
  decide

end X64OS.Prg
