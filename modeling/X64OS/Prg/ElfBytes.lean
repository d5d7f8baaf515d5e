import X64OS.Memory.MmapFaults
import X64OS.Prg.ElfPages

namespace X64OS.Prg

open Framework Memory
open Fs (Str)

variable {M : Machine} {P : Type} {A : PageAllocator M P} {read : Read} {st st' : Loading M P}

def FileRead (read : Read) (data : Mem) (size : Nat) : Prop :=
  ∀ offset count, offset+count ≤ size → read offset count=some ((count : Int),window data offset count)

theorem tmpfsRead_fileRead {r : Fs.Resource} (hsize : r.stSize ≤ r.capacity)
    (hcap : r.capacity < 2^63) : FileRead (tmpfsRead r) r.data r.stSize := by
  intro offset count h
  have hcount : (if offT r.stSize ≤ offT (add64 offset count) then
      sub64 count (sub64 (add64 offset count) r.stSize) else count)=count := by
    rw [add64_eq (by omega),offT_eq (by omega),offT_eq (by omega)]
    split
    · have hend : offset+count=r.stSize := by omega
      rw [hend,sub64_eq (by omega) le_rfl,Nat.sub_self,sub64_eq (by omega) (Nat.zero_le _),Nat.sub_zero]
    · rfl
  rw [tmpfsRead,Fs.tmpfsResourceRead,hcount,if_pos (by omega),Option.map_some,offT_eq (by omega)]

def filePhdr (data : Mem) (i : Nat) : Elf64Phdr :=
  elf64Phdr (fun j => data ((elf64Ehdr data).phoff+i*(elf64Ehdr data).phentsize+j))

variable {buf data : Mem} {size loadBase top pm : Nat} {ph : Elf64Phdr} {phs : List Elf64Phdr}

theorem elf64Ehdr_congr {buf' : Mem} (h : ∀ i < 64, buf i=buf' i) :
    elf64Ehdr buf=elf64Ehdr buf' := by
  have hread : ∀ a n, a+n ≤ 64 → buf.readBytes a n=buf'.readBytes a n := by
    intro a n hn
    apply Mem.readBytes_congr
    intro x hx
    rw [Span.mem_mk] at hx
    exact h x (by omega)
  have hident : window buf 0 16=window buf' 0 16 := window_congr (fun i hi => h _ (by omega))
  rw [elf64Ehdr,elf64Ehdr,hident,hread 18 2 (by omega),hread 24 8 (by omega),hread 32 8 (by omega),
    hread 54 2 (by omega),hread 56 2 (by omega)]

theorem elf64Phdr_congr {buf' : Mem} (h : ∀ i < 56, buf i=buf' i) :
    elf64Phdr buf=elf64Phdr buf' := by
  have hread : ∀ a n, a+n ≤ 56 → buf.readBytes a n=buf'.readBytes a n := by
    intro a n hn
    apply Mem.readBytes_congr
    intro x hx
    rw [Span.mem_mk] at hx
    exact h x (by omega)
  rw [elf64Phdr,elf64Phdr,hread 0 4 (by omega),hread 4 4 (by omega),hread 8 8 (by omega),
    hread 16 8 (by omega),hread 32 8 (by omega),hread 40 8 (by omega)]

theorem overlay_file (buf data : Mem) (a n i : Nat) (hi : i < n) :
    overlay buf 0 (window data a n) i=data (a+i) := by
  rw [overlay_window]
  rw [if_pos (by omega),Nat.sub_zero]

theorem programHeaders_eq (hread : FileRead read data size) (hsize : size < 2^64) {n i : Nat}
    (hin : ∀ j < i+n, (elf64Ehdr data).phoff+j*(elf64Ehdr data).phentsize+56 ≤ size) :
    programHeaders read (elf64Ehdr data) n i buf=some ((List.range' i n).map (filePhdr data)) := by
  induction n generalizing i buf with
  | zero => rfl
  | succ n ih =>
    have hi := hin i (by omega)
    have hat : (elf64Ehdr data).phdrAt i=(elf64Ehdr data).phoff+i*(elf64Ehdr data).phentsize := by
      rw [Elf64Ehdr.phdrAt,Nat.mod_eq_of_lt (by omega),add64_eq (by omega)]
    have hph : elf64Phdr (overlay buf 0 (window data ((elf64Ehdr data).phdrAt i) 56))=filePhdr data i := by
      rw [filePhdr,hat]
      exact elf64Phdr_congr (fun j hj => overlay_file _ _ _ _ _ hj)
    rw [programHeaders,hread _ _ (by rw [hat]; exact hi),Option.bind_some,if_neg (by simp),
      ih (fun j hj => hin j (by omega)),Option.map_some,hph]
    rfl

/-- A segment with its bytes in the file and its addresses below a limit. -/
structure Elf64Phdr.Loadable (size loadBase limit : Nat) (ph : Elf64Phdr) : Prop where
  filesz : ph.filesz ≤ ph.memsz
  memsz : 0 < ph.memsz
  inside : ph.offset+ph.filesz ≤ size
  stop : ph.vaddr+loadBase+ph.memsz ≤ limit

def Elf64Phdr.Before (a b : Elf64Phdr) : Prop :=
  a.type=ptLoad → b.type=ptLoad → a.pages.stop ≤ b.pages.base

/-- A file with its headers inside and segments that can be loaded. -/
structure LoadableFile (data : Mem) (size loadBase limit : Nat) : Prop where
  small : size < 2^64
  ehdr : 64 ≤ size
  phdrs : ∀ i < (elf64Ehdr data).phnum,
    (elf64Ehdr data).phoff+i*(elf64Ehdr data).phentsize+56 ≤ size
  segments : ∀ i < (elf64Ehdr data).phnum, (filePhdr data i).type=ptLoad →
    (filePhdr data i).Loadable size loadBase limit
  ascending : ∀ i j, i < j → j < (elf64Ehdr data).phnum → (filePhdr data i).Before (filePhdr data j)

def Elf64Phdr.byte (data : Mem) (ph : Elf64Phdr) (k : Nat) : BitVec 8 :=
  if k < ph.filesz then data (ph.offset+k) else 0

/-- A segment in memory: pages of its own that no table uses, mapped at its
address, with its bytes in them. -/
structure Placed (A : PageAllocator M P) (r : Ram P) (T : List Table) (top loadBase : Nat)
    (data : Mem) (ph : Elf64Phdr) (phys : Nat) : Prop where
  aligned : phys%pageSize=0
  bound : phys+ph.pageCount*pageSize ≤ M.physPages*pageSize
  plain : ∀ x∈mapped M phys ph.pageCount, Plain A r T x
  mapped : ∀ k < ph.memsz, pteFrom M r.mem 3 top (word (ph.vaddr+loadBase+k))=
    mapEntry (word ((phys+ph.vaddr%pageSize+k)/pageSize*pageSize)) (ptFlags (phdrProt ph))
  bytes : ∀ k < ph.memsz, r.mem (phys+ph.vaddr%pageSize+k+M.hhdm)=ph.byte data k

section
variable (h : ph.Loadable size loadBase (2^47))
include h

theorem Elf64Phdr.Loadable.pageCount_eq :
    ph.pageCount*pageSize=(ph.vaddr%pageSize+ph.memsz+4095)/pageSize*pageSize := by
  have hs := h.stop
  rw [Elf64Phdr.pageCount,divRoundup,add64]
  simp only [pageSize]
  omega

theorem Elf64Phdr.Loadable.fits : ph.vaddr%pageSize+ph.memsz ≤ ph.pageCount*pageSize := by
  rw [h.pageCount_eq]
  simp only [pageSize]
  omega

theorem Elf64Phdr.Loadable.window (hbase : loadBase%pageSize=0) :
    alignDown (add64 ph.vaddr loadBase) pageSize=ph.vaddr+loadBase-ph.vaddr%pageSize ∧
    ∃ extra, (extra=0 ∨ extra=pageSize) ∧ alignUp (add64 (ph.pageCount*pageSize%2^64)
      (sub64 (add64 ph.vaddr loadBase) (alignDown (add64 ph.vaddr loadBase) pageSize))) pageSize=
        ph.pageCount*pageSize+extra := by
  have hstop := h.stop
  have hpages := h.pageCount_eq
  constructor
  · rw [alignDown,add64]
    simp only [pageSize] at hbase ⊢
    omega
  · rw [sub64_alignDown,alignUp_pages (by simp only [pageSize] at *; omega) (Nat.mod_lt _ (by decide))]
    exact ⟨_,by split_ifs <;> simp,rfl⟩

end

theorem Elf64Phdr.overlay_byte {m : Mem} {a k : Nat} (hzero : m (a+k)=0) :
    overlay m a (Framework.window data ph.offset ph.filesz) (a+k)=ph.byte data k := by
  rw [overlay_window,Elf64Phdr.byte]
  by_cases hk : k < ph.filesz
  · rw [if_pos (by omega),if_pos hk]
    congr 1
    omega
  · rw [if_neg (by omega),if_neg hk,hzero]

theorem Placed.keep {r r' : Ram P} {T T' : List Table} {phys : Nat}
    (h : Placed A r T top loadBase data ph phys) (hph : ph.Loadable size loadBase (2^47))
    (he : Evolved A r T r' T') (hsame : ∀ x∈Memory.mapped M phys ph.pageCount, r'.mem x=r.mem x)
    (hview : ∀ k < ph.memsz, pteFrom M r'.mem 3 top (word (ph.vaddr+loadBase+k))=
      pteFrom M r.mem 3 top (word (ph.vaddr+loadBase+k))) :
    Placed A r' T' top loadBase data ph phys := by
  refine ⟨h.aligned,h.bound,fun x hx => he.plain (h.plain x hx),?_,?_⟩
  · intro k hk
    rw [hview k hk]
    exact h.mapped k hk
  · intro k hk
    have hpages := hph.pageCount_eq
    rw [hsame _ (by rw [Memory.mapped,Span.mem_mk]; simp only [pageSize] at *; omega)]
    exact h.bytes k hk

/-- What PT_LOAD does to memory: fresh pages get the bytes of the segment and are mapped in a window
from its first page on, and nothing else in use changes. -/
structure SegmentLoaded (A : PageAllocator M P) (r r' : Ram P) (T T' : List Table) (top loadBase : Nat)
    (data : Mem) (ph : Elf64Phdr) (phys extra : Nat) : Prop where
  aligned : phys%pageSize=0
  bound : phys+ph.pageCount*pageSize ≤ M.physPages*pageSize
  evolved : Evolved A r T r' T'
  spares : Spares A r T r'
  plain : ∀ x∈mapped M phys ph.pageCount, Plain A r' T' x
  bytes : ∀ k < ph.memsz, r'.mem (phys+ph.vaddr%pageSize+k+M.hhdm)=ph.byte data k
  view : ∀ v < 2^47, pteFrom M r'.mem 3 top (word v)=
    if v∈(⟨ph.vaddr+loadBase-ph.vaddr%pageSize,ph.pageCount*pageSize+extra⟩ : Span) then
      mapEntry (word (phys+(v/pageSize*pageSize-(ph.vaddr+loadBase-ph.vaddr%pageSize))))
        (ptFlags (phdrProt ph))
    else pteFrom M r.mem 3 top (word v)

section Segments

variable {r r' : Ram P} {T T' : List Table} {phys extra : Nat}
theorem SegmentLoaded.placed (h : SegmentLoaded A r r' T T' top loadBase data ph phys extra)
    (hph : ph.Loadable size loadBase (2^47)) (hbase : loadBase%pageSize=0) :
    Placed A r' T' top loadBase data ph phys := by
  refine ⟨h.aligned,h.bound,h.plain,?_,h.bytes⟩
  intro k hk
  have hstop := hph.stop
  have hfit := hph.fits
  have hv : ph.vaddr+loadBase+k < 2^47 := by omega
  have hal := h.aligned
  have hoffset : phys+((ph.vaddr+loadBase+k)/pageSize*pageSize-(ph.vaddr+loadBase-ph.vaddr%pageSize))=
      (phys+ph.vaddr%pageSize+k)/pageSize*pageSize := by
    simp only [pageSize] at *
    omega
  rw [h.view _ hv,if_pos (by rw [Span.mem_mk]; simp only [pageSize] at *; omega),hoffset]

theorem SegmentLoaded.keep (h : SegmentLoaded A r r' T T' top loadBase data ph phys extra)
    {ph₀ : Elf64Phdr} {phys₀ : Nat} (hph₀ : ph₀.Loadable size loadBase (2^47))
    (hbefore : ph₀.pages.stop ≤ ph.pages.base) (hp₀ : Placed A r T top loadBase data ph₀ phys₀) :
    Placed A r' T' top loadBase data ph₀ phys₀ := by
  have hpages₀ := hph₀.pageCount_eq
  have hstop₀ := hph₀.stop
  refine hp₀.keep hph₀ h.evolved (fun x hx => h.spares x (hp₀.plain x hx)) ?_
  intro k hk
  have hout : ph₀.vaddr+loadBase+k∉(⟨ph.vaddr+loadBase-ph.vaddr%pageSize,
      ph.pageCount*pageSize+extra⟩ : Span) := by
    rw [Span.mem_mk]
    simp only [Elf64Phdr.pages,Span.stop,pageSize] at *
    omega
  rw [h.view _ (by omega),if_neg hout]

theorem loadSegment_loaded (hs : Stocked A st.mm T) (htop : st.mm.tops pm=some top)
    (hread : FileRead read data size) (hph : ph.Loadable size loadBase (2^47))
    (hbase : loadBase%pageSize=0) (h : loadSegment A read pm loadBase ph st=some (true,st')) :
    st'.mm.tops pm=some top ∧ ∃ T' phys extra, Stocked A st'.mm T' ∧
      SegmentLoaded A st.mm.ram st'.mm.ram T T' top loadBase data ph phys extra := by
  obtain ⟨pageCount,phys,r₁,mm,maps,z,hcount,halloc,hrange,hz,rfl⟩ := loadSegment_true h
  rw [← Elf64Phdr.pageCount] at hcount
  subst hcount
  have hpages := hph.pageCount_eq
  have hstop := hph.stop
  have hM := M.phys_le
  have hW := M.window
  have hpos : 1 ≤ ph.pageCount := by
    have := hph.memsz
    simp only [pageSize] at hpages
    omega
  obtain ⟨hg,hzero⟩ := pmmAlloc_granted hs.forest.valid hpos halloc
  have hb := hg.bound
  have e₁ := hg.evolved hs.forest hs.full
  obtain ⟨hdown,extra,hextra,hlen⟩ := hph.window hbase
  have hplacement : Placement (alignDown (add64 ph.vaddr loadBase) pageSize) phys
      (alignUp (add64 (ph.pageCount*pageSize%2^64)
        (sub64 (add64 ph.vaddr loadBase) (alignDown (add64 ph.vaddr loadBase) pageSize))) pageSize) := by
    rw [hlen,hdown]
    have hal := hg.aligned
    constructor <;> simp only [pageSize] at * <;> omega
  obtain ⟨htop₂,T₂,hs₂,e₂,k₂,hview⟩ := mmapRange_spec (hs.setRam e₁) htop hplacement hrange
  rw [hlen,hdown] at hview
  -- the bytes of the file go to the pages just granted, which hold no table
  have hz' : z=((ph.filesz : Int),window data ph.offset ph.filesz) :=
    Option.some.inj (hz.symm.trans (hread _ _ hph.inside))
  have hdst : add64 (add64 phys (ph.vaddr%pageSize)) M.hhdm=phys+ph.vaddr%pageSize+M.hhdm := by
    rw [add64_eq (show phys+ph.vaddr%pageSize < 2^64 by simp only [pageSize] at *; omega),
      add64_eq (by simp only [pageSize] at *; omega)]
  have hfit := hph.fits
  have hfile := hph.filesz
  have hplain₁ : ∀ x∈mapped M phys ph.pageCount, Plain A r₁ T x := fun x hx => hg.plain hs.forest hx
  have hplain₂ : ∀ x∈mapped M phys ph.pageCount, Plain A mm.ram T₂ x :=
    fun x hx => e₂.plain (hplain₁ x hx)
  have hoff : Mem.SameOff (mapped M phys ph.pageCount) mm.ram.mem
      (overlay mm.ram.mem (phys+ph.vaddr%pageSize+M.hhdm) z.2) := by
    intro x hx
    rw [mapped,Span.mem_mk] at hx
    rw [hz',overlay_window,if_neg (by omega)]
  obtain ⟨e₃,hview₃⟩ := Evolved.of_off hs₂.forest hs₂.full hoff (fun x hx t ht => (hplain₂ x hx).2 t ht)
  rw [hdst]
  refine ⟨htop₂,T₂,phys,extra,hs₂.setRam e₃,hg.aligned,hb,(e₁.trans e₂).trans e₃,?_,
    fun x hx => e₃.plain (hplain₂ x hx),?_,?_⟩
  · intro x hplain
    exact (hoff x (hplain.not_granted hg)).trans ((hg.spares.trans e₁ k₂) x hplain)
  · intro k hk
    have hx : phys+ph.vaddr%pageSize+M.hhdm+k∈mapped M phys ph.pageCount := by
      rw [mapped,Span.mem_mk]
      omega
    rw [hz',Nat.add_right_comm _ k]
    exact Elf64Phdr.overlay_byte ((k₂ _ (hplain₁ _ hx)).trans (hzero _ hx))
  · intro v hv
    refine (hview₃ top (hs₂.top pm top htop₂) _).trans ?_
    rw [hview v hv]
    congr 1
    exact hg.view hs.forest (hs.top pm top htop) _

end Segments

def Orderly (size loadBase : Nat) (phs : List Elf64Phdr) : Prop :=
  (∀ ph∈phs, ph.type=ptLoad → ph.Loadable size loadBase (2^47)) ∧ phs.Pairwise Elf64Phdr.Before

theorem Orderly.init (h : Orderly size loadBase (phs++[ph])) : Orderly size loadBase phs :=
  ⟨fun x hx => h.1 x (List.mem_append_left _ hx),(List.pairwise_append.mp h.2).1⟩

def AllPlaced (A : PageAllocator M P) (pm top loadBase : Nat) (data : Mem) (phs : List Elf64Phdr)
    (st : Loading M P) : Prop :=
  st.mm.tops pm=some top ∧ ∃ T, Stocked A st.mm T ∧
    ∀ ph∈phs, ph.type=ptLoad → ∃ phys, Placed A st.mm.ram T top loadBase data ph phys

theorem AllPlaced.load (h : AllPlaced A pm top loadBase data phs st)
    (hread : FileRead read data size) (hbase : loadBase%pageSize=0) (hl : ph.type=ptLoad)
    (ho : Orderly size loadBase (phs++[ph]))
    (hrun : loadSegment A read pm loadBase ph st=some (true,st')) :
    AllPlaced A pm top loadBase data (phs++[ph]) st' := by
  obtain ⟨htop,T,hs,hold⟩ := h
  have hph := ho.1 ph (List.mem_append_right _ (List.mem_singleton_self _)) hl
  obtain ⟨htop',T',phys,extra,hs',hloaded⟩ := loadSegment_loaded hs htop hread hph hbase hrun
  refine ⟨htop',T',hs',?_⟩
  intro ph₀ hmem hl₀
  rw [List.mem_append,List.mem_singleton] at hmem
  rcases hmem with hmem | rfl
  · obtain ⟨phys₀,hp₀⟩ := hold ph₀ hmem hl₀
    have hbefore := (List.pairwise_append.mp ho.2).2.2 ph₀ hmem ph (List.mem_singleton_self _) hl₀ hl
    exact ⟨phys₀,hloaded.keep (ho.init.1 ph₀ hmem hl₀) hbefore hp₀⟩
  · exact ⟨phys,hloaded.placed hph hbase⟩

theorem AllPlaced.other (h : AllPlaced A pm top loadBase data phs st) (hl : ph.type≠ptLoad)
    (hmm : st'.mm=st.mm) : AllPlaced A pm top loadBase data (phs++[ph]) st' := by
  obtain ⟨htop,T,hs,hold⟩ := h
  refine ⟨hmm ▸ htop,T,hmm ▸ hs,?_⟩
  intro ph₀ hmem hl₀
  rw [List.mem_append,List.mem_singleton] at hmem
  rcases hmem with hmem | rfl
  · rw [hmm]
    exact hold ph₀ hmem hl₀
  · exact absurd hl₀ hl

theorem LoadableFile.orderly (h : LoadableFile data size loadBase (2^47)) :
    Orderly size loadBase ((List.range' 0 (elf64Ehdr data).phnum).map (filePhdr data)) := by
  constructor
  · intro ph hph hl
    obtain ⟨i,hi,rfl⟩ := List.mem_map.mp hph
    rw [List.mem_range'_1] at hi
    exact h.segments i (by omega) hl
  · rw [List.pairwise_map]
    refine List.Pairwise.imp_of_mem ?_ List.pairwise_lt_range'
    intro i j _ hj hlt
    rw [List.mem_range'_1] at hj
    exact h.ascending i j hlt (by omega)

theorem Placed.virt2phys {r : Ram P} {T : List Table} {phys : Nat}
    (h : Placed A r T top loadBase data ph phys) (hf : Forest A r T) (ht : ⟨top,3⟩∈T)
    (hph : ph.Loadable size loadBase (2^47)) (hbase : loadBase%pageSize=0) {k : Nat}
    (hk : k < ph.memsz) :
    ∃ p, vmmVirt2phys A r top (word (ph.vaddr+loadBase+k))=some p ∧ p≠invalidPhys ∧
      r.mem (p.toNat+M.hhdm)=ph.byte data k := by
  have hpages := hph.pageCount_eq
  have hstop := hph.stop
  have hb := h.bound
  have hM := M.phys_le
  have hal := h.aligned
  have hpage : (phys+ph.vaddr%pageSize+k)/pageSize*pageSize < 2^52 := by
    simp only [pageSize] at *
    omega
  obtain ⟨hpres,haddr⟩ := mapEntry_page (phdrProt ph) (Nat.mul_mod_left _ _) hpage
  refine ⟨_,vmmVirt2phys_eq hf ht _,?_,?_⟩
  · rw [h.mapped k hk]
    exact translate_valid hpres
  · rw [h.mapped k hk,Memory.translate,if_pos hpres,haddr]
    have hlow : (word (ph.vaddr+loadBase+k)%4096#64).toNat=(ph.vaddr+loadBase+k)%4096 := by
      rw [BitVec.toNat_umod,word_toNat (by omega)]
      rfl
    have hp : (word ((phys+ph.vaddr%pageSize+k)/pageSize*pageSize)+
        word (ph.vaddr+loadBase+k)%4096#64).toNat=phys+ph.vaddr%pageSize+k := by
      rw [BitVec.toNat_add,hlow,word,BitVec.toNat_ofNat]
      simp only [pageSize] at *
      omega
    rw [hp]
    exact h.bytes k hk

/-- Every segment of a program below 2^47 is found at its address: the bytes of
the file, then zeros. -/
theorem elf_segments_placed (A : PageAllocator M P) (read : Read) (data : Mem) (size : Nat)
    (hread : FileRead read data size) (room : Nat → Bool) (heap stack : Mem) (pm top loadBase : Nat)
    (hbase : loadBase%pageSize=0) (hfile : LoadableFile data size loadBase (2^47))
    (st st' : Loading M P) (T : List Table) (hs : Stocked A st.mm T) (htop : st.mm.tops pm=some top)
    (hrun : elfLoad A read room heap stack pm loadBase st=some (true,st')) :
    ∀ i < (elf64Ehdr data).phnum, (filePhdr data i).type=ptLoad →
      ∀ k < (filePhdr data i).memsz, ∃ p,
        vmmVirt2phys A st'.mm.ram top (word ((filePhdr data i).vaddr+loadBase+k))=some p ∧
        p≠invalidPhys ∧
        st'.mm.ram.mem (p.toNat+M.hhdm)=
          if k < (filePhdr data i).filesz then data ((filePhdr data i).offset+k) else 0 := by
  obtain ⟨x,auxv,hx,-,hloop⟩ := elfLoad_true hrun
  rw [hread 0 64 (by have := hfile.ehdr; omega)] at hx
  cases hx
  have hehdr : elf64Ehdr (overlay stack 0 (window data 0 64))=elf64Ehdr data :=
    elf64Ehdr_congr (fun i hi => by rw [overlay_file _ _ _ _ _ hi,Nat.zero_add])
  rw [hehdr] at hloop
  have hheaders : programHeaders read (elf64Ehdr data) (elf64Ehdr data).phnum 0 (fun i => stack (64+i))=
      some ((List.range' 0 (elf64Ehdr data).phnum).map (filePhdr data)) :=
    programHeaders_eq hread hfile.small (fun j hj => hfile.phdrs j (by omega))
  have hstart : AllPlaced A pm top loadBase data [] { st with auxv := auxv } :=
    ⟨htop,T,hs,fun _ hph => absurd hph List.not_mem_nil⟩
  obtain ⟨phs,hphs,hp⟩ := phdrLoop_rule
    (fun phs st => Orderly size loadBase phs → AllPlaced A pm top loadBase data phs st)
    (fun _ _ _ _ hl hi h ho => (hi ho.init).load hread hbase hl ho h)
    (fun _ _ _ _ hl hi hmm _ ho => (hi ho.init).other hl hmm)
    (fun _ => hstart) hloop
  rw [hheaders] at hphs
  cases hphs
  have ho := hfile.orderly
  rw [List.nil_append] at hp
  obtain ⟨htop',T',hs',hall⟩ := hp ho
  intro i hi hl k hk
  have hmem : filePhdr data i∈(List.range' 0 (elf64Ehdr data).phnum).map (filePhdr data) :=
    List.mem_map_of_mem (by rw [List.mem_range'_1]; omega)
  obtain ⟨phys,hplaced⟩ := hall _ hmem hl
  exact hplaced.virt2phys hs'.forest (hs'.top pm top htop') (ho.1 _ hmem hl) hbase hk

instance (size loadBase limit : Nat) (ph : Elf64Phdr) : Decidable (ph.Loadable size loadBase limit) :=
  decidable_of_iff (ph.filesz ≤ ph.memsz ∧ 0 < ph.memsz ∧ ph.offset+ph.filesz ≤ size ∧
      ph.vaddr+loadBase+ph.memsz ≤ limit)
    ⟨fun h => ⟨h.1,h.2.1,h.2.2.1,h.2.2.2⟩,fun h => ⟨h.filesz,h.memsz,h.inside,h.stop⟩⟩

instance (a b : Elf64Phdr) : Decidable (a.Before b) :=
  inferInstanceAs (Decidable (_ → _ → _))

instance (data : Mem) (size loadBase limit : Nat) : Decidable (LoadableFile data size loadBase limit) :=
  decidable_of_iff (size < 2^64 ∧ 64 ≤ size ∧
      (∀ i < (elf64Ehdr data).phnum,
        (elf64Ehdr data).phoff+i*(elf64Ehdr data).phentsize+56 ≤ size) ∧
      (∀ i < (elf64Ehdr data).phnum, (filePhdr data i).type=ptLoad →
        (filePhdr data i).Loadable size loadBase limit) ∧
      ∀ j < (elf64Ehdr data).phnum, ∀ i < j, (filePhdr data i).Before (filePhdr data j))
    ⟨fun h => ⟨h.1,h.2.1,h.2.2.1,h.2.2.2.1,fun i j hij hj => h.2.2.2.2 j hj i hij⟩,
      fun h => ⟨h.small,h.ehdr,h.phdrs,h.segments,fun j hj i hij => h.ascending i j hij hj⟩⟩

theorem tinyLoading_stocked : Stocked (bumpPages bumpMachine) tinyLoading.mm processTables where
  forest := processState_booted.forest
  full := processState_booted.full
  krnl := processState_booted.krnl
  top := processState_booted.top
  inj := processState_booted.inj
  known := processState_booted.known

theorem smallElf_fileRead (phs : List Elf64Phdr) :
    FileRead (tmpfsRead (smallElf phs)) (smallElf phs).data 256 :=
  tmpfsRead_fileRead (r := smallElf phs) (show 256 ≤ 4096 by decide) (show 4096 < 2^63 by decide)

theorem elf_segments_placed_tiny : ∃ st', tinyLoad 0x400010=some (true,st') ∧ ∀ k < 8, ∃ p,
    vmmVirt2phys (bumpPages bumpMachine) st'.mm.ram processTop (word (0x400010+0+k))=some p ∧
    p≠invalidPhys ∧
    st'.mm.ram.mem (p.toNat+bumpMachine.hhdm)=if k < 4 then BitVec.ofNat 8 (240+k) else 0 := by
  have hrun : (tinyLoad 0x400010).map (fun x => x.1)=some true := by decide +kernel
  obtain ⟨⟨ok,st'⟩,hload,rfl⟩ := Option.map_eq_some_iff.mp hrun
  have hfile : LoadableFile (tinyElf 0x400010).data 256 0 (2^47) := by decide +kernel
  have hph : (filePhdr (tinyElf 0x400010).data 0).vaddr=0x400010 ∧
      (filePhdr (tinyElf 0x400010).data 0).memsz=8 ∧
      (filePhdr (tinyElf 0x400010).data 0).filesz=4 ∧
      ∀ k < 4, (tinyElf 0x400010).data ((filePhdr (tinyElf 0x400010).data 0).offset+k)=
        BitVec.ofNat 8 (240+k) := by
    decide +kernel
  have h := elf_segments_placed (bumpPages bumpMachine) _ _ 256 (smallElf_fileRead _) (fun _ => true)
    (fun _ => 0) (fun _ => 0) 0 processTop 0 rfl hfile tinyLoading st' processTables tinyLoading_stocked
    rfl hload 0 (by decide +kernel) (by decide +kernel)
  obtain ⟨hvaddr,hmemsz,hfilesz,hbytes⟩ := hph
  rw [tinyElf] at hvaddr hmemsz hfilesz hbytes
  rw [hvaddr,hmemsz,hfilesz] at h
  refine ⟨st',hload,?_⟩
  intro k hk
  obtain ⟨p,hp,hvalid,hbyte⟩ := h k hk
  refine ⟨p,hp,hvalid,hbyte.trans ?_⟩
  by_cases hk4 : k < 4
  · rw [if_pos hk4,if_pos hk4,hbytes k hk4]
  · rw [if_neg hk4,if_neg hk4]

def aliasElf : Fs.Resource :=
  smallElf [⟨ptLoad,pfX,240,0x400000,1,1⟩,⟨ptLoad,pfX,241,0x1000000400000,1,1⟩]

/-- The page tables ignore the bits from 48 on: the second segment replaces the
first. -/
theorem elf_segments_alias : LoadableFile aliasElf.data 256 0 (2^64) ∧
    FileRead (tmpfsRead aliasElf) aliasElf.data 256 ∧
    (filePhdr aliasElf.data 0).type=ptLoad ∧ (filePhdr aliasElf.data 0).vaddr=0x400000 ∧
    (filePhdr aliasElf.data 0).filesz=1 ∧ (filePhdr aliasElf.data 0).memsz=1 ∧
    aliasElf.data (filePhdr aliasElf.data 0).offset=240#8 ∧
    ∃ st' p, elfLoad (bumpPages bumpMachine) (tmpfsRead aliasElf) (fun _ => true) (fun _ => 0)
        (fun _ => 0) 0 0 tinyLoading=some (true,st') ∧
      vmmVirt2phys (bumpPages bumpMachine) st'.mm.ram processTop (word 0x400000)=some p ∧
      st'.mm.ram.mem (p.toNat+bumpMachine.hhdm)=241#8 := by
  have hrun : (elfLoad (bumpPages bumpMachine) (tmpfsRead aliasElf) (fun _ => true) (fun _ => 0)
      (fun _ => 0) 0 0 tinyLoading).map (fun x => (x.1,
        (vmmVirt2phys (bumpPages bumpMachine) x.2.mm.ram processTop (word 0x400000)).map (fun p =>
          x.2.mm.ram.mem (p.toNat+bumpMachine.hhdm))))=some (true,some 241#8) := by
    decide +kernel
  obtain ⟨⟨ok,st'⟩,hload,hv⟩ := Option.map_eq_some_iff.mp hrun
  simp only [Prod.mk.injEq] at hv
  obtain ⟨rfl,hbyte⟩ := hv
  obtain ⟨p,hp,hbyte⟩ := Option.map_eq_some_iff.mp hbyte
  exact ⟨by decide +kernel,smallElf_fileRead _,by decide +kernel,by decide +kernel,by decide +kernel,
    by decide +kernel,by decide +kernel,st',p,hload,hp,hbyte⟩

end X64OS.Prg
