import X64OS.Fs.Tmpfs
import X64OS.Memory.MunmapFrame
import X64OS.Memory.VmmFrames

namespace X64OS.Memory

open Framework

variable {M : Machine} {P : Type} {A : PageAllocator M P}
variable {s s' : MmapState M P} {r r' : Ram P} {T : List Table} {f : Fs.Resource} {hit : RangeHit}
variable {data pm virt page : Nat}

/-- A regular file of tmpfs whose buffer is at data, in pages of the heap. -/
structure FileAt (A : PageAllocator M P) (r : Ram P) (data : Nat) (f : Fs.Resource) : Prop where
  regular : Fs.sIsreg f.stMode=true
  size : f.stSize < 2^64
  bound : data+f.capacity ≤ 2^64
  bytes : ∀ k < f.capacity, r.mem (data+k)=f.data k
  used : ∀ k < f.capacity, A.inUse r.pmm ((data+k-M.hhdm)/pageSize)

def tmpfsReads (data filePage : Nat) : Span := ⟨add64 data (filePage*pageSize),pageSize⟩

def LocalRange.pageOf (l : LocalRange) (virt : Nat) : Nat :=
  l.offset/pageSize+(virt/pageSize-l.base/pageSize)

def mappedByte (f : Fs.Resource) (i : Nat) : BitVec 8 := if i < f.stSize then f.data i else 0

theorem filePage_eq (h : addr2range s pm virt=some (some hit)) (hvirt : virt < 2^64)
    (hoff : hit.range.offset < 2^64) : hit.filePage=hit.range.pageOf virt := by
  have hrep : hit.filePage=(hit.range.report virt).2.2 := congrArg (fun x => x.2.2) (findRange_report h)
  have hcov := (findRange_some h).2.2.1
  rw [LocalRange.covers,decide_eq_true_iff] at hcov
  have hle : hit.range.base/pageSize ≤ virt/pageSize := Nat.div_le_div_right hcov.1
  have hlt : virt/pageSize < 2^52 := Nat.div_lt_of_lt_mul (by simp only [pageSize]; omega)
  have hlt' : hit.range.offset/pageSize < 2^52 := Nat.div_lt_of_lt_mul (by simp only [pageSize]; omega)
  rw [hrep,LocalRange.report,LocalRange.pageOf]
  generalize virt/pageSize=v at hle hlt
  generalize hit.range.base/pageSize=b at hle
  generalize hit.range.offset/pageSize=o at hlt'
  rw [sub64_eq (by omega) hle,add64_eq (by omega)]

theorem reads_inside_iff (hbound : data+f.capacity ≤ 2^64) (filePage : Nat) :
    (∀ x∈tmpfsReads data filePage, x∈(⟨data,f.capacity⟩ : Span)) ↔
      filePage*pageSize%2^64+pageSize ≤ f.capacity := by
  have hwrap : add64 data (filePage*pageSize)=(data+filePage*pageSize%2^64)%2^64 :=
    (Nat.add_mod_mod _ _ _).symm
  have hlt : filePage*pageSize%2^64 < 2^64 := Nat.mod_lt _ (by decide)
  rw [tmpfsReads,hwrap]
  generalize filePage*pageSize%2^64=off at hlt
  constructor
  · intro h
    have hfirst := h ((data+off)%2^64) ((Span.mem_mk _ _ _).mpr ⟨le_rfl,by simp only [pageSize]; omega⟩)
    have hlast := h ((data+off)%2^64+(pageSize-1))
      ((Span.mem_mk _ _ _).mpr ⟨by omega,by simp only [pageSize]; omega⟩)
    rw [Span.mem_mk] at hfirst hlast
    simp only [pageSize] at hlast ⊢
    omega
  · intro h x hx
    rw [Span.mem_mk] at hx ⊢
    simp only [pageSize] at h hx
    omega

theorem reads_eq (hbound : data+f.capacity ≤ 2^64) {filePage : Nat}
    (h : filePage*pageSize%2^64+pageSize ≤ f.capacity) :
    tmpfsReads data filePage=⟨data+filePage*pageSize%2^64,pageSize⟩ := by
  have hlt : data+filePage*pageSize%2^64 < 2^64 := by
    simp only [pageSize] at h ⊢
    omega
  rw [tmpfsReads,add64,← Nat.add_mod_mod,Nat.mod_eq_of_lt hlt]

theorem copyFilePage_bytes (hv : A.Valid r.pmm) (hfile : FileAt A r data f) {filePage : Nat}
    (hin : filePage*pageSize%2^64+pageSize ≤ f.capacity)
    (h : copyFilePage A r data filePage=some (page,r')) {k : Nat} (hk : k < pageSize) :
    r'.mem (page+M.hhdm+k)=f.data (filePage*pageSize%2^64+k) := by
  have hspan := reads_eq hfile.bound hin
  have hinside := (reads_inside_iff hfile.bound filePage).mpr hin
  obtain ⟨⟨a,r₁⟩,ha,he⟩ := Option.map_eq_some_iff.mp h
  have hg := pmmAllocNozero_granted hv le_rfl ha
  rw [if_neg (Nat.pos_iff_ne_zero.mp hg.pos)] at he
  cases he
  -- the buffer is in use, so the page is apart from it
  have hsep : (mapped M a 1).Separate (tmpfsReads data filePage) := by
    apply hg.separate
    intro x hx
    have hx' := (Span.mem_mk _ _ _).mp (hinside x hx)
    obtain ⟨j,rfl⟩ := Nat.exists_eq_add_of_le hx'.1
    exact hfile.used j (by omega)
  have hcopy : memcpy r₁.mem (a+M.hhdm) (add64 data (filePage*pageSize)) pageSize (a+M.hhdm+k)=
      r₁.mem (add64 data (filePage*pageSize)+k) := by
    rw [mapped,Nat.one_mul] at hsep
    exact memcpy_copies _ hsep hk
  have hsource : add64 data (filePage*pageSize)+k=data+(filePage*pageSize%2^64+k) := by
    have hbase := congrArg Span.base hspan
    rw [tmpfsReads] at hbase
    dsimp only at hbase
    rw [hbase,Nat.add_assoc]
  have hread : add64 data (filePage*pageSize)+k∈tmpfsReads data filePage :=
    (Span.mem_mk _ _ _).mpr ⟨by omega,by omega⟩
  dsimp only
  rw [hcopy,hg.frame _ (hsep.symm _ hread),hsource]
  exact hfile.bytes _ (by omega)

/-- A fault in a mapping of a file of tmpfs reads the file's buffer only and gives the file's bytes,
with zeros behind its end, exactly if the page ends inside the buffer and the buffer is zero behind
the end of the file. -/
theorem tmpfs_page_iff (A : PageAllocator M P) (s : MmapState M P) (pm virt data : Nat)
    (f : Fs.Resource) (hit : RangeHit) (g : GlobalRange M) (page : Nat) (p : P)
    (hv : A.Valid s.ram.pmm) (hfile : FileAt A s.ram data f) (hvirt : virt < 2^64)
    (hhit : addr2range s pm virt=some (some hit)) (hoff : hit.range.offset < 2^64)
    (hanon : hit.range.flags &&& mapAnonymous=0) (hres : g.res=some (.tmpfs data))
    (hpage : A.alloc s.ram.pmm 1=some (page,p)) :
    ∃ r, faultPage A s hit g=some (page,r) ∧
      (((∀ x∈tmpfsReads data hit.filePage, x∈(⟨data,f.capacity⟩ : Span)) ∧
        ∀ k < pageSize, r.mem (page+M.hhdm+k)=mappedByte f (hit.range.pageOf virt*pageSize+k)) ↔
      hit.range.pageOf virt*pageSize%2^64+pageSize ≤ f.capacity ∧
        ∀ k < pageSize, f.stSize ≤ hit.range.pageOf virt*pageSize+k →
          f.data (hit.range.pageOf virt*pageSize%2^64+k)=0) := by
  have hfp := filePage_eq hhit hvirt hoff
  have hfault : faultPage A s hit g=copyFilePage A s.ram data hit.filePage := by
    rw [faultPage,if_neg (not_not.mpr hanon),hres]
    rfl
  have hpos : page≠0 := by
    have := A.alloc_pos _ _ _ _ hv le_rfl hpage
    rintro rfl
    exact absurd this (by decide)
  obtain ⟨r,hr⟩ : ∃ r, copyFilePage A s.ram data hit.filePage=some (page,r) := by
    rw [copyFilePage,pmmAllocNozero,hpage,Option.map_some,Option.map_some,if_neg hpos]
    exact ⟨_,rfl⟩
  refine ⟨r,hfault.trans hr,?_⟩
  rw [hfp] at hr ⊢
  generalize hit.range.pageOf virt=n at hr
  rw [reads_inside_iff hfile.bound]
  refine and_congr_right (fun hin => forall₂_congr (fun k hk => ?_))
  rw [copyFilePage_bytes hv hfile hin hr hk,mappedByte]
  by_cases hlt : n*pageSize+k < f.stSize
  · have hsize := hfile.size
    rw [if_pos hlt,Nat.mod_eq_of_lt (by omega)]
    exact iff_of_true rfl (fun hle => absurd hlt (by omega))
  · rw [if_neg hlt]
    exact ⟨fun h _ => h,fun h => h (by omega)⟩

theorem FileAt.mmap (hfile : FileAt A s.ram data f) (hr : Rooted A s T)
    (hplain : ∀ k < f.capacity, ∀ t∈T, data+k∉t.span) {task addr length prot flags offset ret : Nat}
    {pagemap : Option Nat} {node : Option (Resource M)} {evs : List (FreeEvent M P)}
    (hflags : flags &&& mapFixed=0)
    (h : mmap A s task pagemap addr length prot flags node offset=some (ret,s',evs)) :
    FileAt A s'.ram data f := by
  rw [Memory.mmap] at h
  dsimp only at h
  rw [if_neg (not_not.mpr hflags)] at h
  obtain ⟨s₁,hnew,he⟩ := Option.map_eq_some_iff.mp h
  cases he
  obtain ⟨⟨top,r₁⟩,hx,rfl⟩ := Option.map_eq_some_iff.mp hnew
  have hspares := vmmNewPagemap_spares hr.forest hr.full hr.krnl hx
  obtain ⟨_,_,_,hcreated⟩ := vmmNewPagemap_created hr.forest hr.full hr.krnl hx
  refine ⟨hfile.regular,hfile.size,hfile.bound,?_,?_⟩
  · intro k hk
    exact (hspares _ ⟨hfile.used k hk,hplain k hk⟩).trans (hfile.bytes k hk)
  · intro k hk
    exact hcreated.used _ (hfile.used k hk)

def fileState : MmapState bumpMachine Nat := { processState with ram := ⟨processMem,516⟩ }

def fileData : Nat := bumpMachine.hhdm+515*pageSize

def newFile : Fs.Resource := Fs.createTmpfsResource 0o100644

theorem newFile_eq : newFile=⟨0o100644,0,4096,fun _ => 0⟩ := by
  rw [newFile,Fs.createTmpfsResource,if_pos (by decide)]

theorem fileState_rooted : Rooted (bumpPages bumpMachine) fileState processTables where
  forest := ⟨(by decide : 0 < 516),processForest.base,
    fun t ht x hx => Nat.lt_succ_of_lt (processForest.used t ht x hx),processForest.apart,
    processForest.child,processForest.single,processForest.upper⟩
  full := processState_booted.full
  krnl := processState_booted.krnl
  top pm t ht := by
    obtain ⟨-,heq⟩ := Option.ite_none_right_eq_some.mp ht
    cases heq
    exact mem_processTables.mpr ⟨514,by omega,rfl⟩
  inj pm pm' t ht ht' := by
    obtain ⟨hpm,-⟩ := Option.ite_none_right_eq_some.mp ht
    obtain ⟨hpm',-⟩ := Option.ite_none_right_eq_some.mp ht'
    exact hpm.trans hpm'.symm

theorem fileState_file : FileAt (bumpPages bumpMachine) fileState.ram fileData newFile := by
  rw [newFile_eq]
  have hpage : ∀ k < 4096, (fileData+k-bumpMachine.hhdm)/pageSize=515 := by
    intro k hk
    rw [fileData]
    simp only [pageSize]
    omega
  refine ⟨by decide,by decide,by decide,?_,?_⟩
  · intro k hk
    have hnone : ¬(bumpMachine.hhdm ≤ fileData+k ∧ ((fileData+k-bumpMachine.hhdm)/pageSize=1 ∨
        ((fileData+k-bumpMachine.hhdm)/pageSize=514 ∧ 256 ≤ (fileData+k-bumpMachine.hhdm)%pageSize/8))) := by
      rw [hpage k hk]
      omega
    exact if_neg hnone
  · intro k hk
    have hlt : (fileData+k-bumpMachine.hhdm)/pageSize < 516 := by
      rw [hpage k hk]
      decide
    exact hlt

theorem fileState_plain : ∀ k < newFile.capacity, ∀ t∈processTables, fileData+k∉t.span := by
  intro k hk t ht hx
  obtain ⟨p,hp,rfl⟩ := mem_processTables.mp ht
  rw [processTable,Table.span,Span.mem_mk,fileData] at hx
  dsimp only at hx
  simp only [pageSize] at hx
  omega

def twoPages : LocalRange := ⟨0,0,0x80000000000,2*pageSize,0,protWrite,0⟩

theorem twoPages_mapped : ∃ s g,
    mmap (bumpPages bumpMachine) fileState 0 none 0 (2*pageSize) protWrite 0 (some (.tmpfs fileData)) 0=
      some (0x80000000000,s,[]) ∧
    FileAt (bumpPages bumpMachine) s.ram fileData newFile ∧ 0 < s.ram.pmm ∧ s.ram.pmm < 1024 ∧
    g.res=some (.tmpfs fileData) ∧ s.globals 0=some g ∧
    (∀ virt, twoPages.covers virt=true → addr2range s (s.pgm 0) virt=
      some (some ⟨0,twoPages,virt/pageSize,add64 0 (sub64 (virt/pageSize) (0x80000000000/pageSize))⟩)) ∧
    (copyFilePage (bumpPages bumpMachine) s.ram fileData 1).map (fun y =>
      y.2.mem (y.1+bumpMachine.hhdm+2048))=some 7 := by
  have hrun : (vmmNewPagemap (bumpPages bumpMachine) fileState.ram (some fileState.krnlPage)).map (fun x =>
      (decide (0 < x.2.pmm),decide (x.2.pmm < 1024),
        (copyFilePage (bumpPages bumpMachine) x.2 fileData 1).map (fun y =>
          y.2.mem (y.1+bumpMachine.hhdm+2048))))=some (true,true,some 7) := by
    decide +kernel
  obtain ⟨x,hx,hval⟩ := Option.map_eq_some_iff.mp hrun
  simp only [Prod.mk.injEq,decide_eq_true_eq] at hval
  obtain ⟨hpos,hlt,hbyte⟩ := hval
  obtain ⟨s,hm,hs⟩ : ∃ s, mmap (bumpPages bumpMachine) fileState 0 none 0 (2*pageSize) protWrite 0
      (some (.tmpfs fileData)) 0=some (0x80000000000,s,[]) ∧ s.ram=x.2 ∧
      s.globals 0=some ⟨x.1.map (fun _ => 1),[0],some (.tmpfs fileData),0x80000000000,2*pageSize,0⟩ ∧
      s.pgm 0=0 ∧ s.ranges 0=[0] ∧ s.locals 0=some twoPages := by
    rw [mmap]
    dsimp only
    rw [if_neg (by decide),newRange]
    dsimp only
    rw [show vmmNewPagemap (bumpPages bumpMachine) fileState.ram (some fileState.krnlPage)=some x from hx]
    exact ⟨_,rfl,rfl,rfl,rfl,rfl,rfl⟩
  obtain ⟨hram,hglobal,hpgm,hranges,hlocal⟩ := hs
  refine ⟨s,_,hm,fileState_file.mmap fileState_rooted fileState_plain (by decide) hm,?_,?_,rfl,hglobal,?_,?_⟩
  · rw [hram]
    exact hpos
  · rw [hram]
    exact hlt
  · intro virt hcov
    rw [addr2range,hpgm,hranges,findRange,hlocal]
    exact if_pos hcov
  · rw [hram]
    exact hbyte

theorem tmpfs_page_iff_first : ∃ s page r,
    mmap (bumpPages bumpMachine) fileState 0 none 0 (2*pageSize) protWrite 0 (some (.tmpfs fileData)) 0=
      some (0x80000000000,s,[]) ∧
    ∃ hit g, addr2range s (s.pgm 0) 0x80000000123=some (some hit) ∧ hit.range=twoPages ∧
      s.globals hit.range.global=some g ∧ faultPage (bumpPages bumpMachine) s hit g=some (page,r) ∧
      (∀ x∈tmpfsReads fileData hit.filePage, x∈(⟨fileData,newFile.capacity⟩ : Span)) ∧
      ∀ k < pageSize, r.mem (page+bumpMachine.hhdm+k)=mappedByte newFile (0*pageSize+k) := by
  obtain ⟨s,g,hm,hfile,hpos,hlt,hres,hg,hfound,-⟩ := twoPages_mapped
  have hhit := hfound 0x80000000123 (by decide)
  have halloc : (bumpPages bumpMachine).alloc s.ram.pmm 1=some (s.ram.pmm*pageSize,s.ram.pmm+1) := if_pos hlt
  obtain ⟨r,hfault,hiff⟩ := tmpfs_page_iff (bumpPages bumpMachine) s (s.pgm 0) 0x80000000123 fileData newFile
    _ g _ _ hpos hfile (by decide) hhit (by decide) (by decide) hres halloc
  have hpage : twoPages.pageOf 0x80000000123=0 := by decide
  dsimp only at hiff
  rw [hpage,newFile_eq] at hiff
  have hright := hiff.mpr ⟨by decide,fun k _ _ => rfl⟩
  rw [← newFile_eq] at hright
  exact ⟨s,_,r,hm,_,g,hhit,rfl,hg,hfault,hright⟩

/-- A fault on the second page of a mapping of an empty file gives a copy of the page behind the
file's buffer, where the entries of the shadow pagemap are. -/
theorem tmpfs_page_behind_buffer : ∃ s page r,
    mmap (bumpPages bumpMachine) fileState 0 none 0 (2*pageSize) protWrite 0 (some (.tmpfs fileData)) 0=
      some (0x80000000000,s,[]) ∧
    FileAt (bumpPages bumpMachine) s.ram fileData newFile ∧
    ∃ hit g, addr2range s (s.pgm 0) 0x80000001000=some (some hit) ∧
      s.globals hit.range.global=some g ∧ faultPage (bumpPages bumpMachine) s hit g=some (page,r) ∧
      ¬(∀ x∈tmpfsReads fileData hit.filePage, x∈(⟨fileData,newFile.capacity⟩ : Span)) ∧
      r.mem (page+bumpMachine.hhdm+2048)=7 ∧ mappedByte newFile (1*pageSize+2048)=0 := by
  obtain ⟨s,g,hm,hfile,hpos,hlt,hres,hg,hfound,hbyte⟩ := twoPages_mapped
  obtain ⟨⟨page,r⟩,hcopy,hseven⟩ := Option.map_eq_some_iff.mp hbyte
  have hhit := hfound 0x80000001000 (by decide)
  refine ⟨s,page,r,hm,hfile,_,g,hhit,hg,?_,?_,hseven,by decide⟩
  · rw [faultPage,if_neg (by decide),hres]
    exact hcopy
  · intro hall
    exact absurd (hall (fileData+pageSize) (by decide)) (by decide)

end X64OS.Memory
