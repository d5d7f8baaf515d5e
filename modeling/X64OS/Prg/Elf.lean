import X64OS.Fs.Tmpfs
import X64OS.Memory.MmapRange

namespace X64OS.Prg

open Framework Memory
open Fs (Str)

def elfMag : Str := [0x7f,0x45,0x4c,0x46]

def elfClass64 : BitVec 8 := 2

def elfData2lsb : BitVec 8 := 1

def elfOsabiLinux : BitVec 8 := 3

def emX8664 : Nat := 62

def ptLoad : Nat := 1

def ptInterp : Nat := 3

def ptPhdr : Nat := 6

def pfX : Nat := 1

def pfW : Nat := 2

structure Elf64Ehdr where
  ident : Str
  machine : Nat
  entry : Nat
  phoff : Nat
  phentsize : Nat
  phnum : Nat

structure Elf64Phdr where
  type : Nat
  flags : Nat
  offset : Nat
  vaddr : Nat
  filesz : Nat
  memsz : Nat

def elf64Ehdr (buf : Mem) : Elf64Ehdr :=
  ⟨window buf 0 16,buf.readBytes 18 2,buf.readBytes 24 8,buf.readBytes 32 8,buf.readBytes 54 2,
    buf.readBytes 56 2⟩

def elf64Phdr (buf : Mem) : Elf64Phdr :=
  ⟨buf.readBytes 0 4,buf.readBytes 4 4,buf.readBytes 8 8,buf.readBytes 16 8,buf.readBytes 32 8,
    buf.readBytes 40 8⟩

def Elf64Ehdr.accepted (h : Elf64Ehdr) : Bool :=
  h.ident.take 4=elfMag ∧
  h.ident[4]?=some elfClass64 ∧ h.ident[5]?=some elfData2lsb ∧
  (h.ident[7]?=some 0 ∨ h.ident[7]?=some elfOsabiLinux) ∧ h.machine=emX8664

structure Auxval where
  atEntry : Nat
  atPhdr : Nat
  atPhent : Nat
  atPhnum : Nat

/-- What elf_load did for one PT_LOAD header: the pages pmm_alloc gave for it,
the local range and the pages mapped. -/
structure Load where
  phdr : Elf64Phdr
  phys : Nat
  pageCount : Nat
  range : Nat
  maps : List Mapping

/-- The memory and what the pointer arguments lead to. The string behind ld_path
is kept by value; ldPath is none for a null ld_path. -/
structure Loading (M : Machine) (P : Type) where
  mm : MmapState M P
  auxv : Auxval
  ldPath : Option (Option Str)
  loads : List Load

/-- The read member of a resource: its result, and the bytes it stores. -/
abbrev Read := Nat → Nat → Option (Int × Str)

def tmpfsRead (r : Fs.Resource) : Read :=
  fun offset count => (Fs.tmpfsResourceRead r offset count).map (fun x => (offT x.1,x.2))

def phdrProt (ph : Elf64Phdr) : Nat :=
  protRead ||| (if ph.flags &&& pfW≠0 then protWrite else 0) |||
    (if ph.flags &&& pfX≠0 then protExec else 0)

section

variable {M : Machine} {P : Type} (A : PageAllocator M P) (read : Read)

def loadSegment (pm loadBase : Nat) (ph : Elf64Phdr) (st : Loading M P) :
    Option (Bool × Loading M P) :=
  let misalign := ph.vaddr%pageSize
  let pageCount := divRoundup (add64 ph.memsz misalign) pageSize
  (pmmAlloc A st.mm.ram pageCount).bind (fun x =>
    let mm := st.mm.setRam x.2
    if x.1=0 then some (false,{ st with mm := mm })
    else
      (mmapRange A mm pm (add64 ph.vaddr loadBase) x.1 (pageCount*pageSize%2^64) (phdrProt ph)
          mapAnonymous).bind (fun y =>
        if y.1=false then
          some (false,{ st with mm := y.2.1.setRam (pmmFree A y.2.1.ram x.1 pageCount) })
        else
          (read ph.offset ph.filesz).map (fun z =>
            let mem := overlay y.2.1.ram.mem (add64 (add64 x.1 misalign) M.hhdm) z.2
            (decide (0 ≤ z.1),{ st with
              mm := y.2.1.setRam ⟨mem,y.2.1.ram.pmm⟩
              loads := st.loads++[⟨ph,x.1,pageCount,mm.nextLocal,y.2.2⟩] }))))

/-- case PT_INTERP; room says for which sizes malloc finds memory, and heap what
is in it. -/
def loadInterp (room : Nat → Bool) (heap : Mem) (ph : Elf64Phdr) (st : Loading M P) :
    Option (Bool × Loading M P) :=
  let size := add64 ph.filesz 1
  if room size=false then some (false,st)
  else
    (read ph.offset ph.filesz).map (fun z =>
      if z.1 < 0 then (false,st)
      else (true,{ st with ldPath := st.ldPath.map (fun _ => some (window (overlay heap 0 z.2) 0 size)) }))

def loadPhdr (room : Nat → Bool) (heap : Mem) (pm loadBase : Nat) (ph : Elf64Phdr)
    (st : Loading M P) : Option (Bool × Loading M P) :=
  if ph.type=ptLoad then loadSegment A read pm loadBase ph st
  else if ph.type=ptPhdr then
    some (true,{ st with auxv := { st.auxv with atPhdr := add64 ph.vaddr loadBase } })
  else if ph.type=ptInterp then loadInterp read room heap ph st
  else some (true,st)

def Elf64Ehdr.phdrAt (h : Elf64Ehdr) (i : Nat) : Nat := add64 h.phoff (i*h.phentsize%2^64)

/-- The loop over the program headers; all are read into the same buffer. -/
def phdrLoop (room : Nat → Bool) (heap : Mem) (pm loadBase : Nat) (h : Elf64Ehdr) :
    Nat → Nat → Mem → Loading M P → Option (Bool × Loading M P)
  | 0,_,_,st => some (true,st)
  | n+1,i,buf,st =>
    (read (h.phdrAt i) 56).bind (fun x =>
      if x.1 < 0 then some (false,st)
      else
        (loadPhdr A read room heap pm loadBase (elf64Phdr (overlay buf 0 x.2)) st).bind (fun y =>
          if y.1=false then some y
          else phdrLoop room heap pm loadBase h n (i+1) (overlay buf 0 x.2) y.2))

def Loading.fail (st : Loading M P) : Loading M P :=
  { st with ldPath := st.ldPath.map (fun _ => none) }

/-- elf_load. Of the stack it uses 64 bytes for the header and 56 for a program
header. -/
def elfLoad (room : Nat → Bool) (heap stack : Mem) (pm loadBase : Nat) (st : Loading M P) :
    Option (Bool × Loading M P) :=
  (read 0 64).bind (fun x =>
    let h := elf64Ehdr (overlay stack 0 x.2)
    if x.1 < 0 ∨ h.accepted=false then some (false,st)
    else
      let auxv := { st.auxv with
        atEntry := add64 h.entry loadBase
        atPhent := h.phentsize
        atPhnum := h.phnum }
      (phdrLoop A read room heap pm loadBase h h.phnum 0 (fun i => stack (64+i))
          { st with auxv := auxv }).map (fun y =>
        if y.1=false then (false,y.2.fail) else y))

end

def programHeaders (read : Read) (h : Elf64Ehdr) : Nat → Nat → Mem → Option (List Elf64Phdr)
  | 0,_,_ => some []
  | n+1,i,buf =>
    (read (h.phdrAt i) 56).bind (fun x =>
      if x.1 < 0 then none
      else (programHeaders read h n (i+1) (overlay buf 0 x.2)).map (fun phs =>
        elf64Phdr (overlay buf 0 x.2)::phs))

def fileHeaders (read : Read) (stack : Mem) : Option (List Elf64Phdr) :=
  (read 0 64).bind (fun x =>
    let h := elf64Ehdr (overlay stack 0 x.2)
    programHeaders read h h.phnum 0 (fun i => stack (64+i)))

end X64OS.Prg
