import X64OS.Framework.Words
import X64OS.Memory.Libc
import X64OS.Memory.Vmm

namespace X64OS.Memory

open Framework Function

def mapFixed : Nat := 2

def mapAnonymous : Nat := 4

def protRead : Nat := 2

def protWrite : Nat := 1

def protExec : Nat := 4

def pteNx : BitVec 64 := 1#64 <<< 63

def word (a : Nat) : BitVec 64 := BitVec.ofNat 64 a

/-- A linear framebuffer as the boot loader reports it: whole pages inside the
direct map. -/
structure Framebuffer (M : Machine) where
  address : Nat
  smemLen : Nat
  aligned : address%pageSize=0
  low : M.hhdm ≤ address
  high : address-M.hhdm+smemLen ≤ 2^52
  wraps : address+smemLen ≤ 2^64

/-- What the mmap member of a resource can be. -/
inductive Resource (M : Machine) where
  | stub
  | tmpfs (data : Nat)
  | devtmpfs (data : Nat)
  | fbdev (device : Framebuffer M)

/-- mmap_range_local. Pagemaps and global ranges are objects, known by number. -/
structure LocalRange where
  pagemap : Nat
  global : Nat
  base : Nat
  length : Nat
  offset : Nat
  prot : Nat
  flags : Nat

structure GlobalRange (M : Machine) where
  shadowPagemap : Option Nat
  locals : List Nat
  res : Option (Resource M)
  base : Nat
  length : Nat
  offset : Nat

def LocalRange.stop (l : LocalRange) : Nat := add64 l.base l.length

def LocalRange.covers (l : LocalRange) (virt : Nat) : Bool := l.base ≤ virt ∧ virt < l.stop

/-- Memory, the pagemap objects with their top_level and mmap_ranges, the
threads, and the range objects. A number without an object is free memory:
reading it is undefined. -/
structure MmapState (M : Machine) (P : Type) where
  ram : Ram P
  krnlPage : Nat
  krnlMain : Nat
  base : Nat
  anonBase : Nat → Nat
  pgm : Nat → Nat
  tops : Nat → Option Nat
  ranges : Nat → List Nat
  locals : Nat → Option LocalRange
  globals : Nat → Option (GlobalRange M)
  nextPagemap : Nat
  nextLocal : Nat
  nextGlobal : Nat

/-- The struct addr2range of a hit, with the object it points to. -/
structure RangeHit where
  id : Nat
  range : LocalRange
  memoryPage : Nat
  filePage : Nat

/-- pmm_free(phys, 1), with the state in which it is called. -/
structure FreeEvent (M : Machine) (P : Type) where
  state : MmapState M P
  phys : Nat

section

variable {M : Machine} {P : Type} (A : PageAllocator M P)

def MmapState.setRam (s : MmapState M P) (r : Ram P) : MmapState M P :=
  { s with ram := r }

def MmapState.setLocal (s : MmapState M P) (id : Nat) (l : LocalRange) : MmapState M P :=
  { s with locals := update s.locals id (some l) }

def MmapState.setRanges (s : MmapState M P) (pm : Nat) (ids : List Nat) : MmapState M P :=
  { s with ranges := update s.ranges pm ids }

def findRange (locals : Nat → Option LocalRange) (virt : Nat) : List Nat → Option (Option RangeHit)
  | [] => some none
  | id::ids =>
    match locals id with
    | none => none
    | some l =>
      if l.covers virt then
        some (some ⟨id,l,virt/pageSize,
          add64 (l.offset/pageSize) (sub64 (virt/pageSize) (l.base/pageSize))⟩)
      else findRange locals virt ids

def addr2range (s : MmapState M P) (pm virt : Nat) : Option (Option RangeHit) :=
  findRange s.locals virt (s.ranges pm)

section
variable (r : Ram P) (data filePage : Nat)

/-- tmpfs and devtmpfs give each fault a private copy of the file page. -/
def copyFilePage : Option (Nat × Ram P) :=
  (pmmAllocNozero A r 1).map (fun x =>
    if x.1=0 then (0,x.2)
    else (x.1,⟨memcpy x.2.mem (x.1+M.hhdm) (add64 data (filePage*pageSize)) pageSize,x.2.pmm⟩))

def tmpfsResourceMmap : Option (Nat × Ram P) :=
  copyFilePage A r data filePage

def devtmpfsResourceMmap : Option (Nat × Ram P) :=
  copyFilePage A r data filePage

end

def fbdevMmap (device : Framebuffer M) (filePage : Nat) : Nat :=
  let offset := filePage*pageSize%2^64
  if device.smemLen ≤ offset then 0 else device.address+offset-M.hhdm

/-- res->mmap(res, file_page, flags), 0 for NULL. -/
def Resource.mmap (r : Ram P) (filePage : Nat) : Resource M → Option (Nat × Ram P)
  | .stub => some (0,r)
  | .tmpfs data => tmpfsResourceMmap A r data filePage
  | .devtmpfs data => devtmpfsResourceMmap A r data filePage
  | .fbdev device => some (fbdevMmap device filePage,r)

def ptFlags (prot : Nat) : BitVec 64 :=
  ptePresent ||| pteUser ||| (if prot &&& protWrite≠0 then pteWritable else 0) |||
    (if prot &&& protExec=0 then pteNx else 0)

def mapOver (s : MmapState M P) (pm : Option Nat) (virt phys : Nat) (flags : BitVec 64) :
    Option (Bool × MmapState M P) :=
  match pm with
  | none => (vmmMapPage A s.ram none (word virt) (word phys) flags true).map (fun x =>
      (x.1,s.setRam x.2))
  | some pm =>
    (s.tops pm).bind (fun top =>
      (vmmMapPage A s.ram (some top) (word virt) (word phys) flags true).map (fun x =>
        (x.1,s.setRam x.2)))

def mapLocals (virt phys : Nat) (flags : BitVec 64) :
    List Nat → MmapState M P → Option (Bool × MmapState M P)
  | [],s => some (true,s)
  | id::ids,s =>
    (s.locals id).bind (fun l =>
      if l.covers virt then
        (mapOver A s (some l.pagemap) virt phys flags).bind (fun x =>
          if x.1=false then some x else mapLocals virt phys flags ids x.2)
      else mapLocals virt phys flags ids s)

def mmapPageInRange (s : MmapState M P) (g : GlobalRange M) (virt phys prot : Nat) :
    Option (Bool × MmapState M P) :=
  (mapOver A s g.shadowPagemap virt phys (ptFlags prot)).bind (fun x =>
    if x.1=false then some x else mapLocals A virt phys (ptFlags prot) g.locals x.2)

/-- The page mmap_pf gets for a fault: fresh for an anonymous range, from the
resource otherwise. A range without either has no page to give. -/
def faultPage (s : MmapState M P) (hit : RangeHit) (g : GlobalRange M) : Option (Nat × Ram P) :=
  if hit.range.flags &&& mapAnonymous≠0 then pmmAlloc A s.ram 1
  else g.res.bind (fun res => res.mmap A s.ram hit.filePage)

/-- mmap_pf for the current thread; none is a fault that is never handled. -/
def mmapPf (s : MmapState M P) (task cr2 err rip : Nat) : Option (Bool × MmapState M P) :=
  if err%2=1 then some (false,s)
  else if s.krnlMain < rip then some (false,s)
  else
    (addr2range s (s.pgm task) cr2).bind (fun found =>
      match found with
      | none => some (false,s)
      | some hit =>
        (s.globals hit.range.global).bind (fun g =>
          (faultPage A s hit g).bind (fun x =>
            if x.1=0 then some (false,s.setRam x.2)
            else mmapPageInRange A (s.setRam x.2) g (hit.memoryPage*pageSize) x.1 hit.range.prot)))

/-- More rounds than an address space has pages: such a loop does not end. -/
def rounds : Nat := 2^53

/-- The inner loop of munmap: page by page to the end of the range or of the
window. -/
def snipStop (stop limit : Nat) : Nat → Nat → Option Nat
  | 0,_ => none
  | n+1,i =>
    if stop ≤ add64 i pageSize ∨ limit ≤ add64 i pageSize then some (add64 i pageSize)
    else snipStop stop limit n (add64 i pageSize)

def unmapPages (top stop : Nat) : Nat → Nat → Ram P → Option (Ram P)
  | 0,_,_ => none
  | n+1,j,r =>
    if j < stop then
      (vmmUnmapPage A r top (word j)).bind (fun x => unmapPages top stop n (add64 j pageSize) x.2)
    else some r

def freeShadow (shadow stop : Nat) :
    Nat → Nat → MmapState M P → Option (Bool × MmapState M P × List (FreeEvent M P))
  | 0,_,_ => none
  | n+1,j,s =>
    if j < stop then
      (vmmVirt2phys A s.ram shadow (word j)).bind (fun phys =>
        if phys=invalidPhys then freeShadow shadow stop n (add64 j pageSize) s
        else (vmmUnmapPage A s.ram shadow (word j)).bind (fun x =>
          if x.1=false then some (false,s.setRam x.2,[])
          else
            let s' := s.setRam x.2
            (freeShadow shadow stop n (add64 j pageSize)
              (s'.setRam (pmmFree A x.2 phys.toNat 1))).map (fun y =>
                (y.1,y.2.1,⟨s',phys.toNat⟩::y.2.2))))
    else some (true,s,[])

section
variable (s : MmapState M P)

/-- The part of a range behind the window becomes a range of its own. Only
pagemap->mmap_ranges learns of it. -/
def splitRange (pm id : Nat) (l : LocalRange) (snipBegin snipEnd : Nat) :
    LocalRange × MmapState M P :=
  if l.base < snipBegin ∧ snipEnd < l.stop then
    let postsplit : LocalRange :=
      { l with
        base := snipEnd
        length := sub64 l.stop snipEnd
        offset := add64 l.offset (sub64 snipEnd l.base) }
    let l' := { l with length := sub64 l.length postsplit.length }
    (l',{ s.setLocal s.nextLocal postsplit with nextLocal := s.nextLocal+1 }.setRanges pm
      (s.ranges pm++[s.nextLocal]) |>.setLocal id l')
  else (l,s)

/-- What is left of a range once the pages from snipBegin to snipEnd are gone. -/
def trimRange (id : Nat) (l : LocalRange) (snipBegin snipEnd : Nat) : MmapState M P :=
  let snipLength := sub64 snipEnd snipBegin
  if snipBegin=l.base then
    s.setLocal id { l with
      offset := add64 l.offset snipLength
      base := snipEnd
      length := sub64 l.length snipLength }
  else s.setLocal id { l with length := sub64 l.length snipLength }

/-- A range that is gone whole leaves mmap_ranges; with a single local its
global range gives its pages back and the object is freed. -/
def dropRange (pm id : Nat) (l : LocalRange) (g : GlobalRange M) (snipBegin snipEnd : Nat) :
    Option (Bool × MmapState M P × List (FreeEvent M P)) :=
  let s' := s.setRanges pm ((s.ranges pm).filter (fun k => k≠id))
  if g.locals.length=1 then
    (if l.flags &&& mapAnonymous≠0 then
      (g.shadowPagemap.bind s.tops).bind (fun shadow =>
        freeShadow A shadow (add64 g.base g.length) rounds g.base s')
    else some (true,s',[])).map (fun y =>
      if y.1=false then y
      else (true,{ y.2.1 with locals := update y.2.1.locals id none },y.2.2))
  else some (true,trimRange s' id l snipBegin snipEnd,[])

/-- One round of munmap on the range that holds the page. -/
def snip (pm : Nat) (hit : RangeHit) (snipBegin snipEnd : Nat) :
    Option (Bool × MmapState M P × List (FreeEvent M P)) :=
  (s.globals hit.range.global).bind (fun g =>
    let x := splitRange s pm hit.id hit.range snipBegin snipEnd
    (s.tops pm).bind (fun top =>
      (unmapPages A top snipEnd rounds snipBegin x.2.ram).bind (fun r =>
        let s' := x.2.setRam r
        if sub64 snipEnd snipBegin=x.1.length then dropRange A s' pm hit.id x.1 g snipBegin snipEnd
        else some (true,trimRange s' hit.id x.1 snipBegin snipEnd,[]))))

end

/-- The outer loop of munmap. After a range it goes on behind the page at
which that range ended. -/
def munmapLoop (pm limit : Nat) :
    Nat → Nat → MmapState M P → Option (Bool × MmapState M P × List (FreeEvent M P))
  | 0,_,_ => none
  | n+1,i,s =>
    if i < limit then
      (addr2range s pm i).bind (fun found =>
        match found with
        | none => munmapLoop pm limit n (add64 i pageSize) s
        | some hit =>
          (snipStop hit.range.stop limit rounds i).bind (fun e =>
            (snip A s pm hit i e).bind (fun y =>
              if y.1=false then some y
              else (munmapLoop pm limit n (add64 e pageSize) y.2.1).map (fun z =>
                (z.1,z.2.1,y.2.2++z.2.2)))))
    else some (true,s,[])

def munmap (s : MmapState M P) (pm addr length : Nat) :
    Option (Bool × MmapState M P × List (FreeEvent M P)) :=
  if length=0 then some (false,s,[])
  else munmapLoop A pm (add64 addr (alignUp length pageSize)) rounds addr s

/-- The second half of mmap: the global range with its shadow pagemap, the
local range, both at the address in the variable base. -/
def newRange (s : MmapState M P) (pm length prot flags : Nat) (node : Option (Resource M))
    (offset : Nat) : Option (MmapState M P) :=
  (vmmNewPagemap A s.ram (some s.krnlPage)).map (fun x =>
    let g : GlobalRange M :=
      ⟨x.1.map (fun _ => s.nextPagemap),[s.nextLocal],node,s.base,length,offset⟩
    let l : LocalRange := ⟨pm,s.nextGlobal,s.base,length,offset,prot,flags⟩
    let ranges := update s.ranges s.nextPagemap []
    { s with
      ram := x.2
      tops := update s.tops s.nextPagemap x.1
      ranges := update ranges pm (ranges pm++[s.nextLocal])
      locals := update s.locals s.nextLocal (some l)
      globals := update s.globals s.nextGlobal (some g)
      nextPagemap := s.nextPagemap+1
      nextLocal := s.nextLocal+1
      nextGlobal := s.nextGlobal+1 })

/-- mmap for a thread; the result is the variable base, whatever put it there. -/
def mmap (s : MmapState M P) (task : Nat) (pagemap : Option Nat) (addr length prot flags : Nat)
    (node : Option (Resource M)) (offset : Nat) :
    Option (Nat × MmapState M P × List (FreeEvent M P)) :=
  let length := alignUp length pageSize
  let pm := pagemap.getD (s.pgm task)
  if flags &&& mapFixed≠0 then
    (munmap A s pm addr length).bind (fun y =>
      if y.1=false then some (y.2.1.base,y.2.1,y.2.2)
      else (newRange A y.2.1 pm length prot flags node offset).map (fun s' => (s'.base,s',y.2.2)))
  else
    let s' := { s with
      base := s.anonBase task
      anonBase := update s.anonBase task
        (add64 (s.anonBase task) (add64 length pageSize)) }
    (newRange A s' pm length prot flags node offset).map (fun s'' => (s''.base,s'',[]))

end

end X64OS.Memory
