import X64OS.Memory.Libc
import X64OS.Memory.Ram

namespace X64OS.Memory

open Framework Function

structure Slab where
  firstFree : Nat
  entSize : Nat

/-- Physical memory with the ten slabs and the byte count of the multi-page
blocks. The slabs themselves lie in the kernel image, outside every page the
allocator owns. -/
structure Heap (P : Type) where
  ram : Ram P
  slabs : Fin 10 → Slab
  usedRam : BitVec 64

def slabAddr (M : Machine) (i : Fin 10) : Nat := M.slabs+32*i

/-- The slab a header pointer names; none is a wild pointer. -/
def slabAt (M : Machine) (p : Nat) : Option (Fin 10) :=
  if h : M.slabs ≤ p ∧ (p-M.slabs)%32=0 ∧ (p-M.slabs)/32 < 10 then some ⟨(p-M.slabs)/32,h.2.2⟩
  else none

/-- ALIGN_UP(sizeof(struct slab_header), ent_size). -/
def headerOffset (entSize : Nat) : Nat := alignUp 8 entSize

def linkSlots (m : Mem) (arr fact : Nat) : Nat → Mem
  | 0 => m
  | n+1 => (linkSlots m arr fact n).write64 (arr+8*(n*fact)) (BitVec.ofNat 64 (arr+8*((n+1)*fact)))

def threadPage (m : Mem) (page slab entSize : Nat) : Mem :=
  let arr := page+headerOffset entSize
  let max := (pageSize-headerOffset entSize)/entSize-1
  let fact := entSize/8
  (linkSlots (m.write64 page (BitVec.ofNat 64 slab)) arr fact max).write64 (arr+8*(max*fact)) 0

section

variable {M : Machine} {P : Type} (A : PageAllocator M P)

def createSlab (h : Heap P) (i : Fin 10) (entSize : Nat) : Option (Heap P) :=
  (pmmAllocNozero A h.ram 1).map (fun x =>
    { h with
      ram := ⟨threadPage x.2.mem (x.1+M.hhdm) (slabAddr M i) entSize,x.2.pmm⟩
      slabs := update h.slabs i ⟨x.1+M.hhdm+headerOffset entSize,entSize⟩ })

/-- Unlinks the head of the free list. A head below the direct map panics. -/
def popFree (M : Machine) (h : Heap P) (i : Fin 10) : Option (Nat × Heap P) :=
  let oldFree := (h.slabs i).firstFree
  if oldFree < M.hhdm then none
  else some (oldFree,{ h with
    ram := ⟨h.ram.mem.fill oldFree (h.slabs i).entSize 0,h.ram.pmm⟩
    slabs := update h.slabs i
      ⟨(h.ram.mem.read64 oldFree).toNat,(h.slabs i).entSize⟩ })

def allocFromSlab (h : Heap P) (i : Fin 10) : Option (Nat × Heap P) :=
  if (h.slabs i).firstFree=0 then
    (createSlab A h i (h.slabs i).entSize).bind (fun h' => popFree M h' i)
  else popFree M h i

def freeInSlab (h : Heap P) (i : Fin 10) (addr : Nat) : Heap P :=
  if addr=0 then h
  else { h with
    ram := ⟨h.ram.mem.write64 addr (BitVec.ofNat 64 (h.slabs i).firstFree),h.ram.pmm⟩
    slabs := update h.slabs i ⟨addr,(h.slabs i).entSize⟩ }

def slabFor (h : Heap P) (size : Nat) : Option (Fin 10) :=
  (List.finRange 10).find? (fun i => size ≤ (h.slabs i).entSize)

/-- The multi-page branch of slab_alloc: a page of metadata before the block. -/
def allocPages (h : Heap P) (size : Nat) : Option (Nat × Heap P) :=
  let pageCount := divRoundup size 4096
  (pmmAlloc A h.ram (pageCount+1)).map (fun x =>
    if x.1=0 then (0,{ h with ram := x.2 })
    else
      let ret := x.1+M.hhdm
      (ret+pageSize,{ h with
        ram := ⟨(x.2.mem.write64 ret (BitVec.ofNat 64 pageCount)).write64 (ret+8)
          (BitVec.ofNat 64 size),x.2.pmm⟩
        usedRam := h.usedRam+BitVec.ofNat 64 size }))

def slabAlloc (h : Heap P) (size : Nat) : Option (Nat × Heap P) :=
  match slabFor h size with
  | some i => allocFromSlab A h i
  | none => allocPages A h size

/-- addr & ~0xfff is the page of addr, where a slab page has its header. -/
def headerSlab (M : Machine) (h : Heap P) (addr : Nat) : Option (Fin 10) :=
  slabAt M (h.ram.mem.read64 (addr/pageSize*pageSize)).toNat

def metaPages (h : Heap P) (addr : Nat) : Nat := (h.ram.mem.read64 (addr-pageSize)).toNat

def metaSize (h : Heap P) (addr : Nat) : Nat := (h.ram.mem.read64 (addr-pageSize+8)).toNat

def freePages (h : Heap P) (addr : Nat) : Heap P :=
  { h with
    ram := pmmFree A h.ram (addr-pageSize-M.hhdm) ((metaPages h addr+1)%2^64)
    usedRam := h.usedRam-BitVec.ofNat 64 (metaSize h addr) }

def slabFree (h : Heap P) (addr : Nat) : Option (Heap P) :=
  if addr=0 then some h
  else if addr%pageSize=0 then some (freePages A h addr)
  else (headerSlab M h addr).map (fun i => freeInSlab h i addr)

def copyBlock (h : Heap P) (dst src n : Nat) : Heap P :=
  { h with ram := ⟨memcpy h.ram.mem dst src n,h.ram.pmm⟩ }

/-- The branch of slab_realloc for a page-aligned block. The metadata is read
again after the allocation, as the source does. -/
def reallocPages (h : Heap P) (addr newSize : Nat) : Option (Nat × Heap P) :=
  if divRoundup (metaSize h addr) 4096=divRoundup newSize 4096 then
    some (addr,{ h with
      ram := ⟨h.ram.mem.write64 (addr-pageSize+8) (BitVec.ofNat 64 newSize),h.ram.pmm⟩ })
  else
    (slabAlloc A h newSize).bind (fun x =>
      if x.1=0 then some x
      else
        let n := if newSize < metaSize x.2 addr then newSize else metaSize x.2 addr
        (slabFree A (copyBlock x.2 x.1 addr n) addr).map (fun h' => (x.1,h')))

def reallocSlot (h : Heap P) (i : Fin 10) (addr newSize : Nat) : Option (Nat × Heap P) :=
  if (h.slabs i).entSize < newSize then
    (slabAlloc A h newSize).map (fun x =>
      if x.1=0 then x
      else (x.1,freeInSlab (copyBlock x.2 x.1 addr (x.2.slabs i).entSize) i addr))
  else some (addr,h)

def slabRealloc (h : Heap P) (addr newSize : Nat) : Option (Nat × Heap P) :=
  if addr=0 then slabAlloc A h newSize
  else if addr%pageSize=0 then reallocPages A h addr newSize
  else (headerSlab M h addr).bind (fun i => reallocSlot A h i addr newSize)

def clearBlock (h : Heap P) (addr n : Nat) : Heap P :=
  { h with ram := ⟨h.ram.mem.fill addr n 0,h.ram.pmm⟩ }

def malloc (h : Heap P) (size : Nat) : Option (Nat × Heap P) :=
  (slabAlloc A h size).map (fun x => (x.1,clearBlock x.2 x.1 size))

def free (h : Heap P) (ptr : Nat) : Option (Heap P) := slabFree A h ptr

def realloc (h : Heap P) (ptr l : Nat) : Option (Nat × Heap P) :=
  if ptr=0 then (malloc A h l).map (fun x => (x.1,clearBlock x.2 x.1 l))
  else slabRealloc A h ptr l

def entSizes : List Nat := [8,16,24,32,48,64,128,256,512,1024]

def entOf (i : Fin 10) : Nat := entSizes.get i

def slabInit (r : Ram P) : Option (Heap P) :=
  (List.finRange 10).foldlM (fun h i => createSlab A h i (entOf i))
    ⟨r,fun _ => ⟨0,0⟩,0⟩

end

end X64OS.Memory
