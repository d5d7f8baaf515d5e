import X64OS.Framework.Words
import X64OS.Memory.PmmSearch
import X64OS.Memory.Slab

namespace X64OS.Memory.Pmm

open Framework

/-- The types of memory that pmm.cpp knows by name. -/
inductive MemmapType where
  | usable
  | reserved
  | acpiReclaimable
  | acpiNvs
  | badMemory
  | bootloaderReclaimable
  | executableAndModules
  | framebuffer
  | unknown
  deriving DecidableEq, Repr

structure MemmapEntry where
  base : Nat
  length : Nat
  type : MemmapType
  deriving DecidableEq, Repr

def MemmapEntry.span (e : MemmapEntry) : Span := ⟨e.base,e.length⟩

def MemmapEntry.shrink (e : MemmapEntry) (size : Nat) : MemmapEntry :=
  { e with length := e.length-size, base := add64 e.base size }

/-- The loop that finds a hole for the bitmap: its address, and the entries
without it. -/
def carve (size : Nat) : List MemmapEntry → Option (Nat × List MemmapEntry)
  | [] => none
  | e::es =>
    if e.type=.usable ∧ size ≤ e.length then some (e.base,e.shrink size::es)
    else (carve size es).map (fun x => (x.1,e::x.2))

section
variable (entries : List MemmapEntry)

end

/-- Whole pages below the end of the address space. -/
structure EntryOk (e : MemmapEntry) : Prop where
  base : e.base%pageSize=0
  length : e.length%pageSize=0
  wraps : e.base+e.length < 2^64

variable {e : MemmapEntry} {size n i : Nat} {entries : List MemmapEntry} {s s' : State}

theorem EntryOk.shrink (h : EntryOk e) (hs : size%pageSize=0) (hle : size ≤ e.length) :
    EntryOk (e.shrink size) ∧
      ∀ x, x∈(e.shrink size).span ↔ x∈e.span ∧ x∉(⟨e.base,size⟩ : Span) := by
  have hb := h.base
  have hl := h.length
  have hw := h.wraps
  have hadd : add64 e.base size=e.base+size := add64_eq (by omega)
  simp only [MemmapEntry.shrink,hadd,MemmapEntry.span,Span.mem_mk]
  refine ⟨⟨?_,?_,?_⟩,fun x => ?_⟩
  all_goals
    simp only [pageSize] at hb hl hs ⊢
    omega

def State.freePages (s : State) : Finset Nat :=
  (Finset.range s.highestPageIndex).filter (fun i => bitmapTest s.bitmap i=false)

theorem State.mem_freePages :
    i∈s.freePages ↔ i < s.highestPageIndex ∧ bitmapTest s.bitmap i=false := by
  rw [freePages,Finset.mem_filter,Finset.mem_range]

/-- These pages were free and are taken; all others are as they were. -/
structure Taken (s s' : State) (pages : Finset Nat) : Prop where
  free : pages ⊆ s.freePages
  valid : Valid s'
  highest : s'.highestPageIndex=s.highestPageIndex
  bits : ∀ i, bitmapTest s'.bitmap i=(decide (i∈pages) || bitmapTest s.bitmap i)

theorem Taken.freePages {pages : Finset Nat} (h : Taken s s' pages) :
    s'.freePages=s.freePages \ pages := by
  ext i
  rw [Finset.mem_sdiff,State.mem_freePages,State.mem_freePages,h.highest,h.bits,Bool.or_eq_false_iff,
    decide_eq_false_iff_not]
  tauto

theorem Taken.card {pages : Finset Nat} (h : Taken s s' pages) :
    s'.freePages.card+pages.card=s.freePages.card := by
  rw [h.freePages,Finset.card_sdiff_add_card_eq_card h.free]

theorem Taken.trans {s'' : State} {p q : Finset Nat} (h : Taken s s' p) (h' : Taken s' s'' q) :
    Disjoint p q ∧ Taken s s'' (p ∪ q) := by
  have hq : q ⊆ s.freePages \ p := h.freePages ▸ h'.free
  refine ⟨(Finset.subset_sdiff.mp hq).2.symm,
    Finset.union_subset h.free (Finset.subset_sdiff.mp hq).1,h'.valid,h'.highest.trans h.highest,?_⟩
  intro i
  rw [h'.bits,h.bits,← Bool.or_assoc]
  congr 1
  rw [Bool.or_comm]
  simp

section

variable {M : Machine} {h h' : Heap State}

end

end X64OS.Memory.Pmm
