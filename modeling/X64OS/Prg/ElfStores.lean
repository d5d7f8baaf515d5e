import X64OS.Memory.MmapFaults
import X64OS.Memory.PmmInit
import X64OS.Prg.ElfPages

namespace X64OS.Prg

open Framework Memory
open Option (map_eq_some_iff bind_eq_some_iff bind_some map_some)
open Fs (Str)

section

variable {M : Machine} {P : Type} (A : PageAllocator M P) (read : Read) (room : Nat → Bool)

end

def pagesOf (phs : List Elf64Phdr) : Nat :=
  (phs.map (fun ph => if ph.type=ptLoad then ph.pageCount else 0)).sum

/-- The pagemap that is loaded into is known, and the tables are in order. -/
def Ready {M : Machine} {P : Type} (A : PageAllocator M P) (pm top : Nat) (s : MmapState M P) : Prop :=
  s.tops pm=some top ∧ ∃ T, Stocked A s T

theorem Ready.segment {M : Machine} {P : Type} {A : PageAllocator M P} {s mm : MmapState M P}
    {pm top n virt phys length prot flags : Nat} {r₁ : Ram P} {ok : Bool} {maps : List Mapping}
    (hr : Ready A pm top s) (hn : 1 ≤ n) (halloc : pmmAlloc A s.ram n=some (phys,r₁))
    (hrange : mmapRange A (s.setRam r₁) pm virt phys length prot flags=some (ok,mm,maps)) :
    phys≠0 ∧ ok=true ∧ ∀ (k : Nat) (bytes : Str), k < pageSize → k+bytes.length ≤ n*pageSize →
      Ready A pm top
        (mm.setRam ⟨overlay mm.ram.mem (add64 (add64 phys k) M.hhdm) bytes,mm.ram.pmm⟩) := by
  obtain ⟨htop,T,hs⟩ := hr
  obtain ⟨hg,-⟩ := pmmAlloc_granted hs.forest.valid hn halloc
  have e₁ := hg.evolved hs.forest hs.full
  obtain ⟨hok,htop₂,T₂,hs₂,e₂⟩ := mmapRange_evolved (hs.setRam e₁) htop hrange
  refine ⟨Nat.pos_iff_ne_zero.mp hg.pos,hok,fun k bytes hk hin => ⟨htop₂,T₂,?_⟩⟩
  have hb := hg.bound
  have hM := M.phys_le
  have hW := M.window
  have hdst : add64 (add64 phys k) M.hhdm=phys+k+M.hhdm := by
    rw [add64_eq (show phys+k < 2^64 by simp only [pageSize] at *; omega),
      add64_eq (by simp only [pageSize] at *; omega)]
  have hoff : Mem.SameOff (mapped M phys n) mm.ram.mem
      (overlay mm.ram.mem (phys+k+M.hhdm) bytes) := by
    intro x hx
    rw [mapped,Span.mem_mk] at hx
    by_cases hlow : x < phys+k+M.hhdm
    · exact overlay_of_lt hlow
    · exact overlay_of_ge (by omega)
  rw [hdst]
  exact hs₂.setRam (Evolved.of_off hs₂.forest hs₂.full hoff
    (fun x hx t ht => (e₂.plain (hg.plain hs.forest hx)).2 t ht)).1

section Headers

variable {M : Machine} {read : Read} {room : Nat → Bool} {heap stack : Mem} {pm top loadBase : Nat}
  {ph : Elf64Phdr} {st : Loading M Pmm.State} {y : Bool × Loading M Pmm.State}

section
variable (hr : Ready (bitmapPages M) pm top st.mm)
include hr

end

end Headers

section Loop

variable {M : Machine} {read : Read} {room : Nat → Bool} {heap stack : Mem} {pm top loadBase : Nat}
  {h : Elf64Ehdr} {st : Loading M Pmm.State} {phs : List Elf64Phdr}

variable (n i : Nat) (buf : Mem) (hr : Ready (bitmapPages M) pm top st.mm)
include hr

end Loop

end X64OS.Prg
