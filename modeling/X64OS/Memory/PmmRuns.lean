import X64OS.Framework.Runs
import X64OS.Memory.Pmm

namespace X64OS.Memory.Pmm

open Framework

inductive Call where
  | alloc (pages : Nat)
  | free (addr pages : Nat)

/-- The allocator with the blocks (address, pages) its clients still hold. -/
structure Held where
  pmm : State
  live : List (Nat × Nat)

def blockPages (b : Nat × Nat) : Span := ⟨b.1/pageSize,b.2⟩

/-- A client frees only what it holds; a call that never returns is no step. -/
def call (h : Held) : Call → Option Held
  | .alloc pages =>
    if 1 ≤ pages then
      (pmmAllocNozero h.pmm pages).map (fun r => ⟨r.2,(r.1,pages)::h.live⟩)
    else none
  | .free addr pages =>
    if (addr,pages)∈h.live then
      some ⟨pmmFree h.pmm addr pages,h.live.erase (addr,pages)⟩
    else none

def system : System Held Call := System.ofPartial call

variable {h : Held} {s₀ : State}

theorem call_cases {h' : Held} {c : Call} (hs : call h c=some h') :
    (∃ pages addr s', c=.alloc pages ∧ 1 ≤ pages ∧ pmmAllocNozero h.pmm pages=some (addr,s') ∧
      h'=⟨s',(addr,pages)::h.live⟩) ∨
    (∃ addr pages, c=.free addr pages ∧ (addr,pages)∈h.live ∧
      h'=⟨pmmFree h.pmm addr pages,h.live.erase (addr,pages)⟩) := by
  cases c with
  | alloc pages =>
    simp only [call] at hs
    split_ifs at hs with hp
    obtain ⟨⟨addr,s'⟩,hr,rfl⟩ := Option.map_eq_some_iff.mp hs
    exact .inl ⟨pages,addr,s',rfl,hp,hr,rfl⟩
  | free addr pages =>
    simp only [call] at hs
    split_ifs at hs with hm
    cases hs
    exact .inr ⟨addr,pages,rfl,hm,rfl⟩

/-- The bookkeeping law between the allocator and what its clients hold. -/
structure Accounted (s₀ : State) (h : Held) : Prop where
  valid : Valid h.pmm
  highest : h.pmm.highestPageIndex=s₀.highestPageIndex
  aligned : ∀ b∈h.live, b.1=(blockPages b).base*pageSize
  inside : ∀ b∈h.live, (blockPages b).stop ≤ s₀.highestPageIndex
  fresh : ∀ b∈h.live, ∀ i∈blockPages b, bitmapTest s₀.bitmap i=false
  disjoint : (h.live.map blockPages).Pairwise Span.Separate
  bits : ∀ i, bitmapTest h.pmm.bitmap i=false ↔
    bitmapTest s₀.bitmap i=false ∧ ∀ b∈h.live, i∉blockPages b
  used : h.pmm.usedPages=s₀.usedPages+BitVec.ofNat 64 (Span.total (h.live.map blockPages))

theorem Accounted.init (s₀ : State) (hv : Valid s₀) : Accounted s₀ ⟨s₀,[]⟩ where
  valid := hv
  highest := rfl
  aligned := by simp
  inside := by simp
  fresh := by simp
  disjoint := by simp
  bits := by simp
  used := by simp

theorem Accounted.alloc {s' : State} {pages addr : Nat} (ha : Accounted s₀ h) (hp : 1 ≤ pages)
    (hr : pmmAllocNozero h.pmm pages=some (addr,s')) : Accounted s₀ ⟨s',(addr,pages)::h.live⟩ := by
  obtain ⟨hg,hu⟩ := pmmAllocNozero_spec _ _ _ _ ha.valid hp hr
  have hfree : ∀ i∈blockPages (addr,pages), bitmapTest s₀.bitmap i=false ∧
      ∀ b∈h.live, i∉blockPages b := fun i hi => (ha.bits i).mp (hg.free i hi)
  refine ⟨⟨?_,?_⟩,?_,?_,?_,?_,?_,?_,?_⟩
  · rw [hg.taken,ha.valid.page0,Bool.or_true]
  · rw [hg.highest]
    exact hg.cursor
  · rw [hg.highest,ha.highest]
  · rintro b (_ | ⟨_,hb⟩)
    · exact hg.addr_eq
    · exact ha.aligned b hb
  · rintro b (_ | ⟨_,hb⟩)
    · rw [← ha.highest]
      exact hg.bound
    · exact ha.inside b hb
  · rintro b (_ | ⟨_,hb⟩)
    · exact fun i hi => (hfree i hi).1
    · exact ha.fresh b hb
  · rw [List.map_cons,List.pairwise_cons]
    refine ⟨?_,ha.disjoint⟩
    rintro t ht i hi hit
    obtain ⟨b,hb,rfl⟩ := List.mem_map.mp ht
    exact (hfree i hi).2 b hb hit
  · intro i
    rw [hg.taken,Bool.or_eq_false_iff,ha.bits,List.forall_mem_cons,decide_eq_false_iff_not]
    exact and_left_comm
  · rw [hu,ha.used,List.map_cons,Span.total_cons,BitVec.add_assoc,← BitVec.ofNat_add,Nat.add_comm]
    rfl

theorem Accounted.free {addr pages : Nat} (ha : Accounted s₀ h) (h0 : bitmapTest s₀.bitmap 0=true)
    (hm : (addr,pages)∈h.live) :
    Accounted s₀ ⟨pmmFree h.pmm addr pages,h.live.erase (addr,pages)⟩ := by
  have hperm := List.perm_cons_erase hm
  have hsub : ∀ b∈h.live.erase (addr,pages), b∈h.live := fun b hb => List.mem_of_mem_erase hb
  have hdis : ((addr,pages)::h.live.erase (addr,pages)).map blockPages |>.Pairwise Span.Separate :=
    (hperm.map blockPages).pairwise ha.disjoint (fun h => h.symm)
  rw [List.map_cons,List.pairwise_cons] at hdis
  have htotal : Span.total (h.live.map blockPages)=
      pages+Span.total ((h.live.erase (addr,pages)).map blockPages) := by
    have hs := ((hperm.map blockPages).map Span.length).sum_eq
    simpa [Span.total,blockPages,Function.comp_def] using hs
  refine ⟨⟨?_,ha.valid.cursor⟩,ha.highest,fun b hb => ha.aligned b (hsub b hb),
    fun b hb => ha.inside b (hsub b hb),fun b hb => ha.fresh b (hsub b hb),hdis.2,?_,?_⟩
  · have hn : 0∉(⟨addr/pageSize,pages⟩ : Span) := by
      intro hi
      rw [ha.fresh _ hm 0 hi] at h0
      cases h0
    rw [bitmapTest_pmmFree,ha.valid.page0,decide_eq_false hn]
    rfl
  · intro i
    rw [bitmapTest_pmmFree,Bool.and_eq_false_iff,Bool.not_eq_false',decide_eq_true_iff,ha.bits]
    constructor
    · rintro (hi | ⟨hi,hl⟩)
      · refine ⟨ha.fresh _ hm i hi,fun b hb hib => ?_⟩
        exact hdis.1 _ (List.mem_map_of_mem hb) i hi hib
      · exact ⟨hi,fun b hb => hl b (hsub b hb)⟩
    · rintro ⟨hi,hl⟩
      by_cases hin : i∈(⟨addr/pageSize,pages⟩ : Span)
      · exact .inl hin
      · refine .inr ⟨hi,fun b hb => ?_⟩
        rcases List.mem_cons.mp (hperm.mem_iff.mp hb) with rfl | hb'
        · exact hin
        · exact hl b hb'
  · change h.pmm.usedPages-BitVec.ofNat 64 pages=_
    rw [ha.used,htotal,Nat.add_comm pages,BitVec.ofNat_add,← BitVec.add_assoc,BitVec.add_sub_cancel]

theorem Accounted.reachable (hv : Valid s₀) (hr : system.Reachable ⟨s₀,[]⟩ h) : Accounted s₀ h := by
  refine hr.invariant (.init s₀ hv) ?_
  intro h c h' ha hs
  rcases call_cases hs with ⟨pages,addr,s',-,hp,hr,rfl⟩ | ⟨addr,pages,-,hm,rfl⟩
  · exact ha.alloc hp hr
  · exact ha.free hv.page0 hm

/-- In every reachable state the live blocks are disjoint page ranges below
highest_page_index, the bitmap is the initial one less the live blocks, and
used_pages counts their pages. -/
theorem pmm_runs_accounted (s₀ : State) (hv : Valid s₀) (h : Held)
    (hr : system.Reachable ⟨s₀,[]⟩ h) :
    (∀ b∈h.live, b.1=(blockPages b).base*pageSize ∧
      (blockPages b).stop ≤ h.pmm.highestPageIndex) ∧
    (h.live.map blockPages).Pairwise Span.Separate ∧
    (∀ i, i < h.pmm.highestPageIndex →
      (bitmapTest h.pmm.bitmap i=false ↔
        bitmapTest s₀.bitmap i=false ∧ ∀ b∈h.live, i∉blockPages b)) ∧
    (h.pmm.usedPages-s₀.usedPages).toNat=Span.total (h.live.map blockPages) := by
  have ha := Accounted.reachable hv hr
  have htotal : Span.total (h.live.map blockPages) < 2^64 := by
    have hle := Span.total_le (h.live.map blockPages) s₀.highestPageIndex ha.disjoint (by
      intro t ht
      obtain ⟨b,hb,rfl⟩ := List.mem_map.mp ht
      exact ha.inside b hb)
    have hlt := s₀.highest_lt
    omega
  refine ⟨?_,ha.disjoint,fun i _ => ha.bits i,?_⟩
  · intro b hb
    rw [ha.highest]
    exact ⟨ha.aligned b hb,ha.inside b hb⟩
  · rw [ha.used,BitVec.add_comm,BitVec.add_sub_cancel,BitVec.toNat_ofNat,Nat.mod_eq_of_lt htotal]

def fourPages : State := ⟨fun _ => 1#8,4,0,0#64,by decide⟩

theorem pmm_runs_accounted_fourPages :
    Valid fourPages ∧
    let h := (System.exec call ⟨fourPages,[]⟩ [.alloc 1,.alloc 2,.free 4096 1]).get (by decide)
    h.live=[(8192,2)] ∧ (h.pmm.usedPages-fourPages.usedPages).toNat=2 := by
  have hv : Valid fourPages := ⟨by decide,by decide⟩
  refine ⟨hv,rfl,?_⟩
  exact (pmm_runs_accounted fourPages hv _
    (System.reachable_exec call _ _ [.alloc 1,.alloc 2,.free 4096 1] (Option.some_get _).symm)).2.2.2

end X64OS.Memory.Pmm
