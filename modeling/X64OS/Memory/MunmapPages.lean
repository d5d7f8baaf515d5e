import X64OS.Memory.MmapPages

namespace X64OS.Memory

open Framework
open Option (bind_some map_some some_ne_none)

variable {M : Machine} {P : Type} {A : PageAllocator M P}
variable {r r' : Ram P} {T : List Table} {s s' : MmapState M P} {p : P}

/-- The table an entry leads to if nothing may be allocated, 0 for NULL. -/
def nextLevel (M : Machine) (m : Mem) (table idx : Nat) : Nat :=
  if isPresent (entry m (liftTable M table) idx) then nextTable M (entry m (liftTable M table) idx)
  else 0

theorem getNextLevel_read (r : Ram P) (table idx : Nat) :
    getNextLevel A r table idx false=some (nextLevel M r.mem table idx,r) := by
  unfold getNextLevel nextLevel
  dsimp only
  split <;> rfl

def foundPml1 (M : Machine) (m : Mem) (top : Nat) (virt : BitVec 64) : Nat :=
  if nextLevel M m top (pml4Entry virt)=0 then 0
  else if nextLevel M m (nextLevel M m top (pml4Entry virt)) (pml3Entry virt)=0 then 0
  else nextLevel M m (nextLevel M m (nextLevel M m top (pml4Entry virt)) (pml3Entry virt))
    (pml2Entry virt)

theorem findPml1_false (r : Ram P) (top : Nat) (virt : BitVec 64) :
    findPml1 A r top virt false=some (foundPml1 M r.mem top virt,r) := by
  rw [findPml1,getNextLevel_read,bind_some,foundPml1]
  generalize nextLevel M r.mem top (pml4Entry virt)=pml3
  dsimp only
  by_cases h3 : pml3=0
  · rw [if_pos h3,if_pos h3,h3]
  · rw [if_neg h3,if_neg h3,getNextLevel_read,bind_some]
    generalize nextLevel M r.mem pml3 (pml3Entry virt)=pml2
    dsimp only
    by_cases h2 : pml2=0
    · rw [if_pos h2,if_pos h2,h2]
    · rw [if_neg h2,if_neg h2,getNextLevel_read]

theorem vmmVirt2phys_pmm (r : Ram P) (p : P) (top : Nat) (virt : BitVec 64) :
    vmmVirt2phys A r top virt=vmmVirt2phys A ⟨r.mem,p⟩ top virt := by
  simp only [vmmVirt2phys,vmmVirt2pte,findPml1_false,map_some]
  split_ifs <;> rfl

theorem vmmUnmapPage_pmm (r : Ram P) (p : P) (top : Nat) (virt : BitVec 64) :
    vmmUnmapPage A r top virt=
      (vmmUnmapPage A ⟨r.mem,p⟩ top virt).map (fun x => (x.1,⟨x.2.mem,r.pmm⟩)) := by
  simp only [vmmUnmapPage,findPml1_false,map_some]
  split_ifs <;> rfl

variable {ok : Bool} {top v j n stop : Nat}

theorem vmmUnmapPage_allocator {virt : BitVec 64} (h : vmmUnmapPage A r top virt=some (ok,r')) :
    r'.pmm=r.pmm := by
  simp only [vmmUnmapPage,findPml1_false,map_some] at h
  split_ifs at h <;> cases h <;> rfl

theorem pteFrom_sameEntry (hf : Forest A r T) {top' : Nat} {v w : BitVec 64} (ht : ⟨top,3⟩∈T)
    (ht' : ⟨top',3⟩∈T) (h : SameEntry top v top' w) :
    pteFrom M r.mem 3 top' w=pteFrom M r.mem 3 top v := by
  rw [pteFrom,pteFrom,leafTable_sameEntry hf ht ht' h,levelIndex_key v w h.1 0 (Nat.zero_le 3)]

/-- From m to m' the pagemaps have lost the translations of the addresses v of the pagemaps
top with U top v, and no others. The page tables are trees all the while, and p is an allocator that
knows their pages. -/
structure Unmaps (A : PageAllocator M P) (p : P) (T : List Table) (U : Nat → Nat → Prop)
    (m m' : Mem) : Prop where
  trees : Forest A ⟨m',p⟩ T
  known : ∀ top v, U top v → ⟨top,3⟩∈T
  views : ∀ t∈T, t.level=3 → ∀ w, pteFrom M m' 3 t.base w=pteFrom M m 3 t.base w ∨
    (pteFrom M m' 3 t.base w=0 ∧ ∃ top v, U top v ∧ SameEntry top (word v) t.base w)
  taken : ∀ top v, U top v → isPresent (pteFrom M m' 3 top (word v))=false

namespace Unmaps

variable {U V W : Nat → Nat → Prop} {m m' m'' : Mem}

theorem refl (hf : Forest A ⟨m,p⟩ T) (hU : ∀ top v, ¬U top v) : Unmaps A p T U m m :=
  ⟨hf,fun top v h => absurd h (hU top v),fun _ _ _ _ => .inl rfl,fun top v h => absurd h (hU top v)⟩

variable (h : Unmaps A p T U m m')
include h

theorem gone (ht : ⟨top,3⟩∈T) {w : BitVec 64} (hw : isPresent (pteFrom M m 3 top w)=false) :
    isPresent (pteFrom M m' 3 top w)=false := by
  obtain he | ⟨hz,-⟩ := h.views _ ht rfl w
  · dsimp only at he
    rw [he]
    exact hw
  · dsimp only at hz
    rw [hz]
    exact isPresent_zero

theorem trans (h' : Unmaps A p T V m' m'') (hW : ∀ top v, W top v ↔ U top v ∨ V top v) :
    Unmaps A p T W m m'' := by
  refine ⟨h'.trees,fun top v hv => ?_,fun t ht hl w => ?_,fun top v hv => ?_⟩
  · obtain hv | hv := (hW top v).mp hv
    · exact h.known top v hv
    · exact h'.known top v hv
  · obtain he' | ⟨hz,top,v,hv,hsame⟩ := h'.views t ht hl w
    · rw [he']
      refine (h.views t ht hl w).imp_right ?_
      rintro ⟨hz,top,v,hv,hsame⟩
      exact ⟨hz,top,v,(hW top v).mpr (.inl hv),hsame⟩
    · exact .inr ⟨hz,top,v,(hW top v).mpr (.inr hv),hsame⟩
  · obtain hv | hv := (hW top v).mp hv
    · exact h'.gone (h.known top v hv) (h.taken top v hv)
    · exact h'.taken top v hv

theorem congr (hU : ∀ top v, V top v ↔ U top v) : Unmaps A p T V m m' := by
  obtain rfl : V=U := funext (fun top => funext (fun v => propext (hU top v)))
  exact h

theorem phys_iff (hf : Forest A ⟨m,p⟩ T) (ht : ⟨top,3⟩∈T) (w : BitVec 64) :
    vmmVirt2phys A ⟨m',p⟩ top w=vmmVirt2phys A ⟨m,p⟩ top w ↔
      ¬(vmmVirt2phys A ⟨m,p⟩ top w≠some invalidPhys ∧
        ∃ top' v, U top' v ∧ SameEntry top' (word v) top w) := by
  rw [vmmVirt2phys_eq h.trees ht,vmmVirt2phys_eq hf ht,Option.some_inj,Ne,Option.some_inj]
  by_cases hU : ∃ top' v, U top' v ∧ SameEntry top' (word v) top w
  · obtain ⟨top',v,hv,hsame⟩ := id hU
    have habs : isPresent (pteFrom M m' 3 top w)=false := by
      have hpte : pteFrom M m' 3 top w=pteFrom M m' 3 top' (word v) :=
        pteFrom_sameEntry h.trees (h.known top' v hv) ht hsame
      rw [hpte]
      exact h.taken top' v hv
    have hgone : translate (pteFrom M m' 3 top w) w=invalidPhys := by
      rw [translate,if_neg (by rw [habs]; exact Bool.false_ne_true)]
    rw [hgone,and_iff_left hU,not_not,eq_comm]
  · obtain he | ⟨-,hv⟩ := h.views _ ht rfl w
    · dsimp only at he
      rw [he]
      exact iff_of_true rfl (fun hc => hU hc.2)
    · exact absurd hv hU

end Unmaps

theorem vmmUnmapPage_unmaps (hf : Forest A ⟨r.mem,p⟩ T) (ht : ⟨top,3⟩∈T) (v : Nat) :
    ∃ r', vmmUnmapPage A r top (word v)=
        some (isPresent (pteFrom M r.mem 3 top (word v)),r') ∧ r'.pmm=r.pmm ∧
      Unmaps A p T (fun top' x => top'=top ∧ x=v) r.mem r'.mem := by
  obtain ⟨g,hg,he,hview⟩ := vmmUnmapPage_spec hf ht (word v)
  refine ⟨⟨g.mem,r.pmm⟩,?_,rfl,⟨?_,?_,?_,?_⟩⟩
  · rw [vmmUnmapPage_pmm r p,hg]
    rfl
  · have hpmm : g.pmm=p := vmmUnmapPage_allocator hg
    rw [← hpmm]
    exact he.forest
  · rintro top' x ⟨rfl,-⟩
    exact ht
  · intro t htm hl w
    rw [hview t htm hl w]
    split_ifs with hc
    · exact .inr ⟨rfl,top,v,⟨rfl,rfl⟩,hc.2⟩
    · exact .inl rfl
  · rintro top' x ⟨rfl,rfl⟩
    have hself := hview _ ht rfl (word x)
    dsimp only at hself
    rw [hself]
    split_ifs with hc
    · exact isPresent_zero
    · exact Bool.eq_false_iff.mpr (fun hp => hc ⟨hp,rfl,.inl rfl⟩)

theorem pageKey_page {w : Nat} (h : v/pageSize=w/pageSize) : pageKey (word v)=pageKey (word w) := by
  simp only [pageKey,word,BitVec.toNat_ofNat,pageSize] at *
  omega

theorem Unmaps.page {m m' : Mem} (h : Unmaps A p T (fun top' x => top'=top ∧ x=j) m m')
    (hj : j%pageSize=0) : Unmaps A p T (fun top' x => top'=top ∧ j ≤ x ∧ x < j+pageSize) m m' := by
  refine ⟨h.trees,fun top' x hx => h.known top' j ⟨hx.1,rfl⟩,fun t ht hl w => ?_,?_⟩
  · refine (h.views t ht hl w).imp_right ?_
    rintro ⟨hz,top',x,⟨rfl,rfl⟩,hsame⟩
    exact ⟨hz,top',x,⟨rfl,Nat.le_refl x,Nat.lt_add_of_pos_right (by decide)⟩,hsame⟩
  · rintro top' x ⟨rfl,hx,hlt⟩
    have hpage : x/pageSize=j/pageSize := by
      simp only [pageSize] at hj hlt ⊢
      omega
    rw [pteFrom_key (pageKey_page hpage)]
    exact h.taken top' j ⟨rfl,rfl⟩

/-- The loop of munmap over a window of whole pages ends. -/
theorem unmapPages_unmaps (hf : Forest A ⟨r.mem,p⟩ T) (ht : ⟨top,3⟩∈T) (hj : j%pageSize=0)
    (hs : stop%pageSize=0) (hst : stop < 2^64) (hle : j ≤ stop) (hn : stop < j+n*pageSize) :
    ∃ r', unmapPages A top stop n j r=some r' ∧ r'.pmm=r.pmm ∧
      Unmaps A p T (fun top' x => top'=top ∧ j ≤ x ∧ x < stop) r.mem r'.mem := by
  induction n generalizing j r with
  | zero => omega
  | succ n ih =>
    rw [unmapPages]
    by_cases hlt : j < stop
    · have hstep : j+pageSize ≤ stop := by
        simp only [pageSize] at hj hs ⊢
        omega
      have hadd : add64 j pageSize=j+pageSize := add64_eq (by omega)
      obtain ⟨r₁,hu,hpmm,h₁⟩ := vmmUnmapPage_unmaps hf ht j
      obtain ⟨r₂,hrest,hpmm₂,h₂⟩ := ih (r := r₁) h₁.trees (j := j+pageSize)
        (by rw [Nat.add_mod_right]; exact hj) hstep (by rw [Nat.succ_mul] at hn; omega)
      rw [if_pos hlt,hu,bind_some,hadd]
      refine ⟨r₂,hrest,hpmm₂.trans hpmm,(h₁.page hj).trans h₂ (fun top' x => ?_)⟩
      rw [← and_or_left]
      exact and_congr_right (fun _ => by omega)
    · rw [if_neg hlt]
      exact ⟨r,rfl,rfl,.refl hf (fun _ _ h => by omega)⟩

/-- The pages of a loop that starts at j and goes on by PAGE_SIZE while it is below stop. -/
inductive Visited (stop : Nat) : Nat → Nat → Prop
  | here {j : Nat} (h : j < stop) : Visited stop j j
  | next {j v : Nat} (h : j < stop) (hv : Visited stop (add64 j pageSize) v) : Visited stop j v

theorem Visited.lt (h : Visited stop j v) : v < stop := by
  induction h with
  | here h => exact h
  | next _ _ ih => exact ih

theorem visited_iff (h : j < stop) :
    Visited stop j v ↔ v=j ∨ Visited stop (add64 j pageSize) v := by
  constructor
  · intro hv
    cases hv with
    | here => exact .inl rfl
    | next _ hv => exact .inr hv
  · rintro (rfl | hv)
    · exact .here h
    · exact .next h hv

theorem freeShadow_unmaps {shadow : Nat} {evs : List (FreeEvent M P)}
    (hf : Forest A ⟨s.ram.mem,p⟩ T) (ht : ⟨shadow,3⟩∈T)
    (h : freeShadow A shadow stop n j s=some (ok,s',evs)) :
    Unmaps A p T (fun top v => top=shadow ∧ Visited stop j v) s.ram.mem s'.ram.mem := by
  induction n generalizing j s evs with
  | zero => cases h
  | succ n ih =>
    rw [freeShadow] at h
    by_cases hlt : j < stop
    · rw [if_pos hlt,vmmVirt2phys_pmm s.ram p,vmmVirt2phys_eq hf ht,bind_some] at h
      have hstep : ∀ top v, top=shadow ∧ Visited stop j v ↔
          (top=shadow ∧ v=j) ∨ (top=shadow ∧ Visited stop (add64 j pageSize) v) := by
        intro top v
        rw [visited_iff hlt,and_or_left]
      split at h
      · rename_i hinvalid
        have habs : isPresent (pteFrom M s.ram.mem 3 shadow (word j))=false :=
          Bool.eq_false_iff.mpr (fun hp => translate_valid hp hinvalid)
        have hnone : Unmaps A p T (fun top v => top=shadow ∧ v=j) s.ram.mem s.ram.mem := by
          refine ⟨hf,?_,fun _ _ _ _ => .inl rfl,?_⟩
          · rintro top v ⟨rfl,-⟩
            exact ht
          · rintro top v ⟨rfl,rfl⟩
            exact habs
        exact hnone.trans (ih hf h) hstep
      · rename_i hvalid
        obtain ⟨r₁,hu,-,h₁⟩ := vmmUnmapPage_unmaps hf ht j
        have hp : isPresent (pteFrom M s.ram.mem 3 shadow (word j))=true := by
          by_contra hp
          exact hvalid (if_neg hp)
        rw [hu,bind_some,if_neg (by rw [hp]; simp)] at h
        obtain ⟨⟨ok₂,s₂,evs₂⟩,hrest,he⟩ := Option.map_eq_some_iff.mp h
        cases he
        exact h₁.trans (ih h₁.trees hrest) hstep
    · rw [if_neg hlt] at h
      cases h
      refine .refl hf ?_
      rintro top v ⟨-,hv⟩
      cases hv with
      | here h => exact hlt h
      | next h => exact hlt h

theorem freeShadow_returns {shadow : Nat} (hf : Forest A ⟨s.ram.mem,p⟩ T) (ht : ⟨shadow,3⟩∈T)
    (hst : stop+pageSize ≤ 2^64) (hpos : 0 < n) (hn : stop+pageSize ≤ j+n*pageSize) :
    freeShadow A shadow stop n j s≠none := by
  induction n generalizing j s with
  | zero => omega
  | succ n ih =>
    rw [freeShadow]
    by_cases hlt : j < stop
    · rw [Nat.succ_mul] at hn
      have hadd : add64 j pageSize=j+pageSize := add64_eq (by omega)
      have hpos' : 0 < n := Nat.pos_of_ne_zero (fun hz => by subst hz; omega)
      rw [if_pos hlt,vmmVirt2phys_pmm s.ram p,vmmVirt2phys_eq hf ht,bind_some,hadd]
      split
      · exact ih hf hpos' (by omega)
      · obtain ⟨r₁,hu,-,h₁⟩ := vmmUnmapPage_unmaps hf ht j
        rw [hu,bind_some]
        split
        · exact some_ne_none _
        · intro hnone
          exact ih (s := (s.setRam r₁).setRam (pmmFree A r₁ _ 1)) h₁.trees hpos' (by omega)
            (Option.map_eq_none_iff.mp hnone)
    · rw [if_neg hlt]
      exact some_ne_none _

/-- Whether a range that goes whole takes its pages from the shadow pagemap. -/
def Frees (s : MmapState M P) (l : LocalRange) (g : GlobalRange M) (shadow : Nat) : Prop :=
  g.locals.length=1 ∧ l.flags &&& mapAnonymous≠0 ∧ g.shadowPagemap.bind s.tops=some shadow

theorem dropRange_unmaps {pm id i e : Nat} {l : LocalRange} {g : GlobalRange M}
    {evs : List (FreeEvent M P)} (hf : Forest A ⟨s.ram.mem,p⟩ T)
    (htops : ∀ pm t, s.tops pm=some t → ⟨t,3⟩∈T)
    (h : dropRange A s pm id l g i e=some (ok,s',evs)) :
    Unmaps A p T (fun top v => Frees s l g top ∧ Visited (add64 g.base g.length) g.base v)
      s.ram.mem s'.ram.mem := by
  obtain ⟨-,⟨hone,s₁,rfl,⟨hanon,shadow,hsh,hfree⟩ | ⟨hanon,-,rfl⟩⟩ | ⟨hone,-,rfl⟩⟩ :=
    dropRange_eq_some h
  · obtain ⟨sh,-,htop⟩ := Option.bind_eq_some_iff.mp hsh
    have hfreed := freeShadow_unmaps (s := s.setRanges pm _) hf (htops sh shadow htop) hfree
    refine hfreed.congr (fun top v => and_congr_left (fun _ => ?_))
    rw [Frees,and_iff_right hone,and_iff_right hanon,hsh,Option.some_inj,eq_comm]
  · exact .refl hf (fun _ _ hc => hc.1.2.1 hanon)
  · rw [trimRange]
    split <;> exact .refl hf (fun _ _ hc => hone hc.1.1)

end X64OS.Memory
