import X64OS.Memory.SlabRuns
import Mathlib.Data.BitVec

namespace X64OS.Memory

open Framework
open Option (map_eq_some_iff bind_eq_some_iff)

def Block.counted (b : Block) : Nat :=
  match b.kind with
  | none => b.size
  | some _ => 0

def countedBytes (live : List Block) : Nat := (live.map Block.counted).sum

section

variable {M : Machine} {P : Type} (A : PageAllocator M P)

def recordedBytes (s : HeldHeap P) : Nat :=
  ((s.live.filter (fun b => b.addr%pageSize=0)).map (fun b => metaSize s.heap b.addr)).sum

/-- What a reallocation adds to the size of a multi-page block that stays on its
pages. -/
def HeldHeap.resized (s : HeldHeap P) (addr size : Nat) : BitVec 64 :=
  match findBlock s.live addr with
  | some b =>
    if b.kind=none ∧ divRoundup b.size 4096=divRoundup size 4096 then
      BitVec.ofNat 64 size-BitVec.ofNat 64 b.size
    else 0
  | none => 0

def HeldHeap.uncounted (s : HeldHeap P) : HeapCall → BitVec 64
  | .slabRealloc addr size => s.resized addr size
  | .realloc addr size => s.resized addr size
  | _ => 0

/-- The bytes that such reallocations have added along a run. -/
def drift (s : HeldHeap P) : List HeapCall → BitVec 64
  | [] => 0
  | c::cs => s.uncounted c+((heapCall A s c).map (fun t => drift t cs)).getD 0

end

variable {M : Machine} {P : Type} {A : PageAllocator M P}
variable {h h' : Heap P} {live : List Block} {s s' : HeldHeap P}
variable {i : Fin 10} {a size : Nat} {b : Block}

theorem createSlab_usedRam {n : Nat} (hc : createSlab A h i n=some h') : h'.usedRam=h.usedRam := by
  obtain ⟨x,-,rfl⟩ := map_eq_some_iff.mp hc
  rfl

theorem slabInit_usedRam {r : Ram P} (hinit : slabInit A r=some h) : h.usedRam=0 := by
  have hall : ∀ (l : List (Fin 10)) (h₁ : Heap P),
      l.foldlM (fun h i => createSlab A h i (entOf i)) h₁=some h → h.usedRam=h₁.usedRam := by
    intro l
    induction l with
    | nil =>
      intro h₁ hc
      cases hc
      rfl
    | cons i l ih =>
      intro h₁ hc
      obtain ⟨h₂,hcreate,hrest⟩ := bind_eq_some_iff.mp hc
      exact (ih h₂ hrest).trans (createSlab_usedRam hcreate)
  exact hall _ _ hinit

theorem popFree_usedRam (hp : popFree M h i=some (a,h')) : h'.usedRam=h.usedRam := by
  obtain ⟨-,he⟩ := Option.ite_none_left_eq_some.mp hp
  cases he
  rfl

theorem allocFromSlab_usedRam (hp : allocFromSlab A h i=some (a,h')) : h'.usedRam=h.usedRam := by
  unfold allocFromSlab at hp
  split at hp
  · obtain ⟨h1,hc,hpop⟩ := bind_eq_some_iff.mp hp
    exact (popFree_usedRam hpop).trans (createSlab_usedRam hc)
  · exact popFree_usedRam hp

theorem freeInSlab_usedRam (h : Heap P) (i : Fin 10) (addr : Nat) :
    (freeInSlab h i addr).usedRam=h.usedRam := by
  rw [freeInSlab]
  split <;> rfl

@[simp] theorem copyBlock_usedRam (h : Heap P) (dst src n : Nat) :
    (copyBlock h dst src n).usedRam=h.usedRam := rfl

theorem slabAlloc_usedRam (hs : Sound A h live) (hsize : size+4095 < 2^64)
    (hp : slabAlloc A h size=some (a,h')) :
    h'.usedRam=h.usedRam+BitVec.ofNat 64 (⟨a,size,slabFor h size⟩ : Block).counted := by
  have hpos := (slabAlloc_handed hs hsize hp).pos
  unfold slabAlloc at hp
  cases hf : slabFor h size with
  | some i =>
    rw [hf] at hp
    rw [allocFromSlab_usedRam hp]
    simp [Block.counted]
  | none =>
    rw [hf] at hp
    obtain ⟨⟨phys,r⟩,-,he⟩ := map_eq_some_iff.mp hp
    by_cases hz : phys=0
    · rw [if_pos hz] at he
      cases he
      exact absurd hpos (Nat.lt_irrefl 0)
    · rw [if_neg hz] at he
      cases he
      rfl

theorem slabFree_usedRam (hs : Sound A h live) (hb : b∈live) (hf : slabFree A h b.addr=some h') :
    h'.usedRam=h.usedRam-BitVec.ofNat 64 b.counted := by
  rw [slabFree_eq hs hb] at hf
  obtain ⟨L,hi⟩ := hs
  cases hk : b.kind with
  | none =>
    rw [hk] at hf
    cases hf
    simp only [freePages,(hi.bigMeta b hb hk).2,Block.counted,hk]
  | some i =>
    rw [hk] at hf
    cases hf
    rw [freeInSlab_usedRam,Block.counted,hk]
    simp

theorem countedBytes_cons (b : Block) (live : List Block) :
    countedBytes (b::live)=b.counted+countedBytes live := by
  simp [countedBytes]

theorem Sound.distinct (hs : Sound A h live) : live.Pairwise (fun b c => b.addr≠c.addr) := by
  obtain ⟨L,hi⟩ := hs
  exact hi.distinct

theorem countedBytes_dropBlock (hb : b∈live) (hd : live.Pairwise (fun b c => b.addr≠c.addr)) :
    countedBytes live=b.counted+countedBytes (dropBlock live b.addr) := by
  induction live with
  | nil => cases hb
  | cons c live ih =>
    obtain ⟨hc,hd⟩ := List.pairwise_cons.mp hd
    obtain rfl | hb := List.mem_cons.mp hb
    · have hkeep : dropBlock live b.addr=live :=
        List.filter_eq_self.mpr (fun c hcl => by simpa using (hc c hcl).symm)
      have hdrop : dropBlock (b::live) b.addr=live := by
        rw [← hkeep]
        simp [dropBlock]
      rw [hdrop,countedBytes_cons]
    · rw [dropBlock_cons (hc b hb),countedBytes_cons,countedBytes_cons,ih hb hd]
      omega

def HeldHeap.excess (s : HeldHeap P) : BitVec 64 :=
  s.heap.usedRam-BitVec.ofNat 64 (countedBytes s.live)

section
variable (hs : Sound A s.heap s.live)
include hs

theorem hold_excess {p : Nat} {h1 : Heap P} (hsize : size+4095 < 2^64)
    (hp : slabAlloc A s.heap size=some (p,h1)) (hu : h'.usedRam=h1.usedRam) :
    (s.hold size (p,h')).excess=s.excess := by
  simp only [HeldHeap.excess,HeldHeap.hold,countedBytes_cons,hu,slabAlloc_usedRam hs hsize hp,
    BitVec.ofNat_add]
  ring

theorem release_excess {addr : Nat} (hc : s.release (slabFree A) addr=some s') :
    s'.excess=s.excess := by
  unfold HeldHeap.release at hc
  split_ifs at hc with hok
  obtain ⟨h1,hf,rfl⟩ := map_eq_some_iff.mp hc
  obtain rfl | hsome := hok
  · rw [slabFree,if_pos rfl] at hf
    cases hf
    rw [dropBlock_zero hs]
  · obtain ⟨b,hb⟩ := Option.isSome_iff_exists.mp hsome
    obtain ⟨hm,rfl⟩ := findBlock_some hb
    simp only [HeldHeap.excess,slabFree_usedRam hs hm hf,countedBytes_dropBlock hm hs.distinct,
      BitVec.ofNat_add]
    ring

theorem rehold_excess {p : Nat} (hb : b∈s.live) (hf : findBlock s.live b.addr=some b)
    (hsize : size+4095 < 2^64) (hp : slabRealloc A s.heap b.addr size=some (p,h')) :
    (s.rehold b size (p,h')).excess+s.resized b.addr size=s.excess := by
  have hsum := countedBytes_dropBlock hb hs.distinct
  have hre : s.resized b.addr size=
      if b.kind=none ∧ divRoundup b.size 4096=divRoundup size 4096 then
        BitVec.ofNat 64 size-BitVec.ofNat 64 b.size
      else 0 := by
    rw [HeldHeap.resized,hf]
  simp only [HeldHeap.excess,HeldHeap.rehold,countedBytes_cons,hsum,BitVec.ofNat_add,hre]
  obtain ⟨rfl,rfl,i,hk,-⟩ | ⟨rfl,hk,hsame,rfl⟩ | ⟨hdiff,n,h1,hr⟩ :=
    slabRealloc_cases hs hb hsize hp
  · simp [hk,Block.counted]
  · rw [if_pos rfl,if_pos ⟨hk,hsame⟩]
    simp only [hk,Block.counted]
    ring
  · have hcopy := copyBlock_sound hr.handed.sound List.mem_cons_self b.addr hr.fits.1
    have hne : p≠b.addr := fun he => hr.handed.new b hb he.symm
    rw [if_neg hne,if_neg (fun hc => hdiff hc.1 hc.2),
      slabFree_usedRam hcopy (List.mem_cons_of_mem _ hb) hr.free,copyBlock_usedRam,
      slabAlloc_usedRam hs hsize hr.alloc]
    ring

theorem regrow_excess {f : Heap P → Nat → Nat → Option (Nat × Heap P)} {addr : Nat}
    (hnull : ∀ p h', size+4095 < 2^64 → f s.heap 0 size=some (p,h') →
      (s.hold size (p,h')).excess=s.excess)
    (hheld : ∀ b∈s.live, f s.heap b.addr size=slabRealloc A s.heap b.addr size)
    (hc : s.regrow f addr size=some s') : s'.excess+s.resized addr size=s.excess := by
  unfold HeldHeap.regrow at hc
  split_ifs at hc with hsize haddr
  · obtain ⟨⟨p,h'⟩,hf,rfl⟩ := map_eq_some_iff.mp hc
    rw [haddr] at hf ⊢
    have hno : findBlock s.live 0=none := by
      apply List.find?_eq_none.mpr
      intro b hb
      simpa using (hs.branch hb).1
    rw [hnull p h' hsize hf,HeldHeap.resized,hno]
    exact BitVec.add_zero _
  · obtain ⟨b,hb,hc⟩ := bind_eq_some_iff.mp hc
    obtain ⟨⟨p,h'⟩,hf,rfl⟩ := map_eq_some_iff.mp hc
    obtain ⟨hm,rfl⟩ := findBlock_some hb
    rw [hheld b hm] at hf
    exact rehold_excess hs hm hb hsize hf

theorem heapCall_excess {c : HeapCall} (hc : heapCall A s c=some s') :
    s'.excess+s.uncounted c=s.excess := by
  cases c with
  | slabAlloc size =>
    simp only [heapCall] at hc
    split_ifs at hc with hsize
    obtain ⟨⟨p,h'⟩,hf,rfl⟩ := map_eq_some_iff.mp hc
    exact (BitVec.add_zero _).trans (hold_excess hs hsize hf rfl)
  | malloc size =>
    simp only [heapCall] at hc
    split_ifs at hc with hsize
    obtain ⟨x,hf,rfl⟩ := map_eq_some_iff.mp hc
    obtain ⟨⟨p,h1⟩,ha,rfl⟩ := map_eq_some_iff.mp hf
    exact (BitVec.add_zero _).trans (hold_excess hs hsize ha rfl)
  | slabRealloc addr size =>
    apply regrow_excess hs _ (fun _ _ => rfl) hc
    intro p h' hsize hf
    rw [slabRealloc,if_pos rfl] at hf
    exact hold_excess hs hsize hf rfl
  | realloc addr size =>
    apply regrow_excess hs _ _ hc
    · intro p h' hsize hf
      rw [realloc,if_pos rfl] at hf
      obtain ⟨x,hm,he⟩ := map_eq_some_iff.mp hf
      cases he
      obtain ⟨⟨q,h1⟩,ha,rfl⟩ := map_eq_some_iff.mp hm
      exact hold_excess hs hsize ha rfl
    · intro b hb
      rw [realloc,if_neg (hs.branch hb).1]
  | slabFree addr => exact (BitVec.add_zero _).trans (release_excess hs hc)
  | free addr => exact (BitVec.add_zero _).trans (release_excess hs hc)
  | write addr offset count value =>
    obtain ⟨b,hb,hc⟩ := bind_eq_some_iff.mp hc
    split_ifs at hc with hle
    cases hc
    exact BitVec.add_zero _

/-- A run of calls, each of which keeps the heap sound. -/
theorem exec_excess {calls : List HeapCall} (hr : System.exec (heapCall A) s calls=some s') :
    s'.excess+drift A s calls=s.excess := by
  induction calls generalizing s with
  | nil =>
    cases hr
    exact BitVec.add_zero _
  | cons c calls ih =>
    obtain ⟨t,ht,hr⟩ := bind_eq_some_iff.mp hr
    have hstep := heapCall_excess hs ht
    have hrest := ih (heapCall_sound hs ht) hr
    rw [drift,ht,Option.map_some,Option.getD_some,← hstep,← hrest]
    ring

end

def bigRegions (live : List Block) : List Span :=
  (live.filter (fun b => b.kind=none)).map Block.region

theorem countedBytes_le (hle : ∀ b∈live, b.kind=none → b.size ≤ b.region.length) :
    countedBytes live ≤ Span.total (bigRegions live) := by
  induction live with
  | nil => exact Nat.le_refl _
  | cons b live ih =>
    obtain ⟨hb,hlive⟩ := List.forall_mem_cons.mp hle
    have hrest := ih hlive
    rw [countedBytes_cons,bigRegions,List.filter_cons,Block.counted]
    cases hk : b.kind with
    | none =>
      have hsize := hb hk
      simp only [decide_true,if_true,List.map_cons,Span.total_cons]
      exact Nat.add_le_add hsize hrest
    | some i =>
      rw [Nat.zero_add]
      simpa [bigRegions] using hrest

theorem countedBytes_lt (hs : Sound A h live) : countedBytes live < 2^64 := by
  obtain ⟨L,hi⟩ := hs
  have hregion : ∀ s∈bigRegions live, ∃ b∈live, b.kind=none ∧ b.region=s := by
    simp [bigRegions,and_assoc]
  have hsizes : ∀ b∈live, b.kind=none → b.size ≤ b.region.length := by
    intro b hb hk
    have hfit := le_divRoundup b.size (hi.bigBase b hb hk).2.2.2.1
    rw [Block.region,Nat.succ_mul]
    exact Nat.le_add_right_of_le hfit
  have hle := countedBytes_le hsizes
  -- address 0 is in none of the regions
  have hapart : (⟨0,1⟩::bigRegions live).Pairwise Span.Separate := by
    refine List.pairwise_cons.mpr ⟨fun s hs => ?_,List.pairwise_map.mpr ?_⟩
    · obtain ⟨b,hb,hk,rfl⟩ := hregion s hs
      apply Span.separate_of_le
      have hbase := (hi.bigBase b hb hk).2.1
      simp only [Span.stop,Block.region]
      omega
    · apply (hi.bigApart.sublist List.filter_sublist).imp_of_mem
      intro b c hb hc hsep
      exact hsep (by simpa using (List.mem_filter.mp hb).2)
        (by simpa using (List.mem_filter.mp hc).2)
  have hstop : ∀ s∈(⟨0,1⟩::bigRegions live : List Span), s.stop ≤ 2^64 := by
    intro s hs
    obtain rfl | hs := List.mem_cons.mp hs
    · decide
    · obtain ⟨b,hb,hk,rfl⟩ := hregion s hs
      have hbase := hi.bigBase b hb hk
      rw [Span.stop,Block.region,Nat.succ_mul]
      dsimp only
      omega
  have htotal := Span.total_le _ _ hapart hstop
  rw [Span.total_cons] at htotal
  exact Nat.lt_of_le_of_lt hle (Nat.one_add_le_iff.mp htotal)

theorem sum_filter_map {α : Type} {p : α → Bool} {f g : α → Nat} {l : List α}
    (h : ∀ a∈l, (p a=true → f a=g a) ∧ (p a=false → g a=0)) :
    ((l.filter p).map f).sum=(l.map g).sum := by
  induction l with
  | nil => rfl
  | cons a l ih =>
    obtain ⟨⟨hin,hout⟩,hl⟩ := List.forall_mem_cons.mp h
    rw [List.map_cons,List.sum_cons,← ih hl]
    cases hp : p a with
    | true => rw [List.filter_cons_of_pos hp,List.map_cons,List.sum_cons,hin hp]
    | false => rw [List.filter_cons_of_neg (by simp [hp]),hout hp,Nat.zero_add]

/-- What the metadata records are the sizes last asked for. -/
theorem recordedBytes_eq (hs : Sound A s.heap s.live) :
    recordedBytes s=countedBytes s.live := by
  apply sum_filter_map
  intro b hb
  have hal := (hs.branch hb).2.1
  obtain ⟨L,hi⟩ := hs
  rw [decide_eq_true_iff,decide_eq_false_iff_not,hal,Block.counted]
  cases hk : b.kind with
  | none => exact ⟨fun _ => (hi.bigMeta b hb hk).2,fun hn => absurd rfl hn⟩
  | some i => exact ⟨fun hc => (Option.some_ne_none i hc).elim,fun _ => rfl⟩

/-- After every run of calls used_ram is the sum of the recorded sizes less what
reallocations in place have added; it is the sum itself exactly if these cancel. -/
theorem used_ram_counts_iff (A : PageAllocator M P) (r : Ram P) (hv : A.Valid r.pmm)
    (h₀ : Heap P) (hinit : slabInit A r=some h₀) (calls : List HeapCall) (s : HeldHeap P)
    (hr : System.exec (heapCall A) ⟨h₀,[]⟩ calls=some s) :
    s.heap.usedRam+drift A ⟨h₀,[]⟩ calls=BitVec.ofNat 64 (recordedBytes s) ∧
    (s.heap.usedRam.toNat=recordedBytes s ↔ drift A ⟨h₀,[]⟩ calls=0) := by
  have hs : Sound A s.heap s.live :=
    heap_reachable_sound hv hinit (System.reachable_exec _ _ _ calls hr)
  have hsum : s.heap.usedRam+drift A ⟨h₀,[]⟩ calls=BitVec.ofNat 64 (recordedBytes s) := by
    have hexcess := exec_excess (slabInit_sound hv hinit) hr
    have hzero : (⟨h₀,[]⟩ : HeldHeap P).excess=0 := by
      rw [HeldHeap.excess,slabInit_usedRam hinit]
      exact BitVec.sub_self _
    rw [hzero,HeldHeap.excess,← recordedBytes_eq hs] at hexcess
    rw [← sub_eq_zero,← hexcess]
    ring
  have hlt := countedBytes_lt hs
  rw [← recordedBytes_eq hs] at hlt
  refine ⟨hsum,?_,fun hz => ?_⟩
  · intro he
    rw [← he,BitVec.ofNat_toNat,BitVec.setWidth_eq] at hsum
    exact add_eq_left.mp hsum
  · rw [hz,add_zero] at hsum
    rw [hsum,BitVec.toNat_ofNat,Nat.mod_eq_of_lt hlt]

def driftCalls : List HeapCall :=
  [.slabAlloc 5000,.slabRealloc 0xffff80000000c000 6000,.slabFree 0xffff80000000c000]

theorem used_ram_counts_iff_smallHeap :
    ∃ s : HeldHeap Pmm.State,
      System.exec (heapCall (bitmapPages smallMachine)) ⟨smallHeap,[]⟩ smallCalls=some s ∧
      recordedBytes s=5000 ∧ s.heap.usedRam.toNat=recordedBytes s := by
  refine ⟨(System.exec (heapCall (bitmapPages smallMachine)) ⟨smallHeap,[]⟩ smallCalls).get
    (by decide +kernel),(Option.some_get _).symm,by decide +kernel,?_⟩
  exact (used_ram_counts_iff (bitmapPages smallMachine) smallRam smallRam_valid smallHeap
    (Option.some_get _).symm smallCalls _ (Option.some_get _).symm).2.mpr (by decide +kernel)

/-- used_ram has wrapped below zero when no block is left. -/
theorem used_ram_wraps :
    ∃ s : HeldHeap Pmm.State,
      System.exec (heapCall (bitmapPages smallMachine)) ⟨smallHeap,[]⟩ driftCalls=some s ∧
      s.live.length=0 ∧ recordedBytes s=0 ∧ s.heap.usedRam.toNat=2^64-1000 :=
  ⟨(System.exec (heapCall (bitmapPages smallMachine)) ⟨smallHeap,[]⟩ driftCalls).get
    (by decide +kernel),(Option.some_get _).symm,by decide +kernel,by decide +kernel,
    by decide +kernel⟩

end X64OS.Memory
