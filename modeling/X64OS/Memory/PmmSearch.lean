import X64OS.Memory.Pmm

namespace X64OS.Memory.Pmm

open Framework

/-- n free pages from page a on, between lo and hi. -/
structure FreeRun (bitmap : Bitmap) (lo hi n a : Nat) : Prop where
  low : lo ≤ a
  high : a+n ≤ hi
  free : ∀ i∈(⟨a,n⟩ : Span), bitmapTest bitmap i=false

/-- The lowest such run. -/
def FirstRun (bitmap : Bitmap) (lo hi n a : Nat) : Prop :=
  FreeRun bitmap lo hi n a ∧ ∀ b, b < a → ¬FreeRun bitmap lo hi n b

variable {bitmap : Bitmap} {n limit p idx : Nat}
variable {a hi lo : Nat} {s : State}

theorem FreeRun.behind (h : FreeRun bitmap lo hi n a) (hp : p < n) (ha : idx-p ≤ a)
    (hused : bitmapTest bitmap idx=true) : idx < a := by
  by_contra hle
  have hfree := h.free idx (by rw [Span.mem_mk]; omega)
  rw [hused] at hfree
  cases hfree

/-- What the scan has not passed when it has counted p pages up to idx: the runs
that start with the first of them, or later. A scan that fails finds none there. -/
theorem innerScan_none {fuel idx' : Nat} (hfuel : limit ≤ idx+fuel) (hp : p < n) (hpi : p ≤ idx)
    (h : innerScan bitmap n limit fuel p idx=(none,idx')) (a : Nat) :
    ¬FreeRun bitmap (idx-p) limit n a := by
  intro hrun
  have hhigh := hrun.high
  induction fuel generalizing p idx with
  | zero =>
    have hlow := hrun.low
    omega
  | succ fuel ih =>
    have hlow := hrun.low
    unfold innerScan at h
    split_ifs at h with hlt hused hlast
    · exact ih (by omega) (by omega) (Nat.zero_le _) h
        ⟨hrun.behind hp hlow hused,hhigh,hrun.free⟩
    · cases h
    · have hsame : idx+1-(p+1)=idx-p := by omega
      exact ih (by omega) (by omega) (by omega) h (by rw [hsame]; exact hrun)
    · omega

theorem innerScan_first {fuel page idx' : Nat} (hp : p < n) (hpi : p ≤ idx)
    (h : innerScan bitmap n limit fuel p idx=(some page,idx')) :
    idx-p ≤ page ∧ ∀ a, a < page → ¬FreeRun bitmap (idx-p) limit n a := by
  induction fuel generalizing p idx with
  | zero => cases h
  | succ fuel ih =>
    unfold innerScan at h
    split_ifs at h with hlt hused hlast
    · obtain ⟨hle,hfirst⟩ := ih (by omega) (Nat.zero_le _) h
      refine ⟨by omega,fun a ha hrun => ?_⟩
      exact hfirst a ha ⟨hrun.behind hp hrun.low hused,hrun.high,hrun.free⟩
    · simp only [Prod.mk.injEq,Option.some.injEq] at h
      have hpage : page=idx-p := by omega
      rw [hpage]
      exact ⟨Nat.le_refl _,fun a ha hrun => absurd hrun.low (by omega)⟩
    · have hsame : idx+1-(p+1)=idx-p := by omega
      rw [← hsame]
      exact ih (by omega) (by omega) h
    · cases h

theorem innerScan_spec (bitmap : Bitmap) {n : Nat} (lo limit : Nat) (hn : 1 ≤ n) (page : Nat) :
    (innerScan bitmap n limit (limit-lo) 0 lo).1=some page ↔ FirstRun bitmap lo limit n page := by
  rcases hscan : innerScan bitmap n limit (limit-lo) 0 lo with ⟨_ | found,idx'⟩
  · have hnone := innerScan_none (by omega) hn (Nat.zero_le _) hscan
    exact ⟨fun h => absurd h (by simp),fun h => absurd h.1 (hnone page)⟩
  · obtain ⟨hle,hfirst⟩ := innerScan_first hn (Nat.zero_le _) hscan
    obtain ⟨hrun,hlimit,hfree⟩ := innerScan_some _ _ _ _ _ _ _ _ (Nat.zero_le _)
      (fun i h1 h2 => by omega) hscan
    have hfound : FirstRun bitmap lo limit n found :=
      ⟨⟨hle,by omega,fun i hi => hfree i hi.1 (by rw [← hrun]; exact hi.2)⟩,hfirst⟩
    constructor
    · intro h
      cases h
      exact hfound
    · intro h
      -- there is one lowest run only
      obtain hlt | rfl | hlt := Nat.lt_trichotomy found page
      · exact absurd hfound.1 (h.2 found hlt)
      · rfl
      · exact absurd h.1 (hfound.2 page hlt)

theorem innerAlloc_ne_zero_iff (s : State) (limit : Nat) (hn : 1 ≤ n) :
    (innerAlloc s n limit).1≠0 ↔
      ∃ a, 0 < a ∧ FirstRun s.bitmap s.lastUsedIndex limit n a := by
  have hspec := innerScan_spec s.bitmap s.lastUsedIndex limit hn
  unfold innerAlloc
  rcases hscan : innerScan s.bitmap n limit (limit-s.lastUsedIndex) 0 s.lastUsedIndex with
    ⟨_ | page,idx⟩
  · rw [hscan] at hspec
    exact ⟨fun h => absurd rfl h,fun ⟨a,_,ha⟩ => absurd ((hspec a).mpr ha) (by simp)⟩
  · rw [hscan] at hspec
    have hpage := (hspec page).mp rfl
    constructor
    · intro h
      have hne : page≠0 := fun hz => h (by dsimp only; rw [hz,Nat.zero_mul])
      exact ⟨page,Nat.pos_of_ne_zero hne,hpage⟩
    · rintro ⟨a,hpos,ha⟩
      cases (hspec a).mpr ha
      exact Nat.mul_ne_zero (Nat.pos_iff_ne_zero.mp hpos) (by decide)

theorem innerAlloc_null {limit : Nat} (hpos : 0 < s.lastUsedIndex) (hn : 1 ≤ n)
    (h : (innerAlloc s n limit).1=0) : (innerAlloc s n limit).2.bitmap=s.bitmap := by
  have hspec := innerScan_spec s.bitmap s.lastUsedIndex limit hn
  unfold innerAlloc at h ⊢
  rcases hscan : innerScan s.bitmap n limit (limit-s.lastUsedIndex) 0 s.lastUsedIndex with
    ⟨_ | page,idx⟩
  · rfl
  · rw [hscan] at hspec h
    have hlow := ((hspec page).mp rfl).1.low
    have hne : page*pageSize≠0 := Nat.mul_ne_zero (by omega) (by decide)
    exact absurd h hne

/-- When a call returns; one for no pages never does. -/
theorem pmmAllocNozero_ne_none_iff (s : State) (n : Nat) :
    pmmAllocNozero s n≠none ↔ 1 ≤ n ∧
      ∃ a, 0 < a ∧ (FirstRun s.bitmap s.lastUsedIndex s.highestPageIndex n a ∨
        FirstRun s.bitmap 0 s.lastUsedIndex n a) := by
  obtain rfl | hn := Nat.eq_zero_or_pos n
  · simp [pmmAllocNozero_zero]
  rw [and_iff_right (show 1 ≤ n from hn)]
  have hacc : ∀ r : Nat × State, accountPages r n≠none ↔ r.1≠0 := by
    intro r
    rw [accountPages]
    by_cases hr : r.1=0
    · simp [hr]
    · simp [hr]
  have hfirst := innerAlloc_ne_zero_iff s s.highestPageIndex hn
  rw [pmmAllocNozero,hacc]
  by_cases hnull : (innerAlloc s n s.highestPageIndex).1=0
  · have hno : ¬∃ a, 0 < a ∧ FirstRun s.bitmap s.lastUsedIndex s.highestPageIndex n a :=
      fun h => hfirst.mpr h hnull
    rw [if_pos hnull,innerAlloc_ne_zero_iff _ _ hn]
    obtain hz | hpos := Nat.eq_zero_or_pos s.lastUsedIndex
    · -- a second scan up to a cursor at page 0 looks at nothing
      have hempty : ∀ (bitmap : Bitmap) (a : Nat), ¬FirstRun bitmap 0 0 n a :=
        fun bitmap a h => absurd h.1.high (by omega)
      constructor
      · rintro ⟨a,_,ha⟩
        rw [hz] at ha
        exact absurd ha (hempty _ _)
      · rintro ⟨a,hpos,ha | ha⟩
        · exact absurd ⟨a,hpos,ha⟩ hno
        · rw [hz] at ha
          exact absurd ha (hempty _ _)
    · dsimp only
      rw [innerAlloc_null hpos hn hnull]
      constructor
      · rintro ⟨a,ha,hrun⟩
        exact ⟨a,ha,.inr hrun⟩
      · rintro ⟨a,ha,hrun | hrun⟩
        · exact absurd ⟨a,ha,hrun⟩ hno
        · exact ⟨a,ha,hrun⟩
  · rw [if_neg hnull]
    obtain ⟨a,hpos,ha⟩ := hfirst.mp hnull
    exact ⟨fun _ => ⟨a,hpos,.inl ha⟩,fun _ => hnull⟩

theorem FreeRun.exists_first (h : FreeRun bitmap lo hi n a) : ∃ b, FirstRun bitmap lo hi n b := by
  classical
  exact ⟨_,Nat.find_spec ⟨a,h⟩,fun b hb => Nat.find_min ⟨a,h⟩ hb⟩

/-- A free run is found exactly if the lowest run behind the cursor, or the lowest run that ends
before it, is not at page 0: pmm_alloc_nozero never joins free pages on both sides of the cursor. -/
theorem pmm_alloc_finds_iff (s : State) (n : Nat) (hn : 1 ≤ n) :
    ((∃ a, FreeRun s.bitmap 1 s.highestPageIndex n a) → pmmAllocNozero s n≠none) ↔
      (¬∃ a, FreeRun s.bitmap 1 s.highestPageIndex n a) ∨
      ∃ a, 0 < a ∧ (FirstRun s.bitmap s.lastUsedIndex s.highestPageIndex n a ∨
        FirstRun s.bitmap 0 s.lastUsedIndex n a) := by
  rw [pmmAllocNozero_ne_none_iff,and_iff_right hn]
  exact imp_iff_not_or

def eightPages (byte : BitVec 8) : State := ⟨fun _ => byte,8,4,0#64,by decide⟩

theorem eightPages_run : FirstRun (eightPages 0x1f#8).bitmap 4 8 3 5 := by
  refine ⟨⟨by decide,by decide,?_⟩,?_⟩
  · intro i hi
    rw [Span.mem_mk] at hi
    obtain rfl | rfl | rfl : i=5 ∨ i=6 ∨ i=7 := by omega
    all_goals rfl
  · intro b hb h
    have hlow := h.low
    have hused := h.free 4 (by rw [Span.mem_mk]; omega)
    cases hused

theorem pmm_alloc_finds_iff_behind :
    FreeRun (eightPages 0x1f#8).bitmap 1 8 3 5 ∧ pmmAllocNozero (eightPages 0x1f#8) 3≠none := by
  have hrun : FreeRun (eightPages 0x1f#8).bitmap 1 8 3 5 :=
    ⟨by decide,eightPages_run.1.high,eightPages_run.1.free⟩
  exact ⟨hrun,(pmm_alloc_finds_iff (eightPages 0x1f#8) 3 (by decide)).mpr
    (.inr ⟨5,by decide,.inl eightPages_run⟩) ⟨5,hrun⟩⟩

/-- Pages 2 to 5 are free, but a request for three pages finds no block: two of
them lie before the cursor and two behind it. -/
theorem pmm_alloc_misses_run :
    (eightPages 0xc3#8).lastUsedIndex ≤ (eightPages 0xc3#8).highestPageIndex ∧
    FreeRun (eightPages 0xc3#8).bitmap 1 (eightPages 0xc3#8).highestPageIndex 3 2 ∧
    pmmAllocNozero (eightPages 0xc3#8) 3=none := by
  refine ⟨by decide,⟨by decide,by decide,?_⟩,by decide⟩
  intro i hi
  rw [Span.mem_mk] at hi
  obtain rfl | rfl | rfl : i=2 ∨ i=3 ∨ i=4 := by omega
  all_goals rfl

end X64OS.Memory.Pmm
