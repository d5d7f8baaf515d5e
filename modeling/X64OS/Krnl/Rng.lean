import X64OS.Framework.Lagged
import Mathlib.Logic.Function.Iterate

namespace X64OS.Krnl

open Framework

def matrixA : BitVec 32 := 0x9908b0df

def upperMask : BitVec 32 := 0x80000000

def lowerMask : BitVec 32 := 0x7fffffff

def mag01 (i : BitVec 32) : BitVec 32 := if i=0 then 0 else matrixA

structure SimpleRandom where
  mt : Vector (BitVec 32) 624
  mti : Nat

/-- A round of the loop of set_seed; the product is one of unsigned longs. -/
def seedWord (previous : BitVec 32) (mti : Nat) : BitVec 32 :=
  let word := 1812433253#64*(previous ^^^ (previous >>> 30)).setWidth 64+BitVec.ofNat 64 mti
  word.setWidth 32 &&& 0xffffffff

/-- What the loops of rand store, with y from two neighbours. -/
def nextWord (first second far : BitVec 32) : BitVec 32 :=
  let y := (first &&& upperMask) ||| (second &&& lowerMask)
  far ^^^ (y >>> 1) ^^^ mag01 (y &&& 1)

section
variable (mt : Vector (BitVec 32) 624)

def renewLow : Vector (BitVec 32) 624 :=
  Nat.fold 227 (fun kk h mt => mt.set kk (nextWord mt[kk] mt[kk+1] mt[kk+397])) mt

/-- The second loop, for kk = 227+i; there kk + (M - N) is i. -/
def renewHigh : Vector (BitVec 32) 624 :=
  Nat.fold 396 (fun i h mt => mt.set (227+i) (nextWord mt[227+i] mt[227+i+1] mt[i])) mt

def regenerate : Vector (BitVec 32) 624 :=
  let mt := renewHigh (renewLow mt)
  mt.set 623 (nextWord mt[623] mt[0] mt[396])

end

def temper (y : BitVec 32) : BitVec 32 :=
  let y := y ^^^ (y >>> 11)
  let y := y ^^^ ((y <<< 7) &&& 0x9d2c5680)
  let y := y ^^^ ((y <<< 15) &&& 0xefc60000)
  y ^^^ (y >>> 18)

namespace SimpleRandom

def setSeed (r : SimpleRandom) (seed : BitVec 64) : SimpleRandom :=
  ⟨Nat.fold 623 (fun i h mt => mt.set (i+1) (seedWord mt[i] (i+1))) (r.mt.set 0 (seed.setWidth 32)),
    624⟩

def rand (r : SimpleRandom) : BitVec 64 × SimpleRandom :=
  if h : r.mti < 624 then ((temper r.mt[r.mti]).setWidth 64,⟨r.mt,r.mti+1⟩)
  else
    let mt := regenerate r.mt
    ((temper mt[0]).setWidth 64,⟨mt,1⟩)

def nthRand (r : SimpleRandom) (n : Nat) : BitVec 64 := ((fun s => s.rand.2)^[n] r).rand.1

end SimpleRandom

/-- The product of a word, as a row of bits, with the matrix of MT19937. -/
def timesA (w : BitVec 32) : BitVec 32 :=
  if w.getLsbD 0 then (w >>> 1) ^^^ 0x9908b0df else w >>> 1

/-- The sequence of MT19937: its initialisation up to the term 623, then its recurrence with the
upper bit of one term and the lower bits of the next. -/
def mt19937 (seed : BitVec 64) : Nat → BitVec 32
  | 0 => seed.setWidth 32
  | i+1 =>
    if i < 623 then 1812433253#32*(mt19937 seed i ^^^ (mt19937 seed i >>> 30))+BitVec.ofNat 32 (i+1)
    else
      let k := i-623
      mt19937 seed (k+397) ^^^
        timesA ((mt19937 seed k).extractLsb' 31 1 ++ (mt19937 seed (k+1)).extractLsb' 0 31)
  decreasing_by all_goals omega

section

variable {seed : BitVec 64}

theorem mt19937_init {i : Nat} (h : i < 623) : mt19937 seed (i+1)=
    1812433253#32*(mt19937 seed i ^^^ (mt19937 seed i >>> 30))+BitVec.ofNat 32 (i+1) := by
  rw [mt19937,if_pos h]

theorem mt19937_next (k : Nat) : mt19937 seed (k+624)=mt19937 seed (k+397) ^^^
    timesA ((mt19937 seed k).extractLsb' 31 1 ++ (mt19937 seed (k+1)).extractLsb' 0 31) := by
  have hk : k+623-623=k := Nat.add_sub_cancel k 623
  rw [mt19937,if_neg (by omega)]
  simp only [hk]

theorem seedWord_eq (previous : BitVec 32) (mti : Nat) : seedWord previous mti=
    1812433253#32*(previous ^^^ (previous >>> 30))+BitVec.ofNat 32 mti := by
  have hmask : (0xffffffff : BitVec 32)=BitVec.allOnes 32 := by decide
  rw [seedWord,hmask,BitVec.and_allOnes]
  generalize previous ^^^ (previous >>> 30)=word
  apply BitVec.eq_of_toNat_eq
  simp only [BitVec.toNat_setWidth,BitVec.toNat_add,BitVec.toNat_mul,BitVec.toNat_ofNat]
  omega

/-- The two masks put the upper bit of one word before the lower bits of the other. -/
theorem masks_eq (first second : BitVec 32) : (first &&& upperMask) ||| (second &&& lowerMask)=
    first.extractLsb' 31 1 ++ second.extractLsb' 0 31 := by
  have hupper : ∀ i < 32, upperMask.getLsbD i=decide (31 ≤ i) := by decide
  have hlower : ∀ i < 32, lowerMask.getLsbD i=decide (i < 31) := by decide
  apply BitVec.eq_of_getLsbD_eq
  intro i hi
  rw [BitVec.getLsbD_or,BitVec.getLsbD_and,BitVec.getLsbD_and,hupper i hi,hlower i hi,
    BitVec.getLsbD_append,BitVec.getLsbD_extractLsb',BitVec.getLsbD_extractLsb']
  by_cases hlow : i < 31
  · simp [hlow,Nat.not_le.mpr hlow]
  · obtain rfl : i=31 := by omega
    simp

theorem mag01_eq (y : BitVec 32) : mag01 (y &&& 1)=if y.getLsbD 0 then 0x9908b0df else 0 := by
  have hone : (1 : BitVec 32)=BitVec.twoPow 32 0 := by decide
  rw [mag01,hone,BitVec.and_twoPow]
  cases y.getLsbD 0 <;> decide

theorem nextWord_eq (first second far : BitVec 32) : nextWord first second far=
    far ^^^ timesA (first.extractLsb' 31 1 ++ second.extractLsb' 0 31) := by
  rw [nextWord,timesA,masks_eq,mag01_eq,BitVec.xor_assoc]
  generalize first.extractLsb' 31 1 ++ second.extractLsb' 0 31=y
  cases y.getLsbD 0 <;> simp

end

section

variable {x : Nat → BitVec 32} {b : Nat} {mt : Vector (BitVec 32) 624}

/-- The recurrence, by what the loops of rand compute. -/
def Recurs (x : Nat → BitVec 32) : Prop :=
  ∀ k, x (k+624)=nextWord (x k) (x (k+1)) (x (k+397))

theorem mt19937_recurs (seed : BitVec 64) : Recurs (mt19937 seed) := by
  intro k
  rw [mt19937_next,nextWord_eq]

theorem next_at (hx : Recurs x) (b i : Nat) :
    nextWord (x (b+i)) (x (b+(i+1))) (x (b+(i+397)))=x (b+624+i) := by
  rw [Nat.add_right_comm b 624,hx (b+i),Nat.add_assoc,Nat.add_assoc]

theorem renewLow_renewed (hx : Recurs x) (h : Renewed x b 0 mt) :
    Renewed x b 227 (renewLow mt) := by
  apply fold_invariant (fun kk mt => Renewed x b kk mt) h
  intro kk hkk mt h
  apply h.set
  rw [h.ahead (by omega) (Nat.le_refl _),h.ahead (by omega) (by omega),
    h.ahead (by omega) (by omega)]
  exact next_at hx b kk

theorem renewHigh_renewed (hx : Recurs x) (h : Renewed x b 227 mt) :
    Renewed x b 623 (renewHigh mt) := by
  apply fold_invariant (fun i mt => Renewed x b (227+i) mt) h
  intro i hi mt h
  have hfar : b+624+i=b+(227+i+397) := by omega
  apply h.set
  rw [h.ahead (by omega) (Nat.le_refl _),h.ahead (by omega) (by omega),
    h.behind (by omega) (by omega),hfar]
  exact next_at hx b (227+i)

theorem regenerate_renewed (hx : Recurs x) (h : Renewed x b 0 mt) :
    Renewed x (b+624) 0 (regenerate mt) := by
  have hlast := renewHigh_renewed hx (renewLow_renewed hx h)
  apply Renewed.turn
  apply hlast.set (by decide)
  rw [hlast.ahead (by decide) (Nat.le_refl _),hlast.behind (by decide) (by decide),
    hlast.behind (by decide) (by decide)]
  exact next_at hx b 623

theorem setSeed_renewed (r : SimpleRandom) (seed : BitVec 64) :
    Renewed (mt19937 seed) 0 0 (r.setSeed seed).mt := by
  have hfilled : ∀ i (h : i < 624), i < 623+1 → (r.setSeed seed).mt[i]=mt19937 seed i := by
    apply fold_invariant (fun j (mt : Vector (BitVec 32) 624) =>
      ∀ i (h : i < 624), i < j+1 → mt[i]=mt19937 seed i)
    · intro i h hi
      obtain rfl : i=0 := by omega
      rw [Vector.getElem_set_self,mt19937]
    · intro j hj mt hmt i h hi
      rw [Vector.getElem_set]
      by_cases hij : j+1=i
      · subst hij
        rw [if_pos rfl,hmt j (by omega) (by omega),seedWord_eq,mt19937_init hj]
      · rw [if_neg hij]
        exact hmt i h (by omega)
  intro i h
  rw [hfilled i h h,if_neg (Nat.not_lt_zero i),Nat.zero_add]

end

namespace SimpleRandom

/-- The next value is that of the term n+624: the window starts mti terms before it. -/
def At (x : Nat → BitVec 32) (n : Nat) (r : SimpleRandom) : Prop :=
  r.mti ≤ 624 ∧ ∃ b, b+r.mti=n+624 ∧ Renewed x b 0 r.mt

variable {x : Nat → BitVec 32} {n : Nat} {r : SimpleRandom}

theorem At.rand (hx : Recurs x) (h : At x n r) :
    r.rand.1=(temper (x (n+624))).setWidth 64 ∧ At x (n+1) r.rand.2 := by
  obtain ⟨hle,b,hb,hwindow⟩ := h
  unfold SimpleRandom.rand
  by_cases hmti : r.mti < 624
  · rw [dif_pos hmti]
    dsimp only
    rw [hwindow.ahead hmti (Nat.zero_le _),hb]
    exact ⟨rfl,hmti,b,by dsimp only; omega,hwindow⟩
  · have hnew := regenerate_renewed hx hwindow
    have hterm : b+624+0=n+624 := by omega
    rw [dif_neg hmti]
    dsimp only
    rw [hnew.ahead (by decide) (Nat.le_refl _),hterm]
    exact ⟨rfl,by dsimp only; omega,b+624,by dsimp only; omega,hnew⟩

theorem At.iterate (hx : Recurs x) (h : At x 0 r) (n : Nat) :
    At x n ((fun s => s.rand.2)^[n] r) := by
  induction n with
  | zero => exact h
  | succ n ih =>
    rw [Function.iterate_succ_apply']
    exact (ih.rand hx).2

/-- After set_seed the n-th call of rand returns the tempered term n+624 of MT19937. -/
theorem rand_is_mt19937 (r : SimpleRandom) (seed : BitVec 64) (n : Nat) :
    (r.setSeed seed).nthRand n=(temper (mt19937 seed (n+624))).setWidth 64 := by
  have hx := mt19937_recurs seed
  have hstart : At (mt19937 seed) 0 (r.setSeed seed) := ⟨Nat.le_refl 624,0,rfl,setSeed_renewed r seed⟩
  exact ((hstart.iterate hx n).rand hx).1

end SimpleRandom

end X64OS.Krnl
