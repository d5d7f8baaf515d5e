import Mathlib.Data.Nat.ModEq

namespace X64OS.Framework

section

variable {e k m : Nat}

def ringNext (e i : Nat) : Nat := if i+1=e then 0 else i+1

/-- A bit that is 1 in the first lap of a ring of e slots and changes with each lap. -/
def lapPhase (e k : Nat) : Nat := if k/e%2=0 then 1 else 0

theorem lapPhase_lt (e k : Nat) : lapPhase e k < 2 := by
  rw [lapPhase]
  split <;> omega

section
variable (he : 0 < e) (k : Nat)
include he

theorem succ_lap : (k+1)/e=(if k%e+1=e then k/e+1 else k/e) ∧ (k+1)%e=ringNext e (k%e) := by
  have hk := Nat.mod_add_div k e
  have hlt := Nat.mod_lt k he
  rw [ringNext]
  split
  · rw [Nat.div_mod_unique he,Nat.mul_succ]
    omega
  · rw [Nat.div_mod_unique he]
    omega

theorem ringNext_mod : ringNext e (k%e)=(k+1)%e := (succ_lap he k).2.symm

theorem lapPhase_succ : lapPhase e (k+1)=if k%e+1=e then 1-lapPhase e k else lapPhase e k := by
  rw [lapPhase,lapPhase,(succ_lap he k).1]
  by_cases hwrap : k%e+1=e
  · rw [if_pos hwrap,if_pos hwrap]
    split <;> split <;> omega
  · rw [if_neg hwrap,if_neg hwrap]

theorem lapPhase_add : lapPhase e (k+e)=1-lapPhase e k := by
  rw [lapPhase,lapPhase,Nat.add_div_right k he]
  split <;> split <;> omega

end

/-- Of e successive numbers no two stand in the same slot. -/
theorem mod_ne_mod (hlt : m < k) (hwin : k < m+e) : k%e≠m%e := by
  intro h
  have hdvd : e ∣ k-m := (Nat.modEq_iff_dvd' (Nat.le_of_lt hlt)).mp h.symm
  have := Nat.le_of_dvd (by omega) hdvd
  omega

end

end X64OS.Framework
