import Mathlib.Algebra.Group.Nat.Defs
import Mathlib.Order.Basic

namespace X64OS.Framework

/-- Why a computation has no result. -/
inductive Fault where
  | divideByZero
  | outOfRange
  | halted
  deriving DecidableEq

section

variable {α β : Type}

theorem ok_bind (a : α) (f : α → Except Fault β) : (Except.ok a >>= f)=f a := rfl

theorem bind_eq_ok {x : Except Fault α} {f : α → Except Fault β} {b : β} (h : x >>= f=.ok b) :
    ∃ a, x=.ok a ∧ f a=.ok b := by
  cases x with
  | error e => cases h
  | ok a => exact ⟨a,rfl,h⟩

end

namespace Checked

def div (a b : Nat) : Except Fault Nat := if b=0 then .error .divideByZero else .ok (a/b)

def mod (a b : Nat) : Except Fault Nat := if b=0 then .error .divideByZero else .ok (a%b)

/-- A product that is below 2^w. -/
def mul (w a b : Nat) : Except Fault Nat := if a*b < 2^w then .ok (a*b) else .error .outOfRange

/-- A shift to the left in a type of w value bits. -/
def shiftLeft (w a n : Nat) : Except Fault Nat :=
  if n ≤ w ∧ a*2^n < 2^w then .ok (a*2^n) else .error .outOfRange

variable {w a b n : Nat}

theorem div_eq (h : b≠0) : div a b=.ok (a/b) := if_neg h

theorem mod_eq (h : b≠0) : mod a b=.ok (a%b) := if_neg h

theorem mul_eq (h : a*b < 2^w) : mul w a b=.ok (a*b) := if_pos h

theorem shiftLeft_eq (hn : n ≤ w) (h : a*2^n < 2^w) : shiftLeft w a n=.ok (a*2^n) := if_pos ⟨hn,h⟩

theorem ne_zero_of_div {c : Nat} (h : div a b=.ok c) : b≠0 := by
  rintro rfl
  cases h

theorem ne_zero_of_mod {c : Nat} (h : mod a b=.ok c) : b≠0 := by
  rintro rfl
  cases h

theorem lt_of_mul {c : Nat} (h : mul w a b=.ok c) : a*b < 2^w ∧ c=a*b := by
  rw [mul] at h
  split at h
  · rename_i hlt
    cases h
    exact ⟨hlt,rfl⟩
  · cases h

theorem lt_of_shiftLeft {c : Nat} (h : shiftLeft w a n=.ok c) : a*2^n < 2^w ∧ c=a*2^n := by
  rw [shiftLeft] at h
  split at h
  · rename_i hlt
    cases h
    exact ⟨hlt.2,rfl⟩
  · cases h

end Checked

end X64OS.Framework
