import Mathlib.Algebra.Group.Int.Defs
import Mathlib.Algebra.Group.Nat.Defs
import Mathlib.Data.Nat.Notation
import Mathlib.Order.Basic

namespace X64OS.Framework

/-- 64-bit addition, subtraction and multiplication, on numbers that stand for their
residues. -/
def add64 (a b : Nat) : Nat := (a+b)%2^64

def sub64 (a b : Nat) : Nat := (a+2^64-b)%2^64

def mul64 (a b : Nat) : Nat := a*b%2^64

/-- The value of an off_t. -/
def offT (a : Nat) : Int := if a < 2^63 then a else (a : Int)-2^64

variable {a b : Nat}

theorem add64_eq (h : a+b < 2^64) : add64 a b=a+b := Nat.mod_eq_of_lt h

theorem mul64_eq (h : a*b < 2^64) : mul64 a b=a*b := Nat.mod_eq_of_lt h

theorem add64_wrap (ha : a < 2^64) (hb : b < 2^64) :
    add64 a b=if a+b < 2^64 then a+b else a+b-2^64 := by
  rw [add64]
  split <;> omega

theorem offT_eq (h : a < 2^63) : offT a=a := if_pos h

theorem offT_of_ge (h : 2^63 ≤ a) (ha : a < 2^64) : offT a < 0 := by
  rw [offT,if_neg (by omega)]
  omega

theorem sub64_eq (ha : a < 2^64) (h : b ≤ a) : sub64 a b=a-b := by
  rw [sub64]
  omega

end X64OS.Framework
