import Mathlib.Algebra.Group.Int.Defs
import Mathlib.Algebra.Group.Nat.Defs
import Mathlib.Tactic.Common

/-!
# 32-bit integers as integers

`wrap32` is the value of an integer as a signed 32-bit word in two's complement, and
`word` its value as an unsigned one. Both are the identity on the values the type can
hold.
-/

/-- The signed 32-bit value congruent to `z`. -/
def wrap32 (z : Int) : Int := (z + 2 ^ 31) % 2 ^ 32 - 2 ^ 31

/-- The unsigned 32-bit value congruent to `z`. -/
def word (z : Int) : Nat := (z % 2 ^ 32).toNat

theorem wrap32_eq {z : Int} (hlo : -2 ^ 31 ≤ z) (hhi : z < 2 ^ 31) : wrap32 z = z := by
  unfold wrap32
  omega

theorem wrap32_bounds (z : Int) : -2 ^ 31 ≤ wrap32 z ∧ wrap32 z < 2 ^ 31 := by
  unfold wrap32
  omega

theorem word_lt (z : Int) : word z < 2 ^ 32 := by
  unfold word
  omega

theorem word_ofNat {n : Nat} (h : n < 2 ^ 32) : word n = n := by
  unfold word
  omega

/-- A nonnegative signed value keeps its value when it is read as unsigned. -/
theorem word_eq {z : Int} (hlo : 0 ≤ z) (hhi : z < 2 ^ 32) : (word z : Int) = z := by
  unfold word
  omega

@[simp] theorem word_wrap32 (z : Int) : word (wrap32 z) = word z := by
  unfold word wrap32
  omega

@[simp] theorem wrap32_word (z : Int) : wrap32 (word z) = wrap32 z := by
  unfold word wrap32
  omega
