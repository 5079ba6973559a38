import Mathlib.Algebra.Group.Nat.Defs
import Mathlib.Logic.Function.Basic
import Mathlib.Tactic.Common

/-!
# Bitmaps stored as bytes

A bitmap keeps bit `i` in bit `i % 8` of byte `i / 8`. `bit_mark` describes one
update completely, and `clearBelow` counts the clear bits below a bound.
`clearBelow_mark` is the only counting fact an allocator needs: marking a clear
bit inside the bound lowers the count by exactly one.
-/

namespace Bitmap

/-- The bytes of a bitmap, by byte index. -/
abbrev Bytes := Nat → BitVec 8

/-- The mask of bit `i` within its byte. -/
def mask (i : Nat) : BitVec 8 := 1#8 <<< (i % 8)

/-- Bit `i` is set. -/
def bit (bytes : Bytes) (i : Nat) : Bool := bytes (i / 8) &&& mask i != 0#8

/-- Set bit `i`, leaving every other bit alone. -/
def mark (bytes : Bytes) (i : Nat) : Bytes :=
  Function.update bytes (i / 8) (bytes (i / 8) ||| mask i)

/-- Clear bit `i`, leaving every other bit alone. -/
def unmark (bytes : Bytes) (i : Nat) : Bytes :=
  Function.update bytes (i / 8) (bytes (i / 8) &&& ~~~mask i)

/-- The number of clear bits below `n`. -/
def clearBelow (bytes : Bytes) : Nat → Nat
  | 0 => 0
  | n + 1 => clearBelow bytes n + if bit bytes n then 0 else 1

theorem mask_eq_twoPow (i : Nat) : mask i = BitVec.twoPow 8 (i % 8) := rfl

/-- The masked test reads the bit at position `i % 8` of byte `i / 8`. -/
theorem bit_eq_getLsbD (bytes : Bytes) (i : Nat) :
    bit bytes i = (bytes (i / 8)).getLsbD (i % 8) := by
  have hlt : i % 8 < 8 := Nat.mod_lt _ (by decide)
  have hpos : BitVec.twoPow 8 (i % 8) ≠ 0#8 := by
    intro h
    have := congrArg (fun v : BitVec 8 => v.getLsbD (i % 8)) h
    simp [hlt] at this
  rw [bit, mask_eq_twoPow, BitVec.and_twoPow]
  cases h : (bytes (i / 8)).getLsbD (i % 8) <;> simp [hpos]

/-- Marking bit `i` sets it and changes no other bit. -/
@[simp] theorem bit_mark (bytes : Bytes) (i j : Nat) :
    bit (mark bytes i) j = (decide (j = i) || bit bytes j) := by
  have hlt : j % 8 < 8 := Nat.mod_lt _ (by decide)
  rw [bit_eq_getLsbD, bit_eq_getLsbD, mark]
  by_cases hbyte : j / 8 = i / 8
  · rw [hbyte, Function.update_self, BitVec.getLsbD_or, mask_eq_twoPow, BitVec.getLsbD_twoPow]
    have hlti : i % 8 < 8 := Nat.mod_lt _ (by decide)
    have hiff : i % 8 = j % 8 ↔ j = i := by omega
    simp [hlti, hiff, Bool.or_comm]
  · have hne : j ≠ i := by
      rintro rfl
      exact hbyte rfl
    simp [Function.update_of_ne hbyte, hne]

/-- Clearing bit `i` changes no other bit. -/
@[simp] theorem bit_unmark (bytes : Bytes) (i j : Nat) :
    bit (unmark bytes i) j = (decide (j ≠ i) && bit bytes j) := by
  have hlt : j % 8 < 8 := Nat.mod_lt _ (by decide)
  rw [bit_eq_getLsbD, bit_eq_getLsbD, unmark]
  by_cases hbyte : j / 8 = i / 8
  · rw [hbyte, Function.update_self, BitVec.getLsbD_and, BitVec.getLsbD_not, mask_eq_twoPow,
      BitVec.getLsbD_twoPow]
    have hlti : i % 8 < 8 := Nat.mod_lt _ (by decide)
    have hiff : i % 8 = j % 8 ↔ j = i := by omega
    simp [hlt, hlti, hiff, Bool.and_comm]
  · have hne : j ≠ i := by
      rintro rfl
      exact hbyte rfl
    simp [Function.update_of_ne hbyte, hne]

theorem clearBelow_le (bytes : Bytes) (n : Nat) : clearBelow bytes n ≤ n := by
  induction n with
  | zero => exact Nat.le_refl 0
  | succ n ih =>
      simp only [clearBelow]
      split <;> omega

theorem clearBelow_mono (bytes : Bytes) {n m : Nat} (h : n ≤ m) :
    clearBelow bytes n ≤ clearBelow bytes m := by
  induction h with
  | refl => exact Nat.le_refl _
  | step _ ih => exact Nat.le_trans ih (Nat.le_add_right _ _)

/-- If every clear bit lies below `bound`, there are at most `bound` of them. -/
theorem clearBelow_le_of_lt {bytes : Bytes} {n bound : Nat}
    (h : ∀ i, i < n → bit bytes i = false → i < bound) : clearBelow bytes n ≤ bound := by
  induction n with
  | zero => exact Nat.zero_le _
  | succ n ih =>
      simp only [clearBelow]
      split
      · simpa using ih (fun i hi => h i (by omega))
      · next hclear =>
          have hlt := h n (Nat.lt_succ_self n) (by simpa using hclear)
          have hle := clearBelow_le bytes n
          omega

/-- The count depends only on the bits below the bound. -/
theorem clearBelow_congr {bytes other : Bytes} {n : Nat}
    (h : ∀ i, i < n → bit bytes i = bit other i) :
    clearBelow bytes n = clearBelow other n := by
  induction n with
  | zero => rfl
  | succ n ih =>
      rw [clearBelow, clearBelow, ih (fun i hi => h i (by omega)), h n (Nat.lt_succ_self n)]

/-- No bit is clear exactly when the count is 0. -/
theorem clearBelow_eq_zero (bytes : Bytes) (n : Nat) :
    clearBelow bytes n = 0 ↔ ∀ i, i < n → bit bytes i = true := by
  constructor
  · intro hzero i hi
    by_contra hclear
    have hstep : clearBelow bytes i < clearBelow bytes (i + 1) := by
      simp only [clearBelow, if_neg hclear]
      omega
    have hmono := clearBelow_mono bytes (Nat.succ_le_of_lt hi)
    rw [Nat.succ_eq_add_one] at hmono
    omega
  · intro hset
    have hnone : ∀ i, i < n → bit bytes i = false → i < 0 := by
      intro i hi hclear
      rw [hset i hi] at hclear
      cases hclear
    have hle := clearBelow_le_of_lt hnone
    omega

/-- Marking a clear bit below the bound lowers the count by one. -/
theorem clearBelow_mark {bytes : Bytes} {i n : Nat} (hi : i < n) (hclear : bit bytes i = false) :
    clearBelow (mark bytes i) n + 1 = clearBelow bytes n := by
  induction n with
  | zero => omega
  | succ n ih =>
      simp only [clearBelow, bit_mark]
      by_cases hlast : n = i
      · subst hlast
        have hrest : clearBelow (mark bytes n) n = clearBelow bytes n := by
          apply clearBelow_congr
          intro j hj
          simp [show j ≠ n by omega]
        simp [hclear, hrest]
      · have hstep := ih (by omega)
        simp only [hlast, decide_false, Bool.false_or]
        omega

end Bitmap
