import Mathlib.Algebra.Group.Nat.Defs
import Mathlib.Logic.Function.Basic
import Mathlib.Tactic.Common

/-!
# Byte-addressed memory with little-endian 32-bit words

A memory assigns a byte to every address. `load32` and `store32` access four
consecutive bytes, least significant first. The store lemmas are the usual pair: a
load of the stored word returns it modulo `2 ^ 32`, and everything outside the four
bytes is unchanged.
-/

/-- A memory, by address. -/
abbrev Memory := Nat → BitVec 8

namespace Memory

/-- Store one byte. -/
def store8 (memory : Memory) (address : Nat) (value : BitVec 8) : Memory :=
  Function.update memory address value

/-- The 32-bit word at `address`. -/
def load32 (memory : Memory) (address : Nat) : Nat :=
  (memory address).toNat + 2 ^ 8 * (memory (address + 1)).toNat +
    2 ^ 16 * (memory (address + 2)).toNat + 2 ^ 24 * (memory (address + 3)).toNat

/-- Store the low 32 bits of `value` at `address`. -/
def store32 (memory : Memory) (address value : Nat) : Memory := fun x =>
  if address ≤ x ∧ x < address + 4 then BitVec.ofNat 8 (value / 2 ^ (8 * (x - address)))
  else memory x

theorem load32_lt (memory : Memory) (address : Nat) : load32 memory address < 2 ^ 32 := by
  have h0 := (memory address).isLt
  have h1 := (memory (address + 1)).isLt
  have h2 := (memory (address + 2)).isLt
  have h3 := (memory (address + 3)).isLt
  unfold load32
  omega

/-- A load depends only on its four bytes. -/
theorem load32_congr {memory other : Memory} {address : Nat}
    (h : ∀ x, address ≤ x → x < address + 4 → memory x = other x) :
    load32 memory address = load32 other address := by
  unfold load32
  rw [h address (by omega) (by omega), h (address + 1) (by omega) (by omega),
    h (address + 2) (by omega) (by omega), h (address + 3) (by omega) (by omega)]

/-- A byte outside the stored word is unchanged. -/
theorem store32_outside {memory : Memory} {address value x : Nat}
    (h : x < address ∨ address + 4 ≤ x) : store32 memory address value x = memory x := by
  unfold store32
  rw [if_neg (by omega)]

/-- Reading back the stored word gives its low 32 bits. -/
@[simp] theorem load32_store32 (memory : Memory) (address value : Nat) :
    load32 (store32 memory address value) address = value % 2 ^ 32 := by
  simp [load32, store32]
  omega

/-- Reading a disjoint word is not affected by a store. -/
theorem load32_store32_disjoint {memory : Memory} {address other value : Nat}
    (h : other + 4 ≤ address ∨ address + 4 ≤ other) :
    load32 (store32 memory address value) other = load32 memory other :=
  load32_congr fun _ _ _ => store32_outside (by omega)

/-- Two word-aligned addresses are equal or disjoint. -/
theorem load32_store32_aligned {memory : Memory} {address other value : Nat}
    (ha : address % 4 = 0) (ho : other % 4 = 0) :
    load32 (store32 memory address value) other =
      if other = address then value % 2 ^ 32 else load32 memory other := by
  split
  · next h => rw [h, load32_store32]
  · next h => exact load32_store32_disjoint (by omega)

theorem store8_other {memory : Memory} {address x : Nat} {value : BitVec 8} (h : x ≠ address) :
    store8 memory address value x = memory x := by
  rw [store8, Function.update_of_ne h]

/-- A one-byte store outside a word leaves the word alone. -/
theorem load32_store8_outside {memory : Memory} {address other : Nat} {value : BitVec 8}
    (h : address < other ∨ other + 4 ≤ address) :
    load32 (store8 memory address value) other = load32 memory other :=
  load32_congr fun _ _ _ => store8_other (by omega)

end Memory
