import Kumo.Lib.Bytes

/-!
# Byte loops over 32-bit pointers

A 32-bit pointer wraps around at the end of the address space. The loops here compute
each address modulo `2 ^ 32`. A range that ends at `2 ^ 32` at the latest does not wrap,
and on such ranges they are the plain loops.
-/

namespace Memory

variable {m : Memory} {p dst src n : Nat} {s : List (BitVec 8)}

/-- `a - b` in 32-bit arithmetic. -/
def sub32 (a b : Nat) : Nat := (a + (2 ^ 32 - b % 2 ^ 32)) % 2 ^ 32

theorem sub32_of_le {a b : Nat} (hle : b ≤ a) (ha : a ≤ 2 ^ 32) (hb : 0 < b) :
    sub32 (a % 2 ^ 32) b = a - b := by
  unfold sub32
  omega

/-- Copy `n` bytes, one after the other, between pointers that wrap around. -/
def copyWrapped (m : Memory) (dst src : Nat) : Nat → Memory
  | 0 => m
  | n + 1 => copyWrapped (m.store8 (dst % 2 ^ 32) (m (src % 2 ^ 32))) (dst + 1) (src + 1) n

/-- Clear `n` bytes from a pointer on that wraps around. -/
def clearWrapped (m : Memory) (dst : Nat) : Nat → Memory
  | 0 => m
  | n + 1 => clearWrapped (m.store8 (dst % 2 ^ 32) 0) (dst + 1) n

theorem copyWrapped_eq (hdst : dst + n ≤ 2 ^ 32) (hsrc : src + n ≤ 2 ^ 32) :
    copyWrapped m dst src n = copyBytes m dst src n := by
  induction n generalizing m dst src with
  | zero => rfl
  | succ n ih =>
      rw [copyWrapped, copyBytes, Nat.mod_eq_of_lt (show dst < 2 ^ 32 by omega),
        Nat.mod_eq_of_lt (show src < 2 ^ 32 by omega), ih (by omega) (by omega)]

theorem clearWrapped_eq (hdst : dst + n ≤ 2 ^ 32) : clearWrapped m dst n = clearBytes m dst n := by
  induction n generalizing m dst with
  | zero => rfl
  | succ n ih =>
      rw [clearWrapped, clearBytes, Nat.mod_eq_of_lt (show dst < 2 ^ 32 by omega), ih (by omega)]

/-! ## Strings -/

/-- The loop that counts the bytes before the first NUL. The fuel is the number of addresses: when
it runs out no byte is NUL, and the loop does not end. -/
def strLen (m : Memory) (p : Nat) : Nat → Option Nat
  | 0 => none
  | fuel + 1 => if m (p % 2 ^ 32) = 0 then some 0 else (strLen m (p + 1) fuel).map (· + 1)

/-- The NUL-terminated string at `p` is `s`. -/
structure CString (m : Memory) (p : Nat) (s : List (BitVec 8)) : Prop where
  nonzero : ∀ b ∈ s, b ≠ 0
  bytes : bytesAt m p (s.length + 1) = s ++ [0]
  fits : p + s.length < 2 ^ 32

/-- The first byte of a string that is not empty, and the rest. -/
theorem CString.tail {b : BitVec 8} (h : CString m p (b :: s)) : m p = b ∧ CString m (p + 1) s := by
  have hbytes := h.bytes
  have hfits := h.fits
  rw [List.length_cons] at hbytes hfits
  rw [bytesAt, List.cons_append] at hbytes
  obtain ⟨hhead, htail⟩ := List.cons.inj hbytes
  exact ⟨hhead, fun c hc => h.nonzero c (List.mem_cons_of_mem b hc), htail, by omega⟩

theorem CString.terminator (h : CString m p []) : m p = 0 := by
  have hbytes := h.bytes
  rw [List.length_nil, bytesAt] at hbytes
  exact (List.cons.inj hbytes).1

/-- The loop finds the length of a string. -/
theorem CString.strLen {fuel : Nat} (h : CString m p s) (hfuel : s.length < fuel) :
    Memory.strLen m p fuel = some s.length := by
  induction s generalizing p fuel with
  | nil =>
      obtain ⟨fuel, rfl⟩ := Nat.exists_eq_succ_of_ne_zero (by omega : fuel ≠ 0)
      have hfits := h.fits
      rw [List.length_nil, Nat.add_zero] at hfits
      rw [Memory.strLen, Nat.mod_eq_of_lt hfits, if_pos h.terminator, List.length_nil]
  | cons b s ih =>
      obtain ⟨fuel, rfl⟩ := Nat.exists_eq_succ_of_ne_zero (by omega : fuel ≠ 0)
      obtain ⟨hhead, htail⟩ := h.tail
      have hfits := h.fits
      have hb := h.nonzero b (List.mem_cons_self ..)
      rw [List.length_cons] at hfuel hfits
      rw [Memory.strLen, Nat.mod_eq_of_lt (show p < 2 ^ 32 by omega), hhead, if_neg hb,
        ih htail (by omega), Option.map_some, List.length_cons]

end Memory
