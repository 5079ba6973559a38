import Mathlib.Data.List.Basic

/-!
# The content of a file

A file's content is a list. `slice` is what a read of `n` elements at an offset delivers,
and `overwrite` what a write at an offset leaves: the content padded up to the offset, the
new elements, and what lay beyond them.
-/

namespace Content

variable {α : Type*}

/-- What a read of `n` elements at `off` delivers. -/
def slice (c : List α) (off n : Nat) : List α := (c.drop off).take n

/-- What a write of `bs` at `off` leaves of `c`, with gaps filled by `zero`. -/
def overwrite (zero : α) (c : List α) (off : Nat) (bs : List α) : List α :=
  (c ++ List.replicate (off - c.length) zero).take off ++ bs ++ c.drop (off + bs.length)

@[simp] theorem length_slice (c : List α) (off n : Nat) :
    (slice c off n).length = min n (c.length - off) := by
  simp [slice]

@[simp] theorem length_overwrite (zero : α) (c : List α) (off : Nat) (bs : List α) :
    (overwrite zero c off bs).length = max c.length (off + bs.length) := by
  simp [overwrite]
  omega

/-- Reading at or beyond the end delivers nothing. -/
theorem slice_of_le (c : List α) {off : Nat} (n : Nat) (h : c.length ≤ off) :
    slice c off n = [] := by
  rw [slice, List.drop_eq_nil_of_le h, List.take_nil]

/-- One of the elements delivered. -/
theorem getElem?_slice (xs : List α) (off n : Nat) {i : Nat} (h : i < n) :
    (slice xs off n)[i]? = xs[off + i]? := by
  rw [slice, List.getElem?_take_of_lt h, List.getElem?_drop]

/-- The elements that a write puts at its offset. -/
theorem getElem?_overwrite (zero : α) (c : List α) (off : Nat) (bs : List α) {i : Nat}
    (h : i < bs.length) : (overwrite zero c off bs)[off + i]? = bs[i]? := by
  have hpad : ((c ++ List.replicate (off - c.length) zero).take off).length = off := by
    simp only [List.length_take, List.length_append, List.length_replicate]
    omega
  rw [overwrite, List.append_assoc, List.getElem?_append_right (by omega), hpad,
    Nat.add_sub_cancel_left, List.getElem?_append_left h]

/-- A write at the end or beyond it pads and appends. -/
theorem overwrite_of_le (zero : α) {c : List α} {off : Nat} (bs : List α) (h : c.length ≤ off) :
    overwrite zero c off bs = c ++ List.replicate (off - c.length) zero ++ bs := by
  rw [overwrite, List.drop_eq_nil_of_le (by omega), List.append_nil, List.take_of_length_le]
  simp
  omega

/-- A write inside the content replaces what it covers. -/
theorem overwrite_of_lt (zero : α) {c : List α} {off : Nat} (bs : List α) (h : off ≤ c.length) :
    overwrite zero c off bs = c.take off ++ bs ++ c.drop (off + bs.length) := by
  rw [overwrite, List.take_append_of_le_length h]

/-- Reading back what was written. -/
theorem slice_overwrite (zero : α) (c : List α) (off : Nat) (bs : List α) :
    slice (overwrite zero c off bs) off bs.length = bs := by
  refine List.ext_getElem? fun i => ?_
  by_cases hi : i < bs.length
  · rw [getElem?_slice _ _ _ hi, getElem?_overwrite _ _ _ _ hi]
  · rw [List.getElem?_eq_none (by simp; omega), List.getElem?_eq_none (by omega)]

end Content
