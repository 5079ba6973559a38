import Kumo.Lib.Bytes

/-!
# Strings in memory

`HoldsAt m p s` says that an array or a memory holds the list `s` from the index `p` on. A string of
C is held with the NUL after it.
-/

variable {β : Type*} {m m' : Nat → β} {p q : Nat} {s t : List β} {b : β}

/-- The elements from `p` on are those of the list. -/
def HoldsAt (m : Nat → β) (p : Nat) (s : List β) : Prop := ∀ j (hj : j < s.length), m (p + j) = s[j]

theorem holdsAt_nil : HoldsAt m p [] := fun j hj => absurd hj (Nat.not_lt_zero j)

/-- The first element of a list, and the rest. -/
theorem holdsAt_cons : HoldsAt m p (b :: s) ↔ m p = b ∧ HoldsAt m (p + 1) s := by
  constructor
  · refine fun h => ⟨h 0 (Nat.succ_pos _), fun j hj => ?_⟩
    have hnext := h (j + 1) (Nat.succ_lt_succ hj)
    rwa [List.getElem_cons_succ, ← Nat.add_assoc, Nat.add_right_comm] at hnext
  · rintro ⟨hfirst, hrest⟩ j hj
    cases j with
    | zero => exact hfirst
    | succ j =>
        rw [List.getElem_cons_succ, ← hrest j (Nat.lt_of_succ_lt_succ hj), Nat.add_right_comm,
          Nat.add_assoc]

theorem holdsAt_singleton : HoldsAt m p [b] ↔ m p = b := by
  rw [holdsAt_cons, and_iff_left holdsAt_nil]

/-- Adjacent lists. -/
theorem holdsAt_append : HoldsAt m p (s ++ t) ↔ HoldsAt m p s ∧ HoldsAt m (p + s.length) t := by
  induction s generalizing p with
  | nil => exact ⟨fun h => ⟨holdsAt_nil, h⟩, fun h => h.2⟩
  | cons a s ih =>
      rw [List.cons_append, holdsAt_cons, holdsAt_cons, ih, List.length_cons, and_assoc,
        Nat.add_right_comm, Nat.add_assoc]

/-- What is held depends on those elements only. -/
theorem HoldsAt.congr (h : HoldsAt m p s) (hsame : ∀ x, p ≤ x → x < p + s.length → m' x = m x) :
    HoldsAt m' p s := by
  intro j hj
  rw [hsame (p + j) (by omega) (by omega), h j hj]

/-- An update outside the list. -/
theorem HoldsAt.update (h : HoldsAt m p s) (hq : q < p ∨ p + s.length ≤ q) (b : β) :
    HoldsAt (Function.update m q b) p s :=
  h.congr fun x hx hx' => Function.update_of_ne (by omega) b m

/-- An update at its end. -/
theorem HoldsAt.snoc (h : HoldsAt m p s) (b : β) :
    HoldsAt (Function.update m (p + s.length) b) p (s ++ [b]) :=
  holdsAt_append.mpr ⟨h.update (.inr (Nat.le_refl _)) b,
    holdsAt_singleton.mpr (Function.update_self ..)⟩

/-- The bytes of a string in memory. -/
theorem HoldsAt.bytesAt {m : Memory} {p : Nat} {s : List (BitVec 8)} (h : HoldsAt m p s) :
    Memory.bytesAt m p s.length = s := by
  refine List.ext_getElem (Memory.length_bytesAt m p _) fun i h1 h2 => ?_
  rw [Memory.getElem_bytesAt, h i h2]
