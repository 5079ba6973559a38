import Kumo.Lib.Memory

/-!
# Runs of bytes in memory

`bytesAt m p n` is the list of the `n` bytes from `p` on. The writers are the loops of
byte-wise C code: store a list, clear a range, copy from one range to another. Each has
its frame rule, and the value rules say what `bytesAt` reads afterwards.
-/

namespace Memory

variable {m m' : Memory} {p q n k : Nat} {bs cs : List (BitVec 8)}

/-- The bytes at `p, …, p + n - 1`. -/
def bytesAt (m : Memory) (p : Nat) : Nat → List (BitVec 8)
  | 0 => []
  | n + 1 => m p :: bytesAt m (p + 1) n

/-- Store a list of bytes from `p` on. -/
def storeBytes (m : Memory) (p : Nat) : List (BitVec 8) → Memory
  | [] => m
  | b :: bs => storeBytes (m.store8 p b) (p + 1) bs

/-- Clear `n` bytes from `p` on. -/
def clearBytes (m : Memory) (p : Nat) : Nat → Memory
  | 0 => m
  | n + 1 => clearBytes (m.store8 p 0) (p + 1) n

/-- Copy `n` bytes, one after the other, from `src` to `dst`. -/
def copyBytes (m : Memory) (dst src : Nat) : Nat → Memory
  | 0 => m
  | n + 1 => copyBytes (m.store8 dst (m src)) (dst + 1) (src + 1) n

@[simp] theorem length_bytesAt (m : Memory) (p n : Nat) : (bytesAt m p n).length = n := by
  induction n generalizing p with
  | zero => rfl
  | succ n ih => rw [bytesAt, List.length_cons, ih]

/-- The bytes read depend on those addresses only. -/
theorem bytesAt_congr (h : ∀ x, p ≤ x → x < p + n → m' x = m x) :
    bytesAt m' p n = bytesAt m p n := by
  induction n generalizing p with
  | zero => rfl
  | succ n ih =>
      rw [bytesAt, bytesAt, h p (by omega) (by omega), ih fun x h1 h2 => h x (by omega) (by omega)]

/-- Adjacent ranges. -/
theorem bytesAt_add (m : Memory) (p n k : Nat) :
    bytesAt m p (n + k) = bytesAt m p n ++ bytesAt m (p + n) k := by
  induction n generalizing p with
  | zero => rw [Nat.zero_add]; rfl
  | succ n ih =>
      rw [Nat.add_right_comm, bytesAt, ih, bytesAt, List.cons_append, Nat.add_assoc,
        Nat.add_comm 1 n]

theorem drop_bytesAt (m : Memory) (p : Nat) (h : k ≤ n) :
    (bytesAt m p n).drop k = bytesAt m (p + k) (n - k) := by
  rw [← Nat.add_sub_cancel' h, bytesAt_add, List.drop_left' (length_bytesAt m p k),
    Nat.add_sub_cancel_left]

theorem take_bytesAt (m : Memory) (p n k : Nat) :
    (bytesAt m p n).take k = bytesAt m p (min k n) := by
  rcases Nat.le_total n k with h | h
  · rw [Nat.min_eq_right h, List.take_of_length_le (by rw [length_bytesAt]; exact h)]
  · rw [Nat.min_eq_left h, ← Nat.add_sub_cancel' h, bytesAt_add,
      List.take_left' (length_bytesAt m p k)]

/-- One of the bytes read. -/
theorem getElem_bytesAt (m : Memory) (p : Nat) {i : Nat} (h : i < (bytesAt m p n).length) :
    (bytesAt m p n)[i] = m (p + i) := by
  induction n generalizing p i with
  | zero => simp at h
  | succ n ih =>
      simp only [bytesAt]
      cases i with
      | zero => rfl
      | succ i =>
          rw [List.getElem_cons_succ, ih (p + 1)]
          congr 1
          omega

theorem map_range_eq_bytesAt (m : Memory) (p n : Nat) :
    ((List.range n).map fun i => m (p + i)) = bytesAt m p n := by
  refine List.ext_getElem (by simp) fun i h1 h2 => ?_
  rw [getElem_bytesAt, List.getElem_map, List.getElem_range]

/-! ## Frames -/

theorem storeBytes_outside {x : Nat} (h : x < p ∨ p + bs.length ≤ x) :
    storeBytes m p bs x = m x := by
  induction bs generalizing m p with
  | nil => rfl
  | cons b bs ih =>
      simp only [List.length_cons] at h
      rw [storeBytes, ih (by omega), store8_other (by omega)]

theorem clearBytes_outside {x : Nat} (h : x < p ∨ p + n ≤ x) : clearBytes m p n x = m x := by
  induction n generalizing m p with
  | zero => rfl
  | succ n ih => rw [clearBytes, ih (by omega), store8_other (by omega)]

theorem copyBytes_outside {x : Nat} (h : x < p ∨ p + n ≤ x) : copyBytes m p q n x = m x := by
  induction n generalizing m p q with
  | zero => rfl
  | succ n ih => rw [copyBytes, ih (by omega), store8_other (by omega)]

/-! ## What is read back -/

/-- Reading back what was stored. -/
theorem bytesAt_storeBytes (m : Memory) (p : Nat) (bs : List (BitVec 8)) :
    bytesAt (storeBytes m p bs) p bs.length = bs := by
  induction bs generalizing m p with
  | nil => rfl
  | cons b bs ih =>
      rw [List.length_cons, bytesAt, storeBytes, ih, storeBytes_outside (by omega), store8,
        Function.update_self]

theorem bytesAt_clearBytes (m : Memory) (p n : Nat) :
    bytesAt (clearBytes m p n) p n = List.replicate n 0 := by
  induction n generalizing m p with
  | zero => rfl
  | succ n ih =>
      rw [bytesAt, clearBytes, ih, clearBytes_outside (by omega), store8, Function.update_self,
        List.replicate_succ]

/-- A copy between ranges that do not overlap. -/
theorem bytesAt_copyBytes (h : p + n ≤ q ∨ q + n ≤ p) :
    bytesAt (copyBytes m p q n) p n = bytesAt m q n := by
  induction n generalizing m p q with
  | zero => rfl
  | succ n ih =>
      rw [bytesAt, copyBytes, ih (by omega), copyBytes_outside (by omega), store8,
        Function.update_self, bytesAt]
      congr 1
      exact bytesAt_congr fun x h1 h2 => store8_other (by omega)

/-- One of the bytes that were copied between ranges that do not overlap. -/
theorem copyBytes_inside {x : Nat} (hdisj : p + n ≤ q ∨ q + n ≤ p) (h1 : p ≤ x) (h2 : x < p + n) :
    copyBytes m p q n x = m (q + (x - p)) := by
  have hcopy := bytesAt_copyBytes (m := m) hdisj
  have hi : x - p < (bytesAt (copyBytes m p q n) p n).length := by
    rw [length_bytesAt]
    omega
  have hbyte := getElem_bytesAt (copyBytes m p q n) p hi
  simp only [hcopy, getElem_bytesAt] at hbyte
  rw [hbyte, Nat.add_sub_cancel' h1]

theorem clearBytes_inside {x : Nat} (h1 : p ≤ x) (h2 : x < p + n) : clearBytes m p n x = 0 := by
  have hi : x - p < (bytesAt (clearBytes m p n) p n).length := by
    rw [length_bytesAt]
    omega
  have hbyte := getElem_bytesAt (clearBytes m p n) p hi
  simp only [bytesAt_clearBytes, List.getElem_replicate] at hbyte
  rw [hbyte, Nat.add_sub_cancel' h1]

/-- Two memories with the same bytes in a range. -/
theorem bytesAt_eq_iff :
    bytesAt m' p n = bytesAt m p n ↔ ∀ x, p ≤ x → x < p + n → m' x = m x := by
  refine ⟨fun h x h1 h2 => ?_, bytesAt_congr⟩
  have hi : x - p < (bytesAt m' p n).length := by
    rw [length_bytesAt]
    omega
  have hbyte := getElem_bytesAt m' p hi
  simp only [h, getElem_bytesAt, Nat.add_sub_cancel' h1] at hbyte
  exact hbyte.symm

/-- Storing inside a range replaces what the bytes cover. -/
theorem bytesAt_storeBytes_inside (m : Memory) (p n k : Nat) (bs : List (BitVec 8))
    (h : k + bs.length ≤ n) :
    bytesAt (storeBytes m (p + k) bs) p n =
      (bytesAt m p n).take k ++ bs ++ (bytesAt m p n).drop (k + bs.length) := by
  obtain ⟨r, rfl⟩ := Nat.exists_eq_add_of_le h
  rw [take_bytesAt, Nat.min_eq_left (by omega), drop_bytesAt _ _ h, Nat.add_sub_cancel_left,
    bytesAt_add, bytesAt_add, bytesAt_storeBytes]
  congr 1
  · congr 1
    exact bytesAt_congr fun x _ h2 => storeBytes_outside (by omega)
  · exact bytesAt_congr fun x h1 _ => storeBytes_outside (by omega)

/-- A range filled by a copy from elsewhere and zeros after it. -/
theorem bytesAt_copy_clear (m : Memory) (p q n k : Nat) (h : p + n ≤ q ∨ q + n ≤ p) :
    bytesAt (clearBytes (copyBytes m p q n) (p + n) k) p (n + k) =
      bytesAt m q n ++ List.replicate k 0 := by
  rw [bytesAt_add, bytesAt_clearBytes,
    bytesAt_congr fun x _ h2 => clearBytes_outside (by omega), bytesAt_copyBytes h]

end Memory
