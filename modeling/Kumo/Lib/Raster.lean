import Kumo.Lib.Access

/-!
# Rows of cells in memory

A raster is an array of rows in a 32-bit address space. A row has cells of a few bytes, least
significant first, and may end with padding. `encode` lays the values of the cells out in a
memory, `decode` reads them back, and a store to one cell changes the value of that cell.
-/

namespace Memory

variable {m : Memory} {p v n k a : Nat}

/-- Store the `n` low bytes of `v`, least significant first, from a pointer on that wraps
around. -/
def storeLow (m : Memory) (p v : Nat) : Nat → Memory
  | 0 => m
  | n + 1 => (storeLow m p v n).store8 (add32 p n) (BitVec.ofNat 8 (v / 2 ^ (8 * n)))

/-- The value of the `n` bytes from a pointer on that wraps around. -/
def loadLow (m : Memory) (p : Nat) : Nat → Nat
  | 0 => 0
  | n + 1 => loadLow m p n + 2 ^ (8 * n) * (m (add32 p n)).toNat

/-- The distance of an address from a pointer. -/
theorem add32_eq_iff (hk : k < 2 ^ 32) : add32 p k = a ↔ a < 2 ^ 32 ∧ sub32 a p = k := by
  unfold add32 sub32
  omega

/-- The bytes after a store. -/
theorem storeLow_apply (hn : n ≤ 2 ^ 32) (m : Memory) (p v a : Nat) :
    storeLow m p v n a =
      if a < 2 ^ 32 ∧ sub32 a p < n then BitVec.ofNat 8 (v / 2 ^ (8 * sub32 a p)) else m a := by
  induction n with
  | zero => rw [storeLow, if_neg (by omega)]
  | succ n ih =>
      have hiff := add32_eq_iff (p := p) (a := a) (k := n) (by omega)
      rw [storeLow]
      by_cases hsame : add32 p n = a
      · obtain ⟨ha, hdist⟩ := hiff.mp hsame
        rw [if_pos ⟨ha, by omega⟩, hdist, ← hsame, store8, Function.update_self]
      · have hne : ¬ (a < 2 ^ 32 ∧ sub32 a p = n) := fun h => hsame (hiff.mpr h)
        rw [store8_other (fun h => hsame h.symm), ih (by omega)]
        by_cases hin : a < 2 ^ 32 ∧ sub32 a p < n
        · rw [if_pos hin, if_pos (by omega)]
        · rw [if_neg hin, if_neg (by omega)]

/-- A load reads the value whose bytes are there. -/
theorem loadLow_eq (h : ∀ k < n, m (add32 p k) = BitVec.ofNat 8 (v / 2 ^ (8 * k))) :
    loadLow m p n = v % 2 ^ (8 * n) := by
  induction n with
  | zero => rw [loadLow, Nat.mul_zero, Nat.pow_zero, Nat.mod_one]
  | succ n ih =>
      rw [loadLow, ih fun k hk => h k (by omega), h n (Nat.lt_succ_self n), BitVec.toNat_ofNat,
        Nat.mul_succ, Nat.pow_add, Nat.mod_mul]

theorem loadLow_lt (m : Memory) (p n : Nat) : loadLow m p n < 2 ^ (8 * n) := by
  induction n with
  | zero => exact Nat.one_pos
  | succ n ih =>
      have hbyte := (m (add32 p n)).isLt
      have hmul : 2 ^ (8 * n) * (m (add32 p n)).toNat ≤ 2 ^ (8 * n) * (2 ^ 8 - 1) :=
        Nat.mul_le_mul_left _ (by omega)
      rw [loadLow, Nat.mul_succ, Nat.pow_add]
      omega

/-- The bytes of a loaded value are the bytes in memory. -/
theorem byte_loadLow (hk : k < n) :
    BitVec.ofNat 8 (loadLow m p n / 2 ^ (8 * k)) = m (add32 p k) := by
  induction n with
  | zero => omega
  | succ n ih =>
      rcases Nat.lt_succ_iff_lt_or_eq.mp hk with hlt | rfl
      · -- the new byte is a multiple of the byte that is read
        obtain ⟨d, rfl⟩ := Nat.exists_eq_add_of_lt hlt
        have hpow : 2 ^ (8 * (k + d + 1)) = 2 ^ (8 * k) * (2 ^ (8 * d) * 2 ^ 8) := by
          rw [← Nat.pow_add, ← Nat.pow_add]
          congr 1
          omega
        rw [loadLow, hpow, Nat.mul_assoc, Nat.add_mul_div_left _ _ (Nat.two_pow_pos _), ← ih hlt]
        refine BitVec.eq_of_toNat_eq ?_
        rw [BitVec.toNat_ofNat, BitVec.toNat_ofNat, Nat.mul_right_comm, Nat.add_mul_mod_self_right]
      · rw [loadLow, Nat.add_mul_div_left _ _ (Nat.two_pow_pos _),
          Nat.div_eq_of_lt (loadLow_lt m p k), Nat.zero_add, BitVec.ofNat_toNat, BitVec.setWidth_eq]

/-- The low bytes of a value are those of the value. -/
theorem byte_mod (hk : k < n) (v : Nat) :
    BitVec.ofNat 8 (v % 2 ^ (8 * n) / 2 ^ (8 * k)) = BitVec.ofNat 8 (v / 2 ^ (8 * k)) := by
  obtain ⟨d, rfl⟩ := Nat.exists_eq_add_of_lt hk
  have hpow : 2 ^ (8 * (k + d + 1)) = 2 ^ (8 * k) * (2 ^ 8 * 2 ^ (8 * d)) := by
    rw [← Nat.pow_add, ← Nat.pow_add]
    congr 1
    omega
  refine BitVec.eq_of_toNat_eq ?_
  rw [BitVec.toNat_ofNat, BitVec.toNat_ofNat, hpow, Nat.mod_mul_right_div_self,
    Nat.mod_mul_right_mod]

/-- A load depends only on its bytes. -/
theorem loadLow_congr {m' : Memory} (h : ∀ k < n, m' (add32 p k) = m (add32 p k)) :
    loadLow m' p n = loadLow m p n := by
  induction n with
  | zero => rfl
  | succ n ih =>
      rw [loadLow, loadLow, ih fun k hk => h k (by omega), h n (Nat.lt_succ_self n)]

end Memory

/-- An array of rows of cells, each of `bytes` bytes, from the address `base` on. -/
structure Raster where
  base : Nat
  pitch : Nat
  width : Nat
  height : Nat
  bytes : Nat
  bytes_pos : 0 < bytes
  row : width * bytes ≤ pitch
  fits : pitch * height ≤ 2 ^ 32

namespace Raster

open Memory

variable {r : Raster} {m : Memory} {x y k a : Nat} {s : Nat → Nat → Nat}

/-- The distance of a cell from the base. -/
def offset (r : Raster) (x y : Nat) : Nat := y * r.pitch + x * r.bytes

/-- The address of a cell. -/
def address (r : Raster) (x y : Nat) : Nat := add32 r.base (r.offset x y)

/-- A cell of the raster. -/
def Inside (r : Raster) (x y : Nat) : Prop := x < r.width ∧ y < r.height

/-- The cell that an address belongs to, and which of its bytes the address is. -/
def cellAt (r : Raster) (a : Nat) : Option (Nat × Nat × Nat) :=
  let o := sub32 a r.base
  if a < 2 ^ 32 ∧ o % r.pitch / r.bytes < r.width ∧ o / r.pitch < r.height then
    some (o % r.pitch / r.bytes, o / r.pitch, o % r.pitch % r.bytes)
  else none

/-- The memory `m` with the values of the cells laid out in it. -/
def encode (r : Raster) (m : Memory) (s : Nat → Nat → Nat) : Memory := fun a =>
  match r.cellAt a with
  | some (x, y, k) => BitVec.ofNat 8 (s x y / 2 ^ (8 * k))
  | none => m a

/-- The values of the cells in a memory. -/
def decode (r : Raster) (m : Memory) (x y : Nat) : Nat := loadLow m (r.address x y) r.bytes

/-- Where the bytes of a cell are in its row. -/
theorem inRow_lt (hx : x < r.width) (hk : k < r.bytes) : x * r.bytes + k < r.pitch := by
  have hcell : (x + 1) * r.bytes ≤ r.width * r.bytes := Nat.mul_le_mul_right _ hx
  have hrow := r.row
  rw [Nat.succ_mul] at hcell
  omega

theorem offset_lt (h : r.Inside x y) (hk : k < r.bytes) :
    r.offset x y + k < r.pitch * r.height := by
  have hin := inRow_lt h.1 hk
  have hrows : (y + 1) * r.pitch ≤ r.height * r.pitch := Nat.mul_le_mul_right _ h.2
  rw [Nat.succ_mul, Nat.mul_comm r.height] at hrows
  rw [offset]
  omega

/-- An address is a byte of a cell just if it is the cell's address and some bytes. -/
theorem cellAt_eq_some_iff :
    r.cellAt a = some (x, y, k) ↔
      (r.Inside x y ∧ k < r.bytes) ∧ a = add32 r.base (r.offset x y + k) := by
  unfold cellAt
  dsimp only
  constructor
  · intro h
    split at h
    · next hin =>
        obtain ⟨ha, hx, hy⟩ := hin
        obtain ⟨rfl, rest⟩ := Prod.mk.inj (Option.some.inj h)
        obtain ⟨rfl, rfl⟩ := Prod.mk.inj rest
        refine ⟨⟨⟨hx, hy⟩, Nat.mod_lt _ r.bytes_pos⟩, ?_⟩
        have hrow := Nat.div_add_mod (sub32 a r.base) r.pitch
        have hcell := Nat.div_add_mod (sub32 a r.base % r.pitch) r.bytes
        have hdist : r.offset (sub32 a r.base % r.pitch / r.bytes) (sub32 a r.base / r.pitch) +
            sub32 a r.base % r.pitch % r.bytes = sub32 a r.base := by
          rw [offset, Nat.mul_comm _ r.pitch, Nat.mul_comm _ r.bytes]
          omega
        rw [hdist]
        exact ((add32_eq_iff (Nat.mod_lt _ (Nat.two_pow_pos 32))).mpr ⟨ha, rfl⟩).symm
    · cases h
  · rintro ⟨⟨hin, hk⟩, rfl⟩
    have hlt := Nat.lt_of_lt_of_le (offset_lt hin hk) r.fits
    have hdist := ((add32_eq_iff (p := r.base) hlt).mp rfl).2
    have hrow : x * r.bytes + k < r.pitch := inRow_lt hin.1 hk
    rw [hdist, offset, Nat.add_assoc, Nat.mul_comm y, Nat.mul_add_div (by omega),
      Nat.mul_add_mod, Nat.div_eq_of_lt hrow, Nat.mod_eq_of_lt hrow, Nat.add_zero,
      Nat.mul_comm x, Nat.mul_add_div r.bytes_pos, Nat.mul_add_mod, Nat.div_eq_of_lt hk,
      Nat.mod_eq_of_lt hk, Nat.add_zero, if_pos ⟨add32_lt _ _, hin.1, hin.2⟩]

/-- The bytes of a cell. -/
theorem cellAt_address (h : r.Inside x y) (hk : k < r.bytes) :
    r.cellAt (add32 (r.address x y) k) = some (x, y, k) :=
  cellAt_eq_some_iff.mpr ⟨⟨h, hk⟩, by rw [address, add32_add]⟩

theorem bytes_le (h : r.Inside x y) : r.bytes ≤ 2 ^ 32 := by
  have hlast : r.offset x y + (r.bytes - 1) < r.pitch * r.height :=
    offset_lt h (Nat.sub_one_lt_of_lt r.bytes_pos)
  have hfits := r.fits
  omega

theorem encode_address (h : r.Inside x y) (hk : k < r.bytes) :
    r.encode m s (add32 (r.address x y) k) = BitVec.ofNat 8 (s x y / 2 ^ (8 * k)) := by
  rw [encode, cellAt_address h hk]

/-- An address outside the rows belongs to no cell. -/
theorem cellAt_outside (h : ∀ i < r.pitch * r.height, a ≠ add32 r.base i) : r.cellAt a = none := by
  cases hcell : r.cellAt a with
  | none => rfl
  | some cell =>
      obtain ⟨⟨hin, hk⟩, ha⟩ := cellAt_eq_some_iff.mp hcell
      exact absurd ha (h _ (offset_lt hin hk))

/-- The padding and everything outside the rows keeps its bytes. -/
theorem encode_outside (h : r.cellAt a = none) : r.encode m s a = m a := by
  rw [encode, h]

/-- Every memory lays out the values that are read from it. -/
theorem encode_decode (r : Raster) (m : Memory) : r.encode m (r.decode m) = m := by
  funext a
  cases hcell : r.cellAt a with
  | none => exact encode_outside hcell
  | some cell =>
      obtain ⟨x, y, k⟩ := cell
      obtain ⟨⟨hin, hk⟩, rfl⟩ := cellAt_eq_some_iff.mp hcell
      rw [encode, hcell]
      dsimp only
      rw [decode, byte_loadLow hk, address, add32_add]

/-- What is laid out is read back, as far as it fits into a cell. -/
theorem decode_encode (h : r.Inside x y) :
    r.decode (r.encode m s) x y = s x y % 2 ^ (8 * r.bytes) :=
  loadLow_eq fun _ hk => encode_address h hk

/-- Two layouts agree if the cells do. -/
theorem encode_congr {s' : Nat → Nat → Nat} (h : ∀ x y, r.Inside x y → s x y = s' x y) :
    r.encode m s = r.encode m s' := by
  funext a
  cases hcell : r.cellAt a with
  | none => rw [encode_outside hcell, encode_outside hcell]
  | some cell =>
      obtain ⟨⟨hin, -⟩, -⟩ := cellAt_eq_some_iff.mp hcell
      rw [encode, encode, hcell]
      dsimp only
      rw [h _ _ hin]

/-- A store to a cell changes the value of that cell. -/
theorem storeLow_encode (h : r.Inside x y) (m : Memory) (s : Nat → Nat → Nat) (v : Nat) :
    storeLow (r.encode m s) (r.address x y) v r.bytes =
      r.encode m (Function.update s x (Function.update (s x) y (v % 2 ^ (8 * r.bytes)))) := by
  funext a
  rw [storeLow_apply (bytes_le h)]
  split
  · next hin =>
      have ha := (add32_eq_iff (Nat.lt_of_lt_of_le hin.2 (bytes_le h))).mpr ⟨hin.1, rfl⟩
      generalize sub32 a (r.address x y) = k at *
      subst ha
      rw [encode_address h hin.2, Function.update_self, Function.update_self,
        byte_mod hin.2]
  · next hout =>
      cases hcell : r.cellAt a with
      | none => rw [encode_outside hcell, encode_outside hcell]
      | some cell =>
          obtain ⟨x', y', k⟩ := cell
          obtain ⟨⟨hin, hk⟩, ha⟩ := cellAt_eq_some_iff.mp hcell
          have hother : ¬ (x' = x ∧ y' = y) := by
            rintro ⟨rfl, rfl⟩
            rw [← add32_add] at ha
            have hdist := (add32_eq_iff (Nat.lt_of_lt_of_le hk (bytes_le h))).mp ha.symm
            exact hout ⟨hdist.1, hdist.2 ▸ hk⟩
          rw [encode, encode, hcell]
          dsimp only
          congr 2
          by_cases hx : x' = x
          · subst hx
            rw [Function.update_self, Function.update_of_ne fun hy => hother ⟨rfl, hy⟩]
          · rw [Function.update_of_ne hx]

end Raster
