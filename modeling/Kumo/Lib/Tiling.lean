import Mathlib.Logic.Function.Basic
import Mathlib.Tactic.Common

/-!
# Tilings of a set of addresses by intervals

A tiling assigns a length to the start of each of its tiles. `Covers S tiles` says
that the tiles are pairwise disjoint, lie inside `S` and together cover `S`, so that
every address of `S` belongs to exactly one tile. The operations are the ones a
memory allocator performs: cut a tile in two, join two adjacent tiles, and add a
fresh tile.
-/

/-- A set of tiles: the length of the tile that starts at an address, if any. -/
abbrev Tiles := Nat → Option Nat

namespace Tiles

/-- Address `x` lies in the tile that starts at `a`. -/
def Mem (tiles : Tiles) (a x : Nat) : Prop := ∃ n, tiles a = some n ∧ a ≤ x ∧ x < a + n

/-- The tiles partition `S`. -/
structure Covers (S : Nat → Prop) (tiles : Tiles) : Prop where
  pos : ∀ a n, tiles a = some n → 0 < n
  disjoint : ∀ a n b m, tiles a = some n → tiles b = some m → a < b → a + n ≤ b
  inside : ∀ a x, tiles.Mem a x → S x
  cover : ∀ x, S x → ∃ a, tiles.Mem a x

/-- Cut the tile at `a`, of length `n`, after `k`. -/
def split (tiles : Tiles) (a n k : Nat) : Tiles :=
  Function.update (Function.update tiles (a + k) (some (n - k))) a (some k)

/-- Let the tile at `a` absorb the tile at `b`; the result has length `n`. -/
def merge (tiles : Tiles) (a b n : Nat) : Tiles :=
  Function.update (Function.update tiles b none) a (some n)

/-- Add a tile. -/
def add (tiles : Tiles) (a n : Nat) : Tiles := Function.update tiles a (some n)

variable {S : Nat → Prop} {tiles : Tiles}

/-- A partition of a set is a partition of any description of the same set. -/
theorem Covers.congr {S' : Nat → Prop} (h : Covers S tiles) (hiff : ∀ x, S x ↔ S' x) :
    Covers S' tiles := by
  have heq : S = S' := funext fun x => propext (hiff x)
  exact heq ▸ h

/-- An address lies in at most one tile. -/
theorem Covers.unique (h : Covers S tiles) {a b x : Nat} (ha : tiles.Mem a x)
    (hb : tiles.Mem b x) : a = b := by
  obtain ⟨n, hn, hax, hxn⟩ := ha
  obtain ⟨m, hm, hbx, hxm⟩ := hb
  rcases Nat.lt_trichotomy a b with hlt | heq | hgt
  · have := h.disjoint a n b m hn hm hlt
    omega
  · exact heq
  · have := h.disjoint b m a n hm hn hgt
    omega

theorem Covers.start_mem (h : Covers S tiles) {a n : Nat} (ha : tiles a = some n) :
    tiles.Mem a a :=
  ⟨n, ha, Nat.le_refl a, by have := h.pos a n ha; omega⟩

/-- The end of a tile is the start of the next one, unless it lies outside the set. -/
theorem Covers.next_start (h : Covers S tiles) {a n : Nat} (ha : tiles a = some n)
    (hend : S (a + n)) : ∃ m, tiles (a + n) = some m := by
  obtain ⟨b, m, hb, hle, hlt⟩ := h.cover (a + n) hend
  rcases Nat.lt_trichotomy b (a + n) with hbefore | rfl | hafter
  · -- the byte before the end would lie in two tiles
    have hpos := h.pos a n ha
    have hab : a = b := h.unique (x := a + n - 1) ⟨n, ha, by omega, by omega⟩
      ⟨m, hb, by omega, by omega⟩
    subst hab
    rw [ha] at hb
    obtain rfl := Option.some.inj hb
    omega
  · exact ⟨m, hb⟩
  · omega

/-- A tile that starts before another one ends before it starts. -/
theorem Covers.end_le (h : Covers S tiles) {a n b : Nat} (ha : tiles a = some n)
    (hb : (tiles b).isSome) (hlt : a < b) : a + n ≤ b := by
  obtain ⟨m, hm⟩ := Option.isSome_iff_exists.mp hb
  exact h.disjoint a n b m ha hm hlt

theorem split_apply (tiles : Tiles) (a n k x : Nat) :
    tiles.split a n k x =
      if x = a then some k else if x = a + k then some (n - k) else tiles x := by
  simp only [split, Function.update_apply]

theorem merge_apply (tiles : Tiles) (a b n x : Nat) :
    tiles.merge a b n x = if x = a then some n else if x = b then none else tiles x := by
  simp only [merge, Function.update_apply]

theorem merge_self (tiles : Tiles) (a b n : Nat) : tiles.merge a b n a = some n := by
  rw [merge_apply, if_pos rfl]

theorem merge_other {tiles : Tiles} {a b n x : Nat} (ha : x ≠ a) (hb : x ≠ b) :
    tiles.merge a b n x = tiles x := by
  rw [merge_apply, if_neg ha, if_neg hb]

theorem add_apply (tiles : Tiles) (a n x : Nat) :
    tiles.add a n x = if x = a then some n else tiles x := by
  simp only [add, Function.update_apply]

/-- Wherever a tile starts, one still starts. -/
def StartsKept (tiles tiles' : Tiles) : Prop := ∀ a, (tiles a).isSome → (tiles' a).isSome

theorem StartsKept.refl (tiles : Tiles) : StartsKept tiles tiles := fun _ h => h

theorem StartsKept.trans {t1 t2 t3 : Tiles} (h1 : StartsKept t1 t2) (h2 : StartsKept t2 t3) :
    StartsKept t1 t3 := fun a h => h2 a (h1 a h)

theorem startsKept_split (tiles : Tiles) (a n k : Nat) :
    StartsKept tiles (tiles.split a n k) := by
  intro x hx
  rw [split_apply]
  split
  · rfl
  · split
    · rfl
    · exact hx

theorem startsKept_add (tiles : Tiles) (a n : Nat) : StartsKept tiles (tiles.add a n) := by
  intro x hx
  rw [add_apply]
  split
  · rfl
  · exact hx

/-- Merging two tiles takes away the start of the second one only. -/
theorem isSome_merge {tiles : Tiles} {a b n x : Nat} (hne : x ≠ b) (hx : (tiles x).isSome) :
    (tiles.merge a b n x).isSome := by
  rw [merge_apply, if_neg hne]
  split
  · rfl
  · exact hx

/-- Membership after a cut: the tile's addresses are shared out between its two halves. -/
theorem mem_split {a n k b x : Nat} (ha : tiles a = some n) (hk : 0 < k) (hkn : k < n) :
    (tiles.split a n k).Mem b x ↔
      (b = a ∧ a ≤ x ∧ x < a + k) ∨ (b = a + k ∧ a + k ≤ x ∧ x < a + n) ∨
        (b ≠ a ∧ b ≠ a + k ∧ tiles.Mem b x) := by
  unfold Mem
  rw [split_apply]
  by_cases h1 : b = a
  · subst h1
    have hk0 : k ≠ 0 := by omega
    simp [hk0]
  · by_cases h2 : b = a + k
    · subst h2
      have hk0 : k ≠ 0 := by omega
      simp [hk0]
      omega
    · simp [h1, h2]

/-- Cutting a tile keeps the partition. -/
theorem Covers.split (h : Covers S tiles) {a n k : Nat} (ha : tiles a = some n) (hk : 0 < k)
    (hkn : k < n) : Covers S (tiles.split a n k) := by
  -- no tile starts strictly inside the one that is cut
  have hnone : ∀ b m, tiles b = some m → b ≠ a → b + m ≤ a ∨ a + n ≤ b := by
    intro b m hb hne
    rcases Nat.lt_or_gt_of_ne hne with hlt | hgt
    · exact .inl (h.disjoint b m a n hb ha hlt)
    · exact .inr (h.disjoint a n b m ha hb hgt)
  constructor
  case pos =>
    intro b m hb
    rw [split_apply] at hb
    split at hb
    · obtain rfl := Option.some.inj hb
      exact hk
    · split at hb
      · obtain rfl := Option.some.inj hb
        omega
      · exact h.pos b m hb
  case disjoint =>
    intro b m c l hb hc hlt
    rw [split_apply] at hb hc
    split at hb <;> split at hc
    · omega
    · next hba hca =>
        obtain rfl := Option.some.inj hb
        subst hba
        split at hc
        · omega
        · have := hnone c l hc hca
          omega
    · next hba hca =>
        obtain rfl := Option.some.inj hc
        subst hca
        split at hb
        · omega
        · have := hnone b m hb hba
          have := h.pos b m hb
          omega
    · next hba hca =>
        split at hb <;> split at hc
        · omega
        · obtain rfl := Option.some.inj hb
          have := hnone c l hc hca
          have := h.pos c l hc
          omega
        · obtain rfl := Option.some.inj hc
          have := hnone b m hb hba
          have := h.pos b m hb
          omega
        · exact h.disjoint b m c l hb hc hlt
  case inside =>
    intro b x hx
    rcases (mem_split ha hk hkn).mp hx with ⟨_, h1, h2⟩ | ⟨_, h1, h2⟩ | ⟨_, _, hm⟩
    · exact h.inside a x ⟨n, ha, h1, by omega⟩
    · exact h.inside a x ⟨n, ha, by omega, h2⟩
    · exact h.inside b x hm
  case cover =>
    intro x hx
    obtain ⟨b, hb⟩ := h.cover x hx
    by_cases hba : b = a
    · subst hba
      obtain ⟨m, hm, h1, h2⟩ := hb
      obtain rfl := Option.some.inj (ha.symm.trans hm)
      by_cases hxk : x < b + k
      · exact ⟨b, (mem_split ha hk hkn).mpr (.inl ⟨rfl, h1, hxk⟩)⟩
      · exact ⟨b + k, (mem_split ha hk hkn).mpr (.inr (.inl ⟨rfl, by omega, h2⟩))⟩
    · refine ⟨b, (mem_split ha hk hkn).mpr (.inr (.inr ⟨hba, ?_, hb⟩))⟩
      rintro rfl
      obtain ⟨m, hm, h1, h2⟩ := hb
      have := hnone (a + k) m hm hba
      have := h.pos _ m hm
      omega

/-- Membership after a join: the absorbing tile takes over the addresses of the other one. -/
theorem mem_merge {a n m b x : Nat} (ha : tiles a = some n) (hb : tiles (a + n) = some m)
    (hn : 0 < n) : (tiles.merge a (a + n) (n + m)).Mem b x ↔
      (b = a ∧ (tiles.Mem a x ∨ tiles.Mem (a + n) x)) ∨
        (b ≠ a ∧ b ≠ a + n ∧ tiles.Mem b x) := by
  unfold Mem
  rw [merge_apply]
  by_cases h1 : b = a
  · subst h1
    simp [ha, hb]
    omega
  · by_cases h2 : b = a + n
    · subst h2
      simp [show n ≠ 0 by omega]
    · simp [h1, h2]

/-- Joining two adjacent tiles keeps the partition. -/
theorem Covers.merge (h : Covers S tiles) {a n m : Nat} (ha : tiles a = some n)
    (hb : tiles (a + n) = some m) : Covers S (tiles.merge a (a + n) (n + m)) := by
  have hn := h.pos a n ha
  constructor
  case pos =>
    intro c l hc
    rw [merge_apply] at hc
    split at hc
    · obtain rfl := Option.some.inj hc
      omega
    · split at hc
      · cases hc
      · exact h.pos c l hc
  case disjoint =>
    intro c l d k hc hd hlt
    rw [merge_apply] at hc hd
    split at hc <;> split at hd
    · omega
    · next hca hda =>
        obtain rfl := Option.some.inj hc
        subst hca
        split at hd
        · cases hd
        · next hdb =>
            have h1 := h.disjoint c n d k ha hd hlt
            have h2 := h.disjoint (c + n) m d k hb hd (by omega)
            omega
    · next hca hda =>
        subst hda
        split at hc
        · cases hc
        · exact h.disjoint c l d n hc ha hlt
    · split at hc
      · cases hc
      · split at hd
        · cases hd
        · exact h.disjoint c l d k hc hd hlt
  case inside =>
    intro c x hx
    rcases (mem_merge ha hb hn).mp hx with ⟨_, hm | hm⟩ | ⟨_, _, hm⟩
    · exact h.inside a x hm
    · exact h.inside (a + n) x hm
    · exact h.inside c x hm
  case cover =>
    intro x hx
    obtain ⟨c, hc⟩ := h.cover x hx
    by_cases hca : c = a
    · exact ⟨a, (mem_merge ha hb hn).mpr (.inl ⟨rfl, .inl (hca ▸ hc)⟩)⟩
    · by_cases hcb : c = a + n
      · exact ⟨a, (mem_merge ha hb hn).mpr (.inl ⟨rfl, .inr (hcb ▸ hc)⟩)⟩
      · exact ⟨c, (mem_merge ha hb hn).mpr (.inr ⟨hca, hcb, hc⟩)⟩

/-- Adding a tile on addresses outside the set extends the partition to them. -/
theorem Covers.add (h : Covers S tiles) {a n : Nat} (hn : 0 < n)
    (hfresh : ∀ x, a ≤ x → x < a + n → ¬ S x) :
    Covers (fun x => S x ∨ (a ≤ x ∧ x < a + n)) (tiles.add a n) := by
  have hsep : ∀ b m, tiles b = some m → b + m ≤ a ∨ a + n ≤ b := by
    intro b m hb
    by_contra hover
    have hpos := h.pos b m hb
    exact hfresh (max a b) (by omega) (by omega) (h.inside b _ ⟨m, hb, by omega, by omega⟩)
  have hnone : tiles a = none := by
    cases ha : tiles a with
    | none => rfl
    | some m =>
        have := h.pos a m ha
        have := hsep a m ha
        omega
  have hmem : ∀ b x, (tiles.add a n).Mem b x ↔ (b = a ∧ a ≤ x ∧ x < a + n) ∨ tiles.Mem b x := by
    intro b x
    unfold Mem
    rw [add_apply]
    by_cases hb : b = a
    · subst hb
      simp [hnone]
    · simp [hb]
  constructor
  case pos =>
    intro b m hb
    rw [add_apply] at hb
    split at hb
    · obtain rfl := Option.some.inj hb
      exact hn
    · exact h.pos b m hb
  case disjoint =>
    intro b m c l hb hc hlt
    rw [add_apply] at hb hc
    split at hb <;> split at hc
    · omega
    · obtain rfl := Option.some.inj hb
      have := hsep c l hc
      have := h.pos c l hc
      omega
    · obtain rfl := Option.some.inj hc
      have := hsep b m hb
      have := h.pos b m hb
      omega
    · exact h.disjoint b m c l hb hc hlt
  case inside =>
    intro b x hx
    rcases (hmem b x).mp hx with ⟨_, h1⟩ | h1
    · exact .inr h1
    · exact .inl (h.inside b x h1)
  case cover =>
    rintro x (hx | hx)
    · obtain ⟨b, hb⟩ := h.cover x hx
      exact ⟨b, (hmem b x).mpr (.inr hb)⟩
    · exact ⟨a, (hmem a x).mpr (.inl ⟨rfl, hx⟩)⟩

end Tiles
