import Mathlib.Order.Bounds.Basic
import Mathlib.Order.Lattice

/-!
# Boxes of integer points

A box is given by its four edges; the right and the bottom one are excluded. Boxes are
ordered by inclusion of their edges. The supremum of two boxes is the smallest box
around both, so the bounding box of some boxes is their least upper bound.
-/

/-- The points `(x, y)` with `left ≤ x < right` and `top ≤ y < bottom`. -/
@[ext] structure IntBox where
  left : Int
  right : Int
  top : Int
  bottom : Int
  deriving DecidableEq

namespace IntBox

/-- A point is in the box. -/
def Contains (b : IntBox) (x y : Int) : Prop := b.left ≤ x ∧ x < b.right ∧ b.top ≤ y ∧ y < b.bottom

/-- The box contains a point. -/
def Nonempty (b : IntBox) : Prop := b.left < b.right ∧ b.top < b.bottom

instance (b : IntBox) (x y : Int) : Decidable (b.Contains x y) :=
  inferInstanceAs (Decidable (_ ∧ _ ∧ _ ∧ _))

instance (b : IntBox) : Decidable b.Nonempty := inferInstanceAs (Decidable (_ ∧ _))

instance : LE IntBox :=
  ⟨fun a b => b.left ≤ a.left ∧ a.right ≤ b.right ∧ b.top ≤ a.top ∧ a.bottom ≤ b.bottom⟩

theorem le_def {a b : IntBox} :
    a ≤ b ↔ b.left ≤ a.left ∧ a.right ≤ b.right ∧ b.top ≤ a.top ∧ a.bottom ≤ b.bottom := Iff.rfl

instance : PartialOrder IntBox where
  le_refl a := ⟨Int.le_refl _, Int.le_refl _, Int.le_refl _, Int.le_refl _⟩
  le_trans a b c hab hbc := by
    rw [le_def] at hab hbc ⊢
    omega
  le_antisymm a b hab hba := by
    rw [le_def] at hab hba
    ext <;> omega

instance : SemilatticeSup IntBox where
  sup a b := ⟨min a.left b.left, max a.right b.right, min a.top b.top, max a.bottom b.bottom⟩
  le_sup_left _ _ := ⟨Int.min_le_left _ _, Int.le_max_left _ _, Int.min_le_left _ _,
    Int.le_max_left _ _⟩
  le_sup_right _ _ := ⟨Int.min_le_right _ _, Int.le_max_right _ _, Int.min_le_right _ _,
    Int.le_max_right _ _⟩
  sup_le _ _ _ hac hbc := ⟨Int.le_min.mpr ⟨hac.1, hbc.1⟩, Int.max_le.mpr ⟨hac.2.1, hbc.2.1⟩,
    Int.le_min.mpr ⟨hac.2.2.1, hbc.2.2.1⟩, Int.max_le.mpr ⟨hac.2.2.2, hbc.2.2.2⟩⟩

theorem sup_def (a b : IntBox) :
    a ⊔ b = ⟨min a.left b.left, max a.right b.right, min a.top b.top, max a.bottom b.bottom⟩ := rfl

/-- The points common to two boxes. -/
def clip (a b : IntBox) : IntBox :=
  ⟨max a.left b.left, min a.right b.right, max a.top b.top, min a.bottom b.bottom⟩

theorem Contains.mono {a b : IntBox} (h : a ≤ b) {x y : Int} (hp : a.Contains x y) :
    b.Contains x y := by
  rw [le_def] at h
  unfold Contains at hp ⊢
  omega

theorem contains_clip {a b : IntBox} {x y : Int} :
    (a.clip b).Contains x y ↔ a.Contains x y ∧ b.Contains x y := by
  unfold Contains clip
  dsimp only
  omega

theorem clip_le_right (a b : IntBox) : a.clip b ≤ b := by
  rw [le_def, clip]
  dsimp only
  omega

theorem Contains.nonempty {b : IntBox} {x y : Int} (h : b.Contains x y) : b.Nonempty := by
  unfold Contains at h
  unfold Nonempty
  omega

theorem Nonempty.sup {a b : IntBox} (ha : a.Nonempty) : (a ⊔ b).Nonempty := by
  rw [sup_def]
  unfold Nonempty at ha ⊢
  dsimp only
  omega

end IntBox
