import Kumo.Gfx.LineLoop
import Kumo.Gfx.Paint

/-!
# The outline of a rectangle

A line along an axis that starts on the screen paints its pixels up to the edge of the screen,
and one that starts off the screen paints nothing. `draw_rect` draws the bottom side from right
to left and the left side upwards, so these two depend on the far corners.
-/

namespace Kumo

/-! ## Lines along an axis -/

/-- The loop of a line of `n` steps along an axis, from `a0`. -/
structure Flat (c : LineCourse) (a0 : Int) (n : Nat) : Prop where
  level : c.db = 0
  step : c.sa = 1 ∨ c.sa = -1 ∨ n = 0
  farEnd : c.a1 = wrap32 (a0 + c.sa * n)
  short : n < 2 ^ 31
  limits : c.limA ≤ 2 ^ 31 ∧ c.limB ≤ 2 ^ 31

namespace Flat

variable {c : LineCourse} {a0 b err : Int} {n k : Nat}

/-- The check of the loop, for a point in the range of both coordinates. -/
theorem offScreen_iff (h : Flat c a0 n) {s : LinePoint} (ha : -2 ^ 31 ≤ s.a ∧ s.a < 2 ^ 31)
    (hb : 0 ≤ s.b ∧ s.b < c.limB) : c.OffScreen s ↔ ¬ (0 ≤ s.a ∧ s.a < c.limA) := by
  have := h.limits
  unfold LineCourse.OffScreen word
  omega

/-- The last round. -/
theorem round_last (h : Flat c a0 n) (ha : 0 ≤ a0 + c.sa * n ∧ a0 + c.sa * n < c.limA) :
    c.round ⟨a0 + c.sa * n, b, err⟩ = none := by
  have hlim := h.limits
  have hend : a0 + c.sa * n = c.a1 := by
    rw [h.farEnd, wrap32_eq (by omega) (by omega)]
  rw [LineCourse.round, if_pos hend, ite_self]

/-- A round before the last one. -/
theorem round_next (h : Flat c a0 n) (hk : k < n)
    (ha : 0 ≤ a0 + c.sa * k ∧ a0 + c.sa * k < c.limA) (hb : 0 ≤ b ∧ b < c.limB)
    (herr : 0 ≤ err ∧ err < 2 ^ 31) :
    c.round ⟨a0 + c.sa * k, b, err⟩ = some ⟨wrap32 (a0 + c.sa * (k + 1 : Nat)), b, err⟩ := by
  have hlim := h.limits
  have hshort := h.short
  have hon : ¬ c.OffScreen ⟨a0 + c.sa * k, b, err⟩ := by
    have hlow : -2 ^ 31 ≤ a0 + c.sa * k ∧ a0 + c.sa * k < 2 ^ 31 := by omega
    exact fun hoff => (h.offScreen_iff hlow hb).mp hoff ha
  have hne : a0 + c.sa * k ≠ c.a1 := by
    rw [h.farEnd]
    rcases h.step with hs | hs | hs
    · rw [hs] at ha ⊢
      unfold wrap32
      omega
    · rw [hs] at ha ⊢
      unfold wrap32
      omega
    · omega
  have hnext : a0 + c.sa * k + c.sa = a0 + c.sa * (k + 1 : Nat) := by
    rw [Int.natCast_add, Int.mul_add]
    omega
  rw [LineCourse.round, if_neg hon, if_neg hne, h.level]
  dsimp only
  rw [Int.sub_zero, wrap32_eq (z := err) (by omega) herr.2, if_neg (by omega), hnext]

/-- A line that begins off the screen has no pixels. -/
theorem strokes_offScreen {s : LinePoint} (hoff : c.OffScreen s) (color fuel : Nat) :
    c.strokes color fuel s = [] := by
  cases fuel with
  | zero => rfl
  | succ fuel => rw [LineCourse.strokes_succ, if_pos hoff]

/-- Beyond a point off the screen there are only points off the screen. -/
theorem leaves_screen (h : Flat c a0 n) {j : Nat} (hkj : k < j) (hj : j ≤ n)
    (ha : 0 ≤ a0 + c.sa * k ∧ a0 + c.sa * k < c.limA)
    (haj : 0 ≤ a0 + c.sa * j ∧ a0 + c.sa * j < c.limA) :
    0 ≤ a0 + c.sa * (k + 1 : Nat) ∧ a0 + c.sa * (k + 1 : Nat) < c.limA := by
  rcases h.step with hs | hs | hs
  · rw [hs] at ha haj ⊢
    omega
  · rw [hs] at ha haj ⊢
    omega
  · omega

/-- From a point of the screen the line visits what is ahead on the screen, up to its end. -/
theorem mem_strokes (h : Flat c a0 n) (color : Nat) {fuel : Nat} (hk : k ≤ n)
    (ha : 0 ≤ a0 + c.sa * k ∧ a0 + c.sa * k < c.limA) (hb : 0 ≤ b ∧ b < c.limB)
    (herr : 0 ≤ err ∧ err < 2 ^ 31) (hfuel : c.ahead ⟨a0 + c.sa * k, b, err⟩ < fuel) (p : Stroke) :
    p ∈ c.strokes color fuel ⟨a0 + c.sa * k, b, err⟩ ↔
      ∃ j : Nat, (k ≤ j ∧ j ≤ n) ∧ (0 ≤ a0 + c.sa * j ∧ a0 + c.sa * j < c.limA) ∧
        p = c.plot color (a0 + c.sa * j).toNat b.toNat := by
  have hlim := h.limits
  induction fuel generalizing k with
  | zero => omega
  | succ fuel ih =>
      have hlow : -2 ^ 31 ≤ a0 + c.sa * k ∧ a0 + c.sa * k < 2 ^ 31 := by omega
      have hon : ¬ c.OffScreen ⟨a0 + c.sa * k, b, err⟩ :=
        fun hoff => (h.offScreen_iff hlow hb).mp hoff ha
      have hwa : word (a0 + c.sa * k) = (a0 + c.sa * k).toNat := by
        unfold word
        omega
      have hwb : word b = b.toNat := by
        unfold word
        omega
      rw [LineCourse.strokes_succ, if_neg hon, List.mem_cons]
      dsimp only
      rw [hwa, hwb]
      rcases Nat.eq_or_lt_of_le hk with rfl | hlt
      · rw [h.round_last ha]
        constructor
        · rintro (rfl | hp)
          · exact ⟨k, ⟨Nat.le_refl k, Nat.le_refl k⟩, ha, rfl⟩
          · cases hp
        · rintro ⟨j, ⟨hkj, hjk⟩, -, rfl⟩
          obtain rfl : k = j := by omega
          exact .inl rfl
      · have hround := h.round_next hlt ha hb herr
        have hmoving : c.Moving ⟨a0 + c.sa * k, b, err⟩ :=
          h.step.imp_right (Or.imp_right fun hn => absurd hlt (by omega))
        have hahead := (LineCourse.ahead_round hmoving hlow hround).2
        rw [hround]
        dsimp only
        by_cases hin : 0 ≤ a0 + c.sa * (k + 1 : Nat) ∧ a0 + c.sa * (k + 1 : Nat) < c.limA
        · rw [wrap32_eq (z := a0 + c.sa * (k + 1 : Nat)) (by omega) (by omega)] at hahead ⊢
          have hrest := ih (k := k + 1) hlt hin (by omega)
          refine (or_congr_right hrest).trans ?_
          constructor
          · rintro (rfl | ⟨j, ⟨hkj, hjn⟩, haj, rfl⟩)
            · exact ⟨k, ⟨Nat.le_refl k, hk⟩, ha, rfl⟩
            · exact ⟨j, ⟨by omega, hjn⟩, haj, rfl⟩
          · rintro ⟨j, ⟨hkj, hjn⟩, haj, rfl⟩
            rcases Nat.eq_or_lt_of_le hkj with rfl | hkj
            · exact .inl rfl
            · exact .inr ⟨j, ⟨hkj, hjn⟩, haj, rfl⟩
        · have hoff : c.OffScreen ⟨wrap32 (a0 + c.sa * (k + 1 : Nat)), b, err⟩ := by
            rw [h.offScreen_iff (wrap32_bounds _) hb]
            dsimp only
            rcases h.step with hs | hs | hs
            · rw [hs] at hin ha ⊢
              unfold wrap32
              omega
            · rw [hs] at hin ha ⊢
              unfold wrap32
              omega
            · omega
          rw [strokes_offScreen hoff]
          constructor
          · rintro (rfl | hp)
            · exact ⟨k, ⟨Nat.le_refl k, hk⟩, ha, rfl⟩
            · cases hp
          · rintro ⟨j, ⟨hkj, hjn⟩, haj, rfl⟩
            rcases Nat.eq_or_lt_of_le hkj with rfl | hkj
            · exact .inl rfl
            · exact absurd (h.leaves_screen hkj hjn ha haj) hin

/-- The pixels of a line along an axis from any start. -/
theorem mem_courseStrokes {a b : Nat} (h : Flat c a n) (color : Nat)
    (hword : a < 2 ^ 32 ∧ b < 2 ^ 32) (herr : 0 ≤ err ∧ err < 2 ^ 31) (p : Stroke) :
    p ∈ courseStrokes color (c, ⟨wrap32 a, wrap32 b, err⟩) ↔
      (a < c.limA ∧ b < c.limB) ∧ ∃ j : Nat, j ≤ n ∧
        (0 ≤ (a : Int) + c.sa * j ∧ (a : Int) + c.sa * j < c.limA) ∧
        p = c.plot color ((a : Int) + c.sa * j).toNat b := by
  have hlim := h.limits
  unfold courseStrokes
  by_cases hon : a < c.limA ∧ b < c.limB
  · have hstart : (⟨wrap32 a, wrap32 b, err⟩ : LinePoint) = ⟨a + c.sa * (0 : Nat), b, err⟩ := by
      rw [wrap32_eq (z := (a : Int)) (by omega) (by omega),
        wrap32_eq (z := (b : Int)) (by omega) (by omega)]
      simp
    have hahead : c.ahead ⟨a + c.sa * (0 : Nat), b, err⟩ < c.limA + 1 := by
      refine Nat.lt_succ_of_le (c.ahead_le ?_)
      dsimp only
      omega
    have hmem := h.mem_strokes color (k := 0) (Nat.zero_le n) (by omega) (b := b) (by omega) herr
      hahead p
    dsimp only
    rw [hstart]
    refine hmem.trans ?_
    simp only [Nat.zero_le, true_and, Int.toNat_natCast, hon, and_self]
  · have hoff : c.OffScreen ⟨wrap32 a, wrap32 b, err⟩ := by
      unfold LineCourse.OffScreen
      dsimp only
      rw [word_wrap32, word_wrap32, word_ofNat hword.1, word_ofNat hword.2]
      omega
    dsimp only
    rw [strokes_offScreen hoff]
    constructor
    · intro hp
      cases hp
    · exact fun hp => absurd hp.1 hon

end Flat

namespace Framebuffer

variable {f : Framebuffer} {x y n : Nat} {sa : Int}

/-- A screen with a pixel has sides of at most `2 ^ 31`. -/
theorem limits (f : Framebuffer) (hv : f.Visible x y) :
    f.width ≤ 2 ^ 31 ∧ f.height ≤ 2 ^ 31 := by
  obtain ⟨hx, hy⟩ := hv
  have hbytes : 2 ≤ f.bpp / 8 := by
    rcases f.depth with hb | hb | hb <;> rw [hb] <;> decide
  have hrow : f.width * 2 ≤ f.pitch := Nat.le_trans (Nat.mul_le_mul_left _ hbytes) f.row
  have hall : f.width * 2 * f.height ≤ 2 ^ 32 :=
    Nat.le_trans (Nat.mul_le_mul_right _ hrow) f.fits
  have hwidth : f.width * 2 * 1 ≤ f.width * 2 * f.height := Nat.mul_le_mul_left _ (by omega)
  have hheight : 2 * f.height ≤ f.width * 2 * f.height := Nat.mul_le_mul_right _ (by omega)
  omega

/-- A line of one point. -/
theorem mem_point (hlim : f.width ≤ 2 ^ 31 ∧ f.height ≤ 2 ^ 31) (hword : x < 2 ^ 32 ∧ y < 2 ^ 32)
    (color : Nat) (p : Stroke) :
    p ∈ f.drawLine x y x y color ↔ f.Visible x y ∧ p = ⟨x, y, color⟩ := by
  have hcourse : lineCourse f.width f.height x y x y =
      (⟨false, f.width, f.height, wrap32 x, 0, 0, 0, 0⟩, ⟨wrap32 x, wrap32 y, 0⟩) := by
    rw [lineCourse, Int.sub_self, Int.sub_self]
    rfl
  rw [f.drawLine_eq, hcourse, Flat.mem_courseStrokes (n := 0)
    ⟨rfl, .inr (.inr rfl), by simp, by decide, hlim⟩ color hword (by decide) p]
  refine and_congr_right fun hv => ⟨?_, ?_⟩
  · rintro ⟨j, -, -, hp⟩
    simpa [LineCourse.plot] using hp
  · intro hp
    exact ⟨0, Nat.le_refl 0, ⟨by simp, by simpa using hv.1⟩, by simpa [LineCourse.plot] using hp⟩

/-- A horizontal line, to the right or to the left. -/
theorem mem_row (hlim : f.width ≤ 2 ^ 31 ∧ f.height ≤ 2 ^ 31) (hword : x < 2 ^ 32 ∧ y < 2 ^ 32)
    (hn : n < 2 ^ 31) (hsa : sa = 1 ∨ sa = -1) (color : Nat) (p : Stroke) :
    p ∈ f.drawLine x y (word (x + sa * n)) y color ↔
      f.Visible x y ∧ ∃ j : Nat, j ≤ n ∧ (0 ≤ (x : Int) + sa * j ∧ (x : Int) + sa * j < f.width) ∧
        p = ⟨((x : Int) + sa * j).toNat, y, color⟩ := by
  rcases Nat.eq_zero_or_pos n with rfl | hpos
  · have hsame : word ((x : Int) + sa * (0 : Nat)) = x := by
      rw [Int.natCast_zero, Int.mul_zero, Int.add_zero, word_ofNat hword.1]
    rw [hsame, mem_point hlim hword]
    refine and_congr_right fun hv => ⟨?_, ?_⟩
    · intro hp
      exact ⟨0, Nat.le_refl 0, ⟨by simp, by simpa using hv.1⟩, by simpa using hp⟩
    · rintro ⟨j, hj, -, rfl⟩
      obtain rfl : j = 0 := by omega
      simp
  · have hflat : (if (0 : Int) < 0 then wrap32 (-0) else 0) = 0 := rfl
    have hzero : wrap32 (0 : Int) = 0 := rfl
    obtain ⟨hdelta, hsign, habs⟩ := line_delta x ⟨hpos, hn⟩ hsa
    rw [f.drawLine_eq, lineCourse, courseOf, wrap32_word, hdelta, Int.sub_self, hzero, habs, hflat,
      if_pos (show (0 : Int) ≤ n by omega), hsign]
    refine Flat.mem_courseStrokes (c := ⟨false, f.width, f.height, _, _, _, _, _⟩) (n := n)
      ⟨rfl, hsa.imp_right .inl, rfl, hn, hlim⟩ color hword ?_ p
    rw [Int.tdiv_eq_ediv_of_nonneg (by omega)]
    omega

/-- A vertical line, downwards or upwards. -/
theorem mem_column (hlim : f.width ≤ 2 ^ 31 ∧ f.height ≤ 2 ^ 31)
    (hword : x < 2 ^ 32 ∧ y < 2 ^ 32) (hn : n < 2 ^ 31) (hsa : sa = 1 ∨ sa = -1) (color : Nat)
    (p : Stroke) :
    p ∈ f.drawLine x y x (word (y + sa * n)) color ↔
      f.Visible x y ∧ ∃ j : Nat, j ≤ n ∧ (0 ≤ (y : Int) + sa * j ∧ (y : Int) + sa * j < f.height) ∧
        p = ⟨x, ((y : Int) + sa * j).toNat, color⟩ := by
  rcases Nat.eq_zero_or_pos n with rfl | hpos
  · have hsame : word ((y : Int) + sa * (0 : Nat)) = y := by
      rw [Int.natCast_zero, Int.mul_zero, Int.add_zero, word_ofNat hword.2]
    rw [hsame, mem_point hlim hword]
    refine and_congr_right fun hv => ⟨?_, ?_⟩
    · intro hp
      exact ⟨0, Nat.le_refl 0, ⟨by simp, by simpa using hv.2⟩, by simpa using hp⟩
    · rintro ⟨j, hj, -, rfl⟩
      obtain rfl : j = 0 := by omega
      simp
  · have hflat : (if (0 : Int) < 0 then wrap32 (-0) else 0) = 0 := rfl
    have hzero : wrap32 (0 : Int) = 0 := rfl
    obtain ⟨hdelta, hsign, habs⟩ := line_delta y ⟨hpos, hn⟩ hsa
    rw [f.drawLine_eq, lineCourse, courseOf, wrap32_word, hdelta, Int.sub_self, hzero, habs, hflat,
      if_neg (show ¬ (n : Int) ≤ 0 by omega), hsign]
    refine (Flat.mem_courseStrokes (c := ⟨true, f.height, f.width, _, _, _, _, _⟩) (n := n)
      ⟨rfl, hsa.imp_right .inl, rfl, hn, hlim.symm⟩ color hword.symm ?_ p).trans ?_
    · rw [Int.tdiv_eq_ediv_of_nonneg (by omega)]
      omega
    · exact and_congr_left' and_comm

/-- A line to the right is cut off at the edge of the screen. -/
theorem mem_rightwards (hlim : f.width ≤ 2 ^ 31 ∧ f.height ≤ 2 ^ 31) (hy : y < 2 ^ 32)
    (hn : n < 2 ^ 31) (hx : x + n < 2 ^ 32) (color : Nat) (p : Stroke) :
    p ∈ f.drawLine x y (x + n) y color ↔ p.color = color ∧
      f.Visible x y ∧ p.y = y ∧ x ≤ p.x ∧ p.x ≤ x + n ∧ p.x < f.width := by
  have hend : x + n = word (x + 1 * n) := by
    unfold word
    omega
  rw [hend, mem_row hlim ⟨by omega, hy⟩ hn (.inl rfl)]
  constructor
  · rintro ⟨hv, j, hj, hin, rfl⟩
    exact ⟨rfl, hv, rfl, by dsimp only; omega⟩
  · rintro ⟨rfl, hv, rfl, hlo, hhi, hin⟩
    refine ⟨hv, p.x - x, by omega, by omega, ?_⟩
    rw [show ((x : Int) + 1 * (p.x - x : Nat)).toNat = p.x by omega]

/-- A line to the left is drawn whole or not at all. -/
theorem mem_leftwards (hlim : f.width ≤ 2 ^ 31 ∧ f.height ≤ 2 ^ 31) (hy : y < 2 ^ 32)
    (hn : n < 2 ^ 31) (hx : x + n < 2 ^ 32) (color : Nat) (p : Stroke) :
    p ∈ f.drawLine (x + n) y x y color ↔ p.color = color ∧
      f.Visible (x + n) y ∧ p.y = y ∧ x ≤ p.x ∧ p.x ≤ x + n := by
  have hend : x = word ((x + n : Nat) + -1 * (n : Int)) := by
    unfold word
    omega
  rw [show f.drawLine (x + n) y x y color =
      f.drawLine (x + n) y (word ((x + n : Nat) + -1 * (n : Int))) y color by rw [← hend],
    mem_row hlim ⟨hx, hy⟩ hn (.inr rfl)]
  constructor
  · rintro ⟨hv, j, hj, hin, rfl⟩
    exact ⟨rfl, hv, rfl, by dsimp only; omega⟩
  · rintro ⟨rfl, hv, rfl, hlo, hhi⟩
    have hvx := hv.1
    refine ⟨hv, x + n - p.x, by omega, by omega, ?_⟩
    rw [show (((x + n : Nat) : Int) + -1 * (x + n - p.x : Nat)).toNat = p.x by omega]

/-- A line downwards is cut off at the edge of the screen. -/
theorem mem_downwards (hlim : f.width ≤ 2 ^ 31 ∧ f.height ≤ 2 ^ 31) (hx : x < 2 ^ 32)
    (hn : n < 2 ^ 31) (hy : y + n < 2 ^ 32) (color : Nat) (p : Stroke) :
    p ∈ f.drawLine x y x (y + n) color ↔ p.color = color ∧
      f.Visible x y ∧ p.x = x ∧ y ≤ p.y ∧ p.y ≤ y + n ∧ p.y < f.height := by
  have hend : y + n = word (y + 1 * n) := by
    unfold word
    omega
  rw [hend, mem_column hlim ⟨hx, by omega⟩ hn (.inl rfl)]
  constructor
  · rintro ⟨hv, j, hj, hin, rfl⟩
    exact ⟨rfl, hv, rfl, by dsimp only; omega⟩
  · rintro ⟨rfl, hv, rfl, hlo, hhi, hin⟩
    refine ⟨hv, p.y - y, by omega, by omega, ?_⟩
    rw [show ((y : Int) + 1 * (p.y - y : Nat)).toNat = p.y by omega]

/-- A line upwards is drawn whole or not at all. -/
theorem mem_upwards (hlim : f.width ≤ 2 ^ 31 ∧ f.height ≤ 2 ^ 31) (hx : x < 2 ^ 32)
    (hn : n < 2 ^ 31) (hy : y + n < 2 ^ 32) (color : Nat) (p : Stroke) :
    p ∈ f.drawLine x (y + n) x y color ↔ p.color = color ∧
      f.Visible x (y + n) ∧ p.x = x ∧ y ≤ p.y ∧ p.y ≤ y + n := by
  have hend : y = word ((y + n : Nat) + -1 * (n : Int)) := by
    unfold word
    omega
  rw [show f.drawLine x (y + n) x y color =
      f.drawLine x (y + n) x (word ((y + n : Nat) + -1 * (n : Int))) color by rw [← hend],
    mem_column hlim ⟨hx, hy⟩ hn (.inr rfl)]
  constructor
  · rintro ⟨hv, j, hj, hin, rfl⟩
    exact ⟨rfl, hv, rfl, by dsimp only; omega⟩
  · rintro ⟨rfl, hv, rfl, hlo, hhi⟩
    have hvy := hv.2
    refine ⟨hv, y + n - p.y, by omega, by omega, ?_⟩
    rw [show (((y + n : Nat) : Int) + -1 * (y + n - p.y : Nat)).toNat = p.y by omega]

/-- What the four sides of `draw_rect` paint, for an origin on the screen. -/
theorem mem_drawRect_sides (hv : f.Visible x y) {w h : Nat} (hsize : w < 2 ^ 31 ∧ h < 2 ^ 31)
    (color : Nat) (p : Stroke) :
    p ∈ f.drawRect x y w h color ↔ p.color = color ∧
      ((p.y = y ∧ x ≤ p.x ∧ p.x ≤ x + w ∧ p.x < f.width) ∨
        (f.Visible (x + w) y ∧ p.x = x + w ∧ y ≤ p.y ∧ p.y ≤ y + h ∧ p.y < f.height) ∨
        (f.Visible (x + w) (y + h) ∧ p.y = y + h ∧ x ≤ p.x ∧ p.x ≤ x + w) ∨
        (f.Visible x (y + h) ∧ p.x = x ∧ y ≤ p.y ∧ p.y ≤ y + h)) := by
  have hlim := f.limits hv
  obtain ⟨hvx, hvy⟩ := hv
  have hx2 : (x + w) % 2 ^ 32 = x + w := Nat.mod_eq_of_lt (by omega)
  have hy2 : (y + h) % 2 ^ 32 = y + h := Nat.mod_eq_of_lt (by omega)
  unfold drawRect
  dsimp only
  rw [hx2, hy2, List.mem_append, List.mem_append, List.mem_append,
    mem_rightwards hlim (by omega) (by omega) (by omega),
    mem_downwards hlim (by omega) (by omega) (by omega),
    mem_leftwards hlim (by omega) (by omega) (by omega),
    mem_upwards hlim (by omega) (by omega) (by omega)]
  have hv : f.Visible x y := ⟨hvx, hvy⟩
  simp only [hv, true_and, ← and_or_left, or_assoc]

/-! ## Clipping -/

/-- A position on the outline of a rectangle, its far sides included. -/
def OnOutline (x y w h px py : Nat) : Prop :=
  (x ≤ px ∧ px ≤ x + w ∧ (py = y ∨ py = y + h)) ∨ y ≤ py ∧ py ≤ y + h ∧ (px = x ∨ px = x + w)

instance (x y w h px py : Nat) : Decidable (OnOutline x y w h px py) :=
  inferInstanceAs (Decidable (_ ∨ _))

/-- The bottom side is on the screen and its right end is not. -/
def BottomCut (f : Framebuffer) (x y w h : Nat) : Prop :=
  f.width ≤ x + w ∧ y + h < f.height ∧ 0 < h ∧ x + 1 < f.width

/-- The lower end of the left side is below the screen. -/
def LeftCut (f : Framebuffer) (y w h : Nat) : Prop :=
  f.height ≤ y + h ∧ 0 < w ∧ y + 1 < f.height

/-- The pixels of the outline that `draw_rect` leaves out: the bottom side if its right end is off
the screen, and the left side if its lower end is. -/
theorem hit_drawRect_iff (hv : f.Visible x y) {w h : Nat} (hsize : w < 2 ^ 31 ∧ h < 2 ^ 31)
    (color : Nat) {px py : Nat} (hp : f.Visible px py) :
    (∃ p ∈ f.drawRect x y w h color, p.x = px ∧ p.y = py) ↔
      OnOutline x y w h px py ∧ ¬ (f.BottomCut x y w h ∧ py = y + h ∧ x < px) ∧
        ¬ (f.LeftCut y w h ∧ px = x ∧ y < py) := by
  constructor
  · rintro ⟨p, hmem, rfl, rfl⟩
    obtain ⟨-, hside⟩ := (mem_drawRect_sides hv hsize color p).mp hmem
    rcases hside with ⟨htop, hlo, hhi, -⟩ | ⟨hright, hx, hlo, hhi, -⟩ | ⟨hbottom, hy, hlo, hhi⟩ |
      ⟨hleft, hx, hlo, hhi⟩
    · exact ⟨.inl ⟨hlo, hhi, .inl htop⟩, fun hcut => absurd hcut.1.2.2.1 (by omega),
        fun hcut => absurd hcut.2.2 (by omega)⟩
    · exact ⟨.inr ⟨hlo, hhi, .inr hx⟩, fun hcut => absurd hright.1 (Nat.not_lt.mpr hcut.1.1),
        fun hcut => absurd hcut.1.2.1 (by omega)⟩
    · exact ⟨.inl ⟨hlo, hhi, .inr hy⟩, fun hcut => absurd hbottom.1 (Nat.not_lt.mpr hcut.1.1),
        fun hcut => absurd hbottom.2 (Nat.not_lt.mpr hcut.1.1)⟩
    · exact ⟨.inr ⟨hlo, hhi, .inl hx⟩, fun hcut => absurd hcut.2.2 (by omega),
        fun hcut => absurd hleft.2 (Nat.not_lt.mpr hcut.1.1)⟩
  · rintro ⟨hout, hbottom, hleft⟩
    obtain ⟨hvx, hvy⟩ := id hv
    obtain ⟨hpx, hpy⟩ := hp
    refine ⟨⟨px, py, color⟩, (mem_drawRect_sides hv hsize color _).mpr ⟨rfl, ?_⟩, rfl, rfl⟩
    dsimp only
    rcases hout with ⟨hlo, hhi, rfl | rfl⟩ | ⟨hlo, hhi, rfl | rfl⟩
    · exact .inl ⟨rfl, hlo, hhi, hpx⟩
    · -- the bottom side, or its corner on the left side, or the top side of a flat rectangle
      by_cases hcorner : x + w < f.width
      · exact .inr (.inr (.inl ⟨⟨hcorner, hpy⟩, rfl, hlo, hhi⟩))
      · rcases Nat.eq_or_lt_of_le hlo with rfl | hlt
        · exact .inr (.inr (.inr ⟨⟨hpx, hpy⟩, rfl, Nat.le_add_right y h, Nat.le_refl _⟩))
        · have hflat : ¬ 0 < h := fun hh =>
            hbottom ⟨⟨Nat.le_of_not_lt hcorner, hpy, hh, by omega⟩, rfl, hlt⟩
          exact .inl ⟨by omega, hlo, hhi, hpx⟩
    · -- the left side, or its corner on the top side, or the right side of a narrow rectangle
      by_cases hcorner : y + h < f.height
      · exact .inr (.inr (.inr ⟨⟨hpx, hcorner⟩, rfl, hlo, hhi⟩))
      · rcases Nat.eq_or_lt_of_le hlo with rfl | hlt
        · exact .inl ⟨rfl, Nat.le_refl px, Nat.le_add_right px w, hpx⟩
        · have hnarrow : ¬ 0 < w := fun hw =>
            hleft ⟨⟨Nat.le_of_not_lt hcorner, hw, by omega⟩, rfl, hlt⟩
          exact .inr (.inl ⟨⟨by omega, hvy⟩, by omega, hlo, hhi, hpy⟩)
    · exact .inr (.inl ⟨⟨hpx, hvy⟩, rfl, hlo, hhi, hpy⟩)

/-- The strokes of `draw_rect` have its colour. -/
theorem color_drawRect (hv : f.Visible x y) {w h : Nat} (hsize : w < 2 ^ 31 ∧ h < 2 ^ 31)
    {color : Nat} {p : Stroke} (hp : p ∈ f.drawRect x y w h color) : p.color = color :=
  ((mem_drawRect_sides hv hsize color p).mp hp).1

/-- The pixels that `draw_rect` leaves alone. -/
theorem paint_drawRect_missed {w h color : Nat} {px py : Nat}
    (hmiss : ¬ ∃ p ∈ f.drawRect x y w h color, p.x = px ∧ p.y = py) (s : Screen) :
    f.paint s (f.drawRect x y w h color) px py = s px py :=
  paint_other fun _ p hp hpos => hmiss ⟨p, hp, hpos⟩

/-- A screen that differs from a colour everywhere. -/
theorem exists_screen_ne (f : Framebuffer) (color : Nat) :
    ∃ s : Screen, f.Stored s ∧ ∀ px py, s px py ≠ color % 2 ^ f.bpp := by
  have hbits : 1 < 2 ^ f.bpp := by
    rcases f.depth with hb | hb | hb <;> rw [hb] <;> decide
  by_cases hzero : color % 2 ^ f.bpp = 0
  · exact ⟨fun _ _ => 1, fun _ _ _ => hbits, fun _ _ => by rw [hzero]; exact Nat.one_ne_zero⟩
  · exact ⟨fun _ _ => 0, fun _ _ _ => Nat.two_pow_pos _, fun _ _ h => hzero h.symm⟩

end Framebuffer

open Framebuffer

/-- `draw_rect` with its origin on the screen is clipped plainly just if neither its bottom side
nor its left side is cut at the end where the line begins. -/
theorem draw_rect_clipped_iff (f : Framebuffer) {x y w h : Nat} (color : Nat)
    (horigin : f.Visible x y) (hsize : w < 2 ^ 30 ∧ h < 2 ^ 30) :
    (∀ s, f.Stored s → ∀ px py, f.Visible px py →
      f.paint s (f.drawRect x y w h color) px py =
        if OnOutline x y w h px py then color % 2 ^ f.bpp else s px py) ↔
      ¬ f.BottomCut x y w h ∧ ¬ f.LeftCut y w h := by
  have hsize' : w < 2 ^ 31 ∧ h < 2 ^ 31 := by omega
  constructor
  · intro hexact
    obtain ⟨s, hs, hne⟩ := exists_screen_ne f color
    -- a pixel of the outline that no stroke hits gives the screen away
    have hpainted : ∀ px py, f.Visible px py → OnOutline x y w h px py →
        ∃ p ∈ f.drawRect x y w h color, p.x = px ∧ p.y = py := by
      intro px py hp hout
      by_contra hmiss
      have hpixel := hexact s hs px py hp
      rw [paint_drawRect_missed hmiss, if_pos hout] at hpixel
      exact hne px py hpixel
    obtain ⟨hvx, hvy⟩ := horigin
    constructor
    · intro hcut
      obtain ⟨hright, hrow, hh, hcolumn⟩ := id hcut
      have hhit := hpainted (x + 1) (y + h) ⟨hcolumn, hrow⟩ (.inl ⟨by omega, by omega, .inr rfl⟩)
      rw [hit_drawRect_iff ⟨hvx, hvy⟩ hsize' color ⟨hcolumn, hrow⟩] at hhit
      exact hhit.2.1 ⟨hcut, rfl, Nat.lt_succ_self x⟩
    · intro hcut
      obtain ⟨hbelow, hw, hrow⟩ := id hcut
      have hhit := hpainted x (y + 1) ⟨hvx, hrow⟩ (.inr ⟨by omega, by omega, .inl rfl⟩)
      rw [hit_drawRect_iff ⟨hvx, hvy⟩ hsize' color ⟨hvx, hrow⟩] at hhit
      exact hhit.2.2 ⟨hcut, rfl, Nat.lt_succ_self y⟩
  · rintro ⟨hbottom, hleft⟩ s - px py hp
    have hhit := hit_drawRect_iff horigin hsize' color hp
    split
    · next hout =>
        exact paint_uniform hp (hhit.mpr ⟨hout, fun h => hbottom h.1, fun h => hleft h.1⟩)
          fun p hmem _ _ => color_drawRect horigin hsize' hmem
    · next hout => exact paint_drawRect_missed (fun h => hout (hhit.mp h).1) s

/-- A rectangle that is whole on the screen is painted whole. -/
theorem draw_rect_clipped_iff_sample :
    smallScreen.paint (fun _ _ => 0) (smallScreen.drawRect 1 1 3 2 255) 4 2 = 255 ∧
      smallScreen.paint (fun _ _ => 0) (smallScreen.drawRect 1 1 3 2 255) 3 2 = 0 := by
  have hcut : ¬ smallScreen.BottomCut 1 1 3 2 ∧ ¬ smallScreen.LeftCut 1 3 2 := by
    unfold BottomCut LeftCut
    decide
  have hexact := (draw_rect_clipped_iff smallScreen 255 (by decide) (by decide)).mpr hcut
    (fun _ _ => 0) (fun _ _ _ => Nat.two_pow_pos _)
  exact ⟨hexact 4 2 (by decide), hexact 3 2 (by decide)⟩

/-- A rectangle whose right side is beyond the edge of the screen: the bottom side has the pixel
`(3, 3)`, and it is not painted. -/
theorem draw_rect_bottom_lost : ¬ ∀ (f : Framebuffer) (x y w h color : Nat),
    f.Visible x y → w < 2 ^ 30 ∧ h < 2 ^ 30 → ∀ s, f.Stored s → ∀ px py, f.Visible px py →
      f.paint s (f.drawRect x y w h color) px py =
        if OnOutline x y w h px py then color % 2 ^ f.bpp else s px py := by
  intro hclaim
  have hpixel := hclaim smallScreen 2 1 10 2 255 (by decide) (by decide) (fun _ _ => 0)
    (fun _ _ _ => Nat.two_pow_pos _) 3 3 (by decide)
  exact absurd hpixel (by decide)

end Kumo
