import Mathlib.Algebra.Order.Field.Rat
import Mathlib.Algebra.Order.Ring.Abs
import Mathlib.Tactic.Ring
import Mathlib.Tactic.Linarith
import Kumo.Gfx.LineLoop
import Kumo.Gfx.Paint

/-!
# The pixels of a line

Between two points of the screen `draw_line` is Bresenham's algorithm. After `k` rounds it has
moved `minorSteps da db k` pixels along the shorter axis, which is `k * db / da` rounded to
the nearest integer, and `err` is what is left of the rounding.
-/

namespace Kumo

/-- The steps along the shorter axis in the first `k` rounds of a line with the absolute
differences `da` and `db`. -/
def minorSteps (da db k : Nat) : Nat := (k * db + (da - 1 - da / 2)) / da

/-- The value of `err` after `k` rounds. -/
def lineErr (da db k : Nat) : Nat := da - 1 - (k * db + (da - 1 - da / 2)) % da

section Rounding

variable {da db k : Nat}

theorem minorSteps_zero (da db : Nat) : minorSteps da db 0 = 0 := by
  rw [minorSteps, Nat.zero_mul, Nat.zero_add]
  rcases Nat.eq_zero_or_pos da with rfl | hda
  · rfl
  · exact Nat.div_eq_of_lt (by omega)

theorem lineErr_zero (da db : Nat) : lineErr da db 0 = da / 2 := by
  rw [lineErr, Nat.zero_mul, Nat.zero_add]
  rcases Nat.eq_zero_or_pos da with rfl | hda
  · rfl
  · rw [Nat.mod_eq_of_lt (by omega)]
    omega

/-- The last round is at the far end of the shorter axis as well. -/
theorem minorSteps_self (hdb : db ≤ da) : minorSteps da db da = db := by
  rcases Nat.eq_zero_or_pos da with rfl | hda
  · obtain rfl := Nat.le_zero.mp hdb
    rfl
  · rw [minorSteps, Nat.mul_add_div hda, Nat.div_eq_of_lt (by omega), Nat.add_zero]

/-- A round moves along the shorter axis just if `err` would become negative. -/
theorem minorSteps_succ (hda : 0 < da) (hdb : db ≤ da) :
    if lineErr da db k < db then
      minorSteps da db (k + 1) = minorSteps da db k + 1 ∧
        lineErr da db (k + 1) + db = lineErr da db k + da
    else
      minorSteps da db (k + 1) = minorSteps da db k ∧
        lineErr da db (k + 1) + db = lineErr da db k := by
  have hnext : (k + 1) * db + (da - 1 - da / 2) =
      da * ((k * db + (da - 1 - da / 2)) / da) + ((k * db + (da - 1 - da / 2)) % da + db) := by
    have hsplit := Nat.div_add_mod (k * db + (da - 1 - da / 2)) da
    rw [Nat.add_mul, Nat.one_mul]
    omega
  have hr := Nat.mod_lt (k * db + (da - 1 - da / 2)) hda
  unfold lineErr minorSteps
  rw [hnext, Nat.mul_add_div hda, Nat.mul_add_mod]
  generalize (k * db + (da - 1 - da / 2)) % da = r at hr ⊢
  by_cases hcarry : da ≤ r + db
  · have hdiv : (r + db) / da = 1 := Nat.div_eq_of_lt_le (by omega) (by omega)
    have hmod : (r + db) % da = r + db - da := by
      rw [Nat.mod_eq_sub_mod hcarry, Nat.mod_eq_of_lt (by omega)]
    have hlt : da - 1 - r < db := by omega
    rw [if_pos hlt, hdiv, hmod]
    exact ⟨rfl, by omega⟩
  · have hlt : r + db < da := by omega
    have hge : ¬ da - 1 - r < db := by omega
    rw [if_neg hge, Nat.div_eq_of_lt hlt, Nat.mod_eq_of_lt hlt]
    exact ⟨rfl, by omega⟩

theorem lineErr_le : lineErr da db k ≤ da := by
  unfold lineErr
  omega

theorem minorSteps_le (hdb : db ≤ da) (hk : k ≤ da) : minorSteps da db k ≤ db := by
  refine Nat.le_trans (Nat.div_le_div_right ?_) (minorSteps_self hdb).le
  have := Nat.mul_le_mul_right db hk
  omega

/-- The steps are the exact position rounded. -/
theorem minorSteps_error (hda : 0 < da) (db k : Nat) :
    2 * (minorSteps da db k * da) ≤ 2 * (k * db) + da ∧
      2 * (k * db) ≤ 2 * (minorSteps da db k * da) + da := by
  have hsplit := Nat.div_add_mod (k * db + (da - 1 - da / 2)) da
  have hr := Nat.mod_lt (k * db + (da - 1 - da / 2)) hda
  rw [Nat.mul_comm] at hsplit
  unfold minorSteps
  omega

end Rounding

/-! ## The loop -/

section Loop

variable {a0 b0 : Int} {da db k : Nat} {c : LineCourse}

/-- The point of round `k` of a line from `(a0, b0)`. -/
def linePoint (c : LineCourse) (a0 b0 : Int) (da db k : Nat) : LinePoint :=
  ⟨a0 + c.sa * k, b0 + c.sb * minorSteps da db k, lineErr da db k⟩

/-- The loop of a line between two points of a screen whose sides are below `2 ^ 30`. -/
structure Drawn (c : LineCourse) (a0 b0 : Int) (da db : Nat) : Prop where
  longDiff : c.da = da
  shortDiff : c.db = db
  longer : db ≤ da
  limits : c.limA < 2 ^ 30 ∧ c.limB < 2 ^ 30
  stepA : c.sa = 1 ∨ c.sa = -1 ∨ c.sa = 0 ∧ da = 0
  stepB : c.sb = 1 ∨ c.sb = -1 ∨ c.sb = 0 ∧ db = 0
  farEnd : c.a1 = a0 + c.sa * da
  inA : 0 ≤ a0 ∧ a0 < c.limA ∧ 0 ≤ a0 + c.sa * da ∧ a0 + c.sa * da < c.limA
  inB : 0 ≤ b0 ∧ b0 < c.limB ∧ 0 ≤ b0 + c.sb * db ∧ b0 + c.sb * db < c.limB

/-- A point between two points of the screen is on the screen. -/
theorem between_bounds {x s : Int} {n m lim : Nat} (hs : s = 1 ∨ s = -1 ∨ s = 0 ∧ n = 0)
    (hm : m ≤ n) (h : 0 ≤ x ∧ x < lim ∧ 0 ≤ x + s * n ∧ x + s * n < lim) :
    0 ≤ x + s * m ∧ x + s * m < lim := by
  rcases hs with rfl | rfl | ⟨rfl, -⟩ <;> omega

/-- The points of the rounds are on the screen. -/
theorem Drawn.onScreen (h : Drawn c a0 b0 da db) (hk : k ≤ da) :
    ¬ c.OffScreen (linePoint c a0 b0 da db k) ∧
      (0 ≤ a0 + c.sa * k ∧ a0 + c.sa * k < c.limA) ∧
      0 ≤ b0 + c.sb * minorSteps da db k ∧ b0 + c.sb * minorSteps da db k < c.limB := by
  have ha := between_bounds h.stepA hk h.inA
  have hb := between_bounds h.stepB (minorSteps_le h.longer hk) h.inB
  have hlim := h.limits
  refine ⟨?_, ha, hb⟩
  unfold LineCourse.OffScreen linePoint word
  dsimp only
  omega

/-- The round after round `k`. -/
theorem Drawn.round (h : Drawn c a0 b0 da db) (hk : k < da) :
    c.round (linePoint c a0 b0 da db k) = some (linePoint c a0 b0 da db (k + 1)) := by
  obtain ⟨hon, ha, hb⟩ := h.onScreen (Nat.le_of_lt hk)
  obtain ⟨-, ha', hb'⟩ := h.onScreen (k := k + 1) hk
  have hlim := h.limits
  have hrange : da < 2 ^ 30 := by
    have := h.inA
    rcases h.stepA with hs | hs | ⟨hs, hzero⟩
    · rw [hs] at this
      omega
    · rw [hs] at this
      omega
    · omega
  have hend : a0 + c.sa * (k : Int) ≠ c.a1 := by
    rw [h.farEnd]
    rcases h.stepA with hs | hs | ⟨hs, hzero⟩ <;> rw [hs] <;> omega
  have hnextA : a0 + c.sa * (k : Int) + c.sa = a0 + c.sa * ((k + 1 : Nat) : Int) := by
    rw [Int.natCast_add, Int.mul_add]
    omega
  have herr : lineErr da db k ≤ da := lineErr_le
  have hdb := h.longer
  have hsucc := minorSteps_succ (k := k) (Nat.zero_lt_of_lt hk) hdb
  rw [LineCourse.round, if_neg hon, h.longDiff, h.shortDiff]
  unfold linePoint
  dsimp only
  rw [if_neg hend, hnextA, wrap32_eq (z := a0 + _) (by omega) (by omega),
    wrap32_eq (z := (lineErr da db k : Int) - db) (by omega) (by omega)]
  by_cases hstep : lineErr da db k < db
  · rw [if_pos hstep] at hsucc
    have hnextB : b0 + c.sb * (minorSteps da db k : Int) + c.sb =
        b0 + c.sb * (minorSteps da db (k + 1) : Int) := by
      rw [hsucc.1, Int.natCast_add, Int.mul_add]
      omega
    have hnextErr : (lineErr da db k : Int) - db + da = lineErr da db (k + 1) := by omega
    rw [if_pos (show (lineErr da db k : Int) - db < 0 by omega), hnextB, hnextErr,
      wrap32_eq (z := b0 + _) (by omega) (by omega),
      wrap32_eq (z := (lineErr da db (k + 1) : Int)) (by omega) (by omega)]
  · rw [if_neg hstep] at hsucc
    have hnextErr : (lineErr da db k : Int) - db = lineErr da db (k + 1) := by omega
    rw [if_neg (show ¬ (lineErr da db k : Int) - db < 0 by omega), hnextErr, hsucc.1]

/-- The last round. -/
theorem Drawn.last (h : Drawn c a0 b0 da db) :
    c.round (linePoint c a0 b0 da db da) = none := by
  rw [LineCourse.round, if_neg (h.onScreen (Nat.le_refl da)).1]
  exact if_pos h.farEnd.symm

/-- The pixels from round `k` on: one for each round up to round `da`. -/
theorem Drawn.strokes (h : Drawn c a0 b0 da db) (color : Nat) {n fuel : Nat} (hk : k + n = da)
    (hfuel : n < fuel) :
    c.strokes color fuel (linePoint c a0 b0 da db k) =
      (List.range' k (n + 1)).map fun j : Nat =>
        c.plot color (word (a0 + c.sa * j)) (word (b0 + c.sb * minorSteps da db j)) := by
  induction n generalizing k fuel with
  | zero =>
      obtain ⟨fuel, rfl⟩ := Nat.exists_eq_add_of_lt hfuel
      obtain rfl : k = da := hk
      rw [LineCourse.strokes_succ, if_neg (h.onScreen (Nat.le_refl k)).1, h.last]
      rfl
  | succ n ih =>
      obtain ⟨fuel, rfl⟩ := Nat.exists_eq_add_of_lt hfuel
      rw [LineCourse.strokes_succ, if_neg (h.onScreen (by omega)).1, h.round (by omega),
        List.range'_succ, List.map_cons]
      exact congrArg _ (ih (by omega) (by omega))

end Loop

/-! ## From point to point -/

/-- The exact line from `(a0, b0)` to `(a1, b1)` at the coordinate `a`. -/
def exactLine (a0 b0 a1 b1 a : ℚ) : ℚ := b0 + (b1 - b0) * (a - a0) / (a1 - a0)

/-- The pixel `(a, b)` is the one of step `k` along the longer axis, and at most one half away
from the exact line along the other axis. -/
def NearLine (a0 b0 a1 b1 k a b : Nat) : Prop :=
  (a : Int) = a0 + (a1 - a0 : Int).sign * k ∧ |(b : ℚ) - exactLine a0 b0 a1 b1 a| ≤ 1 / 2

/-- The course of a line that steps along `a`. -/
def axisCourse (steep : Bool) (limA limB a0 b0 a1 b1 : Nat) : LineCourse :=
  ⟨steep, limA, limB, a1, (a1 - a0 : Int).natAbs, (b1 - b0 : Int).natAbs, (a1 - a0 : Int).sign,
    (b1 - b0 : Int).sign⟩

section Axis

variable {limA limB a0 b0 a1 b1 k : Nat}

theorem sign_cases (z : Int) : z.sign = 1 ∨ z.sign = -1 ∨ z.sign = 0 ∧ z.natAbs = 0 := by
  rcases Int.lt_trichotomy z 0 with hneg | rfl | hpos
  · exact .inr (.inl (Int.sign_eq_neg_one_of_neg hneg))
  · exact .inr (.inr ⟨rfl, rfl⟩)
  · exact .inl (Int.sign_eq_one_of_pos hpos)

theorem add_sign_mul_natAbs (x y : Int) : x + (y - x).sign * (y - x).natAbs = y := by
  rw [Int.sign_mul_natAbs]
  omega

theorem axisCourse_drawn (steep : Bool) (hlim : limA < 2 ^ 30 ∧ limB < 2 ^ 30) (ha : a0 < limA ∧ a1 < limA)
    (hb : b0 < limB ∧ b1 < limB) (hlonger : (b1 - b0 : Int).natAbs ≤ (a1 - a0 : Int).natAbs) :
    Drawn (axisCourse steep limA limB a0 b0 a1 b1) a0 b0 (a1 - a0 : Int).natAbs
      (b1 - b0 : Int).natAbs := by
  have hfarA := add_sign_mul_natAbs a0 a1
  have hfarB := add_sign_mul_natAbs b0 b1
  refine ⟨rfl, rfl, hlonger, hlim, sign_cases _, sign_cases _, hfarA.symm, ?_, ?_⟩
  · unfold axisCourse
    dsimp only
    rw [hfarA]
    omega
  · unfold axisCourse
    dsimp only
    rw [hfarB]
    omega

/-- Rounding to the nearest integer is at most one half off. -/
theorem minorSteps_near {da : Nat} (hda : 0 < da) (db k : Nat) :
    |(minorSteps da db k : ℚ) - db * k / da| ≤ 1 / 2 := by
  obtain ⟨hhi, hlo⟩ := minorSteps_error hda db k
  have hpos : (0 : ℚ) < da := by exact_mod_cast hda
  have hhi' : 2 * ((minorSteps da db k : ℚ) * da) ≤ 2 * (k * db) + da := by exact_mod_cast hhi
  have hlo' : 2 * ((k : ℚ) * db) ≤ 2 * (minorSteps da db k * da) + da := by exact_mod_cast hlo
  have hexact : (db : ℚ) * k / da * da = db * k := div_mul_cancel₀ _ hpos.ne'
  refine abs_le.mpr ⟨le_of_mul_le_mul_right ?_ hpos, le_of_mul_le_mul_right ?_ hpos⟩
  · rw [sub_mul, hexact]
    linarith
  · rw [sub_mul, hexact]
    linarith

/-- The exact line, `k` steps from its start in the direction of its end. -/
theorem exactLine_step {a0 b0 a1 b1 a s r n m k : ℚ} (hs : s * s = 1 ∨ n = 0)
    (ha : a - a0 = s * k) (hspanA : a1 - a0 = s * n) (hspanB : b1 - b0 = r * m) :
    exactLine a0 b0 a1 b1 a = b0 + r * (m * k / n) := by
  rw [exactLine, ha, hspanA, hspanB]
  rcases hs with hs | rfl
  · have hs0 : s ≠ 0 := left_ne_zero_of_mul_eq_one hs
    rw [show r * m * (s * k) = s * (r * (m * k)) by ring, mul_div_mul_left _ _ hs0,
      mul_div_assoc]
  · rw [mul_zero, div_zero, div_zero, mul_zero]

/-- The point of round `k` is near the exact line. -/
theorem nearLine_linePoint {a b : Nat}
    (hlonger : (b1 - b0 : Int).natAbs ≤ (a1 - a0 : Int).natAbs)
    (ha : (a : Int) = a0 + (a1 - a0 : Int).sign * k)
    (hb : (b : Int) = b0 + (b1 - b0 : Int).sign *
      minorSteps (a1 - a0 : Int).natAbs (b1 - b0 : Int).natAbs k) :
    NearLine a0 b0 a1 b1 k a b := by
  refine ⟨ha, ?_⟩
  have hspanA := Int.sign_mul_natAbs (a1 - a0 : Int)
  have hspanB := Int.sign_mul_natAbs (b1 - b0 : Int)
  have hsignA := sign_cases (a1 - a0 : Int)
  have hsignB := sign_cases (b1 - b0 : Int)
  generalize (a1 - a0 : Int).sign = s, (a1 - a0 : Int).natAbs = n at *
  generalize (b1 - b0 : Int).sign = r, (b1 - b0 : Int).natAbs = m at *
  have ha' : (a : ℚ) - a0 = s * k := by
    rw [sub_eq_iff_eq_add']
    exact_mod_cast ha
  have hb' : (b : ℚ) = b0 + r * minorSteps n m k := by exact_mod_cast hb
  have hspanA' : (a1 : ℚ) - a0 = s * n := by exact_mod_cast hspanA.symm
  have hspanB' : (b1 : ℚ) - b0 = r * m := by exact_mod_cast hspanB.symm
  have hs : (s : ℚ) * s = 1 ∨ (n : ℚ) = 0 := by
    rcases hsignA with rfl | rfl | ⟨-, rfl⟩ <;> norm_num
  have hr : |(r : ℚ)| ≤ 1 := by
    rcases hsignB with rfl | rfl | ⟨rfl, -⟩ <;> norm_num
  rw [hb', exactLine_step hs ha' hspanA' hspanB', add_sub_add_left_eq_sub, ← mul_sub, abs_mul]
  rcases Nat.eq_zero_or_pos n with rfl | hn
  · obtain rfl := Nat.le_zero.mp hlonger
    simp [minorSteps]
  · exact le_trans (mul_le_of_le_one_left (abs_nonneg _) hr) (minorSteps_near hn m k)

/-- The loop along `a` paints one pixel near the line for every step. -/
theorem axisCourse_strokes (steep : Bool) (color : Nat) (hlim : limA < 2 ^ 30 ∧ limB < 2 ^ 30)
    (ha : a0 < limA ∧ a1 < limA) (hb : b0 < limB ∧ b1 < limB)
    (hlonger : (b1 - b0 : Int).natAbs ≤ (a1 - a0 : Int).natAbs) :
    ∃ pa pb : Nat → Nat,
      courseStrokes color (axisCourse steep limA limB a0 b0 a1 b1,
          ⟨a0, b0, ((a1 - a0 : Int).natAbs : Int).tdiv 2⟩) =
        (List.range ((a1 - a0 : Int).natAbs + 1)).map (fun k =>
          (axisCourse steep limA limB a0 b0 a1 b1).plot color (pa k) (pb k)) ∧
      pa 0 = a0 ∧ pb 0 = b0 ∧ pa (a1 - a0 : Int).natAbs = a1 ∧ pb (a1 - a0 : Int).natAbs = b1 ∧
      ∀ k ≤ (a1 - a0 : Int).natAbs, pa k < limA ∧ pb k < limB ∧
        NearLine a0 b0 a1 b1 k (pa k) (pb k) := by
  have hdrawn := axisCourse_drawn steep hlim ha hb hlonger
  have hfarA := add_sign_mul_natAbs a0 a1
  have hfarB := add_sign_mul_natAbs b0 b1
  refine ⟨fun k => word (a0 + (a1 - a0 : Int).sign * k), fun k => word (b0 + (b1 - b0 : Int).sign *
    minorSteps (a1 - a0 : Int).natAbs (b1 - b0 : Int).natAbs k), ?_, ?_, ?_, ?_, ?_, ?_⟩
  · have hfirst : linePoint (axisCourse steep limA limB a0 b0 a1 b1) a0 b0 (a1 - a0 : Int).natAbs
        (b1 - b0 : Int).natAbs 0 = ⟨a0, b0, ((a1 - a0 : Int).natAbs : Int).tdiv 2⟩ := by
      rw [linePoint, minorSteps_zero, lineErr_zero, Int.tdiv_eq_ediv_of_nonneg (by omega)]
      simp
    rw [courseStrokes, ← hfirst, List.range_eq_range']
    exact hdrawn.strokes color (Nat.zero_add _) (show _ < limA + 1 by omega)
  · simp [word_ofNat (show a0 < 2 ^ 32 by omega)]
  · simp [minorSteps_zero, word_ofNat (show b0 < 2 ^ 32 by omega)]
  · dsimp only
    rw [hfarA, word_ofNat (by omega)]
  · dsimp only
    rw [minorSteps_self hlonger, hfarB, word_ofNat (by omega)]
  · intro k hk
    obtain ⟨-, hina, hinb⟩ := hdrawn.onScreen hk
    unfold axisCourse at hina hinb
    dsimp only at hina hinb ⊢
    have hwa := word_eq hina.1 (by omega)
    have hwb := word_eq hinb.1 (by omega)
    exact ⟨by omega, by omega, nearLine_linePoint hlonger hwa hwb⟩

end Axis

/-- `draw_line` between two points of the screen steps along the axis with the larger difference. -/
theorem lineCourse_onScreen {width height x0 y0 x1 y1 : Nat}
    (hsize : width < 2 ^ 30 ∧ height < 2 ^ 30) (hx : x0 < width ∧ x1 < width)
    (hy : y0 < height ∧ y1 < height) :
    lineCourse width height x0 y0 x1 y1 =
      if (y1 - y0 : Int).natAbs ≤ (x1 - x0 : Int).natAbs then
        (axisCourse false width height x0 y0 x1 y1,
          ⟨x0, y0, ((x1 - x0 : Int).natAbs : Int).tdiv 2⟩)
      else
        (axisCourse true height width y0 x0 y1 x1,
          ⟨y0, x0, ((y1 - y0 : Int).natAbs : Int).tdiv 2⟩) := by
  have habs : ∀ d : Int, -2 ^ 31 < d ∧ d < 2 ^ 31 →
      (if d < 0 then wrap32 (-d) else d) = (d.natAbs : Int) := by
    intro d hd
    split
    · rw [wrap32_eq (by omega) (by omega)]
      omega
    · omega
  rw [lineCourse, wrap32_eq (z := (x0 : Int)) (by omega) (by omega),
    wrap32_eq (z := (y0 : Int)) (by omega) (by omega),
    wrap32_eq (z := (x1 : Int)) (by omega) (by omega),
    wrap32_eq (z := (y1 : Int)) (by omega) (by omega),
    wrap32_eq (z := (x1 - x0 : Int)) (by omega) (by omega),
    wrap32_eq (z := (y1 - y0 : Int)) (by omega) (by omega), courseOf,
    habs (x1 - x0) (by omega), habs (y1 - y0) (by omega)]
  simp only [Int.ofNat_le]
  rfl

/-- The steps of a line along its longer axis. -/
def lineSteps (x0 y0 x1 y1 : Nat) : Nat := max (x1 - x0 : Int).natAbs (y1 - y0 : Int).natAbs

/-- Bresenham correctness: between two points of a screen of any size `draw_line`, which paints
these pixels by `Framebuffer.drawLine_eq`, paints one pixel for each step along the longer axis,
from end to end, and every pixel is at most one half away from the exact line along the shorter
axis. -/
theorem draw_line_bresenham (width height x0 y0 x1 y1 color : Nat)
    (hsize : width < 2 ^ 30 ∧ height < 2 ^ 30) (hstart : x0 < width ∧ y0 < height)
    (hend : x1 < width ∧ y1 < height) :
    ∃ px py : Nat → Nat,
      courseStrokes color (lineCourse width height x0 y0 x1 y1) =
        (List.range (lineSteps x0 y0 x1 y1 + 1)).map (fun k => ⟨px k, py k, color⟩) ∧
      (px 0 = x0 ∧ py 0 = y0) ∧
      (px (lineSteps x0 y0 x1 y1) = x1 ∧ py (lineSteps x0 y0 x1 y1) = y1) ∧
      ∀ k ≤ lineSteps x0 y0 x1 y1, (px k < width ∧ py k < height) ∧
        if (y1 - y0 : Int).natAbs ≤ (x1 - x0 : Int).natAbs
        then NearLine x0 y0 x1 y1 k (px k) (py k)
        else NearLine y0 x0 y1 x1 k (py k) (px k) := by
  rw [lineCourse_onScreen hsize ⟨hstart.1, hend.1⟩ ⟨hstart.2, hend.2⟩]
  by_cases hflat : (y1 - y0 : Int).natAbs ≤ (x1 - x0 : Int).natAbs
  · obtain ⟨pa, pb, hstrokes, ha0, hb0, ha1, hb1, hnear⟩ := axisCourse_strokes false
      color hsize ⟨hstart.1, hend.1⟩ ⟨hstart.2, hend.2⟩ hflat
    refine ⟨pa, pb, ?_⟩
    rw [if_pos hflat, lineSteps, max_eq_left hflat]
    refine ⟨hstrokes, ⟨ha0, hb0⟩, ⟨ha1, hb1⟩, fun k hk => ?_⟩
    obtain ⟨hpa, hpb, hline⟩ := hnear k hk
    exact ⟨⟨hpa, hpb⟩, by rwa [if_pos hflat]⟩
  · have hsteep : (x1 - x0 : Int).natAbs ≤ (y1 - y0 : Int).natAbs := by omega
    obtain ⟨pa, pb, hstrokes, ha0, hb0, ha1, hb1, hnear⟩ := axisCourse_strokes true
      color hsize.symm ⟨hstart.2, hend.2⟩ ⟨hstart.1, hend.1⟩ hsteep
    refine ⟨pb, pa, ?_⟩
    rw [if_neg hflat, lineSteps, max_eq_right hsteep]
    refine ⟨hstrokes, ⟨hb0, ha0⟩, ⟨hb1, ha1⟩, fun k hk => ?_⟩
    obtain ⟨hpa, hpb, hline⟩ := hnear k hk
    exact ⟨⟨hpb, hpa⟩, by rwa [if_neg hflat]⟩

/-- A line of five steps up and to the left. -/
theorem draw_line_bresenham_sample :
    ∃ px py : Nat → Nat,
      smallScreen.drawLine 5 3 0 1 255 = (List.range 6).map (fun k => ⟨px k, py k, 255⟩) ∧
        px 0 = 5 ∧ py 0 = 3 ∧ px 5 = 0 ∧ py 5 = 1 := by
  obtain ⟨px, py, hstrokes, ⟨hx0, hy0⟩, ⟨hx1, hy1⟩, -⟩ :=
    draw_line_bresenham 6 4 5 3 0 1 255 (by decide) (by decide) (by decide)
  exact ⟨px, py, (smallScreen.drawLine_eq 5 3 0 1 255).trans hstrokes, hx0, hy0, hx1, hy1⟩

end Kumo
