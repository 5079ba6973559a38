import Kumo.Gfx.Primitives
import Kumo.Lib.Orbit

/-!
# The loop of `draw_line`

`draw_line` steps along the longer axis and has no counter: a round leaves the loop when the
point is off the screen or is the far end. `round` is one round of it, for a screen of any
size. Whatever the signs and the overflows of its set-up, the loop moves one way along one
axis, so it leaves the screen.
-/

namespace Kumo

open Orbit

/-- What does not change in the loop: the bounds of both coordinates, the far end, the absolute
differences and the steps. The loop steps along `a`, which is `y` on a steep slope. -/
structure LineCourse where
  steep : Bool
  limA : Nat
  limB : Nat
  a1 : Int
  da : Int
  db : Int
  sa : Int
  sb : Int

/-- What a round changes: the coordinates and `err`. -/
structure LinePoint where
  a : Int
  b : Int
  err : Int

namespace LineCourse

/-- The check at the head of the loop. -/
def OffScreen (c : LineCourse) (s : LinePoint) : Prop :=
  s.a < 0 ∨ c.limA ≤ word s.a ∨ s.b < 0 ∨ c.limB ≤ word s.b

instance (c : LineCourse) (s : LinePoint) : Decidable (c.OffScreen s) :=
  inferInstanceAs (Decidable (_ ∨ _ ∨ _ ∨ _))

/-- One round of the loop: where the next round begins, or `none` if this one leaves the loop. -/
def round (c : LineCourse) (s : LinePoint) : Option LinePoint :=
  if c.OffScreen s then none
  else if s.a = c.a1 then none
  else
    let err := wrap32 (s.err - c.db)
    if err < 0 then some ⟨wrap32 (s.a + c.sa), wrap32 (s.b + c.sb), wrap32 (err + c.da)⟩
    else some ⟨wrap32 (s.a + c.sa), s.b, err⟩

/-- The pixel of a round. -/
def plot (c : LineCourse) (color : Nat) : Nat → Nat → Stroke :=
  if c.steep then fun a b => ⟨b, a, color⟩ else fun a b => ⟨a, b, color⟩

/-- The pixels of at most `fuel` rounds. -/
def strokes (c : LineCourse) (color fuel : Nat) (s : LinePoint) : List Stroke :=
  Framebuffer.lineLoop c.limA c.limB (c.plot color) c.a1 c.da c.db c.sa c.sb fuel s.a s.b s.err

/-- What one round paints, and what is left. -/
theorem strokes_succ (c : LineCourse) (color fuel : Nat) (s : LinePoint) :
    c.strokes color (fuel + 1) s =
      if c.OffScreen s then []
      else c.plot color (word s.a) (word s.b) ::
        match c.round s with
        | none => []
        | some s' => c.strokes color fuel s' := by
  unfold strokes round
  rw [Framebuffer.lineLoop]
  show (if c.OffScreen s then [] else _) = _
  by_cases hoff : c.OffScreen s
  · rw [if_pos hoff, if_pos hoff]
  · rw [if_neg hoff, if_neg hoff, if_neg hoff]
    by_cases hend : s.a = c.a1
    · rw [if_pos hend, if_pos hend]
    · rw [if_neg hend, if_neg hend]
      dsimp only
      by_cases herr : wrap32 (s.err - c.db) < 0
      · rw [if_pos herr, if_pos herr]
      · rw [if_neg herr, if_neg herr]

end LineCourse

/-- The choice of the axis, from the end points as `int32_t` values and their differences. -/
def courseOf (width height : Nat) (x0 y0 x1 y1 dx dy : Int) : LineCourse × LinePoint :=
  let adx := if dx < 0 then wrap32 (-dx) else dx
  let ady := if dy < 0 then wrap32 (-dy) else dy
  if ady ≤ adx then
    (⟨false, width, height, x1, adx, ady, dx.sign, dy.sign⟩, ⟨x0, y0, adx.tdiv 2⟩)
  else (⟨true, height, width, y1, ady, adx, dy.sign, dx.sign⟩, ⟨y0, x0, ady.tdiv 2⟩)

/-- `draw_line` up to its loop, on a screen of the given size. -/
def lineCourse (width height x0 y0 x1 y1 : Nat) : LineCourse × LinePoint :=
  courseOf width height (wrap32 x0) (wrap32 y0) (wrap32 x1) (wrap32 y1)
    (wrap32 (wrap32 x1 - wrap32 x0)) (wrap32 (wrap32 y1 - wrap32 y0))

/-- The pixels of a whole loop. -/
def courseStrokes (color : Nat) (cs : LineCourse × LinePoint) : List Stroke :=
  cs.1.strokes color (cs.1.limA + 1) cs.2

/-- The loop that the choice leads to. -/
theorem courseStrokes_courseOf (color width height : Nat) (x0 y0 x1 y1 dx dy : Int) :
    courseStrokes color (courseOf width height x0 y0 x1 y1 dx dy) =
      let adx := if dx < 0 then wrap32 (-dx) else dx
      let ady := if dy < 0 then wrap32 (-dy) else dy
      if ady ≤ adx then
        Framebuffer.lineLoop width height (fun a b => ⟨a, b, color⟩) x1 adx ady dx.sign dy.sign
          (width + 1) x0 y0 (adx.tdiv 2)
      else
        Framebuffer.lineLoop height width (fun a b => ⟨b, a, color⟩) y1 ady adx dy.sign dx.sign
          (height + 1) y0 x0 (ady.tdiv 2) := by
  unfold courseStrokes courseOf LineCourse.strokes
  dsimp only
  generalize (if dx < 0 then wrap32 (-dx) else dx) = adx
  generalize (if dy < 0 then wrap32 (-dy) else dy) = ady
  by_cases hsteep : ady ≤ adx
  · simp only [if_pos hsteep, LineCourse.plot, Bool.false_eq_true, if_false]
  · simp only [if_neg hsteep, LineCourse.plot, if_true]

/-- `draw_line` paints the pixels of the rounds of this loop. -/
theorem Framebuffer.drawLine_eq (f : Framebuffer) (x0 y0 x1 y1 color : Nat) :
    f.drawLine x0 y0 x1 y1 color = courseStrokes color (lineCourse f.width f.height x0 y0 x1 y1) := by
  rw [lineCourse, courseStrokes_courseOf, drawLine]

/-! ## Termination -/

namespace LineCourse

/-- The loop moves one way along its axis, or it is at the far end. -/
def Moving (c : LineCourse) (s : LinePoint) : Prop := c.sa = 1 ∨ c.sa = -1 ∨ s.a = c.a1

/-- The positions ahead on the screen, this one included. -/
def ahead (c : LineCourse) (s : LinePoint) : Nat :=
  if c.OffScreen s then 0 else if c.sa = 1 then c.limA - s.a.toNat else s.a.toNat + 1

theorem ahead_le (c : LineCourse) {s : LinePoint} (hs : s.a < 2 ^ 31) :
    c.ahead s ≤ c.limA := by
  unfold ahead
  split
  · exact Nat.zero_le _
  · next hon =>
      unfold OffScreen word at hon
      split <;> omega

/-- A round that does not leave the loop moves on along the axis. -/
theorem round_a {c : LineCourse} {s s' : LinePoint} (h : c.round s = some s') :
    ¬ c.OffScreen s ∧ s.a ≠ c.a1 ∧ s'.a = wrap32 (s.a + c.sa) := by
  unfold round at h
  by_cases hoff : c.OffScreen s
  · rw [if_pos hoff] at h
    cases h
  · by_cases hend : s.a = c.a1
    · rw [if_neg hoff, if_pos hend] at h
      cases h
    · rw [if_neg hoff, if_neg hend] at h
      refine ⟨hoff, hend, ?_⟩
      dsimp only at h
      split at h <;> obtain rfl := Option.some.inj h <;> rfl

/-- Every round has fewer positions ahead than the round before. -/
theorem ahead_round {c : LineCourse} {s s' : LinePoint} (hmoving : c.Moving s)
    (hlow : -2 ^ 31 ≤ s.a ∧ s.a < 2 ^ 31) (h : c.round s = some s') :
    (c.Moving s' ∧ -2 ^ 31 ≤ s'.a ∧ s'.a < 2 ^ 31) ∧ c.ahead s' < c.ahead s := by
  obtain ⟨hon, hend, ha⟩ := round_a h
  have hsa : c.sa = 1 ∨ c.sa = -1 := by
    rcases hmoving with h1 | h1 | h1
    · exact .inl h1
    · exact .inr h1
    · exact absurd h1 hend
  have hbounds := wrap32_bounds (s.a + c.sa)
  refine ⟨⟨hsa.imp_right .inl, ha ▸ hbounds.1, ha ▸ hbounds.2⟩, ?_⟩
  unfold ahead
  rw [if_neg hon]
  have hnext : ¬ c.OffScreen s' → 0 ≤ s'.a ∧ s'.a.toNat < c.limA := by
    intro hon'
    unfold OffScreen word at hon'
    omega
  unfold OffScreen word at hon
  rcases hsa with h1 | h1
  · rw [h1] at ha
    have hstep : ¬ c.OffScreen s' → s'.a = s.a + 1 := by
      intro hon'
      have := hnext hon'
      unfold wrap32 at ha
      omega
    rw [if_pos h1, if_pos h1]
    split
    · omega
    · next hon' =>
        have := hnext hon'
        have := hstep hon'
        omega
  · rw [h1] at ha
    have hne : ¬ c.sa = 1 := by omega
    rw [wrap32_eq (by omega) (by omega)] at ha
    rw [if_neg hne, if_neg hne]
    split
    · omega
    · next hon' =>
        have := hnext hon'
        omega

/-- The loop paints at most one pixel for each position ahead. -/
theorem length_strokes {c : LineCourse} (color fuel : Nat) {s : LinePoint} (hmoving : c.Moving s)
    (hlow : -2 ^ 31 ≤ s.a ∧ s.a < 2 ^ 31) : (c.strokes color fuel s).length ≤ c.ahead s := by
  induction fuel generalizing s with
  | zero => exact Nat.zero_le _
  | succ fuel ih =>
      rw [strokes_succ]
      by_cases hoff : c.OffScreen s
      · rw [if_pos hoff]
        exact Nat.zero_le _
      · rw [if_neg hoff, List.length_cons]
        cases hround : c.round s with
        | none =>
            have hpos : 0 < c.ahead s := by
              unfold ahead
              rw [if_neg hoff]
              unfold OffScreen word at hoff
              split <;> omega
            exact hpos
        | some s' =>
            obtain ⟨⟨hmoving', hlow'⟩, hlt⟩ := ahead_round hmoving hlow hround
            have := ih hmoving' hlow'
            show (c.strokes color fuel s').length + 1 ≤ c.ahead s
            omega

/-- Fuel for one round more than there are positions ahead is enough. -/
theorem strokes_fuel {c : LineCourse} (color : Nat) {fuel more : Nat} {s : LinePoint}
    (hmoving : c.Moving s) (hlow : -2 ^ 31 ≤ s.a ∧ s.a < 2 ^ 31) (hfuel : c.ahead s < fuel) :
    c.strokes color (fuel + more) s = c.strokes color fuel s := by
  induction fuel generalizing s with
  | zero => omega
  | succ fuel ih =>
      rw [show fuel + 1 + more = fuel + more + 1 by omega, strokes_succ, strokes_succ]
      cases hround : c.round s with
      | none => rfl
      | some s' =>
          obtain ⟨⟨hmoving', hlow'⟩, hlt⟩ := ahead_round hmoving hlow hround
          dsimp only
          rw [ih hmoving' hlow' (by omega)]

end LineCourse

/-- A zero difference of two `int32_t` values means that they are equal, also where it wraps. -/
theorem sign_wrap32_sub (a b : Nat) :
    (wrap32 (wrap32 b - wrap32 a)).sign = 1 ∨ (wrap32 (wrap32 b - wrap32 a)).sign = -1 ∨
      wrap32 a = wrap32 b := by
  rcases Int.lt_trichotomy (wrap32 (wrap32 b - wrap32 a)) 0 with hneg | hzero | hpos
  · exact .inr (.inl (Int.sign_eq_neg_one_of_neg hneg))
  · refine .inr (.inr ?_)
    have ha := wrap32_bounds a
    have hb := wrap32_bounds b
    unfold wrap32 at *
    omega
  · exact .inl (Int.sign_eq_one_of_pos hpos)

/-- `draw_line` enters its loop in a state from which it moves. -/
theorem courseOf_moving (width height : Nat) {x0 y0 x1 y1 dx dy : Int}
    (hx : -2 ^ 31 ≤ x0 ∧ x0 < 2 ^ 31) (hy : -2 ^ 31 ≤ y0 ∧ y0 < 2 ^ 31)
    (hdx : dx.sign = 1 ∨ dx.sign = -1 ∨ x0 = x1) (hdy : dy.sign = 1 ∨ dy.sign = -1 ∨ y0 = y1)
    {c : LineCourse} {s : LinePoint} (hc : courseOf width height x0 y0 x1 y1 dx dy = (c, s)) :
    c.Moving s ∧ (-2 ^ 31 ≤ s.a ∧ s.a < 2 ^ 31) ∧ c.limA ≤ max width height := by
  unfold courseOf at hc
  dsimp only at hc
  generalize (if dx < 0 then wrap32 (-dx) else dx) = adx at hc
  generalize (if dy < 0 then wrap32 (-dy) else dy) = ady at hc
  split at hc
  · obtain ⟨rfl, rfl⟩ := Prod.mk.inj hc
    exact ⟨hdx, hx, Nat.le_max_left ..⟩
  · obtain ⟨rfl, rfl⟩ := Prod.mk.inj hc
    exact ⟨hdy, hy, Nat.le_max_right ..⟩

theorem lineCourse_moving {width height x0 y0 x1 y1 : Nat} {c : LineCourse} {s : LinePoint}
    (hc : lineCourse width height x0 y0 x1 y1 = (c, s)) :
    c.Moving s ∧ (-2 ^ 31 ≤ s.a ∧ s.a < 2 ^ 31) ∧ c.limA ≤ max width height :=
  courseOf_moving width height (wrap32_bounds x0) (wrap32_bounds y0) (sign_wrap32_sub x0 x1)
    (sign_wrap32_sub y0 y1) hc

/-- `draw_line` always terminates: on a screen of any size and for any end points it executes the
body of its loop at most `max(width, height) + 1` times, and paints at most `max(width, height)`
pixels. -/
theorem draw_line_terminates (width height x0 y0 x1 y1 : Nat) :
    EndsIn (lineCourse width height x0 y0 x1 y1).1.round (max width height + 1)
        (lineCourse width height x0 y0 x1 y1).2 ∧
      ∀ color fuel, ((lineCourse width height x0 y0 x1 y1).1.strokes color fuel
        (lineCourse width height x0 y0 x1 y1).2).length ≤ max width height := by
  cases hc : lineCourse width height x0 y0 x1 y1 with
  | mk c s =>
      obtain ⟨hmoving, hbounds, hlim⟩ := lineCourse_moving hc
      have hahead := c.ahead_le hbounds.2
      refine ⟨EndsIn.mono (endsIn_of_measure (I := fun s => c.Moving s ∧ -2 ^ 31 ≤ s.a ∧ s.a < 2 ^ 31)
        (μ := c.ahead) (fun s s' hinv hround => ?_) ⟨hmoving, hbounds⟩) ?_, fun color fuel => ?_⟩
      · exact LineCourse.ahead_round hinv.1 hinv.2 hround
      · show c.ahead s + 1 ≤ _
        omega
      · exact Nat.le_trans (LineCourse.length_strokes color fuel hmoving hbounds)
          (Nat.le_trans hahead hlim)

/-- From the left edge of a row of four pixels to a point beyond the right edge: the fifth round
finds the point off the screen. -/
theorem draw_line_extra_round : ¬ ∀ width height x0 y0 x1 y1 : Nat,
    EndsIn (lineCourse width height x0 y0 x1 y1).1.round (max width height)
      (lineCourse width height x0 y0 x1 y1).2 := by
  intro hclaim
  exact absurd (hclaim 4 1 0 0 10 0) (by decide)

end Kumo
