import Kumo.Kernel.Sessions

/-!
# The pointer and the window it drags

The cursor and the dragged window move by the same amount, but each is clamped to
bounds of its own. The cursor still never leaves the title bar: both clamps are
monotone, and they differ by less than the width of the window and by less than the
height of the title bar.
-/

namespace Kumo

/-- A framebuffer of 30 by 26 pixels or more is far from the limits of an `int32_t`. -/
theorem Framebuffer.size_lt (f : Framebuffer) (hw : 30 ≤ f.width) (hh : 26 ≤ f.height) :
    f.width < 2 ^ 27 ∧ f.height < 2 ^ 27 := by
  have hrow : f.width * 2 ≤ f.pitch := by
    refine Nat.le_trans (Nat.mul_le_mul_left _ ?_) f.row
    rcases f.depth with hb | hb | hb <;> rw [hb] <;> decide
  have hwidth : f.width * 2 * 26 ≤ 2 ^ 32 :=
    Nat.le_trans (Nat.mul_le_mul hrow hh) f.fits
  have hheight : 30 * 2 * f.height ≤ 2 ^ 32 :=
    Nat.le_trans (Nat.mul_le_mul_right _ (Nat.le_trans (Nat.mul_le_mul_right 2 hw) hrow)) f.fits
  omega

namespace Desktop

variable {f : Framebuffer}

/-- The origin of a window is inside the clamp of `on_mouse_move`. -/
def InClamp (f : Framebuffer) (w : Window) : Prop :=
  0 ≤ w.x ∧ w.x ≤ (f.width : Int) - minGrip ∧ 0 ≤ w.y ∧ w.y ≤ (f.height : Int) - titleBarH

instance (f : Framebuffer) (w : Window) : Decidable (InClamp f w) :=
  inferInstanceAs (Decidable (_ ∧ _ ∧ _ ∧ _))

/-- A point is on the title bar of a window, in exact arithmetic. -/
def InTitleBar (w : Window) (x y : Int) : Prop :=
  w.x ≤ x ∧ x < w.x + w.w ∧ w.y ≤ y ∧ y < w.y + titleBarH

/-- A coordinate moved by `d` and clamped to `[0, limit]`. -/
def clampTo (limit v : Int) : Int := min (max v 0) limit

/-- One axis of a drag: the grabbed point stays within `size` of the window's edge, because the two
limits differ by less than `size`. -/
theorem clampTo_grip {edge point size : Int} (limit limit' d : Int) (hedge : 0 ≤ edge)
    (hlimit : edge ≤ limit) (hle : edge ≤ point) (hlt : point < edge + size)
    (hlimits : limit ≤ limit') (hsize : limit' < limit + size) :
    clampTo limit (edge + d) ≤ clampTo limit' (point + d) ∧
      clampTo limit' (point + d) < clampTo limit (edge + d) + size ∧
      0 ≤ clampTo limit (edge + d) ∧ clampTo limit (edge + d) ≤ limit := by
  unfold clampTo
  omega

/-- On a window in the clamp the hit test of the title bar does not wrap. -/
theorem windowHitTestTitleBar_iff {w : Window} (hw : 30 ≤ f.width) (hh : 26 ≤ f.height)
    (hclamp : InClamp f w) (hsize : w.w < 2 ^ 30) (x y : Int) :
    windowHitTestTitleBar w x y = true ↔ InTitleBar w x y := by
  obtain ⟨hwidth, hheight⟩ := f.size_lt hw hh
  obtain ⟨h1, h2, h3, h4⟩ := hclamp
  have hright : wrap32 (w.x + w.w) = w.x + w.w := wrap32_eq (by omega) (by omega)
  have hbottom : wrap32 (w.y + titleBarH) = w.y + titleBarH := by
    rw [titleBarH] at *
    exact wrap32_eq (by omega) (by omega)
  unfold windowHitTestTitleBar InTitleBar
  rw [hright, hbottom]
  simp only [Bool.and_eq_true, decide_eq_true_eq, and_assoc]

/-- The windows are in the clamp and the cursor is on the screen; a dragged window is held by its
title bar. -/
structure Held (f : Framebuffer) (x y : Int) (d : Desktop) : Prop where
  arranged : d.Arranged
  cursor : 0 ≤ x ∧ x ≤ f.width ∧ 0 ≤ y ∧ y ≤ f.height
  placed : ∀ p ∈ d.windows.zorder, InClamp f (d.win p) ∧ 18 < (d.win p).w ∧ (d.win p).w < 2 ^ 30
  held : d.drag ≠ 0 → InTitleBar (d.win d.drag) x y

/-- A click at the cursor keeps a dragged window held. -/
theorem Held.click {x y : Int} {d d' : Desktop} {buttons : Nat} (h : Held f x y d)
    (hw : 30 ≤ f.width) (hh : 26 ≤ f.height) (hclick : Clicked f d x y buttons d') :
    Held f x y d' := by
  have hwin : d'.win = d.win := hclick.win_eq
  obtain ⟨harranged, hstep⟩ := hclick.arranged h.arranged
  have hkeep : d'.drag = d.drag → d'.drag ≠ 0 → InTitleBar (d'.win d'.drag) x y := by
    intro hsame hdrag
    rw [hsame] at hdrag ⊢
    rw [hwin]
    exact h.held hdrag
  refine ⟨harranged, h.cursor, fun p hp => ?_, ?_⟩
  · rw [hwin]
    exact h.placed p ((hstep.mem_iff p).mp hp).1
  · cases hclick with
    | close _ _ hbecomes =>
        by_cases hself : d.drag = d.hit x y
        · have hzero := hbecomes.drag_eq
          rw [if_pos hself] at hzero
          exact fun hdrag => absurd hzero hdrag
        · have hsame := hbecomes.drag_eq
          rw [if_neg hself] at hsame
          exact hkeep hsame
    | grab _ _ htitle hbecomes =>
        intro _
        have hplaced := h.placed _ (hit_mem htitle.1)
        rw [hbecomes.drag_eq, hwin]
        exact (windowHitTestTitleBar_iff hw hh hplaced.1 hplaced.2.2 x y).mp htitle.2
    | press _ _ _ _ _ _ hbecomes => exact hkeep hbecomes.drag_eq
    | drop _ _ hbecomes => exact fun hdrag => absurd hbecomes.drag_eq hdrag
    | release _ _ _ _ hbecomes => exact hkeep hbecomes.drag_eq
    | raise _ _ hbecomes => exact hkeep hbecomes.drag_eq

/-- The clamp of both callbacks, on a screen that is large enough. -/
theorem clampCursor_eq_clampTo {v d : Int} {screen size : Nat} (hscreen : screen < 2 ^ 27)
    (hsize : size < 2 ^ 27) (hlo : 0 ≤ v) (hhi : v ≤ screen) (hd : -128 ≤ d ∧ d ≤ 128) :
    clampCursor (wrap32 (v + d)) screen size = clampTo (screen - size) (v + d) := by
  rw [clampCursor_eq _ (by omega) (by omega), wrap32_eq (by omega) (by omega), clampTo]

theorem int8_bounds {b : Nat} (h : b < 256) : -128 ≤ int8 b ∧ int8 b ≤ 127 := by
  unfold int8
  split <;> omega

theorem decoded_bounds (p : Packet) :
    (-128 ≤ p.decoded.1 ∧ p.decoded.1 ≤ 127) ∧ -128 ≤ p.decoded.2 ∧ p.decoded.2 ≤ 127 :=
  ⟨int8_bounds (by omega), int8_bounds (by omega)⟩

/-- A movement keeps a dragged window held. -/
theorem Held.move {m : Mouse} {d : Desktop} (h : Held f m.cursorX m.cursorY d)
    (hw : 30 ≤ f.width) (hh : 26 ≤ f.height) (p : Packet) :
    Held f (cursorAfter f m p).1 (cursorAfter f m p).2 (d.movePart f m p) := by
  obtain ⟨hwidth, hheight⟩ := f.size_lt hw hh
  obtain ⟨hx0, hx1, hy0, hy1⟩ := h.cursor
  obtain ⟨⟨hdx0, hdx1⟩, hdy0, hdy1⟩ := decoded_bounds p
  obtain ⟨horder, hdrag, _, hwin⟩ := movePart_becomes (f := f) m d p
  by_cases hmove : p.decoded = (0, 0)
  · rw [cursorAfter, if_pos hmove, movePart, if_pos hmove]
    exact h
  have hcx : (cursorAfter f m p).1 = clampTo (f.width - cursorW) (m.cursorX + p.decoded.1) := by
    rw [cursorAfter, if_neg hmove]
    exact clampCursor_eq_clampTo hwidth (by decide) hx0 hx1 ⟨hdx0, by omega⟩
  have hcy : (cursorAfter f m p).2 = clampTo (f.height - cursorH) (m.cursorY + -p.decoded.2) := by
    rw [cursorAfter, if_neg hmove, Int.sub_eq_add_neg]
    exact clampCursor_eq_clampTo hheight (by decide) hy0 hy1 (by omega)
  have hcursor : 0 ≤ (cursorAfter f m p).1 ∧ (cursorAfter f m p).1 ≤ f.width ∧
      0 ≤ (cursorAfter f m p).2 ∧ (cursorAfter f m p).2 ≤ f.height := by
    rw [hcx, hcy, cursorW, cursorH, clampTo, clampTo]
    omega
  by_cases hnone : d.drag = 0
  · rw [if_pos (.inr hnone)] at hwin
    refine ⟨movePart_arranged h.arranged m p, hcursor, fun q hq => ?_, fun hne => ?_⟩
    · rw [win, hwin]
      exact h.placed q (horder ▸ hq)
    · exact absurd (hdrag.trans hnone) hne
  -- the dragged window and the cursor move together
  have hmem := h.arranged.drag.resolve_left hnone
  obtain ⟨⟨h1, h2, h3, h4⟩, hlo, hhi⟩ := h.placed _ hmem
  obtain ⟨t1, t2, t3, t4⟩ := h.held hnone
  rw [minGrip] at h2
  rw [titleBarH] at h4 t4
  have hnew : dragged f (d.win d.drag) p.decoded.1 p.decoded.2 =
      { d.win d.drag with
        x := clampTo (f.width - minGrip) ((d.win d.drag).x + p.decoded.1)
        y := clampTo (f.height - titleBarH) ((d.win d.drag).y + -p.decoded.2) } := by
    rw [dragged, Int.sub_eq_add_neg,
      clampCursor_eq_clampTo hwidth (by decide) h1 (by omega) ⟨hdx0, by omega⟩,
      clampCursor_eq_clampTo hheight (by decide) h3 (by omega) (by omega)]
  obtain ⟨gx1, gx2, gx3, gx4⟩ := clampTo_grip ((f.width : Int) - minGrip)
    ((f.width : Int) - cursorW) p.decoded.1 h1 (by rw [minGrip]; omega) t1 t2
    (by rw [minGrip, cursorW]; omega) (by rw [minGrip, cursorW]; omega)
  obtain ⟨gy1, gy2, gy3, gy4⟩ := clampTo_grip ((f.height : Int) - titleBarH)
    ((f.height : Int) - cursorH) (-p.decoded.2) h3 (by rw [titleBarH]; omega) t3 t4
    (by rw [titleBarH, cursorH]; omega) (by rw [titleBarH, cursorH]; omega)
  rw [if_neg (not_or.mpr ⟨hmove, hnone⟩), hnew] at hwin
  refine ⟨movePart_arranged h.arranged m p, hcursor, fun q hq => ?_, fun _ => ?_⟩
  · rw [win, hwin]
    by_cases hq' : q = d.drag
    · rw [hq', Function.update_self]
      exact ⟨⟨gx3, gx4, gy3, gy4⟩, hlo, hhi⟩
    · rw [Function.update_of_ne hq']
      exact h.placed q (horder ▸ hq)
  · rw [hdrag, win, hwin, Function.update_self, hcx, hcy]
    exact ⟨gx1, gx2, gy1, gy2⟩

/-- The decoder is between two packets, and the cursor holds a dragged window. -/
def Session.Held (f : Framebuffer) (s : Session) : Prop :=
  s.1.cycle = 0 ∧ Desktop.Held f s.1.cursorX s.1.cursorY s.2

/-- Every event keeps a dragged window held. -/
theorem Session.Held.step (hw : 30 ≤ f.width) (hh : 26 ≤ f.height) {s s' : Session}
    {event : SessionEvent} (hs : Session.Held f s) (hstep : Session.step f s event = some s') :
    Session.Held f s' := by
  obtain ⟨m, d⟩ := s
  obtain ⟨hcycle, h⟩ := hs
  cases event with
  | flush =>
      obtain rfl := Option.some.inj hstep
      obtain ⟨hwindows, hdrag, _⟩ := wmFlushDirty_becomes (f := f) d
      refine ⟨hcycle, ?_, h.cursor, ?_, ?_⟩
      · exact h.arranged.keep (congrArg WindowList.zorder hwindows)
          (by rw [hdrag]; exact h.arranged.drag)
      · simp only [win, hwindows]
        exact h.placed
      · rw [hdrag, win, hwindows]
        exact h.held
  | packet p =>
      by_cases hfirst : m.firstPacket = true
      · obtain ⟨m', heq, hcycle', _, hcursor, _⟩ := step_discard (f := f) d p hcycle hfirst
        obtain rfl := Option.some.inj (heq.symm.trans hstep)
        obtain ⟨hx, hy⟩ := Prod.mk.inj hcursor
        exact ⟨hcycle', by rw [hx, hy]; exact h⟩
      · obtain ⟨m', heq, hcycle', _, _, hcursor⟩ := step_process (f := f) d p hcycle
          (Bool.eq_false_iff.mpr hfirst)
        obtain ⟨clicked, hclick, rfl⟩ := Option.map_eq_some_iff.mp (heq.symm.trans hstep)
        have hclicked : Desktop.Held f m.cursorX m.cursorY clicked := by
          unfold clickPart at hclick
          split at hclick
          · obtain rfl := Option.some.inj hclick
            exact h
          · exact h.click hw hh (onMouseClick_clicked hclick)
        have hmoved := hclicked.move hw hh p
        rw [← hcursor] at hmoved
        exact ⟨hcycle', hmoved⟩

end Desktop

end Kumo
