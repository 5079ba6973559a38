import Kumo.Kernel.Damage
import Kumo.Kernel.FullRedraw

/-!
# Repainting a dirty rectangle

`wm_flush_dirty` fills the rectangle and redraws, whole and from bottom to top, the windows that
meet it. The picture is the one of `wm_draw_all` just if no such window is drawn over a window
above it that is not redrawn, nothing of a window that is not redrawn is in the rectangle, and the
rectangle has no bare pixel in the last column or row of the screen, which `wm_draw_all` does not
fill.
-/

namespace Kumo

/-- The last element of a list that has a property. -/
def Topmost {α : Type} (P : α → Prop) (l : List α) (a : α) : Prop :=
  ∃ lower upper, l = lower ++ a :: upper ∧ P a ∧ ∀ b ∈ upper, ¬ P b

section Topmost

variable {α : Type} {P : α → Prop} {l : List α} {a b : α}

theorem exists_topmost (h : ∃ a ∈ l, P a) : ∃ a, Topmost P l a := by
  induction l with
  | nil => exact absurd h (by simp)
  | cons b l ih =>
      by_cases hlater : ∃ a ∈ l, P a
      · obtain ⟨a, lower, upper, rfl, ha, hupper⟩ := ih hlater
        exact ⟨a, b :: lower, upper, rfl, ha, hupper⟩
      · obtain ⟨a, ha, hP⟩ := h
        rcases List.mem_cons.mp ha with rfl | ha
        · exact ⟨a, [], l, rfl, hP, fun c hc hPc => hlater ⟨c, hc, hPc⟩⟩
        · exact absurd ⟨a, ha, hP⟩ hlater

theorem Topmost.mem (h : Topmost P l a) : a ∈ l := by
  obtain ⟨lower, upper, rfl, -, -⟩ := h
  simp

theorem Topmost.holds (h : Topmost P l a) : P a := by
  obtain ⟨lower, upper, -, ha, -⟩ := h
  exact ha

theorem Topmost.tail (h : Topmost P (b :: l) a) (hlater : ∃ c ∈ l, P c) : Topmost P l a := by
  obtain ⟨lower, upper, heq, ha, hupper⟩ := h
  cases lower with
  | nil =>
      obtain ⟨rfl, rfl⟩ := List.cons.inj heq
      obtain ⟨c, hc, hP⟩ := hlater
      exact absurd hP (hupper c hc)
  | cons d lower =>
      obtain ⟨rfl, rfl⟩ := List.cons.inj heq
      exact ⟨lower, upper, rfl, ha, hupper⟩

theorem Topmost.unique (ha : Topmost P l a) (hb : Topmost P l b) : a = b := by
  induction l with
  | nil => cases ha.mem
  | cons c l ih =>
      by_cases hlater : ∃ d ∈ l, P d
      · exact ih (ha.tail hlater) (hb.tail hlater)
      · rcases List.mem_cons.mp ha.mem with rfl | hmem
        · rcases List.mem_cons.mp hb.mem with rfl | hmem
          · rfl
          · exact absurd ⟨b, hmem, hb.holds⟩ hlater
        · exact absurd ⟨a, hmem, ha.holds⟩ hlater

end Topmost

namespace Framebuffer

/-- Painting the same strokes once more changes nothing. -/
theorem paint_again (f : Framebuffer) (s : Screen) (ps : List Stroke) {px py : Nat}
    (hv : f.Visible px py) : f.paint (f.paint s ps) ps px py = f.paint s ps px py := by
  by_cases hhit : ∃ p ∈ ps, p.x = px ∧ p.y = py
  · exact paint_hit hv hhit
  · exact paint_other fun _ p hp hpos => hhit ⟨p, hp, hpos⟩

end Framebuffer

namespace Desktop

open CursorScreen

variable (f : Framebuffer) (d : Desktop)

/-- A window, or the calculator in it, is drawn on the pixel. -/
def Draws (px py win : Nat) : Prop := ∃ p ∈ d.redrawWindow f win, p.x = px ∧ p.y = py

/-- The value that a window gives to the pixel. -/
def shade (px py win : Nat) : Nat := f.paint (fun _ _ => 0) (d.redrawWindow f win) px py

/-- The windows that `wm_flush_dirty` redraws. -/
def repainted : List Nat := d.windows.zorder.filter fun p => touches d.dirty (d.win p)

/-- What `wm_draw_all` leaves on a screen without a cursor. -/
def fullScene (s : Screen) : Screen :=
  (({ d with drawn := [] } : Desktop).wmDrawAll f).drawn.foldl (execScene f) s

/-- What `wm_flush_dirty` leaves on a screen without a cursor. -/
def flushScene (s : Screen) : Screen :=
  (({ d with drawn := [] } : Desktop).wmFlushDirty f).drawn.foldl (execScene f) s

/-- At a pixel the windows that are redrawn and those that are not lie so that the repaint gives the
picture of a full redraw. -/
structure PixelSafe (s : Screen) (px py : Nat) : Prop where
  /-- The topmost window that is redrawn is the topmost one, or looks like it. -/
  above : ∀ win top, Topmost (d.Draws f px py) d.repainted win →
    Topmost (d.Draws f px py) d.windows.zorder top → d.shade f px py win = d.shade f px py top
  /-- Only redrawn windows are drawn in the rectangle, or the other ones look like the desktop. -/
  spared : d.dirty.box.Contains px py → (∀ win ∈ d.repainted, ¬ d.Draws f px py win) →
    ∀ top, Topmost (d.Draws f px py) d.windows.zorder top →
      d.shade f px py top = f.desktopColor % 2 ^ f.bpp
  /-- The last column and row are not in the rectangle, or look like the desktop. -/
  edge : d.dirty.box.Contains px py → (∀ win ∈ d.windows.zorder, ¬ d.Draws f px py win) →
    px + 1 = f.width ∨ py + 1 = f.height → s px py = f.desktopColor % 2 ^ f.bpp

variable {f d} {s : Screen} {px py : Nat}

/-- The topmost window that is drawn on a pixel decides about it. -/
theorem paint_windows_topmost (hv : f.Visible px py) {wins : List Nat} {win : Nat}
    (h : Topmost (d.Draws f px py) wins win) (s : Screen) :
    f.paint s (wins.flatMap (d.redrawWindow f)) px py = d.shade f px py win := by
  obtain ⟨lower, upper, rfl, hdraws, hupper⟩ := h
  rw [List.flatMap_append, List.flatMap_cons, Framebuffer.paint_append, Framebuffer.paint_append]
  refine (Framebuffer.paint_other fun _ p hp hpos => ?_).trans (Framebuffer.paint_hit hv hdraws)
  obtain ⟨above, habove, hp⟩ := List.mem_flatMap.mp hp
  exact hupper above habove ⟨p, hp, hpos⟩

/-- A pixel on which no window is drawn. -/
theorem paint_windows_none {wins : List Nat} (h : ∀ win ∈ wins, ¬ d.Draws f px py win)
    (s : Screen) : f.paint s (wins.flatMap (d.redrawWindow f)) px py = s px py := by
  refine Framebuffer.paint_other fun _ p hp hpos => ?_
  obtain ⟨win, hwin, hp⟩ := List.mem_flatMap.mp hp
  exact h win hwin ⟨p, hp, hpos⟩

theorem fullScene_eq (d : Desktop) (s : Screen) :
    d.fullScene f s = f.paint (f.paint s (f.fillRect 0 0 (word ((f.width : Int) - 1))
      (word ((f.height : Int) - 1)) f.desktopColor)) (d.windows.zorder.flatMap (d.redrawWindow f)) :=
  Framebuffer.paint_append s _ _

theorem flushScene_eq (hvalid : d.dirty.valid = true) (s : Screen) :
    d.flushScene f s = f.paint (f.paint s (f.fillRect (word d.dirty.x) (word d.dirty.y) d.dirty.w
      d.dirty.h f.desktopColor)) (d.repainted.flatMap (d.redrawWindow f)) := by
  rw [← Framebuffer.paint_append]
  unfold flushScene wmFlushDirty snapshot
  rw [if_pos hvalid]
  rfl

/-- The fill of the rectangle. -/
theorem mem_dirty_fill (hdirty : OnScreen f d.dirty.box) (hv : f.Visible px py) (color : Nat) :
    (∃ p ∈ f.fillRect (word d.dirty.x) (word d.dirty.y) d.dirty.w d.dirty.h color,
      p.x = px ∧ p.y = py) ↔ d.dirty.box.Contains px py := by
  have hlim := f.limits hv
  obtain ⟨hin, -⟩ := hdirty
  rw [IntBox.le_def] at hin
  unfold Dirty.box Framebuffer.box at hin
  obtain ⟨hleft, hright, htop, hbottom⟩ := hin
  dsimp only at hleft hright htop hbottom
  have hx := word_eq hleft (by omega)
  have hy := word_eq htop (by omega)
  obtain ⟨hvx, hvy⟩ := hv
  unfold IntBox.Contains Dirty.box
  dsimp only
  constructor
  · rintro ⟨p, hp, rfl, rfl⟩
    rw [Framebuffer.mem_fillRect_iff (by omega) (by omega)] at hp
    omega
  · intro hcontains
    refine ⟨⟨px, py, color⟩, ?_, rfl, rfl⟩
    rw [Framebuffer.mem_fillRect_iff (by omega) (by omega)]
    dsimp only
    omega

/-- A pixel that a fill hits or misses. -/
theorem paint_fill (hv : f.Visible px py) (x y w h color : Nat) (s : Screen) :
    ((∃ p ∈ f.fillRect x y w h color, p.x = px ∧ p.y = py) →
      f.paint s (f.fillRect x y w h color) px py = color % 2 ^ f.bpp) ∧
      ((¬ ∃ p ∈ f.fillRect x y w h color, p.x = px ∧ p.y = py) →
        f.paint s (f.fillRect x y w h color) px py = s px py) := by
  refine ⟨fun hhit => Framebuffer.paint_uniform hv hhit fun p hp _ _ => ?_, fun hmiss =>
    Framebuffer.paint_other fun _ p hp hpos => hmiss ⟨p, hp, hpos⟩⟩
  exact Framebuffer.color_fillRect hp

/-- A pixel of the repaint is the one of a full redraw just if the windows lie right there. -/
theorem flush_pixel_iff (hvalid : d.dirty.valid = true) (hdirty : OnScreen f d.dirty.box)
    (hv : f.Visible px py)
    (hshows : ¬ d.dirty.box.Contains px py → s px py = d.fullScene f s px py) :
    d.flushScene f s px py = d.fullScene f s px py ↔ d.PixelSafe f s px py := by
  have hsub : ∀ win ∈ d.repainted, win ∈ d.windows.zorder := fun win => List.mem_of_mem_filter
  obtain ⟨hfilled, hunfilled⟩ := paint_fill hv (word d.dirty.x) (word d.dirty.y) d.dirty.w d.dirty.h
    f.desktopColor s
  obtain ⟨hdesktop, hbare⟩ := paint_fill hv 0 0 (word ((f.width : Int) - 1))
    (word ((f.height : Int) - 1)) f.desktopColor s
  rw [mem_dirty_fill hdirty hv] at hfilled hunfilled
  rw [mem_desktop_fill hv] at hdesktop hbare
  obtain ⟨hvx, hvy⟩ := id hv
  by_cases hredrawn : ∃ win ∈ d.repainted, d.Draws f px py win
  · -- the topmost redrawn window against the topmost one
    obtain ⟨win, hwin⟩ := exists_topmost hredrawn
    obtain ⟨top, htop⟩ := exists_topmost (l := d.windows.zorder) (P := d.Draws f px py)
      ⟨win, hsub win hwin.mem, hwin.holds⟩
    rw [flushScene_eq hvalid, fullScene_eq, paint_windows_topmost hv hwin,
      paint_windows_topmost hv htop]
    constructor
    · intro hsame
      refine ⟨fun win' top' hwin' htop' => ?_, fun _ hnone => ?_, fun _ hnone => ?_⟩
      · rwa [hwin'.unique hwin, htop'.unique htop]
      · exact absurd hwin.holds (hnone win hwin.mem)
      · exact absurd hwin.holds (hnone win (hsub win hwin.mem))
    · exact fun hsafe => hsafe.above win top hwin htop
  · have hnone : ∀ win ∈ d.repainted, ¬ d.Draws f px py win :=
      fun win hwin hdraws => hredrawn ⟨win, hwin, hdraws⟩
    have habove : ∀ win top, Topmost (d.Draws f px py) d.repainted win →
        Topmost (d.Draws f px py) d.windows.zorder top →
          d.shade f px py win = d.shade f px py top :=
      fun win _ hwin => absurd hwin.holds (hnone win hwin.mem)
    by_cases hin : d.dirty.box.Contains px py
    · by_cases hcovered : ∃ win ∈ d.windows.zorder, d.Draws f px py win
      · -- the desktop against a window that is not redrawn
        obtain ⟨top, htop⟩ := exists_topmost hcovered
        rw [flushScene_eq hvalid, fullScene_eq, paint_windows_none hnone,
          paint_windows_topmost hv htop, hfilled hin]
        constructor
        · intro hsame
          refine ⟨habove, fun _ _ top' htop' => ?_, fun _ hbare => ?_⟩
          · rw [htop'.unique htop, hsame]
          · exact absurd htop.holds (hbare top htop.mem)
        · exact fun hsafe => (hsafe.spared hin hnone top htop).symm
      · -- the desktop against what a full redraw leaves bare
        have hbareAll : ∀ win ∈ d.windows.zorder, ¬ d.Draws f px py win :=
          fun win hwin hdraws => hcovered ⟨win, hwin, hdraws⟩
        rw [flushScene_eq hvalid, fullScene_eq, paint_windows_none hnone,
          paint_windows_none hbareAll, hfilled hin]
        by_cases hinner : px + 1 < f.width ∧ py + 1 < f.height
        · rw [hdesktop hinner]
          refine iff_of_true rfl ⟨habove, fun _ _ top htop => ?_, fun _ _ hedge => ?_⟩
          · exact absurd htop.holds (hbareAll top htop.mem)
          · omega
        · rw [hbare hinner]
          constructor
          · intro hsame
            refine ⟨habove, fun _ _ top htop => ?_, fun _ _ _ => hsame.symm⟩
            exact absurd htop.holds (hbareAll top htop.mem)
          · exact fun hsafe => (hsafe.edge hin hbareAll (by omega)).symm
    · -- outside the rectangle nothing is drawn
      rw [flushScene_eq hvalid, paint_windows_none hnone, hunfilled hin]
      exact iff_of_true (hshows hin) ⟨habove, fun hin' => absurd hin' hin, fun hin' => absurd hin' hin⟩

/-- For a screen that shows, outside the dirty rectangle, what `wm_draw_all` paints,
`wm_flush_dirty` leaves the picture of `wm_draw_all` just if at every pixel the windows that are
redrawn and those that are not lie right. -/
theorem flush_full_iff (f : Framebuffer) (d : Desktop) (s : Screen)
    (hvalid : d.dirty.valid = true) (hdirty : OnScreen f d.dirty.box)
    (hshows : ∀ px py, f.Visible px py → ¬ d.dirty.box.Contains px py →
      s px py = d.fullScene f s px py) :
    (∀ px py, f.Visible px py → d.flushScene f s px py = d.fullScene f s px py) ↔
      ∀ px py, f.Visible px py → d.PixelSafe f s px py :=
  forall_congr' fun px => forall_congr' fun py => forall_congr' fun hv =>
    flush_pixel_iff hvalid hdirty hv (hshows px py hv)

/-- Two windows that overlap, with a dirty rectangle that only the first one meets. -/
def overlapping (windows : List Nat) : Desktop :=
  { Desktop.start (fun win => if win = 1 then ⟨10, 10, 30, 29, [], 1, 2, false⟩
      else ⟨30, 20, 40, 40, [], 3, 4, false⟩) 0 windows with dirty := ⟨10, 10, 5, 5, true⟩ }

/-- Their picture. -/
def overlappingScene (windows : List Nat) : Screen :=
  (overlapping windows).fullScene sampleScreen fun _ _ => 0

theorem overlapping_dirty (windows : List Nat) :
    OnScreen sampleScreen (overlapping windows).dirty.box := by
  have hbox : (overlapping windows).dirty.box = ⟨10, 15, 10, 15⟩ := rfl
  rw [hbox]
  exact ⟨by rw [IntBox.le_def]; decide, by decide⟩

/-- The picture of a full redraw shows what a full redraw paints. -/
theorem fullScene_again (s : Screen) (hv : f.Visible px py) :
    d.fullScene f s px py = d.fullScene f (d.fullScene f s) px py :=
  (f.paint_again s _ hv).symm

theorem overlapping_shows (windows : List Nat) : ∀ px py, sampleScreen.Visible px py →
    ¬ (overlapping windows).dirty.box.Contains px py → overlappingScene windows px py =
      (overlapping windows).fullScene sampleScreen (overlappingScene windows) px py := by
  intro px py hv _
  unfold overlappingScene
  exact fullScene_again _ hv

/-- With the first window alone. -/
theorem flush_full_iff_sample :
    (overlapping [1]).flushScene sampleScreen (overlappingScene [1]) 12 12 =
      (overlapping [1]).fullScene sampleScreen (overlappingScene [1]) 12 12 := by
  have hall : (overlapping [1]).repainted = (overlapping [1]).windows.zorder := by decide
  have hsafe : ∀ px py, sampleScreen.Visible px py →
      (overlapping [1]).PixelSafe sampleScreen (overlappingScene [1]) px py := by
    intro px py hv
    refine ⟨fun win top hwin htop => ?_, fun _ hnone top htop => ?_, fun hin _ hedge => ?_⟩
    · rw [hall] at hwin
      rw [hwin.unique htop]
    · rw [hall] at hnone
      exact absurd htop.holds (hnone top htop.mem)
    · obtain ⟨-, hx, -, hy⟩ := hin
      have hx : (px : Int) < 15 := hx
      have hy : (py : Int) < 15 := hy
      have hedge : px + 1 = 1024 ∨ py + 1 = 768 := hedge
      omega
  have hvisible : sampleScreen.Visible 12 12 := by decide
  exact (flush_full_iff sampleScreen (overlapping [1]) (overlappingScene [1]) rfl
    (overlapping_dirty [1]) (overlapping_shows [1])).mpr hsafe 12 12 hvisible

/-- The first window is drawn over the second one, which is above it and does not meet the
rectangle: the pixel `(37, 30)` belongs to the second one. -/
theorem flush_hides_window : ¬ ∀ (f : Framebuffer) (d : Desktop) (s : Screen),
    d.dirty.valid = true → OnScreen f d.dirty.box →
      (∀ px py, f.Visible px py → ¬ d.dirty.box.Contains px py →
        s px py = d.fullScene f s px py) →
      ∀ px py, f.Visible px py → d.flushScene f s px py = d.fullScene f s px py := by
  intro hclaim
  have hvisible : sampleScreen.Visible 37 30 := by decide
  have hpixel := hclaim sampleScreen (overlapping [1, 2]) (overlappingScene [1, 2]) rfl
    (overlapping_dirty [1, 2]) (overlapping_shows [1, 2]) 37 30 hvisible
  have hsafe : (overlapping [1, 2]).PixelSafe sampleScreen (overlappingScene [1, 2]) 37 30 :=
    (flush_pixel_iff rfl (overlapping_dirty [1, 2]) hvisible
      (overlapping_shows [1, 2] 37 30 hvisible)).mp hpixel
  have hfirst : (overlapping [1, 2]).Draws sampleScreen 37 30 1 := by
    unfold Draws
    decide +kernel
  have hsecond : (overlapping [1, 2]).Draws sampleScreen 37 30 2 := by
    unfold Draws
    decide +kernel
  have hredrawn : (overlapping [1, 2]).repainted = [1] := by decide
  have hzorder : (overlapping [1, 2]).windows.zorder = [1, 2] := by decide
  have hshade := hsafe.above 1 2 ⟨[], [], hredrawn, hfirst, by simp⟩
    ⟨[1], [], hzorder, hsecond, by simp⟩
  exact absurd hshade (by decide +kernel)

end Desktop

end Kumo
