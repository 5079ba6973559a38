import Kumo.Gfx.Outline
import Kumo.Kernel.CursorRuns

/-!
# A full redraw

`wm_draw_all` fills the desktop one column and one row short of the screen, draws the windows and
shows the cursor. What was on the screen before is forgotten just if the last column and the last
row are drawn by a window or by the cursor.
-/

namespace Kumo

namespace Framebuffer

variable {f : Framebuffer}

/-- A list of strokes forgets what was on the screen just if it hits every pixel. -/
theorem paint_forgets_iff (ps : List Stroke) :
    (∀ s s', f.Stored s → f.Stored s' → ∀ px py, f.Visible px py →
      f.paint s ps px py = f.paint s' ps px py) ↔
      ∀ px py, f.Visible px py → ∃ p ∈ ps, p.x = px ∧ p.y = py := by
  constructor
  · intro hforgets px py hv
    by_contra hmiss
    obtain ⟨s, hs, hne⟩ := exists_screen_ne f 0
    have hpixel := hforgets s (fun _ _ => 0) hs (Desktop.stored_black f) px py hv
    have hkept : ∀ s, f.paint s ps px py = s px py :=
      fun s => paint_other fun _ p hp hpos => hmiss ⟨p, hp, hpos⟩
    rw [hkept, hkept] at hpixel
    exact hne px py (hpixel.trans (Nat.zero_mod _).symm)
  · intro hhit s s' _ _ px py hv
    exact paint_hit hv (hhit px py hv)

end Framebuffer

namespace Desktop

open CursorScreen

/-- The screen after `wm_draw_all`. -/
def screenAfter (f : Framebuffer) (d : Desktop) (c : CursorScreen) : Screen :=
  ((({ d with drawn := [] } : Desktop).wmDrawAll f).drawn.foldl (exec f) c).screen

/-- A window, or the calculator in it, draws the pixel. -/
def CoveredByWindow (f : Framebuffer) (d : Desktop) (px py : Nat) : Prop :=
  ∃ win ∈ d.windows.zorder, ∃ p ∈ d.redrawWindow f win, p.x = px ∧ p.y = py

/-- The cursor is drawn on the pixel. -/
def CoveredByCursor (f : Framebuffer) (x y : Int) (px py : Nat) : Prop :=
  ∃ p ∈ f.cursorStrokes x y, p.x = px ∧ p.y = py

variable {f : Framebuffer}

/-- Strokes between `mouse_cursor_hide` and `mouse_cursor_show`, with the cursor hidden. -/
theorem exec_hidden {c : CursorScreen} (hhidden : c.visible = false) (ps : List Stroke) :
    ([.hide, .strokes ps, .show].foldl (exec f) c).screen =
      f.paint c.screen (ps ++ f.cursorStrokes c.x c.y) := by
  have hrestore : c.cursorRestore f = c := by
    rw [cursorRestore, hhidden]
    rfl
  simp only [List.foldl_cons, List.foldl_nil, exec, hrestore]
  rw [Framebuffer.paint_append]
  rfl

/-- With the cursor hidden `wm_draw_all` paints the desktop, the windows and the cursor. -/
theorem screenAfter_hidden (d : Desktop) {c : CursorScreen} (hhidden : c.visible = false) :
    d.screenAfter f c = f.paint c.screen
      (f.fillRect 0 0 (word ((f.width : Int) - 1)) (word ((f.height : Int) - 1)) f.desktopColor ++
        d.windows.zorder.flatMap (d.redrawWindow f) ++ f.cursorStrokes c.x c.y) :=
  exec_hidden hhidden _

/-- The fill of the desktop leaves the last column and the last row out. -/
theorem mem_desktop_fill {px py : Nat} (hv : f.Visible px py) (color : Nat) :
    (∃ p ∈ f.fillRect 0 0 (word ((f.width : Int) - 1)) (word ((f.height : Int) - 1)) color,
      p.x = px ∧ p.y = py) ↔ px + 1 < f.width ∧ py + 1 < f.height := by
  have hlim := f.limits hv
  obtain ⟨hx, hy⟩ := hv
  have hw : word ((f.width : Int) - 1) = f.width - 1 := by
    unfold word
    omega
  have hh : word ((f.height : Int) - 1) = f.height - 1 := by
    unfold word
    omega
  rw [hw, hh]
  constructor
  · rintro ⟨p, hp, rfl, rfl⟩
    rw [Framebuffer.mem_fillRect_iff (by omega) (by omega)] at hp
    omega
  · intro hin
    refine ⟨⟨px, py, color⟩, ?_, rfl, rfl⟩
    rw [Framebuffer.mem_fillRect_iff (by omega) (by omega)]
    dsimp only
    omega

/-- The pixels that `wm_draw_all` draws, with the cursor at `(x, y)`. -/
theorem hit_drawAll_iff (d : Desktop) (x y : Int) {px py : Nat} (hv : f.Visible px py) :
    (∃ p ∈ f.fillRect 0 0 (word ((f.width : Int) - 1)) (word ((f.height : Int) - 1))
        f.desktopColor ++ d.windows.zorder.flatMap (d.redrawWindow f) ++ f.cursorStrokes x y,
      p.x = px ∧ p.y = py) ↔ (px + 1 < f.width ∧ py + 1 < f.height) ∨
        d.CoveredByWindow f px py ∨ CoveredByCursor f x y px py := by
  have hwindows : (∃ p ∈ d.windows.zorder.flatMap (d.redrawWindow f), p.x = px ∧ p.y = py) ↔
      d.CoveredByWindow f px py := by
    simp only [List.mem_flatMap, CoveredByWindow]
    constructor
    · rintro ⟨p, ⟨win, hwin, hp⟩, hpos⟩
      exact ⟨win, hwin, p, hp, hpos⟩
    · rintro ⟨win, hwin, p, hp, hpos⟩
      exact ⟨p, ⟨win, hwin, hp⟩, hpos⟩
  rw [← mem_desktop_fill hv f.desktopColor, ← hwindows, CoveredByCursor]
  simp only [List.mem_append, or_and_right, exists_or, or_assoc]

/-- A pixel of the last column or row that nothing covers keeps its value. -/
theorem screenAfter_kept (d : Desktop) {c : CursorScreen} (hhidden : c.visible = false)
    {px py : Nat} (hedge : px + 1 = f.width ∨ py + 1 = f.height)
    (huncovered : ¬ (d.CoveredByWindow f px py ∨ CoveredByCursor f c.x c.y px py)) :
    d.screenAfter f c px py = c.screen px py := by
  rw [screenAfter_hidden d hhidden]
  refine Framebuffer.paint_other fun hv p hp hpos => ?_
  have hhit := (hit_drawAll_iff d c.x c.y hv).mp ⟨p, hp, hpos⟩
  rcases hhit with hin | hcovered
  · omega
  · exact huncovered hcovered

/-- A full redraw forgets the past just if every pixel of the last column and of the last row is
drawn by a window or by the cursor. -/
theorem draw_all_forgets_iff (f : Framebuffer) (d : Desktop) (x y : Int) :
    (∀ c c' : CursorScreen, c.visible = false → c'.visible = false →
      (c.x = x ∧ c.y = y) → (c'.x = x ∧ c'.y = y) → f.Stored c.screen → f.Stored c'.screen →
      ∀ px py, f.Visible px py → d.screenAfter f c px py = d.screenAfter f c' px py) ↔
      ∀ px py, f.Visible px py → px + 1 = f.width ∨ py + 1 = f.height →
        d.CoveredByWindow f px py ∨ CoveredByCursor f x y px py := by
  have hcovered : (∀ px py, f.Visible px py → px + 1 = f.width ∨ py + 1 = f.height →
        d.CoveredByWindow f px py ∨ CoveredByCursor f x y px py) ↔
      ∀ px py, f.Visible px py → ∃ p ∈ f.fillRect 0 0 (word ((f.width : Int) - 1))
        (word ((f.height : Int) - 1)) f.desktopColor ++
          d.windows.zorder.flatMap (d.redrawWindow f) ++ f.cursorStrokes x y,
        p.x = px ∧ p.y = py := by
    refine forall_congr' fun px => forall_congr' fun py => forall_congr' fun hv => ?_
    rw [hit_drawAll_iff d x y hv]
    obtain ⟨hvx, hvy⟩ := hv
    constructor
    · intro hother
      by_cases hin : px + 1 < f.width ∧ py + 1 < f.height
      · exact .inl hin
      · exact .inr (hother (by omega))
    · rintro (hin | hother) hedge
      · omega
      · exact hother
  rw [hcovered, ← Framebuffer.paint_forgets_iff]
  constructor
  · intro hredraw s s' hs hs' px py hv
    have hpixel := hredraw ⟨s, x, y, x, y, false, fun _ _ => 0⟩
      ⟨s', x, y, x, y, false, fun _ _ => 0⟩ rfl rfl ⟨rfl, rfl⟩ ⟨rfl, rfl⟩ hs hs' px py hv
    rwa [screenAfter_hidden d rfl, screenAfter_hidden d rfl] at hpixel
  · rintro hpaint c c' hc hc' ⟨rfl, rfl⟩ ⟨hx, hy⟩ hs hs' px py hv
    rw [screenAfter_hidden d hc, screenAfter_hidden d hc', hx, hy]
    exact hpaint _ _ hs hs' px py hv

/-- A window over the whole of a small screen. -/
def maximized (_ : Nat) : Window where
  x := 0
  y := 0
  w := 5
  h := 3
  title := []
  titleBarColor := 0
  bodyColor := 0
  onRedraw := false

/-- A window whose outline is the edge of the screen. -/
theorem draw_all_forgets_iff_sample :
    (Desktop.start maximized 0 [1]).screenAfter smallScreen
        ⟨fun x y => x + y, 0, 0, 0, 0, false, fun _ _ => 0⟩ 5 3 =
      (Desktop.start maximized 0 [1]).screenAfter smallScreen
        ⟨fun _ _ => 0, 0, 0, 0, 0, false, fun _ _ => 0⟩ 5 3 := by
  have hstored : smallScreen.Stored fun x y => x + y := by
    intro x y hv
    have hx : x < 6 := hv.1
    have hy : y < 4 := hv.2
    show x + y < 2 ^ 32
    omega
  have hcovered : ∀ px py, smallScreen.Visible px py →
      px + 1 = smallScreen.width ∨ py + 1 = smallScreen.height →
        (Desktop.start maximized 0 [1]).CoveredByWindow smallScreen px py ∨
          CoveredByCursor smallScreen 0 0 px py := by
    have hwindow : ∀ px < 6, ∀ py < 4, px + 1 = 6 ∨ py + 1 = 4 →
        ∃ win ∈ [1], ∃ p ∈ smallScreen.windowDraw (maximized win), p.x = px ∧ p.y = py := by
      decide +kernel
    intro px py hv hedge
    obtain ⟨win, hwin, p, hp, hpos⟩ := hwindow px hv.1 py hv.2 hedge
    exact .inl ⟨win, hwin, p, List.mem_append_left _ hp, hpos⟩
  exact (draw_all_forgets_iff smallScreen (Desktop.start maximized 0 [1]) 0 0).mpr hcovered _ _
    rfl rfl ⟨rfl, rfl⟩ ⟨rfl, rfl⟩ hstored (stored_black smallScreen) 5 3 (by decide)

/-- On an empty desktop the lower right corner of the screen keeps what was there. -/
theorem draw_all_corner_kept : ¬ ∀ (f : Framebuffer) (d : Desktop) (c c' : CursorScreen),
    c.visible = false → c'.visible = false → c.x = c'.x ∧ c.y = c'.y →
      f.Stored c.screen → f.Stored c'.screen → ∀ px py, f.Visible px py →
        d.screenAfter f c px py = d.screenAfter f c' px py := by
  intro hclaim
  have hkept : ∀ s, (Desktop.start maximized 0 []).screenAfter sampleScreen
      ⟨s, 512, 384, 512, 384, false, fun _ _ => 0⟩ 1023 767 = s 1023 767 := by
    intro s
    refine screenAfter_kept _ rfl (.inl rfl) ?_
    rintro (⟨win, hwin, -⟩ | ⟨p, hp, hpx, hpy⟩)
    · cases hwin
    · obtain ⟨dx, hdx, dy, hdy, hx, hy⟩ := cursorStrokes_under hp
      have hx : word ((512 : Int) + dx) = 1023 := hx.trans hpx
      unfold cursorW word at *
      omega
  have hpixel := hclaim sampleScreen (Desktop.start maximized 0 [])
    ⟨fun _ _ => 0, 512, 384, 512, 384, false, fun _ _ => 0⟩
    ⟨fun _ _ => 1, 512, 384, 512, 384, false, fun _ _ => 0⟩ rfl rfl ⟨rfl, rfl⟩
    (stored_black sampleScreen) (fun _ _ _ => show 1 < 2 ^ 32 by decide) 1023 767 (by decide)
  exact absurd ((hkept fun _ _ => 0).symm.trans (hpixel.trans (hkept fun _ _ => 1))) (by decide)

end Desktop

end Kumo
