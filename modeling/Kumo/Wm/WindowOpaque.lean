import Kumo.Gfx.Outline
import Kumo.Wm.WindowDraw

/-!
# What a window covers

The outline of a window includes its far sides, and its fills are two pixels narrower and lower
than the distance of the sides. So the column before the right side and the row before the lower
side belong to the window, and `window_draw` does not paint them.
-/

namespace Kumo

/-! ## Text -/

/-- The first two rows of every character are blank. -/
theorem glyphBit_first_rows (c col : Nat) {row : Nat} (hrow : row < 2) :
    glyphBit c row col = false := by
  have hrows : ∀ rows ∈ fontData, ∀ row < 2, rows.getD row 0 = 0 := by decide
  have hblank : (fontData.getD (c - fontAsciiFirst) []).getD row 0 = 0 := by
    rw [List.getD_eq_getElem?_getD (l := fontData)]
    cases hget : fontData[c - fontAsciiFirst]? with
    | none => rfl
    | some rows => exact hrows rows (List.mem_of_getElem? hget) row hrow
  rw [glyphBit, hblank, Nat.zero_testBit]

/-- The rows of a character. -/
theorem mem_drawGlyph {x y c color : Nat} {p : Stroke} (hp : p ∈ drawGlyph x y c color) :
    ∃ row, 2 ≤ row ∧ row < fontHeight ∧ p.y = (y + row) % 2 ^ 32 := by
  obtain ⟨row, hrow, hp⟩ := List.mem_flatMap.mp hp
  obtain ⟨col, -, hp⟩ := List.mem_filterMap.mp hp
  by_cases hbit : glyphBit c row col = true
  · rw [if_pos hbit] at hp
    obtain rfl := Option.some.inj hp
    refine ⟨row, Nat.le_of_not_lt fun hlt => ?_, List.mem_range.mp hrow, rfl⟩
    rw [glyphBit_first_rows c col hlt] at hbit
    cases hbit
  · rw [if_neg hbit] at hp
    cases hp

/-- The rows of a string, which begins a new line at a newline. -/
theorem mem_drawChars {startX color : Nat} {str : List Nat} {x y : Nat} {p : Stroke}
    (hp : p ∈ drawChars startX color str x y) :
    ∃ line row, 2 ≤ row ∧ row < fontHeight ∧ p.y = (y + fontHeight * line + row) % 2 ^ 32 := by
  induction str generalizing x y with
  | nil => cases hp
  | cons c str ih =>
      rw [drawChars] at hp
      split at hp
      · obtain ⟨line, row, hpos, hlt, hpy⟩ := ih hp
        refine ⟨line + 1, row, hpos, hlt, ?_⟩
        rw [hpy, fontHeight]
        omega
      · split at hp
        · exact ih hp
        · rcases List.mem_append.mp hp with hp | hp
          · obtain ⟨row, hpos, hlt, hpy⟩ := mem_drawGlyph hp
            exact ⟨0, row, hpos, hlt, by rw [hpy]; rfl⟩
          · exact ih hp

/-- No text is on the first two rows of its first line. -/
theorem drawString_row {x y color : Nat} {str : List Nat} {p : Stroke}
    (hp : p ∈ drawString x y str color) : p.y ≠ y ∧ p.y ≠ y + 1 := by
  obtain ⟨line, row, hpos, hlt, hpy⟩ := mem_drawChars hp
  rw [hpy]
  unfold fontHeight at *
  omega

/-! ## Windows on the screen -/

/-- A window large enough for its title bar, with its whole frame on the screen. -/
structure Framebuffer.Contains (f : Framebuffer) (win : Window) : Prop where
  size : 30 ≤ win.w ∧ 29 ≤ win.h
  columns : 0 ≤ win.x ∧ win.x + win.w < f.width
  rows : 0 ≤ win.y ∧ win.y + win.h < f.height

/-- A position inside the drawn rectangle of a window, its sides included. -/
def Window.InFrame (win : Window) (px py : Nat) : Prop :=
  (win.x ≤ px ∧ px ≤ win.x + win.w) ∧ win.y ≤ py ∧ py ≤ win.y + win.h

namespace Framebuffer

variable {f : Framebuffer} {win : Window}

/-- The corner of such a window, and its fills as `fill_rect` receives them. -/
theorem Contains.corner (hon : f.Contains win) : ∃ x y : Nat, win.x = x ∧ win.y = y ∧
    (x + win.w < f.width ∧ y + win.h < f.height) ∧ (x + win.w < 2 ^ 31 ∧ y + win.h < 2 ^ 31) ∧
    word win.x = x ∧ word win.y = y ∧ word (win.x + 1) = x + 1 ∧ word (win.y + 1) = y + 1 ∧
    word ((win.w : Int) - 2) = win.w - 2 ∧ word (win.y + titleBarH + 1) = y + 27 ∧
    word ((win.h : Int) - titleBarH - 2) = win.h - 28 := by
  obtain ⟨hw, hh⟩ := hon.size
  obtain ⟨x, hx⟩ := Int.eq_ofNat_of_zero_le hon.columns.1
  obtain ⟨y, hy⟩ := Int.eq_ofNat_of_zero_le hon.rows.1
  have hcolumns := hon.columns
  have hrows := hon.rows
  have hlim := f.limits (x := x) (y := y) ⟨by omega, by omega⟩
  have htitle : titleBarH = 26 := rfl
  refine ⟨x, y, hx, hy, ⟨by omega, by omega⟩, ⟨by omega, by omega⟩, ?_, ?_, ?_, ?_, ?_, ?_, ?_⟩
  all_goals
    unfold word
    omega

/-- No part of a window is drawn on the inner right column beside the head of the title. -/
theorem windowDraw_misses (hon : f.Contains win) {p : Stroke} (hp : p ∈ f.windowDraw win) :
    ¬ ((p.x : Int) = win.x + win.w - 1 ∧ (p.y : Int) = win.y + 6) := by
  obtain ⟨hw, hh⟩ := hon.size
  obtain ⟨x, y, hx, hy, hscreen, hlim, hx', hy', hleft, htop, hwidth, hbody, hheight⟩ := hon.corner
  have hcloseX : word (win.x + win.w - closeBtnSize - closeBtnMargin) = x + win.w - 22 := by
    unfold closeBtnSize closeBtnMargin word
    omega
  have hcloseY : word (win.y + closeBtnMargin) = y + 4 := by
    unfold closeBtnMargin word
    omega
  have htext : word (win.y + 1 + (titleBarH - fontHeight) / 2) = y + 6 := by
    unfold titleBarH fontHeight word
    omega
  have hcross : (y + 4 + (closeBtnSize - fontHeight) / 2) % 2 ^ 32 = y + 5 :=
    Nat.mod_eq_of_lt (show y + 5 < 2 ^ 32 by omega)
  unfold windowDraw at hp
  dsimp only at hp
  rw [hx', hy', hleft, htop, hwidth, hbody, hheight, hcloseX, hcloseY, htext, hcross] at hp
  simp only [List.mem_append] at hp
  rintro ⟨hpx, hpy⟩
  rcases hp with ((((hp | hp) | hp) | hp) | hp) | hp
  · rw [mem_drawRect_sides ⟨by omega, by omega⟩ ⟨by omega, by omega⟩] at hp
    omega
  · rw [mem_fillRect_iff (by omega) (by rw [titleBarH]; omega)] at hp
    omega
  · have := drawString_row hp
    omega
  · rw [mem_fillRect_iff (by rw [closeBtnSize]; omega) (by rw [closeBtnSize]; omega),
      closeBtnSize] at hp
    omega
  · have := drawString_row hp
    omega
  · rw [mem_fillRect_iff (by omega) (by omega)] at hp
    omega

/-- Apart from that column and the row before the lower side, the whole frame is drawn. -/
theorem windowDraw_covers (hon : f.Contains win) {px py : Nat} (hframe : win.InFrame px py)
    (hinner : (px : Int) = win.x + win.w - 1 ∨ (py : Int) = win.y + win.h - 1 →
      OnOutline win.x.toNat win.y.toNat win.w win.h px py) :
    ∃ p ∈ f.windowDraw win, p.x = px ∧ p.y = py := by
  obtain ⟨hw, hh⟩ := hon.size
  obtain ⟨x, y, hx, hy, hscreen, hlim, hx', hy', hleft, htop, hwidth, hbody, hheight⟩ :=
    hon.corner
  obtain ⟨hcolumn, hrow⟩ := hframe
  have hvisible : f.Visible px py := ⟨by omega, by omega⟩
  rw [hx, hy, Int.toNat_natCast, Int.toNat_natCast] at hinner
  unfold windowDraw
  dsimp only
  rw [hx', hy', hleft, htop, hwidth, hbody, hheight]
  simp only [List.mem_append]
  by_cases hout : OnOutline x y win.w win.h px py
  · obtain ⟨p, hp, hpos⟩ := (hit_drawRect_iff (f := f) (x := x) (y := y) ⟨by omega, by omega⟩
      ⟨by omega, by omega⟩ (f.makeColor 0x40 0x40 0x40) hvisible).mpr
        ⟨hout, fun hcut => absurd hcut.1.1 (by omega), fun hcut => absurd hcut.1.1 (by omega)⟩
    exact ⟨p, .inl (.inl (.inl (.inl (.inl hp)))), hpos⟩
  · have hinside : x < px ∧ px < x + win.w - 1 ∧ y < py ∧ py < y + win.h - 1 := by
      unfold OnOutline at hinner hout
      omega
    by_cases htitle : py < y + 27
    · refine ⟨⟨px, py, win.titleBarColor⟩, .inl (.inl (.inl (.inl (.inr ?_)))), rfl, rfl⟩
      rw [mem_fillRect_iff (by omega) (by rw [titleBarH]; omega), titleBarH]
      dsimp only
      omega
    · refine ⟨⟨px, py, win.bodyColor⟩, .inr ?_, rfl, rfl⟩
      rw [mem_fillRect_iff (by omega) (by omega)]
      dsimp only
      omega

/-- Everywhere else in the frame a window is opaque. -/
theorem window_draw_opaque (hon : f.Contains win) {px py : Nat} (hframe : win.InFrame px py)
    (hinner : (px : Int) = win.x + win.w - 1 ∨ (py : Int) = win.y + win.h - 1 →
      OnOutline win.x.toNat win.y.toNat win.w win.h px py) (s s' : Screen) :
    f.paint s (f.windowDraw win) px py = f.paint s' (f.windowDraw win) px py := by
  have hcolumns := hon.columns
  have hrows := hon.rows
  obtain ⟨hcolumn, hrow⟩ := id hframe
  exact paint_hit ⟨by omega, by omega⟩ (windowDraw_covers hon hframe hinner)

/-- The pixel of the inner right column beside the head of the title. -/
theorem paint_windowDraw_missed (hon : f.Contains win) (s : Screen) :
    f.paint s (f.windowDraw win) (win.x + win.w - 1).toNat (win.y + 6).toNat =
      s (win.x + win.w - 1).toNat (win.y + 6).toNat := by
  obtain ⟨hw, hh⟩ := hon.size
  have hcolumns := hon.columns
  have hrows := hon.rows
  refine paint_other fun _ p hp hpos => windowDraw_misses hon hp ?_
  omega

/-- That pixel is inside the frame. -/
theorem Contains.inFrame_missed (hon : f.Contains win) :
    win.InFrame (win.x + win.w - 1).toNat (win.y + 6).toNat := by
  obtain ⟨hw, hh⟩ := hon.size
  have hcolumns := hon.columns
  have hrows := hon.rows
  unfold Window.InFrame
  omega

end Framebuffer

/-- No window is opaque: inside the frame of any window on the screen there is a pixel that keeps
what was underneath. -/
theorem window_draw_never_opaque (f : Framebuffer) (win : Window) (hon : f.Contains win) :
    ¬ ∀ s s', f.Stored s → f.Stored s' → ∀ px py, win.InFrame px py →
      f.paint s (f.windowDraw win) px py = f.paint s' (f.windowDraw win) px py := by
  intro hopaque
  obtain ⟨s, hs, hne⟩ := Framebuffer.exists_screen_ne f 0
  have hpixel := hopaque s (fun _ _ => 0) hs (fun _ _ _ => Nat.two_pow_pos _) _ _
    hon.inFrame_missed
  rw [Framebuffer.paint_windowDraw_missed hon, Framebuffer.paint_windowDraw_missed hon] at hpixel
  exact hne _ _ (hpixel.trans (Nat.zero_mod _).symm)

/-- `g_win_a` of `kernel_main`, with a short title. -/
def sampleWindow : Window where
  x := 50
  y := 60
  w := 220
  h := 160
  title := [0x41]
  titleBarColor := 255
  bodyColor := 128
  onRedraw := false

theorem sampleScreen_contains : sampleScreen.Contains sampleWindow :=
  ⟨by decide, by decide, by decide⟩

/-- A window in the middle of the screen. -/
theorem window_draw_never_opaque_sample :
    ¬ ∀ s s', sampleScreen.Stored s → sampleScreen.Stored s' →
      ∀ px py, sampleWindow.InFrame px py →
        sampleScreen.paint s (sampleScreen.windowDraw sampleWindow) px py =
          sampleScreen.paint s' (sampleScreen.windowDraw sampleWindow) px py :=
  window_draw_never_opaque sampleScreen sampleWindow sampleScreen_contains

/-- The pixel `(269, 66)` of that window keeps what was underneath. -/
theorem window_inner_column_kept : ¬ ∀ (f : Framebuffer) (win : Window), f.Contains win →
    ∀ s s', f.Stored s → f.Stored s' → ∀ px py, win.InFrame px py →
      f.paint s (f.windowDraw win) px py = f.paint s' (f.windowDraw win) px py := by
  intro hclaim
  have hpixel := hclaim sampleScreen sampleWindow sampleScreen_contains (fun _ _ => 0)
    (fun _ _ => 1) (fun _ _ _ => Nat.two_pow_pos _) (fun _ _ _ => show 1 < 2 ^ 32 by decide) 269 66
    sampleScreen_contains.inFrame_missed
  have hkept := Framebuffer.paint_windowDraw_missed sampleScreen_contains
  exact absurd ((hkept fun _ _ => 0).symm.trans (hpixel.trans (hkept fun _ _ => 1))) (by decide)

end Kumo
