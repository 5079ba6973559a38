import Kumo.App.CalcRuns
import Kumo.App.Itoa
import Kumo.Gfx.Text
import Kumo.Wm.WindowOpaque

/-!
# Reading the display

The display of the calculator is a field of 26 cells. `calc_refresh_display` clears it and draws
the number on its right. What it shows can be read off the screen again, and a key of the
calculator is never drawn on it.
-/

namespace Kumo

namespace Framebuffer

variable {f : Framebuffer} {win : Window}

/-- The cells of the display. -/
def displayCells : Nat := 26

/-- A number in the display, with blanks before it. -/
def padLeft (str : List Nat) : List Nat := List.replicate (displayCells - str.length) 32 ++ str

/-- The characters of the display on the screen. -/
def readDisplay (f : Framebuffer) (win : Window) (s : Screen) : List (Option Nat) :=
  f.readRow s (f.makeColor 0x10 0x10 0x10) (word (win.x + dispX + 4)) (word (win.y + dispY + 12))
    displayCells

/-- A pixel of the display. -/
def OnDisplay (win : Window) (px py : Nat) : Prop :=
  (win.x + dispX ≤ px ∧ (px : Int) < win.x + dispX + dispW) ∧
    win.y + dispY ≤ py ∧ (py : Int) < win.y + dispY + dispH

/-- The display is on the screen, and the text is not in the colour of the window. -/
structure DisplayShown (f : Framebuffer) (win : Window) : Prop where
  columns : 0 ≤ win.x + dispX ∧ win.x + dispX + dispW ≤ f.width
  rows : 0 ≤ win.y + dispY ∧ win.y + dispY + dispH ≤ f.height
  ink : win.bodyColor % 2 ^ f.bpp ≠ f.makeColor 0x10 0x10 0x10 % 2 ^ f.bpp

/-! ## The characters of a number -/

/-- The digits of a number are characters with a glyph. -/
theorem printable_decimalDigits (k : Nat) : ∀ c ∈ decimalDigits k, Printable c := by
  intro c hc
  obtain ⟨d, hd, rfl⟩ := List.mem_map.mp hc
  have hlt : d < 10 := Nat.digits_lt_base (by decide) (List.mem_reverse.mp hd)
  unfold Printable fontAsciiFirst fontAsciiLast
  omega

/-- What `itoa` writes has glyphs, and fits in the display. -/
theorem itoa_shown {n : Int} (hn : FitsInt32 n) :
    (∀ c ∈ Calc.itoa n, Printable c) ∧ (Calc.itoa n).length ≤ 15 := by
  have hlength := (writes_itoa hn (fun _ => 0) fun _ => 0).2.1
  refine ⟨?_, by omega⟩
  rw [itoa_eq hn]
  split
  · intro c hc
    obtain rfl := List.mem_singleton.mp hc
    decide
  · split
    · intro c hc
      rcases List.mem_cons.mp hc with rfl | hc
      · decide
      · exact printable_decimalDigits _ c hc
    · exact printable_decimalDigits _

/-! ## The display -/

/-- The corner of the display. -/
theorem DisplayShown.corner (h : f.DisplayShown win) : ∃ x y : Nat,
    win.x + dispX = x ∧ win.y + dispY = y ∧ x + 220 ≤ f.width ∧ y + 40 ≤ f.height ∧
      f.width < 2 ^ 31 ∧ f.height < 2 ^ 31 := by
  obtain ⟨⟨hx, hwidth⟩, ⟨hy, hheight⟩, -⟩ := h
  obtain ⟨x, hx'⟩ := Int.eq_ofNat_of_zero_le hx
  obtain ⟨y, hy'⟩ := Int.eq_ofNat_of_zero_le hy
  have hdispW : (dispW : Int) = 220 := rfl
  have hdispH : (dispH : Int) = 40 := rfl
  rw [hx', hdispW] at hwidth
  rw [hy', hdispH] at hheight
  have hcolumns : x + 220 ≤ f.width := by omega
  have hrows : y + 40 ≤ f.height := by omega
  exact ⟨x, y, hx', hy', hcolumns, hrows, f.width_lt (by omega), f.height_lt (by omega)⟩

/-- `calc_refresh_display` writes a number to the right of the 26 cells. -/
theorem drawString_right {x y : Nat} {str : List Nat} (hprint : ∀ c ∈ str, Printable c)
    (hlength : str.length ≤ 15) (hx : x + 220 < 2 ^ 31) (hy : y + 40 < 2 ^ 31) (color : Nat) :
    drawString (word (if wrap32 ((x : Int) + dispW - dispRpad - str.length * 8) <
          wrap32 ((x : Int) + 4) then wrap32 ((x : Int) + 4)
        else wrap32 ((x : Int) + dispW - dispRpad - str.length * 8)))
      (word ((y : Int) + 12)) str color = drawString (x + 4) (y + 12) (padLeft str) color := by
  have hdispW : (dispW : Int) = 220 := rfl
  have hdispRpad : (dispRpad : Int) = 8 := rfl
  obtain ⟨n, hn⟩ := Nat.exists_eq_add_of_le (show str.length ≤ 26 by omega)
  have hblanks : displayCells - str.length = n := by
    rw [displayCells, hn, Nat.add_sub_cancel_left]
  have hstart : wrap32 ((x : Int) + dispW - dispRpad - str.length * 8) = (x + 4 + 8 * n : Nat) := by
    rw [hdispW, hdispRpad, wrap32_eq (by omega) (by omega)]
    omega
  have hleft : wrap32 ((x : Int) + 4) = (x + 4 : Nat) := wrap32_eq (by omega) (by omega)
  have hcell : x + 4 + 8 * n < 2 ^ 32 := by omega
  have hcolumn : word (x + 4 + 8 * n : Nat) = x + 4 + 8 * n := word_ofNat hcell
  have hrow : word ((y : Int) + 12) = y + 12 := word_ofNat (n := y + 12) (by omega)
  rw [hstart, hleft, if_neg (by omega), hcolumn, hrow, padLeft, hblanks]
  exact (drawString_blanks hprint hcell (y + 12) color).symm

/-- The first cell of the display. -/
theorem cells_corner {x y : Nat} (hx : win.x + dispX = x ∧ x + 220 < 2 ^ 31)
    (hy : win.y + dispY = y ∧ y + 40 < 2 ^ 31) :
    word (win.x + dispX + 4) = x + 4 ∧ word (win.y + dispY + 12) = y + 12 := by
  rw [hx.1, hy.1]
  exact ⟨word_ofNat (n := x + 4) (by omega), word_ofNat (n := y + 12) (by omega)⟩

/-- What `calc_refresh_display` draws, in terms of the cells. -/
theorem DisplayShown.refresh (h : f.DisplayShown win) {c : Calc} (hfits : FitsInt32 c.displayed) :
    ∃ x y : Nat, (win.x + dispX = x ∧ x + 220 ≤ f.width ∧ f.width < 2 ^ 31) ∧
      (win.y + dispY = y ∧ y + 40 ≤ f.height ∧ f.height < 2 ^ 31) ∧
      f.calcRefreshDisplay win c = f.fillRect x y dispW dispH win.bodyColor ++
        drawString (x + 4) (y + 12) (padLeft (Calc.itoa c.displayed))
          (f.makeColor 0x10 0x10 0x10) := by
  obtain ⟨x, y, hx, hy, hcolumns, hrows, hwidth, hheight⟩ := h.corner
  have hxw : wrap32 (win.x + dispX) = x := by
    rw [hx]
    exact wrap32_eq (by omega) (by omega)
  have hyw : wrap32 (win.y + dispY) = y := by
    rw [hy]
    exact wrap32_eq (by omega) (by omega)
  have hxword : word x = x := word_ofNat (n := x) (by omega)
  have hyword : word y = y := word_ofNat (n := y) (by omega)
  have hx31 : x + 220 < 2 ^ 31 := by omega
  have hy31 : y + 40 < 2 ^ 31 := by omega
  obtain ⟨hprint, hlength⟩ := itoa_shown hfits
  refine ⟨x, y, ⟨hx, hcolumns, hwidth⟩, ⟨hy, hrows, hheight⟩, ?_⟩
  have hbuf : (if c.entering then c.current else c.accumulator) = c.displayed := rfl
  unfold calcRefreshDisplay
  dsimp only
  rw [hxw, hyw, hxword, hyword, hbuf, drawString_right hprint hlength hx31 hy31]

/-- The cells of a number are characters with glyphs. -/
theorem padLeft_shown {str : List Nat} (hprint : ∀ c ∈ str, Printable c)
    (hlength : str.length ≤ 15) :
    (∀ c ∈ padLeft str, Printable c) ∧ (padLeft str).length = displayCells := by
  refine ⟨fun c hc => ?_, ?_⟩
  · rcases List.mem_append.mp hc with hc | hc
    · rw [List.eq_of_mem_replicate hc]
      decide
    · exact hprint c hc
  · rw [padLeft, List.length_append, List.length_replicate, displayCells]
    omega

/-- The display is cleared before the number is written. -/
theorem paint_displayFill {x y : Nat} (hx : x + 220 ≤ f.width ∧ f.width < 2 ^ 31)
    (hy : y + 40 ≤ f.height ∧ f.height < 2 ^ 31) (color : Nat) (s : Screen) {px py : Nat}
    (hpx : x ≤ px ∧ px < x + 220) (hpy : y ≤ py ∧ py < y + 40) :
    f.paint s (f.fillRect x y dispW dispH color) px py = color % 2 ^ f.bpp := by
  refine paint_uniform ⟨by omega, by omega⟩ ?_ fun p hp _ _ => color_fillRect hp
  refine ⟨⟨px, py, color⟩, ?_, rfl, rfl⟩
  rw [dispW, dispH, mem_fillRect_iff (by omega) (by omega)]
  dsimp only
  omega

/-- The display shows a number right after `calc_refresh_display`. -/
theorem DisplayShown.readDisplay_refresh (h : f.DisplayShown win) {c : Calc}
    (hfits : FitsInt32 c.displayed) (s : Screen) :
    f.readDisplay win (f.paint s (f.calcRefreshDisplay win c)) =
      (padLeft (Calc.itoa c.displayed)).map some := by
  obtain ⟨x, y, ⟨hx, hcolumns⟩, ⟨hy, hrows⟩, hdraw⟩ := h.refresh hfits
  obtain ⟨hprint, hlength⟩ := itoa_shown hfits
  obtain ⟨hpadded, hcells⟩ := padLeft_shown hprint hlength
  obtain ⟨hxw, hyw⟩ := cells_corner ⟨hx, by omega⟩ ⟨hy, by omega⟩
  have hrow : word (win.y + dispY + 12) = y + 12 + fontHeight * 0 := hyw
  generalize padLeft (Calc.itoa c.displayed) = str at hdraw hpadded hcells
  rw [readDisplay, hdraw, paint_append, hxw, hrow, readRow_drawString]
  · refine List.ext_getElem (by simp [hcells]) fun col hcol hcol' => ?_
    have hlt : col < str.length := by simpa using hcol'
    rw [List.getElem_map, List.getElem_map, List.getElem_range, textAt_printable hpadded,
      List.getElem?_eq_getElem hlt, Option.getD_some]
  · rw [hcells]
    decide
  · rw [fontWidth, displayCells]
    omega
  · rw [fontHeight]
    omega
  · intro row hrow k hk
    rw [fontHeight] at hrow
    rw [fontWidth, displayCells] at hk
    rw [paint_displayFill hcolumns hrows win.bodyColor s (by omega) (by rw [fontHeight]; omega)]
    exact h.ink

/-- What the display shows depends on its pixels only. -/
theorem DisplayShown.readDisplay_congr (h : f.DisplayShown win) {s s' : Screen}
    (hsame : ∀ px py, OnDisplay win px py → s px py = s' px py) :
    f.readDisplay win s = f.readDisplay win s' := by
  obtain ⟨x, y, hx, hy, hcolumns, hrows, hwidth, hheight⟩ := h.corner
  have hdispW : (dispW : Int) = 220 := rfl
  have hdispH : (dispH : Int) = 40 := rfl
  obtain ⟨hxw, hyw⟩ := cells_corner ⟨hx, by omega⟩ ⟨hy, by omega⟩
  rw [readDisplay, readDisplay, hxw, hyw]
  refine List.map_congr_left fun col hcol => glyphAt_congr fun row hrow k hk => hsame _ _ ?_
  have hcol := List.mem_range.mp hcol
  unfold OnDisplay
  rw [hx, hy, hdispW, hdispH]
  rw [displayCells] at hcol
  rw [fontHeight] at hrow
  rw [fontWidth] at hk ⊢
  omega

/-! ## The keys -/

/-- The keys are below the display, and each is labelled with one character. -/
theorem calcButtons_below {btn : Button} (hbtn : btn ∈ f.calcButtons) :
    (69 ≤ btn.y ∧ btn.y ≤ 186) ∧ (btn.w = 52 ∧ btn.h = 35) ∧ btn.label.length = 1 := by
  unfold calcButtons calcButton at hbtn
  simp only [List.mem_cons, List.not_mem_nil, or_false] at hbtn
  rcases hbtn with rfl | rfl | rfl | rfl | rfl | rfl | rfl | rfl | rfl | rfl | rfl | rfl | rfl |
    rfl | rfl | rfl <;> exact ⟨by dsimp only; omega, ⟨rfl, rfl⟩, rfl⟩

/-- The rows of a key. -/
theorem buttonDraw_row {btn : Button} (hbtn : btn ∈ f.calcButtons) {pressed : Bool} {p : Stroke}
    (hp : p ∈ f.buttonDraw btn win pressed) :
    ∃ j : Nat, j ≤ 34 ∧ p.y = word (win.y + btn.y + j) := by
  obtain ⟨-, ⟨hw, hh⟩, hlabel⟩ := calcButtons_below hbtn
  have hwidth : word ((btn.w : Int) - 1) = 51 := by rw [hw]; rfl
  have hheight : word ((btn.h : Int) - 1) = 34 := by rw [hh]; rfl
  have hrow : ∀ j : Nat, word (wrap32 (win.y + btn.y) + j) = word (win.y + btn.y + j) := by
    intro j
    unfold word wrap32
    omega
  unfold buttonDraw at hp
  dsimp only at hp
  rw [hwidth, hheight, List.mem_append, List.mem_append] at hp
  rcases hp with (hp | hp) | hp
  · obtain ⟨i, j, -, hj, -, hy⟩ := mem_fillRect hp
    exact ⟨j, Nat.le_of_lt hj, hy.trans (hrow j)⟩
  · obtain ⟨i, j, -, hj, -, hy⟩ := mem_drawRect (by decide) (by decide) hp
    exact ⟨j, hj, hy.trans (hrow j)⟩
  · obtain ⟨-, line, col, row, k, hcell, -, hy⟩ := drawString_pixels.mp hp
    obtain ⟨c, hat, -⟩ := hcell.bit
    have hfirst := (textAt_spec hat).2
    have hlt := hcell.row_lt
    rw [hlabel] at hfirst
    obtain rfl : line = 0 := by omega
    rw [fontHeight] at hlt
    refine ⟨6 + row, by omega, hy.trans ?_⟩
    rw [← hrow, fontHeight]
    unfold word
    omega

/-- A row of a key is not one of the display. -/
theorem DisplayShown.below (h : f.DisplayShown win) {btn : Button} (hbtn : btn ∈ f.calcButtons)
    {px py j : Nat} (hj : j ≤ 53) (hy : py = word (win.y + btn.y + j)) :
    ¬ OnDisplay win px py := by
  obtain ⟨⟨hlow, hhigh⟩, -⟩ := calcButtons_below hbtn
  obtain ⟨x, y, -, hwin, -, hrows, -, hheight⟩ := h.corner
  have hdispY : (dispY : Int) = 25 := rfl
  have hdispH : (dispH : Int) = 40 := rfl
  intro hon
  have hrow := hon.2
  rw [hdispY, hdispH] at hrow
  rw [hdispY] at hwin
  rw [hy] at hrow
  unfold word at hrow
  omega

/-- The keys are not drawn on the display. -/
theorem DisplayShown.buttonDraw_off (h : f.DisplayShown win) {btn : Button}
    (hbtn : btn ∈ f.calcButtons) {pressed : Bool} {p : Stroke}
    (hp : p ∈ f.buttonDraw btn win pressed) : ¬ OnDisplay win p.x p.y := by
  obtain ⟨j, hj, hy⟩ := buttonDraw_row hbtn hp
  exact h.below hbtn (Nat.le_trans hj (by decide)) hy

end Framebuffer

end Kumo
