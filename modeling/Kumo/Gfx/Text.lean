import Kumo.Gfx.Paint
import Mathlib.Data.List.GetD
import Mathlib.Data.List.Nodup

/-!
# Text on the screen

`draw_string` draws text in cells of 8 by 16 pixels. A newline begins the next row of cells, and
a character without a glyph takes no cell. `textRows` says which character is in which cell,
`paint_drawString` which pixels that makes, and `text_readable` that the text can be read off
the screen again, as no two glyphs look the same.
-/

namespace Kumo

/-! ## Glyphs -/

/-- The characters that have a glyph. -/
def Printable (c : Nat) : Prop := fontAsciiFirst ≤ c ∧ c ≤ fontAsciiLast

instance : DecidablePred Printable := fun _ => inferInstanceAs (Decidable (_ ∧ _))

/-- The rows of a glyph. -/
def glyphRows (c : Nat) : List Nat := fontData.getD (c - fontAsciiFirst) []

/-- The glyph of the space is blank. -/
theorem glyphBit_space {row : Nat} (hrow : row < fontHeight) (col : Nat) :
    glyphBit 32 row col = false := by
  have hblank : ∀ row < fontHeight, (glyphRows 32).getD row 0 = 0 := by decide
  show ((glyphRows 32).getD row 0).testBit (7 - col) = false
  rw [hblank row hrow, Nat.zero_testBit]

/-- The glyph of a printable character is in the table: sixteen bytes. -/
theorem glyphRows_spec {c : Nat} (hc : Printable c) :
    ∃ h : c - fontAsciiFirst < fontData.length, glyphRows c = fontData[c - fontAsciiFirst] ∧
      (glyphRows c).length = fontHeight ∧ ∀ b ∈ glyphRows c, b < 2 ^ 8 := by
  have htable : ∀ g ∈ fontData, g.length = fontHeight ∧ ∀ b ∈ g, b < 2 ^ 8 := by decide +kernel
  have hlt : c - fontAsciiFirst < fontData.length := by
    have hlen : fontData.length = 95 := by decide
    obtain ⟨h1, h2⟩ := hc
    simp only [fontAsciiFirst, fontAsciiLast] at *
    omega
  have hget : glyphRows c = fontData[c - fontAsciiFirst] := List.getD_eq_getElem _ _ hlt
  refine ⟨hlt, hget, ?_⟩
  rw [hget]
  exact htable _ (List.getElem_mem hlt)

/-- No two glyphs look the same. -/
theorem glyph_inj {c c' : Nat} (hc : Printable c) (hc' : Printable c')
    (hsame : ∀ row, row < fontHeight → ∀ col, col < fontWidth →
      glyphBit c row col = glyphBit c' row col) : c = c' := by
  obtain ⟨hlt, hget, hlen, hbytes⟩ := glyphRows_spec hc
  obtain ⟨hlt', hget', hlen', hbytes'⟩ := glyphRows_spec hc'
  have hrows : glyphRows c = glyphRows c' := by
    refine List.ext_getElem (hlen.trans hlen'.symm) fun row h h' => ?_
    refine Nat.eq_of_testBit_eq fun i => ?_
    by_cases hi : i < 8
    · have hbit := hsame row (hlen ▸ h) (7 - i) (by simp only [fontWidth]; omega)
      have hback : 7 - (7 - i) = i := by omega
      rw [glyphBit, glyphBit, hback] at hbit
      rw [← List.getD_eq_getElem _ 0 h, ← List.getD_eq_getElem _ 0 h']
      exact hbit
    · have hpow : 2 ^ 8 ≤ 2 ^ i := Nat.pow_le_pow_right (by decide) (Nat.le_of_not_lt hi)
      rw [Nat.testBit_lt_two_pow (Nat.lt_of_lt_of_le (hbytes _ (List.getElem_mem h)) hpow),
        Nat.testBit_lt_two_pow (Nat.lt_of_lt_of_le (hbytes' _ (List.getElem_mem h')) hpow)]
  have hnodup : fontData.Nodup := by decide +kernel
  have hindex : c - fontAsciiFirst = c' - fontAsciiFirst :=
    hnodup.getElem_inj_iff.mp (hget.symm.trans (hrows.trans hget'))
  have hfirst := hc.1
  have hfirst' := hc'.1
  omega

/-! ## The layout -/

/-- The rows of cells of a text. -/
def textRows (str : List Nat) : List (List Nat) :=
  (str.splitOn 10).map (List.filter fun c => decide (Printable c))

/-- The character in a cell. -/
def textAt (str : List Nat) (line col : Nat) : Option Nat :=
  (textRows str)[line]?.bind fun row => row[col]?

/-- The empty text has one empty row. -/
theorem textAt_nil (line col : Nat) : textAt [] line col = none := by
  cases line with
  | zero => rfl
  | succ line => rfl

/-- A newline begins a row. -/
theorem textRows_newline (str : List Nat) : textRows (10 :: str) = [] :: textRows str := by
  rw [textRows, List.splitOn_cons_eq_if_modifyHead]
  rfl

/-- Another character belongs to the first row. -/
theorem textRows_cons {c : Nat} (hc : c ≠ 10) (str : List Nat) :
    textRows (c :: str) =
      (textRows str).modifyHead fun row => if Printable c then c :: row else row := by
  rw [textRows, List.splitOn_cons_eq_if_modifyHead, if_neg (by simpa using hc), textRows]
  cases str.splitOn 10 with
  | nil => rfl
  | cons row rows =>
      simp only [List.modifyHead_cons, List.map_cons, List.filter_cons, decide_eq_true_eq]

/-- Every text has a first row. -/
theorem textRows_ne_nil (str : List Nat) : textRows str ≠ [] := by
  rw [textRows, Ne, List.map_eq_nil_iff]
  exact List.splitOn_ne_nil 10 str

/-- The row that a newline ends is empty. -/
theorem textAt_newline_zero (str : List Nat) (col : Nat) : textAt (10 :: str) 0 col = none := by
  rw [textAt, textRows_newline]
  rfl

/-- The rows after a newline are those of the rest. -/
theorem textAt_newline_succ (str : List Nat) (line col : Nat) :
    textAt (10 :: str) (line + 1) col = textAt str line col := by
  rw [textAt, textRows_newline]
  rfl

/-- A character without a glyph takes no cell. -/
theorem textAt_skip {c : Nat} (hc : c ≠ 10) (hskip : ¬ Printable c) (str : List Nat)
    (line col : Nat) : textAt (c :: str) line col = textAt str line col := by
  simp only [textAt, textRows_cons hc, if_neg hskip]
  cases textRows str with
  | nil => rfl
  | cons row rows => rfl

/-- A printable character takes the first cell of its row. -/
theorem textAt_first {c : Nat} (hc : c ≠ 10) (hprint : Printable c) (str : List Nat) :
    textAt (c :: str) 0 0 = some c := by
  simp only [textAt, textRows_cons hc, if_pos hprint]
  obtain ⟨row, rows, hrows⟩ := List.exists_cons_of_ne_nil (textRows_ne_nil str)
  rw [hrows]
  rfl

/-- A printable character moves the rest of its row by a cell. -/
theorem textAt_next {c : Nat} (hc : c ≠ 10) (hprint : Printable c) (str : List Nat) (col : Nat) :
    textAt (c :: str) 0 (col + 1) = textAt str 0 col := by
  simp only [textAt, textRows_cons hc, if_pos hprint]
  obtain ⟨row, rows, hrows⟩ := List.exists_cons_of_ne_nil (textRows_ne_nil str)
  rw [hrows]
  rfl

/-- A printable character leaves the later rows alone. -/
theorem textAt_later {c : Nat} (hc : c ≠ 10) (hprint : Printable c) (str : List Nat)
    (line col : Nat) : textAt (c :: str) (line + 1) col = textAt str (line + 1) col := by
  simp only [textAt, textRows_cons hc, if_pos hprint]
  obtain ⟨row, rows, hrows⟩ := List.exists_cons_of_ne_nil (textRows_ne_nil str)
  rw [hrows]
  rfl

/-- A character in a cell is printable, and its cell is within the length of the text. -/
theorem textAt_spec {str : List Nat} {line col c : Nat} (hat : textAt str line col = some c) :
    Printable c ∧ line + col < str.length := by
  induction str generalizing line col with
  | nil => simp [textAt_nil] at hat
  | cons d str ih =>
      by_cases hnewline : d = 10
      · subst hnewline
        cases line with
        | zero => simp [textAt_newline_zero] at hat
        | succ line =>
            rw [textAt_newline_succ] at hat
            obtain ⟨hc, hlt⟩ := ih hat
            exact ⟨hc, by simp only [List.length_cons]; omega⟩
      · by_cases hprint : Printable d
        · cases line with
          | zero =>
              cases col with
              | zero =>
                  rw [textAt_first hnewline hprint] at hat
                  obtain rfl := Option.some.inj hat
                  exact ⟨hprint, by simp⟩
              | succ col =>
                  rw [textAt_next hnewline hprint] at hat
                  obtain ⟨hc, hlt⟩ := ih hat
                  exact ⟨hc, by simp only [List.length_cons]; omega⟩
          | succ line =>
              rw [textAt_later hnewline hprint] at hat
              obtain ⟨hc, hlt⟩ := ih hat
              exact ⟨hc, by simp only [List.length_cons]; omega⟩
        · rw [textAt_skip hnewline hprint] at hat
          obtain ⟨hc, hlt⟩ := ih hat
          exact ⟨hc, by simp only [List.length_cons]; omega⟩

/-! ## The pixels -/

/-- The pixels of a glyph. -/
theorem drawGlyph_pixels {x y c color : Nat} {p : Stroke} :
    p ∈ drawGlyph x y c color ↔ p.color = color ∧ ∃ row < fontHeight, ∃ col < fontWidth,
      glyphBit c row col = true ∧ p.x = (x + col) % 2 ^ 32 ∧ p.y = (y + row) % 2 ^ 32 := by
  constructor
  · intro hp
    obtain ⟨row, hrow, hp⟩ := List.mem_flatMap.mp hp
    obtain ⟨col, hcol, hp⟩ := List.mem_filterMap.mp hp
    by_cases hbit : glyphBit c row col = true
    · rw [if_pos hbit] at hp
      obtain rfl := Option.some.inj hp
      exact ⟨rfl, row, List.mem_range.mp hrow, col, List.mem_range.mp hcol, hbit, rfl, rfl⟩
    · rw [if_neg hbit] at hp
      cases hp
  · intro hp
    obtain ⟨hcolor, row, hrow, col, hcol, hbit, hx, hy⟩ := hp
    refine List.mem_flatMap.mpr ⟨row, List.mem_range.mpr hrow, ?_⟩
    refine List.mem_filterMap.mpr ⟨col, List.mem_range.mpr hcol, ?_⟩
    rw [if_pos hbit, ← hx, ← hy, ← hcolor]

/-- The pixel of a cell: its column and row of cells, and its place in the cell. -/
structure InCell (str : List Nat) (line col row k : Nat) : Prop where
  row_lt : row < fontHeight
  col_lt : k < fontWidth
  bit : ∃ c, textAt str line col = some c ∧ glyphBit c row k = true

/-- Another text that has the same character in a cell has the same pixels there. -/
theorem InCell.of_textAt {str str' : List Nat} {line col line' col' row k : Nat}
    (h : InCell str line col row k) (hat : textAt str line col = textAt str' line' col') :
    InCell str' line' col' row k :=
  ⟨h.row_lt, h.col_lt, hat ▸ h.bit⟩

/-- The pixels of a text whose first row begins at `x` and the others at `startX`. -/
theorem drawChars_pixels {startX color : Nat} {str : List Nat} {x y : Nat} {p : Stroke} :
    p ∈ drawChars startX color str x y ↔ p.color = color ∧ ∃ line col row k,
      InCell str line col row k ∧
      p.x = ((if line = 0 then x else startX) + fontWidth * col + k) % 2 ^ 32 ∧
      p.y = (y + fontHeight * line + row) % 2 ^ 32 := by
  induction str generalizing x y with
  | nil =>
      refine ⟨fun hp => absurd hp List.not_mem_nil, fun hp => ?_⟩
      obtain ⟨-, line, col, row, k, hcell, -⟩ := hp
      obtain ⟨c, hat, -⟩ := hcell.bit
      simp [textAt_nil] at hat
  | cons c str ih =>
      rw [drawChars]
      by_cases hnewline : c = 10
      · rw [if_pos hnewline, ih]
        subst hnewline
        refine and_congr_right fun _ => ⟨fun hp => ?_, fun hp => ?_⟩
        · obtain ⟨line, col, row, k, hcell, hx, hy⟩ := hp
          refine ⟨line + 1, col, row, k, hcell.of_textAt (textAt_newline_succ str line col).symm,
            ?_, ?_⟩
          · rw [hx, ite_self, if_neg (Nat.succ_ne_zero line)]
          · rw [hy]
            simp only [fontHeight]
            omega
        · obtain ⟨line, col, row, k, hcell, hx, hy⟩ := hp
          cases line with
          | zero =>
              obtain ⟨d, hat, -⟩ := hcell.bit
              simp [textAt_newline_zero] at hat
          | succ line =>
              refine ⟨line, col, row, k, hcell.of_textAt (textAt_newline_succ str line col),
                ?_, ?_⟩
              · rw [hx, ite_self, if_neg (Nat.succ_ne_zero line)]
              · rw [hy]
                simp only [fontHeight]
                omega
      · rw [if_neg hnewline]
        by_cases hprint : Printable c
        · have hkept : ¬ (c < fontAsciiFirst ∨ fontAsciiLast < c) := by
            obtain ⟨hfirst, hlast⟩ := hprint
            omega
          rw [if_neg hkept, List.mem_append, drawGlyph_pixels, ih, ← and_or_left]
          refine and_congr_right fun _ => ⟨fun hp => ?_, fun hp => ?_⟩
          · rcases hp with hp | hp
            · obtain ⟨row, hrow, k, hk, hbit, hx, hy⟩ := hp
              exact ⟨0, 0, row, k, ⟨hrow, hk, c, textAt_first hnewline hprint str, hbit⟩, hx, hy⟩
            · obtain ⟨line, col, row, k, hcell, hx, hy⟩ := hp
              cases line with
              | zero =>
                  refine ⟨0, col + 1, row, k,
                    hcell.of_textAt (textAt_next hnewline hprint str col).symm, ?_, hy⟩
                  rw [hx, if_pos rfl, if_pos rfl]
                  simp only [fontWidth]
                  omega
              | succ line =>
                  refine ⟨line + 1, col, row, k,
                    hcell.of_textAt (textAt_later hnewline hprint str line col).symm, ?_, hy⟩
                  rw [hx, if_neg (Nat.succ_ne_zero line), if_neg (Nat.succ_ne_zero line)]
          · obtain ⟨line, col, row, k, hcell, hx, hy⟩ := hp
            cases line with
            | zero =>
                cases col with
                | zero =>
                    obtain ⟨d, hat, hbit⟩ := hcell.bit
                    rw [textAt_first hnewline hprint] at hat
                    obtain rfl := Option.some.inj hat
                    exact .inl ⟨row, hcell.row_lt, k, hcell.col_lt, hbit, hx, hy⟩
                | succ col =>
                    refine .inr ⟨0, col, row, k,
                      hcell.of_textAt (textAt_next hnewline hprint str col), ?_, hy⟩
                    rw [hx, if_pos rfl, if_pos rfl]
                    simp only [fontWidth]
                    omega
            | succ line =>
                refine .inr ⟨line + 1, col, row, k,
                  hcell.of_textAt (textAt_later hnewline hprint str line col), ?_, hy⟩
                rw [hx, if_neg (Nat.succ_ne_zero line), if_neg (Nat.succ_ne_zero line)]
        · have hskipped : c < fontAsciiFirst ∨ fontAsciiLast < c := by
            unfold Printable at hprint
            omega
          rw [if_pos hskipped, ih]
          have hcells : ∀ line col row k,
              InCell (c :: str) line col row k ↔ InCell str line col row k := by
            intro line col row k
            have hat := textAt_skip hnewline hprint str line col
            exact ⟨fun hcell => hcell.of_textAt hat, fun hcell => hcell.of_textAt hat.symm⟩
          simp only [hcells]

/-- The pixels of a drawn text, cell by cell. -/
theorem drawString_pixels {x y color : Nat} {str : List Nat} {p : Stroke} :
    p ∈ drawString x y str color ↔ p.color = color ∧ ∃ line col row k,
      InCell str line col row k ∧ p.x = (x + fontWidth * col + k) % 2 ^ 32 ∧
      p.y = (y + fontHeight * line + row) % 2 ^ 32 := by
  rw [drawString, drawChars_pixels]
  simp only [ite_self]

/-! ## Text of one row -/

theorem Printable.ne_newline {c : Nat} (hc : Printable c) : c ≠ 10 := by
  obtain ⟨hfirst, -⟩ := hc
  unfold fontAsciiFirst at hfirst
  omega

/-- Printable characters are in one row. -/
theorem textAt_printable {str : List Nat} (hprint : ∀ c ∈ str, Printable c) (col : Nat) :
    textAt str 0 col = str[col]? := by
  have hnewline : 10 ∉ str := fun h => (hprint 10 h).ne_newline rfl
  have hfilter : str.filter (fun c => decide (Printable c)) = str :=
    List.filter_eq_self.mpr fun c hc => decide_eq_true (hprint c hc)
  rw [textAt, textRows, List.splitOn_eq_singleton hnewline, List.map_singleton, hfilter]
  rfl

/-- Without a newline it does not matter where the other rows would begin. -/
theorem drawChars_row {str : List Nat} (hprint : ∀ c ∈ str, Printable c) (startX startX' : Nat)
    (color x y : Nat) : drawChars startX color str x y = drawChars startX' color str x y := by
  induction str generalizing x with
  | nil => rfl
  | cons c str ih =>
      obtain ⟨hc, hrest⟩ := List.forall_mem_cons.mp hprint
      rw [drawChars, drawChars, if_neg hc.ne_newline, if_neg hc.ne_newline, ih hrest, ih hrest]

/-- A blank draws nothing. -/
theorem drawGlyph_blank (x y color : Nat) : drawGlyph x y 32 color = [] := by
  refine List.eq_nil_iff_forall_not_mem.mpr fun p hp => ?_
  obtain ⟨-, row, hrow, k, -, hbit, -⟩ := drawGlyph_pixels.mp hp
  rw [glyphBit_space hrow] at hbit
  cases hbit

/-- Blanks move the text after them. -/
theorem drawString_blanks {str : List Nat} (hprint : ∀ c ∈ str, Printable c) {x n : Nat}
    (hx : x + fontWidth * n < 2 ^ 32) (y color : Nat) :
    drawString x y (List.replicate n 32 ++ str) color =
      drawString (x + fontWidth * n) y str color := by
  have hmoved : ∀ n x, x + fontWidth * n < 2 ^ 32 → ∀ startX,
      drawChars startX color (List.replicate n 32 ++ str) x y =
        drawChars startX color str (x + fontWidth * n) y := by
    intro n
    induction n with
    | zero => exact fun x _ startX => rfl
    | succ n ih =>
        intro x hx startX
        have hfirst : (x + fontWidth) % 2 ^ 32 = x + fontWidth :=
          Nat.mod_eq_of_lt (by rw [Nat.mul_succ] at hx; omega)
        have hrest : x + fontWidth + fontWidth * n = x + fontWidth * (n + 1) := by
          rw [Nat.mul_succ]
          omega
        rw [List.replicate_succ, List.cons_append, drawChars, if_neg (by decide),
          if_neg (by decide), drawGlyph_blank, List.nil_append, hfirst,
          ih (x + fontWidth) (hrest ▸ hx), hrest]
  rw [drawString, hmoved n x hx, drawString]
  exact drawChars_row hprint x (x + fontWidth * n) color (x + fontWidth * n) y

/-! ## Reading the screen -/

/-- The character whose glyph is in the given place in the given colour. -/
def Framebuffer.glyphAt (f : Framebuffer) (s : Screen) (color x y : Nat) : Option Nat :=
  (List.range' fontAsciiFirst (fontAsciiLast + 1 - fontAsciiFirst)).find? fun c =>
    (List.range fontHeight).all fun row => (List.range fontWidth).all fun k =>
      decide (s (x + k) (y + row) = color % 2 ^ f.bpp) == glyphBit c row k

/-- The characters that a row of cells shows. -/
def Framebuffer.readRow (f : Framebuffer) (s : Screen) (color x y n : Nat) : List (Option Nat) :=
  (List.range n).map fun col => f.glyphAt s color (x + fontWidth * col) y

namespace Framebuffer

variable {f : Framebuffer} {s : Screen} {x y color : Nat} {str : List Nat}

/-- The glyph of a place is that of the character that has its pixels. -/
theorem glyphAt_eq {c : Nat} (hc : Printable c) (hpixels : ∀ row < fontHeight, ∀ k < fontWidth,
    (s (x + k) (y + row) = color % 2 ^ f.bpp ↔ glyphBit c row k = true)) :
    f.glyphAt s color x y = some c := by
  have hshows : ∀ d : Nat, ((List.range fontHeight).all fun row =>
      (List.range fontWidth).all fun k =>
        decide (s (x + k) (y + row) = color % 2 ^ f.bpp) == glyphBit d row k) = true ↔
      ∀ row < fontHeight, ∀ k < fontWidth, glyphBit c row k = glyphBit d row k := by
    intro d
    simp only [List.all_eq_true, List.mem_range, beq_iff_eq]
    refine forall₄_congr fun row hrow k hk => ?_
    have hpixel : decide (s (x + k) (y + row) = color % 2 ^ f.bpp) = glyphBit c row k := by
      rw [Bool.eq_iff_iff, decide_eq_true_eq]
      exact hpixels row hrow k hk
    rw [hpixel]
  obtain ⟨hfirst, hlast⟩ := hc
  rw [glyphAt, List.find?_range'_eq_some, hshows]
  refine ⟨fun _ _ _ _ => rfl, List.mem_range'_1.mpr ⟨hfirst, by omega⟩, fun d hd hlt => ?_⟩
  rw [Bool.not_eq_true', ← Bool.not_eq_true, hshows]
  intro hsame
  exact absurd (glyph_inj ⟨hfirst, hlast⟩ ⟨hd, by omega⟩ hsame) (by omega)

/-- The glyph of a place depends on its pixels only. -/
theorem glyphAt_congr {s' : Screen} (hsame : ∀ row < fontHeight, ∀ k < fontWidth,
    s (x + k) (y + row) = s' (x + k) (y + row)) :
    f.glyphAt s color x y = f.glyphAt s' color x y := by
  refine congrArg (fun p => List.find? p _) (funext fun c => ?_)
  rw [Bool.eq_iff_iff]
  simp only [List.all_eq_true, List.mem_range]
  refine forall₄_congr fun row hrow k hk => ?_
  rw [hsame row hrow k hk]

/-- A cell that is on the screen, of a text that does not reach round it. -/
structure CellShown (f : Framebuffer) (x y : Nat) (str : List Nat) (line col : Nat) : Prop where
  short : str.length ≤ 2 ^ 27
  columns : x + fontWidth * col + fontWidth ≤ f.width
  rows : y + fontHeight * line + fontHeight ≤ f.height

/-- A pixel of a cell has the colour of the text if the glyph has it, and is kept otherwise. -/
theorem paint_drawString {line col row k : Nat} (hshown : f.CellShown x y str line col)
    (hrow : row < fontHeight) (hk : k < fontWidth) :
    f.paint s (drawString x y str color) (x + fontWidth * col + k)
        (y + fontHeight * line + row) =
      if glyphBit ((textAt str line col).getD 32) row k = true then color % 2 ^ f.bpp
      else s (x + fontWidth * col + k) (y + fontHeight * line + row) := by
  obtain ⟨hshort, hcolumns, hrows⟩ := hshown
  have hwidth : f.width < 2 ^ 31 := f.width_lt (by unfold fontHeight at *; omega)
  have hheight : f.height < 2 ^ 31 := f.height_lt (by unfold fontWidth at *; omega)
  -- without a wrap, a pixel belongs to one cell only
  have hplace : ∀ line' col' row' k', InCell str line' col' row' k' →
      (x + fontWidth * col' + k') % 2 ^ 32 = x + fontWidth * col + k →
      (y + fontHeight * line' + row') % 2 ^ 32 = y + fontHeight * line + row →
      line' = line ∧ col' = col ∧ row' = row ∧ k' = k := by
    intro line' col' row' k' hcell hx hy
    obtain ⟨c, hat, -⟩ := hcell.bit
    have hlt := (textAt_spec hat).2
    have hrow' := hcell.row_lt
    have hk' := hcell.col_lt
    unfold fontWidth fontHeight at *
    omega
  have hvisible : f.Visible (x + fontWidth * col + k) (y + fontHeight * line + row) :=
    ⟨by omega, by omega⟩
  by_cases hbit : glyphBit ((textAt str line col).getD 32) row k = true
  · rw [if_pos hbit]
    refine paint_uniform hvisible ?_ fun p hp _ _ => (drawString_pixels.mp hp).1
    have hcell : InCell str line col row k := by
      cases hat : textAt str line col with
      | none =>
          rw [hat, Option.getD_none, glyphBit_space hrow] at hbit
          cases hbit
      | some c => exact ⟨hrow, hk, c, hat, by rw [← hbit, hat]; rfl⟩
    have hx : (x + fontWidth * col + k) % 2 ^ 32 = x + fontWidth * col + k :=
      Nat.mod_eq_of_lt (by omega)
    have hy : (y + fontHeight * line + row) % 2 ^ 32 = y + fontHeight * line + row :=
      Nat.mod_eq_of_lt (by omega)
    refine ⟨⟨x + fontWidth * col + k, y + fontHeight * line + row, color⟩, ?_, rfl, rfl⟩
    exact drawString_pixels.mpr ⟨rfl, line, col, row, k, hcell, hx.symm, hy.symm⟩
  · rw [if_neg hbit]
    refine paint_other fun _ p hp hpos => hbit ?_
    obtain ⟨-, line', col', row', k', hcell, hx, hy⟩ := drawString_pixels.mp hp
    obtain ⟨rfl, rfl, rfl, rfl⟩ :=
      hplace line' col' row' k' hcell (hx.symm.trans hpos.1) (hy.symm.trans hpos.2)
    obtain ⟨c, hat, hlit⟩ := hcell.bit
    rw [hat]
    exact hlit

/-- A cell drawn on another colour shows its character. -/
theorem glyphAt_drawString {line col : Nat} (hshown : f.CellShown x y str line col)
    (hbackground : ∀ row < fontHeight, ∀ k < fontWidth,
      s (x + fontWidth * col + k) (y + fontHeight * line + row) ≠ color % 2 ^ f.bpp) :
    f.glyphAt (f.paint s (drawString x y str color)) color (x + fontWidth * col)
      (y + fontHeight * line) = some ((textAt str line col).getD 32) := by
  refine glyphAt_eq ?_ fun row hrow k hk => ?_
  · cases hat : textAt str line col with
    | none => exact ⟨by decide, by decide⟩
    | some c => exact (textAt_spec hat).1
  · rw [paint_drawString hshown hrow hk]
    by_cases hbit : glyphBit ((textAt str line col).getD 32) row k = true
    · rw [if_pos hbit]
      exact iff_of_true rfl hbit
    · rw [if_neg hbit]
      exact iff_of_false (hbackground row hrow k hk) hbit

/-- A row of cells shows the characters of its row of the text, and blanks after its end. -/
theorem readRow_drawString {line n : Nat} (hshort : str.length ≤ 2 ^ 27)
    (hcolumns : x + fontWidth * n ≤ f.width)
    (hrows : y + fontHeight * line + fontHeight ≤ f.height)
    (hbackground : ∀ row < fontHeight, ∀ k < fontWidth * n,
      s (x + k) (y + fontHeight * line + row) ≠ color % 2 ^ f.bpp) :
    f.readRow (f.paint s (drawString x y str color)) color x (y + fontHeight * line) n =
      (List.range n).map fun col => some ((textAt str line col).getD 32) := by
  refine List.map_congr_left fun col hcol => ?_
  have hlt : col < n := List.mem_range.mp hcol
  have hcell : fontWidth * col + fontWidth ≤ fontWidth * n := Nat.mul_le_mul_left fontWidth hlt
  refine glyphAt_drawString ⟨hshort, by omega, hrows⟩ fun row hrow k hk => ?_
  rw [Nat.add_assoc]
  exact hbackground row hrow _ (by omega)

/-- A row of at most `n` characters, with blanks up to `n` cells. -/
def padRight (n : Nat) (row : List Nat) : List Nat := row ++ List.replicate (n - row.length) 32

theorem padRight_eq {n : Nat} {row : List Nat} (hrow : row.length ≤ n) :
    padRight n row = (List.range n).map fun col => row[col]?.getD 32 := by
  refine List.ext_getElem? fun col => ?_
  rw [padRight, List.getElem?_append, List.getElem?_map]
  by_cases hlt : col < n
  · rw [List.getElem?_range hlt, Option.map_some]
    by_cases hin : col < row.length
    · rw [if_pos hin, List.getElem?_eq_getElem hin, Option.getD_some]
    · rw [if_neg hin, List.getElem?_replicate, if_pos (by omega),
        List.getElem?_eq_none (Nat.le_of_not_lt hin), Option.getD_none]
  · rw [if_neg (by omega), List.getElem?_replicate, if_neg (by omega),
      List.getElem?_eq_none (by simpa using Nat.le_of_not_lt hlt), Option.map_none]

/-- Text drawn on another colour can be read off the screen: the cells show the rows of the text,
each with blanks after its end. -/
theorem text_readable {n : Nat} (hshort : str.length ≤ 2 ^ 27)
    (hlong : ∀ row ∈ textRows str, row.length ≤ n) (hcolumns : x + fontWidth * n ≤ f.width)
    (hrows : y + fontHeight * (textRows str).length ≤ f.height)
    (hbackground : ∀ row < fontHeight * (textRows str).length, ∀ k < fontWidth * n,
      s (x + k) (y + row) ≠ color % 2 ^ f.bpp) :
    ((List.range (textRows str).length).map fun line =>
        f.readRow (f.paint s (drawString x y str color)) color x (y + fontHeight * line) n) =
      (textRows str).map fun row => (padRight n row).map some := by
  refine List.ext_getElem (by simp) fun line h h' => ?_
  have hline : line < (textRows str).length := by simpa using h
  have hcells : fontHeight * line + fontHeight ≤ fontHeight * (textRows str).length :=
    Nat.mul_le_mul_left fontHeight hline
  rw [List.getElem_map, List.getElem_map, List.getElem_range,
    readRow_drawString hshort hcolumns (by omega) fun row hrow k hk => ?_,
    padRight_eq (hlong _ (List.getElem_mem hline)), List.map_map]
  · refine List.map_congr_left fun col _ => ?_
    rw [textAt, List.getElem?_eq_getElem hline]
    rfl
  · rw [Nat.add_assoc]
    exact hbackground _ (by omega) k hk

/-- A text of two rows on a grey screen. -/
theorem text_readable_sample :
    ((List.range 2).map fun line => sampleScreen.readRow (sampleScreen.paint (fun _ _ => 255)
      (drawString 8 8 [72, 105, 10, 7, 33] 0)) 0 8 (8 + fontHeight * line) 3) =
      [[some 72, some 105, some 32], [some 33, some 32, some 32]] :=
  (text_readable (n := 3) (by decide) (by decide) (by decide)
    (by decide) fun _ _ _ _ => by decide).trans (by decide)

end Framebuffer

end Kumo
