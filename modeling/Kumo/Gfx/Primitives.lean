import Kumo.Gfx.Font
import Kumo.Gfx.Framebuffer
import Kumo.Lib.Int32

/-!
# Drawing primitives

The functions of `gfx/primitives.c` and `draw_string`. What they draw depends on the
size of the framebuffer but not on its contents, so each yields the list of the pixels
it writes, in order. `Screen` is what the framebuffer shows, and `paint` writes such a
list to it. All coordinates are unsigned 32-bit values.
-/

namespace Kumo

/-- One pixel written: `put_pixel(x, y, color)`. -/
structure Stroke where
  x : Nat
  y : Nat
  color : Nat
  deriving DecidableEq

/-- The values of the pixels of the framebuffer. -/
abbrev Screen := Nat → Nat → Nat

namespace Framebuffer

variable (f : Framebuffer)

/-- `make_color`. -/
def makeColor (r g b : Nat) : Nat :=
  ((r / 2 ^ (8 - f.redMask)) * 2 ^ f.redPos ||| (g / 2 ^ (8 - f.greenMask)) * 2 ^ f.greenPos |||
    (b / 2 ^ (8 - f.blueMask)) * 2 ^ f.bluePos) % 2 ^ 32

/-- `put_pixel`: a pixel outside the screen is dropped, and only `bpp` bits are stored. -/
def putPixel (s : Screen) (p : Stroke) : Screen :=
  if f.width ≤ p.x ∨ f.height ≤ p.y then s
  else Function.update s p.x (Function.update (s p.x) p.y (p.color % 2 ^ f.bpp))

/-- `get_pixel`. -/
def getPixel (s : Screen) (x y : Nat) : Nat :=
  if f.width ≤ x ∨ f.height ≤ y then 0 else s x y

/-- Write a list of pixels, in order. -/
def paint (s : Screen) (ps : List Stroke) : Screen := ps.foldl f.putPixel s

/-- The loop of `draw_line`, for both slopes: `a` is the coordinate it steps along, towards `a1`,
and `b` the other one. Every round but the last moves `a` on the screen, so `fuel` need not exceed
the size of the screen. -/
def lineLoop (limA limB : Nat) (plot : Nat → Nat → Stroke) (a1 da db sa sb : Int) :
    Nat → Int → Int → Int → List Stroke
  | 0, _, _, _ => []
  | fuel + 1, a, b, err =>
      if a < 0 ∨ limA ≤ word a ∨ b < 0 ∨ limB ≤ word b then []
      else plot (word a) (word b) ::
        if a = a1 then []
        else
          let err := wrap32 (err - db)
          if err < 0 then
            lineLoop limA limB plot a1 da db sa sb fuel (wrap32 (a + sa)) (wrap32 (b + sb))
              (wrap32 (err + da))
          else lineLoop limA limB plot a1 da db sa sb fuel (wrap32 (a + sa)) b err

/-- `draw_line`. -/
def drawLine (x0 y0 x1 y1 color : Nat) : List Stroke :=
  let dx := wrap32 (wrap32 x1 - wrap32 x0)
  let dy := wrap32 (wrap32 y1 - wrap32 y0)
  let adx := if dx < 0 then wrap32 (-dx) else dx
  let ady := if dy < 0 then wrap32 (-dy) else dy
  let sx := dx.sign
  let sy := dy.sign
  if ady ≤ adx then
    lineLoop f.width f.height (fun a b => ⟨a, b, color⟩) (wrap32 x1) adx ady sx sy (f.width + 1)
      (wrap32 x0) (wrap32 y0) (adx.tdiv 2)
  else
    lineLoop f.height f.width (fun a b => ⟨b, a, color⟩) (wrap32 y1) ady adx sy sx (f.height + 1)
      (wrap32 y0) (wrap32 x0) (ady.tdiv 2)

/-- `draw_rect`: four lines, end points included. -/
def drawRect (x y w h color : Nat) : List Stroke :=
  let x2 := (x + w) % 2 ^ 32
  let y2 := (y + h) % 2 ^ 32
  f.drawLine x y x2 y color ++ f.drawLine x2 y x2 y2 color ++ f.drawLine x2 y2 x y2 color ++
    f.drawLine x y2 x y color

/-- `fill_rect`: columns `[x, x + w)` and rows `[y, y + h)`, clipped. -/
def fillRect (x y w h color : Nat) : List Stroke :=
  if f.width ≤ x ∨ f.height ≤ y then []
  else
    let x2 := min ((x + w) % 2 ^ 32) f.width
    let y2 := min ((y + h) % 2 ^ 32) f.height
    (List.range' y (y2 - y)).flatMap fun row => (List.range' x (x2 - x)).map fun col =>
      ⟨col, row, color⟩

end Framebuffer

/-- The pixels of one character. -/
def drawGlyph (x y c color : Nat) : List Stroke :=
  (List.range fontHeight).flatMap fun row => (List.range fontWidth).filterMap fun col =>
    if glyphBit c row col then some ⟨(x + col) % 2 ^ 32, (y + row) % 2 ^ 32, color⟩ else none

/-- The loop of `draw_string`. -/
def drawChars (startX color : Nat) : List Nat → Nat → Nat → List Stroke
  | [], _, _ => []
  | c :: str, x, y =>
      if c = 10 then drawChars startX color str startX ((y + fontHeight) % 2 ^ 32)
      else if c < fontAsciiFirst ∨ fontAsciiLast < c then drawChars startX color str x y
      else drawGlyph x y c color ++ drawChars startX color str ((x + fontWidth) % 2 ^ 32) y

/-- `draw_string`. -/
def drawString (x y : Nat) (str : List Nat) (color : Nat) : List Stroke :=
  drawChars x color str x y

end Kumo
