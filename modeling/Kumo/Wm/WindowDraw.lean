import Kumo.Gfx.Primitives
import Kumo.Wm.WindowList

/-!
# Drawing windows and buttons

`window_draw` of `wm/window.c`, and `button_t` with `button_hit_test` and `button_draw`
of `wm/button.c`.
-/

namespace Kumo

namespace Framebuffer

variable (f : Framebuffer)

/-- The desktop colour of `wm_draw_all` and `wm_flush_dirty`. -/
def desktopColor : Nat := f.makeColor 0x20 0x20 0x30

/-- `window_draw`. -/
def windowDraw (win : Window) : List Stroke :=
  let borderColor := f.makeColor 0x40 0x40 0x40
  let titleTextColor := f.makeColor 0xFF 0xFF 0xFF
  let closeX := word (win.x + win.w - closeBtnSize - closeBtnMargin)
  let closeY := word (win.y + closeBtnMargin)
  let closeColor := f.makeColor 0xCC 0x44 0x44
  f.drawRect (word win.x) (word win.y) win.w win.h borderColor ++
    f.fillRect (word (win.x + 1)) (word (win.y + 1)) (word ((win.w : Int) - 2)) titleBarH
      win.titleBarColor ++
    drawString (word (win.x + 4)) (word (win.y + 1 + (titleBarH - fontHeight) / 2)) win.title
      titleTextColor ++
    f.fillRect closeX closeY closeBtnSize closeBtnSize closeColor ++
    drawString ((closeX + (closeBtnSize - 8) / 2) % 2 ^ 32)
      ((closeY + (closeBtnSize - fontHeight) / 2) % 2 ^ 32) [0x58] titleTextColor ++
    f.fillRect (word (win.x + 1)) (word (win.y + titleBarH + 1)) (word ((win.w : Int) - 2))
      (word ((win.h : Int) - titleBarH - 2)) win.bodyColor

end Framebuffer

/-- The callbacks of the calculator's buttons: `cb_d0` to `cb_d9`, `cb_add` to `cb_div`, `cb_eq`
and `cb_clr`. -/
inductive CalcKey where
  | digit (d : Nat)
  | op (op : Nat)
  | eq
  | clr
  deriving DecidableEq

/-- `button_t`. Its position is relative to its window. -/
structure Button where
  x : Int
  y : Int
  w : Nat
  h : Nat
  label : List Nat
  colorIdle : Nat
  colorPressed : Nat
  onClick : CalcKey
  deriving DecidableEq

/-- `button_hit_test`. -/
def buttonHitTest (btn : Button) (parent : Window) (x y : Int) : Bool :=
  let absX := wrap32 (parent.x + btn.x)
  let absY := wrap32 (parent.y + btn.y)
  absX ≤ x && x < wrap32 (absX + wrap32 btn.w) && absY ≤ y && y < wrap32 (absY + wrap32 btn.h)

/-- `button_draw`. -/
def Framebuffer.buttonDraw (f : Framebuffer) (btn : Button) (parent : Window) (pressed : Bool) :
    List Stroke :=
  let absX := wrap32 (parent.x + btn.x)
  let absY := wrap32 (parent.y + btn.y)
  let color := if pressed then btn.colorPressed else btn.colorIdle
  f.fillRect (word absX) (word absY) (word ((btn.w : Int) - 1)) (word ((btn.h : Int) - 1)) color ++
    f.drawRect (word absX) (word absY) (word ((btn.w : Int) - 1)) (word ((btn.h : Int) - 1))
      (f.makeColor 0x30 0x30 0x30) ++
    drawString (word (absX + 6)) (word (absY + 6)) btn.label (f.makeColor 0xFF 0xFF 0xFF)

end Kumo
