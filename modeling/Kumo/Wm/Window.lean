import Kumo.Lib.Int32

/-!
# Windows

`window_t` and its hit tests, from `wm/window.h`. Coordinates are signed 32-bit
values, sizes unsigned ones. A sum of both is computed modulo `2 ^ 32` and read as
signed.
-/

namespace Kumo

/-- `TITLE_BAR_H`. -/
def titleBarH : Nat := 26

/-- `CLOSE_BTN_SIZE`. -/
def closeBtnSize : Nat := 18

/-- `CLOSE_BTN_MARGIN`. -/
def closeBtnMargin : Nat := 4

/-- `window_t`. The callback `on_redraw` is null or the calculator's. -/
structure Window where
  x : Int
  y : Int
  w : Nat
  h : Nat
  title : List Nat
  titleBarColor : Nat
  bodyColor : Nat
  onRedraw : Bool
  deriving DecidableEq

/-- `window_hit_test`. -/
def windowHitTest (win : Window) (x y : Int) : Bool :=
  win.x ≤ x && x < wrap32 (win.x + win.w) && win.y ≤ y && y < wrap32 (win.y + win.h)

/-- `window_hit_test_title_bar`. -/
def windowHitTestTitleBar (win : Window) (x y : Int) : Bool :=
  win.x ≤ x && x < wrap32 (win.x + win.w) && win.y ≤ y && y < wrap32 (win.y + titleBarH)

/-- `window_hit_test_close_button`. -/
def windowHitTestCloseButton (win : Window) (x y : Int) : Bool :=
  let bx := wrap32 (win.x + wrap32 win.w - closeBtnSize - closeBtnMargin)
  let bY := wrap32 (win.y + closeBtnMargin)
  bx ≤ x && x < wrap32 (bx + closeBtnSize) && bY ≤ y && y < wrap32 (bY + closeBtnSize)

end Kumo
