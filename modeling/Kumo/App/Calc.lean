import Kumo.Wm.WindowDraw

/-!
# The calculator

The state machine, the buttons and the display of `app/calc.c`. Signed arithmetic wraps
modulo `2 ^ 32`. A division whose quotient is not an `int32_t` is a divide error, which
halts the kernel: `none`.
-/

namespace Kumo

/-- `g_accumulator`, `g_current`, `g_pending_op`, `g_entering`, and `g_pressed_button` as an index
into the buttons. The parent of a pressed button is always the calculator's window. -/
structure Calc where
  accumulator : Int
  current : Int
  pendingOp : Nat
  entering : Bool
  pressed : Option Nat
  deriving DecidableEq

namespace Calc

/-- The decimal digits of a positive number, most significant first, by the loop of `itoa`. -/
def itoaDigits : Nat → Int → List Nat → List Nat
  | 0, _, tmp => tmp
  | fuel + 1, n, tmp =>
      if 0 < n then itoaDigits fuel (n.tdiv 10) ((0x30 + (n.tmod 10).toNat) :: tmp) else tmp

/-- `itoa`. An `int32_t` has at most ten digits. -/
def itoa (n : Int) : List Nat :=
  if n = 0 then [0x30]
  else if n < 0 then 0x2D :: itoaDigits 10 (wrap32 (-n)) []
  else itoaDigits 10 n []

/-- `calc_execute_pending`. -/
def calcExecutePending (c : Calc) : Option Calc :=
  match c.pendingOp with
  | 1 => some { c with accumulator := wrap32 (c.accumulator + c.current) }
  | 2 => some { c with accumulator := wrap32 (c.accumulator - c.current) }
  | 3 => some { c with accumulator := wrap32 (c.accumulator * c.current) }
  | 4 =>
      if c.current = 0 then some c
      else if 2 ^ 31 ≤ c.accumulator.tdiv c.current then none
      else some { c with accumulator := c.accumulator.tdiv c.current }
  | _ => some c

/-- `calc_input_digit`, without the display. -/
def calcInputDigit (c : Calc) (d : Nat) : Calc :=
  if c.entering then { c with current := wrap32 (wrap32 (c.current * 10) + d) }
  else { c with current := d, entering := true }

/-- `calc_input_op`, without the display. -/
def calcInputOp (c : Calc) (op : Nat) : Option Calc :=
  (if c.pendingOp ≠ 0 then c.calcExecutePending else some { c with accumulator := c.current }).map
    fun c => { c with pendingOp := op, current := 0, entering := false }

/-- `calc_do_equals`, without the display. -/
def calcDoEquals (c : Calc) : Option Calc :=
  (if c.pendingOp ≠ 0 then c.calcExecutePending.map fun c => { c with current := c.accumulator }
    else some c).map
    fun c => { c with accumulator := c.current, pendingOp := 0, entering := false }

/-- `calc_do_clear`, without the display. -/
def calcDoClear (c : Calc) : Calc :=
  { c with current := 0, accumulator := 0, pendingOp := 0, entering := false }

/-- The callback of a button. Each ends with `calc_refresh_display`. -/
def onClick (c : Calc) : CalcKey → Option Calc
  | .digit d => some (c.calcInputDigit d)
  | .op op => c.calcInputOp op
  | .eq => c.calcDoEquals
  | .clr => some c.calcDoClear

end Calc

/-- `DISP_X`, `DISP_Y`, `DISP_W`, `DISP_H` and `DISP_RPAD`. -/
def dispX : Nat := 10
def dispY : Nat := 25
def dispW : Nat := 220
def dispH : Nat := 40
def dispRpad : Nat := 8

namespace Framebuffer

variable (f : Framebuffer)

/-- `calc_refresh_display`. -/
def calcRefreshDisplay (win : Window) (c : Calc) : List Stroke :=
  let absX := wrap32 (win.x + dispX)
  let absY := wrap32 (win.y + dispY)
  let buf := Calc.itoa (if c.entering then c.current else c.accumulator)
  let textX := wrap32 (absX + dispW - dispRpad - buf.length * 8)
  let textX := if textX < wrap32 (absX + 4) then wrap32 (absX + 4) else textX
  f.fillRect (word absX) (word absY) dispW dispH win.bodyColor ++
    drawString (word textX) (word (absY + 12)) buf (f.makeColor 0x10 0x10 0x10)

/-- One `add_btn` of `calc_init`. -/
def calcButton (idle pressed : Nat) (rx ry : Int) (label : Nat) (key : CalcKey) : Button :=
  { x := rx, y := ry, w := 52, h := 35, label := [label], colorIdle := idle,
    colorPressed := pressed, onClick := key }

/-- `g_btns` after `calc_init`. -/
def calcButtons : List Button :=
  let digit := calcButton (f.makeColor 0x90 0x95 0xA0) (f.makeColor 0x60 0x65 0x70)
  let op := calcButton (f.makeColor 0xD0 0xA0 0x60) (f.makeColor 0xC0 0x70 0x20)
  let eq := calcButton (f.makeColor 0x60 0xB0 0x60) (f.makeColor 0x30 0x90 0x30)
  [digit 10 69 0x37 (.digit 7), digit 66 69 0x38 (.digit 8), digit 122 69 0x39 (.digit 9),
    op 178 69 0x2F (.op 4),
    digit 10 108 0x34 (.digit 4), digit 66 108 0x35 (.digit 5), digit 122 108 0x36 (.digit 6),
    op 178 108 0x2A (.op 3),
    digit 10 147 0x31 (.digit 1), digit 66 147 0x32 (.digit 2), digit 122 147 0x33 (.digit 3),
    op 178 147 0x2D (.op 2),
    eq 10 186 0x43 .clr, digit 66 186 0x30 (.digit 0), eq 122 186 0x3D .eq, op 178 186 0x2B (.op 1)]

/-- `calc_redraw`. -/
def calcRedraw (win : Window) (c : Calc) : List Stroke :=
  f.windowDraw win ++ (f.calcButtons.flatMap fun btn => f.buttonDraw btn win false) ++
    f.calcRefreshDisplay win c

/-- The first button that contains a point: its index. -/
def calcButtonAt (win : Window) (x y : Int) : Option Nat :=
  f.calcButtons.findIdx? fun btn => buttonHitTest btn win x y

end Framebuffer

end Kumo
