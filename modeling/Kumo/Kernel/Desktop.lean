import Kumo.App.Calc
import Kumo.Drivers.MouseStream

/-!
# The desktop

What the mouse callbacks of `kernel/main.c` and the idle loop do with the window
manager, the calculator and the screen. The framebuffer is not part of the state:
`drawn` is the list of what was drawn, and of the moments at which the cursor was
hidden, moved and shown. A divide error in the calculator halts the kernel: `none`.
-/

namespace Kumo

/-- `g_dirty`, and the snapshot of it that `wm_flush_dirty` takes. -/
structure Dirty where
  x : Int
  y : Int
  w : Nat
  h : Nat
  valid : Bool
  deriving DecidableEq

/-- What is done to the screen: pixels are written, `mouse_cursor_hide` and `mouse_cursor_show` are
called, `cursor_x` and `cursor_y` are set. -/
inductive DrawOp where
  | strokes (ps : List Stroke)
  | hide
  | moveTo (x y : Int)
  | show

/-- The windows, the calculator and its window's address, `g_drag_win` (0 is `NULL`), `g_dirty`, and
what was drawn so far. -/
structure Desktop where
  windows : WindowList
  calcWin : Nat
  calculator : Calc
  drag : Nat
  dirty : Dirty
  drawn : List DrawOp

/-- `MIN_GRIP`. -/
def minGrip : Nat := 30

namespace Desktop

variable (f : Framebuffer)

/-- The desktop after some drawing. -/
def draw (d : Desktop) (ops : List DrawOp) : Desktop := { d with drawn := d.drawn ++ ops }

/-- The window at an address. -/
def win (d : Desktop) (p : Nat) : Window := d.windows.win p

/-! ## The window manager -/

/-- `window_draw` of one window, and its `on_redraw`. -/
def redrawWindow (d : Desktop) (p : Nat) : List Stroke :=
  f.windowDraw (d.win p) ++
    if (d.win p).onRedraw then f.calcRedraw (d.win d.calcWin) d.calculator else []

/-- `wm_draw_all`. -/
def wmDrawAll (d : Desktop) : Desktop :=
  d.draw [.hide,
    .strokes (f.fillRect 0 0 (word ((f.width : Int) - 1)) (word ((f.height : Int) - 1))
      f.desktopColor ++ d.windows.zorder.flatMap (d.redrawWindow f)),
    .show]

/-- Take over a change of the window list, and redraw everything if it says so. -/
def rearranged (d : Desktop) (r : WindowList × Bool) : Desktop :=
  if r.2 then ({ d with windows := r.1 }).wmDrawAll f else { d with windows := r.1 }

/-- The clipping of `wm_mark_dirty` on one axis: the coordinate and the size, unless nothing is left
of it. -/
def clipAxis (limit : Nat) (x : Int) (w : Nat) : Option (Int × Nat) :=
  let left :=
    if x < 0 then if w ≤ word (-x) then none else some (0, w - word (-x)) else some (x, w)
  left.bind fun (x, w) =>
    if limit ≤ word x then none
    else some (x, if limit < (word x + w) % 2 ^ 32 then limit - word x else w)

/-- The merging of `wm_mark_dirty` on one axis. -/
def mergeAxis (dx : Int) (dw : Nat) (x : Int) (w : Nat) : Int × Nat :=
  let dr := wrap32 (dx + wrap32 dw)
  let nr := wrap32 (x + wrap32 w)
  let left := if x < dx then x else dx
  let right := if dr < nr then nr else dr
  (left, word (right - left))

/-- `wm_mark_dirty`, on `g_dirty`. -/
def markDirty (dirty : Dirty) (x y : Int) (w h : Nat) : Dirty :=
  if w = 0 ∨ h = 0 then dirty
  else
    match clipAxis f.width x w, clipAxis f.height y h with
    | some (x, w), some (y, h) =>
        if w = 0 ∨ h = 0 then dirty
        else if !dirty.valid then { x := x, y := y, w := w, h := h, valid := true }
        else
          let horizontal := mergeAxis dirty.x dirty.w x w
          let vertical := mergeAxis dirty.y dirty.h y h
          { dirty with
            x := horizontal.1
            y := vertical.1
            w := horizontal.2
            h := vertical.2 }
    | _, _ => dirty

/-- `wm_mark_dirty`. -/
def wmMarkDirty (d : Desktop) (x y : Int) (w h : Nat) : Desktop :=
  { d with dirty := markDirty f d.dirty x y w h }

/-- `wm_has_dirty`. -/
def wmHasDirty (d : Desktop) : Bool := d.dirty.valid

/-- The first `cli` section of `wm_flush_dirty`: take the rectangle over, if there is one. -/
def snapshot (d : Desktop) : Option Dirty × Desktop :=
  if d.dirty.valid then (some d.dirty, { d with dirty := { d.dirty with valid := false } })
  else (none, d)

/-- A window meets the rectangle of a snapshot. -/
def touches (snap : Dirty) (w : Window) : Bool :=
  !(wrap32 (snap.x + wrap32 snap.w) ≤ w.x || wrap32 (w.x + wrap32 w.w) ≤ snap.x ||
    wrap32 (snap.y + wrap32 snap.h) ≤ w.y || wrap32 (w.y + wrap32 w.h) ≤ snap.y)

/-- The second `cli` section of `wm_flush_dirty`: repaint the rectangle. -/
def repaint (d : Desktop) (snap : Dirty) : Desktop :=
  d.draw [.hide,
    .strokes (f.fillRect (word snap.x) (word snap.y) snap.w snap.h f.desktopColor ++
      (d.windows.zorder.filter fun p => touches snap (d.win p)).flatMap (d.redrawWindow f)),
    .show]

/-- `wm_flush_dirty`, without an interrupt between its two sections. -/
def wmFlushDirty (d : Desktop) : Desktop :=
  match d.snapshot with
  | (some snap, d) => d.repaint f snap
  | (none, d) => d

/-! ## The calculator's clicks -/

/-- `button_handle_down`. -/
def buttonHandleDown (d : Desktop) (i : Nat) (btn : Button) : Desktop :=
  ({ d with calculator := { d.calculator with pressed := some i } }).draw
    [.strokes (f.buttonDraw btn (d.win d.calcWin) true)]

/-- `button_handle_up` for the pressed button `btn`: its callback, if the point is still on it, and
the button drawn idle. -/
def buttonRelease (d : Desktop) (btn : Button) (x y : Int) : Option Desktop :=
  let win := d.win d.calcWin
  (if buttonHitTest btn win x y then
      (d.calculator.onClick btn.onClick).map fun c =>
        ({ d with calculator := c }).draw [.strokes (f.calcRefreshDisplay win c)]
    else some d).map fun d =>
    ({ d with calculator := { d.calculator with pressed := none } }).draw
      [.strokes (f.buttonDraw btn win false)]

/-- `g_pressed_button`. -/
def pressedButton (d : Desktop) : Option Button := d.calculator.pressed.bind (f.calcButtons[·]?)

/-- `button_handle_up`, and whether it consumes the click. -/
def buttonHandleUp (d : Desktop) (x y : Int) : Option (Desktop × Bool) :=
  match d.pressedButton f with
  | none => some (d, false)
  | some btn => (d.buttonRelease f btn x y).map fun d => (d, true)

/-- The calculator's button at a point, with its index. -/
def buttonAt (d : Desktop) (x y : Int) : Option (Nat × Button) :=
  (f.calcButtonAt (d.win d.calcWin) x y).bind fun i => f.calcButtons[i]?.map fun btn => (i, btn)

/-- The calculator's window is still in the list. -/
def calcActive (d : Desktop) : Bool := d.windows.wmIsWindowActive d.calcWin

/-- `calc_handle_click`, and whether it consumes the click. -/
def calcHandleClick (d : Desktop) (x y : Int) (buttons : Nat) : Option (Desktop × Bool) :=
  if !d.calcActive then some (d, false)
  else if buttons % 2 = 1 then
    match d.buttonAt f x y with
    | none => some (d, false)
    | some (i, btn) => some (d.buttonHandleDown f i btn, true)
  else d.buttonHandleUp f x y

/-! ## The mouse callbacks -/

/-- A click that is neither on a close button nor on a title bar: the calculator first, then
`wm_handle_click`. -/
def routeClick (d : Desktop) (x y : Int) (buttons : Nat) : Option Desktop :=
  (d.calcHandleClick f x y buttons).map fun (d, consumed) =>
    if consumed then d else d.rearranged f (d.windows.wmHandleClick x y)

/-- `on_mouse_click`. -/
def onMouseClick (d : Desktop) (x y : Int) (buttons : Nat) : Option Desktop :=
  if buttons % 2 = 1 then
    let hit := d.windows.wmFindWindowAt x y
    if hit ≠ 0 ∧ windowHitTestCloseButton (d.win hit) x y then
      let d := { d with drag := if d.drag = hit then 0 else d.drag }
      some (d.rearranged f (d.windows.wmRemoveWindow hit))
    else if hit ≠ 0 ∧ windowHitTestTitleBar (d.win hit) x y then
      some { d.rearranged f (d.windows.wmBringToTop hit) with drag := hit }
    else d.routeClick f x y buttons
  else if d.drag ≠ 0 then some { d with drag := 0 }
  else d.routeClick f x y buttons

/-- The window `on_mouse_move` leaves for the dragged one. -/
def dragged (w : Window) (dx dy : Int) : Window :=
  { w with
    x := clampCursor (wrap32 (w.x + dx)) f.width minGrip
    y := clampCursor (wrap32 (w.y - dy)) f.height titleBarH }

/-- `on_mouse_move`. -/
def onMouseMove (d : Desktop) (dx dy : Int) : Desktop :=
  if d.drag = 0 then d
  else
    let old := d.win d.drag
    let new := dragged f old dx dy
    let d := { d with
      windows := { d.windows with win := Function.update d.windows.win d.drag new } }
    let d := d.wmMarkDirty f old.x old.y ((old.w + 1) % 2 ^ 32) ((old.h + 1) % 2 ^ 32)
    d.wmMarkDirty f new.x new.y ((new.w + 1) % 2 ^ 32) ((new.h + 1) % 2 ^ 32)

/-- What the mouse driver does to the desktop, and the callbacks `kmain` registers with it. -/
def client : MouseClient Desktop where
  cursorRestore d := d.draw [.hide]
  cursorDraw x y d := d.draw [.moveTo x y, .show]
  click x y buttons d := d.onMouseClick f x y buttons
  move dx dy d := d.onMouseMove f dx dy

/-! ## Runs -/

/-- The mouse driver and the desktop. -/
abbrev Session := Mouse × Desktop

/-- The driver handles a packet, or the idle loop flushes the dirty rectangle. -/
inductive SessionEvent where
  | packet (p : Packet)
  | flush

/-- One event. -/
def Session.step (s : Session) : SessionEvent → Option Session
  | .packet p => Mouse.feed f (client f) s.1 s.2 p.encode
  | .flush => some (s.1, s.2.wmFlushDirty f)

/-- The desktop after some windows were added to an empty one. -/
def start (win : Nat → Window) (calcWin : Nat) (ps : List Nat) : Desktop where
  windows := ps.foldl WindowList.wmAddWindow { win := win, slots := fun _ => 0, count := 0 }
  calcWin := calcWin
  calculator :=
    { accumulator := 0, current := 0, pendingOp := 0, entering := false, pressed := none }
  drag := 0
  dirty := { x := 0, y := 0, w := 0, h := 0, valid := false }
  drawn := []

end Desktop

/-- `mouse_init`: the cursor at the centre of the screen. -/
def Mouse.init (f : Framebuffer) : Mouse :=
  Mouse.start ((wrap32 f.width).tdiv 2) ((wrap32 f.height).tdiv 2)

end Kumo
