import Kumo.Gfx.Framebuffer
import Kumo.Lib.Int32

/-!
# The PS/2 mouse driver

The packet decoder and the cursor position of `drivers/mouse.c`. The driver draws the
cursor and calls two functions that the upper layers register. `MouseClient` is what it
calls, on a state of its own; a click may halt the kernel.
-/

namespace Kumo

/-- `CURSOR_W`. -/
def cursorW : Nat := 12

/-- `CURSOR_H`. -/
def cursorH : Nat := 20

/-- `mouse_cycle`, `mouse_bytes`, `first_packet`, `last_buttons`, `cursor_x` and `cursor_y`. -/
structure Mouse where
  cycle : Nat
  byte0 : Nat
  byte1 : Nat
  byte2 : Nat
  firstPacket : Bool
  lastButtons : Nat
  cursorX : Int
  cursorY : Int
  deriving DecidableEq

/-- `cursor_restore`, `cursor_draw` at a position, `g_mouse_click_callback` and
`g_mouse_move_callback`. -/
structure MouseClient (σ : Type) where
  cursorRestore : σ → σ
  cursorDraw : Int → Int → σ → σ
  click : Int → Int → Nat → σ → Option σ
  move : Int → Int → σ → σ

/-- `(int8_t)b`. -/
def int8 (b : Nat) : Int := if b < 128 then b else (b : Int) - 256

/-- The clamp of one cursor coordinate, for a screen and a cursor of the given sizes. -/
def clampCursor (v : Int) (screen cursor : Nat) : Int :=
  let v := if v < 0 then 0 else v
  let limit := wrap32 (wrap32 screen - cursor)
  if limit < v then limit else v

namespace Mouse

variable {σ : Type} (f : Framebuffer) (client : MouseClient σ)

/-- The state of the decoder when the driver is loaded, with the cursor anywhere. -/
def start (x y : Int) : Mouse :=
  { cycle := 0, byte0 := 0, byte1 := 0, byte2 := 0, firstPacket := true, lastButtons := 0,
    cursorX := x, cursorY := y }

/-- The button half of `mouse_process_packet`: report a change of the three buttons. -/
def processButtons (m : Mouse) (s : σ) : Option (Mouse × σ) :=
  let buttons := m.byte0 % 8
  if buttons ≠ m.lastButtons then
    (client.click m.cursorX m.cursorY buttons s).map fun s => ({ m with lastButtons := buttons }, s)
  else some (m, s)

/-- The movement half of `mouse_process_packet`. -/
def processMove (m : Mouse) (s : σ) : Mouse × σ :=
  let dx := int8 m.byte1
  let dy := int8 m.byte2
  if dx ≠ 0 ∨ dy ≠ 0 then
    let s := client.cursorRestore s
    let x := clampCursor (wrap32 (m.cursorX + dx)) f.width cursorW
    let y := clampCursor (wrap32 (m.cursorY - dy)) f.height cursorH
    let s := client.cursorDraw x y s
    ({ m with cursorX := x, cursorY := y }, client.move dx dy s)
  else (m, s)

/-- `mouse_process_packet`. The first packet is discarded. -/
def mouseProcessPacket (m : Mouse) (s : σ) : Option (Mouse × σ) :=
  if m.firstPacket then some ({ m with firstPacket := false }, s)
  else (m.processButtons client s).map fun r => r.1.processMove f client r.2

/-- `mouse_handle_interrupt`, for the byte read from the controller. -/
def mouseHandleInterrupt (m : Mouse) (s : σ) (data : Nat) : Option (Mouse × σ) :=
  match m.cycle with
  | 0 =>
      if data / 8 % 2 = 0 then some (m, s) else some ({ m with byte0 := data, cycle := 1 }, s)
  | 1 => some ({ m with byte1 := data, cycle := 2 }, s)
  | 2 => mouseProcessPacket f client { m with byte2 := data, cycle := 0 } s
  | _ => some (m, s)

/-- The interrupts for a stream of bytes. -/
def feed (m : Mouse) (s : σ) : List Nat → Option (Mouse × σ)
  | [] => some (m, s)
  | data :: stream => (mouseHandleInterrupt f client m s data).bind fun r => feed r.1 r.2 stream

end Mouse

end Kumo
