import Kumo.Drivers.Cursor
import Kumo.Gfx.VideoMemory
import Kumo.Lib.Transition

/-!
# The cursor in video memory

The cursor of `drivers/mouse.c` on the bytes of the framebuffer. On the pixels it does what
`CursorScreen` does, so that a scene is kept under it: when the cursor is hidden, the memory is
what the other writes alone would have left, the padding of the rows included.
-/

namespace Kumo

/-- The memory, `cursor_x`, `cursor_y`, `cursor_old_x`, `cursor_old_y`, `cursor_visible` and
`cursor_backup` (by column and row). -/
structure CursorMemory where
  memory : Memory
  x : Int
  y : Int
  oldX : Int
  oldY : Int
  visible : Bool
  backup : Nat → Nat → Nat

/-- What happens to a screen with a cursor: the mouse moves, `mouse_cursor_hide` and
`mouse_cursor_show` are called with pixels written in between, a pixel is written. -/
inductive CursorEvent where
  | move (dx dy : Int)
  | hideShow (writes : List Stroke)
  | write (p : Stroke)

namespace CursorMemory

variable (f : Framebuffer) (addr : Nat)

/-- `cursor_save`. -/
def cursorSave (c : CursorMemory) : CursorMemory :=
  { c with
    backup := fun dx dy => f.getPixelAt addr c.memory (word (c.x + dx)) (word (c.y + dy)) }

/-- `cursor_restore`. -/
def cursorRestore (c : CursorMemory) : CursorMemory :=
  if c.visible then
    { c with
      memory := f.paintAt addr c.memory (backupStrokes c.oldX c.oldY c.backup)
      visible := false }
  else c

/-- `cursor_draw`. -/
def cursorDraw (c : CursorMemory) : CursorMemory :=
  let c := c.cursorSave f addr
  let filled := f.fillRectAt addr c.memory (word c.x) (word c.y) (cursorW - 1) (cursorH - 1)
    (f.makeColor 0xFF 0xFF 0xFF)
  { c with
    memory := f.paintAt addr filled
      (f.drawRect (word c.x) (word c.y) (cursorW - 1) (cursorH - 1) (f.makeColor 0x00 0x00 0x00))
    oldX := c.x
    oldY := c.y
    visible := true }

/-- The movement half of `mouse_process_packet`. -/
def move (c : CursorMemory) (dx dy : Int) : CursorMemory :=
  let c := c.cursorRestore f addr
  cursorDraw f addr { c with
    x := clampCursor (wrap32 (c.x + dx)) f.width cursorW
    y := clampCursor (wrap32 (c.y - dy)) f.height cursorH }

/-- One event. -/
def step (c : CursorMemory) : CursorEvent → CursorMemory
  | .move dx dy => c.move f addr dx dy
  | .hideShow writes =>
      let c := c.cursorRestore f addr
      cursorDraw f addr { c with memory := f.paintAt addr c.memory writes }
  | .write p => { c with memory := f.putPixelAt addr c.memory p.x p.y p.color }

/-- A pixel is written outside the cursor, or while it is hidden. -/
def Allowed (c : CursorMemory) : CursorEvent → Prop
  | .write p => c.visible = true → ¬ UnderCursor c.oldX c.oldY p.x p.y
  | _ => True

end CursorMemory

/-- The pixels that others write in an event. -/
def CursorEvent.writes : CursorEvent → List Stroke
  | .move _ _ => []
  | .hideShow writes => writes
  | .write p => [p]

/-- The bytes are `base` with the pixels of the screen in it. -/
structure Shows (f : Framebuffer) (addr : Nat) (base : Memory) (c : CursorMemory)
    (s : CursorScreen) : Prop where
  memory : c.memory = (f.raster addr).encode base s.screen
  stored : f.Stored s.screen
  pos : c.x = s.x ∧ c.y = s.y
  old : c.oldX = s.oldX ∧ c.oldY = s.oldY
  visible : c.visible = s.visible
  backup : c.backup = s.backup

namespace Shows

variable {f : Framebuffer} {addr : Nat} {base : Memory} {c : CursorMemory} {s : CursorScreen}

/-- Painting. -/
theorem paint (h : Shows f addr base c s) (ps : List Stroke) :
    Shows f addr base { c with memory := f.paintAt addr c.memory ps }
      { s with screen := f.paint s.screen ps } :=
  ⟨by rw [h.memory, Framebuffer.paintAt_encode], Framebuffer.stored_paint h.stored ps, h.pos, h.old,
    h.visible, h.backup⟩

/-- A new position of the cursor. -/
theorem moveTo (h : Shows f addr base c s) (x y : Int) :
    Shows f addr base { c with x := x, y := y } { s with x := x, y := y } :=
  ⟨h.memory, h.stored, ⟨rfl, rfl⟩, h.old, h.visible, h.backup⟩

/-- `get_pixel`. -/
theorem getPixel (h : Shows f addr base c s) (x y : Nat) :
    f.getPixelAt addr c.memory x y = f.getPixel s.screen x y := by
  rw [Framebuffer.getPixelAt_eq, h.memory]
  unfold Framebuffer.getPixel
  split
  · rfl
  · next hin =>
      have hv : f.Visible x y := by
        unfold Framebuffer.Visible
        omega
      have hbits : 8 * (f.raster addr).bytes = f.bpp := Framebuffer.bpp_eq f
      rw [Raster.decode_encode (r := f.raster addr) hv, hbits, Nat.mod_eq_of_lt (h.stored x y hv)]

/-- `cursor_restore`. -/
theorem restore (h : Shows f addr base c s) :
    Shows f addr base (c.cursorRestore f addr) (s.cursorRestore f) := by
  unfold CursorMemory.cursorRestore CursorScreen.cursorRestore
  rw [h.visible]
  split
  · have hpainted := h.paint (backupStrokes s.oldX s.oldY s.backup)
    rw [h.old.1, h.old.2, h.backup]
    exact ⟨hpainted.memory, hpainted.stored, h.pos, ⟨rfl, rfl⟩, rfl, rfl⟩
  · exact h

/-- `cursor_draw`. -/
theorem draw (h : Shows f addr base c s) :
    Shows f addr base (c.cursorDraw f addr) (s.cursorDraw f) := by
  have hpainted := h.paint (f.cursorStrokes s.x s.y)
  have hbackup : ∀ dx dy : Nat,
      f.getPixelAt addr c.memory (word (c.x + dx)) (word (c.y + dy)) =
        f.getPixel s.screen (word (s.x + dx)) (word (s.y + dy)) := by
    intro dx dy
    rw [h.getPixel, h.pos.1, h.pos.2]
  have hmemory := hpainted.memory
  dsimp only at hmemory
  rw [Framebuffer.cursorStrokes, Framebuffer.paintAt, List.foldl_append] at hmemory
  unfold CursorMemory.cursorDraw CursorMemory.cursorSave CursorScreen.cursorDraw
    CursorScreen.cursorSave
  dsimp only
  rw [Framebuffer.fillRectAt_eq]
  refine ⟨?_, hpainted.stored, h.pos, h.pos, rfl, ?_⟩
  · dsimp only
    rw [h.pos.1, h.pos.2]
    exact hmemory
  · funext dx dy
    exact hbackup dx dy

end Shows

/-! ## Runs -/

namespace CursorMemory

variable {f : Framebuffer} {addr : Nat} {base : Memory} {c : CursorMemory} {scene : Screen}

/-- Hiding the cursor would leave the scene in the memory. -/
structure Over (f : Framebuffer) (addr : Nat) (base : Memory) (c : CursorMemory)
    (scene : Screen) : Prop where
  stored : f.Stored scene
  clean : ∃ s, Shows f addr base c s ∧ s.Clean f scene

/-- Hiding the cursor leaves the scene. -/
theorem Over.restore (h : Over f addr base c scene) :
    ∃ s : CursorScreen, Shows f addr base (c.cursorRestore f addr) s ∧ s.screen = scene := by
  obtain ⟨s, hshows, hclean⟩ := h.clean
  exact ⟨s.cursorRestore f, hshows.restore, (CursorScreen.clean_restore hclean).2.2⟩

/-- Drawing the cursor over a scene. -/
theorem over_draw {s : CursorScreen} (hshows : Shows f addr base c s) (hscreen : s.screen = scene) :
    Over f addr base (c.cursorDraw f addr) scene := by
  have hstored : f.Stored scene := hscreen ▸ hshows.stored
  exact ⟨hstored, s.cursorDraw f, hshows.draw, CursorScreen.clean_draw hstored hscreen⟩

/-- What an event leaves under the cursor. -/
theorem Over.step (h : Over f addr base c scene) {event : CursorEvent} (hallowed : c.Allowed event) :
    Over f addr base (c.step f addr event) (f.paint scene event.writes) := by
  cases event with
  | move dx dy =>
      obtain ⟨s, hshows, hscreen⟩ := h.restore
      exact over_draw (hshows.moveTo _ _) hscreen
  | hideShow writes =>
      obtain ⟨s, hshows, hscreen⟩ := h.restore
      exact over_draw (hshows.paint writes) (congrArg (f.paint · writes) hscreen)
  | write p =>
      obtain ⟨s, hshows, hclean⟩ := h.clean
      refine ⟨Framebuffer.stored_paint h.stored [p], _, hshows.paint [p], ?_⟩
      by_cases hvisible : s.visible = true
      · refine (CursorScreen.clean_paint_iff hvisible hclean [p]).mpr fun px py hunder => ?_
        have houtside := hallowed (hshows.visible.trans hvisible)
        refine Framebuffer.putPixel_other scene p fun _ hpos => houtside ?_
        rw [hshows.old.1, hshows.old.2, hpos.1, hpos.2]
        exact hunder
      · have hkept : ∀ screen, ({ s with screen := screen }.cursorRestore f).screen = screen :=
          fun screen => by rw [CursorScreen.cursorRestore, if_neg hvisible]
        have hscreen : s.screen = scene := (hkept s.screen).symm.trans hclean
        show ({ s with screen := _ }.cursorRestore f).screen = _
        rw [hkept, hscreen]
        rfl

/-- What a run leaves under the cursor. -/
theorem Over.run (h : Over f addr base c scene) {events : List CursorEvent}
    (hallowed : Transition.Meets (fun c e => some (CursorMemory.step f addr c e)) Allowed c
      events) :
    Over f addr base (events.foldl (CursorMemory.step f addr) c)
      (f.paint scene (events.flatMap (·.writes))) := by
  induction events generalizing c scene with
  | nil => exact h
  | cons event events ih =>
      rw [List.flatMap_cons, Framebuffer.paint_append]
      exact ih (h.step hallowed.1) (hallowed.2 _ rfl)

/-- A hidden cursor is over the screen that is in the memory. -/
theorem over_hidden (hhidden : c.visible = false) :
    Over f addr c.memory c ((f.raster addr).decode c.memory) := by
  have hstored : f.Stored ((f.raster addr).decode c.memory) := by
    intro x y _
    have hlt := Memory.loadLow_lt c.memory ((f.raster addr).address x y) (f.raster addr).bytes
    rwa [show 8 * (f.raster addr).bytes = f.bpp from Framebuffer.bpp_eq f] at hlt
  refine ⟨hstored, ⟨_, c.x, c.y, c.oldX, c.oldY, false, c.backup⟩,
    ⟨(Raster.encode_decode _ _).symm, hstored, ⟨rfl, rfl⟩, ⟨rfl, rfl⟩, hhidden, rfl⟩, rfl⟩

end CursorMemory

/-- The cursor law: after any run of mouse moves, of hiding and showing with pixels written in
between, and of pixels written outside the cursor or while it is hidden, hiding the cursor leaves
the memory that those writes alone leave. -/
theorem cursor_law (f : Framebuffer) (addr : Nat) (c : CursorMemory) (hhidden : c.visible = false)
    (events : List CursorEvent)
    (hallowed : Transition.Meets (fun c e => some (CursorMemory.step f addr c e))
      CursorMemory.Allowed c events) :
    ((events.foldl (CursorMemory.step f addr) c).cursorRestore f addr).memory =
      f.paintAt addr c.memory (events.flatMap (·.writes)) := by
  obtain ⟨s, hshows, hscreen⟩ := ((CursorMemory.over_hidden hhidden).run hallowed).restore
  rw [hshows.memory, hscreen, Framebuffer.paintAt_eq]

/-- A hidden cursor at the centre of a screen. -/
def hiddenCursor : CursorMemory := ⟨fun _ => 0, 512, 384, 512, 384, false, fun _ _ => 0⟩

/-- A movement, a redraw under the cursor, and a pixel in the corner of the screen. -/
theorem cursor_law_sample :
    (([.move 3 (-2), .hideShow [⟨515, 386, 255⟩], .write ⟨0, 0, 128⟩].foldl
        (CursorMemory.step sampleScreen 4096) hiddenCursor).cursorRestore sampleScreen 4096).memory =
      sampleScreen.paintAt 4096 (fun _ => 0) [⟨515, 386, 255⟩, ⟨0, 0, 128⟩] := by
  refine cursor_law sampleScreen 4096 hiddenCursor rfl
    [.move 3 (-2), .hideShow [⟨515, 386, 255⟩], .write ⟨0, 0, 128⟩] ?_
  refine ⟨trivial, fun moved hmoved => ⟨trivial, fun drawn hdrawn =>
    ⟨fun _ => ?_, fun _ _ => trivial⟩⟩⟩
  obtain rfl := Option.some.inj hmoved
  obtain rfl := Option.some.inj hdrawn
  rintro ⟨dx, hdx, dy, hdy, hx, hy⟩
  have hold : word ((515 : Int) + dx) = 0 := hx
  unfold cursorW word at *
  omega

end Kumo
