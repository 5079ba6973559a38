import Kumo.Drivers.Mouse
import Kumo.Gfx.Paint

/-!
# The cursor on the screen

`cursor_save`, `cursor_restore` and `cursor_draw` of `drivers/mouse.c`. The driver keeps
the pixels under the cursor and writes them back before it draws the cursor somewhere
else. `Clean` says that hiding the cursor would uncover a given scene; it survives any
drawing done while the cursor is hidden.
-/

namespace Kumo

/-- The pixels of the screen, `cursor_x`, `cursor_y`, `cursor_old_x`, `cursor_old_y`,
`cursor_visible` and `cursor_backup` (by column and row). -/
structure CursorScreen where
  screen : Screen
  x : Int
  y : Int
  oldX : Int
  oldY : Int
  visible : Bool
  backup : Nat → Nat → Nat

/-- A position is one of those the cursor covers when it is at `(x, y)`. -/
def UnderCursor (x y : Int) (px py : Nat) : Prop :=
  ∃ dx : Nat, dx < cursorW ∧ ∃ dy : Nat, dy < cursorH ∧ word (x + dx) = px ∧ word (y + dy) = py

/-- The strokes of `cursor_restore`, from the cursor at `(x, y)`. -/
def backupStrokes (x y : Int) (backup : Nat → Nat → Nat) : List Stroke :=
  (List.range cursorH).flatMap fun (dy : Nat) => (List.range cursorW).map fun (dx : Nat) =>
    ⟨word (x + dx), word (y + dy), backup dx dy⟩

namespace Framebuffer

variable (f : Framebuffer)

/-- The strokes of `cursor_draw`, at `(x, y)`. -/
def cursorStrokes (x y : Int) : List Stroke :=
  f.fillRect (word x) (word y) (cursorW - 1) (cursorH - 1) (f.makeColor 0xFF 0xFF 0xFF) ++
    f.drawRect (word x) (word y) (cursorW - 1) (cursorH - 1) (f.makeColor 0x00 0x00 0x00)

end Framebuffer

namespace CursorScreen

variable (f : Framebuffer)

/-- `cursor_save`. -/
def cursorSave (c : CursorScreen) : CursorScreen :=
  { c with backup := fun dx dy => f.getPixel c.screen (word (c.x + dx)) (word (c.y + dy)) }

/-- `cursor_restore`. -/
def cursorRestore (c : CursorScreen) : CursorScreen :=
  if c.visible then
    { c with
      screen := f.paint c.screen (backupStrokes c.oldX c.oldY c.backup)
      visible := false }
  else c

/-- `cursor_draw`. -/
def cursorDraw (c : CursorScreen) : CursorScreen :=
  let c := c.cursorSave f
  { c with
    screen := f.paint c.screen (f.cursorStrokes c.x c.y)
    oldX := c.x
    oldY := c.y
    visible := true }

/-- Hiding the cursor would leave the scene on the screen. -/
def Clean (c : CursorScreen) (scene : Screen) : Prop := (c.cursorRestore f).screen = scene

variable {f}

theorem mem_backupStrokes {x y : Int} {backup : Nat → Nat → Nat} {p : Stroke} :
    p ∈ backupStrokes x y backup ↔ ∃ dx, dx < cursorW ∧ ∃ dy, dy < cursorH ∧
      p = ⟨word (x + dx), word (y + dy), backup dx dy⟩ := by
  simp only [backupStrokes, List.mem_flatMap, List.mem_map, List.mem_range]
  constructor
  · rintro ⟨dy, hdy, dx, hdx, rfl⟩
    exact ⟨dx, hdx, dy, hdy, rfl⟩
  · rintro ⟨dx, hdx, dy, hdy, rfl⟩
    exact ⟨dy, hdy, dx, hdx, rfl⟩

/-- Restoring touches only the pixels under the cursor. -/
theorem paint_backup_other {x y : Int} (backup : Nat → Nat → Nat) {s : Screen} {px py : Nat}
    (h : ¬ UnderCursor x y px py) : f.paint s (backupStrokes x y backup) px py = s px py := by
  refine Framebuffer.paint_other fun _ p hp hpos => h ?_
  obtain ⟨dx, hdx, dy, hdy, rfl⟩ := mem_backupStrokes.mp hp
  exact ⟨dx, hdx, dy, hdy, hpos⟩

/-- Restoring the pixels of a screen gives the pixels under the cursor their values back. -/
theorem paint_backup_same {x y : Int} {s scene : Screen} (hscene : f.Stored scene) {px py : Nat}
    (hv : f.Visible px py) (h : UnderCursor x y px py) :
    f.paint s (backupStrokes x y fun dx dy => f.getPixel scene (word (x + dx)) (word (y + dy)))
      px py = scene px py := by
  have hget : f.getPixel scene px py = scene px py :=
    if_neg (show ¬ (f.width ≤ px ∨ f.height ≤ py) by unfold Framebuffer.Visible at hv; omega)
  obtain ⟨dx, hdx, dy, hdy, hpx, hpy⟩ := h
  refine (Framebuffer.paint_uniform hv
    ⟨_, mem_backupStrokes.mpr ⟨dx, hdx, dy, hdy, rfl⟩, hpx, hpy⟩ fun p hp hpx' hpy' => ?_).trans
    (Nat.mod_eq_of_lt (hscene px py hv))
  obtain ⟨ex, hex, ey, hey, rfl⟩ := mem_backupStrokes.mp hp
  dsimp only at hpx' hpy' ⊢
  rw [hpx', hpy', hget]

/-- The cursor is drawn on the pixels under it. -/
theorem cursorStrokes_under {x y : Int} {p : Stroke} (hp : p ∈ f.cursorStrokes x y) :
    UnderCursor x y p.x p.y := by
  rcases List.mem_append.mp hp with hp | hp
  · obtain ⟨i, j, hi, hj, hpx, hpy⟩ := Framebuffer.mem_fillRect hp
    rw [cursorW] at hi
    rw [cursorH] at hj
    exact ⟨i, by rw [cursorW]; omega, j, by rw [cursorH]; omega, hpx.symm, hpy.symm⟩
  · obtain ⟨i, j, hi, hj, hpx, hpy⟩ := Framebuffer.mem_drawRect (by decide) (by decide) hp
    rw [cursorW] at hi
    rw [cursorH] at hj
    exact ⟨i, by rw [cursorW]; omega, j, by rw [cursorH]; omega, hpx.symm, hpy.symm⟩

/-- Hiding leaves the scene on the screen. -/
theorem clean_restore {c : CursorScreen} {scene : Screen} (h : Clean f c scene) :
    Clean f (c.cursorRestore f) scene ∧ (c.cursorRestore f).visible = false ∧
      (c.cursorRestore f).screen = scene := by
  have hhidden : (c.cursorRestore f).visible = false := by
    unfold cursorRestore
    by_cases hv : c.visible = true
    · rw [if_pos hv]
    · rw [if_neg hv]
      simpa using hv
  refine ⟨?_, hhidden, h⟩
  rw [Clean, cursorRestore, hhidden]
  exact h

/-- Showing a hidden cursor keeps the scene. -/
theorem clean_draw {c : CursorScreen} {scene : Screen} (hscene : f.Stored scene)
    (hscreen : c.screen = scene) : Clean f (c.cursorDraw f) scene := by
  subst hscreen
  have hdrawn : ((c.cursorDraw f).cursorRestore f).screen =
      f.paint (f.paint c.screen (f.cursorStrokes c.x c.y)) (backupStrokes c.x c.y fun dx dy =>
        f.getPixel c.screen (word (c.x + dx)) (word (c.y + dy))) := by
    have hvisible : (c.cursorDraw f).visible = true := rfl
    rw [cursorRestore, if_pos hvisible]
    dsimp only [cursorDraw, cursorSave]
  rw [Clean, hdrawn]
  funext px py
  by_cases hv : f.Visible px py
  · by_cases hu : UnderCursor c.x c.y px py
    · exact paint_backup_same hscene hv hu
    · rw [paint_backup_other _ hu]
      exact Framebuffer.paint_other fun _ p hp hpos => hu (hpos.1 ▸ hpos.2 ▸ cursorStrokes_under hp)
  · rw [Framebuffer.paint_other fun hno => absurd hno hv,
      Framebuffer.paint_other fun hno => absurd hno hv]

/-- Drawing under a visible cursor keeps track of the scene exactly if it leaves the scene's pixels
under the cursor unchanged. -/
theorem clean_paint_iff {c : CursorScreen} {scene : Screen} (hvisible : c.visible = true)
    (h : Clean f c scene) (ps : List Stroke) :
    Clean f { c with screen := f.paint c.screen ps } (f.paint scene ps) ↔
      ∀ px py, UnderCursor c.oldX c.oldY px py → f.paint scene ps px py = scene px py := by
  have hback : ∀ screen, ({ c with screen := screen }.cursorRestore f).screen =
      f.paint screen (backupStrokes c.oldX c.oldY c.backup) := by
    intro screen
    rw [cursorRestore, if_pos (show c.visible = true from hvisible)]
  have hold : f.paint c.screen (backupStrokes c.oldX c.oldY c.backup) = scene :=
    (hback c.screen).symm.trans h
  -- a pixel under the cursor gets its old value back, the others were painted alike
  have hunder : ∀ px py, UnderCursor c.oldX c.oldY px py →
      f.paint (f.paint c.screen ps) (backupStrokes c.oldX c.oldY c.backup) px py =
        if f.Visible px py then scene px py else f.paint scene ps px py := by
    intro px py hu
    by_cases hv : f.Visible px py
    · obtain ⟨dx, hdx, dy, hdy, hpos⟩ := hu
      rw [if_pos hv, ← hold]
      exact Framebuffer.paint_hit hv
        ⟨_, mem_backupStrokes.mpr ⟨dx, hdx, dy, hdy, rfl⟩, hpos⟩
    · rw [if_neg hv, ← hold]
      simp only [Framebuffer.paint_other fun hno => absurd hno hv]
  have hother : ∀ px py, ¬ UnderCursor c.oldX c.oldY px py →
      f.paint (f.paint c.screen ps) (backupStrokes c.oldX c.oldY c.backup) px py =
        f.paint scene ps px py := by
    intro px py hu
    rw [paint_backup_other _ hu]
    refine Framebuffer.paint_congr ?_ ps
    rw [← hold, paint_backup_other _ hu]
  rw [Clean, hback]
  constructor
  · intro hclean px py hu
    have heq := hunder px py hu
    rw [hclean] at heq
    by_cases hv : f.Visible px py
    · rwa [if_pos hv] at heq
    · exact Framebuffer.paint_other fun hno => absurd hno hv
  · intro hsame
    funext px py
    by_cases hu : UnderCursor c.oldX c.oldY px py
    · rw [hunder px py hu]
      split
      · exact (hsame px py hu).symm
      · rfl
    · exact hother px py hu

end CursorScreen

end Kumo
