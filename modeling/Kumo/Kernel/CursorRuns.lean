import Kumo.Kernel.ClickDrawing

/-!
# The cursor over whole runs

What a session draws is executed twice: on a screen with a cursor, and on one without,
the scene. Hiding the cursor uncovers the scene after every event exactly if the
calculator never draws, under the visible cursor, a pixel that the scene does not have
there already.
-/

namespace Kumo

namespace CursorScreen

variable (f : Framebuffer)

/-- One operation on a screen with a cursor. -/
def exec (c : CursorScreen) : DrawOp → CursorScreen
  | .strokes ps => { c with screen := f.paint c.screen ps }
  | .hide => c.cursorRestore f
  | .moveTo x y => { c with x := x, y := y }
  | .show => c.cursorDraw f

/-- One operation on a screen without one. -/
def execScene (scene : Screen) : DrawOp → Screen
  | .strokes ps => f.paint scene ps
  | _ => scene

/-- The cursor `mouse_init` sets up at the centre of the screen, not yet drawn. -/
def centred (s : Screen) : CursorScreen where
  screen := s
  x := (Mouse.init f).cursorX
  y := (Mouse.init f).cursorY
  oldX := (Mouse.init f).cursorX
  oldY := (Mouse.init f).cursorY
  visible := false
  backup := fun _ _ => 0

/-- The screen `mouse_init` leaves. -/
def init (s : Screen) : CursorScreen := (centred f s).cursorDraw f

/-- The cursor is shown at the position the driver has for it. -/
structure ShownAt (c : CursorScreen) (x y : Int) : Prop where
  visible : c.visible = true
  pos : c.x = x ∧ c.y = y
  old : c.oldX = x ∧ c.oldY = y

variable {f}

theorem shownAt_draw (c : CursorScreen) : (c.cursorDraw f).ShownAt c.x c.y :=
  ⟨rfl, ⟨rfl, rfl⟩, rfl, rfl⟩

theorem restore_pos (c : CursorScreen) :
    (c.cursorRestore f).x = c.x ∧ (c.cursorRestore f).y = c.y := by
  unfold cursorRestore
  split <;> exact ⟨rfl, rfl⟩

/-- Drawing with the cursor hidden keeps track of the scene. -/
theorem clean_bracket {c : CursorScreen} {scene : Screen} {x y : Int} (hscene : f.Stored scene)
    (hshown : c.ShownAt x y) (hclean : Clean f c scene) {ops : List DrawOp}
    (hops : Desktop.Bracketed ops) :
    (ops.foldl (exec f) c).ShownAt x y ∧ f.Stored (ops.foldl (execScene f) scene) ∧
      Clean f (ops.foldl (exec f) c) (ops.foldl (execScene f) scene) := by
  rcases hops with rfl | ⟨ps, rfl⟩
  · exact ⟨hshown, hscene, hclean⟩
  · obtain ⟨_, _, hscreen⟩ := clean_restore hclean
    obtain ⟨hx, hy⟩ := c.restore_pos (f := f)
    have hstored := Framebuffer.stored_paint hscene ps
    refine ⟨?_, hstored, ?_⟩
    · have hdraw := shownAt_draw (f := f)
        { c.cursorRestore f with screen := f.paint (c.cursorRestore f).screen ps }
      rw [show (c.cursorRestore f).x = x from hx.trans hshown.pos.1,
        show (c.cursorRestore f).y = y from hy.trans hshown.pos.2] at hdraw
      exact hdraw
    · exact clean_draw hstored (congrArg (f.paint · ps) hscreen)

/-- Every operation writes values of `bpp` bits. -/
theorem stored_exec {c : CursorScreen} (h : f.Stored c.screen) (ops : List DrawOp) :
    f.Stored (ops.foldl (exec f) c).screen := by
  induction ops generalizing c with
  | nil => exact h
  | cons op ops ih =>
      refine ih ?_
      cases op with
      | strokes ps => exact Framebuffer.stored_paint h ps
      | hide =>
          rw [exec, cursorRestore]
          split
          · dsimp only
            exact Framebuffer.stored_paint h _
          · exact h
      | moveTo x y => exact h
      | «show» =>
          simp only [exec, cursorDraw, cursorSave]
          exact Framebuffer.stored_paint h _

/-- Moving the cursor neither loses nor regains track of the scene. -/
theorem clean_move_iff {c : CursorScreen} (hstored : f.Stored c.screen) (scene : Screen)
    (x y : Int) :
    ([.hide, .moveTo x y, .show].foldl (exec f) c).ShownAt x y ∧
      (Clean f ([.hide, .moveTo x y, .show].foldl (exec f) c) scene ↔ Clean f c scene) := by
  refine ⟨shownAt_draw _, ?_⟩
  have huncovered : f.Stored (c.cursorRestore f).screen := stored_exec hstored [.hide]
  have hdrawn : Clean f ([.hide, .moveTo x y, .show].foldl (exec f) c) (c.cursorRestore f).screen :=
    clean_draw huncovered rfl
  unfold Clean at hdrawn ⊢
  rw [hdrawn]

/-- Drawing under the cursor does not move it. -/
theorem exec_strokes (pss : List (List Stroke)) (c : CursorScreen) :
    (pss.map DrawOp.strokes).foldl (exec f) c = { c with screen := f.paint c.screen pss.flatten } := by
  induction pss generalizing c with
  | nil => rfl
  | cons ps pss ih =>
      rw [List.map_cons, List.foldl_cons, ih, List.flatten_cons, Framebuffer.paint_append]
      rfl

theorem execScene_strokes (pss : List (List Stroke)) (scene : Screen) :
    (pss.map DrawOp.strokes).foldl (execScene f) scene = f.paint scene pss.flatten := by
  induction pss generalizing scene with
  | nil => rfl
  | cons ps pss ih =>
      rw [List.map_cons, List.foldl_cons, ih, List.flatten_cons, Framebuffer.paint_append]
      rfl

end CursorScreen

namespace Desktop

open CursorScreen

variable {f : Framebuffer}

/-- The screen of a session. -/
def onScreen (f : Framebuffer) (s0 : Screen) (d : Desktop) : CursorScreen :=
  d.drawn.foldl (exec f) (init f s0)

/-- What the screen of a session would be without a cursor. -/
def scene (f : Framebuffer) (s0 : Screen) (d : Desktop) : Screen := d.drawn.foldl (execScene f) s0

/-- Hiding the cursor leaves what would be on the screen without one. -/
def Transparent (f : Framebuffer) (s0 : Screen) (s : Session) : Prop :=
  ((s.2.onScreen f s0).cursorRestore f).screen = s.2.scene f s0

/-- A packet whose click, if there is one, draws nothing of the calculator that changes the scene
under the cursor. -/
def CursorSafe (f : Framebuffer) (s0 : Screen) (s : Session) (event : SessionEvent) : Prop :=
  match event with
  | .packet p => s.1.firstPacket = true ∨ p.buttons = s.1.lastButtons ∨
      ∀ px py, UnderCursor s.1.cursorX s.1.cursorY px py →
        f.paint (s.2.scene f s0) (s.2.clickStrokes f s.1.cursorX s.1.cursorY p.buttons) px py =
          s.2.scene f s0 px py
  | .flush => True

/-- The decoder is between two packets, the cursor is shown where the driver has it, and hiding it
uncovers the scene. -/
structure Session.Tidy (f : Framebuffer) (s0 : Screen) (s : Session) : Prop where
  cycle : s.1.cycle = 0
  shown : (s.2.onScreen f s0).ShownAt s.1.cursorX s.1.cursorY
  stored : f.Stored (s.2.scene f s0)
  transparent : Transparent f s0 s

theorem onScreen_append (s0 : Screen) {d d' : Desktop} {ops : List DrawOp}
    (h : d'.drawn = d.drawn ++ ops) :
    d'.onScreen f s0 = ops.foldl (exec f) (d.onScreen f s0) ∧
      d'.scene f s0 = ops.foldl (execScene f) (d.scene f s0) := by
  rw [onScreen, scene, h, List.foldl_append, List.foldl_append]
  exact ⟨rfl, rfl⟩

/-- The driver starts with the cursor shown over the initial scene. -/
theorem init_shown (f : Framebuffer) (s0 : Screen) :
    (init f s0).ShownAt (Mouse.init f).cursorX (Mouse.init f).cursorY := by
  have hx : (centred f s0).x = (Mouse.init f).cursorX := by
    dsimp only [centred]
  have hy : (centred f s0).y = (Mouse.init f).cursorY := by
    dsimp only [centred]
  rw [← hx, ← hy]
  exact shownAt_draw (centred f s0)

theorem init_clean {s0 : Screen} (h : f.Stored s0) : Clean f (init f s0) s0 :=
  clean_draw (c := centred f s0) h rfl

/-- The screen holds values of `bpp` bits. -/
theorem stored_onScreen {s0 : Screen} (h : f.Stored s0) (d : Desktop) :
    f.Stored (d.onScreen f s0).screen :=
  stored_exec (Framebuffer.stored_paint h _) d.drawn

/-- The movement of a packet shows the cursor where the driver has it, and neither loses nor regains
track of the scene. -/
theorem movePart_clean_iff {s0 : Screen} (hs0 : f.Stored s0) {m : Mouse} {d : Desktop} (p : Packet)
    (hshown : (d.onScreen f s0).ShownAt m.cursorX m.cursorY) :
    ((d.movePart f m p).onScreen f s0).ShownAt (cursorAfter f m p).1 (cursorAfter f m p).2 ∧
      (d.movePart f m p).scene f s0 = d.scene f s0 ∧
        (Clean f ((d.movePart f m p).onScreen f s0) ((d.movePart f m p).scene f s0) ↔
          Clean f (d.onScreen f s0) (d.scene f s0)) := by
  obtain ⟨ops, hdrawn, hops⟩ := movePart_draws (f := f) m d p
  obtain ⟨hon, hscene⟩ := onScreen_append (f := f) s0 hdrawn
  rcases hops with ⟨hzero, rfl⟩ | rfl
  · rw [hon, hscene, cursorAfter, if_pos hzero]
    exact ⟨hshown, rfl, Iff.rfl⟩
  · obtain ⟨hshown', hiff⟩ := clean_move_iff (stored_onScreen hs0 d) (d.scene f s0)
      (cursorAfter f m p).1 (cursorAfter f m p).2
    rw [hon, hscene]
    exact ⟨hshown', rfl, hiff⟩

/-- A click keeps the cursor shown, and track of the scene exactly if what it draws of the
calculator changes nothing of the scene under the cursor. -/
theorem click_clean_iff {s0 : Screen} {x y : Int} {d d' : Desktop} {buttons : Nat}
    (hshown : (d.onScreen f s0).ShownAt x y) (hstored : f.Stored (d.scene f s0))
    (hclean : Clean f (d.onScreen f s0) (d.scene f s0))
    (hclick : d.onMouseClick f x y buttons = some d') :
    (d'.onScreen f s0).ShownAt x y ∧ f.Stored (d'.scene f s0) ∧
      (Clean f (d'.onScreen f s0) (d'.scene f s0) ↔ ∀ px py, UnderCursor x y px py →
        f.paint (d.scene f s0) (d.clickStrokes f x y buttons) px py = d.scene f s0 px py) := by
  obtain ⟨ops, hdrawn, hops⟩ := onMouseClick_draws hclick
  obtain ⟨hon, hscene⟩ := onScreen_append (f := f) s0 hdrawn
  cases hops with
  | bracketed hnone hops =>
      obtain ⟨h1, h2, h3⟩ := clean_bracket hstored hshown hclean hops
      rw [hon, hscene]
      refine ⟨h1, h2, iff_of_true h3 fun px py _ => ?_⟩
      rw [hnone]
      rfl
  | bare pss hops hstrokes =>
      rw [hops, exec_strokes] at hon
      rw [hops, execScene_strokes] at hscene
      obtain ⟨hvisible, hpos, rfl, rfl⟩ := hshown
      rw [hon, hscene, hstrokes]
      exact ⟨⟨hvisible, hpos, rfl, rfl⟩, Framebuffer.stored_paint hstored _,
        clean_paint_iff hvisible hclean pss.flatten⟩

/-- What an event leaves, apart from the transparency of the cursor, which is lost exactly by an
event that is not safe. -/
theorem step_transparent_iff {s0 : Screen} (hs0 : f.Stored s0) {s : Session} (h : s.Tidy f s0)
    (event : SessionEvent) :
    (∀ s', Session.step f s event = some s' → Transparent f s0 s' → s'.Tidy f s0) ∧
      ((∀ s', Session.step f s event = some s' → Transparent f s0 s') ↔
        CursorSafe f s0 s event) := by
  obtain ⟨m, d⟩ := s
  cases event with
  | flush =>
      obtain ⟨ops, hdrawn, hops⟩ := wmFlushDirty_draws (f := f) d
      obtain ⟨hon, hscene⟩ := onScreen_append (f := f) s0 hdrawn
      obtain ⟨h1, h2, h3⟩ := clean_bracket h.stored h.shown h.transparent hops
      rw [← hon] at h1 h3
      rw [← hscene] at h2 h3
      refine ⟨fun s' hstep htrans => ?_, iff_of_true (fun s' hstep => ?_) trivial⟩
      · obtain rfl := Option.some.inj hstep
        exact ⟨h.cycle, h1, h2, htrans⟩
      · obtain rfl := Option.some.inj hstep
        exact h3
  | packet p =>
      by_cases hfirst : m.firstPacket = true
      · obtain ⟨m', heq, hcycle, _, hcursor, _⟩ := step_discard (f := f) d p h.cycle hfirst
        obtain ⟨hx, hy⟩ := Prod.mk.inj hcursor
        refine ⟨fun s' hstep htrans => ?_, iff_of_true (fun s' hstep => ?_) (.inl hfirst)⟩
        · obtain rfl := Option.some.inj (heq.symm.trans hstep)
          exact ⟨hcycle, by rw [hx, hy]; exact h.shown, h.stored, htrans⟩
        · obtain rfl := Option.some.inj (heq.symm.trans hstep)
          exact h.transparent
      obtain ⟨m', heq, hcycle, _, _, hcursor⟩ := step_process (f := f) d p h.cycle
        (Bool.eq_false_iff.mpr hfirst)
      -- the click, then the movement
      have hmoved : ∀ clicked : Desktop, (clicked.onScreen f s0).ShownAt m.cursorX m.cursorY →
          f.Stored (clicked.scene f s0) →
            (Transparent f s0 (m', clicked.movePart f m p) →
              Session.Tidy f s0 (m', clicked.movePart f m p)) ∧
            (Transparent f s0 (m', clicked.movePart f m p) ↔
              Clean f (clicked.onScreen f s0) (clicked.scene f s0)) := by
        intro clicked hshown hstored
        obtain ⟨h1, h2, h3⟩ := movePart_clean_iff hs0 p hshown
        rw [← hcursor] at h1
        exact ⟨fun htrans => ⟨hcycle, h1, by rw [h2]; exact hstored, htrans⟩, h3⟩
      by_cases hsame : p.buttons = m.lastButtons
      · obtain ⟨htidy, hiff⟩ := hmoved d h.shown h.stored
        rw [clickPart, if_pos hsame] at heq
        refine ⟨fun s' hstep htrans => ?_, iff_of_true (fun s' hstep => ?_) (.inr (.inl hsame))⟩
        · obtain rfl := Option.some.inj (heq.symm.trans hstep)
          exact htidy htrans
        · obtain rfl := Option.some.inj (heq.symm.trans hstep)
          exact hiff.mpr h.transparent
      have hevent : CursorSafe f s0 (m, d) (.packet p) ↔
          ∀ px py, UnderCursor m.cursorX m.cursorY px py →
            f.paint (d.scene f s0) (d.clickStrokes f m.cursorX m.cursorY p.buttons) px py =
              d.scene f s0 px py :=
        ⟨fun hor => (hor.resolve_left hfirst).resolve_left hsame, fun hsafe => .inr (.inr hsafe)⟩
      rw [hevent]
      rw [clickPart, if_neg hsame] at heq
      cases hclick : d.onMouseClick f m.cursorX m.cursorY p.buttons with
      | none =>
          rw [hclick] at heq
          rw [clickStrokes_none hclick]
          refine ⟨fun s' hstep => ?_, iff_of_true (fun s' hstep => ?_) fun _ _ _ => rfl⟩
          all_goals
            have hnone := heq.symm.trans hstep
            cases hnone
      | some clicked =>
          rw [hclick, Option.map_some] at heq
          obtain ⟨h1, h2, h3⟩ := click_clean_iff h.shown h.stored h.transparent hclick
          obtain ⟨htidy, hiff⟩ := hmoved clicked h1 h2
          rw [← h3, ← hiff]
          refine ⟨fun s' hstep htrans => ?_, fun hall => hall _ heq, fun htrans s' hstep => ?_⟩
          · obtain rfl := Option.some.inj (heq.symm.trans hstep)
            exact htidy htrans
          · obtain rfl := Option.some.inj (heq.symm.trans hstep)
            exact htrans

/-- The session at the start is tidy. -/
theorem start_tidy {s0 : Screen} (hs0 : f.Stored s0) (win : Nat → Window) (calcWin : Nat)
    (ps : List Nat) : Session.Tidy f s0 (Mouse.init f, Desktop.start win calcWin ps) :=
  ⟨rfl, init_shown f s0, hs0, init_clean hs0⟩

/-- In a run of packets and flushes hiding the cursor uncovers, after every event, what would be on
the screen without a cursor, if and only if every click of it is safe. -/
theorem cursor_transparent_iff (f : Framebuffer) (s0 : Screen) (hs0 : f.Stored s0)
    (win : Nat → Window) (calcWin : Nat) (ps : List Nat) (events : List SessionEvent) :
    Transition.Along (Session.step f) (fun _ _ s' => Transparent f s0 s')
        (Mouse.init f, Desktop.start win calcWin ps) events ↔
      Transition.Meets (Session.step f) (CursorSafe f s0)
        (Mouse.init f, Desktop.start win calcWin ps) events :=
  Transition.along_iff_meets
    (fun _ event next htidy hnext htrans =>
      (step_transparent_iff hs0 htidy event).1 next hnext htrans)
    (fun _ event htidy => (step_transparent_iff hs0 htidy event).2) events
    (start_tidy hs0 win calcWin ps)

/-- The calculator with its key 7 at the centre of a screen of 1024 by 768. -/
def keyWindows (_ : Nat) : Window where
  x := 480
  y := 300
  w := 240
  h := 280
  title := []
  titleBarColor := 0
  bodyColor := 0
  onRedraw := true

/-- A packet that is discarded, and a press of the left button. -/
def keyPress : List SessionEvent :=
  [.packet (.still 0), .packet (.still 1)]

theorem stored_black (f : Framebuffer) : f.Stored fun _ _ => 0 :=
  fun _ _ _ => Nat.two_pow_pos _

/-- A press of a key, over a black screen. -/
theorem cursor_transparent_iff_sample :
    sampleScreen.Stored (fun _ _ => 0) ∧
      (Transition.Along (Session.step sampleScreen)
          (fun _ _ s' => Transparent sampleScreen (fun _ _ => 0) s')
          (Mouse.init sampleScreen, Desktop.start keyWindows 1 [1]) keyPress ↔
        Transition.Meets (Session.step sampleScreen) (CursorSafe sampleScreen fun _ _ => 0)
          (Mouse.init sampleScreen, Desktop.start keyWindows 1 [1]) keyPress) :=
  ⟨stored_black _, cursor_transparent_iff sampleScreen _ (stored_black _) keyWindows 1 [1] keyPress⟩

/-- A press of a key under the cursor leaves stale pixels when the cursor is hidden. -/
theorem key_press_stale : ¬ ∀ (f : Framebuffer) (s0 : Screen) (win : Nat → Window) (calcWin : Nat)
    (ps : List Nat) (events : List SessionEvent), f.Stored s0 →
      Transition.Along (Session.step f) (fun _ _ s' => Transparent f s0 s')
        (Mouse.init f, Desktop.start win calcWin ps) events := by
  intro hclaim
  have halong := hclaim sampleScreen (fun _ _ => 0) keyWindows 1 [1] keyPress (stored_black _)
  obtain ⟨m, hdiscard, _, hbuttons, hcursor, hfirst⟩ := step_discard (f := sampleScreen)
    (m := Mouse.init sampleScreen) (Desktop.start keyWindows 1 [1])
    ⟨0, 0, 0, by decide, by decide, by decide⟩ rfl rfl
  obtain ⟨htrans, hrest⟩ := halong _ hdiscard
  have htidy := (step_transparent_iff (stored_black _)
    (start_tidy (stored_black _) keyWindows 1 [1]) _).1 _ hdiscard htrans
  have hsafe := (step_transparent_iff (stored_black _) htidy _).2.mp
    fun s' hstep => (hrest s' hstep).1
  obtain ⟨hx, hy⟩ := Prod.mk.inj hcursor
  rcases hsafe with hdone | hsame | hpixels
  · rw [hfirst] at hdone
    cases hdone
  · rw [hbuttons] at hsame
    exact absurd hsame (by decide)
  · have hcx : (Mouse.init sampleScreen).cursorX = 512 := by decide
    have hcy : (Mouse.init sampleScreen).cursorY = 384 := by decide
    have hscene : (Desktop.start keyWindows 1 [1]).scene sampleScreen (fun _ _ => 0) =
        fun _ _ => 0 := rfl
    have hpixel := hpixels 512 384
    dsimp only at hpixel
    rw [hx, hy, hcx, hcy, hscene] at hpixel
    have hblue : sampleScreen.paint (fun _ _ => 0)
        ((Desktop.start keyWindows 1 [1]).clickStrokes sampleScreen 512 384 1) 512 384 ≠ 0 := by
      decide +kernel
    exact hblue (hpixel ⟨0, by decide, 0, by decide, by decide, by decide⟩)

end Desktop

end Kumo
