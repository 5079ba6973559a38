import Kumo.Kernel.Typing

/-!
# Calculations on the screen

A calculator that draws under the visible cursor leaves stale pixels there, but never on its
display: a cursor whose tip is on a key does not reach it. So whatever is typed with the mouse, the
number on the display can be read off the screen.
-/

namespace Kumo

namespace Desktop

variable {f : Framebuffer}

/-! ## The screen -/

open CursorScreen

/-- Hiding a visible cursor gives the pixels under it the values that were kept. -/
theorem restore_screen {c : CursorScreen} (hvisible : c.visible = true) (screen : Screen) :
    ({ c with screen := screen }.cursorRestore f).screen =
      f.paint screen (backupStrokes c.oldX c.oldY c.backup) := by
  rw [CursorScreen.cursorRestore, if_pos (show c.visible = true from hvisible)]

/-- Drawing under a visible cursor does not change what is kept of the pixels under it. -/
theorem restore_paint_under {c : CursorScreen} (hvisible : c.visible = true) (ps : List Stroke)
    {px py : Nat} (hunder : UnderCursor c.oldX c.oldY px py) (hv : f.Visible px py) :
    ({ c with screen := f.paint c.screen ps }.cursorRestore f).screen px py =
      (c.cursorRestore f).screen px py := by
  obtain ⟨dx, hdx, dy, hdy, hpos⟩ := hunder
  have hhit : ∃ p ∈ backupStrokes c.oldX c.oldY c.backup, p.x = px ∧ p.y = py :=
    ⟨_, mem_backupStrokes.mpr ⟨dx, hdx, dy, hdy, rfl⟩, hpos⟩
  have hkept := restore_screen (f := f) hvisible c.screen
  rw [restore_screen hvisible, hkept]
  exact Framebuffer.paint_hit hv hhit

/-- Elsewhere it changes the pixels as usual. -/
theorem restore_paint_other {c : CursorScreen} (hvisible : c.visible = true) (ps : List Stroke)
    {px py : Nat} (hother : ¬ UnderCursor c.oldX c.oldY px py) :
    ({ c with screen := f.paint c.screen ps }.cursorRestore f).screen px py =
      f.paint (c.cursorRestore f).screen ps px py := by
  have hkept := restore_screen (f := f) hvisible c.screen
  rw [restore_screen hvisible, hkept, paint_backup_other _ hother]
  exact Framebuffer.paint_congr (paint_backup_other _ hother).symm ps

/-- The screen when the cursor is hidden. -/
def uncovered (f : Framebuffer) (s0 : Screen) (d : Desktop) : Screen :=
  ((d.onScreen f s0).cursorRestore f).screen

/-- The display shows the number that the calculator has for it. -/
def Reads (f : Framebuffer) (s0 : Screen) (win : Window) (d : Desktop) : Prop :=
  f.readDisplay win (d.uncovered f s0) =
    (Framebuffer.padLeft (Calc.itoa d.calculator.displayed)).map some

/-- A pixel of the display is on the screen. -/
theorem visible_onDisplay {win : Window} (hshown : f.DisplayShown win) {px py : Nat}
    (hon : Framebuffer.OnDisplay win px py) : f.Visible px py := by
  obtain ⟨⟨-, hcolumn⟩, -, hrow⟩ := hon
  have hcolumns := hshown.columns.2
  have hrows := hshown.rows.2
  exact ⟨by omega, by omega⟩

/-- What a click leaves on the display. -/
theorem KeyClicked.reads {win : Window} {d d' : Desktop} {x y : Int}
    {typed : Option Nat × List CalcKey} (h : KeyClicked f win d x y typed d')
    (hshown : f.DisplayShown win) {s0 : Screen} (hcursor : (d.onScreen f s0).ShownAt x y) :
    (d'.onScreen f s0).ShownAt x y ∧
      (d.Reads f s0 win ∨ typed.2 ≠ [] → d'.Reads f s0 win) := by
  obtain ⟨pss, hdrawn, hdraws⟩ := h.draws
  have hon := (onScreen_append (f := f) s0 hdrawn).1
  rw [CursorScreen.exec_strokes] at hon
  obtain ⟨hvisible, hpos, rfl, rfl⟩ := hcursor
  refine ⟨by rw [hon]; exact ⟨hvisible, hpos, rfl, rfl⟩, fun hreads => ?_⟩
  unfold Reads uncovered
  rw [hon]
  cases hdraws with
  | off hkeys hoff =>
      have hbefore := hreads.resolve_right (not_not_intro hkeys)
      have hsame : d'.calculator.displayed = d.calculator.displayed := by
        have hpress := h.calculator
        rw [hkeys] at hpress
        have hcalc : { d'.calculator with pressed := d.calculator.pressed } = d.calculator :=
          (Option.some.inj hpress).symm
        rw [← hcalc]
        rfl
      rw [hsame, ← show d.Reads f s0 win from hbefore]
      refine hshown.readDisplay_congr fun px py hpx => ?_
      by_cases hunder : UnderCursor (d.onScreen f s0).oldX (d.onScreen f s0).oldY px py
      · exact restore_paint_under hvisible _ hunder (visible_onDisplay hshown hpx)
      · rw [restore_paint_other hvisible _ hunder]
        exact Framebuffer.paint_other fun _ p hp hpos' => hoff p hp (by rwa [hpos'.1, hpos'.2])
  | refresh rest hps hoff hcursor =>
      rw [← hshown.readDisplay_refresh h.ready.calculator.displayed (d.uncovered f s0)]
      refine hshown.readDisplay_congr fun px py hpx => ?_
      rw [restore_paint_other hvisible _ fun hunder => hcursor px py hunder hpx, hps,
        Framebuffer.paint_append]
      exact Framebuffer.paint_other fun _ p hp hpos' => hoff p hp (by rwa [hpos'.1, hpos'.2])

/-- A movement with no window dragged only draws. -/
theorem movePart_still {d : Desktop} (hdrag : d.drag = 0) (m : Mouse) (p : Packet) :
    ∃ ops, d.movePart f m p = d.draw ops := by
  unfold movePart
  by_cases hmove : p.decoded = (0, 0)
  · rw [if_pos hmove]
    exact ⟨[], by simp [draw]⟩
  · rw [if_neg hmove, onMouseMove, if_pos (by exact hdrag)]
    exact ⟨[.hide, .moveTo (cursorAfter f m p).1 (cursorAfter f m p).2, .show], by simp [draw]⟩

/-- It moves the cursor and nothing under it. -/
theorem movePart_uncovered {s0 : Screen} (hs0 : f.Stored s0) {m : Mouse} {d : Desktop}
    (p : Packet) (hshown : (d.onScreen f s0).ShownAt m.cursorX m.cursorY) :
    ((d.movePart f m p).onScreen f s0).ShownAt (cursorAfter f m p).1 (cursorAfter f m p).2 ∧
      (d.movePart f m p).uncovered f s0 = d.uncovered f s0 := by
  refine ⟨(movePart_clean_iff hs0 p hshown).1, ?_⟩
  obtain ⟨ops, hdrawn, hops⟩ := movePart_draws (f := f) m d p
  have hon := (onScreen_append (f := f) s0 hdrawn).1
  unfold uncovered
  rw [hon]
  rcases hops with ⟨-, rfl⟩ | rfl
  · rfl
  · exact (CursorScreen.clean_move_iff (stored_onScreen hs0 d) _ _ _).2.mpr rfl

/-! ## Runs -/

/-- The session while keys are typed: the decoder is between two packets, the desktop is ready and
the cursor is shown where the driver has it. -/
structure Session.Typing (f : Framebuffer) (s0 : Screen) (win : Window) (s : Session) : Prop where
  cycle : s.1.cycle = 0
  ready : s.2.Ready win
  cursor : (s.2.onScreen f s0).ShownAt s.1.cursorX s.1.cursorY

variable {s0 : Screen} {win : Window}

/-- The click of a packet does what the hand says. -/
theorem Session.Typing.clickPart {m : Mouse} {d : Desktop} (h : Session.Typing f s0 win (m, d))
    (hshown : f.DisplayShown win) {p : Packet}
    (hkeys : p.buttons = m.lastButtons ∨ d.KeyClick f m.cursorX m.cursorY p.buttons) :
    (d.clickPart f m p = none →
        d.calculator.press ((Session.hand (m, d)).clicked f win p).2 = none) ∧
      ∀ d', d.clickPart f m p = some d' →
        KeyClicked f win d m.cursorX m.cursorY ((Session.hand (m, d)).clicked f win p) d' := by
  unfold Desktop.clickPart Hand.clicked
  by_cases hsame : p.buttons = m.lastButtons
  · rw [if_pos hsame, if_pos (by exact hsame)]
    refine ⟨fun hnone => absurd hnone (Option.some_ne_none _), fun d' hd' => ?_⟩
    obtain rfl := Option.some.inj hd'
    exact ⟨h.ready, rfl, rfl, [], (List.append_nil _).symm,
      .off rfl fun p hp => absurd hp List.not_mem_nil⟩
  · rw [if_neg hsame, if_neg (by exact hsame)]
    exact h.ready.click hshown (Session.hand (m, d)) rfl (hkeys.resolve_left hsame)

/-- One event types what the hand says. -/
theorem Session.Typing.step (hs0 : f.Stored s0) (hshown : f.DisplayShown win) {s : Session}
    (h : s.Typing f s0 win) {event : SessionEvent} (hkeys : KeysOnly f s event) :
    (Session.step f s event = none →
        s.2.calculator.press (s.hand.step f win event).2 = none) ∧
      ∀ s', Session.step f s event = some s' → s'.Typing f s0 win ∧
        s'.hand = (s.hand.step f win event).1 ∧
        s.2.calculator.press (s.hand.step f win event).2 =
          some { s'.2.calculator with pressed := s.2.calculator.pressed } ∧
        (s.2.Reads f s0 win ∨ (s.hand.step f win event).2 ≠ [] → s'.2.Reads f s0 win) := by
  obtain ⟨m, d⟩ := s
  cases event with
  | flush =>
      have hflush : d.wmFlushDirty f = d := by
        unfold wmFlushDirty snapshot
        rw [if_neg (by rw [h.ready.still]; decide)]
      have hstep : Session.step f (m, d) .flush = some (m, d) := by rw [Session.step, hflush]
      rw [hstep]
      refine ⟨fun hnone => absurd hnone (Option.some_ne_none _), fun s' hs' => ?_⟩
      obtain rfl := Option.some.inj hs'
      exact ⟨h, rfl, rfl, fun hreads => hreads.resolve_right (not_not_intro rfl)⟩
  | packet p =>
      by_cases hfirst : m.firstPacket = true
      · obtain ⟨m', heq, hcycle, hbuttons, hcursor, hdone⟩ :=
          step_discard (f := f) d p h.cycle hfirst
        obtain ⟨hx, hy⟩ := Prod.mk.inj hcursor
        have hhand : (Session.hand (m, d)).step f win (.packet p) =
            ({ Session.hand (m, d) with discard := false }, []) := if_pos hfirst
        rw [heq, hhand]
        refine ⟨fun hnone => absurd hnone (Option.some_ne_none _), fun s' hs' => ?_⟩
        obtain rfl := Option.some.inj hs'
        refine ⟨⟨hcycle, h.ready, by rw [hx, hy]; exact h.cursor⟩, ?_, rfl,
          fun hreads => hreads.resolve_right (not_not_intro rfl)⟩
        simp only [Session.hand, hx, hy, hbuttons, hdone]
      · obtain ⟨m', heq, hcycle, hdone, hbuttons, hcursor⟩ := step_process (f := f) d p h.cycle
          (Bool.eq_false_iff.mpr hfirst)
        obtain ⟨hnone, hsome⟩ := h.clickPart hshown (hkeys.resolve_left hfirst)
        have hmoved : ∀ clicked, KeyClicked f win d m.cursorX m.cursorY
            ((Session.hand (m, d)).clicked f win p) clicked →
              Session.Typing f s0 win (m', clicked.movePart f m p) ∧
                Session.hand (m', clicked.movePart f m p) =
                  ((Session.hand (m, d)).step f win (.packet p)).1 ∧
                (clicked.movePart f m p).calculator = clicked.calculator ∧
                (clicked.Reads f s0 win → (clicked.movePart f m p).Reads f s0 win) := by
          intro clicked hclicked
          have hx : m'.cursorX = (cursorAfter f m p).1 := congrArg Prod.fst hcursor
          have hy : m'.cursorY = (cursorAfter f m p).2 := congrArg Prod.snd hcursor
          obtain ⟨ops, hops⟩ := movePart_still (f := f) hclicked.ready.drag m p
          obtain ⟨hat, hkept⟩ :=
            movePart_uncovered hs0 p (hclicked.reads hshown h.cursor).1
          have hready : (clicked.movePart f m p).Ready win := by
            rw [hops]
            exact hclicked.ready.keep rfl rfl rfl rfl hclicked.ready.calculator
          have hcalc : (clicked.movePart f m p).calculator = clicked.calculator := by
            rw [hops]
            rfl
          refine ⟨⟨hcycle, hready, ?_⟩, ?_, hcalc, fun hreads => ?_⟩
          · rw [hx, hy]
            exact hat
          · rw [Hand.step, if_neg (by exact hfirst), Session.hand, hcalc, hclicked.pressed]
            dsimp only
            rw [hx, hy, hbuttons, hdone, cursorAfter]
            by_cases hmove : p.decoded = (0, 0)
            · rw [if_pos hmove, if_pos hmove, if_pos hmove]
              rfl
            · rw [if_neg hmove, if_neg hmove, if_neg hmove]
              rfl
          · unfold Reads
            rw [hkept, hcalc]
            exact hreads
        have hkey : ((Session.hand (m, d)).step f win (.packet p)).2 =
            ((Session.hand (m, d)).clicked f win p).2 := by
          rw [Hand.step, if_neg (by exact hfirst)]
        rw [heq, hkey]
        refine ⟨fun hfault => hnone (Option.map_eq_none_iff.mp hfault), fun s' hs' => ?_⟩
        obtain ⟨clicked, hclicked, rfl⟩ := Option.map_eq_some_iff.mp hs'
        have hafter := hsome clicked hclicked
        obtain ⟨htyping, hhand, hcalc, hreads⟩ := hmoved clicked hafter
        refine ⟨htyping, hhand, ?_, fun hbefore =>
          hreads ((hafter.reads hshown h.cursor).2 hbefore)⟩
        dsimp only
        rw [hcalc]
        exact hafter.calculator

/-- A run types what the hand says. -/
theorem Session.Typing.run (hs0 : f.Stored s0) (hshown : f.DisplayShown win) {s : Session}
    (h : s.Typing f s0 win) {events : List SessionEvent}
    (hkeys : Transition.Meets (Session.step f) (KeysOnly f) s events) :
    (Transition.run (Session.step f) s events = none →
        s.2.calculator.press (s.hand.typed f win events) = none) ∧
      ∀ s', Transition.run (Session.step f) s events = some s' →
        s.2.calculator.press (s.hand.typed f win events) =
            some { s'.2.calculator with pressed := s.2.calculator.pressed } ∧
          (s.2.Reads f s0 win ∨ s.hand.typed f win events ≠ [] → s'.2.Reads f s0 win) := by
  induction events generalizing s with
  | nil =>
      refine ⟨fun hnone => absurd hnone (Option.some_ne_none _), fun s' hs' => ?_⟩
      obtain rfl := Option.some.inj hs'
      exact ⟨rfl, fun hreads => hreads.resolve_right (not_not_intro rfl)⟩
  | cons event events ih =>
      obtain ⟨hnone, hsome⟩ := h.step hs0 hshown hkeys.1
      rw [Hand.typed, Calc.press_append, Transition.run]
      cases hstep : Session.step f s event with
      | none =>
          rw [hnone hstep]
          exact ⟨fun _ => rfl, fun s' hs' => by cases hs'⟩
      | some next =>
          obtain ⟨htyping, hhand, hpress, hreads⟩ := hsome next hstep
          obtain ⟨hfault, hrest⟩ := ih htyping (hkeys.2 next hstep)
          rw [← hhand, hpress, Option.bind_some, Option.bind_some, Calc.press_pressed]
          refine ⟨fun hrun => by rw [hfault hrun]; rfl, fun s' hrun => ?_⟩
          obtain ⟨hcalc, hshows⟩ := hrest s' hrun
          rw [hcalc]
          refine ⟨rfl, fun hbefore => hshows ?_⟩
          by_cases hempty : next.hand.typed f win events = []
          · refine .inl (hreads (hbefore.imp_right fun hne hkey => hne ?_))
            rw [hkey, hempty]
            rfl
          · exact .inr hempty

/-- The mouse types on the calculator. As long as the clicks of some packets raise, close and drag
no window, the kernel halts just if the keys they type raise a divide error; otherwise the
calculator is in the state that these keys give, and once a key is typed its display, read off the
screen with the cursor hidden, is the number that it has to show. -/
theorem calculator_session (hs0 : f.Stored s0) (hshown : f.DisplayShown win) {s : Session}
    (h : s.Typing f s0 win) (events : List SessionEvent)
    (hkeys : Transition.Meets (Session.step f) (KeysOnly f) s events) :
    (Transition.run (Session.step f) s events = none ↔
        s.2.calculator.press (s.hand.typed f win events) = none) ∧
      ∀ s', Transition.run (Session.step f) s events = some s' →
        ∃ c, s.2.calculator.press (s.hand.typed f win events) = some c ∧
          s'.2.calculator = { c with pressed := s'.2.calculator.pressed } ∧
          (s.hand.typed f win events ≠ [] → f.readDisplay win (s'.2.uncovered f s0) =
            (Framebuffer.padLeft (Calc.itoa c.displayed)).map some) := by
  obtain ⟨hnone, hsome⟩ := h.run hs0 hshown hkeys
  refine ⟨⟨hnone, fun hfault => ?_⟩, fun s' hrun => ?_⟩
  · cases hrun : Transition.run (Session.step f) s events with
    | none => rfl
    | some s' =>
        have hpress := (hsome s' hrun).1
        rw [hfault] at hpress
        cases hpress
  · obtain ⟨hpress, hreads⟩ := hsome s' hrun
    exact ⟨_, hpress, rfl, fun hne => hreads (.inr hne)⟩

instance (d : Desktop) (x y : Int) : Decidable (d.OnTop x y) :=
  inferInstanceAs (Decidable (_ ∨ _))

instance (f : Framebuffer) (d : Desktop) (x y : Int) (buttons : Nat) :
    Decidable (d.KeyClick f x y buttons) :=
  inferInstanceAs (Decidable (if buttons % 2 = 1 then
    (¬ d.OnClose x y ∧ ¬ d.OnTitle x y) ∧ (d.buttonAt f x y ≠ none ∨ d.OnTop x y)
    else d.pressedButton f ≠ none ∨ d.OnTop x y))

instance (f : Framebuffer) (s : Session) : (event : SessionEvent) → Decidable (KeysOnly f s event)
  | .packet p => inferInstanceAs (Decidable (s.1.firstPacket = true ∨
      p.buttons = s.1.lastButtons ∨ s.2.KeyClick f s.1.cursorX s.1.cursorY p.buttons))
  | .flush => isTrue trivial

/-- The session at the start: the calculator's window on the desktop, and the cursor shown. -/
theorem start_typing (f : Framebuffer) (s0 : Screen) (windows : Nat → Window) (calcWin : Nat)
    (ps : List Nat) (hps : ps.Nodup ∧ 0 ∉ ps ∧ ps.length ≤ maxWindows) (hcalc : calcWin ∈ ps) :
    Session.Typing f s0 (windows calcWin) (Mouse.init f, Desktop.start windows calcWin ps) := by
  obtain ⟨hnodup, hnull, hroom⟩ := hps
  refine ⟨rfl, ⟨start_arranged windows calcWin hnodup hnull hroom, rfl, rfl, ?_, ?_,
    Calc.blank_inv none⟩, init_shown f s0⟩
  · refine (WindowList.findFrom_isSome _ _).mpr ?_
    rw [start_zorder windows calcWin hroom]
    exact hcalc
  · rw [Desktop.win, start_win windows calcWin hroom]
    rfl

/-- The display of the calculator's window on a screen of 1024 by 768. -/
theorem keyWindows_shown : sampleScreen.DisplayShown (keyWindows 1) :=
  ⟨by decide, by decide, by decide⟩

/-- A press and a release on the key 7 display 7. -/
theorem calculator_session_sample :
    ∃ s', Transition.run (Session.step sampleScreen)
        (Mouse.init sampleScreen, Desktop.start keyWindows 1 [1])
        [.packet (.still 0), .packet (.still 1), .packet (.still 0)] = some s' ∧
      sampleScreen.readDisplay (keyWindows 1) (s'.2.uncovered sampleScreen fun _ _ => 0) =
        (Framebuffer.padLeft [0x37]).map some := by
  obtain ⟨hhalts, hsome⟩ := calculator_session (stored_black sampleScreen) keyWindows_shown
    (start_typing sampleScreen _ keyWindows 1 [1] (by decide) (by decide))
    [.packet (.still 0), .packet (.still 1), .packet (.still 0)] (by decide +kernel)
  have htyped : Hand.typed sampleScreen (keyWindows 1)
      (Session.hand (Mouse.init sampleScreen, Desktop.start keyWindows 1 [1]))
      [.packet (.still 0), .packet (.still 1), .packet (.still 0)] = [.digit 7] := by decide +kernel
  rw [htyped] at hhalts hsome
  cases hrun : Transition.run (Session.step sampleScreen)
      (Mouse.init sampleScreen, Desktop.start keyWindows 1 [1])
      [.packet (.still 0), .packet (.still 1), .packet (.still 0)] with
  | none =>
      have hfault := hhalts.mp hrun
      cases hfault
  | some s' =>
      obtain ⟨c, hpress, -, hreads⟩ := hsome s' hrun
      obtain rfl := Option.some.inj hpress
      exact ⟨s', rfl, hreads (List.cons_ne_nil _ _)⟩

/-- The keys of a calculation and the equals key, after the clear key, display its value. -/
theorem press_calculation (c : Calc) {e : Calculation} (hfits : e.Fits) :
    ∃ c', c.press (.clr :: e.keys ++ [.eq]) = some c' ∧ c'.displayed = e.value := by
  obtain ⟨ready, hpress, hready⟩ := Calc.press_ready c hfits
  refine ⟨ready.settled e.value, ?_, rfl⟩
  have hclear : c.onClick .clr = some c.calcDoClear := rfl
  rw [List.cons_append, Calc.press_cons, hclear, Option.bind_some, Calc.press_append, hpress,
    Option.bind_some, Calc.press_cons, hready.eq]
  rfl

/-- Typing a calculation that fits with the mouse, after the clear key, displays its value: the
kernel does not halt, and the decimal notation of the value can be read off the screen. -/
theorem calculation_on_screen (hs0 : f.Stored s0) (hshown : f.DisplayShown win) {s : Session}
    (h : s.Typing f s0 win) (events : List SessionEvent)
    (hkeys : Transition.Meets (Session.step f) (KeysOnly f) s events) (e : Calculation)
    (hfits : e.Fits) (hvalue : e.value ≠ -2 ^ 31)
    (htyped : s.hand.typed f win events = .clr :: e.keys ++ [.eq]) :
    ∃ s', Transition.run (Session.step f) s events = some s' ∧
      f.readDisplay win (s'.2.uncovered f s0) =
        (Framebuffer.padLeft (decimal e.value)).map some := by
  obtain ⟨c', hpress, hdisplayed⟩ := press_calculation s.2.calculator hfits
  obtain ⟨hnone, hsome⟩ := h.run hs0 hshown hkeys
  rw [htyped] at hnone hsome
  cases hrun : Transition.run (Session.step f) s events with
  | none => exact absurd ((hnone hrun).symm.trans hpress) (Option.some_ne_none c').symm
  | some s' =>
      obtain ⟨hcalc, hreads⟩ := hsome s' hrun
      have hsame : s'.2.calculator.displayed = e.value := by
        rw [← hdisplayed, ← Option.some.inj (hcalc.symm.trans hpress)]
        rfl
      have hshows : s'.2.Reads f s0 win := hreads (.inr (List.cons_ne_nil _ _))
      have hfit : FitsInt32 e.value := TermsFit.value hfits.1 hfits.2
      rw [Reads, hsame, itoa_decimal hfit hvalue] at hshows
      exact ⟨s', rfl, hshows⟩

theorem byte_range (b : BitVec 8) : -256 ≤ b.toInt ∧ b.toInt ≤ 255 := by
  have hlow := BitVec.le_toInt b
  have hhigh := BitVec.toInt_lt (x := b)
  omega

/-- A movement with no button pressed, by two signed bytes. -/
def nudge (dx dy : BitVec 8) : Packet :=
  ⟨0, dx.toInt, dy.toInt, Nat.zero_lt_succ 7, byte_range dx, byte_range dy⟩

/-- The keys `C`, `7` and `=` with the cursor on each of them in turn, and a flush. -/
def typeSeven : List SessionEvent :=
  [.packet (.still 0), .packet (nudge 0 141), .packet (.still 1), .packet (.still 0),
    .packet (nudge 0 115), .packet (.still 1), .flush, .packet (.still 0),
    .packet (nudge 110 141), .packet (.still 1), .packet (.still 0)]

/-- It displays 7. -/
theorem calculation_on_screen_sample :
    ∃ s', Transition.run (Session.step sampleScreen)
        (Mouse.init sampleScreen, Desktop.start keyWindows 1 [1]) typeSeven = some s' ∧
      sampleScreen.readDisplay (keyWindows 1) (s'.2.uncovered sampleScreen fun _ _ => 0) =
        (Framebuffer.padLeft [0x37]).map some :=
  calculation_on_screen (stored_black sampleScreen) keyWindows_shown
    (start_typing sampleScreen _ keyWindows 1 [1] (by decide) (by decide)) typeSeven
    (by decide +kernel) ⟨⟨[7], by decide, by decide⟩, []⟩ ⟨by decide, trivial⟩ (by decide)
    (by decide +kernel)

end Desktop

end Kumo
