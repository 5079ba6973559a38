import Kumo.App.CalcDisplay
import Kumo.Kernel.CursorRuns
import Kumo.Kernel.LeftPress

/-!
# Typing with the mouse

The mouse makes a keyboard of the calculator: a press on a key and a release on the same key type
it. `Hand.typed` says which keys a sequence of packets types, from the cursor and the buttons
alone. `Ready.click` is what one click does to the calculator and to its display, as long as it
raises, closes and drags no window.
-/

namespace Kumo

/-! ## Calculations on the display -/

/-- The value of a calculation that fits is an `int32_t`. -/
theorem TermsFit.value {v : Int} (hv : FitsInt32 v) {terms : List CalcTerm} (h : TermsFit v terms) :
    FitsInt32 (terms.foldl (fun v t => t.op.eval v t.number.value) v) := by
  induction terms generalizing v with
  | nil => exact hv
  | cons t terms ih => exact ih h.2.2.1 h.2.2.2

/-- `itoa` writes every `int32_t` but the least one in decimal. -/
theorem itoa_decimal {n : Int} (hn : FitsInt32 n) (hne : n ≠ -2 ^ 31) :
    Calc.itoa n = decimal n := by
  have hlow := hn.1
  rw [itoa_eq hn, decimal]
  split
  · rfl
  · split
    · rw [wrap32_eq (by omega) (by omega)]
      congr 2
      omega
    · congr 1
      omega

/-! ## The pressed button -/

namespace Calc

/-- The button that is pressed has no part in what a key does. -/
theorem onClick_pressed (c : Calc) (k : CalcKey) (pressed : Option Nat) :
    ({ c with pressed := pressed } : Calc).onClick k =
      (c.onClick k).map fun c => { c with pressed := pressed } := by
  have hexecute : ({ c with pressed := pressed } : Calc).calcExecutePending =
      c.calcExecutePending.map fun c => { c with pressed := pressed } := by
    unfold calcExecutePending
    dsimp only
    split
    · rfl
    · rfl
    · rfl
    · split
      · rfl
      · split <;> rfl
    · rfl
  cases k with
  | digit d =>
      unfold onClick calcInputDigit
      dsimp only
      split <;> rfl
  | op op =>
      unfold onClick calcInputOp
      dsimp only
      split
      · rw [hexecute, Option.map_map, Option.map_map]
        rfl
      · rfl
  | eq =>
      unfold onClick calcDoEquals
      dsimp only
      split
      · rw [hexecute, Option.map_map, Option.map_map, Option.map_map, Option.map_map]
        rfl
      · rfl
  | clr => rfl

/-- Nor in what several keys do. -/
theorem press_pressed (c : Calc) (keys : List CalcKey) (pressed : Option Nat) :
    ({ c with pressed := pressed } : Calc).press keys =
      (c.press keys).map fun c => { c with pressed := pressed } := by
  induction keys generalizing c with
  | nil => rfl
  | cons k keys ih =>
      rw [press_cons, press_cons, onClick_pressed]
      cases c.onClick k with
      | none => rfl
      | some next => exact ih next

/-- What holds after any keys does not depend on it. -/
theorem Inv.pressed {c : Calc} (h : c.Inv) (pressed : Option Nat) :
    ({ c with pressed := pressed } : Calc).Inv :=
  ⟨h.accumulator, h.current, h.operator, h.idle⟩

/-- The number on the display is an `int32_t`. -/
theorem Inv.displayed {c : Calc} (h : c.Inv) : FitsInt32 c.displayed := by
  unfold Calc.displayed
  split
  · exact h.current
  · exact h.accumulator

end Calc

/-- A cursor whose tip is on a key does not reach the display. -/
theorem Framebuffer.DisplayShown.cursor_off {f : Framebuffer} {win : Window}
    (h : f.DisplayShown win) {btn : Button}
    (hbtn : btn ∈ f.calcButtons) {x y : Int} (hhit : buttonHitTest btn win x y = true)
    {px py : Nat} (hunder : UnderCursor x y px py) : ¬ Framebuffer.OnDisplay win px py := by
  obtain ⟨dx, -, dy, hdy, -, hy⟩ := hunder
  obtain ⟨-, ⟨-, hh⟩, -⟩ := calcButtons_below hbtn
  unfold buttonHitTest at hhit
  simp only [Bool.and_eq_true, decide_eq_true_eq] at hhit
  obtain ⟨⟨-, habove⟩, hbelow⟩ := hhit
  rw [hh] at hbelow
  rw [cursorH] at hdy
  have hsize : wrap32 ((35 : Nat) : Int) = 35 := by decide
  rw [hsize] at hbelow
  have hbounds := wrap32_bounds (win.y + btn.y)
  have hend : wrap32 (wrap32 (win.y + btn.y) + 35) ≤ wrap32 (win.y + btn.y) + 35 := by
    generalize wrap32 (win.y + btn.y) = top at hbounds
    unfold wrap32
    omega
  obtain ⟨i, hi⟩ := Int.eq_ofNat_of_zero_le (show 0 ≤ y - wrap32 (win.y + btn.y) by omega)
  refine h.below hbtn (j := i + dy) (by omega) (hy.symm.trans ?_)
  have hyi : y = wrap32 (win.y + btn.y) + i := by omega
  rw [hyi]
  unfold word wrap32
  omega

namespace Desktop

variable {f : Framebuffer}

/-! ## Clicks that raise nothing -/

/-- A click on no window, or on the window at the top, changes nothing. -/
theorem wmHandleClick_onTop {d : Desktop} (h : d.Arranged) {x y : Int} (htop : d.OnTop x y) :
    d.windows.wmHandleClick x y = (d.windows, false) := by
  unfold WindowList.wmHandleClick
  unfold OnTop hit WindowList.wmFindWindowAt at htop
  cases hfrom : d.windows.hitFrom x y d.windows.count with
  | none => rfl
  | some i =>
      rw [hfrom] at htop
      obtain ⟨hi, -, -⟩ := WindowList.hitFrom_some hfrom
      have hlen : i < d.windows.zorder.length := by rwa [WindowList.length_zorder]
      have hslot : d.windows.zorder[i] = d.windows.slots i := WindowList.getElem_zorder _ hlen
      rcases htop with hzero | hlast
      · refine absurd (List.getElem_mem hlen) ?_
        rw [hslot, show d.windows.slots i = 0 from hzero]
        exact h.nonnull
      · have hlast : d.windows.zorder.getLast? = some (d.windows.slots i) := hlast
        rw [List.getLast?_eq_getElem?, ← hslot,
          List.getElem?_eq_getElem (by omega), Option.some_inj] at hlast
        have hindex : d.windows.zorder.length - 1 = i := h.nodup.getElem_inj_iff.mp hlast
        rw [WindowList.length_zorder] at hindex
        exact if_pos hindex.symm

/-- A click that raises, closes and drags no window. With the left button down: neither on a close
button nor on a title bar, and on a key or where nothing is raised. With the left button up: while
a key is pressed, or where nothing is raised. -/
def KeyClick (f : Framebuffer) (d : Desktop) (x y : Int) (buttons : Nat) : Prop :=
  if buttons % 2 = 1 then
    (¬ d.OnClose x y ∧ ¬ d.OnTitle x y) ∧ (d.buttonAt f x y ≠ none ∨ d.OnTop x y)
  else d.pressedButton f ≠ none ∨ d.OnTop x y

/-- What such a click does. -/
theorem onMouseClick_key {d : Desktop} (h : d.Arranged) (hdrag : d.drag = 0)
    (hactive : d.calcActive = true) {x y : Int} {buttons : Nat} (hkey : d.KeyClick f x y buttons) :
    d.onMouseClick f x y buttons =
      if buttons % 2 = 1 then
        match d.buttonAt f x y with
        | some (i, btn) => some (d.buttonHandleDown f i btn)
        | none => some d
      else
        match d.pressedButton f with
        | some btn => d.buttonRelease f btn x y
        | none => some d := by
  unfold KeyClick at hkey
  have hleave : d.OnTop x y → d.rearranged f (d.windows.wmHandleClick x y) = d := by
    intro htop
    rw [wmHandleClick_onTop h htop]
    rfl
  rw [onMouseClick_eq]
  by_cases hb : buttons % 2 = 1
  · rw [if_pos hb] at hkey ⊢
    rw [if_pos hb, if_neg hkey.1.1, if_neg hkey.1.2, routeClick, calcHandleClick, hactive,
      if_neg (by decide), if_pos hb]
    cases hbutton : d.buttonAt f x y with
    | none => exact congrArg some (hleave (hkey.2.resolve_left (not_not_intro hbutton)))
    | some found => rfl
  · rw [if_neg hb] at hkey ⊢
    rw [if_neg hb, if_neg (not_not_intro hdrag), routeClick, calcHandleClick, hactive,
      if_neg (by decide), if_neg hb, buttonHandleUp]
    cases hbutton : d.pressedButton f with
    | none => exact congrArg some (hleave (hkey.resolve_left (not_not_intro hbutton)))
    | some btn =>
        dsimp only
        cases d.buttonRelease f btn x y with
        | none => rfl
        | some released => rfl

/-! ## The keys that are typed -/

/-- The position of the cursor, `last_buttons`, whether the next packet is discarded, and the
pressed button. -/
structure Hand where
  x : Int
  y : Int
  buttons : Nat
  discard : Bool
  pressed : Option Nat

/-- The hand of a session. -/
def Session.hand (s : Session) : Hand where
  x := s.1.cursorX
  y := s.1.cursorY
  buttons := s.1.lastButtons
  discard := s.1.firstPacket
  pressed := s.2.calculator.pressed

namespace Hand

variable (f : Framebuffer) (win : Window)

/-- A change of the buttons: the button that is pressed after it, and the key that it types. A
press on a key presses it. A release on the pressed key types it. -/
def click (h : Hand) (buttons : Nat) : Option Nat × List CalcKey :=
  if buttons % 2 = 1 then
    match f.calcButtonAt win h.x h.y with
    | some i => (some i, [])
    | none => (h.pressed, [])
  else
    match h.pressed.bind (f.calcButtons[·]?) with
    | some btn => (none, if buttonHitTest btn win h.x h.y then [btn.onClick] else [])
    | none => (h.pressed, [])

/-- The click of a packet. -/
def clicked (h : Hand) (p : Packet) : Option Nat × List CalcKey :=
  if p.buttons = h.buttons then (h.pressed, []) else h.click f win p.buttons

/-- The hand after an event, and the key that it types. -/
def step (h : Hand) : SessionEvent → Hand × List CalcKey
  | .flush => (h, [])
  | .packet p =>
      if h.discard then ({ h with discard := false }, [])
      else
        ({ x := if p.decoded = (0, 0) then h.x
             else clampCursor (wrap32 (h.x + p.decoded.1)) f.width cursorW
           y := if p.decoded = (0, 0) then h.y
             else clampCursor (wrap32 (h.y - p.decoded.2)) f.height cursorH
           buttons := p.buttons
           discard := false
           pressed := (h.clicked f win p).1 }, (h.clicked f win p).2)

/-- The keys that some events type. -/
def typed (h : Hand) : List SessionEvent → List CalcKey
  | [] => []
  | event :: events => (h.step f win event).2 ++ typed (h.step f win event).1 events

end Hand

/-- The clicks of an event raise, close and drag no window. -/
def KeysOnly (f : Framebuffer) (s : Session) : SessionEvent → Prop
  | .packet p => s.1.firstPacket = true ∨ p.buttons = s.1.lastButtons ∨
      s.2.KeyClick f s.1.cursorX s.1.cursorY p.buttons
  | .flush => True

/-! ## One click -/

/-- The desktop while keys are typed. The list of windows is well formed, no window is dragged,
nothing is left to repaint, and the calculator's window `win` is in the list. -/
structure Ready (win : Window) (d : Desktop) : Prop where
  arranged : d.Arranged
  drag : d.drag = 0
  still : d.dirty.valid = false
  active : d.calcActive = true
  window : d.win d.calcWin = win
  calculator : d.calculator.Inv

/-- What typing leaves alone. -/
theorem Ready.keep {win : Window} {d d' : Desktop} (h : d.Ready win)
    (hwindows : d'.windows = d.windows) (hdrag : d'.drag = d.drag) (hdirty : d'.dirty = d.dirty)
    (hcalcWin : d'.calcWin = d.calcWin) (hinv : d'.calculator.Inv) : d'.Ready win := by
  refine ⟨h.arranged.keep (congrArg WindowList.zorder hwindows) ?_, hdrag.trans h.drag, ?_, ?_, ?_,
    hinv⟩
  · rw [hdrag]
    exact h.arranged.drag
  · rw [hdirty]
    exact h.still
  · unfold calcActive
    rw [hwindows, hcalcWin]
    exact h.active
  · rw [Desktop.win, hwindows, hcalcWin]
    exact h.window

/-- The index of a calculator button at a point. -/
theorem buttonAt_eq_some {d : Desktop} {x y : Int} {i : Nat} {btn : Button}
    (h : d.buttonAt f x y = some (i, btn)) :
    f.calcButtonAt (d.win d.calcWin) x y = some i ∧ btn ∈ f.calcButtons := by
  obtain ⟨j, hj, hget⟩ := Option.bind_eq_some_iff.mp h
  obtain ⟨other, hother, heq⟩ := Option.map_eq_some_iff.mp hget
  obtain ⟨rfl, rfl⟩ := Prod.mk.inj heq
  exact ⟨hj, List.mem_of_getElem? hother⟩

theorem buttonAt_eq_none {d : Desktop} {x y : Int} (h : d.buttonAt f x y = none) :
    f.calcButtonAt (d.win d.calcWin) x y = none := by
  cases hat : f.calcButtonAt (d.win d.calcWin) x y with
  | none => rfl
  | some i =>
      obtain ⟨hlt, -⟩ := List.findIdx?_eq_some_iff_findIdx_eq.mp hat
      rw [buttonAt, hat, Option.bind_some, List.getElem?_eq_getElem hlt] at h
      cases h

/-- A pressed button is one of the calculator's. -/
theorem pressedButton_mem {d : Desktop} {btn : Button} (h : d.pressedButton f = some btn) :
    btn ∈ f.calcButtons := by
  obtain ⟨i, -, hget⟩ := Option.bind_eq_some_iff.mp h
  exact List.mem_of_getElem? hget

/-- The keys of the buttons are those of the keypad. -/
theorem mem_keypad_of_button {btn : Button} (h : btn ∈ f.calcButtons) :
    btn.onClick ∈ Calc.keypad := by
  rw [← Calc.calcButtons_keys f]
  exact List.mem_map_of_mem h

/-- What a click that types some keys draws on the display: nothing, or the number, with the cursor
elsewhere. -/
inductive KeyDraws (f : Framebuffer) (win : Window) (x y : Int) (keys : List CalcKey) (c : Calc)
    (ps : List Stroke) : Prop where
  | off (hkeys : keys = []) (hoff : ∀ p ∈ ps, ¬ Framebuffer.OnDisplay win p.x p.y)
  | refresh (rest : List Stroke) (hps : ps = f.calcRefreshDisplay win c ++ rest)
      (hoff : ∀ p ∈ rest, ¬ Framebuffer.OnDisplay win p.x p.y)
      (hcursor : ∀ px py, UnderCursor x y px py → ¬ Framebuffer.OnDisplay win px py)

/-- What a click does to the calculator, and that the desktop stays ready. -/
structure KeyClicked (f : Framebuffer) (win : Window) (d : Desktop) (x y : Int)
    (typed : Option Nat × List CalcKey) (d' : Desktop) : Prop where
  ready : d'.Ready win
  calculator : d.calculator.press typed.2 =
    some { d'.calculator with pressed := d.calculator.pressed }
  pressed : d'.calculator.pressed = typed.1
  draws : ∃ pss : List (List Stroke), d'.drawn = d.drawn ++ pss.map .strokes ∧
    KeyDraws f win x y typed.2 d'.calculator pss.flatten

/-- A click does what the hand says. -/
theorem Ready.click {win : Window} {d : Desktop} (h : d.Ready win) (hshown : f.DisplayShown win)
    (hand : Hand) (hpressed : hand.pressed = d.calculator.pressed) {buttons : Nat}
    (hkey : d.KeyClick f hand.x hand.y buttons) :
    (d.onMouseClick f hand.x hand.y buttons = none →
        d.calculator.press (hand.click f win buttons).2 = none) ∧
      ∀ d', d.onMouseClick f hand.x hand.y buttons = some d' →
        KeyClicked f win d hand.x hand.y (hand.click f win buttons) d' := by
  have hidle : KeyClicked f win d hand.x hand.y (hand.pressed, []) d :=
    ⟨h, rfl, hpressed.symm, [], (List.append_nil _).symm,
      .off rfl fun p hp => absurd hp List.not_mem_nil⟩
  rw [onMouseClick_key h.arranged h.drag h.active hkey, Hand.click]
  by_cases hb : buttons % 2 = 1
  · rw [if_pos hb, if_pos hb]
    cases hbutton : d.buttonAt f hand.x hand.y with
    | none =>
        have hat := buttonAt_eq_none hbutton
        rw [h.window] at hat
        rw [hat]
        refine ⟨fun hnone => absurd hnone (Option.some_ne_none _), fun d' hd' => ?_⟩
        obtain rfl := Option.some.inj hd'
        exact hidle
    | some found =>
        obtain ⟨i, btn⟩ := found
        obtain ⟨hat, hmem⟩ := buttonAt_eq_some hbutton
        rw [h.window] at hat
        rw [hat]
        refine ⟨fun hnone => absurd hnone (Option.some_ne_none _), fun d' hd' => ?_⟩
        obtain rfl := Option.some.inj hd'
        refine ⟨h.keep rfl rfl rfl rfl (h.calculator.pressed (some i)), rfl, rfl,
          [f.buttonDraw btn (d.win d.calcWin) true], rfl, .off rfl fun p hp => ?_⟩
        rw [h.window, List.flatten_singleton] at hp
        exact hshown.buttonDraw_off hmem hp
  · rw [if_neg hb, if_neg hb]
    have hsame : hand.pressed.bind (f.calcButtons[·]?) = d.pressedButton f := by rw [hpressed]; rfl
    rw [hsame]
    cases hbutton : d.pressedButton f with
    | none =>
        refine ⟨fun hnone => absurd hnone (Option.some_ne_none _), fun d' hd' => ?_⟩
        obtain rfl := Option.some.inj hd'
        exact hidle
    | some btn =>
        have hmem := pressedButton_mem hbutton
        dsimp only
        rw [buttonRelease, h.window]
        by_cases hhit : buttonHitTest btn win hand.x hand.y = true
        · rw [if_pos hhit, if_pos hhit]
          constructor
          · intro hnone
            rw [Option.map_eq_none_iff, Option.map_eq_none_iff] at hnone
            rw [Calc.press_cons, hnone]
            rfl
          · intro d' hd'
            obtain ⟨middle, hmiddle, rfl⟩ := Option.map_eq_some_iff.mp hd'
            obtain ⟨c, hc, rfl⟩ := Option.map_eq_some_iff.mp hmiddle
            have hinv : c.Inv := h.calculator.step (mem_keypad_of_button hmem) hc
            have hback := Calc.onClick_pressed d.calculator btn.onClick d.calculator.pressed
            refine ⟨h.keep rfl rfl rfl rfl (hinv.pressed none), ?_, rfl,
              [f.calcRefreshDisplay win c, f.buttonDraw btn win false], ?_,
              .refresh (f.buttonDraw btn win false) ?_ (fun p hp => hshown.buttonDraw_off hmem hp)
                fun px py hunder => hshown.cursor_off hmem hhit hunder⟩
            · rw [Calc.press_cons, hback, hc]
              rfl
            · simp [draw]
            · rw [List.flatten_cons, List.flatten_singleton]
              rfl
        · rw [if_neg hhit, if_neg hhit]
          refine ⟨fun hnone => absurd hnone (Option.some_ne_none _), fun d' hd' => ?_⟩
          obtain rfl := Option.some.inj hd'
          refine ⟨h.keep rfl rfl rfl rfl (h.calculator.pressed none), rfl, rfl,
            [f.buttonDraw btn win false], rfl, .off rfl fun p hp => ?_⟩
          rw [List.flatten_singleton] at hp
          exact hshown.buttonDraw_off hmem hp

end Desktop

end Kumo
