import Kumo.Drivers.Cursor
import Kumo.Kernel.Sessions

/-!
# What clicks and packets draw

The window manager hides the cursor around everything it draws. The calculator does not:
`button_draw` and `calc_refresh_display`, called from a click, draw under a visible
cursor. `clickStrokes` are the pixels they write.
-/

namespace Kumo

namespace Desktop

variable {f : Framebuffer}

/-- What the release of a calculator button draws, unless it halts the kernel: the display, if the
button is clicked, and the button. -/
def releaseStrokes (f : Framebuffer) (d : Desktop) (btn : Button) (x y : Int) : List Stroke :=
  ((if buttonHitTest btn (d.win d.calcWin) x y then
      (d.calculator.onClick btn.onClick).map (f.calcRefreshDisplay (d.win d.calcWin))
    else some []).map fun ps => ps ++ f.buttonDraw btn (d.win d.calcWin) false).getD []

/-- What `calc_handle_click` draws in a click. -/
def clickStrokes (f : Framebuffer) (d : Desktop) (x y : Int) (buttons : Nat) : List Stroke :=
  if d.Routed x y buttons ∧ d.calcActive = true then
    if buttons % 2 = 1 then
      match d.buttonAt f x y with
      | some (_, btn) => f.buttonDraw btn (d.win d.calcWin) true
      | none => []
    else
      match d.pressedButton f with
      | some btn => d.releaseStrokes f btn x y
      | none => []
  else []

/-- Drawing with the cursor hidden, or no drawing. -/
def Bracketed (ops : List DrawOp) : Prop :=
  ops = [] ∨ ∃ ps, ops = [.hide, .strokes ps, .show]

/-- What a click adds to the drawing: the calculator's strokes as they are, or a redraw with the
cursor hidden. -/
inductive ClickDraws (f : Framebuffer) (d : Desktop) (x y : Int) (buttons : Nat)
    (ops : List DrawOp) : Prop where
  | bracketed (hnone : d.clickStrokes f x y buttons = []) (hops : Bracketed ops)
  | bare (pss : List (List Stroke)) (hops : ops = pss.map .strokes)
      (hstrokes : d.clickStrokes f x y buttons = pss.flatten)

theorem rearranged_draws (d : Desktop) (r : WindowList × Bool) :
    ∃ ops, (d.rearranged f r).drawn = d.drawn ++ ops ∧ Bracketed ops := by
  unfold rearranged
  split
  · exact ⟨_, rfl, .inr ⟨_, rfl⟩⟩
  · exact ⟨[], (List.append_nil _).symm, .inl rfl⟩

/-- A release draws its strokes one list after the other. -/
theorem buttonRelease_draws {d d' : Desktop} {btn : Button} {x y : Int}
    (h : d.buttonRelease f btn x y = some d') :
    ∃ pss : List (List Stroke), d'.drawn = d.drawn ++ pss.map .strokes ∧
      d.releaseStrokes f btn x y = pss.flatten := by
  obtain ⟨middle, hmiddle, rfl⟩ := Option.map_eq_some_iff.mp h
  unfold releaseStrokes
  by_cases hhit : buttonHitTest btn (d.win d.calcWin) x y = true
  · rw [if_pos hhit] at hmiddle ⊢
    obtain ⟨c, hc, rfl⟩ := Option.map_eq_some_iff.mp hmiddle
    refine ⟨[f.calcRefreshDisplay (d.win d.calcWin) c, f.buttonDraw btn (d.win d.calcWin) false],
      ?_, ?_⟩
    · simp [draw]
    · simp [hc]
  · rw [if_neg hhit] at hmiddle ⊢
    obtain rfl := Option.some.inj hmiddle
    exact ⟨[f.buttonDraw btn (d.win d.calcWin) false], rfl, by simp⟩

/-- What a click that is offered to the calculator draws. -/
theorem routeClick_draws {d d' : Desktop} {x y : Int} {buttons : Nat}
    (hrouted : d.Routed x y buttons) (h : d.routeClick f x y buttons = some d') :
    ∃ ops, d'.drawn = d.drawn ++ ops ∧ ClickDraws f d x y buttons ops := by
  obtain ⟨⟨middle, consumed⟩, hcalc, hrest⟩ := Option.map_eq_some_iff.mp h
  have hraise : d.clickStrokes f x y buttons = [] → (middle, consumed) = (d, false) →
      ∃ ops, d'.drawn = d.drawn ++ ops ∧ ClickDraws f d x y buttons ops := by
    intro hnone heq
    obtain ⟨rfl, rfl⟩ := Prod.mk.inj heq
    obtain rfl : middle.rearranged f (middle.windows.wmHandleClick x y) = d' := hrest
    obtain ⟨ops, hdrawn, hops⟩ := middle.rearranged_draws (f := f) (middle.windows.wmHandleClick x y)
    exact ⟨ops, hdrawn, .bracketed hnone hops⟩
  unfold calcHandleClick at hcalc
  by_cases hactive : d.calcActive = true
  · rw [hactive, if_neg (by decide)] at hcalc
    by_cases hb : buttons % 2 = 1
    · rw [if_pos hb] at hcalc
      cases hbutton : d.buttonAt f x y with
      | none =>
          rw [hbutton] at hcalc
          refine hraise ?_ (Option.some.inj hcalc).symm
          rw [clickStrokes, if_pos ⟨hrouted, hactive⟩, if_pos hb, hbutton]
      | some found =>
          obtain ⟨i, btn⟩ := found
          rw [hbutton] at hcalc
          obtain ⟨rfl, rfl⟩ := Prod.mk.inj (Option.some.inj hcalc)
          obtain rfl : d.buttonHandleDown f i btn = d' := hrest
          refine ⟨_, rfl, .bare [f.buttonDraw btn (d.win d.calcWin) true] rfl ?_⟩
          rw [clickStrokes, if_pos ⟨hrouted, hactive⟩, if_pos hb, hbutton]
          exact (List.append_nil _).symm
    · rw [if_neg hb, buttonHandleUp] at hcalc
      cases hbutton : d.pressedButton f with
      | none =>
          rw [hbutton] at hcalc
          refine hraise ?_ (Option.some.inj hcalc).symm
          rw [clickStrokes, if_pos ⟨hrouted, hactive⟩, if_neg hb, hbutton]
      | some btn =>
          rw [hbutton] at hcalc
          obtain ⟨released, hreleased, heq⟩ := Option.map_eq_some_iff.mp hcalc
          obtain ⟨rfl, rfl⟩ := Prod.mk.inj heq
          obtain rfl : released = d' := hrest
          obtain ⟨pss, hdrawn, hstrokes⟩ := buttonRelease_draws hreleased
          refine ⟨_, hdrawn, .bare pss rfl ?_⟩
          rw [clickStrokes, if_pos ⟨hrouted, hactive⟩, if_neg hb, hbutton]
          exact hstrokes
  · rw [Bool.not_eq_true] at hactive
    rw [hactive, if_pos (by decide)] at hcalc
    refine hraise ?_ (Option.some.inj hcalc).symm
    rw [clickStrokes, if_neg (by rw [hactive]; simp)]

/-- A click that is not offered to the calculator draws nothing of it. -/
theorem clickStrokes_unrouted {d : Desktop} {x y : Int} {buttons : Nat}
    (h : ¬ d.Routed x y buttons) : d.clickStrokes f x y buttons = [] :=
  if_neg fun hboth => h hboth.1

/-- What a click draws. -/
theorem onMouseClick_draws {d d' : Desktop} {x y : Int} {buttons : Nat}
    (h : d.onMouseClick f x y buttons = some d') :
    ∃ ops, d'.drawn = d.drawn ++ ops ∧ ClickDraws f d x y buttons ops := by
  rw [onMouseClick_eq] at h
  by_cases hb : buttons % 2 = 1
  · rw [if_pos hb] at h
    by_cases hclose : d.OnClose x y
    · rw [if_pos hclose] at h
      obtain rfl := Option.some.inj h
      obtain ⟨ops, hdrawn, hops⟩ := rearranged_draws (f := f)
        { d with drag := if d.drag = d.hit x y then 0 else d.drag }
        (d.windows.wmRemoveWindow (d.hit x y))
      refine ⟨ops, hdrawn, .bracketed (clickStrokes_unrouted fun hr => ?_) hops⟩
      rw [Routed, if_pos hb] at hr
      exact hr.1 hclose
    · rw [if_neg hclose] at h
      by_cases htitle : d.OnTitle x y
      · rw [if_pos htitle] at h
        obtain rfl := Option.some.inj h
        obtain ⟨ops, hdrawn, hops⟩ := rearranged_draws (f := f) d
          (d.windows.wmBringToTop (d.hit x y))
        refine ⟨ops, hdrawn, .bracketed (clickStrokes_unrouted fun hr => ?_) hops⟩
        rw [Routed, if_pos hb] at hr
        exact hr.2 htitle
      · rw [if_neg htitle] at h
        exact routeClick_draws (by rw [Routed, if_pos hb]; exact ⟨hclose, htitle⟩) h
  · rw [if_neg hb] at h
    by_cases hdrag : d.drag = 0
    · rw [if_neg (by simpa using hdrag)] at h
      exact routeClick_draws (by rw [Routed, if_neg hb]; exact hdrag) h
    · rw [if_pos hdrag] at h
      obtain rfl := Option.some.inj h
      refine ⟨[], (List.append_nil _).symm, .bracketed (clickStrokes_unrouted fun hr => ?_)
        (.inl rfl)⟩
      rw [Routed, if_neg hb] at hr
      exact hdrag hr

/-- A click that halts the kernel draws nothing. -/
theorem clickStrokes_none {d : Desktop} {x y : Int} {buttons : Nat}
    (h : d.onMouseClick f x y buttons = none) : d.clickStrokes f x y buttons = [] := by
  obtain ⟨hb, _⟩ := onMouseClick_none h
  by_cases hrouted : d.Routed x y buttons ∧ d.calcActive = true
  · rw [clickStrokes, if_pos hrouted, if_neg hb]
    rw [onMouseClick_eq, if_neg hb] at h
    have hdrag := hrouted.1
    rw [Routed, if_neg hb] at hdrag
    rw [if_neg (by simpa using hdrag), routeClick, calcHandleClick, hrouted.2,
      if_neg (by decide), if_neg hb, buttonHandleUp] at h
    cases hbutton : d.pressedButton f with
    | none => rfl
    | some btn =>
        rw [hbutton, Option.map_map, Option.map_eq_none_iff, buttonRelease,
          Option.map_eq_none_iff] at h
        dsimp only at h ⊢
        unfold releaseStrokes
        by_cases hhit : buttonHitTest btn (d.win d.calcWin) x y = true
        · rw [if_pos hhit, Option.map_eq_none_iff] at h
          rw [if_pos hhit, h]
          rfl
        · rw [if_neg hhit] at h
          cases h
  · exact if_neg hrouted

/-- What the movement of a packet draws. -/
theorem movePart_draws (m : Mouse) (d : Desktop) (p : Packet) :
    ∃ ops, (d.movePart f m p).drawn = d.drawn ++ ops ∧
      (p.decoded = (0, 0) ∧ ops = [] ∨
        ops = [.hide, .moveTo (cursorAfter f m p).1 (cursorAfter f m p).2, .show]) := by
  have hmove : ∀ (d : Desktop) dx dy, (d.onMouseMove f dx dy).drawn = d.drawn := by
    intro d dx dy
    unfold onMouseMove
    split <;> rfl
  unfold movePart
  by_cases hzero : p.decoded = (0, 0)
  · rw [if_pos hzero]
    exact ⟨[], (List.append_nil _).symm, .inl ⟨hzero, rfl⟩⟩
  · rw [if_neg hzero, hmove]
    exact ⟨_, List.append_assoc _ _ _, .inr rfl⟩

/-- What a flush draws. -/
theorem wmFlushDirty_draws (d : Desktop) :
    ∃ ops, (d.wmFlushDirty f).drawn = d.drawn ++ ops ∧ Bracketed ops := by
  unfold wmFlushDirty snapshot
  by_cases hvalid : d.dirty.valid = true
  · rw [if_pos hvalid]
    exact ⟨_, rfl, .inr ⟨_, rfl⟩⟩
  · rw [if_neg hvalid]
    exact ⟨[], (List.append_nil _).symm, .inl rfl⟩

end Desktop

end Kumo
