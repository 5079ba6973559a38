import Kumo.Kernel.Desktop

/-!
# What a click does

`on_mouse_click` is a chain of hit tests. `Clicked` lists its outcomes: each says which
tests led to it and what becomes of the window list, the drag and the pressed button.
Nothing that a click draws has an effect on them.
-/

namespace Kumo

namespace Desktop

variable {f : Framebuffer}

@[simp] theorem draw_windows (d : Desktop) (ops : List DrawOp) :
    (d.draw ops).windows = d.windows := rfl

@[simp] theorem draw_drag (d : Desktop) (ops : List DrawOp) : (d.draw ops).drag = d.drag := rfl

@[simp] theorem draw_calculator (d : Desktop) (ops : List DrawOp) :
    (d.draw ops).calculator = d.calculator := rfl

@[simp] theorem draw_calcWin (d : Desktop) (ops : List DrawOp) :
    (d.draw ops).calcWin = d.calcWin := rfl

@[simp] theorem draw_dirty (d : Desktop) (ops : List DrawOp) : (d.draw ops).dirty = d.dirty := rfl

/-- Redrawing everything changes nothing but the screen. -/
theorem rearranged_eq (d : Desktop) (r : WindowList × Bool) :
    ∃ ops, d.rearranged f r = { d with windows := r.1 }.draw ops := by
  unfold rearranged
  split
  · exact ⟨_, rfl⟩
  · exact ⟨[], by simp [draw]⟩

@[simp] theorem rearranged_windows (d : Desktop) (r : WindowList × Bool) :
    (d.rearranged f r).windows = r.1 := by
  obtain ⟨ops, h⟩ := d.rearranged_eq (f := f) r
  rw [h, draw_windows]

@[simp] theorem rearranged_drag (d : Desktop) (r : WindowList × Bool) :
    (d.rearranged f r).drag = d.drag := by
  obtain ⟨ops, h⟩ := d.rearranged_eq (f := f) r
  rw [h, draw_drag]

@[simp] theorem rearranged_calculator (d : Desktop) (r : WindowList × Bool) :
    (d.rearranged f r).calculator = d.calculator := by
  obtain ⟨ops, h⟩ := d.rearranged_eq (f := f) r
  rw [h, draw_calculator]

@[simp] theorem rearranged_calcWin (d : Desktop) (r : WindowList × Bool) :
    (d.rearranged f r).calcWin = d.calcWin := by
  obtain ⟨ops, h⟩ := d.rearranged_eq (f := f) r
  rw [h, draw_calcWin]

@[simp] theorem rearranged_dirty (d : Desktop) (r : WindowList × Bool) :
    (d.rearranged f r).dirty = d.dirty := by
  obtain ⟨ops, h⟩ := d.rearranged_eq (f := f) r
  rw [h, draw_dirty]

/-- The topmost window at a point, or 0. -/
def hit (d : Desktop) (x y : Int) : Nat := d.windows.wmFindWindowAt x y

/-- A point is on the close button of the topmost window there. -/
def OnClose (d : Desktop) (x y : Int) : Prop :=
  d.hit x y ≠ 0 ∧ windowHitTestCloseButton (d.win (d.hit x y)) x y = true

/-- A point is on the title bar of the topmost window there. -/
def OnTitle (d : Desktop) (x y : Int) : Prop :=
  d.hit x y ≠ 0 ∧ windowHitTestTitleBar (d.win (d.hit x y)) x y = true

instance (d : Desktop) (x y : Int) : Decidable (d.OnClose x y) :=
  inferInstanceAs (Decidable (_ ∧ _))

instance (d : Desktop) (x y : Int) : Decidable (d.OnTitle x y) :=
  inferInstanceAs (Decidable (_ ∧ _))

/-- A click is offered to the calculator: a press on neither a close button nor a title bar, or a
release that does not end a drag. -/
def Routed (d : Desktop) (x y : Int) (buttons : Nat) : Prop :=
  if buttons % 2 = 1 then ¬ d.OnClose x y ∧ ¬ d.OnTitle x y else d.drag = 0

instance (d : Desktop) (x y : Int) (buttons : Nat) : Decidable (d.Routed x y buttons) :=
  inferInstanceAs (Decidable (if buttons % 2 = 1 then ¬ d.OnClose x y ∧ ¬ d.OnTitle x y
    else d.drag = 0))

/-- The calculator does not consume a click. -/
def CalcIgnores (f : Framebuffer) (d : Desktop) (x y : Int) (buttons : Nat) : Prop :=
  d.calcActive = false ∨
    if buttons % 2 = 1 then d.buttonAt f x y = none else d.pressedButton f = none

instance (f : Framebuffer) (d : Desktop) (x y : Int) (buttons : Nat) :
    Decidable (d.CalcIgnores f x y buttons) :=
  inferInstanceAs (Decidable (d.calcActive = false ∨
    if buttons % 2 = 1 then d.buttonAt f x y = none else d.pressedButton f = none))

/-- The state of a click's outcome apart from the screen and the calculator's value. -/
structure Becomes (d d' : Desktop) (windows : WindowList) (drag : Nat) (pressed : Option Nat) :
    Prop where
  windows_eq : d'.windows = windows
  drag_eq : d'.drag = drag
  pressed_eq : d'.calculator.pressed = pressed
  calcWin_eq : d'.calcWin = d.calcWin
  dirty_eq : d'.dirty = d.dirty

/-- The outcomes of `on_mouse_click`. -/
inductive Clicked (f : Framebuffer) (d : Desktop) (x y : Int) (buttons : Nat) (d' : Desktop) :
    Prop where
  | close (hpress : buttons % 2 = 1) (hclose : d.OnClose x y)
      (hbecomes : d.Becomes d' (d.windows.wmRemoveWindow (d.hit x y)).1
        (if d.drag = d.hit x y then 0 else d.drag) d.calculator.pressed)
  | grab (hpress : buttons % 2 = 1) (hclose : ¬ d.OnClose x y) (htitle : d.OnTitle x y)
      (hbecomes : d.Becomes d' (d.windows.wmBringToTop (d.hit x y)).1 (d.hit x y)
        d.calculator.pressed)
  | press (hpress : buttons % 2 = 1) (hrouted : d.Routed x y buttons)
      (hactive : d.calcActive = true) (i : Nat) (btn : Button)
      (hbutton : d.buttonAt f x y = some (i, btn))
      (hbecomes : d.Becomes d' d.windows d.drag (some i))
  | drop (hrelease : buttons % 2 ≠ 1) (hdrag : d.drag ≠ 0)
      (hbecomes : d.Becomes d' d.windows 0 d.calculator.pressed)
  | release (hrelease : buttons % 2 ≠ 1) (hrouted : d.Routed x y buttons)
      (hactive : d.calcActive = true) (hbutton : d.pressedButton f ≠ none)
      (hbecomes : d.Becomes d' d.windows d.drag none)
  | raise (hrouted : d.Routed x y buttons) (hcalc : d.CalcIgnores f x y buttons)
      (hbecomes : d.Becomes d' (d.windows.wmHandleClick x y).1 d.drag d.calculator.pressed)

/-- Releasing a calculator button changes the calculator only. -/
theorem buttonRelease_becomes {d d' : Desktop} {btn : Button} {x y : Int}
    (h : d.buttonRelease f btn x y = some d') : d.Becomes d' d.windows d.drag none := by
  obtain ⟨middle, hmiddle, rfl⟩ := Option.map_eq_some_iff.mp h
  split at hmiddle
  · obtain ⟨c, _, rfl⟩ := Option.map_eq_some_iff.mp hmiddle
    exact ⟨rfl, rfl, rfl, rfl, rfl⟩
  · obtain rfl := Option.some.inj hmiddle
    exact ⟨rfl, rfl, rfl, rfl, rfl⟩

/-- The outcomes of a click that is offered to the calculator. -/
theorem routeClick_clicked {d d' : Desktop} {x y : Int} {buttons : Nat}
    (hrouted : d.Routed x y buttons) (h : d.routeClick f x y buttons = some d') :
    Clicked f d x y buttons d' := by
  obtain ⟨⟨middle, consumed⟩, hcalc, hrest⟩ := Option.map_eq_some_iff.mp h
  -- a click that the calculator leaves to the window manager
  have hraise : d.CalcIgnores f x y buttons → (middle, consumed) = (d, false) →
      Clicked f d x y buttons d' := by
    intro hignores heq
    obtain ⟨rfl, rfl⟩ := Prod.mk.inj heq
    obtain rfl : middle.rearranged f (middle.windows.wmHandleClick x y) = d' := hrest
    exact .raise hrouted hignores ⟨by simp, by simp, by simp, by simp, by simp⟩
  unfold calcHandleClick at hcalc
  by_cases hactive : d.calcActive = true
  · rw [hactive, if_neg (by decide)] at hcalc
    by_cases hb : buttons % 2 = 1
    · rw [if_pos hb] at hcalc
      cases hbutton : d.buttonAt f x y with
      | none =>
          rw [hbutton] at hcalc
          exact hraise (.inr (by rw [if_pos hb]; exact hbutton)) (Option.some.inj hcalc).symm
      | some found =>
          obtain ⟨i, btn⟩ := found
          rw [hbutton] at hcalc
          obtain ⟨rfl, rfl⟩ := Prod.mk.inj (Option.some.inj hcalc)
          obtain rfl : d.buttonHandleDown f i btn = d' := hrest
          exact .press hb hrouted hactive i btn hbutton ⟨rfl, rfl, rfl, rfl, rfl⟩
    · rw [if_neg hb, buttonHandleUp] at hcalc
      cases hbutton : d.pressedButton f with
      | none =>
          rw [hbutton] at hcalc
          exact hraise (.inr (by rw [if_neg hb]; exact hbutton)) (Option.some.inj hcalc).symm
      | some btn =>
          rw [hbutton] at hcalc
          obtain ⟨released, hreleased, heq⟩ := Option.map_eq_some_iff.mp hcalc
          obtain ⟨rfl, rfl⟩ := Prod.mk.inj heq
          obtain rfl : released = d' := hrest
          exact .release hb hrouted hactive (by simp [hbutton]) (buttonRelease_becomes hreleased)
  · rw [Bool.not_eq_true] at hactive
    rw [hactive, if_pos (by decide)] at hcalc
    exact hraise (.inl hactive) (Option.some.inj hcalc).symm

/-- `on_mouse_click` in terms of the tests above. -/
theorem onMouseClick_eq (d : Desktop) (x y : Int) (buttons : Nat) :
    d.onMouseClick f x y buttons =
      if buttons % 2 = 1 then
        if d.OnClose x y then
          some ({ d with drag := if d.drag = d.hit x y then 0 else d.drag }.rearranged f
            (d.windows.wmRemoveWindow (d.hit x y)))
        else if d.OnTitle x y then
          some { d.rearranged f (d.windows.wmBringToTop (d.hit x y)) with drag := d.hit x y }
        else d.routeClick f x y buttons
      else if d.drag ≠ 0 then some { d with drag := 0 }
      else d.routeClick f x y buttons := rfl

/-- Every click has one of the outcomes. -/
theorem onMouseClick_clicked {d d' : Desktop} {x y : Int} {buttons : Nat}
    (h : d.onMouseClick f x y buttons = some d') : Clicked f d x y buttons d' := by
  rw [onMouseClick_eq] at h
  by_cases hb : buttons % 2 = 1
  · rw [if_pos hb] at h
    by_cases hclose : d.OnClose x y
    · rw [if_pos hclose] at h
      obtain rfl := Option.some.inj h
      exact .close hb hclose ⟨by simp, by simp, by simp, by simp, by simp⟩
    · rw [if_neg hclose] at h
      by_cases htitle : d.OnTitle x y
      · rw [if_pos htitle] at h
        obtain rfl := Option.some.inj h
        exact .grab hb hclose htitle ⟨by simp, by simp, by simp, by simp, by simp⟩
      · rw [if_neg htitle] at h
        exact routeClick_clicked (by rw [Routed, if_pos hb]; exact ⟨hclose, htitle⟩) h
  · rw [if_neg hb] at h
    by_cases hdrag : d.drag = 0
    · rw [if_neg (by simpa using hdrag)] at h
      exact routeClick_clicked (by rw [Routed, if_neg hb]; exact hdrag) h
    · rw [if_pos hdrag] at h
      obtain rfl := Option.some.inj h
      exact .drop hb hdrag ⟨rfl, rfl, rfl, rfl, rfl⟩

/-- A click moves no window. -/
theorem Clicked.win_eq {d d' : Desktop} {x y : Int} {buttons : Nat}
    (h : Clicked f d x y buttons d') : d'.windows.win = d.windows.win := by
  cases h with
  | close _ _ hbecomes => rw [hbecomes.windows_eq, WindowList.removeWindow_win]
  | grab _ _ _ hbecomes => rw [hbecomes.windows_eq, WindowList.bringToTop_win]
  | press _ _ _ _ _ _ hbecomes => rw [hbecomes.windows_eq]
  | drop _ _ hbecomes => rw [hbecomes.windows_eq]
  | release _ _ _ _ hbecomes => rw [hbecomes.windows_eq]
  | raise _ _ hbecomes => rw [hbecomes.windows_eq, WindowList.handleClick_win]

/-- A click marks nothing dirty. -/
theorem Clicked.dirty_eq {d d' : Desktop} {x y : Int} {buttons : Nat}
    (h : Clicked f d x y buttons d') : d'.dirty = d.dirty := by
  cases h with
  | close _ _ hbecomes => exact hbecomes.dirty_eq
  | grab _ _ _ hbecomes => exact hbecomes.dirty_eq
  | press _ _ _ _ _ _ hbecomes => exact hbecomes.dirty_eq
  | drop _ _ hbecomes => exact hbecomes.dirty_eq
  | release _ _ _ _ hbecomes => exact hbecomes.dirty_eq
  | raise _ _ hbecomes => exact hbecomes.dirty_eq

/-- A press does not halt the kernel. -/
theorem onMouseClick_press (d : Desktop) (x y : Int) {buttons : Nat} (hb : buttons % 2 = 1) :
    ∃ d', d.onMouseClick f x y buttons = some d' := by
  rw [onMouseClick_eq, if_pos hb]
  split
  · exact ⟨_, rfl⟩
  · split
    · exact ⟨_, rfl⟩
    · unfold routeClick calcHandleClick
      rw [if_pos hb]
      split
      · exact ⟨_, rfl⟩
      · split <;> exact ⟨_, rfl⟩

/-- Only the release of a calculator button can halt the kernel. -/
theorem onMouseClick_none {d : Desktop} {x y : Int} {buttons : Nat}
    (h : d.onMouseClick f x y buttons = none) :
    buttons % 2 ≠ 1 ∧ ¬ d.CalcIgnores f x y buttons := by
  have hb : buttons % 2 ≠ 1 := by
    intro hb
    obtain ⟨d', hsome⟩ := d.onMouseClick_press (f := f) x y hb
    rw [h] at hsome
    cases hsome
  refine ⟨hb, fun hignores => ?_⟩
  have hcalc : d.calcHandleClick f x y buttons = some (d, false) := by
    unfold calcHandleClick
    rcases hignores with hinactive | hnone
    · rw [hinactive, if_pos (by decide)]
    · rw [if_neg hb] at hnone
      rw [if_neg hb, buttonHandleUp, hnone, ite_self]
  rw [onMouseClick_eq, if_neg hb, routeClick, hcalc] at h
  split at h <;> cases h

/-- What a movement does to the window list, the drag and the calculator. -/
theorem onMouseMove_becomes (d : Desktop) (dx dy : Int) :
    (d.onMouseMove f dx dy).windows.zorder = d.windows.zorder ∧
      (d.onMouseMove f dx dy).drag = d.drag ∧
      (d.onMouseMove f dx dy).calculator = d.calculator ∧
      (d.onMouseMove f dx dy).calcWin = d.calcWin ∧
      (d.onMouseMove f dx dy).windows.win =
        if d.drag = 0 then d.windows.win
        else Function.update d.windows.win d.drag (dragged f (d.win d.drag) dx dy) := by
  unfold onMouseMove
  split <;> exact ⟨rfl, rfl, rfl, rfl, rfl⟩

end Desktop

end Kumo
