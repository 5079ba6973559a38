import Kumo.Kernel.WindowRuns

/-!
# Presses and the calculator

`calc_handle_click` repeats the hit tests of the calculator's buttons without asking
which window lies on top. A press on the body of another window that covers a button
therefore presses the button, and this is the only case.
-/

namespace Kumo

namespace Desktop

variable {f : Framebuffer}

/-- A button becomes pressed only if the calculator's window is the topmost one at the point. -/
def PressRouted (d d' : Desktop) (x y : Int) : Prop :=
  ∀ i, d'.calculator.pressed = some i →
    d.calculator.pressed = some i ∨ d.windows.Topmost d.calcWin x y

/-- The point is on a button of the calculator other than the pressed one, where another window
covers it, on neither the close button nor the title bar of the window on top. -/
def Covered (f : Framebuffer) (d : Desktop) (x y : Int) : Prop :=
  d.calcActive = true ∧
    (∃ i btn, d.buttonAt f x y = some (i, btn) ∧ d.calculator.pressed ≠ some i) ∧
    ¬ d.windows.Topmost d.calcWin x y ∧ ¬ d.OnClose x y ∧ ¬ d.OnTitle x y

/-- A press that is not offered to the calculator, or that it ignores, presses no button. -/
theorem pressRouted_of_eq {d d' : Desktop} {x y : Int}
    (h : d'.calculator.pressed = d.calculator.pressed) : PressRouted d d' x y :=
  fun _ hi => .inl (h.symm.trans hi)

/-- A press goes to the topmost window unless the calculator is covered. -/
theorem press_routed_iff (f : Framebuffer) (d : Desktop) (x y : Int) (buttons : Nat)
    (hb : buttons % 2 = 1) :
    ∃ d', d.onMouseClick f x y buttons = some d' ∧
      (PressRouted d d' x y ↔ ¬ d.Covered f x y) := by
  obtain ⟨d', hclick⟩ := d.onMouseClick_press (f := f) x y hb
  refine ⟨d', hclick, ?_⟩
  cases onMouseClick_clicked hclick with
  | close _ hclose hbecomes =>
      refine iff_of_true (pressRouted_of_eq hbecomes.pressed_eq) ?_
      rintro ⟨_, _, _, hno, _⟩
      exact hno hclose
  | grab _ _ htitle hbecomes =>
      refine iff_of_true (pressRouted_of_eq hbecomes.pressed_eq) ?_
      rintro ⟨_, _, _, _, hno⟩
      exact hno htitle
  | press _ hrouted hactive i btn hbutton hbecomes =>
      rw [Routed, if_pos hb] at hrouted
      constructor
      · rintro hrouting ⟨_, ⟨j, other, hother, hne⟩, hcovered, _⟩
        rw [hbutton] at hother
        obtain ⟨rfl, _⟩ := Prod.mk.inj (Option.some.inj hother)
        exact (hrouting i hbecomes.pressed_eq).elim hne hcovered
      · intro hclear j hj
        by_contra hno
        rw [not_or] at hno
        obtain rfl := Option.some.inj (hbecomes.pressed_eq.symm.trans hj)
        exact hclear ⟨hactive, ⟨i, btn, hbutton, hno.1⟩, hno.2, hrouted.1, hrouted.2⟩
  | drop hrelease _ _ => exact absurd hb hrelease
  | release hrelease _ _ _ _ => exact absurd hb hrelease
  | raise _ hcalc hbecomes =>
      refine iff_of_true (pressRouted_of_eq hbecomes.pressed_eq) ?_
      rintro ⟨hactive, ⟨i, btn, hbutton, _⟩, _⟩
      rw [CalcIgnores, if_pos hb] at hcalc
      rcases hcalc with hinactive | hnone
      · rw [hactive] at hinactive
        cases hinactive
      · rw [hbutton] at hnone
        cases hnone

/-- The calculator at its first place, and another window over its upper half. -/
def coveringWindows (p : Nat) : Window :=
  if p = 1 then
    { x := 500
      y := 40
      w := 240
      h := 280
      title := []
      titleBarColor := 0
      bodyColor := 0
      onRedraw := true }
  else
    { x := 480
      y := 20
      w := 280
      h := 180
      title := []
      titleBarColor := 0
      bodyColor := 0
      onRedraw := false }

/-- A press on the key 7 under the other window. -/
theorem press_routed_iff_sample :
    1 % 2 = 1 ∧ ∃ d', (start coveringWindows 1 [1, 2]).onMouseClick sampleScreen 520 120 1 = some d' ∧
      (PressRouted (start coveringWindows 1 [1, 2]) d' 520 120 ↔
        ¬ (start coveringWindows 1 [1, 2]).Covered sampleScreen 520 120) :=
  ⟨by decide, press_routed_iff sampleScreen _ 520 120 1 (by decide)⟩

/-- A press at a point that belongs to the covering window presses the key 7. -/
theorem press_misrouted : ¬ ∀ (f : Framebuffer) (d d' : Desktop) (x y : Int) (buttons : Nat),
    buttons % 2 = 1 → d.onMouseClick f x y buttons = some d' → PressRouted d d' x y := by
  intro hclaim
  have hpressed : ((start coveringWindows 1 [1, 2]).onMouseClick sampleScreen 520 120 1).map
      (fun d => d.calculator.pressed) = some (some 0) := by decide +kernel
  obtain ⟨d', hclick, hpressed'⟩ := Option.map_eq_some_iff.mp hpressed
  have hfound : (start coveringWindows 1 [1, 2]).windows.wmFindWindowAt 520 120 = 2 := by
    decide +kernel
  rcases hclaim _ _ d' 520 120 1 rfl hclick 0 hpressed' with hbefore | htop
  · cases hbefore
  · rw [← WindowList.wmFindWindowAt_eq_iff _ (by decide), hfound] at htop
    exact absurd htop (by decide)

end Desktop

end Kumo
