import Kumo.Kernel.CalcRouting
import Kumo.Kernel.Sessions

/-!
# Presses of the left button

The driver reports every change of the three buttons, and `on_mouse_click` looks at the
left one only. A release of the left button outside a drag is handed to
`wm_handle_click`, and a change of another button while the left one is held is taken
for another press. `Harmless` says when this rearranges nothing.
-/

namespace Kumo

namespace Desktop

variable {f : Framebuffer}

/-- No window is raised or closed, no drag begins and no other button becomes pressed. -/
structure Undisturbed (d d' : Desktop) : Prop where
  order : d'.windows.zorder = d.windows.zorder
  drag : d'.drag = 0 ∨ d'.drag = d.drag
  pressed : ∀ i, d'.calculator.pressed = some i → d.calculator.pressed = some i

/-- A point is on no window, or on the window at the top of the list. -/
def OnTop (d : Desktop) (x y : Int) : Prop :=
  d.hit x y = 0 ∨ d.windows.zorder.getLast? = some (d.hit x y)

/-- A calculator button other than the pressed one is at a point. -/
def OnOtherButton (f : Framebuffer) (d : Desktop) (x y : Int) : Prop :=
  ∃ i btn, d.buttonAt f x y = some (i, btn) ∧ d.calculator.pressed ≠ some i

/-- What a click has to meet to rearrange nothing. With the left button up: a drag is in progress,
a button of the calculator is pressed, or the click raises no window. With the left button down:
the click is not on a close button; on a title bar, it is the title bar of the dragged window, at
the top of the list; elsewhere, the calculator's button there is the pressed one or, without one,
the click raises no window. -/
def Harmless (f : Framebuffer) (d : Desktop) (x y : Int) (buttons : Nat) : Prop :=
  if buttons % 2 = 1 then
    ¬ d.OnClose x y ∧
      if d.OnTitle x y then d.OnTop x y ∧ d.drag = d.hit x y
      else if d.CalcIgnores f x y buttons then d.OnTop x y
      else ¬ d.OnOtherButton f x y
  else d.drag ≠ 0 ∨ ¬ d.CalcIgnores f x y buttons ∨ d.OnTop x y

/-- Moving a window to the end of the list changes the list unless it is there. -/
theorem moveToEnd_eq_iff {xs : List Nat} (hnodup : xs.Nodup) (p : Nat) :
    xs.filter (· != p) ++ [p] = xs ↔ xs.getLast? = some p := by
  constructor
  · intro h
    rw [← h, List.getLast?_append]
    rfl
  · intro h
    obtain ⟨ys, rfl⟩ := List.getLast?_eq_some_iff.mp h
    have hnot : p ∉ ys := by
      have hdisjoint := (List.nodup_append.mp hnodup).2.2
      exact fun hp => hdisjoint p hp p (List.mem_singleton_self p) rfl
    rw [List.filter_append, List.filter_eq_self.mpr fun q hq => ?_]
    · simp
    · rw [bne_iff_ne]
      exact fun heq => hnot (heq ▸ hq)

/-- A click that is left to the window manager disturbs nothing exactly if it raises nothing. -/
theorem undisturbed_raise_iff {d d' : Desktop} {x y : Int} (h : d.Arranged)
    (hbecomes : d.Becomes d' (d.windows.wmHandleClick x y).1 d.drag d.calculator.pressed) :
    Undisturbed d d' ↔ d.OnTop x y := by
  have horder := WindowList.zorder_handleClick h.nodup h.nonnull x y
  rw [← hbecomes.windows_eq] at horder
  have hiff : d'.windows.zorder = d.windows.zorder ↔ d.OnTop x y := by
    unfold OnTop hit
    by_cases hhit : d.windows.wmFindWindowAt x y = 0
    · rw [if_pos hhit] at horder
      exact iff_of_true horder (.inl hhit)
    · rw [if_neg hhit] at horder
      rw [horder, moveToEnd_eq_iff h.nodup]
      exact ⟨.inr, fun hor => hor.resolve_left hhit⟩
  rw [← hiff]
  exact ⟨fun hund => hund.order,
    fun hsame => ⟨hsame, .inr hbecomes.drag_eq, fun i hi => hbecomes.pressed_eq ▸ hi⟩⟩

/-- A click disturbs nothing exactly if it is harmless. -/
theorem Clicked.undisturbed_iff {d d' : Desktop} {x y : Int} {buttons : Nat} (h : d.Arranged)
    (hclick : Clicked f d x y buttons d') :
    Undisturbed d d' ↔ d.Harmless f x y buttons := by
  unfold Harmless
  cases hclick with
  | close hpress hclose hbecomes =>
      rw [if_pos hpress]
      refine iff_of_false (fun hund => ?_) (fun hharm => hharm.1 hclose)
      have horder := WindowList.zorder_removeWindow h.nodup (hit_mem hclose.1)
      rw [← hbecomes.windows_eq, hund.order] at horder
      have hmem := hit_mem hclose.1
      rw [horder, mem_filter_ne] at hmem
      exact hmem.2 rfl
  | grab hpress hclose htitle hbecomes =>
      rw [if_pos hpress, if_pos htitle]
      have horder := WindowList.zorder_bringToTop h.nodup (hit_mem htitle.1)
      rw [← hbecomes.windows_eq] at horder
      constructor
      · intro hund
        have hlast := (moveToEnd_eq_iff h.nodup _).mp (horder.symm.trans hund.order)
        refine ⟨hclose, .inr hlast, ?_⟩
        rcases hund.drag with hzero | hsame
        · exact absurd (hbecomes.drag_eq.symm.trans hzero) htitle.1
        · exact hsame.symm.trans hbecomes.drag_eq
      · rintro ⟨_, htop, hdrag⟩
        refine ⟨?_, .inr (hbecomes.drag_eq.trans hdrag.symm), fun i hi => hbecomes.pressed_eq ▸ hi⟩
        rw [horder, moveToEnd_eq_iff h.nodup]
        exact htop.resolve_left htitle.1
  | press hpress hrouted hactive i btn hbutton hbecomes =>
      have hno : ¬ d.CalcIgnores f x y buttons := by
        rintro (hinactive | hnone)
        · rw [hactive] at hinactive
          cases hinactive
        · rw [if_pos hpress, hbutton] at hnone
          cases hnone
      rw [Routed, if_pos hpress] at hrouted
      rw [if_pos hpress, if_neg hrouted.2, if_neg hno]
      constructor
      · intro hund
        refine ⟨hrouted.1, ?_⟩
        rintro ⟨j, other, hother, hne⟩
        rw [hbutton] at hother
        obtain ⟨rfl, _⟩ := Prod.mk.inj (Option.some.inj hother)
        exact hne (hund.pressed i hbecomes.pressed_eq)
      · rintro ⟨_, hother⟩
        refine ⟨congrArg WindowList.zorder hbecomes.windows_eq, .inr hbecomes.drag_eq, ?_⟩
        intro j hj
        obtain rfl := Option.some.inj (hbecomes.pressed_eq.symm.trans hj)
        by_contra hne
        exact hother ⟨i, btn, hbutton, hne⟩
  | drop hrelease hdrag hbecomes =>
      rw [if_neg hrelease]
      exact iff_of_true ⟨congrArg WindowList.zorder hbecomes.windows_eq, .inl hbecomes.drag_eq,
        fun i hi => hbecomes.pressed_eq ▸ hi⟩ (.inl hdrag)
  | release hrelease hrouted hactive hbutton hbecomes =>
      have hno : ¬ d.CalcIgnores f x y buttons := by
        rintro (hinactive | hnone)
        · rw [hactive] at hinactive
          cases hinactive
        · rw [if_neg hrelease] at hnone
          exact hbutton hnone
      rw [if_neg hrelease]
      refine iff_of_true ⟨congrArg WindowList.zorder hbecomes.windows_eq, .inr hbecomes.drag_eq,
        fun i hi => ?_⟩ (.inr (.inl hno))
      rw [hbecomes.pressed_eq] at hi
      cases hi
  | raise hrouted hcalc hbecomes =>
      rw [undisturbed_raise_iff h hbecomes]
      by_cases hb : buttons % 2 = 1
      · rw [Routed, if_pos hb] at hrouted
        rw [if_pos hb, if_neg hrouted.2, if_pos hcalc]
        exact ⟨fun htop => ⟨hrouted.1, htop⟩, fun hharm => hharm.2⟩
      · rw [Routed, if_neg hb] at hrouted
        rw [if_neg hb]
        exact ⟨fun htop => .inr (.inr htop), fun hharm => (hharm.resolve_left
          (not_not.mpr hrouted)).resolve_left (not_not.mpr hcalc)⟩

/-- A packet in which the left button goes from released to pressed. -/
def LeftPressed (m : Mouse) (p : Packet) : Prop := m.lastButtons % 2 = 0 ∧ p.buttons % 2 = 1

/-- What the packets other than presses of the left button, and the flushes, must not do. -/
def OnlyLeftPress (s : Session) (event : SessionEvent) (s' : Session) : Prop :=
  match event with
  | .packet p => LeftPressed s.1 p ∨ Undisturbed s.2 s'.2
  | .flush => Undisturbed s.2 s'.2

/-- A packet that presses the left button, changes no button, or is harmless. -/
def HarmlessEvent (f : Framebuffer) (s : Session) (event : SessionEvent) : Prop :=
  match event with
  | .packet p => s.1.firstPacket = true ∨ p.buttons = s.1.lastButtons ∨ LeftPressed s.1 p ∨
      s.2.Harmless f s.1.cursorX s.1.cursorY p.buttons
  | .flush => True

theorem Undisturbed.refl (d : Desktop) : Undisturbed d d := ⟨rfl, .inr rfl, fun _ h => h⟩

/-- The movement of a packet does not matter. -/
theorem undisturbed_movePart_iff (m : Mouse) (d clicked : Desktop) (p : Packet) :
    Undisturbed d (clicked.movePart f m p) ↔ Undisturbed d clicked := by
  obtain ⟨horder, hdrag, hcalc, _⟩ := movePart_becomes (f := f) m clicked p
  constructor
  · rintro ⟨h1, h2, h3⟩
    rw [horder] at h1
    rw [hdrag] at h2
    rw [hcalc] at h3
    exact ⟨h1, h2, h3⟩
  · rintro ⟨h1, h2, h3⟩
    exact ⟨by rw [horder, h1], by rw [hdrag]; exact h2, by rw [hcalc]; exact h3⟩

/-- An event is harmless exactly if it does only what it may. -/
theorem onlyLeftPress_iff {s : Session} (h : s.Settled) (event : SessionEvent) :
    (∀ s', Session.step f s event = some s' → OnlyLeftPress s event s') ↔
      HarmlessEvent f s event := by
  obtain ⟨m, d⟩ := s
  cases event with
  | flush =>
      refine iff_of_true (fun s' hstep => ?_) trivial
      obtain rfl := Option.some.inj hstep
      obtain ⟨hwindows, hdrag, hcalc⟩ := wmFlushDirty_becomes (f := f) d
      exact ⟨congrArg WindowList.zorder hwindows, .inr hdrag,
        fun i hi => (congrArg Calc.pressed hcalc).symm.trans hi⟩
  | packet p =>
      by_cases hfirst : m.firstPacket = true
      · obtain ⟨m', heq, _⟩ := step_discard (f := f) d p h.cycle hfirst
        refine iff_of_true (fun s' hstep => ?_) (.inl hfirst)
        obtain rfl := Option.some.inj (heq.symm.trans hstep)
        exact .inr (.refl d)
      obtain ⟨m', heq, _⟩ := step_process (f := f) d p h.cycle (Bool.eq_false_iff.mpr hfirst)
      by_cases hsame : p.buttons = m.lastButtons
      · refine iff_of_true (fun s' hstep => ?_) (.inr (.inl hsame))
        rw [heq, clickPart, if_pos hsame] at hstep
        obtain rfl := Option.some.inj hstep
        exact .inr ((undisturbed_movePart_iff m d d p).mpr (.refl d))
      by_cases hleft : LeftPressed m p
      · exact iff_of_true (fun s' _ => .inl hleft) (.inr (.inr (.inl hleft)))
      -- what is left is a click that is not a press of the left button
      have hevent : HarmlessEvent f (m, d) (.packet p) ↔
          d.Harmless f m.cursorX m.cursorY p.buttons := by
        refine ⟨fun hor => ?_, fun hharm => .inr (.inr (.inr hharm))⟩
        exact ((hor.resolve_left hfirst).resolve_left hsame).resolve_left hleft
      rw [hevent]
      cases hclick : d.onMouseClick f m.cursorX m.cursorY p.buttons with
      | none =>
          obtain ⟨hrelease, hcalc⟩ := onMouseClick_none hclick
          refine iff_of_true (fun s' hstep => ?_) ?_
          · rw [heq, clickPart, if_neg hsame, hclick] at hstep
            cases hstep
          · rw [Harmless, if_neg hrelease]
            exact .inr (.inl hcalc)
      | some clicked =>
          have hstep : Session.step f (m, d) (.packet p) = some (m', clicked.movePart f m p) := by
            rw [heq, clickPart, if_neg hsame, hclick, Option.map_some]
          rw [← (onMouseClick_clicked hclick).undisturbed_iff h.arranged,
            ← undisturbed_movePart_iff m d clicked p]
          constructor
          · exact fun hall => (hall _ hstep).resolve_left hleft
          · rintro hund s' hstep'
            obtain rfl := Option.some.inj (hstep.symm.trans hstep')
            exact .inr hund

/-- In a run of packets and flushes only presses of the left button rearrange windows, begin drags
or press other buttons if and only if every other packet of it is harmless. -/
theorem only_left_press_iff (f : Framebuffer) (x y : Int) (win : Nat → Window) (calcWin : Nat)
    (ps : List Nat) (hnodup : ps.Nodup) (hnull : 0 ∉ ps) (hroom : ps.length ≤ maxWindows)
    (events : List SessionEvent) :
    Transition.Along (Session.step f) OnlyLeftPress
        (Mouse.start x y, Desktop.start win calcWin ps) events ↔
      Transition.Meets (Session.step f) (HarmlessEvent f)
        (Mouse.start x y, Desktop.start win calcWin ps) events :=
  Transition.along_iff_meets (fun _ _ _ hinv hnext _ => hinv.step hnext)
    (fun _ event hinv => onlyLeftPress_iff hinv event) events
    ⟨rfl, start_arranged win calcWin hnodup hnull hroom⟩

/-- A press of the right button over the lower of two windows. -/
def rightPress : List SessionEvent :=
  [.packet (.still 0), .packet (.still 2)]

theorem only_left_press_iff_sample :
    [1, 2].Nodup ∧ 0 ∉ [1, 2] ∧ [1, 2].length ≤ maxWindows ∧
      (Transition.Along (Session.step sampleScreen) OnlyLeftPress
          (Mouse.start 300 150, Desktop.start sampleWindows 3 [1, 2]) rightPress ↔
        Transition.Meets (Session.step sampleScreen) (HarmlessEvent sampleScreen)
          (Mouse.start 300 150, Desktop.start sampleWindows 3 [1, 2]) rightPress) :=
  ⟨by decide, by decide, by decide, only_left_press_iff sampleScreen 300 150 sampleWindows 3 [1, 2]
    (by decide) (by decide) (by decide) rightPress⟩

/-- A press of the right button raises a window. -/
theorem right_press_raises : ¬ ∀ (f : Framebuffer) (x y : Int) (win : Nat → Window)
    (calcWin : Nat) (ps : List Nat) (events : List SessionEvent), ps.Nodup → 0 ∉ ps →
      ps.length ≤ maxWindows → Transition.Along (Session.step f) OnlyLeftPress
        (Mouse.start x y, Desktop.start win calcWin ps) events := by
  intro hclaim
  have halong := hclaim sampleScreen 300 150 sampleWindows 3 [1, 2] rightPress (by decide)
    (by decide) (by decide)
  have horder : (Transition.run (Session.step sampleScreen)
      (Mouse.start 300 150, Desktop.start sampleWindows 3 [1, 2]) rightPress).map
        (fun s => s.2.windows.zorder) = some [2, 1] := by decide +kernel
  obtain ⟨final, hrun, hfinal⟩ := Option.map_eq_some_iff.mp horder
  obtain ⟨middle, hmiddle, hrest⟩ := Option.bind_eq_some_iff.mp hrun
  obtain ⟨last, hlast, hdone⟩ := Option.bind_eq_some_iff.mp hrest
  obtain rfl := Option.some.inj hdone
  have hfirst : middle.1.lastButtons = 0 ∧ middle.2.windows.zorder = [1, 2] := by
    have hall : (Session.step sampleScreen (Mouse.start 300 150, Desktop.start sampleWindows 3 [1, 2])
        (.packet (.still 0))).map
          (fun s => (s.1.lastButtons, s.2.windows.zorder)) = some (0, [1, 2]) := by decide +kernel
    rw [hmiddle] at hall
    exact Prod.mk.inj (Option.some.inj hall)
  rcases (halong middle hmiddle).2 last hlast with hleft | hund
  · exact absurd hleft.2 (by decide)
  · have hsame := hund.order
    rw [hfinal, hfirst.2] at hsame
    exact absurd hsame (by decide)

end Desktop

end Kumo
