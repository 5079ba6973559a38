import Mathlib.Data.List.Perm.Basic
import Kumo.Kernel.Clicks
import Kumo.Lib.Transition

/-!
# The window list over whole runs

In every run of clicks and movements the list holds each window that was not closed
exactly once, and the dragged window is one of them. A click keeps the order, moves one
window to the end, or takes out the window whose close button it hits.
-/

namespace Kumo

namespace Desktop

variable {f : Framebuffer}

/-- A call of `on_mouse_click` or of `on_mouse_move`. -/
inductive Input where
  | click (x y : Int) (buttons : Nat)
  | move (dx dy : Int)

/-- One call. -/
def input (f : Framebuffer) (d : Desktop) : Input → Option Desktop
  | .click x y buttons => d.onMouseClick f x y buttons
  | .move dx dy => some (d.onMouseMove f dx dy)

/-- The window whose close button a call presses. -/
def closedBy (d : Desktop) : Input → List Nat
  | .click x y buttons => if buttons % 2 = 1 ∧ d.OnClose x y then [d.hit x y] else []
  | .move _ _ => []

/-- The windows whose close buttons were pressed in a run. -/
def closings (f : Framebuffer) : Desktop → List Input → List Nat
  | _, [] => []
  | d, event :: events =>
      d.closedBy event ++
        match d.input f event with
        | some next => closings f next events
        | none => []

/-- The list has no duplicate and no null pointer, and a dragged window is in it. -/
structure Arranged (d : Desktop) : Prop where
  nodup : d.windows.zorder.Nodup
  nonnull : 0 ∉ d.windows.zorder
  drag : d.drag = 0 ∨ d.drag ∈ d.windows.zorder

/-- What a call does to the stacking order. -/
inductive Rearranged (d : Desktop) (event : Input) (d' : Desktop) : Prop where
  | kept (hclosed : d.closedBy event = []) (horder : d'.windows.zorder = d.windows.zorder)
  | raised (hclosed : d.closedBy event = []) (p : Nat) (hp : p ∈ d.windows.zorder)
      (horder : d'.windows.zorder = d.windows.zorder.filter (· != p) ++ [p])
  | closed (p : Nat) (hclosed : d.closedBy event = [p]) (hp : p ∈ d.windows.zorder)
      (horder : d'.windows.zorder = d.windows.zorder.filter (· != p))

theorem mem_filter_ne {xs : List Nat} {p q : Nat} :
    q ∈ xs.filter (· != p) ↔ q ∈ xs ∧ q ≠ p := by
  rw [List.mem_filter, bne_iff_ne]

theorem nodup_moveToEnd {xs : List Nat} (h : xs.Nodup) (p : Nat) :
    (xs.filter (· != p) ++ [p]).Nodup := by
  refine (h.filter _).append (List.nodup_singleton p) ?_
  rw [List.disjoint_singleton, mem_filter_ne]
  exact fun hp => hp.2 rfl

theorem mem_moveToEnd {xs : List Nat} {p q : Nat} (hp : p ∈ xs) :
    q ∈ xs.filter (· != p) ++ [p] ↔ q ∈ xs := by
  rw [List.mem_append, mem_filter_ne, List.mem_singleton]
  constructor
  · rintro (h | rfl)
    · exact h.1
    · exact hp
  · intro hq
    by_cases hqp : q = p
    · exact .inr hqp
    · exact .inl ⟨hq, hqp⟩

/-- A raised window leaves the list well formed. -/
theorem Arranged.raise {d d' : Desktop} (h : d.Arranged) {p : Nat} (hp : p ∈ d.windows.zorder)
    (horder : d'.windows.zorder = d.windows.zorder.filter (· != p) ++ [p])
    (hdrag : d'.drag = 0 ∨ d'.drag ∈ d.windows.zorder) : d'.Arranged where
  nodup := by
    rw [horder]
    exact nodup_moveToEnd h.nodup p
  nonnull := by
    rw [horder, mem_moveToEnd hp]
    exact h.nonnull
  drag := by
    rw [horder, mem_moveToEnd hp]
    exact hdrag

/-- A call that keeps the order leaves the list well formed. -/
theorem Arranged.keep {d d' : Desktop} (h : d.Arranged)
    (horder : d'.windows.zorder = d.windows.zorder)
    (hdrag : d'.drag = 0 ∨ d'.drag ∈ d.windows.zorder) : d'.Arranged where
  nodup := by
    rw [horder]
    exact h.nodup
  nonnull := by
    rw [horder]
    exact h.nonnull
  drag := by
    rw [horder]
    exact hdrag

/-- The topmost window at a point is in the list. -/
theorem hit_mem {d : Desktop} {x y : Int} (h : d.hit x y ≠ 0) : d.hit x y ∈ d.windows.zorder :=
  WindowList.wmFindWindowAt_mem h

/-- One click. -/
theorem Clicked.arranged {d d' : Desktop} {x y : Int} {buttons : Nat} (h : d.Arranged)
    (hclick : Clicked f d x y buttons d') :
    d'.Arranged ∧ Rearranged d (.click x y buttons) d' := by
  have hrouted : d.Routed x y buttons → d.closedBy (.click x y buttons) = [] := by
    intro hrouted
    refine if_neg fun hclose => ?_
    rw [Routed, if_pos hclose.1] at hrouted
    exact hrouted.1 hclose.2
  cases hclick with
  | close hpress hclose hbecomes =>
      have hp := hit_mem hclose.1
      have horder := WindowList.zorder_removeWindow h.nodup hp
      rw [← hbecomes.windows_eq] at horder
      refine ⟨⟨?_, ?_, ?_⟩, .closed (d.hit x y) (if_pos ⟨hpress, hclose⟩) hp horder⟩
      · rw [horder]
        exact h.nodup.filter _
      · rw [horder, mem_filter_ne]
        exact fun hnull => h.nonnull hnull.1
      · rw [hbecomes.drag_eq, horder]
        split
        · exact .inl rfl
        · next hne => exact h.drag.imp_right fun hmem => mem_filter_ne.mpr ⟨hmem, hne⟩
  | grab hpress hclose htitle hbecomes =>
      have hp := hit_mem htitle.1
      have horder := WindowList.zorder_bringToTop h.nodup hp
      rw [← hbecomes.windows_eq] at horder
      refine ⟨h.raise hp horder (.inr ?_),
        .raised (if_neg fun hboth => hclose hboth.2) _ hp horder⟩
      rw [hbecomes.drag_eq]
      exact hp
  | press _ hr _ _ _ _ hbecomes =>
      have horder := congrArg WindowList.zorder hbecomes.windows_eq
      refine ⟨h.keep horder ?_, .kept (hrouted hr) horder⟩
      rw [hbecomes.drag_eq]
      exact h.drag
  | drop hrelease _ hbecomes =>
      have horder := congrArg WindowList.zorder hbecomes.windows_eq
      exact ⟨h.keep horder (.inl hbecomes.drag_eq),
        .kept (if_neg fun hboth => hrelease hboth.1) horder⟩
  | release _ hr _ _ hbecomes =>
      have horder := congrArg WindowList.zorder hbecomes.windows_eq
      refine ⟨h.keep horder ?_, .kept (hrouted hr) horder⟩
      rw [hbecomes.drag_eq]
      exact h.drag
  | raise hr _ hbecomes =>
      have horder := WindowList.zorder_handleClick h.nodup h.nonnull x y
      rw [← hbecomes.windows_eq] at horder
      have hdrag : d'.drag = 0 ∨ d'.drag ∈ d.windows.zorder := by
        rw [hbecomes.drag_eq]
        exact h.drag
      by_cases hhit : d.windows.wmFindWindowAt x y = 0
      · rw [if_pos hhit] at horder
        exact ⟨h.keep horder hdrag, .kept (hrouted hr) horder⟩
      · rw [if_neg hhit] at horder
        have hp := WindowList.wmFindWindowAt_mem hhit
        exact ⟨h.raise hp horder hdrag, .raised (hrouted hr) _ hp horder⟩

/-- One call. -/
theorem input_arranged {d d' : Desktop} {event : Input} (h : d.Arranged)
    (hstep : d.input f event = some d') : d'.Arranged ∧ Rearranged d event d' := by
  cases event with
  | click x y buttons => exact (onMouseClick_clicked hstep).arranged h
  | move dx dy =>
      obtain rfl := Option.some.inj hstep
      obtain ⟨horder, hdrag, _⟩ := d.onMouseMove_becomes (f := f) dx dy
      refine ⟨h.keep horder ?_, .kept rfl horder⟩
      rw [hdrag]
      exact h.drag

/-- A call takes out the windows it closes, and no other. -/
theorem Rearranged.mem_iff {d d' : Desktop} {event : Input} (h : Rearranged d event d') (q : Nat) :
    q ∈ d'.windows.zorder ↔ q ∈ d.windows.zorder ∧ q ∉ d.closedBy event := by
  cases h with
  | kept hclosed horder => simp [hclosed, horder]
  | raised hclosed p hp horder => rw [horder, mem_moveToEnd hp, hclosed]; simp
  | closed p hclosed hp horder => rw [horder, mem_filter_ne, hclosed, List.mem_singleton]

/-- After a run the list holds the windows that were not closed. -/
theorem run_mem_iff {d final : Desktop} {events : List Input} (h : d.Arranged)
    (hrun : Transition.run (input f) d events = some final) (q : Nat) :
    q ∈ final.windows.zorder ↔ q ∈ d.windows.zorder ∧ q ∉ closings f d events := by
  induction events generalizing d with
  | nil =>
      obtain rfl := Option.some.inj hrun
      simp [closings]
  | cons event events ih =>
      obtain ⟨next, hnext, hrest⟩ := Option.bind_eq_some_iff.mp hrun
      obtain ⟨harranged, hstep⟩ := input_arranged h hnext
      rw [ih harranged hrest, hstep.mem_iff, closings, hnext, List.mem_append, not_or, and_assoc]

/-- The windows added at the start. -/
theorem start_zorder (win : Nat → Window) (calcWin : Nat) {ps : List Nat}
    (hroom : ps.length ≤ maxWindows) : (start win calcWin ps).windows.zorder = ps :=
  (WindowList.zorder_addWindows ps { win := win, slots := fun _ => 0, count := 0 }
    (by simpa using hroom)).1.trans (List.nil_append ps)

theorem start_win (win : Nat → Window) (calcWin : Nat) {ps : List Nat}
    (hroom : ps.length ≤ maxWindows) : (start win calcWin ps).windows.win = win :=
  (WindowList.zorder_addWindows ps { win := win, slots := fun _ => 0, count := 0 }
    (by simpa using hroom)).2

theorem start_arranged (win : Nat → Window) (calcWin : Nat) {ps : List Nat}
    (hnodup : ps.Nodup) (hnull : 0 ∉ ps) (hroom : ps.length ≤ maxWindows) :
    (start win calcWin ps).Arranged := by
  have horder := start_zorder win calcWin hroom
  exact ⟨by rwa [horder], by rwa [horder], .inl rfl⟩

/-- In every run of clicks and movements each call keeps the order of the windows, moves one of
them to the end, or takes out the one whose close button it presses; the list always holds the
windows not yet closed, each once, and a dragged window is in it. -/
theorem windows_arranged (f : Framebuffer) (win : Nat → Window) (calcWin : Nat) (ps : List Nat)
    (hnodup : ps.Nodup) (hnull : 0 ∉ ps) (hroom : ps.length ≤ maxWindows)
    (events : List Input) :
    Transition.Along (input f) Rearranged (start win calcWin ps) events ∧
      ∀ final, Transition.run (input f) (start win calcWin ps) events = some final →
        final.Arranged ∧ final.windows.zorder.Perm
          (ps.filter (· ∉ closings f (start win calcWin ps) events)) := by
  have hstart := start_arranged win calcWin hnodup hnull hroom
  have hstep : ∀ d event d', d.Arranged → d.input f event = some d' →
      d'.Arranged ∧ Rearranged d event d' := fun _ _ _ hinv hnext => input_arranged hinv hnext
  refine ⟨Transition.along_of_preserved hstep hstart events, fun final hrun => ?_⟩
  have hfinal := Transition.run_invariant (fun d e d' h hn => (hstep d e d' h hn).1) hstart hrun
  refine ⟨hfinal, ?_⟩
  refine (List.perm_ext_iff_of_nodup hfinal.nodup (hnodup.filter _)).mpr fun q => ?_
  rw [run_mem_iff hstart hrun, start_zorder win calcWin hroom, List.mem_filter, decide_eq_true_iff]

/-- Windows side by side, 250 pixels apart. -/
def sampleWindows (p : Nat) : Window where
  x := 250 * p
  y := 60
  w := 220
  h := 160
  title := []
  titleBarColor := 0
  bodyColor := 0
  onRedraw := false

/-- Two windows: the lower one is raised, then the other one is closed. -/
theorem windows_arranged_sample :
    ((Transition.run (input sampleScreen) (start sampleWindows 0 [1, 2])
        [.click 300 150 1, .click 710 70 1]).map fun d => d.windows.zorder) = some [1] ∧
      ∀ final, Transition.run (input sampleScreen) (start sampleWindows 0 [1, 2])
          [.click 300 150 1, .click 710 70 1] = some final →
        final.Arranged ∧ final.windows.zorder.Perm ([1, 2].filter
          (· ∉ closings sampleScreen (start sampleWindows 0 [1, 2])
            [.click 300 150 1, .click 710 70 1])) :=
  ⟨by decide +kernel, (windows_arranged sampleScreen sampleWindows 0 [1, 2] (by decide) (by decide)
    (by decide) [.click 300 150 1, .click 710 70 1]).2⟩

end Desktop

end Kumo
