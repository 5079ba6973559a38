import Kumo.Kernel.Damage

/-!
# No damage is lost

Interrupts run between any two steps of the idle loop: after `wm_has_dirty`, between the
two `cli` sections of `wm_flush_dirty`, and after the repaint. The boxes marked since
the last snapshot and the snapshots are recorded beside the state; the code does not
read them.
-/

namespace Kumo

namespace Desktop

variable {f : Framebuffer}

/-- What the idle loop does next. -/
inductive IdleLoop where
  | check
  | flush
  | repaint (snap : Dirty)

/-- The desktop and the idle loop, the clipped boxes marked since the last snapshot, and the
snapshots taken so far. -/
structure DamageState where
  desktop : Desktop
  loop : IdleLoop
  marks : List IntBox
  snaps : List Dirty

/-- A mouse callback runs in an interrupt, or the idle loop takes a step. -/
inductive DamageEvent where
  | interrupt (event : Input)
  | idle

/-- The pixels of a window, its border included. -/
def footprint (w : Window) : IntBox := ⟨w.x, w.x + w.w + 1, w.y, w.y + w.h + 1⟩

/-- The boxes a call marks, clipped to the screen: the footprints of the dragged window before and
after a movement. -/
def marked (f : Framebuffer) (d d' : Desktop) : Input → List IntBox
  | .click _ _ _ => []
  | .move _ _ =>
      if d.drag = 0 then []
      else ([footprint (d.win d.drag), footprint (d'.win d.drag)].map (·.clip f.box)).filter
        (·.Nonempty)

/-- One event. -/
def damageStep (f : Framebuffer) (s : DamageState) : DamageEvent → Option DamageState
  | .interrupt event => (s.desktop.input f event).map fun d =>
      { s with desktop := d, marks := s.marks ++ marked f s.desktop d event }
  | .idle =>
      match s.loop with
      | .check => some { s with loop := if s.desktop.wmHasDirty then .flush else .check }
      | .flush =>
          match s.desktop.snapshot with
          | (some snap, d) =>
              some { desktop := d, loop := .repaint snap, marks := [], snaps := s.snaps ++ [snap] }
          | (none, d) => some { s with desktop := d, loop := .check }
      | .repaint snap => some { s with desktop := s.desktop.repaint f snap, loop := .check }

/-- The pending rectangle is on the screen, and the bounding box of the boxes marked since the last
snapshot. -/
structure Bounding (f : Framebuffer) (marks : List IntBox) (dirty : Dirty) : Prop where
  onScreen : dirty.valid = true → OnScreen f dirty.box
  lub : dirty.valid = true → IsLUB {b | b ∈ marks} dirty.box
  valid_iff : dirty.valid = true ↔ marks ≠ []

/-- One mark keeps the bounding box. -/
theorem Bounding.mark (hfw : f.width < 2 ^ 30) (hfh : f.height < 2 ^ 30) {marks : List IntBox}
    {dirty : Dirty} (h : Bounding f marks dirty) {x y : Int}
    (hx : -2 ^ 31 ≤ x ∧ x < 2 ^ 31) (hy : -2 ^ 31 ≤ y ∧ y < 2 ^ 31) (w h' : Nat)
    (hw : w ≤ 2 ^ 30) (hh : h' ≤ 2 ^ 30) :
    Bounding f (marks ++ [(rect x y w h').clip f.box].filter (·.Nonempty))
      (markDirty f dirty x y w h') := by
  obtain ⟨hempty, hfull⟩ := markDirty_spec hfw hfh h.onScreen hx hy hw hh
  by_cases hne : ((rect x y w h').clip f.box).Nonempty
  · obtain ⟨hvalid, hbox⟩ := hfull hne
    rw [List.filter_cons_of_pos (by simpa using hne), List.filter_nil]
    have hset : {b | b ∈ marks ++ [(rect x y w h').clip f.box]} =
        insert ((rect x y w h').clip f.box) {b | b ∈ marks} := by
      ext b
      simp [or_comm]
    by_cases hold : dirty.valid = true
    · rw [if_pos hold, sup_comm] at hbox
      refine ⟨fun _ => ?_, fun _ => ?_, iff_of_true hvalid (by simp)⟩
      · rw [hbox]
        exact ⟨sup_le (IntBox.clip_le_right _ _) (h.onScreen hold).1, hne.sup⟩
      · rw [hset, hbox]
        exact (h.lub hold).insert _
    · rw [if_neg hold] at hbox
      have hnil : marks = [] := by
        by_contra hmarks
        exact hold (h.valid_iff.mpr hmarks)
      refine ⟨fun _ => ?_, fun _ => ?_, iff_of_true hvalid (by simp)⟩
      · rw [hbox]
        exact ⟨IntBox.clip_le_right _ _, hne⟩
      · rw [hset, hbox, hnil]
        simp
  · rw [hempty hne, List.filter_cons_of_neg (by simpa using hne), List.filter_nil,
      List.append_nil]
    exact h

/-- A window whose sizes are below `2 ^ 30` and whose position is a pair of `int32_t`. -/
def Sized (w : Window) : Prop :=
  w.w < 2 ^ 30 ∧ w.h < 2 ^ 30 ∧ (-2 ^ 31 ≤ w.x ∧ w.x < 2 ^ 31) ∧ -2 ^ 31 ≤ w.y ∧ w.y < 2 ^ 31

instance (w : Window) : Decidable (Sized w) :=
  inferInstanceAs (Decidable (_ ∧ _ ∧ (_ ∧ _) ∧ _ ∧ _))

/-- What holds between any two events. -/
structure DamageState.Tracked (f : Framebuffer) (s : DamageState) : Prop where
  arranged : s.desktop.Arranged
  sized : ∀ p ∈ s.desktop.windows.zorder, Sized (s.desktop.win p)
  bounding : Bounding f s.marks s.desktop.dirty

/-- A clamped coordinate is an `int32_t`. -/
theorem clampCursor_bounds (v : Int) (screen cursor : Nat) :
    -2 ^ 31 ≤ clampCursor (wrap32 v) screen cursor ∧
      clampCursor (wrap32 v) screen cursor < 2 ^ 31 := by
  have hv := wrap32_bounds v
  have hlimit := wrap32_bounds (wrap32 screen - cursor)
  unfold clampCursor
  dsimp only
  split <;> split <;> omega

theorem sized_dragged {w : Window} (h : Sized w) (dx dy : Int) : Sized (dragged f w dx dy) :=
  ⟨h.1, h.2.1, clampCursor_bounds _ _ _, clampCursor_bounds _ _ _⟩

/-- A movement extends the dirty rectangle by both footprints. -/
theorem move_bounding (hfw : f.width < 2 ^ 30) (hfh : f.height < 2 ^ 30) {d : Desktop}
    {marks : List IntBox} (h : Bounding f marks d.dirty) (hsized : d.drag ≠ 0 → Sized (d.win d.drag))
    (dx dy : Int) :
    Bounding f (marks ++ marked f d (d.onMouseMove f dx dy) (.move dx dy))
      (d.onMouseMove f dx dy).dirty := by
  by_cases hdrag : d.drag = 0
  · rw [marked, if_pos hdrag, List.append_nil, onMouseMove, if_pos hdrag]
    exact h
  obtain ⟨hw, hh, hx, hy⟩ := hsized hdrag
  obtain ⟨_, _, hx', hy'⟩ := sized_dragged (f := f) (hsized hdrag) dx dy
  have hnew : (d.onMouseMove f dx dy).win d.drag = dragged f (d.win d.drag) dx dy := by
    obtain ⟨_, _, _, _, hwin⟩ := d.onMouseMove_becomes (f := f) dx dy
    rw [win, hwin, if_neg hdrag, Function.update_self]
  have hwidth : ((d.win d.drag).w + 1) % 2 ^ 32 = (d.win d.drag).w + 1 :=
    Nat.mod_eq_of_lt (by omega)
  have hheight : ((d.win d.drag).h + 1) % 2 ^ 32 = (d.win d.drag).h + 1 :=
    Nat.mod_eq_of_lt (by omega)
  have hrect : ∀ w : Window, footprint w = rect w.x w.y (w.w + 1) (w.h + 1) := by
    intro w
    simp [footprint, rect, Int.add_assoc]
  have hold := h.mark hfw hfh hx hy ((d.win d.drag).w + 1) ((d.win d.drag).h + 1)
    (by omega) (by omega)
  have hboth := hold.mark hfw hfh hx' hy' ((d.win d.drag).w + 1)
    ((d.win d.drag).h + 1) (by omega) (by omega)
  rw [List.append_assoc, ← List.filter_append] at hboth
  rw [marked, if_neg hdrag, hnew, hrect, hrect]
  have hdirty : (d.onMouseMove f dx dy).dirty =
      markDirty f (markDirty f d.dirty (d.win d.drag).x (d.win d.drag).y ((d.win d.drag).w + 1)
        ((d.win d.drag).h + 1)) (dragged f (d.win d.drag) dx dy).x
        (dragged f (d.win d.drag) dx dy).y ((d.win d.drag).w + 1) ((d.win d.drag).h + 1) := by
    rw [onMouseMove, if_neg hdrag]
    dsimp only [wmMarkDirty, dragged]
    rw [hwidth, hheight]
  rw [hdirty]
  exact hboth

/-- Windows keep their sizes and their positions stay in range. -/
theorem input_sized {d d' : Desktop} {event : Input} (harranged : d.Arranged)
    (hsized : ∀ p ∈ d.windows.zorder, Sized (d.win p)) (hstep : d.input f event = some d') :
    ∀ p ∈ d'.windows.zorder, Sized (d'.win p) := by
  intro p hp
  have hmem := (((input_arranged harranged hstep).2.mem_iff p).mp hp).1
  cases event with
  | click x y buttons =>
      rw [win, (onMouseClick_clicked hstep).win_eq]
      exact hsized p hmem
  | move dx dy =>
      obtain rfl := Option.some.inj hstep
      obtain ⟨_, _, _, _, hwin⟩ := d.onMouseMove_becomes (f := f) dx dy
      rw [win, hwin]
      split
      · exact hsized p hmem
      · by_cases hp' : p = d.drag
        · rw [hp', Function.update_self]
          exact sized_dragged (hsized d.drag (hp' ▸ hmem)) dx dy
        · rw [Function.update_of_ne hp']
          exact hsized p hmem

/-- A call extends the bounding box by what it marks. -/
theorem input_bounding (hfw : f.width < 2 ^ 30) (hfh : f.height < 2 ^ 30) {d d' : Desktop}
    {event : Input} {marks : List IntBox} (harranged : d.Arranged)
    (hsized : ∀ p ∈ d.windows.zorder, Sized (d.win p)) (hstep : d.input f event = some d')
    (h : Bounding f marks d.dirty) : Bounding f (marks ++ marked f d d' event) d'.dirty := by
  cases event with
  | click x y buttons =>
      rw [marked, List.append_nil, (onMouseClick_clicked hstep).dirty_eq]
      exact h
  | move dx dy =>
      obtain rfl := Option.some.inj hstep
      exact move_bounding hfw hfh h
        (fun hdrag => hsized _ (harranged.drag.resolve_left hdrag)) dx dy

/-- Taking the rectangle over leaves nothing pending. -/
theorem bounding_nil (f : Framebuffer) {dirty : Dirty} (h : dirty.valid = false) :
    Bounding f [] dirty := by
  have hno : ¬ dirty.valid = true := by simp [h]
  exact ⟨fun hvalid => absurd hvalid hno, fun hvalid => absurd hvalid hno,
    iff_of_false hno fun hne => hne rfl⟩

/-- One event. -/
theorem DamageState.Tracked.step (hfw : f.width < 2 ^ 30) (hfh : f.height < 2 ^ 30)
    {s s' : DamageState} {event : DamageEvent} (h : s.Tracked f)
    (hstep : damageStep f s event = some s') : s'.Tracked f := by
  cases event with
  | interrupt event =>
      obtain ⟨d, hd, rfl⟩ := Option.map_eq_some_iff.mp hstep
      exact ⟨(input_arranged h.arranged hd).1, input_sized h.arranged h.sized hd,
        input_bounding hfw hfh h.arranged h.sized hd h.bounding⟩
  | idle =>
      rw [damageStep] at hstep
      cases hloop : s.loop with
      | check =>
          rw [hloop] at hstep
          obtain rfl := Option.some.inj hstep
          exact ⟨h.arranged, h.sized, h.bounding⟩
      | flush =>
          rw [hloop, snapshot] at hstep
          by_cases hvalid : s.desktop.dirty.valid = true
          · rw [if_pos hvalid] at hstep
            obtain rfl := Option.some.inj hstep
            exact ⟨h.arranged.keep rfl h.arranged.drag, h.sized, bounding_nil f rfl⟩
          · rw [if_neg hvalid] at hstep
            obtain rfl := Option.some.inj hstep
            exact ⟨h.arranged, h.sized, h.bounding⟩
      | repaint snap =>
          rw [hloop] at hstep
          obtain rfl := Option.some.inj hstep
          exact ⟨h.arranged.keep rfl h.arranged.drag, h.sized, h.bounding⟩

/-- A pixel is in the pending rectangle, or in a snapshot taken after the first `n`. -/
def Damaged (s : DamageState) (n : Nat) (x y : Int) : Prop :=
  s.desktop.dirty.valid = true ∧ s.desktop.dirty.box.Contains x y ∨
    ∃ snap ∈ s.snaps.drop n, snap.box.Contains x y

/-- A marked box is in the bounding box. -/
theorem Bounding.le {marks : List IntBox} {dirty : Dirty} (h : Bounding f marks dirty) {b : IntBox}
    (hb : b ∈ marks) : dirty.valid = true ∧ b ≤ dirty.box := by
  have hvalid := h.valid_iff.mpr (List.ne_nil_of_mem hb)
  exact ⟨hvalid, (h.lub hvalid).1 hb⟩

/-- More marks make the bounding box larger. -/
theorem Bounding.mono {marks more : List IntBox} {dirty dirty' : Dirty}
    (h : Bounding f marks dirty) (h' : Bounding f (marks ++ more) dirty')
    (hvalid : dirty.valid = true) : dirty'.valid = true ∧ dirty.box ≤ dirty'.box := by
  have hne := h.valid_iff.mp hvalid
  have hvalid' := h'.valid_iff.mpr (List.append_ne_nil_of_left_ne_nil hne more)
  refine ⟨hvalid', (h.lub hvalid).2 fun b hb => ?_⟩
  exact (h'.lub hvalid').1 (List.mem_append_left more hb)

/-- Damage stays pending until a snapshot takes it over. -/
theorem Damaged.step (hfw : f.width < 2 ^ 30) (hfh : f.height < 2 ^ 30) {s s' : DamageState}
    {event : DamageEvent} (h : s.Tracked f) (hstep : damageStep f s event = some s') {n : Nat}
    (hn : n ≤ s.snaps.length) {x y : Int} (hdamaged : Damaged s n x y) :
    Damaged s' n x y ∧ n ≤ s'.snaps.length := by
  cases event with
  | interrupt event =>
      obtain ⟨d, hd, rfl⟩ := Option.map_eq_some_iff.mp hstep
      refine ⟨?_, hn⟩
      rcases hdamaged with ⟨hvalid, hin⟩ | hsnap
      · obtain ⟨hvalid', hle⟩ := h.bounding.mono
          (input_bounding hfw hfh h.arranged h.sized hd h.bounding) hvalid
        exact .inl ⟨hvalid', hin.mono hle⟩
      · exact .inr hsnap
  | idle =>
      rw [damageStep] at hstep
      cases hloop : s.loop with
      | check =>
          rw [hloop] at hstep
          obtain rfl := Option.some.inj hstep
          exact ⟨hdamaged, hn⟩
      | flush =>
          rw [hloop, snapshot] at hstep
          by_cases hvalid : s.desktop.dirty.valid = true
          · rw [if_pos hvalid] at hstep
            obtain rfl := Option.some.inj hstep
            refine ⟨.inr ?_, by simp; omega⟩
            rw [List.drop_append_of_le_length hn]
            rcases hdamaged with ⟨_, hin⟩ | ⟨snap, hsnap, hin⟩
            · exact ⟨_, List.mem_append_right _ (List.mem_singleton_self _), hin⟩
            · exact ⟨snap, List.mem_append_left _ hsnap, hin⟩
          · rw [if_neg hvalid] at hstep
            obtain rfl := Option.some.inj hstep
            exact ⟨hdamaged, hn⟩
      | repaint snap =>
          rw [hloop] at hstep
          obtain rfl := Option.some.inj hstep
          exact ⟨hdamaged, hn⟩

/-- A movement damages both footprints of the dragged window. -/
theorem move_damages (hfw : f.width < 2 ^ 30) (hfh : f.height < 2 ^ 30) {s s' : DamageState}
    {dx dy : Int} (h : s.Tracked f)
    (hstep : damageStep f s (.interrupt (.move dx dy)) = some s') (hdrag : s.desktop.drag ≠ 0)
    {x y : Int} (hscreen : f.box.Contains x y)
    (hin : (footprint (s.desktop.win s.desktop.drag)).Contains x y ∨
      (footprint (s'.desktop.win s.desktop.drag)).Contains x y) :
    Damaged s' s'.snaps.length x y := by
  have hbounding := (h.step hfw hfh hstep).bounding
  rw [damageStep] at hstep
  obtain ⟨d, hd, rfl⟩ := Option.map_eq_some_iff.mp hstep
  -- each footprint that contains the pixel was marked
  have hmark : ∀ w, w ∈ [footprint (s.desktop.win s.desktop.drag),
      footprint (d.win s.desktop.drag)] → w.Contains x y →
        d.dirty.valid = true ∧ d.dirty.box.Contains x y := by
    intro w hw hpixel
    have hclip := IntBox.contains_clip.mpr ⟨hpixel, hscreen⟩
    have hmem : w.clip f.box ∈ s.marks ++ marked f s.desktop d (.move dx dy) := by
      rw [marked, if_neg hdrag]
      refine List.mem_append_right _ (List.mem_filter.mpr ⟨List.mem_map_of_mem hw, ?_⟩)
      exact decide_eq_true hclip.nonempty
    obtain ⟨hvalid, hle⟩ := hbounding.le hmem
    exact ⟨hvalid, hclip.mono hle⟩
  rcases hin with hold | hnew
  · exact .inl (hmark _ (by simp) hold)
  · exact .inl (hmark _ (by simp) hnew)

/-- Damage is never lost in a run. -/
theorem Damaged.run (hfw : f.width < 2 ^ 30) (hfh : f.height < 2 ^ 30) {s final : DamageState}
    {events : List DamageEvent} (h : s.Tracked f)
    (hrun : Transition.run (damageStep f) s events = some final) {n : Nat}
    (hn : n ≤ s.snaps.length) {x y : Int} (hdamaged : Damaged s n x y) : Damaged final n x y := by
  have hstep : ∀ s event next, s.Tracked f ∧ n ≤ s.snaps.length ∧ Damaged s n x y →
      damageStep f s event = some next →
        next.Tracked f ∧ n ≤ next.snaps.length ∧ Damaged next n x y := by
    intro s event next hinv hnext
    obtain ⟨hkept, hlen⟩ := hinv.2.2.step hfw hfh hinv.1 hnext hinv.2.1
    exact ⟨hinv.1.step hfw hfh hnext, hlen, hkept⟩
  exact (Transition.run_invariant hstep ⟨h, hn, hdamaged⟩ hrun).2.2

/-- The desktop at the start, with the idle loop at its head. -/
def DamageState.start (win : Nat → Window) (calcWin : Nat) (ps : List Nat) : DamageState where
  desktop := Desktop.start win calcWin ps
  loop := .check
  marks := []
  snaps := []

/-- Over every interleaving of the mouse callbacks with the idle loop the pending rectangle is on
the screen and the bounding box of what was marked since the last snapshot, and every pixel of the
screen that a dragged window covered before or after a movement is from then on in the pending
rectangle or in a snapshot taken after the movement. -/
theorem no_damage_lost (f : Framebuffer) (hfw : f.width < 2 ^ 30) (hfh : f.height < 2 ^ 30)
    (win : Nat → Window) (calcWin : Nat) (ps : List Nat) (hnodup : ps.Nodup) (hnull : 0 ∉ ps)
    (hroom : ps.length ≤ maxWindows) (hsized : ∀ p ∈ ps, Sized (win p))
    (events : List DamageEvent) (s : DamageState)
    (hrun : Transition.run (damageStep f) (.start win calcWin ps) events = some s) :
    Bounding f s.marks s.desktop.dirty ∧
      ∀ dx dy s', damageStep f s (.interrupt (.move dx dy)) = some s' → s.desktop.drag ≠ 0 →
        ∀ later final, Transition.run (damageStep f) s' later = some final →
          ∀ x y, f.box.Contains x y →
            (footprint (s.desktop.win s.desktop.drag)).Contains x y ∨
              (footprint (s'.desktop.win s.desktop.drag)).Contains x y →
            Damaged final s'.snaps.length x y := by
  have hstart : (DamageState.start win calcWin ps).Tracked f := by
    refine ⟨start_arranged win calcWin hnodup hnull hroom, fun p hp => ?_, bounding_nil f rfl⟩
    have horder := start_zorder win calcWin hroom
    have hwin := start_win win calcWin hroom
    simp only [DamageState.start, horder, Desktop.win, hwin] at hp ⊢
    exact hsized p hp
  have htracked : s.Tracked f :=
    Transition.run_invariant (fun _ _ _ hinv hnext => hinv.step hfw hfh hnext) hstart hrun
  refine ⟨htracked.bounding, fun dx dy s' hstep hdrag later final hlater x y hscreen hin => ?_⟩
  exact (move_damages hfw hfh htracked hstep hdrag hscreen hin).run hfw hfh
    (htracked.step hfw hfh hstep) hlater (Nat.le_refl _)

/-- A press on the title bar of the lower of two windows, and a movement that is flushed. -/
theorem no_damage_lost_sample :
    ∃ s, Transition.run (damageStep sampleScreen) (.start sampleWindows 3 [1, 2])
        [.interrupt (.click 300 70 1)] = some s ∧
      s.desktop.drag = 1 ∧ Bounding sampleScreen s.marks s.desktop.dirty ∧
      ∀ s', damageStep sampleScreen s (.interrupt (.move 5 0)) = some s' →
        ∀ final, Transition.run (damageStep sampleScreen) s' [.idle, .idle, .idle] = some final →
          ∀ x y, sampleScreen.box.Contains x y →
            (footprint (s.desktop.win s.desktop.drag)).Contains x y ∨
              (footprint (s'.desktop.win s.desktop.drag)).Contains x y →
            Damaged final s'.snaps.length x y := by
  have hdrag : (Transition.run (damageStep sampleScreen) (.start sampleWindows 3 [1, 2])
      [.interrupt (.click 300 70 1)]).map (fun s => s.desktop.drag) = some 1 := by decide +kernel
  obtain ⟨s, hrun, hone⟩ := Option.map_eq_some_iff.mp hdrag
  obtain ⟨hbounding, hmove⟩ := no_damage_lost sampleScreen (by decide) (by decide) sampleWindows 3
    [1, 2] (by decide) (by decide) (by decide) (by decide) _ s hrun
  exact ⟨s, hrun, hone, hbounding, fun s' hstep => hmove 5 0 s' hstep (by rw [hone]; decide) _⟩

end Desktop

end Kumo
