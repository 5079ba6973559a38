import Kumo.Kernel.WindowRuns

/-!
# Packets on the desktop

What one packet does to the mouse driver and to the desktop. A change of the buttons is
a click at the place of the cursor; a movement then moves the cursor and a dragged
window.
-/

namespace Kumo

namespace Desktop

variable (f : Framebuffer)

/-- The click of a packet. -/
def clickPart (m : Mouse) (d : Desktop) (p : Packet) : Option Desktop :=
  if p.buttons = m.lastButtons then some d else d.onMouseClick f m.cursorX m.cursorY p.buttons

/-- The cursor after a packet. -/
def cursorAfter (m : Mouse) (p : Packet) : Int × Int :=
  if p.decoded = (0, 0) then (m.cursorX, m.cursorY)
  else (clampCursor (wrap32 (m.cursorX + p.decoded.1)) f.width cursorW,
    clampCursor (wrap32 (m.cursorY - p.decoded.2)) f.height cursorH)

/-- The movement of a packet. -/
def movePart (m : Mouse) (d : Desktop) (p : Packet) : Desktop :=
  if p.decoded = (0, 0) then d
  else ((d.draw [.hide]).draw [.moveTo (cursorAfter f m p).1 (cursorAfter f m p).2,
    .show]).onMouseMove f p.decoded.1 p.decoded.2

variable {f}

/-- A movement keeps the order of the windows, the drag and the calculator. -/
theorem movePart_becomes (m : Mouse) (d : Desktop) (p : Packet) :
    (d.movePart f m p).windows.zorder = d.windows.zorder ∧ (d.movePart f m p).drag = d.drag ∧
      (d.movePart f m p).calculator = d.calculator ∧
      (d.movePart f m p).windows.win =
        if p.decoded = (0, 0) ∨ d.drag = 0 then d.windows.win
        else Function.update d.windows.win d.drag
          (dragged f (d.win d.drag) p.decoded.1 p.decoded.2) := by
  unfold movePart
  by_cases hmove : p.decoded = (0, 0)
  · rw [if_pos hmove, if_pos (.inl hmove)]
    exact ⟨rfl, rfl, rfl, rfl⟩
  · rw [if_neg hmove]
    obtain ⟨hz, hd, hc, _, hw⟩ := onMouseMove_becomes (f := f) ((d.draw [.hide]).draw
      [.moveTo (cursorAfter f m p).1 (cursorAfter f m p).2, .show]) p.decoded.1 p.decoded.2
    refine ⟨hz, hd, hc, hw.trans ?_⟩
    rw [draw_drag, draw_drag]
    by_cases hdrag : d.drag = 0
    · rw [if_pos hdrag, if_pos (.inr hdrag)]
      rfl
    · rw [if_neg hdrag, if_neg (not_or.mpr ⟨hmove, hdrag⟩)]
      rfl

/-- Flushing the dirty rectangle touches only it and the screen. -/
theorem wmFlushDirty_becomes (d : Desktop) :
    (d.wmFlushDirty f).windows = d.windows ∧ (d.wmFlushDirty f).drag = d.drag ∧
      (d.wmFlushDirty f).calculator = d.calculator := by
  unfold wmFlushDirty snapshot
  by_cases hvalid : d.dirty.valid = true
  · rw [if_pos hvalid]
    exact ⟨rfl, rfl, rfl⟩
  · rw [if_neg hvalid]
    exact ⟨rfl, rfl, rfl⟩

/-- The first packet changes nothing. -/
theorem step_discard {m : Mouse} (d : Desktop) (p : Packet) (hm : m.cycle = 0)
    (hfirst : m.firstPacket = true) :
    ∃ m', Session.step f (m, d) (.packet p) = some (m', d) ∧ m'.cycle = 0 ∧
      m'.lastButtons = m.lastButtons ∧ (m'.cursorX, m'.cursorY) = (m.cursorX, m.cursorY) ∧
      m'.firstPacket = false := by
  obtain ⟨b, _, hfeed⟩ := Mouse.feed_encode (f := f) (client f) m d p [] hm
  rw [List.append_nil] at hfeed
  refine ⟨{ m.assembled b p with firstPacket := false }, ?_, rfl, rfl, rfl, rfl⟩
  rw [Session.step, hfeed, Mouse.mouseProcessPacket, if_pos (by exact hfirst)]
  rfl

/-- Every other packet is a click, if the buttons changed, and then a movement. -/
theorem step_process {m : Mouse} (d : Desktop) (p : Packet) (hm : m.cycle = 0)
    (hfirst : m.firstPacket = false) :
    ∃ m', Session.step f (m, d) (.packet p) =
        (d.clickPart f m p).map (fun clicked => (m', clicked.movePart f m p)) ∧
      m'.cycle = 0 ∧ m'.firstPacket = false ∧ m'.lastButtons = p.buttons ∧
      (m'.cursorX, m'.cursorY) = cursorAfter f m p := by
  obtain ⟨b, hb, hfeed⟩ := Mouse.feed_encode (f := f) (client f) m d p [] hm
  rw [List.append_nil] at hfeed
  have hbyte : (m.assembled b p).byte0 % 8 = p.buttons := hb
  have hbuttons : (m.assembled b p).processButtons (client f) d =
      (d.clickPart f m p).map fun clicked =>
        ({ m.assembled b p with lastButtons := p.buttons }, clicked) := by
    unfold Mouse.processButtons clickPart
    dsimp only
    rw [hbyte]
    by_cases hsame : p.buttons = m.lastButtons
    · rw [if_pos hsame, if_neg (by rw [not_not]; exact hsame), hsame]
      rfl
    · rw [if_neg hsame, if_pos (by exact hsame)]
      rfl
  refine ⟨{ m.assembled b p with
    lastButtons := p.buttons
    cursorX := (cursorAfter f m p).1
    cursorY := (cursorAfter f m p).2 }, ?_, rfl, hfirst, rfl, rfl⟩
  rw [Session.step, hfeed, Mouse.mouseProcessPacket, if_neg (by rw [Mouse.assembled, hfirst]; decide),
    hbuttons, Option.map_map]
  cases d.clickPart f m p with
  | none => rfl
  | some clicked =>
      refine congrArg some ?_
      dsimp only [Function.comp_apply, Mouse.feed, Mouse.processMove, movePart, cursorAfter]
      by_cases hmove : p.decoded = (0, 0)
      · obtain ⟨hx, hy⟩ := Prod.mk.inj hmove
        rw [if_pos hmove, if_neg (by rw [not_or, not_not, not_not]; exact ⟨hx, hy⟩), if_pos hmove]
        rfl
      · have hne : int8 (m.assembled b p).byte1 ≠ 0 ∨ int8 (m.assembled b p).byte2 ≠ 0 := by
          by_contra hno
          rw [not_or, not_not, not_not] at hno
          exact hmove (Prod.ext hno.1 hno.2)
        rw [if_neg hmove, if_pos hne, if_neg hmove]
        rfl

/-- The decoder is between two packets, and the window list is well formed. -/
structure Session.Settled (s : Session) : Prop where
  cycle : s.1.cycle = 0
  arranged : s.2.Arranged

/-- The movement of a packet leaves the window list well formed. -/
theorem movePart_arranged {d : Desktop} (h : d.Arranged) (m : Mouse) (p : Packet) :
    (d.movePart f m p).Arranged := by
  obtain ⟨horder, hdrag, _⟩ := movePart_becomes (f := f) m d p
  exact h.keep horder (by rw [hdrag]; exact h.drag)

/-- The click of a packet leaves the window list well formed. -/
theorem clickPart_arranged {m : Mouse} {d d' : Desktop} {p : Packet} (h : d.Arranged)
    (hclick : d.clickPart f m p = some d') : d'.Arranged := by
  unfold clickPart at hclick
  split at hclick
  · obtain rfl := Option.some.inj hclick
    exact h
  · exact ((onMouseClick_clicked hclick).arranged h).1

/-- Every event leaves the session settled. -/
theorem Session.Settled.step {s s' : Session} {event : SessionEvent} (h : s.Settled)
    (hstep : Session.step f s event = some s') : s'.Settled := by
  obtain ⟨m, d⟩ := s
  cases event with
  | flush =>
      obtain rfl := Option.some.inj hstep
      obtain ⟨hwindows, hdrag, _⟩ := wmFlushDirty_becomes (f := f) d
      refine ⟨h.cycle, h.arranged.keep (congrArg WindowList.zorder hwindows) ?_⟩
      rw [hdrag]
      exact h.arranged.drag
  | packet p =>
      by_cases hfirst : m.firstPacket = true
      · obtain ⟨m', heq, hcycle, _⟩ := step_discard (f := f) d p h.cycle hfirst
        obtain rfl := Option.some.inj (heq.symm.trans hstep)
        exact ⟨hcycle, h.arranged⟩
      · obtain ⟨m', heq, hcycle, _⟩ := step_process (f := f) d p h.cycle
          (Bool.eq_false_iff.mpr hfirst)
        obtain ⟨clicked, hclick, rfl⟩ := Option.map_eq_some_iff.mp (heq.symm.trans hstep)
        exact ⟨hcycle, movePart_arranged (clickPart_arranged h.arranged hclick) m p⟩

end Desktop

end Kumo
