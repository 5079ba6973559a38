import Kumo.Drivers.Mouse

/-!
# Decoding a stream of mouse packets

A well-formed packet carries three button bits and two deltas of nine bits. The
decoder takes each delta from its low byte alone, so it reports the deltas of a stream
exactly when all of them fit in eight bits.
-/

namespace Kumo

/-- A movement packet as the mouse means it. -/
structure Packet where
  buttons : Nat
  dx : Int
  dy : Int
  buttons_lt : buttons < 8
  dx_range : -256 ≤ dx ∧ dx ≤ 255
  dy_range : -256 ≤ dy ∧ dy ≤ 255

namespace Packet

/-- No movement. -/
def still (buttons : BitVec 3) : Packet :=
  ⟨buttons.toNat, 0, 0, buttons.isLt, by decide, by decide⟩

/-- The three bytes on the wire: sync bit 3, sign bits 4 and 5, then the low bytes. -/
def encode (p : Packet) : List Nat :=
  [p.buttons + 8 + (if p.dx < 0 then 16 else 0) + (if p.dy < 0 then 32 else 0),
    (p.dx % 256).toNat, (p.dy % 256).toNat]

/-- The deltas. -/
def delta (p : Packet) : Int × Int := (p.dx, p.dy)

/-- What the driver makes of the deltas. -/
def decoded (p : Packet) : Int × Int := (int8 (p.dx % 256).toNat, int8 (p.dy % 256).toNat)

/-- Both deltas fit in eight bits. -/
def Small (p : Packet) : Prop := -128 ≤ p.dx ∧ p.dx ≤ 127 ∧ -128 ≤ p.dy ∧ p.dy ≤ 127

instance (p : Packet) : Decidable p.Small := inferInstanceAs (Decidable (_ ∧ _ ∧ _ ∧ _))

/-- The low byte of a delta, read as a signed byte. -/
theorem int8_low {d : Int} (hlo : -256 ≤ d) (hhi : d ≤ 255) :
    (-128 ≤ d ∧ d ≤ 127 → int8 (d % 256).toNat = d) ∧
      (¬ (-128 ≤ d ∧ d ≤ 127) → int8 (d % 256).toNat ≠ d ∧ d ≠ 0) := by
  unfold int8
  constructor
  · rintro ⟨h1, h2⟩
    split <;> omega
  · intro h
    refine ⟨?_, by omega⟩
    split <;> omega

theorem decoded_eq {p : Packet} (h : p.Small) : p.decoded = p.delta := by
  obtain ⟨h1, h2, h3, h4⟩ := h
  obtain ⟨hx, _⟩ := int8_low p.dx_range.1 p.dx_range.2
  obtain ⟨hy, _⟩ := int8_low p.dy_range.1 p.dy_range.2
  rw [decoded, delta, hx ⟨h1, h2⟩, hy ⟨h3, h4⟩]

theorem decoded_ne {p : Packet} (h : ¬ p.Small) : p.decoded ≠ p.delta ∧ p.delta ≠ (0, 0) := by
  obtain ⟨hx, hx'⟩ := int8_low p.dx_range.1 p.dx_range.2
  obtain ⟨hy, hy'⟩ := int8_low p.dy_range.1 p.dy_range.2
  simp only [Packet.decoded, delta, ne_eq, Prod.mk.injEq, not_and_or]
  by_cases hbx : -128 ≤ p.dx ∧ p.dx ≤ 127
  · have hby : ¬ (-128 ≤ p.dy ∧ p.dy ≤ 127) := fun hby => h ⟨hbx.1, hbx.2, hby.1, hby.2⟩
    exact ⟨.inr (hy' hby).1, .inr (hy' hby).2⟩
  · exact ⟨.inl (hx' hbx).1, .inl (hx' hbx).2⟩

end Packet

/-- The movements among some deltas. -/
def movements (ds : List (Int × Int)) : List (Int × Int) := ds.filter (· ≠ (0, 0))

theorem movements_zero : movements [(0, 0)] = [] := rfl

theorem movements_single {d : Int × Int} (h : d ≠ (0, 0)) : movements [d] = [d] :=
  List.filter_cons_of_pos (decide_eq_true h)

theorem movements_cons (d : Int × Int) (ds : List (Int × Int)) :
    movements (d :: ds) = movements [d] ++ movements ds := by
  simp only [movements]
  rw [← List.filter_append]
  rfl

/-- The cursor position after some movements: `x += dx`, `y -= dy`, clamped after each. -/
def track (f : Framebuffer) (pos : Int × Int) (ds : List (Int × Int)) : Int × Int :=
  ds.foldl (fun pos d => (clampCursor (wrap32 (pos.1 + d.1)) f.width cursorW,
    clampCursor (wrap32 (pos.2 - d.2)) f.height cursorH)) pos

/-- On a screen that is not larger than an `int32_t`, the clamp is the usual one. -/
theorem clampCursor_eq (v : Int) {screen cursor : Nat} (h : screen < 2 ^ 31)
    (hc : cursor < 2 ^ 31) : clampCursor v screen cursor = min (max v 0) (screen - cursor) := by
  have hlimit : wrap32 (wrap32 screen - cursor) = (screen : Int) - cursor := by
    have hscreen : wrap32 (screen : Int) = screen := wrap32_eq (by omega) (by omega)
    rw [hscreen, wrap32_eq (by omega) (by omega)]
  unfold clampCursor
  dsimp only
  rw [hlimit]
  split <;> split <;> omega

namespace Mouse

/-- A client that records the movements it is told about. -/
def recorder : MouseClient (List (Int × Int)) where
  cursorRestore := id
  cursorDraw _ _ s := s
  click _ _ _ s := some s
  move dx dy s := s ++ [(dx, dy)]

variable {f : Framebuffer}

/-- The driver with the bytes of a packet, of which the first is `b`. -/
def assembled (m : Mouse) (b : Nat) (p : Packet) : Mouse :=
  { m with
    byte0 := b
    byte1 := (p.dx % 256).toNat
    byte2 := (p.dy % 256).toNat
    cycle := 0 }

/-- The three bytes of a packet are assembled and processed together. -/
theorem feed_encode {σ : Type} (client : MouseClient σ) (m : Mouse) (s : σ) (p : Packet)
    (stream : List Nat) (hm : m.cycle = 0) : ∃ b, b % 8 = p.buttons ∧
      feed f client m s (p.encode ++ stream) =
        (mouseProcessPacket f client (m.assembled b p) s).bind
          fun r => feed f client r.1 r.2 stream := by
  have hlt := p.buttons_lt
  set b := p.buttons + 8 + (if p.dx < 0 then 16 else 0) + (if p.dy < 0 then 32 else 0) with hb
  have hsync : b / 8 % 2 ≠ 0 := by
    rw [hb]
    split <;> split <;> omega
  refine ⟨b, ?_, ?_⟩
  · rw [hb]
    split <;> split <;> omega
  · rw [Packet.encode, ← hb]
    simp only [List.cons_append, List.nil_append, feed, mouseHandleInterrupt, hm, hsync, if_false,
      Option.bind_some, assembled]

/-- A packet after the first moves the recorder's cursor by what the driver decodes. -/
theorem process_recorder (m : Mouse) (log : List (Int × Int)) (p : Packet)
    (hfirst : m.firstPacket = false) (hx : m.byte1 = (p.dx % 256).toNat)
    (hy : m.byte2 = (p.dy % 256).toNat) (hm : m.cycle = 0) :
    ∃ m', mouseProcessPacket f recorder m log = some (m', log ++ movements [p.decoded]) ∧
      m'.cycle = 0 ∧ m'.firstPacket = false ∧
      (m'.cursorX, m'.cursorY) = track f (m.cursorX, m.cursorY) (movements [p.decoded]) := by
  obtain ⟨buttons, hbuttons⟩ : ∃ buttons, m.processButtons recorder log =
      some ({ m with lastButtons := buttons }, log) := by
    unfold processButtons
    dsimp only
    split
    · exact ⟨_, rfl⟩
    · exact ⟨m.lastButtons, rfl⟩
  rw [mouseProcessPacket, hfirst, if_neg (by decide), hbuttons, Option.map_some]
  unfold processMove
  dsimp only
  rw [hx, hy]
  by_cases hmove : p.decoded = (0, 0)
  · have hzero := Prod.mk.inj hmove
    rw [if_neg (by rw [not_or, not_not, not_not]; exact hzero), hmove, movements_zero,
      List.append_nil]
    exact ⟨_, rfl, hm, hfirst, rfl⟩
  · have hne : int8 (p.dx % 256).toNat ≠ 0 ∨ int8 (p.dy % 256).toNat ≠ 0 := by
      by_contra hno
      rw [not_or, not_not, not_not] at hno
      exact hmove (by rw [Packet.decoded, hno.1, hno.2])
    rw [if_pos hne, movements_single hmove]
    exact ⟨_, rfl, hm, hfirst, rfl⟩

theorem track_append (pos : Int × Int) (ds ds' : List (Int × Int)) :
    track f pos (ds ++ ds') = track f (track f pos ds) ds' := List.foldl_append

/-- A stream of packets after the first one. -/
theorem feed_packets (ps : List Packet) (m : Mouse) (log : List (Int × Int))
    (hfirst : m.firstPacket = false) (hm : m.cycle = 0) :
    ∃ m', feed f recorder m log (ps.flatMap Packet.encode) =
        some (m', log ++ movements (ps.map Packet.decoded)) ∧
      (m'.cursorX, m'.cursorY) =
        track f (m.cursorX, m.cursorY) (movements (ps.map Packet.decoded)) := by
  induction ps generalizing m log with
  | nil => exact ⟨m, by simp [feed, movements], rfl⟩
  | cons p ps ih =>
      obtain ⟨b, _, hfeed⟩ := feed_encode (f := f) recorder m log p
        (ps.flatMap Packet.encode) hm
      obtain ⟨m1, hproc, hcycle, hfp, htrack⟩ := process_recorder (f := f) (m.assembled b p) log p
        hfirst rfl rfl rfl
      obtain ⟨m', hrest, htrack'⟩ := ih m1 (log ++ movements [p.decoded]) hfp hcycle
      refine ⟨m', ?_, ?_⟩
      · rw [List.flatMap_cons, hfeed, hproc, Option.bind_some, hrest, List.map_cons,
          movements_cons p.decoded (ps.map Packet.decoded), List.append_assoc]
      · rw [htrack', htrack, List.map_cons, movements_cons p.decoded (ps.map Packet.decoded),
          track_append]
        rfl

/-- The movements agree only if every delta was decoded correctly. -/
theorem movements_decoded (ps : List Packet) :
    movements (ps.map Packet.decoded) = movements (ps.map Packet.delta) ↔ ∀ p ∈ ps, p.Small := by
  -- no packet gains a movement by being decoded wrongly
  have hle : ∀ qs : List Packet, (movements (qs.map Packet.decoded)).length ≤
      (movements (qs.map Packet.delta)).length := by
    intro qs
    induction qs with
    | nil => exact Nat.le_refl _
    | cons q qs ih =>
        rw [List.map_cons, List.map_cons, movements_cons q.decoded (qs.map Packet.decoded),
          movements_cons q.delta (qs.map Packet.delta), List.length_append, List.length_append]
        refine Nat.add_le_add ?_ ih
        by_cases hs : q.Small
        · exact Nat.le_of_eq (by rw [Packet.decoded_eq hs])
        · rw [movements_single (Packet.decoded_ne hs).2]
          exact List.length_filter_le _ [q.decoded]
  induction ps with
  | nil => simp
  | cons p ps ih =>
      rw [List.map_cons, List.map_cons, movements_cons p.decoded (ps.map Packet.decoded),
        movements_cons p.delta (ps.map Packet.delta), List.forall_mem_cons]
      by_cases hs : p.Small
      · rw [Packet.decoded_eq hs, List.append_cancel_left_eq]
        exact ⟨fun h => ⟨hs, ih.mp h⟩, fun h => ih.mpr h.2⟩
      · refine ⟨fun heq => ?_, fun h => absurd h.1 hs⟩
        obtain ⟨hne, hnz⟩ := Packet.decoded_ne hs
        rw [movements_single hnz] at heq
        by_cases hz : p.decoded = (0, 0)
        · rw [hz, movements_zero, List.nil_append] at heq
          have hlen := congrArg List.length heq
          have := hle ps
          rw [List.singleton_append, List.length_cons] at hlen
          omega
        · rw [movements_single hz] at heq
          exact absurd (List.cons.inj heq).1 hne

/-- What the driver makes of a stream, the first packet of which it discards. -/
theorem feed_stream (x y : Int) (first : Packet) (ps : List Packet) :
    ∃ m, feed f recorder (start x y) [] ((first :: ps).flatMap Packet.encode) =
        some (m, movements (ps.map Packet.decoded)) ∧
      (m.cursorX, m.cursorY) = track f (x, y) (movements (ps.map Packet.decoded)) := by
  obtain ⟨b, _, hfeed⟩ := feed_encode (f := f) recorder (start x y) [] first
    (ps.flatMap Packet.encode) rfl
  obtain ⟨m, hrest, htrack⟩ := feed_packets (f := f) ps
    { (start x y).assembled b first with firstPacket := false } [] rfl rfl
  exact ⟨m, by rw [List.flatMap_cons, hfeed]; exact hrest, htrack⟩

/-- The decoder is exact on a stream if and only if every delta after the first packet fits in
eight bits. -/
theorem feed_exact_iff (f : Framebuffer) (x y : Int) (first : Packet) (ps : List Packet) :
    ∃ m log, feed f recorder (start x y) [] ((first :: ps).flatMap Packet.encode) = some (m, log) ∧
      ((log = movements (ps.map Packet.delta) ∧
          (m.cursorX, m.cursorY) = track f (x, y) (movements (ps.map Packet.delta))) ↔
        ∀ p ∈ ps, p.Small) := by
  obtain ⟨m, hrun, htrack⟩ := feed_stream (f := f) x y first ps
  refine ⟨m, _, hrun, ?_⟩
  rw [← movements_decoded]
  refine ⟨fun h => h.1, fun h => ⟨h, ?_⟩⟩
  rw [htrack, h]

/-- A movement of 200 to the right is reported as 56 to the left. -/
theorem feed_inexact : ¬ ∀ (f : Framebuffer) (x y : Int) (first : Packet) (ps : List Packet) m log,
    feed f recorder (start x y) [] ((first :: ps).flatMap Packet.encode) = some (m, log) →
      log = movements (ps.map Packet.delta) ∧
        (m.cursorX, m.cursorY) = track f (x, y) (movements (ps.map Packet.delta)) := by
  intro hclaim
  obtain ⟨m, hrun, _⟩ := feed_stream (f := sampleScreen) 512 384
    ⟨0, 0, 0, by decide, by decide, by decide⟩ [⟨0, 200, 0, by decide, by decide, by decide⟩]
  have hsmall := (movements_decoded _).mp (hclaim _ _ _ _ _ m _ hrun).1 _
    (List.mem_singleton.mpr rfl)
  exact absurd hsmall (by decide)

end Mouse

end Kumo
