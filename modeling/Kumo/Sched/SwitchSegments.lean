import Kumo.Sched.SwitchRuns

/-!
# Data segment registers

No stack keeps the data segment registers of a task. The stub of a system call loads the
selector of the kernel, and later the user selector; the stub of IRQ0 does neither. So a task
that was preempted goes on with what the code before it has left there, and `iret` clears the
selector of the kernel.
-/

namespace Kumo

open Transition

variable {code : CodeLabels} {cc : CompiledC code} {L : TaskStacks} {notes : List Note} {t : Nat}
  {s s' : Machine} {e : SwitchEvent cc.Choice}

/-- Every `iret` to ring 3 has found the user data selector in the four registers. -/
def SegmentsHeld (notes : List Note) : Prop :=
  ∀ t r kernelEsp segments, .ring3 t r kernelEsp segments ∈ notes → segments = .all 0x23

/-- The task that runs next came from ring 3 through IRQ0 the last time. -/
def NextPreempted {Choice : Type} (L : TaskStacks) (s : Machine) (e : SwitchEvent Choice) : Prop :=
  L.next s.current ∈ L.users ∧
    ∃ r, lastEntry (entryNotes s e ++ s.notes) (L.next s.current) = some (r, .irq)

/-- A preempted task is not resumed from a system call, and otherwise only while the user data
selector is in the four registers. -/
def HandsOver {Choice : Type} (L : TaskStacks) (s : Machine) : SwitchEvent Choice → Prop
  | .run .. => True
  | .syscall choice => ¬ NextPreempted L s (.syscall choice)
  | e => NextPreempted L s e → s.cpu.segments = .all 0x23

/-- `iret` leaves the user data selector alone, and brings it nowhere. -/
theorem DataSegments.cleared_eq_iff (segments : DataSegments) :
    segments.cleared = .all 0x23 ↔ segments = .all 0x23 := by
  have hone : ∀ selector, clearSelector selector = 0x23 ↔ selector = 0x23 := by
    intro selector
    unfold clearSelector
    split
    · next h =>
        refine ⟨fun h0 => absurd h0 (by decide), fun heq => ?_⟩
        rw [heq] at h
        exact absurd h (by decide)
    · exact Iff.rfl
  obtain ⟨ds, es, fs, gs⟩ := segments
  simp only [cleared, all, DataSegments.mk.injEq, hone]

theorem segmentsHeld_cons {note : Note} (hnote : ∀ t r kernelEsp segments,
    note ≠ .ring3 t r kernelEsp segments) : SegmentsHeld (note :: notes) ↔ SegmentsHeld notes := by
  refine forall_congr' fun t => forall_congr' fun r => forall_congr' fun kernelEsp =>
    forall_congr' fun segments => imp_congr_left ?_
  rw [List.mem_cons]
  exact or_iff_right fun heq => hnote _ _ _ _ heq.symm

theorem segmentsHeld_ring3 {r : Context} {kernelEsp : Nat} {segments : DataSegments} :
    SegmentsHeld (.ring3 t r kernelEsp segments :: notes) ↔
      segments = .all 0x23 ∧ SegmentsHeld notes := by
  constructor
  · intro h
    exact ⟨h _ _ _ _ (List.mem_cons_self ..),
      fun t r kernelEsp segments hmem => h t r kernelEsp segments (List.mem_cons_of_mem _ hmem)⟩
  · rintro ⟨hfirst, hrest⟩ t r kernelEsp segments hmem
    rcases List.mem_cons.mp hmem with heq | hmem
    · obtain ⟨-, -, -, rfl⟩ := Note.ring3.inj heq
      exact hfirst
    · exact hrest t r kernelEsp segments hmem

/-- An entry into the kernel is no `iret`. -/
theorem segmentsHeld_entry (s : Machine) (e : SwitchEvent cc.Choice) (notes : List Note) :
    SegmentsHeld (entryNotes s e ++ notes) ↔ SegmentsHeld notes := by
  cases e with
  | run | idleYield => exact Iff.rfl
  | irq choice =>
      rw [entryNotes]
      split
      · exact segmentsHeld_cons (by simp)
      · exact Iff.rfl
  | syscall choice =>
      exact (segmentsHeld_cons (by simp)).trans (segmentsHeld_cons (by simp))

/-- What the next task finds in the data segment registers at its `iret`. -/
theorem heldBy_iff {segments : DataSegments} :
    heldBy notes t segments = .all 0x23 ↔
      ((∃ r, lastEntry notes t = some (r, .irq)) → segments = .all 0x23) := by
  unfold heldBy
  split
  · next r hlast => exact ⟨fun h _ => h, fun h => h ⟨r, hlast⟩⟩
  · next hlast => exact ⟨fun _ ⟨r, hirq⟩ => absurd hirq (hlast r), fun _ => rfl⟩

/-- One switch. -/
theorem Switched.segments_iff {segments : DataSegments} (h : Switched L notes segments t s')
    (hL : L.Apart cc.data) (ht : t ∈ L.tasks) (hheld : SegmentsHeld notes) :
    SegmentsHeld s'.notes ↔
      (t ∈ L.users ∧ ∃ r, lastEntry notes t = some (r, .irq)) → segments = .all 0x23 := by
  rcases List.mem_cons.mp ht with hidle | huser
  · rw [(h.idle hidle).1]
    exact ⟨fun _ ⟨huser, _⟩ => absurd (hidle ▸ huser) hL.idle, fun _ => hheld⟩
  · rw [(h.user huser).1, segmentsHeld_ring3, and_iff_left hheld, heldBy_iff]
    exact ⟨fun h hnext => h hnext.2, fun h hlast => h ⟨huser, hlast⟩⟩

/-- One step. -/
theorem Stepped.segments_iff (h : Stepped L s e s') (hL : L.Apart cc.data)
    (hcurrent : s.current ∈ L.tasks) (hheld : SegmentsHeld s.notes) :
    SegmentsHeld s'.notes ↔ HandsOver L s e := by
  have hnext := hL.next _ hcurrent
  have hentry := (segmentsHeld_entry s e s.notes).mpr hheld
  cases e with
  | run context stores =>
      rw [h.2.1]
      exact iff_of_true hheld trivial
  | irq choice => exact Switched.segments_iff h hL hnext hentry
  | idleYield choice => exact Switched.segments_iff h hL hnext hentry
  | syscall choice =>
      have hkernel : kernelSegments s (.syscall choice) ≠ .all 0x23 := by
        show DataSegments.all 0x10 ≠ .all 0x23
        decide
      exact (Switched.segments_iff h hL hnext hentry).trans
        (forall_congr' fun _ => iff_of_false hkernel not_false)

/-- In a run every `iret` to ring 3 finds the user data selector in the data segment registers exactly
if no step resumes a preempted task while they hold another one. -/
theorem segments_held_iff (hL : L.Apart cc.data) (hstart : Started cc L s)
    {events : List (SwitchEvent cc.Choice)} (hvalid : Meets (Machine.step cc) (Valid cc L) s events) :
    Along (Machine.step cc) (fun _ _ s' => SegmentsHeld s'.notes) s events ↔
      Meets (Machine.step cc) (HandsOver L) s events := by
  refine along_iff_meets_of (I := fun s => SwitchInv cc L s ∧ SegmentsHeld s.notes)
    (fun s e s' hinv hevent hstep hheld => ?_) (fun s e hinv hevent => ?_) ⟨hstart.inv hL, ?_⟩ hvalid
  · obtain ⟨next, hnext, hinv', -⟩ := hinv.1.step hL hevent
    obtain rfl := Option.some.inj (hnext.symm.trans hstep)
    exact ⟨hinv', hheld⟩
  · obtain ⟨next, hnext, -, hstepped⟩ := hinv.1.step hL hevent
    have hiff := hstepped.segments_iff hL hinv.1.current hinv.2
    refine ⟨fun h => hiff.mp (h next hnext), fun h s' hs' => ?_⟩
    obtain rfl := Option.some.inj (hnext.symm.trans hs')
    exact hiff.mpr h
  · rw [hstart.notes]
    simp [SegmentsHeld]

theorem segments_held_iff_sample :
    Along (Machine.step sampleC) (fun _ _ s' => SegmentsHeld s'.notes) sampleStart sampleRun ↔
      Meets (Machine.step sampleC) (HandsOver sampleTasks) sampleStart sampleRun :=
  segments_held_iff sampleTasks_apart sampleStart_started sampleRun_spec.1

/-- The timer interrupts a task, the next one yields, and the first one runs with null selectors. -/
theorem segments_lost : Started sampleC sampleTasks sampleStart ∧
    Meets (Machine.step sampleC) (Valid sampleC sampleTasks) sampleStart sampleRun ∧
      ∃ final, run (Machine.step sampleC) sampleStart sampleRun = some final ∧
        ¬ SegmentsHeld final.notes ∧ final.current = 0x200 ∧ final.cpu.segments = .all 0 := by
  obtain ⟨hvalid, final, hrun, ⟨r, kernelEsp, hnote⟩, hcurrent, hsegments⟩ := sampleRun_spec
  refine ⟨sampleStart_started, hvalid, final, hrun, fun h => ?_, hcurrent, hsegments⟩
  exact absurd (h _ _ _ _ hnote) (by decide)

end Kumo
