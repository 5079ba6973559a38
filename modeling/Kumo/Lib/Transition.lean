import Mathlib.Tactic.TypeStar

/-!
# Runs of a partial step function

A system is a function `step : State → Event → Option State`. An event that is not
enabled yields `none` and ends the run. `Along` and `Meets` are properties of whole
runs: the first constrains every transition the run takes, the second is a
condition on every event in the state it meets. `along_of_step` is the induction over
runs: an invariant preserved by the events that meet a condition holds along every run
that meets it.
-/

namespace Transition

variable {State Event : Type*} (step : State → Event → Option State)

/-- Execute the events in order; an event that is not enabled stops the run. -/
def run : State → List Event → Option State
  | state, [] => some state
  | state, event :: events => (step state event).bind fun next => run next events

/-- Every transition taken by the run satisfies `Q`, given the states around it. -/
def Along (Q : State → Event → State → Prop) : State → List Event → Prop
  | _, [] => True
  | state, event :: events =>
      ∀ next, step state event = some next → Q state event next ∧ Along Q next events

/-- Every event of the run meets the condition in the state in which it is executed. -/
def Meets (C : State → Event → Prop) : State → List Event → Prop
  | _, [] => True
  | state, event :: events =>
      C state event ∧ ∀ next, step state event = some next → Meets C next events

variable {step}

instance Meets.decidable {C : State → Event → Prop} [∀ state event, Decidable (C state event)]
    (state : State) (events : List Event) : Decidable (Meets step C state events) :=
  match events with
  | [] => isTrue trivial
  | event :: events =>
      match hstep : step state event with
      | none => decidable_of_iff (C state event) (by simp [Meets, hstep])
      | some next =>
          have := Meets.decidable (C := C) next events
          decidable_of_iff (C state event ∧ Meets step C next events)
            (by simp [Meets, hstep])

/-- Conditions that agree wherever the run can be are met by the same runs. -/
theorem meets_congr {C C' : State → Event → Prop} {I : State → Prop} {P : Event → Prop}
    (hstep : ∀ state event next, I state → P event → step state event = some next → I next)
    (hiff : ∀ state event, I state → P event → (C state event ↔ C' state event))
    {state : State} (hinv : I state) {events : List Event} (hevents : ∀ event ∈ events, P event) :
    Meets step C state events ↔ Meets step C' state events := by
  induction events generalizing state with
  | nil => exact Iff.rfl
  | cons event events ih =>
      have hevent := hevents event (List.mem_cons_self ..)
      have hrest : ∀ e ∈ events, P e := fun e he => hevents e (List.mem_cons_of_mem event he)
      exact and_congr (hiff state event hinv hevent) (forall_congr' fun next =>
        imp_congr_right fun hnext => ih (hstep state event next hinv hevent hnext) hrest)

/-- Two conditions met by a run are met together. -/
theorem Meets.and {C C' : State → Event → Prop} {state : State} {events : List Event}
    (h : Meets step C state events) (h' : Meets step C' state events) :
    Meets step (fun s e => C s e ∧ C' s e) state events := by
  induction events generalizing state with
  | nil => trivial
  | cons event events ih =>
      exact ⟨⟨h.1, h'.1⟩, fun next hnext => ih (h.2 next hnext) (h'.2 next hnext)⟩

/-- An invariant that every admissible event preserves, and that gives `Q`, gives `Q` along
every run of admissible events and holds in every state they reach. -/
theorem along_of_step {C : State → Event → Prop} {I : State → Prop}
    {Q : State → Event → State → Prop}
    (hstep : ∀ state event next, I state → C state event → step state event = some next →
      I next ∧ Q state event next)
    {state : State} {events : List Event} (hinv : I state)
    (hmeets : Meets step C state events) :
    Along step Q state events ∧ ∀ final, run step state events = some final → I final := by
  induction events generalizing state with
  | nil =>
      refine ⟨trivial, fun final hrun => ?_⟩
      obtain rfl := Option.some.inj hrun
      exact hinv
  | cons event events ih =>
      refine ⟨fun next hnext => ?_, fun final hrun => ?_⟩
      · obtain ⟨hinv', hpost⟩ := hstep state event next hinv hmeets.1 hnext
        exact ⟨hpost, (ih hinv' (hmeets.2 next hnext)).1⟩
      · obtain ⟨next, hnext, hrest⟩ := Option.bind_eq_some_iff.mp hrun
        have hinv' := (hstep state event next hinv hmeets.1 hnext).1
        exact (ih hinv' (hmeets.2 next hnext)).2 final hrest

/-- If moreover every admissible event is enabled, the run does not stop. -/
theorem along_of_invariant {C : State → Event → Prop} {I : State → Prop}
    {Q : State → Event → State → Prop}
    (hstep : ∀ state event, I state → C state event →
      ∃ next, step state event = some next ∧ I next ∧ Q state event next)
    {state : State} {events : List Event} (hinv : I state)
    (hmeets : Meets step C state events) :
    Along step Q state events ∧ ∃ final, run step state events = some final ∧ I final := by
  have hsafe := along_of_step (Q := Q) (fun state event next hinv hcond hnext => by
    obtain ⟨other, hother, hinv', hpost⟩ := hstep state event hinv hcond
    obtain rfl := Option.some.inj (hother.symm.trans hnext)
    exact ⟨hinv', hpost⟩) hinv hmeets
  have htotal : ∃ final, run step state events = some final := by
    clear hsafe
    induction events generalizing state with
    | nil => exact ⟨state, rfl⟩
    | cons event events ih =>
        obtain ⟨next, hnext, hinv', _⟩ := hstep state event hinv hmeets.1
        rw [run, hnext]
        exact ih hinv' (hmeets.2 next hnext)
  obtain ⟨final, hrun⟩ := htotal
  exact ⟨hsafe.1, final, hrun, hsafe.2 final hrun⟩

/-- A condition that does not look at the state is met when every event satisfies it. -/
theorem meets_of_forall {C : Event → Prop} {events : List Event}
    (h : ∀ event ∈ events, C event) (state : State) :
    Meets step (fun _ event => C event) state events := by
  induction events generalizing state with
  | nil => trivial
  | cons event events ih =>
      exact ⟨h event (by simp), fun next _ => ih (fun e he => h e (List.mem_cons_of_mem _ he)) next⟩

/-- Where a condition on an event and the state before it says exactly when an admissible transition
satisfies `Q`, the admissible runs all of whose transitions satisfy `Q` are those that meet the
condition. -/
theorem along_iff_meets_of {C P : State → Event → Prop} {I : State → Prop}
    {Q : State → Event → State → Prop}
    (hstep : ∀ state event next, I state → P state event → step state event = some next →
      Q state event next → I next)
    (hiff : ∀ state event, I state → P state event →
      ((∀ next, step state event = some next → Q state event next) ↔ C state event))
    {state : State} {events : List Event} (hinv : I state) (hadmissible : Meets step P state events) :
    Along step Q state events ↔ Meets step C state events := by
  induction events generalizing state with
  | nil => exact Iff.rfl
  | cons event events ih =>
      obtain ⟨hevent, hevents⟩ := hadmissible
      rw [Along, Meets, ← hiff state event hinv hevent]
      constructor
      · intro h
        refine ⟨fun next hnext => (h next hnext).1, fun next hnext => ?_⟩
        have hinv' := hstep state event next hinv hevent hnext (h next hnext).1
        exact (ih hinv' (hevents next hnext)).mp (h next hnext).2
      · rintro ⟨hpost, hrest⟩ next hnext
        have hinv' := hstep state event next hinv hevent hnext (hpost next hnext)
        exact ⟨hpost next hnext, (ih hinv' (hevents next hnext)).mpr (hrest next hnext)⟩

/-- The same where every transition is admissible. -/
theorem along_iff_meets {C : State → Event → Prop} {I : State → Prop}
    {Q : State → Event → State → Prop}
    (hstep : ∀ state event next, I state → step state event = some next → Q state event next →
      I next)
    (hiff : ∀ state event, I state →
      ((∀ next, step state event = some next → Q state event next) ↔ C state event))
    {state : State} (events : List Event) (hinv : I state) :
    Along step Q state events ↔ Meets step C state events :=
  along_iff_meets_of (P := fun _ _ => True)
    (fun state event next hinv _ => hstep state event next hinv)
    (fun state event hinv _ => hiff state event hinv) hinv (meets_of_forall (fun _ _ => trivial) state)

/-- An invariant that every event preserves, and that gives `Q`, gives `Q` along every run. -/
theorem along_of_preserved {I : State → Prop} {Q : State → Event → State → Prop}
    (hstep : ∀ state event next, I state → step state event = some next →
      I next ∧ Q state event next)
    {state : State} (hinv : I state) (events : List Event) : Along step Q state events :=
  (along_of_step (C := fun _ _ => True) (fun state event next hinv _ hnext =>
    hstep state event next hinv hnext) hinv (meets_of_forall (fun _ _ => trivial) state)).1

/-- An invariant that every event preserves holds in every state a run reaches. -/
theorem run_invariant {I : State → Prop}
    (hstep : ∀ state event next, I state → step state event = some next → I next)
    {state final : State} {events : List Event} (hinv : I state)
    (hrun : run step state events = some final) : I final :=
  (along_of_step (C := fun _ _ => True) (Q := fun _ _ _ => True) (fun state event next hinv _ hnext =>
    ⟨hstep state event next hinv hnext, trivial⟩) hinv
    (meets_of_forall (fun _ _ => trivial) state)).2 final hrun

theorem Along.mono {Q Q' : State → Event → State → Prop} {state : State}
    {events : List Event} (h : Along step Q state events)
    (himp : ∀ s e s', Q s e s' → Q' s e s') : Along step Q' state events := by
  induction events generalizing state with
  | nil => trivial
  | cons event events ih =>
      exact fun next hnext => ⟨himp _ _ _ (h next hnext).1, ih (h next hnext).2⟩

/-- What holds along a run holds of the transition its last event takes. -/
theorem Along.last {Q : State → Event → State → Prop} {state middle final : State}
    {events : List Event} {event : Event} (h : Along step Q state (events ++ [event]))
    (hrun : run step state events = some middle) (hlast : step middle event = some final) :
    Q middle event final := by
  induction events generalizing state with
  | nil =>
      obtain rfl := Option.some.inj hrun
      exact (h final hlast).1
  | cons first events ih =>
      obtain ⟨next, hnext, hrest⟩ := Option.bind_eq_some_iff.mp hrun
      exact ih (h next hnext).2 hrest

end Transition
