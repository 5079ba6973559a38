import Kumo.Lib.Transition

/-!
# Two systems in step

Two systems with the same events, and a relation between their states. If every event leads
related states to related states, or stops both systems, so does every run.
-/

namespace Transition

variable {State State' Event Output : Type*} {step : State → Event → Option State}
  {step' : State' → Event → Option State'} {R : State → State' → Prop}

/-- From related states an event leads to related states, or is enabled in neither. -/
def InStep (step : State → Event → Option State) (step' : State' → Event → Option State')
    (R : State → State' → Prop) : Prop :=
  ∀ state state' event, R state state' → Option.Rel R (step state event) (step' state' event)

/-- So does a run. -/
theorem InStep.runs (h : InStep step step' R) {state : State} {state' : State'}
    (hrel : R state state') (events : List Event) :
    Option.Rel R (run step state events) (run step' state' events) := by
  induction events generalizing state state' with
  | nil => exact .some hrel
  | cons event events ih =>
      have hfirst := h state state' event hrel
      rw [Transition.run, Transition.run]
      generalize step state event = next, step' state' event = next' at hfirst
      cases hfirst with
      | none => exact .none
      | some hnext => exact ih hnext

/-- What both systems show of themselves after a run is the same. -/
theorem InStep.output_eq (h : InStep step step' R) {output : State → Output}
    {output' : State' → Output}
    (hout : ∀ state state', R state state' → output state = output' state') {state : State}
    {state' : State'} (hrel : R state state') (events : List Event) :
    (run step state events).map output = (run step' state' events).map output' := by
  have hend := h.runs hrel events
  generalize run step state events = final, run step' state' events = final' at hend
  cases hend with
  | none => rfl
  | some hfinal => exact congrArg some (hout _ _ hfinal)

end Transition
