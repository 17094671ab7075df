/-!
# Steps over a state

A step answers or fails, and what it did to the state stays done in both cases. Streams,
blocks and handlers are all driven by steps, so that a failure in the middle of a value leaves
exactly what had been read or written by then.
-/

namespace BlockCodec

abbrev Step (s ε : Type) := ExceptT ε (StateM s)

namespace Step

variable {s t ε ε' α β : Type}

/-- A step given by its outcome and the state it leaves. -/
def ofRun (run : s → Except ε α × s) : Step s ε α := run

/-- The outcome of a step and the state it leaves. -/
def result (step : Step s ε α) (state : s) : Except ε α × s := step state

def ofExcept (outcome : Except ε α) : Step s ε α := ofRun fun state => (outcome, state)

/-- Runs a step on a part of the state; the part is put back after a failure too. -/
def onPart (get : s → t) (set : t → s → s) (step : Step t ε α) : Step s ε α :=
  ofRun fun state =>
    let (outcome, inner) := step.result (get state)
    (outcome, set inner state)

/-- Restates the failure of a step. -/
def mapFailure (restate : ε → ε') (step : Step s ε α) : Step s ε' α :=
  ofRun fun state =>
    let (outcome, state) := step.result state
    (outcome.mapError restate, state)

@[simp] theorem result_ofRun (run : s → Except ε α × s) (state : s) :
    (ofRun run).result state = run state := rfl

@[simp] theorem result_pure (value : α) (state : s) :
    (pure value : Step s ε α).result state = (.ok value, state) := rfl

@[simp] theorem result_throw (failure : ε) (state : s) :
    (throw failure : Step s ε α).result state = (.error failure, state) := rfl

theorem result_bind (step : Step s ε α) (next : α → Step s ε β) (state : s) :
    (step >>= next).result state =
      match step.result state with
      | (.ok value, state) => (next value).result state
      | (.error failure, state) => (.error failure, state) := by
  show (ExceptT.bindCont next (step state).1 : StateM s _) (step state).2 = _
  show _ = match step state with
    | (.ok value, state) => (next value).result state
    | (.error failure, state) => (.error failure, state)
  rcases step state with ⟨outcome, after⟩
  cases outcome <;> rfl

end Step

end BlockCodec
