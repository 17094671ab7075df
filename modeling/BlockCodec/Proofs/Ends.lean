import Mathlib
import BlockCodec.Step

/-!
# How steps end

`Ends` is the contract of a step at a state: what holds of its answer and of the state it leaves,
and what holds of its failure. Contracts compose along `bind`, so a step that is put together
from others is followed without opening them.
-/

namespace BlockCodec

variable {s t ε ε' α β : Type}

-- ---------------------------------------------------------------------------
-- Outcomes without a state
-- ---------------------------------------------------------------------------

theorem bind_eq_ok {outcome : Except ε α} {next : α → Except ε β} {value : β} :
    outcome >>= next = .ok value ↔ ∃ a, outcome = .ok a ∧ next a = .ok value := by
  cases outcome <;> simp [bind, Except.bind]

theorem unit_bind_eq_ok {outcome : Except ε Unit} {next : Unit → Except ε β} {value : β} :
    outcome >>= next = .ok value ↔ outcome = .ok () ∧ next () = .ok value := by
  cases outcome <;> simp [bind, Except.bind]

theorem pure_eq_ok {a b : α} : (pure a : Except ε α) = .ok b ↔ a = b := by
  simp [pure, Except.pure]

theorem bind_ok (a : α) (next : α → Except ε β) : (Except.ok a >>= next) = next a := rfl

theorem forM_eq_ok {f : α → Except ε Unit} {list : List α} :
    list.forM f = .ok () ↔ ∀ a ∈ list, f a = .ok () := by
  induction list with
  | nil => simp [pure, Except.pure]
  | cons a rest ih =>
    rw [List.forM, unit_bind_eq_ok, ih, List.forall_mem_cons]

namespace Step

-- ---------------------------------------------------------------------------
-- Results of the building blocks
-- ---------------------------------------------------------------------------

@[simp] theorem result_get (state : s) :
    (get : Step s ε s).result state = (.ok state, state) := rfl

@[simp] theorem result_set (after state : s) :
    (set after : Step s ε PUnit).result state = (.ok ⟨⟩, after) := rfl

@[simp] theorem result_modify (f : s → s) (state : s) :
    (modify f : Step s ε PUnit).result state = (.ok ⟨⟩, f state) := rfl

@[simp] theorem result_ofExcept (outcome : Except ε α) (state : s) :
    (ofExcept outcome).result state = (outcome, state) := rfl

theorem ofExcept_ok (value : α) : (ofExcept (.ok value) : Step s ε α) = pure value := rfl

@[simp] theorem result_onPart (get : s → t) (set : t → s → s) (step : Step t ε α) (state : s) :
    (step.onPart get set).result state =
      ((step.result (get state)).1, set (step.result (get state)).2 state) := rfl

@[simp] theorem result_mapFailure (restate : ε → ε') (step : Step s ε α) (state : s) :
    (step.mapFailure restate).result state =
      ((step.result state).1.mapError restate, (step.result state).2) := rfl

theorem mapFailure_bind (restate : ε → ε') (step : Step s ε α) (next : α → Step s ε β) :
    (step >>= next).mapFailure restate =
      step.mapFailure restate >>= fun value => (next value).mapFailure restate := by
  funext state
  show ((step >>= next).mapFailure restate).result state =
    (step.mapFailure restate >>= fun value => (next value).mapFailure restate).result state
  rw [result_mapFailure, result_bind, result_bind, result_mapFailure]
  rcases step.result state with ⟨_ | _, _⟩ <;> rfl

/-- Steps on the same part may be run one after the other there, when what is put back is found again. -/
theorem onPart_bind {get : s → t} {set : t → s → s} (hget : ∀ inner state, get (set inner state) = inner)
    (hset : ∀ inner other state, set inner (set other state) = set inner state) (step : Step t ε α)
    (next : α → Step t ε β) :
    (step >>= next).onPart get set = step.onPart get set >>= fun value => (next value).onPart get set := by
  funext state
  show ((step >>= next).onPart get set).result state =
    (step.onPart get set >>= fun value => (next value).onPart get set).result state
  rw [result_onPart, result_bind, result_bind, result_onPart]
  rcases step.result (get state) with ⟨_ | _, _⟩
  · rfl
  · simp only [result_onPart, hget, hset]

theorem result_bind_ok {step : Step s ε α} {next : α → Step s ε β} {state after : s} {value : α}
    (h : step.result state = (.ok value, after)) :
    (step >>= next).result state = (next value).result after := by
  rw [result_bind, h]

theorem result_bind_error {step : Step s ε α} {next : α → Step s ε β} {state after : s}
    {failure : ε} (h : step.result state = (.error failure, after)) :
    (step >>= next).result state = (.error failure, after) := by
  rw [result_bind, h]

theorem result_bind_eq_ok {step : Step s ε α} {next : α → Step s ε β} {state after : s} {value : β} :
    (step >>= next).result state = (.ok value, after) ↔
      ∃ a middle, step.result state = (.ok a, middle) ∧
        (next a).result middle = (.ok value, after) := by
  rcases hr : step.result state with ⟨outcome, middle⟩
  cases outcome with
  | ok a =>
    rw [result_bind_ok hr]
    constructor
    · exact fun h => ⟨a, middle, rfl, h⟩
    · rintro ⟨_, _, h, hn⟩
      cases h
      exact hn
  | error failure =>
    rw [result_bind_error hr]
    simp

theorem result_mapFailure_eq_ok {step : Step s ε α} {restate : ε → ε'} {state after : s} {value : α}
    (h : (step.mapFailure restate).result state = (.ok value, after)) :
    step.result state = (.ok value, after) := by
  rw [result_mapFailure] at h
  rcases hr : step.result state with ⟨outcome, last⟩
  cases outcome <;> simp_all [Except.mapError]

-- ---------------------------------------------------------------------------
-- Contracts
-- ---------------------------------------------------------------------------

/-- From `state` the step answers as `Q` says or fails as `E` says. -/
def Ends (step : Step s ε α) (state : s) (Q : α → s → Prop) (E : ε → s → Prop) : Prop :=
  match step.result state with
  | (.ok value, after) => Q value after
  | (.error failure, after) => E failure after

variable {step : Step s ε α} {state : s} {Q Q' : α → s → Prop} {E E' : ε → s → Prop}

theorem Ends.of_ok {value : α} {after : s} (h : step.result state = (.ok value, after))
    (hq : Q value after) : step.Ends state Q E := by
  rw [Ends, h]
  exact hq

theorem Ends.of_error {failure : ε} {after : s} (h : step.result state = (.error failure, after))
    (he : E failure after) : step.Ends state Q E := by
  rw [Ends, h]
  exact he

theorem Ends.ok (h : step.Ends state Q E) {value : α} {after : s}
    (hr : step.result state = (.ok value, after)) : Q value after := by
  rwa [Ends, hr] at h

theorem Ends.error (h : step.Ends state Q E) {failure : ε} {after : s}
    (hr : step.result state = (.error failure, after)) : E failure after := by
  rwa [Ends, hr] at h

theorem Ends.mono (h : step.Ends state Q E) (hq : ∀ a u, Q a u → Q' a u)
    (he : ∀ e u, E e u → E' e u) : step.Ends state Q' E' := by
  unfold Ends at h ⊢
  split at h
  · exact hq _ _ h
  · exact he _ _ h

theorem Ends.congr {other : Step s ε α} {start : s} (h : other.Ends start Q E)
    (hr : step.result state = other.result start) : step.Ends state Q E := by
  rwa [Ends, hr]

theorem Ends.and (h : step.Ends state Q E) (h' : step.Ends state Q' E') :
    step.Ends state (fun a u => Q a u ∧ Q' a u) fun e u => E e u ∧ E' e u := by
  unfold Ends at *
  split at h <;> simp_all

/-- A contract that says the same of every state left behind. -/
theorem Ends.left {P : s → Prop} (h : step.Ends state (fun _ => P) fun _ => P) :
    P (step.result state).2 := by
  unfold Ends at h
  split at h <;> simp_all

theorem Ends.answers (h : step.Ends state Q fun _ _ => False) :
    ∃ value after, step.result state = (.ok value, after) ∧ Q value after := by
  unfold Ends at h
  split at h
  · next value after hr => exact ⟨value, after, hr, h⟩
  · exact h.elim

theorem Ends.fails (h : step.Ends state (fun _ _ => False) E) :
    ∃ failure after, step.result state = (.error failure, after) ∧ E failure after := by
  unfold Ends at h
  split at h
  · exact h.elim
  · next failure after hr => exact ⟨failure, after, hr, h⟩

theorem Ends.bind {P : α → s → Prop} {next : α → Step s ε β} {Q : β → s → Prop}
    (h : step.Ends state P E) (hn : ∀ a u, P a u → (next a).Ends u Q E) :
    (step >>= next).Ends state Q E := by
  unfold Ends at h
  split at h
  · next hr =>
    have := hn _ _ h
    rw [Ends] at this ⊢
    rwa [result_bind_ok hr]
  · next hr => exact .of_error (result_bind_error hr) h

theorem ends_pure {value : α} (h : Q value state) : (pure value : Step s ε α).Ends state Q E := h

theorem ends_throw {failure : ε} (h : E failure state) :
    (throw failure : Step s ε α).Ends state Q E := h

theorem ends_get {Q : s → s → Prop} (h : Q state state) : (get : Step s ε s).Ends state Q E := h

theorem ends_ite {c : Prop} [Decidable c] {yes no : Step s ε α} (hy : c → yes.Ends state Q E)
    (hn : ¬c → no.Ends state Q E) : (if c then yes else no).Ends state Q E := by
  split
  · next h => exact hy h
  · next h => exact hn h

/-- A failure thrown in front of the rest of a step. -/
theorem ends_unless {c : Prop} [Decidable c] {failure : ε} {next : Unit → Step s ε α}
    (hc : c → E failure state) (hn : ¬c → (next ()).Ends state Q E) :
    (if c then (throw failure : Step s ε Unit) >>= next else next ()).Ends state Q E :=
  ends_ite (fun h => Ends.bind (ends_throw (hc h)) (P := fun _ _ => False) fun _ _ h => h.elim) hn

theorem ends_ofExcept {outcome : Except ε α} (hq : ∀ value, outcome = .ok value → Q value state)
    (he : ∀ failure, outcome = .error failure → E failure state) :
    (ofExcept outcome).Ends state Q E := by
  cases h : outcome with
  | ok value => exact hq value h
  | error failure => exact he failure h

theorem ends_onPart {get : s → t} {set : t → s → s} {step : Step t ε α}
    (h : step.Ends (get state) (fun a u => Q a (set u state)) fun e u => E e (set u state)) :
    (step.onPart get set).Ends state Q E := by
  unfold Ends at h ⊢
  rw [result_onPart]
  split at h <;> simp_all

theorem ends_mapFailure {restate : ε → ε'} {E : ε' → s → Prop}
    (h : step.Ends state Q fun e u => E (restate e) u) :
    (step.mapFailure restate).Ends state Q E := by
  unfold Ends at h ⊢
  rw [result_mapFailure]
  split at h <;> simp_all [Except.mapError]

/-- The steps for the members of a list, each from a state that the ones before it may leave. -/
theorem Ends.forM {P : s → Prop} {f : α → Step s ε PUnit} {list : List α}
    (h : ∀ a ∈ list, ∀ u, P u → (f a).Ends u (fun _ => P) E) {state : s} (hs : P state) :
    (list.forM f).Ends state (fun _ => P) E := by
  induction list generalizing state with
  | nil => exact hs
  | cons a rest ih =>
    rw [List.forM]
    refine Ends.bind (h a List.mem_cons_self state hs) fun _ u hu => ?_
    exact ih (fun b hb => h b (List.mem_cons_of_mem _ hb)) hu

end Step

end BlockCodec
