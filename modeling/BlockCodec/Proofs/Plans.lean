import BlockCodec.Proofs.Ends
import BlockCodec.Stream.Input
import BlockCodec.Stream.Output

/-!
# Callers of streams

A caller asks a stream for one thing after the other, lends out parts of it, and goes by what it sees:
the outcome of each call, a failure as well as an answer, and where the stream stands then. A `Plan` is
such a caller. What plans do to a stream follows from single requests: a law that every request and every
loan upholds holds of whole runs (`Plan.upholds`), and streams that answer each request alike cannot be
told apart (`Plan.indistinct`).
-/

namespace BlockCodec

variable {s t Q ε ε' A α β : Type}

-- ---------------------------------------------------------------------------
-- Streams in either direction
-- ---------------------------------------------------------------------------

/-- What counts bytes against a budget and can be lent for a part of it. -/
class Channel (s : Type) where
  left : s → Nat
  moved : s → Nat
  narrow : s → Nat → Except StreamError s
  rejoin : s → s → s
  within {ε α : Type} : Nat → (StreamError → ε) → Step s ε α → Step s ε α
  result_within : ∀ {ε α : Type} (length : Nat) (refuse : StreamError → ε) (step : Step s ε α)
    (state : s), (within length refuse step).result state =
      match narrow state length with
      | .error failure => (.error (refuse failure), state)
      | .ok inner => ((step.result inner).1, rejoin state (step.result inner).2)

instance {σ : Type} : Channel (Input σ) where
  left := Input.left
  moved := Input.taken
  narrow := Input.narrow
  rejoin := Input.rejoin
  within := Input.within
  result_within length refuse step input := by
    rw [Input.within, Step.result_ofRun]
    cases input.narrow length <;> rfl

instance {κ : Type} : Channel (Output κ) where
  left := Output.remaining
  moved := Output.written
  narrow := Output.narrow
  rejoin := Output.rejoin
  within := Output.within
  result_within length refuse step output := by
    rw [Output.within, Step.result_ofRun]
    cases output.narrow length <;> rfl

/-- Failures that tell those of streams among others. -/
class OfStream (ε : Type) where
  ofStream : StreamError → ε

instance : OfStream StreamError := ⟨id⟩

/-- What can be asked of a stream. -/
class Service (s Q : Type) (ε A : outParam Type) where
  perform : Q → Step s ε A

open Channel OfStream Service

-- ---------------------------------------------------------------------------
-- Plans and their runs
-- ---------------------------------------------------------------------------

/-- The outcome of a call, and where the stream stands after it. -/
structure Sight (ε A : Type) where
  outcome : Except ε A
  left : Nat
  moved : Nat

def Sight.of [Channel s] (outcome : Except ε A) (state : s) : Sight ε A :=
  ⟨outcome, Channel.left state, Channel.moved state⟩

inductive Plan (Q ε A : Type)
  | stop (outcome : Except ε A)
  | ask (request : Q) (next : Sight ε A → Plan Q ε A)
  /-- Lends the next `length` bytes to another plan. -/
  | lend (length : Nat) (inner : Plan Q ε A) (next : Sight ε A → Plan Q ε A)

/-- A call of a run; the end of a loan comes behind the calls on what was lent. -/
inductive Event (s Q ε A : Type)
  | call (before : s) (request : Q) (outcome : Except ε A) (after : s)
  | back (outcome : Except ε A) (after : s)

def Event.outcome : Event s Q ε A → Except ε A
  | .call _ _ outcome _ => outcome
  | .back outcome _ => outcome

def Event.sight [Channel s] : Event s Q ε A → Sight ε A
  | .call _ _ outcome after => .of outcome after
  | .back outcome after => .of outcome after

namespace Plan

variable [Channel s] [OfStream ε] [Service s Q ε A]

def run : Plan Q ε A → Step s ε A
  | stop outcome => .ofExcept outcome
  | ask request next => .ofRun fun state =>
    let (outcome, after) := (perform request).result state
    (next (.of outcome after)).run.result after
  | lend length inner next => .ofRun fun state =>
    let (outcome, after) := (within length ofStream inner.run).result state
    (next (.of outcome after)).run.result after

/-- The calls on the part of a stream that is lent, if it is. -/
def onLoan (state : s) (length : Nat) (calls : s → List (Event s Q ε A)) : List (Event s Q ε A) :=
  match narrow state length with
  | .error _ => []
  | .ok part => calls part

/-- All calls of a run in order. -/
def trace : Plan Q ε A → s → List (Event s Q ε A)
  | stop _, _ => []
  | ask request next, state =>
    let (outcome, after) := (perform request).result state
    .call state request outcome after :: (next (.of outcome after)).trace after
  | lend length inner next, state =>
    let (outcome, after) := (within length ofStream inner.run).result state
    onLoan state length inner.trace ++ .back outcome after :: (next (.of outcome after)).trace after

/-- All that a caller sees in a run, and how it ends. -/
def seen (plan : Plan Q ε A) (state : s) : List (Sight ε A) × Sight ε A :=
  ((plan.trace state).map Event.sight, .of (plan.run.result state).1 (plan.run.result state).2)

-- ---------------------------------------------------------------------------
-- Laws of runs
-- ---------------------------------------------------------------------------

/-- A law of runs, from a state through calls to a state, that holds of each call and of each loan. -/
structure Upholds (R : s → List (Event s Q ε A) → s → Prop) : Prop where
  nil : ∀ state, R state [] state
  append : ∀ {start middle last before later}, R start before middle → R middle later last →
    R start (before ++ later) last
  call : ∀ state (request : Q),
    let (outcome, after) := (perform request : Step s ε A).result state
    R state [.call state request outcome after] after
  refused : ∀ {state length failure}, narrow state length = .error failure →
    R state [.back (.error (ofStream failure)) state] state
  lent : ∀ {state length part log last outcome}, narrow state length = .ok part → R part log last →
    R state (log ++ [.back outcome (rejoin state last)]) (rejoin state last)

/-- What calls and loans uphold, whole runs uphold. -/
theorem upholds {R : s → List (Event s Q ε A) → s → Prop} (h : Upholds R) (plan : Plan Q ε A)
    (state : s) : R state (plan.trace state) (plan.run.result state).2 := by
  induction plan generalizing state with
  | stop outcome => exact h.nil state
  | ask request next ih => exact h.append (h.call state request) (ih _ _)
  | lend length inner next ihinner ih =>
    rcases hr : (within length ofStream inner.run).result state with ⟨outcome, after⟩
    have hback : R state (onLoan state length inner.trace ++ [.back outcome after]) after := by
      rw [result_within] at hr
      cases hn : narrow state length with
      | error failure =>
        rw [hn] at hr
        cases hr
        rw [onLoan, hn]
        exact h.refused hn
      | ok part =>
        rw [hn] at hr
        cases hr
        rw [onLoan, hn]
        exact h.lent hn (ihinner part)
    have hrun := h.append hback (ih (.of outcome after) after)
    rw [List.append_assoc] at hrun
    simp only [trace, run, Step.result_ofRun, hr]
    exact hrun

/-- What holds of each call by itself holds of all calls of a run. -/
theorem forall_trace {P : Event s Q ε A → Prop}
    (hcall : ∀ state (request : Q), let (outcome, after) := (perform request : Step s ε A).result state
      P (.call state request outcome after))
    (hback : ∀ outcome after, P (.back outcome after)) (plan : Plan Q ε A) (state : s) :
    ∀ call ∈ plan.trace state, P call := by
  have h : Upholds fun (_ : s) (calls : List (Event s Q ε A)) (_ : s) => ∀ call ∈ calls, P call :=
    { nil := nofun
      append := fun hbefore hlater => List.forall_mem_append.mpr ⟨hbefore, hlater⟩
      call := fun state request => List.forall_mem_singleton.mpr (hcall state request)
      refused := fun _ => List.forall_mem_singleton.mpr (hback _ _)
      lent := fun _ hlog => List.forall_mem_append.mpr ⟨hlog, List.forall_mem_singleton.mpr (hback _ _)⟩ }
  exact upholds h plan state

end Plan

-- ---------------------------------------------------------------------------
-- Streams that cannot be told apart
-- ---------------------------------------------------------------------------

/-- From states that match, both steps have the same outcome and leave states that match. -/
def Echoes (M : s → t → Prop) (a : Step s ε α) (b : Step t ε α) : Prop :=
  ∀ ⦃x y⦄, M x y → (a.result x).1 = (b.result y).1 ∧ M (a.result x).2 (b.result y).2

section

variable {M : s → t → Prop} {a : Step s ε α} {b : Step t ε α} {f : α → Step s ε β} {g : α → Step t ε β}

theorem echoes_ofExcept (outcome : Except ε α) :
    Echoes M (.ofExcept outcome : Step s ε α) (.ofExcept outcome : Step t ε α) :=
  fun _ _ hm => ⟨rfl, hm⟩

theorem echoes_pure (value : α) : Echoes M (pure value : Step s ε α) (pure value : Step t ε α) :=
  fun _ _ hm => ⟨rfl, hm⟩

theorem echoes_throw (failure : ε) : Echoes M (throw failure : Step s ε α) (throw failure : Step t ε α) :=
  fun _ _ hm => ⟨rfl, hm⟩

theorem Echoes.bind (h : Echoes M a b) (hn : ∀ value, Echoes M (f value) (g value)) :
    Echoes M (a >>= f) (b >>= g) := by
  intro x y hm
  obtain ⟨houtcome, hafter⟩ := h hm
  rw [Step.result_bind, Step.result_bind]
  rcases hx : a.result x with ⟨outcome, x'⟩
  rcases hy : b.result y with ⟨outcome', y'⟩
  rw [hx, hy] at houtcome hafter
  obtain rfl : outcome = outcome' := houtcome
  cases outcome with
  | ok value => exact hn value hafter
  | error failure => exact ⟨rfl, hafter⟩

theorem Echoes.mapFailure (h : Echoes M a b) (restate : ε → ε') :
    Echoes M (a.mapFailure restate) (b.mapFailure restate) := by
  intro x y hm
  obtain ⟨houtcome, hafter⟩ := h hm
  rw [Step.result_mapFailure, Step.result_mapFailure, houtcome]
  exact ⟨rfl, hafter⟩

theorem echoes_ite {c : Prop} [Decidable c] {no : Step s ε α} {no' : Step t ε α} (hy : Echoes M a b)
    (hn : Echoes M no no') : Echoes M (if c then a else no) (if c then b else no') := by
  split
  · exact hy
  · exact hn

end

/-- States that match stand alike, answer requests alike and are lent alike. -/
structure Indistinct (Q : Type) [Channel s] [Channel t] [Service s Q ε A] [Service t Q ε A]
    (M : s → t → Prop) : Prop where
  left_eq : ∀ {x y}, M x y → left x = left y
  moved_eq : ∀ {x y}, M x y → moved x = moved y
  perform : ∀ request : Q, Echoes M (perform request : Step s ε A) (perform request : Step t ε A)
  narrow : ∀ {x y}, M x y → ∀ length,
    (∃ failure, narrow x length = .error failure ∧ narrow y length = .error failure) ∨
      ∃ part part', narrow x length = .ok part ∧ narrow y length = .ok part' ∧ M part part'
  rejoin : ∀ {x y part part'}, M x y → M part part' → M (rejoin x part) (rejoin y part')

section

variable [Channel s] [Channel t] [OfStream ε] [Service s Q ε A] [Service t Q ε A] {M : s → t → Prop}

omit [OfStream ε] in
theorem Indistinct.sight_eq (h : Indistinct Q M) {x : s} {y : t} (hm : M x y) (outcome : Except ε A) :
    Sight.of outcome x = Sight.of outcome y := by
  rw [Sight.of, Sight.of, h.left_eq hm, h.moved_eq hm]

theorem Indistinct.within (h : Indistinct Q M) (length : Nat) {a : Step s ε α} {b : Step t ε α}
    (hs : Echoes M a b) : Echoes M (within length ofStream a) (within length ofStream b) := by
  intro x y hm
  rw [result_within, result_within]
  obtain ⟨failure, hx, hy⟩ | ⟨part, part', hx, hy, hpart⟩ := h.narrow hm length
  · rw [hx, hy]
    exact ⟨rfl, hm⟩
  · rw [hx, hy]
    exact ⟨(hs hpart).1, h.rejoin hm (hs hpart).2⟩

/-- A plan sees the same of streams that match, and ends alike. -/
theorem Plan.indistinct (h : Indistinct Q M) (plan : Plan Q ε A) {x : s} {y : t} (hm : M x y) :
    (plan.trace x).map Event.sight = (plan.trace y).map Event.sight ∧
      (plan.run.result x).1 = (plan.run.result y).1 ∧ M (plan.run.result x).2 (plan.run.result y).2 := by
  induction plan generalizing x y with
  | stop outcome => exact ⟨rfl, rfl, hm⟩
  | ask request next ih =>
    obtain ⟨houtcome, hafter⟩ := h.perform request hm
    rcases hx : (perform request).result x with ⟨outcome, x'⟩
    rcases hy : (perform request).result y with ⟨outcome', y'⟩
    rw [hx, hy] at houtcome hafter
    obtain rfl : outcome = outcome' := houtcome
    obtain ⟨htrace, hend⟩ := ih (.of outcome y') hafter
    simp only [run, trace, Step.result_ofRun, hx, hy, List.map_cons, Event.sight,
      h.sight_eq hafter outcome, htrace]
    exact ⟨trivial, hend⟩
  | lend length inner next ihinner ih =>
    have hinner : Echoes M (inner.run : Step s ε A) (inner.run : Step t ε A) := fun _ _ hm => (ihinner hm).2
    obtain ⟨houtcome, hafter⟩ := h.within length hinner hm
    have hlent : (onLoan x length inner.trace).map Event.sight =
        (onLoan y length inner.trace).map Event.sight := by
      unfold onLoan
      obtain ⟨failure, hx, hy⟩ | ⟨part, part', hx, hy, hpart⟩ := h.narrow hm length
      · rw [hx, hy]
        rfl
      · rw [hx, hy]
        exact (ihinner hpart).1
    rcases hx : (within length ofStream inner.run).result x with ⟨outcome, x'⟩
    rcases hy : (within length ofStream inner.run).result y with ⟨outcome', y'⟩
    rw [hx, hy] at houtcome hafter
    obtain rfl : outcome = outcome' := houtcome
    obtain ⟨htrace, hend⟩ := ih (.of outcome y') hafter
    simp only [run, trace, Step.result_ofRun, hx, hy, List.map_append, List.map_cons, Event.sight,
      h.sight_eq hafter outcome, hlent, htrace]
    exact ⟨trivial, hend⟩

theorem Indistinct.seen_eq (h : Indistinct Q M) (plan : Plan Q ε A) {x : s} {y : t} (hm : M x y) :
    plan.seen x = plan.seen y := by
  obtain ⟨htrace, houtcome, hafter⟩ := plan.indistinct h hm
  rw [Plan.seen, Plan.seen, htrace, houtcome, h.sight_eq hafter]

end

-- ---------------------------------------------------------------------------
-- Requests of an input
-- ---------------------------------------------------------------------------

namespace Input

inductive Request
  | read (count : Nat)
  | readByte
  | readByte?
  | skip (count : Nat)
deriving Repr, DecidableEq

inductive Reply
  | bytes (bytes : Bytes)
  | byte (byte : UInt8)
  | byte? (byte? : Option UInt8)
  | done
deriving Repr, DecidableEq

variable {σ : Type} [Source σ]

def Request.perform : Request → Step (Input σ) StreamError Reply
  | .read count => do
    let bytes ← Input.read count
    pure (.bytes bytes)
  | .readByte => do
    let byte ← Input.readByte
    pure (.byte byte)
  | .readByte? => do
    let byte? ← Input.readByte?
    pure (.byte? byte?)
  | .skip count => do
    Input.skip count
    pure .done

instance : Service (Input σ) Request StreamError Reply := ⟨Request.perform⟩

end Input

-- ---------------------------------------------------------------------------
-- Requests of an output
-- ---------------------------------------------------------------------------

namespace Output

inductive Request
  | write (bytes : Bytes)
  | skip (count : Nat)
deriving Repr, DecidableEq

variable {κ : Type} [Sink κ]

def Request.perform : Request → Step (Output κ) StreamError Unit
  | .write bytes => Output.write bytes
  | .skip count => Output.skip count

instance : Service (Output κ) Request StreamError Unit := ⟨Request.perform⟩

end Output

end BlockCodec
