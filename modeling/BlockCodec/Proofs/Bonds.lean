import BlockCodec.Proofs.Portions
import BlockCodec.Proofs.Walking

/-!
# Decoders over inputs that answer alike

Inputs in a `Bond` answer every request alike, and so do the parts that are lent of them. Two decoders over
such inputs, with handlers each of its own, have the same outcome and do the same to their blocks, if this
is so of the values that go through handlers. A handler may part them in one way: it fails, and what it
leaves excuses that. `Bond.keeps_messageWithin` says so of whole messages, whatever the tables are.
-/

namespace BlockCodec

variable {s t u v σ τ S T Ref ε α β : Type} [Source σ] [Source τ]

/-- Lists that match have the same places, and stay matched when both are set at one. -/
theorem forall₂_at {R : S → T → Prop} {list : List S} {other : List T} (h : List.Forall₂ R list other) (place : Nat) :
    (list[place]? = none ∧ other[place]? = none) ∨ ∃ s t, list[place]? = some s ∧ other[place]? = some t ∧ R s t ∧
      ∀ s' t', R s' t' → List.Forall₂ R (list.set place s') (other.set place t') := by
  induction h generalizing place with
  | nil => exact .inl ⟨rfl, rfl⟩
  | cons hhead htail ih =>
    cases place with
    | zero => exact .inr ⟨_, _, rfl, rfl, hhead, fun _ _ hnew => .cons hnew htail⟩
    | succ place =>
      obtain hnone | ⟨s, t, hs, ht, hmatch, hset⟩ := ih place
      · exact .inl hnone
      · exact .inr ⟨s, t, hs, ht, hmatch, fun _ _ hnew => .cons hhead (hset _ _ hnew)⟩

-- ---------------------------------------------------------------------------
-- Bonds
-- ---------------------------------------------------------------------------

/-- Pairs of inputs, by the place where they stand, that answer alike there and in every part of them. -/
structure Input.Bond (σ τ : Type) [Source σ] [Source τ] where
  Place : Type
  Match : Place → Input σ → Input τ → Prop
  alike : ∀ place, Alike (Match place)
  taken_eq : ∀ {place x y}, Match place x y → x.taken = y.taken
  bounded_eq : ∀ {place x y}, Match place x y → x.bounded = y.bounded
  narrow : ∀ {place x y}, Match place x y → ∀ length ≤ x.left, ∃ part,
    Match part (ofSource x.source length) (ofSource y.source length) ∧
      ∀ {inner inner'}, Match part inner inner' → Match place (x.rejoin inner) (y.rejoin inner')

/-- Every input matches itself. -/
def Input.Bond.same (σ : Type) [Source σ] : Input.Bond σ σ where
  Place := Unit
  Match _ x y := x = y
  alike _ :=
    { left_eq := congrArg _
      deliver := by
        rintro x _ rfl count
        exact ⟨rfl, rfl⟩
      readByte? := by
        rintro x _ rfl
        exact ⟨rfl, rfl⟩
      skip := by
        rintro count x _ rfl
        exact ⟨rfl, rfl⟩ }
  taken_eq := by
    rintro _ x _ rfl
    rfl
  bounded_eq := by
    rintro _ x _ rfl
    rfl
  narrow := by
    rintro _ x _ rfl length -
    refine ⟨(), rfl, ?_⟩
    rintro inner _ rfl
    rfl

-- ---------------------------------------------------------------------------
-- Steps side by side
-- ---------------------------------------------------------------------------

/-- How two states match, and what excuses a step that has failed. -/
structure Terms (s t : Type) where
  Match : s → t → Prop
  Excuse : s → Prop
  Excuse' : t → Prop

namespace Terms

/-- Both ended alike, or one of them has failed and is excused. -/
def Meets (terms : Terms s t) (one : Except ε α × s) (other : Except ε α × t) : Prop :=
  (one.1 = other.1 ∧ terms.Match one.2 other.2) ∨
    (∃ failure, one.1 = .error failure ∧ terms.Excuse one.2) ∨
      ∃ failure, other.1 = .error failure ∧ terms.Excuse' other.2

/-- From states that match the steps meet. -/
def Keeps (terms : Terms s t) (a : Step s ε α) (b : Step t ε α) : Prop :=
  ∀ ⦃x y⦄, terms.Match x y → terms.Meets (a.result x) (b.result y)

variable {terms : Terms s t} {a : Step s ε α} {b : Step t ε α} {f : α → Step s ε β} {g : α → Step t ε β}

theorem keeps_pure (value : α) : terms.Keeps (pure value : Step s ε α) (pure value : Step t ε α) :=
  fun _ _ h => .inl ⟨rfl, h⟩

theorem keeps_throw (failure : ε) : terms.Keeps (throw failure : Step s ε α) (throw failure : Step t ε α) :=
  fun _ _ h => .inl ⟨rfl, h⟩

theorem keeps_of_echoes (h : Echoes terms.Match a b) : terms.Keeps a b := fun _ _ hm => .inl (h hm)

/-- Where nothing is excused, both end alike. -/
theorem Keeps.echoes (h : terms.Keeps a b) (hx : ∀ x, ¬terms.Excuse x) (hy : ∀ y, ¬terms.Excuse' y) :
    Echoes terms.Match a b := by
  intro x y hm
  obtain hboth | ⟨-, -, hexcuse⟩ | ⟨-, -, hexcuse⟩ := h hm
  · exact hboth
  · exact (hx _ hexcuse).elim
  · exact (hy _ hexcuse).elim

theorem Keeps.bind (h : terms.Keeps a b) (hn : ∀ value, terms.Keeps (f value) (g value)) :
    terms.Keeps (a >>= f) (b >>= g) := by
  intro x y hm
  rcases hx : a.result x with ⟨outcome, x'⟩
  rcases hy : b.result y with ⟨outcome', y'⟩
  have hmeets := h hm
  rw [hx, hy] at hmeets
  rcases hmeets with ⟨rfl, hafter⟩ | ⟨failure, rfl, hexcuse⟩ | ⟨failure, rfl, hexcuse⟩
  · cases outcome with
    | ok value =>
      rw [Step.result_bind_ok hx, Step.result_bind_ok hy]
      exact hn value hafter
    | error failure =>
      rw [Step.result_bind_error hx, Step.result_bind_error hy]
      exact .inl ⟨rfl, hafter⟩
  · rw [Step.result_bind_error hx]
    exact .inr (.inl ⟨failure, rfl, hexcuse⟩)
  · rw [Step.result_bind_error hy]
    exact .inr (.inr ⟨failure, rfl, hexcuse⟩)

theorem keeps_ite {c : Prop} [Decidable c] {no : Step s ε α} {no' : Step t ε α} (hy : c → terms.Keeps a b)
    (hn : ¬c → terms.Keeps no no') : terms.Keeps (if c then a else no) (if c then b else no') := by
  split
  · next h => exact hy h
  · next h => exact hn h

theorem keeps_unless {c : Prop} [Decidable c] {failure : ε} {next : Unit → Step s ε α}
    {next' : Unit → Step t ε α} (hn : ¬c → terms.Keeps (next ()) (next' ())) :
    terms.Keeps (if c then (throw failure : Step s ε Unit) >>= next else next ())
      (if c then (throw failure : Step t ε Unit) >>= next' else next' ()) :=
  keeps_ite (fun _ => keeps_throw failure) hn

/-- A look at the states, which match. -/
theorem keeps_get {next : s → Step s ε α} {next' : t → Step t ε α}
    (h : ∀ x y, terms.Match x y → terms.Keeps (next x) (next' y)) :
    terms.Keeps (get >>= next) (get >>= next') := by
  intro x y hm
  rw [Step.result_bind_ok (Step.result_get _), Step.result_bind_ok (Step.result_get _)]
  exact h x y hm hm

/-- Steps meet by what each of them comes to. -/
theorem meets_of_ends {x : s} {y : t} {Q : α → s → Prop} {Q' : α → t → Prop} (ha : a.Ends x Q fun _ => terms.Excuse)
    (hb : b.Ends y Q' fun _ => terms.Excuse')
    (hm : ∀ {value value' after after'}, Q value after → Q' value' after' → value = value' ∧ terms.Match after after') :
    terms.Meets (a.result x) (b.result y) := by
  rcases hx : a.result x with ⟨failure | value, after⟩
  · exact .inr (.inl ⟨failure, rfl, ha.error hx⟩)
  rcases hy : b.result y with ⟨failure | value', after'⟩
  · exact .inr (.inr ⟨failure, rfl, hb.error hy⟩)
  obtain ⟨rfl, hafter⟩ := hm (ha.ok hx) (hb.ok hy)
  exact .inl ⟨rfl, hafter⟩

/-- What is done to the parts of two states is done to the states. -/
theorem Meets.lift {parts : Terms u v} {one : Except ε α × u} {other : Except ε α × v} {x : s} {y : t}
    (h : parts.Meets one other) (hm : parts.Match one.2 other.2 → terms.Match x y)
    (hx : parts.Excuse one.2 → terms.Excuse x) (hy : parts.Excuse' other.2 → terms.Excuse' y) :
    terms.Meets (one.1, x) (other.1, y) := by
  rcases h with ⟨houtcome, hafter⟩ | ⟨failure, hfails, hexcuse⟩ | ⟨failure, hfails, hexcuse⟩
  · exact .inl ⟨houtcome, hm hafter⟩
  · exact .inr (.inl ⟨failure, hfails, hx hexcuse⟩)
  · exact .inr (.inr ⟨failure, hfails, hy hexcuse⟩)

end Terms

open Terms

-- ---------------------------------------------------------------------------
-- Payloads and what is left of them
-- ---------------------------------------------------------------------------

/-- Skips what the input has left. -/
def Input.drain : Step (Input σ) CodecError Unit := do
  let rest := (← get).left
  (Wire.onStream (Input.skip rest)).mapFailure .wire

theorem Input.echoes_drain {M : Input σ → Input τ → Prop} (h : Alike M) :
    Echoes M (drain : Step (Input σ) CodecError Unit) (drain : Step (Input τ) CodecError Unit) := by
  intro x y hm
  rw [drain, drain, Step.result_bind_ok (Step.result_get x), Step.result_bind_ok (Step.result_get y), h.left_eq hm]
  exact ((h.skip y.left).mapFailure _).mapFailure _ hm

omit [Source σ] in
def Receive.onInput (step : Step (Input σ) CodecError α) : Receive σ S α :=
  step.onPart (·.1) fun input state => (input, state.2)

/-- A handler's work on a payload, of which nothing is left behind. -/
def Receive.drained (step : Receive σ S Unit) : Receive σ S Unit := do
  step
  Receive.onInput Input.drain

namespace Decode

omit [Source σ] in
theorem withHandler_bind (field : Field Ref) (slot : Nat) (step : Receive σ S α)
    (next : α → Step (Input σ) CodecError β) :
    withHandler field slot (step >>= fun value => Receive.onInput (next value)) =
      withHandler field slot step >>= fun value => onInput (next value) := by
  funext state
  show Step.result _ _ = Step.result _ _
  rw [Step.result_bind]
  simp only [withHandler, Step.result_ofRun]
  cases state.handlers[slot - 1]? with
  | none => rfl
  | some handler =>
    simp only [Step.result_bind]
    rcases step.result (state.input, handler) with ⟨_ | value, input, after⟩ <;> rfl

theorem handledPayload_eq [Handler Ref S] (config : DecodeConfig) (depth : Nat) (field : Field Ref) (slot : Nat) :
    (handledPayload config depth field slot : Decode σ S Unit) =
      withHandler field slot
        (Receive.drained (Handler.takePayload field { field := field.name, config, depth })) := by
  rw [Receive.drained, withHandler_bind]
  rfl

end Decode

-- ---------------------------------------------------------------------------
-- Decoders side by side
-- ---------------------------------------------------------------------------

namespace Decode

/-- How the inputs and the handlers of two decoders match, and which handlers excuse a failure. -/
structure Bond (σ τ S T : Type) [Source σ] [Source τ] where
  inputs : Input.Bond σ τ
  handlers : Terms S T

namespace Bond

variable (bond : Bond σ τ S T) {place : bond.inputs.Place} {a : Decode σ S α} {b : Decode τ T α}
  {f : α → Decode σ S β} {g : α → Decode τ T β} {field : Field Ref} {span : Span}

structure Match (place : bond.inputs.Place) (x : Decoding σ S) (y : Decoding τ T) : Prop where
  input : bond.inputs.Match place x.input y.input
  block_eq : x.block = y.block
  handlers : List.Forall₂ bond.handlers.Match x.handlers y.handlers

/-- The terms of decoders: one handler that has an excuse is enough. -/
def decoders (place : bond.inputs.Place) : Terms (Decoding σ S) (Decoding τ T) where
  Match := bond.Match place
  Excuse x := ∃ handler ∈ x.handlers, bond.handlers.Excuse handler
  Excuse' y := ∃ handler ∈ y.handlers, bond.handlers.Excuse' handler

/-- The terms of single handlers at work on the inputs. -/
def takers (place : bond.inputs.Place) : Terms (Input σ × S) (Input τ × T) where
  Match x y := bond.inputs.Match place x.1 y.1 ∧ bond.handlers.Match x.2 y.2
  Excuse x := bond.handlers.Excuse x.2
  Excuse' y := bond.handlers.Excuse' y.2

abbrev Keeps (place : bond.inputs.Place) (a : Decode σ S α) (b : Decode τ T α) : Prop :=
  (bond.decoders place).Keeps a b

/-- The bond of handlers that never part. -/
def steady (inputs : Input.Bond σ τ) (R : S → T → Prop) : Bond σ τ S T where
  inputs := inputs
  handlers :=
    { Match := R
      Excuse := fun _ => False
      Excuse' := fun _ => False }

theorem Keeps.echoes_of_steady {inputs : Input.Bond σ τ} {R : S → T → Prop} {place : inputs.Place}
    (h : (steady inputs R).Keeps place a b) : Echoes ((steady inputs R).Match place) a b := by
  refine h.echoes ?_ ?_
  · rintro _ ⟨_, _, hexcuse⟩
    exact hexcuse
  · rintro _ ⟨_, _, hexcuse⟩
    exact hexcuse

variable {bond}

theorem keeps_onInput {step : Step (Input σ) CodecError α} {step' : Step (Input τ) CodecError α}
    (h : Echoes (bond.inputs.Match place) step step') :
    bond.Keeps place (onInput step : Decode σ S α) (onInput step' : Decode τ T α) := by
  intro x y hm
  obtain ⟨houtcome, hafter⟩ := h hm.input
  exact .inl ⟨houtcome, hafter, hm.block_eq, hm.handlers⟩

theorem echoes_onInput {step : Step (Input σ) CodecError α} {step' : Step (Input τ) CodecError α}
    (h : Echoes (bond.inputs.Match place) step step') :
    Echoes (bond.takers place).Match (Receive.onInput step) (Receive.onInput step') := by
  intro x y hm
  obtain ⟨houtcome, hafter⟩ := h hm.1
  exact ⟨houtcome, hafter, hm.2⟩

theorem keeps_onWire {step : Wire.Read σ α} {step' : Wire.Read τ α}
    (h : Echoes (bond.inputs.Match place) step step') :
    bond.Keeps place (onWire step : Decode σ S α) (onWire step' : Decode τ T α) :=
  keeps_onInput (h.mapFailure _)

theorem keeps_onBlock (edit : Edit α) :
    bond.Keeps place (onBlock edit : Decode σ S α) (onBlock edit : Decode τ T α) := by
  intro x y hm
  simp only [onBlock, Step.result_onPart, hm.block_eq]
  exact .inl ⟨rfl, hm.input, rfl, hm.handlers⟩

theorem keeps_within (h : ∀ part, bond.Keeps part a b) (length : Nat) :
    bond.Keeps place (within length a) (within length b) := by
  intro x y hm
  have hleft := (bond.inputs.alike place).left_eq hm.input
  simp only [within, Step.result_ofRun, Input.narrow, hleft]
  by_cases hlt : y.input.left < length
  · rw [if_pos hlt, if_pos hlt]
    exact .inl ⟨rfl, hm⟩
  · rw [if_neg hlt, if_neg hlt]
    obtain ⟨part, hpart, hback⟩ := bond.inputs.narrow hm.input length (by omega)
    have hinner : (bond.decoders part).Meets (a.result { x with input := .ofSource x.input.source length })
        (b.result { y with input := .ofSource y.input.source length }) :=
      h part ⟨hpart, hm.block_eq, hm.handlers⟩
    exact hinner.lift (fun hafter => ⟨hback hafter.input, hafter.block_eq, hafter.handlers⟩) id id

theorem keeps_inside (h : bond.Keeps place a b) :
    bond.Keeps place (inside field span a) (inside field span b) := by
  intro x y hm
  simp only [inside, Step.result_ofRun, hm.block_eq]
  cases y.block.slice? span with
  | none => exact .inl ⟨rfl, hm⟩
  | some stored =>
    have hinner : (bond.decoders place).Meets (a.result { x with block := stored })
        (b.result { y with block := stored }) :=
      h ⟨hm.input, rfl, hm.handlers⟩
    exact hinner.lift (fun hafter => ⟨hafter.input, by rw [hafter.block_eq], hafter.handlers⟩) id id

-- ---------------------------------------------------------------------------
-- Values
-- ---------------------------------------------------------------------------

variable {schema : Schema Ref} {config : DecodeConfig} {table : Table Ref} {type : WireType}
  {nested : Ref → Decode σ S Unit} {nested' : Ref → Decode τ T Unit}

/-- What arrived before a failure is in both blocks. -/
theorem keeps_fill (start count : Nat) :
    bond.Keeps place (fill start count : Decode σ S Unit) (fill start count : Decode τ T Unit) := by
  intro x y hm
  obtain ⟨hdelivery, hafter⟩ := (bond.inputs.alike place).deliver hm.input count
  simp only [fill, Step.result_ofRun, hdelivery, hm.block_eq]
  cases (Input.deliver count y.input).1.failure? <;> exact .inl ⟨rfl, hafter, rfl, hm.handlers⟩

theorem keeps_readLength :
    bond.Keeps place (onWire Wire.readLength : Decode σ S Nat) (onWire Wire.readLength : Decode τ T Nat) :=
  keeps_onWire (Wire.echoes_readLength (bond.inputs.alike place))

theorem keeps_skipValue (number : Nat) (type : WireType) :
    bond.Keeps place (skipValue number type : Decode σ S Unit) (skipValue number type : Decode τ T Unit) :=
  keeps_onInput ((Wire.echoes_skipField (bond.inputs.alike place) type).mapFailure _)

theorem keeps_text (config : DecodeConfig) (field : Field Ref) :
    bond.Keeps place (text config field : Decode σ S Unit) (text config field : Decode τ T Unit) := by
  refine keeps_readLength.bind fun length => keeps_get fun x y hm => ?_
  rw [hm.block_eq]
  refine keeps_unless fun _ => (keeps_fill 0 length).bind fun _ => (keeps_onBlock _).bind fun _ => ?_
  refine keeps_get fun x y hm => ?_
  rw [hm.block_eq]
  exact keeps_ite (fun _ => keeps_throw _) fun _ => keeps_pure ()

theorem keeps_payload (field : Field Ref) :
    bond.Keeps place (payload field : Decode σ S Unit) (payload field : Decode τ T Unit) := by
  refine keeps_readLength.bind fun length => keeps_get fun x y hm => ?_
  rw [hm.block_eq]
  refine keeps_unless fun _ => keeps_unless fun _ => ?_
  exact (keeps_fill 4 length).bind fun _ => keeps_onBlock _

theorem keeps_number (field : Field Ref) :
    bond.Keeps place (number field : Decode σ S Scalar) (number field : Decode τ T Scalar) := by
  have halike := bond.inputs.alike place
  refine keeps_onInput ?_
  obtain ⟨-, f, hf⟩ | ⟨-, f, hf⟩ | ⟨-, f, hf⟩ | ⟨-, f, hf⟩ | ⟨-, hf⟩ := readScalar_forms field <;>
    rw [hf σ, hf τ]
  · exact ((Wire.echoes_readVarint halike).mapFailure _).bind fun _ => echoes_pure _
  · exact ((Wire.echoes_readZigZag halike).mapFailure _).bind fun _ => echoes_pure _
  · exact ((Wire.echoes_readFixed32 halike).mapFailure _).bind fun _ => echoes_pure _
  · exact ((Wire.echoes_readFixed64 halike).mapFailure _).bind fun _ => echoes_pure _
  · exact echoes_throw _

/-- The messages are decoded alike. -/
def KeepsNested (bond : Bond σ τ S T) (nested : Ref → Decode σ S Unit) (nested' : Ref → Decode τ T Unit) :
    Prop :=
  ∀ inner (place : bond.inputs.Place), bond.Keeps place (nested inner) (nested' inner)

theorem keeps_value (hn : bond.KeepsNested nested nested') :
    bond.Keeps place (value config nested field) (value config nested' field) := by
  unfold value
  split
  · exact keeps_text config field
  · exact keeps_payload field
  · next inner hk =>
    refine keeps_readLength.bind fun length => keeps_within (fun part => ?_) length
    refine (hn inner part).bind fun _ => keeps_get fun x y hm => ?_
    have hleft := (bond.inputs.alike part).left_eq hm.input
    simp only [Input.isExhausted, hleft]
    exact keeps_ite (fun _ => keeps_throw _) fun _ => keeps_pure ()
  · exact (keeps_number field).bind fun _ => keeps_onBlock _

theorem keeps_nextElement (field : Field Ref) :
    bond.Keeps place (nextElement field : Decode σ S Nat) (nextElement field : Decode τ T Nat) :=
  (keeps_onBlock _).bind fun _ => keeps_unless fun _ => keeps_pure _

/-- Both go on while their inputs have bytes left. -/
theorem keeps_unless_exhausted {step : Decode σ S Unit} {step' : Decode τ T Unit}
    (h : bond.Keeps place step step') :
    bond.Keeps place (do if (← get).input.isExhausted then pure () else step)
      (do if (← get).input.isExhausted then pure () else step') := by
  refine keeps_get fun x y hm => ?_
  simp only [Input.isExhausted, (bond.inputs.alike place).left_eq hm.input]
  exact keeps_ite (fun _ => keeps_pure ()) fun _ => h

theorem keeps_packedElements (field : Field Ref) (room : Nat) :
    bond.Keeps place (packedElements field room : Decode σ S Unit) (packedElements field room : Decode τ T Unit) := by
  induction room with
  | zero => exact keeps_pure ()
  | succ room ih =>
    refine keeps_unless_exhausted ((keeps_nextElement field).bind fun _ => (keeps_number field).bind fun _ => ?_)
    exact (keeps_onBlock _).bind fun _ => (keeps_onBlock _).bind fun _ => ih

theorem keeps_element (hn : bond.KeepsNested nested nested') :
    bond.Keeps place (element schema config nested field) (element schema config nested' field) := by
  have hvalue : bond.Keeps place (value config nested field) (value config nested' field) := keeps_value hn
  refine (keeps_nextElement field).bind fun _ => Keeps.bind (keeps_inside ?_) fun _ => keeps_onBlock _
  split
  · exact (keeps_onBlock _).bind fun _ => hvalue
  · exact hvalue

theorem keeps_stored (hn : bond.KeepsNested nested nested') :
    bond.Keeps place (stored schema config nested table field type)
      (stored schema config nested' table field type) := by
  have hinside : bond.Keeps place (Decode.inside field field.data (value config nested field))
      (Decode.inside field field.data (value config nested' field)) := keeps_inside (keeps_value hn)
  unfold stored
  split
  · refine keeps_ite (fun _ => keeps_readLength.bind fun length => ?_) fun _ => keeps_element hn
    exact keeps_within (fun _ => keeps_packedElements field length) length
  · refine (keeps_onBlock _).bind fun _ => keeps_ite (fun _ => ?_) fun _ => hinside
    exact (keeps_onBlock _).bind fun _ => hinside
  · exact hinside.bind fun _ => keeps_ite (fun _ => keeps_onBlock _) fun _ => keeps_pure ()
  · exact hinside

-- ---------------------------------------------------------------------------
-- Values that go through handlers
-- ---------------------------------------------------------------------------

section

variable {step : Receive σ S α} {step' : Receive τ T α}

theorem keeps_withHandler (field : Field Ref) (slot : Nat) (h : (bond.takers place).Keeps step step') :
    bond.Keeps place (withHandler field slot step) (withHandler field slot step') := by
  intro x y hm
  simp only [withHandler, Step.result_ofRun]
  rcases forall₂_at hm.handlers (slot - 1) with ⟨hx, hy⟩ | ⟨s, t, hx, hy, hmatch, hset⟩
  · rw [hx, hy]
    exact .inl ⟨rfl, hm⟩
  · rw [hx, hy]
    refine (h ⟨hm.input, hmatch⟩).lift (fun hafter => ⟨hafter.1, hm.block_eq, hset _ _ hafter.2⟩) ?_ ?_
    · exact fun hexcuse => ⟨_, List.mem_set (List.getElem?_eq_some_iff.mp hx).1 _, hexcuse⟩
    · exact fun hexcuse => ⟨_, List.mem_set (List.getElem?_eq_some_iff.mp hy).1 _, hexcuse⟩

variable [Handler Ref S] [Handler Ref T] {depth : Nat}

/-- The handlers of the two decoders take alike what they are given. -/
structure Serves (Ref : Type) [Handler Ref S] [Handler Ref T] (bond : Bond σ τ S T) : Prop where
  scalar : ∀ (field : Field Ref) scalar,
    bond.handlers.Keeps (Handler.takeScalar field scalar) (Handler.takeScalar field scalar)
  payload : ∀ place (field : Field Ref) payload, (bond.takers place).Keeps
    (Receive.drained (Handler.takePayload field payload)) (Receive.drained (Handler.takePayload field payload))

theorem keeps_handledNumber (h : bond.Serves Ref) (field : Field Ref) (slot : Nat) :
    bond.Keeps place (handledNumber field slot) (handledNumber field slot) := by
  refine (keeps_number field).bind fun scalar => keeps_withHandler field slot fun x y hm => ?_
  exact (h.scalar field scalar hm.2).lift (fun hafter => ⟨hm.1, hafter⟩) id id

theorem keeps_handledPayload (h : bond.Serves Ref) (field : Field Ref) (slot : Nat) :
    bond.Keeps place (handledPayload config depth field slot) (handledPayload config depth field slot) := by
  rw [handledPayload_eq, handledPayload_eq]
  exact keeps_withHandler field slot (h.payload place field _)

theorem keeps_handledElements (h : bond.Serves Ref) (field : Field Ref) (slot room : Nat) :
    bond.Keeps place (handledElements field slot room) (handledElements field slot room) := by
  induction room with
  | zero => exact keeps_pure ()
  | succ room ih => exact keeps_unless_exhausted ((keeps_handledNumber h field slot).bind fun _ => ih)

theorem keeps_handled (h : bond.Serves Ref) (field : Field Ref) :
    bond.Keeps place (handled config depth field type) (handled config depth field type) := by
  refine (keeps_onBlock _).bind fun slot => keeps_ite (fun _ => keeps_skipValue _ _) fun _ => ?_
  refine Keeps.bind (keeps_get fun x y hm => ?_) fun _ => ?_
  · rw [hm.handlers.length_eq]
    exact keeps_ite (fun _ => keeps_throw _) fun _ => keeps_pure ()
  refine keeps_ite (fun _ => ?_) fun _ => keeps_handledNumber h field slot
  refine keeps_readLength.bind fun length => keeps_within (fun part => ?_) length
  exact keeps_ite (fun _ => keeps_handledElements h field slot length) fun _ => keeps_handledPayload h field slot

-- ---------------------------------------------------------------------------
-- Messages
-- ---------------------------------------------------------------------------

theorem keeps_record (h : bond.Serves Ref) (hn : bond.KeepsNested nested nested') {number : Nat}
    (found : Option (Entry Ref)) :
    bond.Keeps place (record schema config nested depth table type number found)
      (record schema config nested' depth table type number found) := by
  have hskip : bond.Keeps place (do skipValue number type; pure none : Decode σ S (Option Nat))
      (do skipValue number type; pure none : Decode τ T (Option Nat)) :=
    (keeps_skipValue number type).bind fun _ => keeps_pure none
  unfold record
  split
  · exact keeps_unless fun _ => hskip
  · next entry =>
    refine keeps_ite (fun _ => keeps_ite (fun _ => ?_) fun _ => ?_) fun _ => keeps_unless fun _ => hskip
    · exact (keeps_handled h _).bind fun _ => keeps_pure _
    · exact (keeps_stored hn).bind fun _ => keeps_pure _

theorem keeps_walk (h : bond.Serves Ref) (hn : bond.KeepsNested nested nested') (room : Nat) (cursor : Cursor)
    (seen : List Nat) :
    bond.Keeps place (walk schema config nested depth table room cursor seen)
      (walk schema config nested' depth table room cursor seen) := by
  induction room generalizing cursor seen with
  | zero => exact keeps_pure seen
  | succ room ih =>
    refine (keeps_onWire (Wire.echoes_readTag (bond.inputs.alike place))).bind fun header => ?_
    match header with
    | none => exact keeps_pure seen
    | some (number, type) => exact (keeps_record h hn _).bind fun _ => ih _ _

/-- Messages are decoded alike over inputs in a bond if the handlers take alike what they are given. -/
theorem keeps_messageWithin (h : bond.Serves Ref) (schema : Schema Ref) (config : DecodeConfig) (levels : Nat) :
    bond.KeepsNested (messageWithin schema config levels) (messageWithin schema config levels) := by
  induction levels with
  | zero => exact fun _ _ => keeps_throw _
  | succ levels ih =>
    intro ref place
    unfold messageWithin
    simp only [fields_eq_walk]
    refine (keeps_onBlock _).bind fun _ => keeps_get fun x y hm => ?_
    rw [(bond.inputs.alike place).left_eq hm.input]
    refine (keeps_walk h ih _ _ _).bind fun seen => ?_
    unfold checkRequired
    split
    · exact keeps_pure ()
    · exact keeps_throw _

theorem keeps_decodeMessage (h : bond.Serves Ref) (schema : Schema Ref) (config : DecodeConfig) (ref : Ref) :
    bond.Keeps place (decodeMessage schema config ref) (decodeMessage schema config ref) :=
  (keeps_onBlock _).bind fun _ => keeps_messageWithin h schema config _ ref place

end

end Bond

end Decode

end BlockCodec
