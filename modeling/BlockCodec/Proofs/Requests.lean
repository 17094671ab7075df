import BlockCodec.Message.Collect
import BlockCodec.Proofs.Bonds

/-!
# What handlers do with a payload

A handler may read a payload, skip in it, lend parts of it to steps of its own and decode messages out of
it, as far as it likes and going by whatever it sees of all that. All of it goes by requests to the input,
never by the source behind it. Such steps cannot tell inputs in a bond apart (`ByRequest.echoes`), not even
through the handlers of the messages that they decode.
-/

namespace BlockCodec

variable {σ S T Ref α β : Type} [Source σ]

-- ---------------------------------------------------------------------------
-- What a handler may do
-- ---------------------------------------------------------------------------

namespace Receive

omit [Source σ] in
/-- What a handler does by itself; it knows where its input stands. -/
def own (run : (left taken : Nat) → (bounded : Bool) → S → Except CodecError α × S) : Receive σ S α :=
  .ofRun fun (input, state) =>
    let (outcome, after) := run input.left input.taken input.bounded state
    (outcome, input, after)

/-- Bytes as they arrive, and the failure that cut them short. -/
def deliver (count : Nat) : Receive σ S Delivery :=
  .ofRun fun (input, state) =>
    let (delivery, input) := input.deliver count
    (.ok delivery, input, state)

omit [Source σ] in
def onStream (step : Step (Input σ) StreamError α) : Receive σ S α := onInput (step.mapFailure .stream)

omit [Source σ] in
/-- Lends the next `length` bytes of the input to a step. -/
def within (length : Nat) (step : Receive σ S α) : Receive σ S α :=
  .ofRun fun (input, state) =>
    match input.narrow length with
    | .error failure => (.error (.stream failure), input, state)
    | .ok part =>
      let (outcome, part, state) := step.result (part, state)
      (outcome, input.rejoin part, state)

omit [Source σ] in
/-- Goes on by the outcome of a step, a failure as well as an answer. -/
def follow (step : Receive σ S α) (next : Except CodecError α → Receive σ S β) : Receive σ S β :=
  .ofRun fun state =>
    let (outcome, after) := step.result state
    (next outcome).result after

omit [Source σ] in
/-- Runs a decoder on the input, with a block and with handlers that are handed back in any case. -/
def host (decoder : Decode σ T Unit) (block : Bytes) (handlers : List T) :
    Receive σ S (Except CodecError Unit × Bytes × List T) :=
  .ofRun fun (input, state) =>
    let (outcome, after) := decoder.result { input, block, handlers }
    (.ok (outcome, after.block, after.handlers), after.input, state)

/-- The step is made of requests to its input. Messages are decoded with handlers that go by requests in
turn. -/
inductive ByRequest : {S α : Type} → Receive σ S α → Prop
  | own {S α : Type} (run : Nat → Nat → Bool → S → Except CodecError α × S) :
      ByRequest (own run : Receive σ S α)
  | deliver {S : Type} (count : Nat) : ByRequest (deliver count : Receive σ S Delivery)
  | readByte? {S : Type} : ByRequest (onStream Input.readByte? : Receive σ S (Option UInt8))
  | skip {S : Type} (count : Nat) : ByRequest (onStream (Input.skip count) : Receive σ S Unit)
  | within {S α : Type} {step : Receive σ S α} (length : Nat) (h : ByRequest step) :
      ByRequest (within length step)
  | follow {S α β : Type} {step : Receive σ S α} {next : Except CodecError α → Receive σ S β}
      (h : ByRequest step) (hn : ∀ outcome, ByRequest (next outcome)) : ByRequest (follow step next)
  | message {S T Ref : Type} [Handler Ref T] (schema : Schema Ref) (config : DecodeConfig) (depth : Nat)
      (ref : Ref) (block : Bytes) (handlers : List T)
      (h : ∀ (field : Field Ref) payload, ByRequest (Handler.takePayload field payload : Receive σ T Unit)) :
      ByRequest (host (Decode.message schema config depth ref) block handlers : Receive σ S _)

end Receive

/-- Whatever payload it is given, the handler goes by requests. -/
def Handler.ByRequest (σ Ref S : Type) [Source σ] [Handler Ref S] : Prop :=
  ∀ (field : Field Ref) payload, (Handler.takePayload field payload : Receive σ S Unit).ByRequest

-- ---------------------------------------------------------------------------
-- Ways to read a payload
-- ---------------------------------------------------------------------------

namespace Receive

variable {step : Receive σ S α} {next : α → Receive σ S β}

theorem byRequest_pure (value : α) : (pure value : Receive σ S α).ByRequest :=
  .own fun _ _ _ state => (.ok value, state)

theorem byRequest_throw (failure : CodecError) : (throw failure : Receive σ S α).ByRequest :=
  .own fun _ _ _ state => (.error failure, state)

theorem byRequest_ofExcept (outcome : Except CodecError α) : ByRequest (.ofExcept outcome : Receive σ S α) :=
  .own fun _ _ _ state => (outcome, state)

theorem byRequest_modify (change : S → S) :
    (modify fun (input, state) => (input, change state) : Receive σ S PUnit).ByRequest :=
  .own fun _ _ _ state => (.ok PUnit.unit, change state)

theorem ByRequest.bind (h : step.ByRequest) (hn : ∀ value, (next value).ByRequest) : (step >>= next).ByRequest := by
  let react : Except CodecError α → Receive σ S β
    | .ok value => next value
    | .error failure => throw failure
  have hreact : ∀ outcome, (react outcome).ByRequest
    | .ok value => hn value
    | .error failure => byRequest_throw failure
  have heq : step >>= next = Receive.follow step react := by
    funext state
    show (step >>= next).result state = _
    rw [Step.result_bind]
    show _ = (react (step.result state).1).result (step.result state).2
    rcases step.result state with ⟨_ | _, _⟩ <;> rfl
  exact heq ▸ h.follow hreact

/-- The handler goes by its state. -/
theorem byRequest_by_state (h : ∀ state, ∃ work : Receive σ S α, work.ByRequest ∧
    ∀ input, step.result (input, state) = work.result (input, state)) : step.ByRequest := by
  choose work hwork heq using h
  have hlook : step = (own fun _ _ _ state => (.ok state, state)) >>= work := by
    funext ⟨input, state⟩
    exact heq state input
  exact hlook ▸ (ByRequest.own _).bind hwork

omit [Source σ] in
theorem onInput_bind (step : Step (Input σ) CodecError α) (next : α → Step (Input σ) CodecError β) :
    (onInput (step >>= next) : Receive σ S β) = onInput step >>= fun value => onInput (next value) := by
  funext both
  show (onInput (step >>= next)).result both = (onInput step >>= fun value => onInput (next value)).result both
  rw [Step.result_bind]
  simp only [onInput, Step.result_onPart, Step.result_bind]
  rcases step.result both.1 with ⟨_ | _, _⟩ <;> rfl

theorem byRequest_read (count : Nat) : (onStream (Input.read count) : Receive σ S Bytes).ByRequest := by
  have heq : (onStream (Input.read count) : Receive σ S Bytes) = deliver count >>= fun delivery =>
      .ofExcept ((delivery.failure?.map CodecError.stream).elim (.ok delivery.bytes) .error) := by
    funext both
    show (onStream (Input.read count)).result both = Step.result (_ >>= _) both
    rw [Step.result_bind]
    simp only [onStream, onInput, deliver, Input.read, Step.result_onPart, Step.result_mapFailure, Step.result_ofRun]
    rcases both.1.deliver count with ⟨⟨bytes, _ | failure⟩, after⟩ <;> rfl
  exact heq ▸ (ByRequest.deliver count).bind fun _ => byRequest_ofExcept _

theorem byRequest_readByte : (onInput Payload.readByte : Receive σ S UInt8).ByRequest := by
  have heq : (onInput Payload.readByte : Receive σ S UInt8) =
      onStream (Input.read 1) >>= fun bytes => pure (bytes.headD 0) := by
    rw [Payload.readByte, Input.readByte, Step.mapFailure_bind, onInput_bind]
    rfl
  exact heq ▸ (byRequest_read 1).bind fun _ => byRequest_pure _

theorem byRequest_remaining : (onInput Payload.remaining : Receive σ S Nat).ByRequest :=
  .own fun left _ _ state => (.ok left, state)

theorem byRequest_toBytes : (onInput Payload.toBytes : Receive σ S Bytes).ByRequest := by
  rw [Payload.toBytes, onInput_bind]
  exact byRequest_remaining.bind fun length => byRequest_read length

theorem byRequest_toText (payload : Payload) : (onInput payload.toText : Receive σ S String).ByRequest := by
  rw [Payload.toText, onInput_bind]
  exact byRequest_toBytes.bind fun bytes => byRequest_ofExcept _

theorem byRequest_readBytes (payload : Payload) (capacity : Nat) :
    (onInput (payload.readBytes capacity) : Receive σ S Bytes).ByRequest := by
  rw [Payload.readBytes, onInput_bind]
  refine byRequest_remaining.bind fun length => ?_
  split
  · exact byRequest_throw _
  · exact byRequest_read length

theorem byRequest_readText (payload : Payload) (capacity : Nat) :
    (onInput (payload.readText capacity) : Receive σ S String).ByRequest := by
  rw [Payload.readText, onInput_bind]
  exact (byRequest_readBytes payload capacity).bind fun bytes => byRequest_ofExcept _

theorem byRequest_skip : (onInput Payload.skip : Receive σ S Unit).ByRequest := by
  rw [Payload.skip, onInput_bind]
  exact byRequest_remaining.bind fun length => .skip length

/-- A payload that is decoded as a message, into a block and with handlers that are the handler's own. -/
theorem byRequest_readMessage [Handler Ref T] (h : Handler.ByRequest σ Ref T) (payload : Payload) (schema : Schema Ref)
    (ref : Ref) (block : Bytes) (handlers : List T) :
    (host (payload.readMessage schema ref) block handlers : Receive σ S _).ByRequest := by
  rcases hi : (schema.initialise ref).result block with ⟨failure | _, after⟩
  · have heq : (host (payload.readMessage schema ref) block handlers : Receive σ S _) =
        pure (.error failure, after, handlers) := by
      funext both
      simp only [host, Payload.readMessage, Step.result_bind, Decode.onBlock, Step.result_onPart, hi]
      rfl
    exact heq ▸ byRequest_pure _
  · have heq : (host (payload.readMessage schema ref) block handlers : Receive σ S _) =
        host (Decode.message schema payload.config (payload.depth + 1) ref) after handlers := by
      funext both
      simp only [host, Payload.readMessage, Step.result_bind, Decode.onBlock, Step.result_onPart, hi]
    exact heq ▸ .message schema _ _ ref after handlers h

end Receive

theorem Collector.byRequest : Handler.ByRequest σ Ref Collector := by
  intro field payload
  refine Receive.byRequest_by_state fun collector => ?_
  cases collector with
  | scalars values => exact ⟨_, Receive.byRequest_throw _, fun _ => rfl⟩
  | bytes items =>
    refine ⟨_, .bind Receive.byRequest_toBytes fun item => ?_, fun _ => rfl⟩
    exact Receive.byRequest_modify fun _ => bytes (items ++ [item])
  | texts items =>
    refine ⟨_, .bind (Receive.byRequest_toText payload) fun item => ?_, fun _ => rfl⟩
    exact Receive.byRequest_modify fun _ => texts (items ++ [item])
  | nothing => exact ⟨_, Receive.byRequest_pure _, fun _ => rfl⟩

-- ---------------------------------------------------------------------------
-- Requests and bonds
-- ---------------------------------------------------------------------------

namespace Receive

open Decode.Bond (steady)

variable {step : Receive σ S α} {next : α → Receive σ S β}

/-- The inputs are in a bond and the states are the same. -/
def Beside (bond : Input.Bond σ σ) (place : bond.Place) (x y : Input σ × S) : Prop :=
  bond.Match place x.1 y.1 ∧ x.2 = y.2

theorem echoes_onInput {bond : Input.Bond σ σ} {place : bond.Place} {a b : Step (Input σ) CodecError α}
    (h : Echoes (bond.Match place) a b) : Echoes (Beside bond place) (onInput a : Receive σ S α) (onInput b) :=
  show Echoes ((steady bond (@Eq S)).takers place).Match _ _ from Decode.Bond.echoes_onInput h

theorem serves_steady [Handler Ref T] (bond : Input.Bond σ σ)
    (h : ∀ (field : Field Ref) payload place, Echoes (Beside bond place)
      (Handler.takePayload field payload : Receive σ T Unit) (Handler.takePayload field payload)) :
    (steady bond (@Eq T)).Serves Ref where
  scalar field scalar := by
    rintro state _ rfl
    exact .inl ⟨rfl, rfl⟩
  payload place field payload := by
    refine Terms.keeps_of_echoes ((h field payload place).bind fun _ => ?_)
    exact echoes_onInput (Input.echoes_drain (bond.alike place))

/-- ByRequest steps do the same to inputs in a bond. -/
theorem ByRequest.echoes (h : step.ByRequest) (bond : Input.Bond σ σ) (place : bond.Place) :
    Echoes (Beside bond place) step step := by
  induction h generalizing place with
  | own run =>
    rintro ⟨x, state⟩ ⟨y, other⟩ hboth
    obtain ⟨hm, rfl⟩ : bond.Match place x y ∧ state = other := hboth
    simp only [Receive.own, Step.result_ofRun, (bond.alike place).left_eq hm, bond.taken_eq hm, bond.bounded_eq hm]
    exact ⟨trivial, hm, rfl⟩
  | deliver count =>
    rintro ⟨x, state⟩ ⟨y, other⟩ hboth
    obtain ⟨hm, rfl⟩ : bond.Match place x y ∧ state = other := hboth
    obtain ⟨hdelivery, hafter⟩ := (bond.alike place).deliver hm count
    exact ⟨congrArg Except.ok hdelivery, hafter, rfl⟩
  | readByte? => exact echoes_onInput ((bond.alike place).readByte?.mapFailure _)
  | skip count => exact echoes_onInput (((bond.alike place).skip count).mapFailure _)
  | within length h ih =>
    rintro ⟨x, state⟩ ⟨y, other⟩ hboth
    obtain ⟨hm, rfl⟩ : bond.Match place x y ∧ state = other := hboth
    have hleft : x.left = y.left := (bond.alike place).left_eq hm
    simp only [Receive.within, Step.result_ofRun, Input.narrow, hleft]
    by_cases hlt : y.left < length
    · rw [if_pos hlt, if_pos hlt]
      exact ⟨rfl, hm, rfl⟩
    · rw [if_neg hlt, if_neg hlt]
      obtain ⟨part, hpart, hback⟩ := bond.narrow hm length (by omega)
      have hstart : Beside bond part (Input.ofSource x.source length, state) (Input.ofSource y.source length, state) :=
        ⟨hpart, rfl⟩
      obtain ⟨houtcome, hafter, hstate⟩ := ih part hstart
      exact ⟨houtcome, hback hafter, hstate⟩
  | follow h hn ih ihn =>
    intro x y hm
    obtain ⟨houtcome, hafter⟩ := ih place hm
    simp only [Receive.follow, Step.result_ofRun, houtcome]
    exact ihn _ place hafter
  | @message S T Ref _ schema config depth ref block handlers h ih =>
    rintro ⟨x, state⟩ ⟨y, other⟩ hboth
    obtain ⟨hm, rfl⟩ : bond.Match place x y ∧ state = other := hboth
    have hserves : (steady bond (@Eq T)).Serves Ref := serves_steady bond ih
    have hstart : (steady bond (@Eq T)).Match place ⟨x, block, handlers⟩ ⟨y, block, handlers⟩ :=
      ⟨hm, rfl, List.forall₂_eq_eq_eq ▸ rfl⟩
    have hkeeps := Decode.Bond.keeps_messageWithin hserves schema config (config.maxDepth + 1 - depth) ref place
    obtain ⟨houtcome, hafter⟩ := hkeeps.echoes_of_steady hstart
    have hhandlers := List.forall₂_eq_eq_eq ▸ hafter.handlers
    simp only [host, Step.result_ofRun, Decode.message, houtcome, hafter.block_eq, hhandlers]
    exact ⟨trivial, hafter.input, rfl⟩

end Receive

end BlockCodec
