import BlockCodec.Block.Initial
import BlockCodec.Message.Handler
import BlockCodec.Message.Number

/-!
# Decoding messages

The decoder reads field headers until its input ends, looks each number up in the table and
writes the value where the table says. Values merge into what the block holds: numbers are
overwritten, arrays grow, messages are merged field by field.

The levels of nesting still allowed drive the recursion; within one message the bytes left
bound the number of fields, because every header takes at least one.
-/

namespace BlockCodec

/-- What decoding works on; all of it is kept when decoding fails. -/
structure Decoding (σ S : Type) where
  input : Input σ
  block : Bytes
  handlers : List S
deriving Repr, DecidableEq

abbrev Decode (σ S α : Type) := Step (Decoding σ S) CodecError α

namespace Decode

variable {σ S α Ref : Type}

def onInput (step : Step (Input σ) CodecError α) : Decode σ S α :=
  step.onPart (·.input) fun input state => { state with input }

def onWire (step : Wire.Read σ α) : Decode σ S α := onInput (step.mapFailure .wire)

def onBlock (edit : Edit α) : Decode σ S α :=
  edit.onPart (·.block) fun block state => { state with block }

/-- Runs a step over the next `length` bytes of the input. -/
def within (length : Nat) (step : Decode σ S α) : Decode σ S α :=
  .ofRun fun state =>
    match state.input.narrow length with
    | .error failure => (.error (.stream failure), state)
    | .ok input =>
      let (outcome, inner) := step.result { state with input }
      (outcome, { inner with input := state.input.rejoin inner.input })

/-- Runs a step with the bytes of a span as its block; they are put back afterwards. -/
def inside (field : Field Ref) (span : Span) (step : Decode σ S α) : Decode σ S α :=
  .ofRun fun state =>
    match Bytes.slice? state.block span with
    | none => (.error field.outside, state)
    | some block =>
      let (outcome, inner) := step.result { state with block }
      (outcome, { inner with block := Bytes.overwrite state.block span.start inner.block })

/-- The handler at a slot of the list; slots are counted from 1. -/
def requireHandler (field : Field Ref) (slot : Nat) : Decode σ S Unit := do
  if (← get).handlers.length < slot then
    throw (.invalidDescriptor field.name "callback slot not provided")

/-- Runs a step of the handler at a slot. -/
def withHandler (field : Field Ref) (slot : Nat) (step : Receive σ S α) : Decode σ S α :=
  .ofRun fun state =>
    match state.handlers[slot - 1]? with
    | none => (.error (.invalidDescriptor field.name "callback slot not provided"), state)
    | some handler =>
      let (outcome, input, handler) := step.result (state.input, handler)
      (outcome, { state with input, handlers := state.handlers.set (slot - 1) handler })

variable [Source σ]

/-- Reads `count` bytes over those of the block from `start` on; what arrived before a failure
is in the block too. -/
def fill (start count : Nat) : Decode σ S Unit :=
  .ofRun fun state =>
    let (delivery, input) := state.input.deliver count
    let block := Bytes.overwrite state.block start delivery.bytes
    match delivery.failure? with
    | none => (.ok (), { state with input, block })
    | some failure => (.error (.stream failure), { state with input, block })

/-- Skips the payload of a field that nothing will read. -/
def skipValue (number : Nat) (type : WireType) : Decode σ S Unit :=
  onInput ((Wire.skipField type).mapFailure fun
    | .unskippable type => .unknownFieldSkipFailure number type
    | failure => .wire failure)

def text (config : DecodeConfig) (field : Field Ref) : Decode σ S Unit := do
  let length ← onWire Wire.readLength
  let room := (← get).block.length
  if room ≤ length then throw (.capacityExceeded field.name length (room - 1))
  fill 0 length
  -- the bytes stay in the block even when they turn out not to be text
  onBlock (modify fun block => Bytes.overwrite block length [0])
  let content := (← get).block.take length
  if config.validateUtf8 ∧ (Bytes.text? content).isNone then throw (.invalidUtf8 field.name)

def payload (field : Field Ref) : Decode σ S Unit := do
  let length ← onWire Wire.readLength
  let room := (← get).block.length
  if room < 4 then throw field.noLengthPrefix
  if room - 4 < length then throw (.capacityExceeded field.name length (room - 4))
  fill 4 length
  onBlock (modify fun block => Bytes.overwrite block 0 (Bytes.littleEndian 4 length))

/-- Runs the decoder of a message over a payload of `length` bytes, all of which it must take. -/
def whole (length : Nat) (message : Decode σ S Unit) : Decode σ S Unit := do
  message
  let input := (← get).input
  if !input.isExhausted then
    throw (.stream (.endOfStream length (length - input.left)))

def number (field : Field Ref) : Decode σ S Scalar := onInput field.readScalar

/-- One value of a field, laid over the storage that is the current block. -/
def value (config : DecodeConfig) (nested : Ref → Decode σ S Unit) (field : Field Ref) :
    Decode σ S Unit := do
  match field.kind with
  | .text => text config field
  | .bytes => payload field
  | .message ref =>
    let length ← onWire Wire.readLength
    within length (whole length (nested ref))
  | kind =>
    let scalar ← number field
    onBlock (modify fun block => kind.storeScalar block scalar)

/-- Position of the next free element of an array. -/
def nextElement (field : Field Ref) : Decode σ S Nat := do
  let count ← onBlock (Edit.ask field.slot)
  if field.capacity ≤ count then throw (.arrayFull field.name field.capacity)
  pure count

/-- Numbers up to the end of the input, each appended to the array; every number takes at
least one byte, so `room` bounds their count. -/
def packedElements (field : Field Ref) : Nat → Decode σ S Unit
  | 0 => pure ()
  | room + 1 => do
    if (← get).input.isExhausted then pure ()
    else
      let count ← nextElement field
      let scalar ← number field
      onBlock (Edit.change field (field.element count) fun block =>
        field.kind.storeScalar block scalar)
      onBlock (Edit.setSlot field (count + 1))
      packedElements field room

/-- A value of an array that is not packed. -/
def element (schema : Schema Ref) (config : DecodeConfig) (nested : Ref → Decode σ S Unit)
    (field : Field Ref) : Decode σ S Unit := do
  let count ← nextElement field
  inside field (field.element count) do
    match field.kind with
    | .message ref => onBlock (schema.initialise ref)
    | _ => pure ()
    value config nested field
  -- an element that fails half-way is not counted
  onBlock (Edit.setSlot field (count + 1))

/-- A value of a field that lies in the block. -/
def stored (schema : Schema Ref) (config : DecodeConfig) (nested : Ref → Decode σ S Unit)
    (table : Table Ref) (field : Field Ref) (type : WireType) : Decode σ S Unit := do
  match field.multiplicity with
  | .repeated =>
    if type = .delimited ∧ field.kind.isScalar then
      let length ← onWire Wire.readLength
      within length (packedElements field length)
    else element schema config nested field
  | .oneof _ =>
    let active ← onBlock (Edit.ask field.slot)
    -- the member that is active already is merged into
    if active ≠ field.tag then onBlock (schema.activate table field)
    inside field field.data (value config nested field)
  | .optional =>
    inside field field.data (value config nested field)
    if field.sizeOffset.isSome then onBlock (Edit.setSlot field 1)
  | .required => inside field field.data (value config nested field)

variable [Handler Ref S]

/-- A number read and given to the handler. -/
def handledNumber (field : Field Ref) (slot : Nat) : Decode σ S Unit := do
  let scalar ← number field
  withHandler field slot
    ((Handler.takeScalar field scalar).onPart (·.2) fun handler state => (state.1, handler))

/-- Numbers up to the end of the input, each given to the handler. -/
def handledElements (field : Field Ref) (slot : Nat) : Nat → Decode σ S Unit
  | 0 => pure ()
  | room + 1 => do
    if (← get).input.isExhausted then pure ()
    else
      handledNumber field slot
      handledElements field slot room

/-- A payload given to the handler; what it leaves unread is skipped. -/
def handledPayload (config : DecodeConfig) (depth : Nat) (field : Field Ref) (slot : Nat) :
    Decode σ S Unit := do
  withHandler field slot (Handler.takePayload field { field := field.name, config, depth })
  let rest := (← get).input.left
  onWire (Wire.onStream (Input.skip rest))

/-- A value of a field that goes through a handler. -/
def handled (config : DecodeConfig) (depth : Nat) (field : Field Ref) (type : WireType) :
    Decode σ S Unit := do
  let slot ← onBlock (Edit.ask field.handlerSlot)
  if slot = 0 then skipValue field.tag type
  else
    requireHandler field slot
    if type = .delimited then
      let length ← onWire Wire.readLength
      within length
        (if field.kind.isScalar then handledElements field slot length
          else handledPayload config depth field slot)
    else handledNumber field slot

/-- The number under which a required field is tracked; those past the limit are not. -/
def tracked? (entry : Entry Ref) : Option Nat :=
  entry.requiredIndex?.filter (· < maxRequiredFields)

/-- The first tracked field of a table that is not among those seen. -/
def missing? (table : Table Ref) (seen : List Nat) : Option (Field Ref) :=
  (table.entries.find? fun entry => (tracked? entry).any (!seen.contains ·)).map (·.field)

omit [Source σ] [Handler Ref S] in
def checkRequired (table : Table Ref) (seen : List Nat) : Decode σ S Unit :=
  match missing? table seen with
  | none => pure ()
  | some field => throw (.missingRequiredField table.name field.name)

/-- The fields of a message up to the end of the input, then the check of the required ones. -/
def fields (schema : Schema Ref) (config : DecodeConfig) (nested : Ref → Decode σ S Unit)
    (depth : Nat) (table : Table Ref) : Nat → Cursor → List Nat → Decode σ S Unit
  | 0, _, seen => checkRequired table seen
  | room + 1, cursor, seen => do
    match ← onWire Wire.readTag with
    | none => checkRequired table seen
    | some (number, type) =>
      match cursor.find table number with
      | (none, cursor) =>
        if config.strictUnknown then throw (.unknownField table.name number)
        skipValue number type
        fields schema config nested depth table room cursor seen
      | (some entry, cursor) =>
        let field := entry.field
        if field.accepts type then
          if field.isHandled then handled config depth field type
          else stored schema config nested table field type
          fields schema config nested depth table room cursor
            ((tracked? entry).elim seen (seen.insert ·))
        else
          if !config.skipMismatched then
            throw (.wireTypeMismatch field.name field.kind.wireType type)
          skipValue number type
          fields schema config nested depth table room cursor seen

/-- Decodes a message with the given levels of nesting left. -/
def messageWithin (schema : Schema Ref) (config : DecodeConfig) : Nat → Ref → Decode σ S Unit
  | 0, _ => throw (.messageTooDeep config.maxDepth)
  | levels + 1, ref => do
    let table := schema ref
    onBlock (Edit.ask table.checkBlock)
    let room := (← get).input.left
    fields schema config (messageWithin schema config levels) (config.maxDepth - levels) table
      room .start []

/-- Decodes a message at a depth into the block as it is. -/
def message (schema : Schema Ref) (config : DecodeConfig) (depth : Nat) (ref : Ref) :
    Decode σ S Unit :=
  messageWithin schema config (config.maxDepth + 1 - depth) ref

end Decode

section

variable {σ S Ref : Type} [Source σ] [Handler Ref S]

/-- Decodes a message into the block as it is, merging with what it holds. -/
def mergeMessage (schema : Schema Ref) (config : DecodeConfig) (ref : Ref) : Decode σ S Unit :=
  Decode.message schema config 0 ref

/-- Initialises the block, then decodes a message into it. -/
def decodeMessage (schema : Schema Ref) (config : DecodeConfig) (ref : Ref) :
    Decode σ S Unit := do
  Decode.onBlock (schema.initialise ref)
  mergeMessage schema config ref

/-- Decodes a message behind its length. -/
def decodeDelimited (schema : Schema Ref) (config : DecodeConfig) (ref : Ref) :
    Decode σ S Unit := do
  let length ← Decode.onWire Wire.readLength
  Decode.onBlock (schema.initialise ref)
  Decode.within length (Decode.whole length (mergeMessage schema config ref))

end

/-- Decodes a whole byte string into a block, without handlers. -/
def decodeBytes {Ref : Type} (schema : Schema Ref) (ref : Ref) (bytes block : Bytes) :
    Except CodecError Unit × Bytes :=
  let step : Decode Bytes Empty Unit := decodeMessage schema {} ref
  let (outcome, state) := step.result { input := .ofBytes bytes, block, handlers := [] }
  (outcome, state.block)

end BlockCodec
