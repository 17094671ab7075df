import BlockCodec.Message.Handler
import BlockCodec.Message.Number

/-!
# Encoding messages

Fields are written in table order. A message inside another is walked twice: once into an
output that only counts, to learn its length, and then into an output of just that length.
When the outer output itself only counts, the second walk is left out.
-/

namespace BlockCodec

/-- What encoding works on; all of it is kept when encoding fails. -/
structure Encoding (κ S : Type) where
  output : Output κ
  handlers : List S
deriving Repr, DecidableEq

abbrev Encode (κ S α : Type) := Step (Encoding κ S) CodecError α

namespace Encode

variable {κ S α Ref : Type}

def onOutput (step : Step (Output κ) CodecError α) : Encode κ S α :=
  step.onPart (·.output) fun output state => { state with output }

def onWire (step : Wire.Write κ α) : Encode κ S α := onOutput (step.mapFailure .wire)

/-- The bytes that a step writes, counted only; handlers run as they would when writing. -/
def measure (step : Encode κ S Unit) : Encode κ S Nat :=
  .ofRun fun state =>
    let (outcome, inner) := step.result { state with output := .sizing }
    (outcome.map fun _ => inner.output.written, { inner with output := state.output })

/-- Runs a step over the next `length` bytes of the output. -/
def within (length : Nat) (step : Encode κ S α) : Encode κ S α :=
  .ofRun fun state =>
    match state.output.narrow length with
    | .error failure => (.error (.stream failure), state)
    | .ok output =>
      let (outcome, inner) := step.result { state with output }
      (outcome, { inner with output := state.output.rejoin inner.output })

/-- Runs a message over an output of the `size` bytes measured for it. To cross the limit is to
be longer than measured. -/
def remeasured (label : String) (size : Nat) (message : Encode κ S Unit) : Encode κ S Nat :=
  .ofRun fun state =>
    let (outcome, state) := message.result state
    let written := state.output.written
    match outcome with
    | .ok () => (.ok written, state)
    | .error (.wire (.stream (.limitExceeded requested _))) =>
      (.error (.sizeMismatch label size (written + requested)), state)
    | .error failure => (.error failure, state)

variable [Sink κ]

/-- A message behind its length. -/
def sized (label : String) (message : Encode κ S Unit) : Encode κ S Unit := do
  let size ← measure message
  onWire (Wire.writeVarint (UInt64.ofNat size))
  -- an enclosing message that is being measured needs no more than the count
  if (← get).output.isSizing then onWire ((Output.skip size).mapFailure .stream)
  else
    let written ← within size (remeasured label size message)
    if written ≠ size then throw (.sizeMismatch label size written)

def number (field : Field Ref) (value : Scalar) : Encode κ S Unit :=
  onOutput (field.writeScalar value)

/-- One value of a field from its storage, header included. -/
def value (nested : Ref → Bytes → Encode κ S Unit) (field : Field Ref) (stored : Bytes) :
    Encode κ S Unit := do
  match field.kind with
  | .text =>
    let text ← Step.ofExcept (field.textBytes stored)
    onWire (Wire.writeTag .delimited field.tag)
    onWire (Wire.writeDelimited text)
  | .bytes =>
    let payload ← Step.ofExcept (field.payload stored)
    onWire (Wire.writeTag .delimited field.tag)
    onWire (Wire.writeDelimited payload)
  | .message ref =>
    onWire (Wire.writeTag .delimited field.tag)
    sized field.name (nested ref stored)
  | kind =>
    onWire (Wire.writeTag kind.wireType field.tag)
    number field (kind.loadScalar stored)

/-- A number of elements from `index` on of an array of numbers, without headers. -/
def packedElements (field : Field Ref) (block : Bytes) (index : Nat) :
    Nat → Step (Output κ) CodecError Unit
  | 0 => pure ()
  | left + 1 => do
    let stored ← Step.ofExcept (field.load (field.element index) block)
    field.writeScalar (field.kind.loadScalar stored)
    packedElements field block (index + 1) left

def elements (nested : Ref → Bytes → Encode κ S Unit) (field : Field Ref) (block : Bytes)
    (index : Nat) : Nat → Encode κ S Unit
  | 0 => pure ()
  | left + 1 => do
    let stored ← Step.ofExcept (field.load (field.element index) block)
    value nested field stored
    elements nested field block (index + 1) left

def array (nested : Ref → Bytes → Encode κ S Unit) (field : Field Ref) (block : Bytes) :
    Encode κ S Unit := do
  let count ← Step.ofExcept (field.slot block)
  if count = 0 then pure ()
  else if field.capacity < count then throw (.arrayFull field.name field.capacity)
  else if field.packed ∧ field.kind.isScalar then
    onOutput (field.writePacked count (packedElements field block 0 count))
  else elements nested field block 0 count

/-- A field that lies in the block: nothing when it is not present. -/
def stored (nested : Ref → Bytes → Encode κ S Unit) (field : Field Ref) (block : Bytes) :
    Encode κ S Unit :=
  match field.multiplicity with
  | .repeated => array nested field block
  | _ => do
    let present ← Step.ofExcept (field.isPresent block)
    if present then
      let stored ← Step.ofExcept (field.load field.data block)
      value nested field stored

variable [Handler Ref S]

/-- Runs the handler at a slot of the list; slots are counted from 1. -/
def withHandler (field : Field Ref) (slot : Nat) (step : Emit κ S α) : Encode κ S α :=
  .ofRun fun state =>
    match state.handlers[slot - 1]? with
    | none => (.error (.invalidDescriptor field.name "callback slot not provided"), state)
    | some handler =>
      let (outcome, output, handler) := step.result (state.output, handler)
      (outcome, { output, handlers := state.handlers.set (slot - 1) handler })

/-- A field that goes through a handler: nothing when its slot is unbound. -/
def handled (config : EncodeConfig) (depth : Nat) (field : Field Ref) (block : Bytes) :
    Encode κ S Unit := do
  let slot ← Step.ofExcept (field.handlerSlot block)
  if slot = 0 then pure ()
  else withHandler field slot (Handler.writeElements { field, config, depth })

def fields (config : EncodeConfig) (nested : Ref → Bytes → Encode κ S Unit) (depth : Nat)
    (block : Bytes) : List (Field Ref) → Encode κ S Unit
  | [] => pure ()
  | field :: rest => do
    if field.isHandled then handled config depth field block else stored nested field block
    fields config nested depth block rest

/-- Encodes a message with the given levels of nesting left. -/
def messageWithin (schema : Schema Ref) (config : EncodeConfig) :
    Nat → Ref → Bytes → Encode κ S Unit
  | 0, _, _ => throw (.messageTooDeep config.maxDepth)
  | levels + 1, ref, block => do
    let table := schema ref
    Step.ofExcept (table.checkBlock block)
    fields config (messageWithin schema config levels) (config.maxDepth - levels) block
      table.fields

def message (schema : Schema Ref) (config : EncodeConfig) (depth : Nat) (ref : Ref)
    (block : Bytes) : Encode κ S Unit :=
  messageWithin schema config (config.maxDepth + 1 - depth) ref block

end Encode

section

variable {κ S Ref : Type} [Sink κ] [Handler Ref S]

def encodeMessage (schema : Schema Ref) (config : EncodeConfig) (ref : Ref) (block : Bytes) :
    Encode κ S Unit :=
  Encode.message schema config 0 ref block

/-- Encodes a message behind its length. -/
def encodeDelimited (schema : Schema Ref) (config : EncodeConfig) (ref : Ref) (block : Bytes) :
    Encode κ S Unit :=
  Encode.sized (schema ref).name (encodeMessage schema config ref block)

end

section

variable {S Ref : Type} [Handler Ref S]

/-- The bytes that encoding a message would write, and the handlers afterwards. -/
def encodedSize (schema : Schema Ref) (config : EncodeConfig) (ref : Ref) (block : Bytes)
    (handlers : List S) : Except CodecError Nat × List S :=
  let step : Encode Bytes S Unit := encodeMessage schema config ref block
  let (outcome, state) := (Encode.measure step).result { output := .sizing, handlers }
  (outcome, state.handlers)

end

section

variable {Ref : Type}

def encodeToBytes (schema : Schema Ref) (ref : Ref) (block : Bytes) : Except CodecError Bytes :=
  let step : Encode Bytes Empty Unit := encodeMessage schema {} ref block
  let (outcome, state) := step.result { output := .unbounded [], handlers := [] }
  outcome.map fun _ => state.output.sink.getD []

def encodeDelimitedToBytes (schema : Schema Ref) (ref : Ref) (block : Bytes) :
    Except CodecError Bytes :=
  let step : Encode Bytes Empty Unit := encodeDelimited schema {} ref block
  let (outcome, state) := step.result { output := .unbounded [], handlers := [] }
  outcome.map fun _ => state.output.sink.getD []

/-- Encodes into the front of a buffer: the bytes used, and the buffer afterwards. -/
def encodeToBuffer (schema : Schema Ref) (ref : Ref) (block buffer : Bytes) :
    Except CodecError Nat × Bytes :=
  let step : Encode FixedBuffer Empty Unit := encodeMessage schema {} ref block
  let (outcome, state) := step.result { output := .ofBuffer buffer, handlers := [] }
  (outcome.map fun _ => state.output.written, (state.output.sink.map (·.content)).getD buffer)

end

end BlockCodec
