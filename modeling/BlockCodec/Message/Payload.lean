import BlockCodec.Message.Decode

/-!
# Reading a payload in a handler

The payload is what the input has left. A handler may read all of it or a part, skip it, or
decode it as a message.
-/

namespace BlockCodec.Payload

variable {σ S Ref : Type} [Source σ]

omit [Source σ] in
/-- Bytes not read yet. -/
def remaining : Step (Input σ) CodecError Nat := do
  let input ← get
  pure input.left

def readByte : Step (Input σ) CodecError UInt8 := Input.readByte.mapFailure .stream

/-- The rest of the payload. -/
def toBytes : Step (Input σ) CodecError Bytes := do
  let length ← remaining
  (Input.read length).mapFailure .stream

def asText (payload : Payload) (bytes : Bytes) : Except CodecError String :=
  match Bytes.text? bytes with
  | some text => .ok text
  | none => .error (.invalidUtf8 payload.field)

def toText (payload : Payload) : Step (Input σ) CodecError String := do
  let bytes ← toBytes
  Step.ofExcept (payload.asText bytes)

/-- The rest of the payload, when it fits in `capacity` bytes. -/
def readBytes (payload : Payload) (capacity : Nat) : Step (Input σ) CodecError Bytes := do
  let length ← remaining
  if capacity < length then throw (.capacityExceeded payload.field length capacity)
  (Input.read length).mapFailure .stream

def readText (payload : Payload) (capacity : Nat) : Step (Input σ) CodecError String := do
  let bytes ← payload.readBytes capacity
  Step.ofExcept (payload.asText bytes)

def skip : Step (Input σ) CodecError Unit := do
  let length ← remaining
  (Input.skip length).mapFailure .stream

/-- Decodes the payload as a message one level further down. -/
def readMessage [Handler Ref S] (payload : Payload) (schema : Schema Ref) (ref : Ref) :
    Decode σ S Unit := do
  Decode.onBlock (schema.initialise ref)
  Decode.message schema payload.config (payload.depth + 1) ref

end BlockCodec.Payload
