import BlockCodec.Stream.Input
import BlockCodec.Varint
import BlockCodec.Wire.Error

/-!
# Reading wire values

Single values are read from a bounded input: numbers, field headers and the lengths of
delimited values. A field is skipped by its wire type alone.
-/

namespace BlockCodec.Wire

variable {σ : Type} [Source σ]

abbrev Read (σ α : Type) := Step (Input σ) WireError α

omit [Source σ] in
/-- A stream step among wire steps. -/
def onStream {α : Type} (step : Step (Input σ) StreamError α) : Read σ α :=
  step.mapFailure .stream

/-- The next byte of a number that has begun; to lack it, for any reason, is malformed. -/
def nextGroup : Read σ UInt8 :=
  Input.readByte.mapFailure fun _ => .malformedVarint

/-- Reads up to `places` further groups; `sum` is the value so far and `weight` that of the
next place. -/
def readGroups : Nat → Nat → Nat → Read σ UInt64
  | 0, _, _ => throw .malformedVarint
  | places + 1, weight, sum => do
    let byte ← nextGroup
    -- the last place has room for one bit only
    if places = 0 ∧ 1 < byte then throw .malformedVarint
    let sum := sum + byte.toNat % 128 * weight
    if byte < 128 then pure (UInt64.ofNat sum) else readGroups places (weight * 128) sum

/-- The number whose first byte has been read already. -/
def readVarintFrom (first : UInt8) : Read σ UInt64 :=
  if first < 128 then pure (UInt64.ofNat first.toNat)
  else readGroups (Varint.maxLength - 1) 128 (first.toNat % 128)

def readVarint : Read σ UInt64 := do
  let first ← onStream Input.readByte
  readVarintFrom first

/-- A number that must fit in 32 bits. -/
def readVarint32 : Read σ Nat := do
  let value ← readVarint
  if value.toNat < 0x100000000 then pure value.toNat else throw .malformedVarint

def readZigZag : Read σ Int64 := do
  let code ← readVarint
  pure (ZigZag.decode code)

def skipGroups : Nat → Read σ Unit
  | 0 => throw .malformedVarint
  | places + 1 => do
    let byte ← nextGroup
    if byte < 128 then pure () else skipGroups places

/-- Consumes a number without assembling it; what the tenth byte holds does not matter. -/
def skipVarint : Read σ Unit := do
  let first ← onStream Input.readByte
  if first < 128 then pure () else skipGroups (Varint.maxLength - 1)

def readFixed32 : Read σ UInt32 := do
  let bytes ← onStream (Input.read 4)
  pure (UInt32.ofNat (Bytes.ofLittleEndian bytes))

def readFixed64 : Read σ UInt64 := do
  let bytes ← onStream (Input.read 8)
  pure (UInt64.ofNat (Bytes.ofLittleEndian bytes))

/-- A field header split into its number and wire type. -/
def splitTag (header : Nat) : Except WireError (Nat × WireType) :=
  match WireType.ofBits? (header % 8) with
  | none => .error (.invalidWireType (header % 8))
  | some type =>
    if header / 8 = 0 then .error (.invalidFieldNumber 0) else .ok (header / 8, type)

/-- The next field header, or nothing when the input ends before it: the end of a message. -/
def readTag : Read σ (Option (Nat × WireType)) := do
  match ← onStream Input.readByte? with
  | none => pure none
  | some first =>
    let header ← readVarintFrom first
    if header.toNat < 0x100000000 then
      let tag ← Step.ofExcept (splitTag header.toNat)
      pure (some tag)
    else throw .malformedVarint

/-- The length of a delimited value; it may not exceed what the input has left. -/
def readLength : Read σ Nat := do
  let declared ← readVarint32
  let input ← get
  if input.left < declared then throw (.lengthMismatch declared input.left)
  pure declared

/-- Skips the payload of a field whose header has been read. -/
def skipField (type : WireType) : Read σ Unit := do
  match type with
  | .varint => skipVarint
  | .fixed32 => onStream (Input.skip 4)
  | .fixed64 => onStream (Input.skip 8)
  | .delimited =>
    let length ← readLength
    onStream (Input.skip length)
  | .startGroup | .endGroup => throw (.unskippable type)

end BlockCodec.Wire
