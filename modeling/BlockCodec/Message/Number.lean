import BlockCodec.Block.Storage
import BlockCodec.Wire.Read
import BlockCodec.Wire.Write

/-!
# Numbers on the wire

A number is read and written by the kind of its field, without its header. Reading narrows it
to the storage width of the kind the way storing it would.
-/

namespace BlockCodec.Field

variable {Ref σ κ : Type}

def notNumeric (field : Field Ref) : CodecError := .kindMismatch field.name field.kind.name

def readScalar [Source σ] (field : Field Ref) : Step (Input σ) CodecError Scalar := do
  match field.kind with
  | .bool =>
    let value ← Wire.readVarint.mapFailure .wire
    pure (.bool (value != 0))
  | .varint ⟨width, true⟩ =>
    let value ← Wire.readVarint.mapFailure .wire
    pure (.signed (width.truncateSigned value.toInt64))
  | .varint ⟨width, false⟩ =>
    let value ← Wire.readVarint.mapFailure .wire
    pure (.unsigned (width.truncateUnsigned value))
  | .zigZag width =>
    let value ← Wire.readZigZag.mapFailure .wire
    pure (.signed (width.truncateSigned value))
  | .enumeration =>
    let value ← Wire.readVarint.mapFailure .wire
    pure (.signed (Width.w32.truncateSigned value.toInt64))
  | .fixed ⟨.w64, signed⟩ =>
    let value ← Wire.readFixed64.mapFailure .wire
    pure (if signed then .signed value.toInt64 else .unsigned value)
  | .fixed ⟨_, signed⟩ =>
    let value ← Wire.readFixed32.mapFailure .wire
    pure (if signed then .signed value.toInt32.toInt64 else .unsigned value.toUInt64)
  | .float .w64 =>
    let bits ← Wire.readFixed64.mapFailure .wire
    pure (.double bits)
  | .float _ =>
    let bits ← Wire.readFixed32.mapFailure .wire
    pure (.single bits)
  | .text | .bytes | .message _ => throw field.notNumeric

def writeScalar [Sink κ] (field : Field Ref) (value : Scalar) :
    Step (Output κ) CodecError Unit :=
  match field.kind with
  | .bool => (Wire.writeVarint (if value.asBool then 1 else 0)).mapFailure .wire
  | .varint _ | .enumeration => (Wire.writeVarint value.asUInt64).mapFailure .wire
  | .zigZag _ => (Wire.writeZigZag value.asInt64).mapFailure .wire
  | .fixed ⟨.w64, _⟩ => (Wire.writeFixed64 value.asUInt64).mapFailure .wire
  | .fixed _ => (Wire.writeFixed32 value.asUInt64.toUInt32).mapFailure .wire
  | .float .w64 => (Wire.writeFixed64 value.asDouble).mapFailure .wire
  | .float _ => (Wire.writeFixed32 value.asSingle).mapFailure .wire
  | .text | .bytes | .message _ => throw field.notNumeric

/-- Bytes of a run of numbers: known from their count when the width never varies. -/
def packedLength (field : Field Ref) (count : Nat) (numbers : Step (Output κ) CodecError Unit) :
    Step (Output κ) CodecError Nat :=
  match field.kind.wireLength? with
  | some width => pure (width * count)
  | none => Output.measure numbers

/-- A run of `count` numbers as one delimited value, header included. -/
def writePacked [Sink κ] (field : Field Ref) (count : Nat)
    (numbers : Step (Output κ) CodecError Unit) : Step (Output κ) CodecError Unit := do
  let length ← field.packedLength count numbers
  (Wire.writeTag .delimited field.tag).mapFailure .wire
  (Wire.writeVarint (UInt64.ofNat length)).mapFailure .wire
  numbers

end BlockCodec.Field
