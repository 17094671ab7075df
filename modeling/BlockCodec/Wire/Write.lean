import BlockCodec.Stream.Output
import BlockCodec.Varint
import BlockCodec.Wire.Error

/-!
# Writing wire values

A number, a header and a fixed value are one write each; a delimited value is two, its length
and its bytes.
-/

namespace BlockCodec.Wire

variable {κ : Type} [Sink κ]

abbrev Write (κ α : Type) := Step (Output κ) WireError α

def write (bytes : Bytes) : Write κ Unit := (Output.write bytes).mapFailure .stream

def writeVarint (value : UInt64) : Write κ Unit := write (Varint.encode value)

def writeZigZag (value : Int64) : Write κ Unit := writeVarint (ZigZag.encode value)

def writeFixed32 (value : UInt32) : Write κ Unit :=
  write (Bytes.littleEndian 4 value.toNat)

def writeFixed64 (value : UInt64) : Write κ Unit :=
  write (Bytes.littleEndian 8 value.toNat)

/-- The largest field number that fits in a header. -/
def maxFieldNumber : Nat := 0x1fffffff

def writeTag (type : WireType) (number : Nat) : Write κ Unit :=
  if number = 0 ∨ maxFieldNumber < number then throw (.invalidFieldNumber number)
  else writeVarint (UInt64.ofNat (number * 8 + type.bits))

/-- The length of the bytes, then the bytes. -/
def writeDelimited (bytes : Bytes) : Write κ Unit := do
  writeVarint (UInt64.ofNat bytes.length)
  write bytes

end BlockCodec.Wire
