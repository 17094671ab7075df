import BlockCodec.Stream.Error
import BlockCodec.Wire.Type

/-!
# Failures of wire values and frames
-/

namespace BlockCodec

inductive WireError
  | stream (failure : StreamError)
  | malformedVarint
  | lengthMismatch (declared available : Nat)
  | invalidWireType (bits : Nat)
  | invalidFieldNumber (number : Nat)
  | unskippable (type : WireType)
  | frameTooLarge (size max : Nat)
  | device (fault : Fault)
  | connectionClosed
deriving Repr, DecidableEq

namespace WireError

/-- The name of a failure, behind the name of what it happened in. -/
def name : WireError → String
  | .stream failure => s!"Stream/{failure.name}"
  | .malformedVarint => "MalformedVarint"
  | .lengthMismatch .. => "LengthMismatch"
  | .invalidWireType _ => "InvalidWireType"
  | .invalidFieldNumber _ => "InvalidFieldNumber"
  | .unskippable _ => "UnskippableWireType"
  | .frameTooLarge .. => "FrameTooLarge"
  | .device _ => "Io"
  | .connectionClosed => "ConnectionClosed"

def message : WireError → String
  | .stream failure => s!"stream error: {failure.message}"
  | .malformedVarint => "malformed varint"
  | .lengthMismatch declared available =>
    s!"length-delimited value of {declared} bytes exceeds the {available} bytes available"
  | .invalidWireType bits => s!"invalid wire type {bits}"
  | .invalidFieldNumber number => s!"invalid field number {number}"
  | .unskippable type => s!"cannot skip a value of wire type {type.name}"
  | .frameTooLarge size max => s!"frame too large ({size} bytes, max {max})"
  | .device fault => s!"frame I/O error: {fault.message}"
  | .connectionClosed => "connection closed (incomplete frame)"

end WireError

end BlockCodec
