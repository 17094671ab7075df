import BlockCodec.Text.Quoted
import BlockCodec.Wire.Error

/-!
# Failures of commands

What a command ends with when it does not succeed: the exit code tells callers the class of the
failure, the message says what was being done and why it failed.
-/

namespace BlockCodec.Command

inductive CommandError
  | opening (path : String) (fault : Fault)
  | loading (path : String) (fault : Fault)
  | framing (failure : WireError)
  | scanning (index : Nat) (failure : WireError)
  | splitting (index : Nat) (failure : WireError)
  | malformedNumber
  | truncatedNumber
  | invalidNumber (text : String)
  | noHexDigits
  | oddHexDigits
  | invalidHexDigit (pair : String)
deriving Repr, DecidableEq

namespace CommandError

/-- A fault of a device behind a wire failure says so itself. -/
def cause : WireError → String
  | .device fault | .stream (.device fault) => fault.message
  | failure => failure.message

def message : CommandError → String
  | .opening path fault => s!"failed opening {path}: {fault.message}"
  | .loading path fault => s!"failed reading {path}: {fault.message}"
  | .framing failure => s!"read failed: {cause failure}"
  | .scanning index failure => s!"message {index} is malformed: {cause failure}"
  | .splitting index failure => s!"frame {index} is unreadable: {cause failure}"
  | .malformedNumber => s!"decode failed: {cause .malformedVarint}"
  | .truncatedNumber => "decode failed: varint is truncated"
  | .invalidNumber text => s!"invalid varint value: {text}"
  | .noHexDigits => "hex input must not be empty"
  | .oddHexDigits => "hex input has an odd number of digits"
  | .invalidHexDigit pair => s!"invalid hex digit in {Text.quote pair}"

end CommandError

def failureCode : Nat := 1

def permissionCode : Nat := 50

def dataCode : Nat := 60

def usageCode : Nat := 64

def internalCode : Nat := 125

def faultCode : Fault → Nat
  | .permissionDenied | .accessDenied => permissionCode
  | .notFound | .brokenPipe => failureCode
  | .unexpectedEof => dataCode
  | _ => internalCode

def wireCode : WireError → Nat
  | .device fault | .stream (.device fault) => faultCode fault
  | _ => dataCode

def CommandError.exitCode : CommandError → Nat
  | .opening _ fault | .loading _ fault => faultCode fault
  | .framing failure | .scanning _ failure | .splitting _ failure => wireCode failure
  | .malformedNumber | .truncatedNumber => dataCode
  | .invalidNumber _ | .noHexDigits | .oddHexDigits | .invalidHexDigit _ => usageCode

end BlockCodec.Command
