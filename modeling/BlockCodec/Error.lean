import BlockCodec.Wire.Error

/-!
# Failures of the message codec

Each failure is a cause with what is needed to say it; the wording is in one place. Failures
fall into classes that callers act on.
-/

namespace BlockCodec

inductive CodecError
  | wire (failure : WireError)
  | wireTypeMismatch (field : String) (expected actual : WireType)
  | messageTooDeep (max : Nat)
  | arrayFull (field : String) (capacity : Nat)
  | missingRequiredField (message field : String)
  | unknownFieldSkipFailure (number : Nat) (type : WireType)
  | unknownField (message : String) (number : Nat)
  | capacityExceeded (field : String) (length capacity : Nat)
  | invalidUtf8 (field : String)
  | sizeMismatch (field : String) (expected actual : Nat)
  | invalidDescriptor (field reason : String)
  | noSuchField (message : String) (tag : Nat)
  | kindMismatch (field kind : String)
  | indexOutOfRange (field : String) (index count : Nat)
deriving Repr, DecidableEq

inductive ErrorClass
  | io
  | malformedVarint
  | lengthMismatch
  | invalidTag
  | wireTypeMismatch
  | messageTooDeep
  | arrayFull
  | missingRequiredField
  | unknownFieldSkipFailure
  | unknownField
  | capacityExceeded
  | invalidUtf8
  | sizeMismatch
  | invalidDescriptor
  | usage
deriving Repr, DecidableEq

def ErrorClass.name : ErrorClass → String
  | .io => "io"
  | .malformedVarint => "malformed_varint"
  | .lengthMismatch => "length_mismatch"
  | .invalidTag => "invalid_tag"
  | .wireTypeMismatch => "wire_type_mismatch"
  | .messageTooDeep => "message_too_deep"
  | .arrayFull => "array_full"
  | .missingRequiredField => "missing_required_field"
  | .unknownFieldSkipFailure => "unknown_field_skip_failure"
  | .unknownField => "unknown_field"
  | .capacityExceeded => "capacity_exceeded"
  | .invalidUtf8 => "invalid_utf8"
  | .sizeMismatch => "size_mismatch"
  | .invalidDescriptor => "invalid_descriptor"
  | .usage => "usage"

namespace CodecError

def stream (failure : StreamError) : CodecError := .wire (.stream failure)

/-- The name of a failure, behind the name of what it happened in. -/
def name : CodecError → String
  | .wire failure => s!"Wire/{failure.name}"
  | .wireTypeMismatch .. => "WireTypeMismatch"
  | .messageTooDeep _ => "MessageTooDeep"
  | .arrayFull .. => "ArrayFull"
  | .missingRequiredField .. => "MissingRequiredField"
  | .unknownFieldSkipFailure .. => "UnknownFieldSkipFailure"
  | .unknownField .. => "UnknownField"
  | .capacityExceeded .. => "CapacityExceeded"
  | .invalidUtf8 _ => "InvalidUtf8"
  | .sizeMismatch .. => "SizeMismatch"
  | .invalidDescriptor .. => "InvalidDescriptor"
  | .noSuchField .. => "NoSuchField"
  | .kindMismatch .. => "KindMismatch"
  | .indexOutOfRange .. => "IndexOutOfRange"

def message : CodecError → String
  | .wire failure => s!"wire error: {failure.message}"
  | .wireTypeMismatch field expected actual =>
    s!"field {field}: wire type {actual.name} does not match expected {expected.name}"
  | .messageTooDeep max => s!"message nesting exceeds maximum depth {max}"
  | .arrayFull field capacity => s!"field {field}: array capacity {capacity} exceeded"
  | .missingRequiredField message field =>
    s!"required field {field} missing from message {message}"
  | .unknownFieldSkipFailure number type =>
    s!"cannot skip field {number} with wire type {type.name}"
  | .unknownField message number => s!"unknown field {number} in message {message}"
  | .capacityExceeded field length capacity =>
    s!"field {field}: value of {length} bytes exceeds capacity {capacity}"
  | .invalidUtf8 field => s!"field {field}: string is not valid UTF-8"
  | .sizeMismatch field expected actual =>
    s!"{field}: encoded size changed between passes ({expected} then {actual} bytes)"
  | .invalidDescriptor field reason => s!"{field}: invalid descriptor ({reason})"
  | .noSuchField message tag => s!"message {message} has no field {tag}"
  | .kindMismatch field kind => s!"field {field}: accessor does not apply to a {kind} field"
  | .indexOutOfRange field index count =>
    s!"field {field}: index {index} out of range (count {count})"

def errorClass : CodecError → ErrorClass
  | .wire (.stream _) | .wire (.device _) | .wire .connectionClosed => .io
  | .wire .malformedVarint => .malformedVarint
  | .wire (.lengthMismatch ..) | .wire (.frameTooLarge ..) => .lengthMismatch
  | .wire (.invalidWireType _) | .wire (.invalidFieldNumber _) => .invalidTag
  | .wire (.unskippable _) | .unknownFieldSkipFailure .. => .unknownFieldSkipFailure
  | .wireTypeMismatch .. => .wireTypeMismatch
  | .messageTooDeep _ => .messageTooDeep
  | .arrayFull .. => .arrayFull
  | .missingRequiredField .. => .missingRequiredField
  | .unknownField .. => .unknownField
  | .capacityExceeded .. => .capacityExceeded
  | .invalidUtf8 _ => .invalidUtf8
  | .sizeMismatch .. => .sizeMismatch
  | .invalidDescriptor .. => .invalidDescriptor
  | .noSuchField .. | .kindMismatch .. | .indexOutOfRange .. => .usage

end CodecError

end BlockCodec
