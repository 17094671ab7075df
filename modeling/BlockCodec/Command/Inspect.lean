import BlockCodec.Command.Place
import BlockCodec.Command.Report
import BlockCodec.Frame.Reader
import BlockCodec.Scalar.Basic
import BlockCodec.Scalar.Decimal
import BlockCodec.Text.Preview
import BlockCodec.Wire.Scan

/-!
# Showing the fields of messages

The fields of encoded messages, read by their wire types alone. Nothing is printed unless every
message can be read to its end.
-/

namespace BlockCodec.Command

/-- A message whose fields have been read. -/
structure Scanned where
  index : Nat
  size : Nat
  fields : List Wire.RawField
deriving Repr, DecidableEq

/-- A fixed value is shown as a whole number and as a floating point number. -/
def describeValue : Wire.RawValue → String
  | .varint value => toString value.toNat
  | .fixed32 bits =>
    s!"{bits.toNat} (float {(Scalar.singleValue bits).render Binary.single})"
  | .fixed64 bits =>
    s!"{bits.toNat} (double {(Scalar.doubleValue bits).render Binary.double})"
  | .delimited bytes => Text.preview bytes

def payloadLength? : Wire.RawValue → Option Nat
  | .delimited bytes => some bytes.length
  | _ => none

def scanMessage (index : Nat) (bytes : Bytes) : Except CommandError Scanned :=
  match Wire.scan bytes with
  | (_, some failure, _) => .error (.scanning index failure)
  | (fields, none, _) => .ok { index, size := bytes.length, fields }

/-- The messages of a stream of frames; every frame takes a byte at least, so `room` bounds
their number. -/
def scanFrames : Nat → Nat → Frame.Reader → Except CommandError (List Scanned)
  | 0, _, _ => .ok []
  | room + 1, index, reader =>
    match Frame.Reader.next.result reader with
    | (.error failure, _) => .error (.framing failure)
    | (.ok none, _) => .ok []
    | (.ok (some payload), reader) => do
      let message ← scanMessage index payload
      let rest ← scanFrames room (index + 1) reader
      pure (message :: rest)

/-- Room for all frames that a feed can hold. -/
def frameRoom (feed : Feed) : Nat := feed.content.length + 1

namespace Scanned

def fieldJson (field : Wire.RawField) : Text.Json :=
  let length := match payloadLength? field.value with
    | some length => [("len", .number length)]
    | none => []
  .object ([("offset", .number field.offset), ("number", .number field.number),
    ("wire_type", .text field.type.name)] ++ length ++
    [("value", .text (describeValue field.value))])

def json (message : Scanned) : Text.Json :=
  .object [("message", .number message.index), ("size", .number message.size),
    ("fields", .list (message.fields.map fieldJson))]

def gridRows (message : Scanned) : List (List String) :=
  message.fields.map fun field =>
    [toString message.index, toString field.offset, toString field.number, field.type.name,
      ((payloadLength? field.value).map toString).getD "", describeValue field.value]

def prettyField (field : Wire.RawField) : String :=
  let offset := Text.padTo 5 (toString field.offset)
  let number := Text.padFront 5 (toString field.number)
  let type := Text.padTo 6 field.type.name
  s!"  @{offset} {number}: {type} {describeValue field.value}"

/-- The messages of a stream of frames have headings. -/
def prettyLines (delimited : Bool) (message : Scanned) : List String :=
  (if delimited then [s!"message {message.index} ({message.size} bytes)"] else []) ++
    message.fields.map prettyField

def rawLines (message : Scanned) : List String :=
  message.fields.map fun field => s!"{field.number} {describeValue field.value}"

end Scanned

def inspectReport (delimited : Bool) (style : Style) (messages : List Scanned) : Report :=
  match style with
  | .json => .ofJson (messages.map Scanned.json)
  | .table =>
    .ofGrid ["MSG", "OFFSET", "FIELD", "TYPE", "LEN", "VALUE"]
      (messages.flatMap Scanned.gridRows)
  | .pretty => .ofLines (messages.flatMap (Scanned.prettyLines delimited))
  | .raw => .ofLines (messages.flatMap Scanned.rawLines)

def inspect (places : Places) (path : String) (delimited : Bool) (maxLength : Nat)
    (style : Style) : Report :=
  .ofExcept do
    -- without frames, the place holds one message
    if delimited then
      let feed ← openPlace places path
      let messages ← scanFrames (frameRoom feed) 0 (.ofFeed feed maxLength)
      pure (inspectReport delimited style messages)
    else
      let bytes ← loadPlace places path
      let message ← scanMessage 0 bytes
      pure (inspectReport delimited style [message])

end BlockCodec.Command
