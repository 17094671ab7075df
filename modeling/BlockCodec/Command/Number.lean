import BlockCodec.Command.Report
import BlockCodec.Text.Blank
import BlockCodec.Text.Hex
import BlockCodec.Text.Numeral
import BlockCodec.Varint

/-!
# Encoding and decoding one number

A decimal value as the bytes of a base-128 number, and back. Without the zig-zag map a negative
value is extended to 64 bits.
-/

namespace BlockCodec.Command

structure NumberForm where
  value : Int
  zigzag : Bool
  bytes : Bytes
deriving Repr, DecidableEq

namespace NumberForm

def hex (form : NumberForm) : String := Text.Hex.encode form.bytes

/-- Raw output is the other half: the bytes when encoding, the value when decoding. -/
def report (form : NumberForm) (raw : Report) : Style → Report
  | .json =>
    .ofJson [.object [("value", .number form.value), ("zigzag", .flag form.zigzag),
      ("hex", .text form.hex), ("len", .number form.bytes.length)]]
  | .table =>
    .ofGrid ["VALUE", "ZIGZAG", "HEX", "LEN"]
      [[toString form.value, if form.zigzag then "true" else "false", form.hex,
        toString form.bytes.length]]
  | .pretty => .ofLines [s!"{form.value} <-> {form.hex} ({form.bytes.length} bytes)"]
  | .raw => raw

end NumberForm

/-- The value that an argument stands for and the number that is sent for it. -/
def readValue (argument : String) (zigzag : Bool) : Except CommandError (Int × UInt64) :=
  let text := Text.trim argument
  let answer? :=
    if zigzag then (Text.signed? text).map fun value => (value.toInt, ZigZag.encode value)
    else if text.startsWith "-" then
      (Text.signed? text).map fun value => (value.toInt, value.toUInt64)
    else (Text.unsigned? text).map fun value => ((value.toNat : Int), value)
  match answer? with
  | some answer => .ok answer
  | none => .error (.invalidNumber text)

def encodeNumber (argument : String) (zigzag : Bool) (style : Style) : Report :=
  .ofExcept do
    let (value, code) ← readValue argument zigzag
    let bytes := Varint.encode code
    pure (NumberForm.report { value, zigzag, bytes } (.ofBytes bytes) style)

/-- The text without the mark of hexadecimal numbers. -/
def dropMark : List Char → List Char
  | '0' :: 'x' :: rest | '0' :: 'X' :: rest => rest
  | text => text

/-- Spaces, ends of lines and colons may stand between digits. -/
def isSeparator (byte : UInt8) : Bool :=
  [0x20, 0x09, 0x0a, 0x0c, 0x0d, 0x3a].contains byte

/-- A byte as text; what is only a part of a character becomes the replacement character. -/
def showByte (byte : UInt8) : Char :=
  if byte < 0x80 then Char.ofNat byte.toNat else '\ufffd'

/-- Two bytes that follow each other in a text: a character, the front of one, or two that have
nothing to do with each other. -/
def showPair (high low : UInt8) : String :=
  match Bytes.text? [high, low] with
  | some text => text
  | none =>
    if 0xe0 ≤ high ∧ 0x80 ≤ low ∧ low < 0xc0 then "\ufffd"
    else String.ofList [showByte high, showByte low]

def hexPairs : Bytes → Except CommandError Bytes
  | high :: low :: rest =>
    match Text.Hex.byte? (Char.ofNat high.toNat) (Char.ofNat low.toNat) with
    | none => .error (.invalidHexDigit (showPair high low))
    | some byte => (hexPairs rest).map (byte :: ·)
  | _ => .ok []

def readHex (argument : String) : Except CommandError Bytes := do
  let text := String.ofList (dropMark (Text.trim argument).toList)
  let digits := (Bytes.ofText text).filter fun byte => !isSeparator byte
  if digits.isEmpty then throw .noHexDigits
  if digits.length % 2 ≠ 0 then throw .oddHexDigits
  hexPairs digits

def decodeNumber (argument : String) (zigzag : Bool) (style : Style) : Report :=
  .ofExcept do
    let bytes ← readHex argument
    match Varint.read bytes with
    | .malformed => throw .malformedNumber
    | .unfinished => throw .truncatedNumber
    | .complete code length =>
      let value : Int := if zigzag then (ZigZag.decode code).toInt else code.toNat
      let form : NumberForm := { value, zigzag, bytes := bytes.take length }
      pure (form.report (.ofLines [toString value]) style)

end BlockCodec.Command
