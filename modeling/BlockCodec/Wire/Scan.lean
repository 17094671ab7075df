import BlockCodec.Wire.Read

/-!
# Scanning a message without its schema

A scanner walks the fields of an encoded message by their wire types alone and stops at the
first field that it cannot read.
-/

namespace BlockCodec.Wire

/-- The payload of a field as its wire type alone tells it. -/
inductive RawValue
  | varint (value : UInt64)
  | fixed32 (value : UInt32)
  | fixed64 (value : UInt64)
  | delimited (bytes : Bytes)
deriving Repr, DecidableEq

/-- A field as it stands on the wire; `offset` is where its header begins. -/
structure RawField where
  number : Nat
  type : WireType
  offset : Nat
  value : RawValue
deriving Repr, DecidableEq

def readRawValue {σ : Type} [Source σ] : WireType → Read σ RawValue
  | .varint => return .varint (← readVarint)
  | .fixed32 => return .fixed32 (← readFixed32)
  | .fixed64 => return .fixed64 (← readFixed64)
  | .delimited => do
    let length ← readLength
    return .delimited (← onStream (Input.read length))
  | type => throw (.unskippable type)

def readRawField {σ : Type} [Source σ] (offset : Nat) : Read σ (Option RawField) := do
  match ← readTag with
  | none => pure none
  | some (number, type) =>
    let value ← readRawValue type
    pure (some { number, type, offset, value })

/-- A walk over encoded bytes: what the input has taken has been scanned. -/
structure Scanner where
  input : Input Bytes
  failed : Bool
deriving Repr, DecidableEq

namespace Scanner

def ofBytes (bytes : Bytes) : Scanner := ⟨.ofBytes bytes, false⟩

/-- Where the next field begins. -/
def position (scanner : Scanner) : Nat := scanner.input.taken

/-- The next field or failure, if any; nothing follows a failure. -/
def next (scanner : Scanner) : Option (Except WireError RawField) × Scanner :=
  if scanner.failed then (none, scanner)
  else
    match (readRawField scanner.position).result scanner.input with
    | (.error failure, _) => (some (.error failure), { scanner with failed := true })
    | (.ok none, _) => (none, scanner)
    | (.ok (some field), input) => (some (.ok field), { scanner with input })

/-- All fields up to the end or the first failure; each takes at least one byte, so `room`
bounds their number. -/
def run : Nat → Scanner → List RawField × Option WireError × Scanner
  | 0, scanner => ([], none, scanner)
  | room + 1, scanner =>
    match scanner.next with
    | (none, scanner) => ([], none, scanner)
    | (some (.error failure), scanner) => ([], some failure, scanner)
    | (some (.ok field), scanner) =>
      let (fields, failure?, scanner) := run room scanner
      (field :: fields, failure?, scanner)

end Scanner

/-- The fields of an encoded message, the failure that ended the walk, and where it ended. -/
def scan (bytes : Bytes) : List RawField × Option WireError × Scanner :=
  Scanner.run (bytes.length + 1) (Scanner.ofBytes bytes)

end BlockCodec.Wire
