import BlockCodec.Command.Inspect

/-!
# Listing the messages of a stream

One row for every frame of a stream. The rows before an unreadable frame are printed all the
same.
-/

namespace BlockCodec.Command

structure FrameRow where
  index : Nat
  /-- Where the frame begins, were its length written in the shortest form. -/
  offset : Nat
  payload : Bytes
deriving Repr, DecidableEq

namespace FrameRow

def lead (row : FrameRow) : Nat := Varint.length (UInt64.ofNat row.payload.length)

/-- The row of the payload behind this one. -/
def following (row : FrameRow) (payload : Bytes) : FrameRow :=
  ⟨row.index + 1, row.offset + row.lead + row.payload.length, payload⟩

def json (row : FrameRow) : Text.Json :=
  .object [("index", .number row.index), ("offset", .number row.offset),
    ("prefix_len", .number row.lead), ("size", .number row.payload.length),
    ("preview", .text (Text.preview row.payload))]

def gridRow (row : FrameRow) : List String :=
  [toString row.index, toString row.offset, toString row.lead, toString row.payload.length,
    Text.preview row.payload]

def prettyLine (row : FrameRow) : String :=
  let index := Text.padTo 4 (toString row.index)
  let offset := Text.padTo 8 (toString row.offset)
  s!"#{index} @{offset} {row.lead} + {row.payload.length} bytes  {Text.preview row.payload}"

def rawLine (row : FrameRow) : String := Text.Hex.encode row.payload

end FrameRow

/-- The payloads of a stream up to its end or its first failure; `room` bounds their number. -/
def splitFrames : Nat → Frame.Reader → List Bytes × Option WireError
  | 0, _ => ([], none)
  | room + 1, reader =>
    match Frame.Reader.next.result reader with
    | (.error failure, _) => ([], some failure)
    | (.ok none, _) => ([], none)
    | (.ok (some payload), reader) =>
      let (payloads, failure?) := splitFrames room reader
      (payload :: payloads, failure?)

/-- The rows of payloads behind a row. -/
def rowsAfter (row : FrameRow) : List Bytes → List FrameRow
  | [] => []
  | payload :: rest =>
    let next := row.following payload
    next :: rowsAfter next rest

def frameRows : List Bytes → List FrameRow
  | [] => []
  | payload :: rest =>
    let first : FrameRow := ⟨0, 0, payload⟩
    first :: rowsAfter first rest

def splitReport (style : Style) (rows : List FrameRow) : Report :=
  match style with
  | .json => .ofJson (rows.map FrameRow.json)
  | .table => .ofGrid ["#", "OFFSET", "PREFIX", "SIZE", "PAYLOAD"] (rows.map FrameRow.gridRow)
  | .pretty => .ofLines (rows.map FrameRow.prettyLine)
  | .raw => .ofLines (rows.map FrameRow.rawLine)

def split (places : Places) (path : String) (maxLength : Nat) (style : Style) : Report :=
  .ofExcept do
    let feed ← openPlace places path
    let (payloads, failure?) := splitFrames (frameRoom feed) (.ofFeed feed maxLength)
    let failure? := failure?.map fun failure => CommandError.splitting payloads.length failure
    pure { splitReport style (frameRows payloads) with failure? }

end BlockCodec.Command
