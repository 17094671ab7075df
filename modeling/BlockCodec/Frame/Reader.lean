import BlockCodec.Frame.Basic
import BlockCodec.Step
import BlockCodec.Stream.Source

/-!
# Reading frames from a device

The reader keeps the bytes that have arrived but do not make a frame yet. An interrupted call
is repeated; any other fault is reported once and leaves the bytes in place.
-/

namespace BlockCodec.Frame

structure Reader where
  feed : Feed
  buffer : Bytes
  max : Nat
deriving Repr, DecidableEq

namespace Reader

/-- Bytes asked for in one call. -/
def readChunk : Nat := 8192

def ofFeed (feed : Feed) (max : Nat) : Reader := ⟨feed, [], max⟩

/-- Takes a frame off the buffer, calling the device until the buffer holds one. -/
def advance (reader : Reader) : Except WireError (Option Bytes) × Reader :=
  match take reader.max reader.buffer with
  | .error failure => (.error failure, reader)
  | .ok (some (payload, rest)) => (.ok (some payload), { reader with buffer := rest })
  | .ok none =>
    match _h : reader.feed.read readChunk with
    | (.error .interrupted, feed) => advance { reader with feed }
    | (.error fault, feed) => (.error (.device fault), { reader with feed })
    | (.ok [], feed) =>
      (if reader.buffer.isEmpty then .ok none else .error .connectionClosed,
        { reader with feed })
    | (.ok (byte :: bytes), feed) =>
      advance { reader with feed, buffer := reader.buffer ++ byte :: bytes }
termination_by reader.feed.size
decreasing_by all_goals exact Feed.size_read_lt (by assumption) (by simp)

/-- The next payload, or nothing when the data ends between frames. -/
def next : Step Reader WireError (Option Bytes) := .ofRun advance

/-- The next payload; the end of the data is a closed connection. -/
def read : Step Reader WireError Bytes := do
  match ← next with
  | some payload => pure payload
  | none => throw .connectionClosed

end Reader

end BlockCodec.Frame
