import BlockCodec.Varint
import BlockCodec.Wire.Error

/-!
# Frames

A frame is a payload behind its length. A frame is taken off the front of a buffer only when
all of it has arrived; until then, and when it is refused, the buffer stays as it was.
-/

namespace BlockCodec.Frame

/-- The largest payload taken when nothing else is said: 16 MiB. -/
def defaultMax : Nat := 16 * 1024 * 1024

def encode (payload : Bytes) : Bytes :=
  Varint.encode (UInt64.ofNat payload.length) ++ payload

/-- The payload at the front of a buffer and the bytes behind it, or nothing while the frame
is incomplete. -/
def take (max : Nat) (buffer : Bytes) : Except WireError (Option (Bytes × Bytes)) :=
  match Varint.read buffer with
  | .malformed => .error .malformedVarint
  | .unfinished => .ok none
  | .complete declared lead =>
    let size := declared.toNat
    -- refused as soon as its length is known, however much of it has come
    if max < size ∨ maxSize < lead + size then .error (.frameTooLarge size max)
    else
      let rest := buffer.drop lead
      let payload := rest.take size
      .ok (if payload.length < size then none else some (payload, rest.drop size))

/-- A frame at the end of the data: an incomplete one can no longer be completed. -/
def takeLast (max : Nat) (buffer : Bytes) : Except WireError (Option (Bytes × Bytes)) := do
  match ← take max buffer with
  | some frame => pure (some frame)
  | none => if buffer.isEmpty then pure none else throw .connectionClosed

/-- A frame for a payload of at most `max` bytes. -/
def encodeWithin (max : Nat) (payload : Bytes) : Except WireError Bytes :=
  if max < payload.length then .error (.frameTooLarge payload.length max)
  else .ok (encode payload)

end BlockCodec.Frame
