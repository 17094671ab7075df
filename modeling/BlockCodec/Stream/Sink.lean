import BlockCodec.Bytes
import BlockCodec.Stream.Error

/-!
# Sinks for bytes

A sink accepts all of a buffer or fails. A byte string grows; a fixed buffer fills from its
front; a drain is a device that takes part of a buffer at a time; a gate takes a buffer whole
or not at all.
-/

namespace BlockCodec

class Sink (κ : Type) where
  write : κ → Bytes → Except StreamError Unit × κ
  flush : κ → Except StreamError Unit × κ := fun sink => (.ok (), sink)

instance : Sink Bytes where
  write content bytes := (.ok (), content ++ bytes)

/-- A buffer of fixed length: the part written, and what the rest still holds. -/
structure FixedBuffer where
  filled : Bytes
  room : Bytes
deriving Repr, DecidableEq

namespace FixedBuffer

def ofBytes (content : Bytes) : FixedBuffer := ⟨[], content⟩

def content (buffer : FixedBuffer) : Bytes := buffer.filled ++ buffer.room

def write (buffer : FixedBuffer) (bytes : Bytes) : Except StreamError Unit × FixedBuffer :=
  if buffer.room.length < bytes.length then
    (.error (.limitExceeded bytes.length buffer.room.length), buffer)
  else (.ok (), ⟨buffer.filled ++ bytes, buffer.room.drop bytes.length⟩)

end FixedBuffer

instance : Sink FixedBuffer where
  write := FixedBuffer.write

/-- One answer of a device to a call that offers it bytes. -/
inductive Acceptance
  | upTo (count : Nat)
  | fault (fault : Fault)
deriving Repr, DecidableEq

/-- A device that takes bytes: what it will answer to each write and to each flush, and what
it has taken. After the last answer it takes everything, and flushing succeeds. -/
structure Drain where
  writes : List Acceptance
  flushes : List (Option Fault)
  accepted : Bytes
deriving Repr, DecidableEq

namespace Drain

/-- Offers bytes until all are taken; `stalled` is the failure for a call that takes none.
An interrupted call is repeated. -/
def offer {ε : Type} (stalled : ε) (fail : Fault → ε) :
    List Acceptance → Bytes → Bytes → Except ε Unit × List Acceptance × Bytes
  | writes, accepted, [] => (.ok (), writes, accepted)
  | [], accepted, bytes => (.ok (), [], accepted ++ bytes)
  | .fault .interrupted :: writes, accepted, bytes => offer stalled fail writes accepted bytes
  | .fault fault :: writes, accepted, _ => (.error (fail fault), writes, accepted)
  | .upTo 0 :: writes, accepted, _ => (.error stalled, writes, accepted)
  | .upTo count :: writes, accepted, bytes =>
    offer stalled fail writes (accepted ++ bytes.take count) (bytes.drop count)

/-- Writes all of `bytes`, call after call. -/
def writeAll {ε : Type} (stalled : ε) (fail : Fault → ε) (drain : Drain) (bytes : Bytes) :
    Except ε Unit × Drain :=
  let (outcome, writes, accepted) := offer stalled fail drain.writes drain.accepted bytes
  (outcome, { drain with writes, accepted })

/-- The outcome of a flush, repeated while the device is interrupted, and the answers left. -/
def flushCalls {ε : Type} (fail : Fault → ε) :
    List (Option Fault) → Except ε Unit × List (Option Fault)
  | [] => (.ok (), [])
  | none :: flushes => (.ok (), flushes)
  | some .interrupted :: flushes => flushCalls fail flushes
  | some fault :: flushes => (.error (fail fault), flushes)

def flushAll {ε : Type} (fail : Fault → ε) (drain : Drain) : Except ε Unit × Drain :=
  let (outcome, flushes) := flushCalls fail drain.flushes
  (outcome, { drain with flushes })

end Drain

instance : Sink Drain where
  write := Drain.writeAll (.device .writeZero) .device
  flush := Drain.flushAll .device

/-- A device that takes each buffer whole or fails, and what it has taken. -/
structure Gate where
  writes : List (Option Fault)
  accepted : Bytes
deriving Repr, DecidableEq

namespace Gate

def write (gate : Gate) (bytes : Bytes) : Except StreamError Unit × Gate :=
  match gate.writes with
  | some fault :: writes => (.error (.device fault), { gate with writes })
  | writes => (.ok (), ⟨writes.tail, gate.accepted ++ bytes⟩)

end Gate

instance : Sink Gate where
  write := Gate.write

end BlockCodec
