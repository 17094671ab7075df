import BlockCodec.Frame.Basic
import BlockCodec.Step
import BlockCodec.Stream.Sink

/-!
# Writing frames to a device

A payload is sent as one frame, offered until the device has taken all of it, and flushed. What
a failed send has written stays written.
-/

namespace BlockCodec.Frame

structure Writer where
  drain : Drain
  max : Nat
deriving Repr, DecidableEq

namespace Writer

def onDrain (run : Drain → Except WireError Unit × Drain) : Step Writer WireError Unit :=
  .onPart (·.drain) (fun drain writer => { writer with drain }) (.ofRun run)

def flush : Step Writer WireError Unit := onDrain (Drain.flushAll .device)

def send (payload : Bytes) : Step Writer WireError Unit := do
  let writer ← get
  let frame ← Step.ofExcept (encodeWithin writer.max payload)
  onDrain fun drain => drain.writeAll .connectionClosed .device frame
  flush

end Writer

end BlockCodec.Frame
