/-!
# Failures of devices and streams

A device fails with a fault of its own. A stream adds the two failures that come from counting
bytes: the source ran dry, or the request crosses the limit of the stream.
-/

namespace BlockCodec

/-- Why a device refused to read, write or flush. -/
inductive Fault
  | interrupted
  | wouldBlock
  | unexpectedEof
  | brokenPipe
  | permissionDenied
  | writeZero
  | notFound
  | accessDenied
  | isDirectory
  | other
deriving Repr, DecidableEq

def Fault.message : Fault → String
  | .interrupted => "operation interrupted"
  | .wouldBlock => "operation would block"
  | .unexpectedEof => "unexpected end of file"
  | .brokenPipe => "broken pipe"
  | .permissionDenied => "permission denied"
  | .writeZero => "write zero"
  | .notFound => "No such file or directory (os error 2)"
  | .accessDenied => "Permission denied (os error 13)"
  | .isDirectory => "Is a directory (os error 21)"
  | .other => "other error"

inductive StreamError
  | device (fault : Fault)
  | endOfStream (requested available : Nat)
  | limitExceeded (requested remaining : Nat)
deriving Repr, DecidableEq

namespace StreamError

def name : StreamError → String
  | .device _ => "Io"
  | .endOfStream .. => "EndOfStream"
  | .limitExceeded .. => "LimitExceeded"

def message : StreamError → String
  | .device fault => s!"stream I/O error: {fault.message}"
  | .endOfStream requested available =>
    s!"unexpected end of stream ({requested} bytes requested, {available} available)"
  | .limitExceeded requested remaining =>
    s!"stream limit exceeded ({requested} bytes requested, {remaining} remaining)"

end StreamError

end BlockCodec
