import BlockCodec.Command.Run

/-!
# The command line program

Opens the place that the arguments name, runs the command and prints what it answers.
-/

namespace BlockCodec.Main

open BlockCodec.Command

def faultOf : IO.Error → Fault
  | .noFileOrDirectory .. => .notFound
  | .permissionDenied .. => .accessDenied
  | .inappropriateType .. => .isDirectory
  | .interrupted .. => .interrupted
  | .resourceVanished .. => .brokenPipe
  | _ => .other

partial def readToEnd (stream : IO.FS.Stream) (content : Array UInt8) : IO (Array UInt8) := do
  let chunk ← stream.read 65536
  if chunk.isEmpty then pure content else readToEnd stream (content ++ chunk.data)

/-- What a stream holds; a fault while reading comes last. -/
def feedOf (stream : IO.FS.Stream) : IO Feed := do
  match ← (readToEnd stream #[]).toBaseIO with
  | .ok content => pure [.chunk content.toList]
  | .error failure => pure [.fault (faultOf failure)]

def openFeed (path : String) : IO (Except Fault Feed) := do
  if path = standardInput then
    let feed ← feedOf (← IO.getStdin)
    pure (.ok feed)
  else
    match ← (IO.FS.Handle.mk path .read).toBaseIO with
    | .error failure => pure (.error (faultOf failure))
    | .ok handle =>
      let feed ← feedOf (.ofHandle handle)
      pure (.ok feed)

end BlockCodec.Main

open BlockCodec BlockCodec.Command in
def main (words : List String) : IO UInt32 := do
  let place? := match readArguments words with
    | .ok (request, _) => request.place?
    | .error _ => none
  let feed ← match place? with
    | some path => Main.openFeed path
    | none => pure (.ok [])
  let ending := run words fun _ => feed
  let output ← IO.getStdout
  output.write ⟨ending.printed.toArray⟩
  output.flush
  if let some message := ending.message? then IO.eprintln s!"error: {message}"
  pure (UInt32.ofNat ending.exitCode)
