import BlockCodec.Command.Error
import BlockCodec.Stream.Source

/-!
# Where commands read from

An argument names a file, or the standard input when it is a dash. What a command may learn
about a place is what opening it answers: a fault, or a feed of bytes.
-/

namespace BlockCodec.Command

/-- The answer of every place to being opened. -/
abbrev Places := String → Except Fault Feed

/-- The name that stands for the standard input. -/
def standardInput : String := "-"

def openPlace (places : Places) (path : String) : Except CommandError Feed :=
  (places path).mapError (.opening path)

/-- The bytes of a feed up to its end; a fault that is not an interruption stops it. -/
def drainFeed : Feed → Except Fault Bytes
  | [] => .ok []
  | .fault .interrupted :: rest => drainFeed rest
  | .fault fault :: _ => .error fault
  | .chunk bytes :: rest => (drainFeed rest).map (bytes ++ ·)

/-- All bytes of a place. -/
def loadPlace (places : Places) (path : String) : Except CommandError Bytes := do
  let feed ← openPlace places path
  (drainFeed feed).mapError (.loading path)

end BlockCodec.Command
