import BlockCodec.Command.Arguments
import BlockCodec.Command.Number
import BlockCodec.Command.Split
import BlockCodec.Command.Version

/-!
# Running a command line

A command line is answered from its words and from what the places it names hold, without any
other effect.
-/

namespace BlockCodec.Command

def Request.answer (places : Places) (style : Style) : Request → Report
  | .inspect path delimited maxLength => Command.inspect places path delimited maxLength style
  | .split path maxLength => Command.split places path maxLength style
  | .encode value zigzag => encodeNumber value zigzag style
  | .decode hex zigzag => decodeNumber hex zigzag style
  | .version extended => versionReport extended style

/-- The place that a request reads from. -/
def Request.place? : Request → Option String
  | .inspect path .. | .split path .. => some path
  | _ => none

def usageLines : List String :=
  ["Usage: tablepb [OPTIONS] <COMMAND>", "",
    "Commands:",
    "  inspect <INPUT> [--delimited] [--max-len <BYTES>]",
    "  varint encode <VALUE> [--zigzag]",
    "  varint decode <HEX> [--zigzag]",
    "  split <INPUT> [--max-len <BYTES>]",
    "  version [--extended]", "",
    "Options:",
    "  --format <json|table|pretty|raw>",
    "  --log-format <text|json>",
    "  --log-level <off|error|warn|info|debug|trace>"]

/-- What ends a command line: what it prints, its exit code and its last message. -/
structure Ending where
  printed : Bytes
  exitCode : Nat
  message? : Option String
deriving Repr, DecidableEq

/-- The exit code of a command line that makes no sense. -/
def refusedCode : Nat := 2

def Report.ending (report : Report) : Ending := ⟨report.printed, report.exitCode, report.message?⟩

def Stop.ending : Stop → Ending
  | .help => (Report.ofLines usageLines).ending
  | .version => (Report.ofLines [versionLine]).ending
  | .refused => ⟨[], refusedCode, "invalid arguments; see --help"⟩

def run (words : List String) (places : Places) : Ending :=
  match readArguments words with
  | .ok (request, style) => (request.answer places style).ending
  | .error stop => stop.ending

end BlockCodec.Command
