import BlockCodec.Command.Report
import BlockCodec.Frame.Basic
import BlockCodec.Message.Config

/-!
# The version of the program
-/

namespace BlockCodec.Command

def programName : String := "tablepb"

def programVersion : String := "0.1.0"

def versionLine : String := s!"{programName} {programVersion}"

/-- How the program was built and the limits it was built with. -/
def buildFacts : List (String × Text.Json) :=
  [("target", .text "x86_64-unknown-linux-gnu"), ("profile", .text "release"),
    ("rustc", .text "unknown"), ("git_hash", .text "unknown"), ("async_framing", .flag false),
    ("default_max_depth", .number defaultMaxDepth), ("default_max_frame", .number Frame.defaultMax)]

/-- A fact as a line shows it: texts without their quotes. -/
def factText : Text.Json → String
  | .text value => value
  | fact => fact.render

def factRows : List (String × String) :=
  ("version", programVersion) :: buildFacts.map fun (key, fact) => (key, factText fact)

def versionReport (extended : Bool) (style : Style) : Report :=
  match style, extended with
  | .json, _ =>
    .ofJson [.object ([("name", .text programName), ("version", .text programVersion)] ++
      if extended then [("build", .object buildFacts)] else [])]
  | .table, true => .ofGrid ["KEY", "VALUE"] (factRows.map fun (key, value) => [key, value])
  | _, true =>
    .ofLines ((("name", programName) :: factRows).map fun (key, value) => s!"{key}: {value}")
  | _, false => .ofLines [versionLine]

end BlockCodec.Command
