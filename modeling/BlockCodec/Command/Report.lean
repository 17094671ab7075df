import BlockCodec.Bytes
import BlockCodec.Command.Error
import BlockCodec.Text.Grid
import BlockCodec.Text.Json

/-!
# Reports

What a command prints, and the failure it ends with, if any. What was printed before a failure
stays printed.
-/

namespace BlockCodec.Command

/-- How a command prints what it found. -/
inductive Style
  | json
  | table
  | pretty
  | raw
deriving Repr, DecidableEq

structure Report where
  printed : Bytes
  failure? : Option CommandError
deriving Repr, DecidableEq

namespace Report

def ofBytes (bytes : Bytes) : Report := ⟨bytes, none⟩

/-- Every line with its end. -/
def ofLines (lines : List String) : Report :=
  ofBytes (lines.flatMap fun line => Bytes.ofText (line ++ "\n"))

def ofGrid (header : List String) (rows : List (List String)) : Report :=
  ofLines [(Text.Grid.mk header rows).render]

def ofJson (values : List Text.Json) : Report := ofLines (values.map Text.Json.render)

def ofFailure (failure : CommandError) : Report := ⟨[], some failure⟩

def ofExcept : Except CommandError Report → Report
  | .ok report => report
  | .error failure => ofFailure failure

def exitCode (report : Report) : Nat :=
  match report.failure? with
  | some failure => failure.exitCode
  | none => 0

def message? (report : Report) : Option String := report.failure?.map (·.message)

end Report

end BlockCodec.Command
