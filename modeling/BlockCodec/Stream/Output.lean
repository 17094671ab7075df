import BlockCodec.Step
import BlockCodec.Stream.Sink

/-!
# Bounded writing

An output writes to a sink within a limit. An output without a sink only counts: it measures
what would be written and has no limit. The limit is checked before the sink is asked, and a
write that fails is not counted.
-/

namespace BlockCodec

structure Output (κ : Type) where
  sink : Option κ
  limit : Nat
  written : Nat
deriving Repr, DecidableEq

namespace Output

variable {κ ε α : Type}

def ofSink (sink : κ) (limit : Nat) : Output κ := ⟨some sink, limit, 0⟩

def unbounded (sink : κ) : Output κ := ofSink sink maxSize

def ofBuffer (content : Bytes) : Output FixedBuffer := ofSink (.ofBytes content) content.length

/-- An output that only counts. -/
def sizing : Output κ := ⟨none, maxSize, 0⟩

def isSizing (output : Output κ) : Bool := output.sink.isNone

def remaining (output : Output κ) : Nat := output.limit - output.written

def charge (output : Output κ) (count : Nat) : Output κ :=
  { output with written := output.written + count }

/-- An output over the next `length` bytes, or the refusal of so many. -/
def narrow (output : Output κ) (length : Nat) : Except StreamError (Output κ) :=
  match output.sink with
  | none => .ok sizing
  | some sink =>
    if output.remaining < length then .error (.limitExceeded length output.remaining)
    else .ok (ofSink sink length)

/-- The outer output once the narrowed one is done: it is charged what the inner one wrote. -/
def rejoin (outer inner : Output κ) : Output κ :=
  { outer with sink := inner.sink }.charge inner.written

/-- Runs a step over the next `length` bytes. What it writes is charged to this output whether
it succeeds or not. -/
def within (length : Nat) (refuse : StreamError → ε) (step : Step (Output κ) ε α) :
    Step (Output κ) ε α :=
  .ofRun fun output =>
    match output.narrow length with
    | .error failure => (.error (refuse failure), output)
    | .ok inner =>
      let (outcome, inner) := step.result inner
      (outcome, output.rejoin inner)

/-- The bytes that a step writes, counted only; this output is left alone. -/
def measure (step : Step (Output κ) ε Unit) : Step (Output κ) ε Nat :=
  .ofRun fun output =>
    let (outcome, inner) := step.result .sizing
    (outcome.map fun _ => inner.written, output)

variable [Sink κ]

def write (bytes : Bytes) : Step (Output κ) StreamError Unit :=
  .ofRun fun output =>
    match output.sink with
    | none => (.ok (), output.charge bytes.length)
    | some sink =>
      if output.remaining < bytes.length then
        (.error (.limitExceeded bytes.length output.remaining), output)
      else
        match Sink.write sink bytes with
        | (.ok (), sink) => (.ok (), { output with sink := some sink }.charge bytes.length)
        | (.error failure, sink) => (.error failure, { output with sink := some sink })

/-- Bytes written at a time when an output is padded. -/
def padChunk : Nat := 32

/-- Writes zeros in chunks of at most `padChunk`. -/
def pad (count : Nat) : Step (Output κ) StreamError Unit :=
  if count = 0 then pure ()
  else do
    write (Bytes.zeros (min count padChunk))
    pad (count - padChunk)
termination_by count
decreasing_by
  unfold padChunk
  omega

/-- Accounts for `count` bytes: counted when sizing, zeros otherwise. -/
def skip (count : Nat) : Step (Output κ) StreamError Unit :=
  .ofRun fun output =>
    if output.isSizing then (.ok (), output.charge count) else (pad count).result output

def flush : Step (Output κ) StreamError Unit :=
  .ofRun fun output =>
    match output.sink with
    | none => (.ok (), output)
    | some sink =>
      let (outcome, sink) := Sink.flush sink
      (outcome, { output with sink := some sink })

end Output

end BlockCodec
