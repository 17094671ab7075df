import BlockCodec.Step
import BlockCodec.Stream.Source

/-!
# Bounded reading

An input reads from a source within a budget. A read delivers all the bytes asked for or
fails, and the budget and the count of bytes taken move together: an end of the source charges
the bytes that came before it, a failure of the source charges nothing.
-/

namespace BlockCodec

structure Input (σ : Type) where
  source : σ
  left : Nat
  taken : Nat
  bounded : Bool
deriving Repr, DecidableEq

/-- What arrived for a request, and the failure that cut it short. -/
structure Delivery where
  bytes : Bytes
  failure? : Option StreamError
deriving Repr, DecidableEq

namespace Input

variable {σ ε α : Type}

def ofSource (source : σ) (limit : Nat) : Input σ := ⟨source, limit, 0, true⟩

def unbounded (source : σ) : Input σ := ⟨source, maxSize, 0, false⟩

def ofBytes (bytes : Bytes) : Input Bytes := ofSource bytes bytes.length

def isExhausted (input : Input σ) : Bool := input.left == 0

def charge (input : Input σ) (count : Nat) : Input σ :=
  { input with left := input.left - count, taken := input.taken + count }

/-- An input over the next `length` bytes, or the refusal of so many. -/
def narrow (input : Input σ) (length : Nat) : Except StreamError (Input σ) :=
  if input.left < length then .error (.limitExceeded length input.left)
  else .ok (ofSource input.source length)

/-- The outer input once the narrowed one is done: it is charged what the inner one took. -/
def rejoin (outer inner : Input σ) : Input σ :=
  { outer with source := inner.source }.charge inner.taken

variable [Source σ]

/-- Asks the source until `wanted` bytes have come, or it ends or fails. -/
def gather (source : σ) (wanted : Nat) : Delivery × σ :=
  if wanted = 0 then (⟨[], none⟩, source)
  else
    match Source.read source wanted with
    | (.error failure, source) => (⟨[], some failure⟩, source)
    | (.ok [], source) => (⟨[], none⟩, source)
    | (.ok (byte :: rest), source) =>
      let (delivery, source) := gather source (wanted - (rest.length + 1))
      ({ delivery with bytes := byte :: rest ++ delivery.bytes }, source)
termination_by wanted
decreasing_by omega

/-- Reads `count` bytes; what arrived before a failure is in the delivery. -/
def deliver (count : Nat) (input : Input σ) : Delivery × Input σ :=
  if input.left < count then (⟨[], some (.limitExceeded count input.left)⟩, input)
  else
    let (delivery, source) := gather input.source count
    let input := { input with source }
    match delivery.failure? with
    | some _ => (delivery, input)
    | none =>
      let arrived := delivery.bytes.length
      (if arrived < count then { delivery with failure? := some (.endOfStream count arrived) }
        else delivery,
        input.charge arrived)

def read (count : Nat) : Step (Input σ) StreamError Bytes :=
  .ofRun fun input =>
    match deliver count input with
    | (⟨bytes, none⟩, input) => (.ok bytes, input)
    | (⟨_, some failure⟩, input) => (.error failure, input)

def readByte : Step (Input σ) StreamError UInt8 := do
  let bytes ← read 1
  pure (bytes.headD 0)

/-- The next byte, or nothing when the budget is spent or the source has ended. -/
def readByte? : Step (Input σ) StreamError (Option UInt8) :=
  .ofRun fun input =>
    if input.left = 0 then (.ok none, input)
    else
      match Source.read input.source 1 with
      | (.error failure, source) => (.error failure, { input with source })
      | (.ok [], source) => (.ok none, { input with source })
      | (.ok (byte :: _), source) => (.ok (some byte), { input with source }.charge 1)

/-- Consumes `count` bytes without keeping them. -/
def skip (count : Nat) : Step (Input σ) StreamError Unit :=
  .ofRun fun input =>
    if input.left < count then (.error (.limitExceeded count input.left), input)
    else
      match Source.skip input.source count with
      | (.error failure, source) => (.error failure, { input with source })
      | (.ok skipped, source) =>
        (if skipped < count then .error (.endOfStream count skipped) else .ok (),
          { input with source }.charge skipped)

omit [Source σ] in
/-- Runs a step over the next `length` bytes. What it takes is charged to this input whether
it succeeds or not, and what it leaves unread stays in the source. -/
def within (length : Nat) (refuse : StreamError → ε) (step : Step (Input σ) ε α) :
    Step (Input σ) ε α :=
  .ofRun fun input =>
    match input.narrow length with
    | .error failure => (.error (refuse failure), input)
    | .ok inner =>
      let (outcome, inner) := step.result inner
      (outcome, input.rejoin inner)

end Input

end BlockCodec
