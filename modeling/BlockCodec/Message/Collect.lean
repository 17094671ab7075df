import BlockCodec.Message.Elements
import BlockCodec.Message.Payload

/-!
# Collecting handlers

A ready-made handler that keeps the values of its field in a list, and writes the list back.
-/

namespace BlockCodec

variable {Ref : Type}

inductive Collector
  /-- Numbers, written packed when the field is. -/
  | scalars (values : List Scalar)
  /-- Payloads as byte strings. -/
  | bytes (items : List Bytes)
  /-- Payloads as texts. -/
  | texts (items : List String)
  /-- Values are dropped and nothing is written. -/
  | nothing
deriving Repr, DecidableEq

namespace Collector

def takeScalar (field : Field Ref) (value : Scalar) : Step Collector CodecError Unit := do
  match ← get with
  | .scalars values => set (scalars (values ++ [value]))
  | .bytes _ | .texts _ => throw field.notNumeric
  | .nothing => pure ()

def takePayload {σ : Type} [Source σ] (field : Field Ref) (payload : Payload) :
    Receive σ Collector Unit := do
  match (← get).2 with
  | .scalars _ => throw field.notNumeric
  | .bytes items =>
    let item ← Payload.toBytes.onPart (·.1) fun input state => (input, state.2)
    modify fun (input, _) => (input, bytes (items ++ [item]))
  | .texts items =>
    let item ← payload.toText.onPart (·.1) fun input state => (input, state.2)
    modify fun (input, _) => (input, texts (items ++ [item]))
  | .nothing => pure ()

/-- The elements that the values of a collector make. -/
def elements {κ : Type} [Sink κ] (writer : ElementWriter Ref) :
    Collector → Step (Output κ) CodecError Unit
  | .scalars values =>
    if writer.field.packed then writer.writePacked values
    else ElementWriter.writeEach writer.writeScalar values
  | .bytes items => items.forM writer.writeBytes
  | .texts items => items.forM writer.writeText
  | .nothing => pure ()

end Collector

instance : Handler Ref Collector where
  takeScalar := Collector.takeScalar
  takePayload := Collector.takePayload
  writeElements writer := do
    let (_, collector) ← get
    (collector.elements writer).onPart (·.1) fun output state => (output, state.2)

end BlockCodec
