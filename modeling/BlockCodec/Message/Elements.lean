import BlockCodec.Message.Encode

/-!
# Writing elements in a handler

Every value is written with the header of the field; only raw bytes go out as they are.
-/

namespace BlockCodec.ElementWriter

variable {κ S Ref : Type} [Sink κ]

omit [Sink κ] in
/-- This pass only counts. -/
def isSizing : Step (Output κ) CodecError Bool := do
  let output ← get
  pure output.isSizing

def writeRaw (bytes : Bytes) : Step (Output κ) CodecError Unit :=
  (Output.write bytes).mapFailure .stream

def writeHeader (writer : ElementWriter Ref) (type : WireType) : Step (Output κ) CodecError Unit :=
  (Wire.writeTag type writer.field.tag).mapFailure .wire

def writeScalar (writer : ElementWriter Ref) (value : Scalar) :
    Step (Output κ) CodecError Unit := do
  writer.writeHeader writer.field.kind.wireType
  writer.field.writeScalar value

def writeBytes (writer : ElementWriter Ref) (bytes : Bytes) :
    Step (Output κ) CodecError Unit := do
  writer.writeHeader .delimited
  (Wire.writeDelimited bytes).mapFailure .wire

def writeText (writer : ElementWriter Ref) (text : String) : Step (Output κ) CodecError Unit :=
  writer.writeBytes (Bytes.ofText text)

/-- Each scalar in turn, by the given way of writing one. -/
def writeEach (write : Scalar → Step (Output κ) CodecError Unit) :
    List Scalar → Step (Output κ) CodecError Unit
  | [] => pure ()
  | value :: rest => do
    write value
    writeEach write rest

/-- Numbers as one packed element; nothing when there are none. -/
def writePacked (writer : ElementWriter Ref) (values : List Scalar) :
    Step (Output κ) CodecError Unit := do
  if values.isEmpty then pure ()
  else if !writer.field.kind.isScalar then throw writer.field.notNumeric
  else writer.field.writePacked values.length (writeEach writer.field.writeScalar values)

/-- A message one level further down, with handlers of its own. -/
def writeMessage [Handler Ref S] (writer : ElementWriter Ref) (schema : Schema Ref) (ref : Ref)
    (block : Bytes) : Encode κ S Unit := do
  Encode.onOutput (writer.writeHeader .delimited)
  Encode.sized writer.field.name
    (Encode.message schema writer.config (writer.depth + 1) ref block)

end BlockCodec.ElementWriter
