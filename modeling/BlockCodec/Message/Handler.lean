import BlockCodec.Error
import BlockCodec.Message.Config
import BlockCodec.Schema.Table
import BlockCodec.Stream.Input
import BlockCodec.Stream.Output

/-!
# Handlers

A handled field keeps no value in the block: its values go through a handler with a state of
its own. When decoding, a handler is given numbers one by one and the payload of every other
value; when encoding, it writes all elements of its field. What a handler does not say is to do
nothing.
-/

namespace BlockCodec

/-- Where a payload that is being decoded stands; the payload itself is the input. -/
structure Payload where
  field : String
  config : DecodeConfig
  depth : Nat
deriving Repr, DecidableEq

/-- Where the elements of a field are being written. -/
structure ElementWriter (Ref : Type) where
  field : Field Ref
  config : EncodeConfig
  depth : Nat
deriving Repr, DecidableEq

/-- A handler's work on an input. -/
abbrev Receive (σ S α : Type) := Step (Input σ × S) CodecError α

/-- A handler's work on an output. -/
abbrev Emit (κ S α : Type) := Step (Output κ × S) CodecError α

/-- How a state of type `S` handles fields of tables referred to by `Ref`. -/
class Handler (Ref : Type) (S : Type) : Type 1 where
  takeScalar : Field Ref → Scalar → Step S CodecError Unit := fun _ _ => pure ()
  /-- What is left unread of the payload is discarded afterwards. -/
  takePayload : {σ : Type} → [Source σ] → Field Ref → Payload → Receive σ S Unit :=
    fun _ _ => pure ()
  /-- Called once for every pass over an enclosing message; all calls must write the same. -/
  writeElements : {κ : Type} → [Sink κ] → ElementWriter Ref → Emit κ S Unit :=
    fun _ => pure ()

/-- The handler that does nothing. -/
instance {Ref : Type} : Handler Ref Unit where

/-- No handler at all, for messages whose fields are all in the block. -/
instance {Ref : Type} : Handler Ref Empty where

end BlockCodec
