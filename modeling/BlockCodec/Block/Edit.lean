import BlockCodec.Block.Storage
import BlockCodec.Step

/-!
# Changing a block

Edits are steps over a block. What an edit has changed before it fails stays changed.
-/

namespace BlockCodec

abbrev Edit (α : Type) := Step Bytes CodecError α

namespace Edit

variable {Ref α : Type}

/-- What a look at the block answers. -/
def ask (look : Bytes → Except CodecError α) : Edit α := .ofRun fun block => (look block, block)

/-- Runs an edit on the bytes of a span, which are put back afterwards. -/
def inside (field : Field Ref) (span : Span) (edit : Edit α) : Edit α :=
  .ofRun fun block =>
    match Bytes.slice? block span with
    | none => (.error field.outside, block)
    | some stored =>
      let (outcome, stored) := edit.result stored
      (outcome, Bytes.overwrite block span.start stored)

/-- Replaces the bytes of a span by as many others. -/
def change (field : Field Ref) (span : Span) (f : Bytes → Bytes) : Edit Unit :=
  inside field span (modify f)

def clear (field : Field Ref) (span : Span) : Edit Unit :=
  change field span fun stored => Bytes.zeros stored.length

def setSlot (field : Field Ref) (value : Nat) : Edit Unit := do
  let span ← Step.ofExcept field.sizeSlot
  change field span fun stored => writeUnsigned stored (UInt64.ofNat value)

end Edit

end BlockCodec
