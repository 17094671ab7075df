import BlockCodec.Block.Edit

/-!
# Initial content

A block is initialised by zeroing every field that lies in it and applying the defaults of its
table, and of the tables below it for single messages. Handler slots keep what they hold.
-/

namespace BlockCodec

variable {Ref : Type}

/-- The deepest nesting of tables that initialisation follows. -/
def maxInitialDepth : Nat := 64

namespace Field

def defaultMisfit (field : Field Ref) : CodecError :=
  .invalidDescriptor field.name "default value does not fit the field"

/-- The default of a field laid over its storage. -/
def applyDefault (field : Field Ref) (value : Default) (stored : Bytes) :
    Except CodecError Bytes :=
  match value, field.kind with
  | .text content, .text =>
    let bytes := Bytes.ofText content
    if stored.length ≤ bytes.length then .error field.defaultMisfit
    else .ok (Bytes.overwrite stored 0 (bytes ++ [0]))
  | .bytes content, .bytes =>
    if stored.length < content.length + 4 then .error field.defaultMisfit
    else .ok (Bytes.overwrite stored 0 (Bytes.littleEndian 4 content.length ++ content))
  | .scalar number, kind =>
    if kind.isScalar then .ok (kind.storeScalar stored number) else .error field.defaultMisfit
  | _, _ => .error field.defaultMisfit

/-- What freshly zeroed storage of one value is filled with: `nested` initialises a message. -/
def fillInitial (nested : Ref → Edit Unit) (field : Field Ref) : Edit Unit :=
  match field.kind with
  | .message ref => nested ref
  | _ =>
    match field.default? with
    | none => pure ()
    | some value => do
      let stored ← get
      let filled ← Step.ofExcept (field.applyDefault value stored)
      set filled

/-- Returns a field in the block to its initial state. -/
def reset (nested : Ref → Edit Unit) (field : Field Ref) : Edit Unit := do
  match field.sizeSlot? with
  | some span => Edit.clear field span
  | none => pure ()
  match field.multiplicity with
  | .repeated => Edit.clear field field.array
  | .oneof _ => Edit.clear field field.data
  | .required | .optional =>
    Edit.inside field field.data do
      modify fun stored => Bytes.zeros stored.length
      field.fillInitial nested

end Field

/-- Returns every field in the block to its initial state. -/
def Table.reset (nested : Ref → Edit Unit) (table : Table Ref) : Edit Unit := do
  Edit.ask table.checkBlock
  table.fields.forM fun field => if field.isHandled then pure () else field.reset nested

namespace Schema

/-- Initialises a block for the table of a reference, with the given levels of tables. -/
def initialiseWithin (schema : Schema Ref) : Nat → Ref → Edit Unit
  | 0, ref => throw (.invalidDescriptor (schema ref).name "descriptor nesting too deep")
  | levels + 1, ref => (schema ref).reset (initialiseWithin schema levels)

def initialise (schema : Schema Ref) (ref : Ref) : Edit Unit :=
  schema.initialiseWithin (maxInitialDepth + 1) ref

/-- Initialises a message one level below the top. -/
def initialiseNested (schema : Schema Ref) (ref : Ref) : Edit Unit :=
  schema.initialiseWithin maxInitialDepth ref

/-- Makes a field the active member of its group: the storage of every member is zeroed first,
so that nothing of the member active before survives. -/
def activate (schema : Schema Ref) (table : Table Ref) (field : Field Ref) : Edit Unit :=
  match field.group? with
  | none => pure ()
  | some group => do
    (table.members group).forM fun member => Edit.clear member member.data
    Edit.inside field field.data (field.fillInitial schema.initialiseNested)
    -- a default that does not fit leaves the tag of the member active before
    Edit.setSlot field field.tag

end Schema

end BlockCodec
