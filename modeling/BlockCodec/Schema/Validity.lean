import BlockCodec.Error
import BlockCodec.Schema.Table
import BlockCodec.Wire.Write

/-!
# Validity of tables

A valid table has distinct tags in range, storage that fits its block and its kinds, groups
that agree on where their active tag is, and valid tables below it. The checks run in a fixed
order and the first failure is the answer.
-/

namespace BlockCodec

variable {Ref : Type}

/-- The deepest nesting of tables that validation follows. -/
def maxValidationDepth : Nat := 64

def Default.fits (value : Default) (kind : Kind Ref) (dataSize : Nat) : Bool :=
  match value, kind with
  | .scalar (.bool _), .bool => true
  | .scalar (.unsigned _), .varint _ | .scalar (.unsigned _), .zigZag _
  | .scalar (.unsigned _), .enumeration | .scalar (.unsigned _), .fixed _ => true
  | .scalar (.signed _), .varint _ | .scalar (.signed _), .zigZag _
  | .scalar (.signed _), .enumeration | .scalar (.signed _), .fixed _ => true
  | .scalar (.single _), .float _ | .scalar (.double _), .float _ => true
  | .text content, .text => content.utf8ByteSize < dataSize
  | .bytes content, .bytes => content.length + 4 ≤ dataSize
  | _, _ => false

namespace Field

def invalid {α : Type} (field : Field Ref) (reason : String) : Except CodecError α :=
  .error (.invalidDescriptor field.name reason)

/-- The `length` bytes from `offset` on end inside a block of `size` bytes, and their end is a
machine word. -/
def checkRange (field : Field Ref) (offset length size : Nat) : Except CodecError Unit :=
  if offset + length ≤ maxSize ∧ offset + length ≤ size then .ok ()
  else field.invalid "storage outside message block"

/-- The storage of one value suits the kind. -/
def checkKind (schema : Schema Ref) (field : Field Ref) : Except CodecError Unit :=
  match field.kind with
  | .fixed ⟨.w8, _⟩ | .fixed ⟨.w16, _⟩ => field.invalid "fixed kinds must be 32 or 64 bits"
  | .float .w8 | .float .w16 => field.invalid "float kinds must be 32 or 64 bits"
  | .text =>
    if field.dataSize = 0 then field.invalid "string storage needs room for the terminator"
    else .ok ()
  | .bytes =>
    if field.dataSize < 4 then field.invalid "bytes storage needs a length prefix" else .ok ()
  | .message table =>
    if field.dataSize ≠ (schema table).size then
      field.invalid "submessage storage does not match nested size"
    else .ok ()
  | _ => .ok ()

def checkScalarWidth (field : Field Ref) : Except CodecError Unit :=
  match field.kind.scalarWidth? with
  | some width =>
    if field.dataSize ≠ width then field.invalid "storage size does not match kind" else .ok ()
  | none => .ok ()

/-- All storage of the field lies in a block of `size` bytes. -/
def checkStorage (field : Field Ref) (size : Nat) : Except CodecError Unit :=
  match field.multiplicity with
  | .repeated =>
    match field.sizeOffset with
    | none => field.invalid "repeated field needs a count offset"
    | some countOffset => do
      if field.capacity = 0 then field.invalid "repeated field needs a capacity"
      let length := field.dataSize * field.capacity
      if maxSize < length then field.invalid "array storage overflows"
      field.checkRange field.dataOffset length size
      field.checkRange countOffset 4 size
  | .oneof _ =>
    match field.sizeOffset with
    | none => field.invalid "oneof member needs a which offset"
    | some whichOffset => do
      field.checkRange whichOffset 4 size
      field.checkRange field.dataOffset field.dataSize size
  | .optional => do
    match field.sizeOffset with
    | some flagOffset => field.checkRange flagOffset 1 size
    | none => pure ()
    field.checkRange field.dataOffset field.dataSize size
  | .required => field.checkRange field.dataOffset field.dataSize size

def checkHandled (field : Field Ref) (size : Nat) : Except CodecError Unit := do
  if field.dataSize ≠ 2 then field.invalid "callback slot must be 2 bytes"
  if field.group?.isSome then field.invalid "callback fields cannot be oneof members"
  field.checkRange field.dataOffset 2 size

/-- The layout of one field in a block of `size` bytes. -/
def checkLayout (schema : Schema Ref) (field : Field Ref) (size : Nat) :
    Except CodecError Unit :=
  if field.isHandled then field.checkHandled size
  else do
    field.checkKind schema
    field.checkScalarWidth
    field.checkStorage size
    if field.packed ∧ ¬(field.isRepeated ∧ field.kind.isScalar) then
      field.invalid "only repeated scalar fields can be packed"
    match field.default? with
    | some value =>
      if value.fits field.kind field.dataSize then pure ()
      else field.invalid "default value does not fit the field"
    | none => pure ()

end Field

namespace Table

/-- One field of a table, given the fields before it. -/
def checkField (schema : Schema Ref) (table : Table Ref) (before : List (Field Ref))
    (field : Field Ref) : Except CodecError Unit := do
  if field.tag = 0 ∨ Wire.maxFieldNumber < field.tag then field.invalid "tag out of range"
  if before.any (·.tag == field.tag) then field.invalid "duplicate tag"
  field.checkLayout schema table.size
  match field.group? with
  | none => pure ()
  | some group =>
    if (table.members group).any (·.sizeOffset != field.sizeOffset) then
      field.invalid "oneof members disagree on the which offset"

def checkFields (schema : Schema Ref) (table : Table Ref) :
    List (Field Ref) → List (Field Ref) → Except CodecError Unit
  | _, [] => .ok ()
  | before, field :: rest => do
    table.checkField schema before field
    checkFields schema table (before ++ [field]) rest

/-- The tables of the message fields that lie in the block. -/
def nested (table : Table Ref) : List Ref :=
  table.fields.filterMap fun field =>
    match field.kind, field.allocation with
    | .message ref, .inBlock => some ref
    | _, _ => none

/-- The check of a table and, with one level less, of the tables below it. -/
def validateWithin (schema : Schema Ref) : Nat → Ref → Except CodecError Unit
  | 0, ref => .error (.invalidDescriptor (schema ref).name "descriptor nesting too deep")
  | levels + 1, ref => do
    let table := schema ref
    table.checkFields schema [] table.fields
    if maxRequiredFields < table.requiredCount then
      .error (.invalidDescriptor table.name "more than 64 required fields")
    table.nested.forM (validateWithin schema levels)

def validate (schema : Schema Ref) (ref : Ref) : Except CodecError Unit :=
  validateWithin schema (maxValidationDepth + 1) ref

end Table

end BlockCodec
