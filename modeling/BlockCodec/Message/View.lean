import BlockCodec.Block.Edit

/-!
# Reading a message by tags

A view reads the block of a message field by field. What a view is asked for must suit the
field: an accessor that does not apply is refused by name.
-/

namespace BlockCodec

variable {Ref : Type}

namespace Field

def mismatch {α : Type} (field : Field Ref) (kind : String) : Except CodecError α :=
  .error (.kindMismatch field.name kind)

/-- The field holds one value in the block. -/
def expectSingle (field : Field Ref) : Except CodecError Unit :=
  if field.isHandled then field.mismatch "callback"
  else if field.isRepeated then field.mismatch "repeated"
  else .ok ()

/-- The field is an array in the block. -/
def expectArray (field : Field Ref) : Except CodecError Unit :=
  if field.isHandled then field.mismatch "callback"
  else if field.isRepeated then .ok ()
  else field.mismatch field.kind.name

def expectScalar (field : Field Ref) : Except CodecError Unit :=
  if field.kind.isScalar then .ok () else field.mismatch field.kind.name

def expectText (field : Field Ref) : Except CodecError Unit :=
  match field.kind with
  | .text => .ok ()
  | kind => field.mismatch kind.name

def expectBytes (field : Field Ref) : Except CodecError Unit :=
  match field.kind with
  | .bytes => .ok ()
  | kind => field.mismatch kind.name

def expectMessage (field : Field Ref) : Except CodecError Ref :=
  match field.kind with
  | .message ref => .ok ref
  | kind => field.mismatch kind.name

/-- Elements in use of an array; never more than its capacity. -/
def count (field : Field Ref) (block : Bytes) : Except CodecError Nat := do
  let count ← field.slot block
  if field.capacity < count then throw (.arrayFull field.name field.capacity)
  pure count

/-- Storage of an element in use. -/
def elementSpan (field : Field Ref) (index : Nat) (block : Bytes) : Except CodecError Span := do
  let count ← field.count block
  if count ≤ index then throw (.indexOutOfRange field.name index count)
  pure (field.element index)

end Field

namespace Table

def lookUp (table : Table Ref) (tag : Nat) : Except CodecError (Field Ref) :=
  match table.entryOf? tag with
  | some entry => .ok entry.field
  | none => .error (.noSuchField table.name tag)

end Table

structure View (Ref : Type) where
  table : Table Ref
  block : Bytes
deriving Repr, DecidableEq

namespace View

def ofBlock (table : Table Ref) (block : Bytes) : Except CodecError (View Ref) := do
  table.checkBlock block
  pure ⟨table, block⟩

/-- The field would be encoded; for a handled field, its slot is bound. -/
def has (view : View Ref) (tag : Nat) : Except CodecError Bool := do
  let field ← view.table.lookUp tag
  if field.isHandled then
    let slot ← field.handlerSlot view.block
    pure (slot != 0)
  else field.isPresent view.block

/-- A single number; an inactive member of a group reads as zero. -/
def get (view : View Ref) (tag : Nat) : Except CodecError Scalar := do
  let field ← view.table.lookUp tag
  field.expectSingle
  field.expectScalar
  if ← field.isActive view.block then
    let stored ← field.load field.data view.block
    pure (field.kind.loadScalar stored)
  else pure (field.kind.loadScalar (Bytes.zeros 8))

def getText (view : View Ref) (tag : Nat) : Except CodecError String := do
  let field ← view.table.lookUp tag
  field.expectSingle
  field.expectText
  if ← field.isActive view.block then
    let stored ← field.load field.data view.block
    field.text stored
  else pure ""

def getBytes (view : View Ref) (tag : Nat) : Except CodecError Bytes := do
  let field ← view.table.lookUp tag
  field.expectSingle
  field.expectBytes
  if ← field.isActive view.block then
    let stored ← field.load field.data view.block
    field.payload stored
  else pure []

/-- Elements in use of an array; 0 or 1 for other fields. -/
def count (view : View Ref) (tag : Nat) : Except CodecError Nat := do
  let field ← view.table.lookUp tag
  if field.isRepeated ∧ ¬field.isHandled then field.count view.block
  else
    let present ← view.has tag
    pure (if present then 1 else 0)

def getAt (view : View Ref) (tag index : Nat) : Except CodecError Scalar := do
  let field ← view.table.lookUp tag
  field.expectArray
  field.expectScalar
  let span ← field.elementSpan index view.block
  let stored ← field.load span view.block
  pure (field.kind.loadScalar stored)

def getTextAt (view : View Ref) (tag index : Nat) : Except CodecError String := do
  let field ← view.table.lookUp tag
  field.expectArray
  field.expectText
  let span ← field.elementSpan index view.block
  let stored ← field.load span view.block
  field.text stored

def getBytesAt (view : View Ref) (tag index : Nat) : Except CodecError Bytes := do
  let field ← view.table.lookUp tag
  field.expectArray
  field.expectBytes
  let span ← field.elementSpan index view.block
  let stored ← field.load span view.block
  field.payload stored

/-- View of a single message. -/
def submessage (schema : Schema Ref) (view : View Ref) (tag : Nat) :
    Except CodecError (View Ref) := do
  let field ← view.table.lookUp tag
  field.expectSingle
  let ref ← field.expectMessage
  let stored ← field.load field.data view.block
  ofBlock (schema ref) stored

/-- View of a message in an array. -/
def element (schema : Schema Ref) (view : View Ref) (tag index : Nat) :
    Except CodecError (View Ref) := do
  let field ← view.table.lookUp tag
  field.expectArray
  let ref ← field.expectMessage
  let span ← field.elementSpan index view.block
  let stored ← field.load span view.block
  ofBlock (schema ref) stored

/-- Tag of the active member of a group, if any. -/
def which (view : View Ref) (group : Nat) : Except CodecError (Option Nat) :=
  match view.table.members group with
  | [] => .error (.noSuchField view.table.name group)
  | member :: _ => do
    let field ← view.table.lookUp member.tag
    let active ← field.slot view.block
    pure (if active = 0 then none else some active)

end View

end BlockCodec
