import BlockCodec.Block.Initial
import BlockCodec.Message.View

/-!
# Writing a message by tags

Updates change the block of a message field by field and keep the flags, counts and active
tags in step. Updates of a message inside another are edits of its part of the block.
-/

namespace BlockCodec.Update

variable {Ref α : Type}

/-- The storage of a text, filled with it and zeros. -/
def storeText (field : Field Ref) (text : String) : Edit Unit := do
  let stored ← get
  let bytes := Bytes.ofText text
  if stored.length ≤ bytes.length then
    throw (.capacityExceeded field.name bytes.length (stored.length - 1))
  set (bytes ++ Bytes.zeros (stored.length - bytes.length))

/-- The storage of a byte string, filled with its length, the bytes and zeros. -/
def storeBytes (field : Field Ref) (bytes : Bytes) : Edit Unit := do
  let stored ← get
  if stored.length < 4 then throw field.noLengthPrefix
  let room := stored.length - 4
  if room < bytes.length then throw (.capacityExceeded field.name bytes.length room)
  set (Bytes.littleEndian 4 bytes.length ++ bytes ++ Bytes.zeros (room - bytes.length))

def storeScalar (field : Field Ref) (value : Scalar) : Edit Unit :=
  modify fun stored => field.kind.storeScalar stored value

/-- Activates a member of a group that is not active, or sets the flag of an optional field. -/
def markPresent (schema : Schema Ref) (table : Table Ref) (field : Field Ref) : Edit Unit := do
  match field.multiplicity with
  | .oneof _ =>
    let active ← Edit.ask field.isActive
    if !active then schema.activate table field
  | .optional => if field.sizeOffset.isSome then Edit.setSlot field 1
  | _ => pure ()

/-- Claims the next element of an array; answers its storage. -/
def append (field : Field Ref) : Edit Span := do
  let count ← Edit.ask field.count
  if field.capacity ≤ count then throw (.arrayFull field.name field.capacity)
  -- counted before it is stored, so a value that does not fit leaves an element behind
  Edit.setSlot field (count + 1)
  pure (field.element count)

/-- The field with a tag, when it passes a check. -/
def lookUp (table : Table Ref) (tag : Nat) (check : Field Ref → Except CodecError α) :
    Edit (Field Ref × α) :=
  Step.ofExcept do
    let field ← table.lookUp tag
    let checked ← check field
    pure (field, checked)

/-- Marks a single field present and stores its value. -/
def store (schema : Schema Ref) (table : Table Ref) (tag : Nat)
    (expect : Field Ref → Except CodecError Unit) (write : Field Ref → Edit Unit) :
    Edit Unit := do
  let (field, _) ← lookUp table tag fun field => do
    field.expectSingle
    expect field
  markPresent schema table field
  Edit.inside field field.data (write field)

def set (schema : Schema Ref) (table : Table Ref) (tag : Nat) (value : Scalar) : Edit Unit :=
  store schema table tag Field.expectScalar (storeScalar · value)

def setText (schema : Schema Ref) (table : Table Ref) (tag : Nat) (text : String) : Edit Unit :=
  store schema table tag Field.expectText (storeText · text)

def setBytes (schema : Schema Ref) (table : Table Ref) (tag : Nat) (bytes : Bytes) : Edit Unit :=
  store schema table tag Field.expectBytes (storeBytes · bytes)

/-- Claims an element of an array and stores its value. -/
def pushValue (table : Table Ref) (tag : Nat) (expect : Field Ref → Except CodecError Unit)
    (write : Field Ref → Edit Unit) : Edit Unit := do
  let (field, _) ← lookUp table tag fun field => do
    field.expectArray
    expect field
  let span ← append field
  Edit.inside field span (write field)

def push (table : Table Ref) (tag : Nat) (value : Scalar) : Edit Unit :=
  pushValue table tag Field.expectScalar (storeScalar · value)

def pushText (table : Table Ref) (tag : Nat) (text : String) : Edit Unit :=
  pushValue table tag Field.expectText (storeText · text)

def pushBytes (table : Table Ref) (tag : Nat) (bytes : Bytes) : Edit Unit :=
  pushValue table tag Field.expectBytes (storeBytes · bytes)

/-- Runs an update of the message in an array element claimed for it. -/
def pushMessage (schema : Schema Ref) (table : Table Ref) (tag : Nat)
    (update : Table Ref → Edit α) : Edit α := do
  let (field, ref) ← lookUp table tag fun field => do
    field.expectArray
    field.expectMessage
  let span ← append field
  Edit.inside field span do
    schema.initialise ref
    update (schema ref)

/-- Runs an update of a message whose block has been found. -/
def nested (schema : Schema Ref) (ref : Ref) (update : Table Ref → Edit α) : Edit α := do
  Edit.ask (schema ref).checkBlock
  update (schema ref)

/-- Runs an update of a single message, which is marked present. -/
def submessage (schema : Schema Ref) (table : Table Ref) (tag : Nat)
    (update : Table Ref → Edit α) : Edit α := do
  let (field, ref) ← lookUp table tag fun field => do
    field.expectSingle
    field.expectMessage
  markPresent schema table field
  Edit.inside field field.data (nested schema ref update)

/-- Runs an update of a message in an array. -/
def element (schema : Schema Ref) (table : Table Ref) (tag index : Nat)
    (update : Table Ref → Edit α) : Edit α := do
  let (field, ref) ← lookUp table tag fun field => do
    field.expectArray
    field.expectMessage
  let span ← Edit.ask (field.elementSpan index)
  Edit.inside field span (nested schema ref update)

/-- Returns every field in the block to its initial state; handled fields stay bound. -/
def init (schema : Schema Ref) (table : Table Ref) : Edit Unit :=
  table.reset schema.initialiseNested

/-- Binds a handled field to a slot; 0 unbinds it. -/
def bind (table : Table Ref) (tag slot : Nat) : Edit Unit := do
  let (field, _) ← lookUp table tag fun field =>
    if field.isHandled then pure () else field.mismatch field.kind.name
  Edit.change field field.data fun stored => writeUnsigned stored (UInt64.ofNat slot)

/-- Returns a field to its initial state: an inactive member of a group stays as it is, and a
handled field is unbound. -/
def clear (schema : Schema Ref) (table : Table Ref) (tag : Nat) : Edit Unit := do
  let (field, _) ← lookUp table tag fun _ => pure ()
  if field.isHandled then bind table tag 0
  else
    let active ← Edit.ask field.isActive
    if active then field.reset schema.initialiseNested

/-- Sets or clears the flag of an optional field, or activates or clears a member of a group. -/
def setPresent (schema : Schema Ref) (table : Table Ref) (tag : Nat) (present : Bool) :
    Edit Unit := do
  let (field, _) ← lookUp table tag fun _ => pure ()
  match field.multiplicity, field.sizeOffset with
  | .optional, some _ => Edit.setSlot field (if present then 1 else 0)
  | .oneof _, _ => if present then markPresent schema table field else clear schema table tag
  | _, _ => Step.ofExcept (field.mismatch "field without a presence flag")

end BlockCodec.Update
