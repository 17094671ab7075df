import BlockCodec.Bytes
import BlockCodec.Scalar.Basic
import BlockCodec.Schema.Kind

/-!
# Fields

A field descriptor says how one field travels, how many values it holds and where they lie in
a message block. A descriptor starts out as a required field in the block and is refined by
the builders.
-/

namespace BlockCodec

/-- How many values a field holds, and what the bytes at its size offset mean. -/
inductive Multiplicity
  | required
  /-- With a flag of one byte, or present when its storage is not zero. -/
  | optional
  /-- With an element count of four bytes. -/
  | repeated
  /-- Member of a group, whose active tag is in four bytes shared by all members. -/
  | oneof (group : Nat)
deriving Repr, DecidableEq

/-- Where the values of a field live. -/
inductive Allocation
  | inBlock
  /-- With a handler; the block holds its slot in two bytes, and 0 means unbound. -/
  | handler
deriving Repr, DecidableEq

/-- The value a field has when a message is initialised. -/
inductive Default
  | scalar (value : Scalar)
  | text (value : String)
  | bytes (value : Bytes)
deriving Repr, DecidableEq

structure Field (Ref : Type) where
  name : String
  tag : Nat
  kind : Kind Ref
  multiplicity : Multiplicity
  allocation : Allocation
  /-- Where the value, or the first element, begins. -/
  dataOffset : Nat
  /-- Storage bytes of each value. -/
  dataSize : Nat
  /-- Where the flag, the count or the active tag is. -/
  sizeOffset : Option Nat
  /-- The most elements an array in the block can hold. -/
  capacity : Nat
  packed : Bool
  default? : Option Default
deriving Repr, DecidableEq

namespace Field

variable {Ref : Type}

/-- A required field in the block. -/
def ofStorage (tag : Nat) (name : String) (kind : Kind Ref) (dataOffset dataSize : Nat) :
    Field Ref :=
  { name, tag, kind, dataOffset, dataSize
    multiplicity := .required
    allocation := .inBlock
    sizeOffset := none
    capacity := 0
    packed := false
    default? := none }

def optional (field : Field Ref) (flagOffset : Nat) : Field Ref :=
  { field with multiplicity := .optional, sizeOffset := some flagOffset }

/-- Optional without a flag. -/
def implicit (field : Field Ref) : Field Ref :=
  { field with multiplicity := .optional, sizeOffset := none }

def repeated (field : Field Ref) (countOffset capacity : Nat) : Field Ref :=
  { field with multiplicity := .repeated, sizeOffset := some countOffset, capacity }

def inPacks (field : Field Ref) : Field Ref := { field with packed := true }

def oneof (field : Field Ref) (group whichOffset : Nat) : Field Ref :=
  { field with multiplicity := .oneof group, sizeOffset := some whichOffset }

/-- Routes the values through a handler; the storage becomes its slot. -/
def handled (field : Field Ref) : Field Ref :=
  { field with allocation := .handler, dataSize := 2 }

def withDefault (field : Field Ref) (value : Default) : Field Ref :=
  { field with default? := some value }

def isRequired (field : Field Ref) : Bool := field.multiplicity == .required

def isRepeated (field : Field Ref) : Bool := field.multiplicity == .repeated

def isHandled (field : Field Ref) : Bool := field.allocation == .handler

def group? (field : Field Ref) : Option Nat :=
  match field.multiplicity with
  | .oneof group => some group
  | _ => none

/-- A value that arrives with this wire type can be decoded into the field. -/
def accepts (field : Field Ref) (type : WireType) : Bool :=
  type == field.kind.wireType ||
    (type == .delimited && field.kind.isScalar && (field.isRepeated || field.isHandled))

/-- Storage of a single value, or of the first element. -/
def data (field : Field Ref) : Span := .ofLength field.dataOffset field.dataSize

def element (field : Field Ref) (index : Nat) : Span :=
  .ofLength (clampSize (field.dataOffset + clampSize (index * field.dataSize))) field.dataSize

/-- Storage of all elements. -/
def array (field : Field Ref) : Span :=
  .ofLength field.dataOffset (clampSize (field.dataSize * field.capacity))

/-- The flag, the count or the active tag. -/
def sizeSlot? (field : Field Ref) : Option Span :=
  field.sizeOffset.map fun offset =>
    .ofLength offset (if field.multiplicity = .optional then 1 else 4)

end Field

end BlockCodec
