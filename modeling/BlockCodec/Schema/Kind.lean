import BlockCodec.Wire.Type

/-!
# Kinds of values

A kind says how a value is written on the wire and how it is stored. Messages refer to the
table that describes them, so kinds are parametrised by what a reference is.
-/

namespace BlockCodec

/-- Storage width of a number. -/
inductive Width
  | w8
  | w16
  | w32
  | w64
deriving Repr, DecidableEq

def Width.bytes : Width → Nat
  | .w8 => 1
  | .w16 => 2
  | .w32 => 4
  | .w64 => 8

structure IntType where
  width : Width
  signed : Bool
deriving Repr, DecidableEq

inductive Kind (Ref : Type)
  | bool
  /-- A plain number; negative ones are sign-extended to 64 bits on the wire. -/
  | varint (type : IntType)
  /-- A signed number through the zig-zag map. -/
  | zigZag (width : Width)
  /-- A signed 32-bit number. -/
  | enumeration
  | fixed (type : IntType)
  | float (width : Width)
  /-- Text that ends with a zero byte. -/
  | text
  /-- Four bytes of length, then the capacity. -/
  | bytes
  | message (table : Ref)
deriving Repr, DecidableEq

namespace Kind

variable {Ref : Type}

def wireType : Kind Ref → WireType
  | .bool | .varint _ | .zigZag _ | .enumeration => .varint
  | .fixed ⟨.w64, _⟩ | .float .w64 => .fixed64
  | .fixed _ | .float _ => .fixed32
  | .text | .bytes | .message _ => .delimited

/-- Values of this kind are single numbers; only these can be packed. -/
def isScalar : Kind Ref → Bool
  | .text | .bytes | .message _ => false
  | _ => true

/-- Storage bytes of one number. -/
def scalarWidth? : Kind Ref → Option Nat
  | .bool => some 1
  | .varint type | .fixed type => some type.width.bytes
  | .zigZag width | .float width => some width.bytes
  | .enumeration => some 4
  | .text | .bytes | .message _ => none

/-- Wire bytes of one value, when they never vary. -/
def wireLength? (kind : Kind Ref) : Option Nat := kind.wireType.fixedLength?

def name : Kind Ref → String
  | .bool => "bool"
  | .varint ⟨.w8, true⟩ => "int8"
  | .varint ⟨.w16, true⟩ => "int16"
  | .varint ⟨.w32, true⟩ => "int32"
  | .varint ⟨.w64, true⟩ => "int64"
  | .varint ⟨.w8, false⟩ => "uint8"
  | .varint ⟨.w16, false⟩ => "uint16"
  | .varint ⟨.w32, false⟩ => "uint32"
  | .varint ⟨.w64, false⟩ => "uint64"
  | .zigZag .w64 => "sint64"
  | .zigZag _ => "sint32"
  | .enumeration => "enum"
  | .fixed ⟨.w64, true⟩ => "sfixed64"
  | .fixed ⟨_, true⟩ => "sfixed32"
  | .fixed ⟨.w64, false⟩ => "fixed64"
  | .fixed ⟨_, false⟩ => "fixed32"
  | .float .w64 => "double"
  | .float _ => "float"
  | .text => "string"
  | .bytes => "bytes"
  | .message _ => "message"

end Kind

end BlockCodec
