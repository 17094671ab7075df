import BlockCodec.Error
import BlockCodec.Schema.Table

/-!
# What a block holds

A message block is read through the descriptors of its fields. Every range is checked against
the block, so a descriptor that does not fit is reported when it is used.
-/

namespace BlockCodec

variable {Ref : Type}

/-- The unsigned number in up to eight bytes. -/
def readUnsigned (bytes : Bytes) : UInt64 :=
  UInt64.ofNat (Bytes.ofLittleEndian (bytes.take 8))

/-- The signed number in up to eight bytes; its last byte holds the sign. -/
def readSigned (bytes : Bytes) : Int64 :=
  let stored := bytes.take 8
  Int64.ofInt (Int.bmod (Bytes.ofLittleEndian stored) (1 <<< (8 * stored.length)))

/-- The bytes with a number in the first eight of them, or in all if there are fewer. -/
def writeUnsigned (bytes : Bytes) (value : UInt64) : Bytes :=
  Bytes.littleEndian (min 8 bytes.length) value.toNat ++ bytes.drop 8

namespace Width

def truncateUnsigned (width : Width) (value : UInt64) : UInt64 :=
  UInt64.ofNat (value.toNat % 1 <<< (8 * width.bytes))

def truncateSigned (width : Width) (value : Int64) : Int64 :=
  Int64.ofInt (Int.bmod value.toInt (1 <<< (8 * width.bytes)))

end Width

namespace Kind

/-- The number that storage of a scalar kind holds. -/
def loadScalar (kind : Kind Ref) (stored : Bytes) : Scalar :=
  match kind with
  | .bool => .bool (!Bytes.isZero stored)
  | .varint ⟨_, true⟩ | .fixed ⟨_, true⟩ | .zigZag _ | .enumeration => .signed (readSigned stored)
  | .varint ⟨_, false⟩ | .fixed ⟨_, false⟩ => .unsigned (readUnsigned stored)
  | .float .w64 => .double (readUnsigned stored)
  | .float _ => .single (readUnsigned stored).toUInt32
  | .text | .bytes | .message _ => .unsigned 0

/-- The storage with a number laid over it, cut to the storage. -/
def storeScalar (kind : Kind Ref) (stored : Bytes) (value : Scalar) : Bytes :=
  match kind with
  | .bool => writeUnsigned stored (if value.asBool then 1 else 0)
  | .float .w64 => writeUnsigned stored value.asDouble
  | .float _ => writeUnsigned stored value.asSingle.toUInt64
  | _ => writeUnsigned stored value.asUInt64

end Kind

namespace Table

/-- A block must be at least as long as its table says. -/
def checkBlock (table : Table Ref) (block : Bytes) : Except CodecError Unit :=
  if block.length < table.size then
    .error (.invalidDescriptor table.name "message block smaller than descriptor size")
  else .ok ()

end Table

namespace Field

def outside (field : Field Ref) : CodecError :=
  .invalidDescriptor field.name "storage outside message block"

/-- The bytes of a span of the block. -/
def load (field : Field Ref) (span : Span) (block : Bytes) : Except CodecError Bytes :=
  match Bytes.slice? block span with
  | some stored => .ok stored
  | none => .error field.outside

def sizeSlot (field : Field Ref) : Except CodecError Span :=
  match field.sizeSlot? with
  | some span => .ok span
  | none => .error (.invalidDescriptor field.name "field has no size offset")

/-- The flag, the count or the active tag. -/
def slot (field : Field Ref) (block : Bytes) : Except CodecError Nat := do
  let span ← field.sizeSlot
  let stored ← field.load span block
  pure (readUnsigned stored).toNat

/-- The handler slot of a handled field; 0 means unbound. -/
def handlerSlot (field : Field Ref) (block : Bytes) : Except CodecError Nat := do
  let stored ← field.load field.data block
  pure (readUnsigned stored).toNat

/-- The failure of text storage without a terminator. -/
def unterminated (field : Field Ref) (stored : Bytes) : CodecError :=
  .capacityExceeded field.name stored.length (stored.length - 1)

/-- The bytes of stored text up to its terminator. -/
def textBytes (field : Field Ref) (stored : Bytes) : Except CodecError Bytes :=
  if 0 ∈ stored then .ok (stored.takeWhile (· != 0)) else .error (field.unterminated stored)

def text (field : Field Ref) (stored : Bytes) : Except CodecError String := do
  let bytes ← field.textBytes stored
  match Bytes.text? bytes with
  | some text => pure text
  | none => throw (.invalidUtf8 field.name)

def noLengthPrefix (field : Field Ref) : CodecError :=
  .invalidDescriptor field.name "bytes storage needs a length prefix"

/-- The part of bytes storage that its length says is in use. -/
def payload (field : Field Ref) (stored : Bytes) : Except CodecError Bytes :=
  if stored.length < 4 then .error field.noLengthPrefix
  else
    let length := Bytes.ofLittleEndian (stored.take 4)
    let room := stored.drop 4
    if room.length < length then .error (.capacityExceeded field.name length room.length)
    else .ok (room.take length)

/-- The field is anything but an inactive member of a group. -/
def isActive (field : Field Ref) (block : Bytes) : Except CodecError Bool :=
  match field.multiplicity with
  | .oneof _ => do
    let active ← field.slot block
    pure (active == field.tag)
  | _ => .ok true

/-- A field without a flag is present when its storage says something. -/
def isNonzero (field : Field Ref) (stored : Bytes) : Except CodecError Bool :=
  match field.kind with
  | .bytes => do
    let payload ← field.payload stored
    pure (!payload.isEmpty)
  | .text => .ok ((stored.headD 0) != 0)
  | _ => .ok (!Bytes.isZero stored)

/-- A field in the block would be encoded. -/
def isPresent (field : Field Ref) (block : Bytes) : Except CodecError Bool :=
  match field.multiplicity with
  | .required => .ok true
  | .repeated => do
    let count ← field.slot block
    pure (decide (0 < count))
  | .oneof _ => field.isActive block
  | .optional =>
    if field.sizeOffset.isSome then do
      let flag ← field.slot block
      pure (flag != 0)
    else do
      let stored ← field.load field.data block
      field.isNonzero stored

end Field

end BlockCodec
