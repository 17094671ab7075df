/-!
# Wire types

The low three bits of every field header say how the payload is encoded. The two group markers
are recognised, but the length of what they stand for cannot be told.
-/

namespace BlockCodec

inductive WireType
  | varint
  | fixed64
  | delimited
  | startGroup
  | endGroup
  | fixed32
deriving Repr, DecidableEq

namespace WireType

def bits : WireType → Nat
  | .varint => 0
  | .fixed64 => 1
  | .delimited => 2
  | .startGroup => 3
  | .endGroup => 4
  | .fixed32 => 5

def ofBits? : Nat → Option WireType
  | 0 => some .varint
  | 1 => some .fixed64
  | 2 => some .delimited
  | 3 => some .startGroup
  | 4 => some .endGroup
  | 5 => some .fixed32
  | _ => none

/-- Payload bytes of the types whose width never varies. -/
def fixedLength? : WireType → Option Nat
  | .fixed32 => some 4
  | .fixed64 => some 8
  | _ => none

/-- A packed array may carry elements of this type. -/
def isPackable : WireType → Bool
  | .varint | .fixed32 | .fixed64 => true
  | _ => false

def name : WireType → String
  | .varint => "VARINT"
  | .fixed64 => "I64"
  | .delimited => "LEN"
  | .startGroup => "SGROUP"
  | .endGroup => "EGROUP"
  | .fixed32 => "I32"

theorem ofBits?_eq_some_iff {number : Nat} {type : WireType} :
    ofBits? number = some type ↔ type.bits = number := by
  constructor
  · intro h
    unfold ofBits? at h
    split at h <;> cases h <;> rfl
  · rintro rfl
    cases type <;> rfl

end WireType

end BlockCodec
