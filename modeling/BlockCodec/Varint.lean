import BlockCodec.Bytes

/-!
# Base-128 numbers

A 64-bit number travels in groups of seven bits, least significant group first; every byte but
the last has its high bit set. Ten bytes hold 64 bits, so the tenth may only be 0 or 1. Signed
numbers that are small in size go through the zig-zag map first.
-/

namespace BlockCodec

namespace Varint

/-- Ten groups of seven bits hold any 64-bit number. -/
def maxLength : Nat := 10

/-- Bytes of the shortest form: one for every started group of seven bits. -/
def length (value : UInt64) : Nat := value.toNat.log2 / 7 + 1

/-- A number as the given count of groups, the last one without the continuation bit. -/
def groups : Nat → Nat → Bytes
  | 0, _ => []
  | 1, number => [UInt8.ofNat (number % 128)]
  | count + 2, number => UInt8.ofNat (number % 128 + 128) :: groups (count + 1) (number / 128)

def encode (value : UInt64) : Bytes := groups (length value) value.toNat

/-- What the front of a byte string says as a number. -/
inductive Front
  | complete (value : UInt64) (length : Nat)
  | unfinished
  | malformed
deriving Repr, DecidableEq

/-- Reads from place `place` on; `sum` is the value of the groups before it. -/
def readFrom (place sum : Nat) : Bytes → Front
  | [] => .unfinished
  | byte :: rest =>
    if place + 1 = maxLength ∧ 1 < byte then .malformed
    else
      let sum := sum + (byte.toNat % 128) <<< (7 * place)
      if byte < 128 then .complete (UInt64.ofNat sum) (place + 1) else readFrom (place + 1) sum rest

/-- The number at the front of a byte string and the bytes it takes. -/
def read (bytes : Bytes) : Front := readFrom 0 0 bytes

theorem length_groups (count number : Nat) : (groups count number).length = count := by
  fun_induction groups count number <;> simp_all

theorem length_encode (value : UInt64) : (encode value).length = length value :=
  length_groups _ _

end Varint

namespace ZigZag

/-- Numbers 0, -1, 1, -2, 2 become 0, 1, 2, 3, 4. -/
def ofInt (value : Int) : Nat :=
  if 0 ≤ value then (2 * value).toNat else (-2 * value - 1).toNat

def toInt (code : Nat) : Int :=
  if code % 2 = 0 then (code / 2 : Nat) else -((code / 2 : Nat) : Int) - 1

def encode (value : Int64) : UInt64 := UInt64.ofNat (ofInt value.toInt)

def decode (code : UInt64) : Int64 := Int64.ofInt (toInt code.toNat)

def encode32 (value : Int32) : UInt32 := UInt32.ofNat (ofInt value.toInt)

def decode32 (code : UInt32) : Int32 := Int32.ofInt (toInt code.toNat)

theorem toInt_ofInt (value : Int) : toInt (ofInt value) = value := by
  unfold toInt ofInt
  split <;> split <;> omega

theorem ofInt_toInt (code : Nat) : ofInt (toInt code) = code := by
  unfold toInt ofInt
  split <;> split <;> omega

end ZigZag

end BlockCodec
