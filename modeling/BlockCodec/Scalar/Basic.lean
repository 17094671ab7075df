import BlockCodec.Scalar.Binary

/-!
# Scalars

A single number of any kind, widened to 64 bits. Floating point numbers are kept as their bit
patterns, so that reading and storing one at its own width loses nothing.
-/

namespace BlockCodec

inductive Scalar
  | bool (value : Bool)
  | unsigned (value : UInt64)
  | signed (value : Int64)
  | single (bits : UInt32)
  | double (bits : UInt64)
deriving Repr, DecidableEq

namespace Scalar

def ofNat32 (value : UInt32) : Scalar := .unsigned value.toUInt64

def ofInt32 (value : Int32) : Scalar := .signed value.toInt64

def singleValue (bits : UInt32) : Binary.Value := Binary.single.decode bits.toNat

def doubleValue (bits : UInt64) : Binary.Value := Binary.double.decode bits.toNat

def asBool : Scalar → Bool
  | .bool value => value
  | .unsigned value => value != 0
  | .signed value => value != 0
  | .single bits => !(singleValue bits).isZero
  | .double bits => !(doubleValue bits).isZero

/-- Fractions are dropped, and what is out of range is held at its end. -/
def asInt64 : Scalar → Int64
  | .bool value => if value then 1 else 0
  | .unsigned value => value.toInt64
  | .signed value => value
  | .single bits => Int64.ofInt (Binary.toInt64 Binary.single (singleValue bits))
  | .double bits => Int64.ofInt (Binary.toInt64 Binary.double (doubleValue bits))

/-- The bits of the signed reading, except that unsigned numbers stay what they are. -/
def asUInt64 : Scalar → UInt64
  | .unsigned value => value
  | scalar => scalar.asInt64.toUInt64

def asDouble : Scalar → UInt64
  | .bool value => UInt64.ofNat (Binary.double.ofInt (if value then 1 else 0))
  | .unsigned value => UInt64.ofNat (Binary.double.ofInt value.toNat)
  | .signed value => UInt64.ofNat (Binary.double.ofInt value.toInt)
  | .single bits => UInt64.ofNat (Binary.double.convert Binary.single (singleValue bits))
  | .double bits => bits

def narrow (bits : UInt64) : UInt32 :=
  UInt32.ofNat (Binary.single.convert Binary.double (doubleValue bits))

/-- Whole numbers get here by way of double precision, so they are rounded twice. -/
def asSingle : Scalar → UInt32
  | .single bits => bits
  | scalar => narrow scalar.asDouble

end Scalar

end BlockCodec
