/-!
# Binary floating point by its bits

A format is given by the widths of its two fields. Every finite value is a whole number of
units, the unit being the smallest positive value of the format, so conversions are exact
arithmetic on natural numbers followed by one rounding to the nearest value, ties to even.
-/

namespace BlockCodec.Binary

structure Format where
  fractionBits : Nat
  exponentBits : Nat
deriving Repr, DecidableEq

def single : Format := ⟨23, 8⟩

def double : Format := ⟨52, 11⟩

/-- What a bit pattern stands for; `units` counts smallest positive values. -/
inductive Value
  | nan
  | infinite (negative : Bool)
  | finite (negative : Bool) (units : Nat)
deriving Repr, DecidableEq

namespace Format

/-- The number one is two to this power, in units. -/
def onePlace (format : Format) : Nat := 1 <<< (format.exponentBits - 1) - 2 + format.fractionBits

def signPlace (format : Format) : Nat := format.fractionBits + format.exponentBits

/-- The pattern of infinity without its sign: an exponent of ones, a fraction of zeros. -/
def infinityBits (format : Format) : Nat :=
  (1 <<< format.exponentBits - 1) <<< format.fractionBits

/-- A pattern that is not a number, with the leading bit of the fraction set. -/
def nanBits (format : Format) : Nat := format.infinityBits + 1 <<< (format.fractionBits - 1)

def decode (format : Format) (bits : Nat) : Value :=
  let negative := bits >>> format.signPlace % 2 == 1
  let exponent := bits >>> format.fractionBits % 1 <<< format.exponentBits
  let fraction := bits % 1 <<< format.fractionBits
  if exponent + 1 = 1 <<< format.exponentBits then
    if fraction = 0 then .infinite negative else .nan
  else if exponent = 0 then .finite negative fraction
  else .finite negative ((1 <<< format.fractionBits + fraction) <<< (exponent - 1))

end Format

/-- A quotient by a power of two, rounded to the nearest whole number, ties to even. -/
def roundShift (number places : Nat) : Nat :=
  let floor := number >>> places
  let rest := number % 1 <<< places
  if 2 * rest < 1 <<< places then floor
  else if 1 <<< places < 2 * rest then floor + 1
  else if places = 0 then floor
  else floor + floor % 2

namespace Format

def signBits (format : Format) (negative : Bool) : Nat :=
  if negative then 1 <<< format.signPlace else 0

/-- The pattern nearest to `number` units divided by two to the power `places`; what is too
large becomes infinite. The significand keeps one bit more than the fraction field. -/
def nearest (format : Format) (number places : Nat) : Nat :=
  -- zero for a number with too few bits to fill a significand, which is subnormal
  let shift := number.log2 - (places + format.fractionBits)
  min (shift <<< format.fractionBits + roundShift number (places + shift)) format.infinityBits

def ofInt (format : Format) (value : Int) : Nat :=
  format.signBits (decide (value < 0)) +
    format.nearest (value.natAbs <<< format.onePlace) 0

/-- The whole part of a finite value: its fraction is dropped. -/
def truncate (format : Format) (negative : Bool) (units : Nat) : Int :=
  let whole : Int := (units >>> format.onePlace : Nat)
  if negative then -whole else whole

/-- The pattern in this format nearest to a value of another format. -/
def convert (format source : Format) : Value → Nat
  | .nan => format.nanBits
  | .infinite negative => format.signBits negative + format.infinityBits
  | .finite negative units =>
    format.signBits negative +
      format.nearest (units <<< (format.onePlace - source.onePlace))
        (source.onePlace - format.onePlace)

end Format

/-- The whole part of a value, held within the range of 64-bit signed numbers. -/
def toInt64 (format : Format) : Value → Int
  | .nan => 0
  | .infinite negative => if negative then -0x8000000000000000 else 0x7fffffffffffffff
  | .finite negative units =>
    max (-0x8000000000000000) (min 0x7fffffffffffffff (format.truncate negative units))

def Value.isZero : Value → Bool
  | .finite _ units => units == 0
  | _ => false

end BlockCodec.Binary
