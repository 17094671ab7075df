import BlockCodec.Scalar.Binary

/-!
# Shortest decimals

A finite value is written with the fewest digits that still round to it and to no other value
of its format. The decimals with a given last place form a grid; the coarsest grid that has a
point close enough holds the answer, which is the nearer of the two points around the value.
Digits are written out in full, without an exponent.
-/

namespace BlockCodec.Binary

/-- The number `digits` times ten to the power `place`. -/
structure Decimal where
  digits : Nat
  place : Int
deriving Repr, DecidableEq

/-- The numbers that round to a value, in quarters of a unit: those from `below` under it to
`above` over it, the ends included when `closed`. -/
structure Neighbourhood where
  centre : Nat
  below : Nat
  above : Nat
  closed : Bool
deriving Repr, DecidableEq

namespace Format

/-- Values below a power of two lie twice as close as those above; ties go to the value with an
even significand. -/
def neighbourhood (format : Format) (units : Nat) : Neighbourhood :=
  let shift := units.log2 - format.fractionBits
  let significand := units >>> shift
  let gap := 1 <<< shift
  { centre := 4 * units
    below := if significand = 1 <<< format.fractionBits ∧ 0 < shift then gap else 2 * gap
    above := 2 * gap
    closed := significand % 2 == 0 }

/-- The number one, in quarters of a unit. -/
def oneQuarters (format : Format) : Nat := 1 <<< (format.onePlace + 2)

end Format

namespace Neighbourhood

/-- Whether the ends count decides the last case. -/
def reaches (region : Neighbourhood) (distance reach : Nat) : Bool :=
  if region.closed then distance ≤ reach else distance < reach

/-- The point nearest to the centre among the multiples of a step, if it lies in the region; all
lengths are multiplied by `scale`. Of two points equally near it is the upper one. -/
def nearestMultiple? (region : Neighbourhood) (scale step : Nat) : Option Nat :=
  let centre := region.centre * scale
  let lower := centre / step
  let down := centre - lower * step
  let up := (lower + 1) * step - centre
  let lower? := if region.reaches down (region.below * scale) then some lower else none
  let upper? := if region.reaches up (region.above * scale) then some (lower + 1) else none
  match lower?, upper? with
  | some lower, some upper => some (if down < up then lower else upper)
  | some lower, none => some lower
  | none, upper? => upper?

/-- The answer on the grid with the given last place, if that grid has one. -/
def onGrid? (region : Neighbourhood) (one : Nat) (place : Int) : Option Decimal :=
  let digits? :=
    if 0 ≤ place then region.nearestMultiple? 1 (one * Nat.pow 10 place.toNat)
    else region.nearestMultiple? (Nat.pow 10 (-place).toNat) one
  digits?.map fun digits => ⟨digits, place⟩

/-- The first grid with an answer, from `place` down. -/
def coarsest? (region : Neighbourhood) (one : Nat) : Nat → Int → Option Decimal
  | 0, _ => none
  | grids + 1, place =>
    match region.onGrid? one place with
    | some decimal => some decimal
    | none => coarsest? region one grids (place - 1)

end Neighbourhood

namespace Format

/-- Places of the grids tried: no value of a format has more digits on either side. -/
def places (format : Format) : Nat := format.onePlace + 2

/-- The shortest decimal of a positive value. -/
def shortest (format : Format) (units : Nat) : Decimal :=
  ((format.neighbourhood units).coarsest? format.oneQuarters (2 * format.places + 1)
    format.places).getD ⟨0, 0⟩

end Format

/-- All digits of a decimal, with a point only when there is a fraction. -/
def Decimal.render (decimal : Decimal) : String :=
  if 0 ≤ decimal.place then toString (decimal.digits * Nat.pow 10 decimal.place.toNat)
  else
    let fraction := (-decimal.place).toNat
    let whole := decimal.digits / Nat.pow 10 fraction
    let rest := Nat.toDigits 10 (decimal.digits % Nat.pow 10 fraction)
    toString whole ++ "." ++ String.ofList (List.replicate (fraction - rest.length) '0' ++ rest)

/-- The text of a value. -/
def Value.render (format : Format) : Value → String
  | .nan => "NaN"
  | .infinite negative => if negative then "-inf" else "inf"
  | .finite negative units =>
    (if negative then "-" else "") ++
      if units = 0 then "0" else (format.shortest units).render

end BlockCodec.Binary
