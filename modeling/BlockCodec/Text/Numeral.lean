/-!
# Decimal numerals

Numerals are ASCII digits behind an optional sign, and must fit in 64 bits.
-/

namespace BlockCodec.Text

def digits? (numeral : List Char) : Option Nat :=
  if numeral.isEmpty then none
  else
    numeral.foldlM (fun number c =>
      if c.isDigit then some (number * 10 + (c.toNat - '0'.toNat)) else none) 0

/-- A plus sign is allowed, a minus sign is not. -/
def unsigned? (text : String) : Option UInt64 := do
  let number ← match text.toList with
    | '+' :: numeral => digits? numeral
    | numeral => digits? numeral
  if number < 0x10000000000000000 then pure (UInt64.ofNat number) else none

def signed? (text : String) : Option Int64 := do
  let number : Int ← match text.toList with
    | '-' :: numeral => (digits? numeral).map fun number => -(number : Int)
    | '+' :: numeral => (digits? numeral).map Int.ofNat
    | numeral => (digits? numeral).map Int.ofNat
  if -0x8000000000000000 ≤ number ∧ number < 0x8000000000000000 then pure (Int64.ofInt number) else none

end BlockCodec.Text
