import BlockCodec.Bytes

/-!
# Hexadecimal text

Two digits for a byte, high half first. Digits are written in lower case and read in both.
-/

namespace BlockCodec.Text.Hex

def digit (value : Nat) : Char :=
  if value < 10 then Char.ofNat ('0'.toNat + value) else Char.ofNat ('a'.toNat + (value - 10))

def value? (c : Char) : Option Nat :=
  if '0' ≤ c ∧ c ≤ '9' then some (c.toNat - '0'.toNat)
  else if 'a' ≤ c ∧ c ≤ 'f' then some (c.toNat - 'a'.toNat + 10)
  else if 'A' ≤ c ∧ c ≤ 'F' then some (c.toNat - 'A'.toNat + 10)
  else none

def digits (byte : UInt8) : List Char := [digit (byte.toNat / 16), digit (byte.toNat % 16)]

def encode (bytes : Bytes) : String := String.ofList (bytes.flatMap digits)

/-- The byte of two digits. -/
def byte? (high low : Char) : Option UInt8 := do
  let high ← value? high
  let low ← value? low
  pure (UInt8.ofNat (high * 16 + low))

/-- The number that a run of digits stands for. -/
def number? (digits : List Char) : Option Nat :=
  digits.foldlM (fun number c => do
    let digit ← value? c
    pure (number * 16 + digit)) 0

/-- The bytes of a whole number of digit pairs. -/
def decode? : List Char → Option Bytes
  | [] => some []
  | [_] => none
  | high :: low :: rest => do
    let byte ← byte? high low
    let bytes ← decode? rest
    pure (byte :: bytes)

/-- A number of `width` bytes with all its digits. -/
def fixed (width number : Nat) : String := encode (Bytes.littleEndian width number).reverse

theorem value?_digit (value : Nat) (h : value < 16) : value? (digit value) = some value := by
  have : ∀ value : Fin 16, value? (digit value) = some value.val := by decide
  exact this ⟨value, h⟩

theorem decode?_digits (bytes : Bytes) : decode? (bytes.flatMap digits) = some bytes := by
  induction bytes with
  | nil => rfl
  | cons byte rest ih =>
    have hb := byte.toNat_lt
    have hhigh := value?_digit (byte.toNat / 16) (by omega)
    have hlow := value?_digit (byte.toNat % 16) (by omega)
    have hbyte : byte.toNat / 16 * 16 + byte.toNat % 16 = byte.toNat := by omega
    simp [digits, decode?, byte?, hhigh, hlow, ih, hbyte, -UInt8.ofNat_add, -UInt8.ofNat_mul]

end BlockCodec.Text.Hex
