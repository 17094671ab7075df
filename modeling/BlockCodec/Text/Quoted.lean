import BlockCodec.Text.GraphemeExtend
import BlockCodec.Text.Ignorable
import BlockCodec.Text.Unprintable

/-!
# Quoted text

A text between double quotes, in which every character that would not show as itself is written
as an escape.
-/

namespace BlockCodec.Text

/-- A character by its code point in braces. -/
def escapeCode (c : Char) : List Char :=
  ['\\', 'u', '\x7b'] ++ Nat.toDigits 16 c.toNat ++ ['\x7d']

def escape (c : Char) : List Char :=
  match c with
  | '\x00' => ['\\', '0']
  | '\t' => ['\\', 't']
  | '\r' => ['\\', 'r']
  | '\n' => ['\\', 'n']
  | '"' => ['\\', '"']
  | '\\' => ['\\', '\\']
  | c => if isMark c ∨ ignorable.has c ∨ unprintable.has c then escapeCode c else [c]

def quote (text : String) : String :=
  String.ofList ('"' :: (text.toList.flatMap escape ++ ['"']))

end BlockCodec.Text
