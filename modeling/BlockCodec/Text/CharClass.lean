/-!
# Classes of characters
-/

namespace BlockCodec.Text

/-- Characters given by runs of code points, ends included, in ascending order. -/
structure CharClass where
  runs : List (Nat × Nat)

namespace CharClass

/-- Only the first run that does not end before the character can hold it. -/
def has (chars : CharClass) (c : Char) : Bool :=
  match chars.runs.find? fun (_, last) => c.toNat ≤ last with
  | some (first, _) => first ≤ c.toNat
  | none => false

end CharClass

end BlockCodec.Text
