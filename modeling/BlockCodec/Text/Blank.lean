import BlockCodec.Text.CharClass

/-!
# Blanks

The characters that are trimmed off both ends of an argument: the property White_Space.
-/

namespace BlockCodec.Text

def blank : CharClass := ⟨[
  (0x9, 0xd), (0x20, 0x20), (0x85, 0x85), (0xa0, 0xa0), (0x1680, 0x1680), (0x2000, 0x200a),
  (0x2028, 0x2029), (0x202f, 0x202f), (0x205f, 0x205f), (0x3000, 0x3000)]⟩

/-- The text without the blanks at its ends. -/
def trim (text : String) : String :=
  let front := text.toList.dropWhile blank.has
  String.ofList (front.reverse.dropWhile blank.has).reverse

theorem blank_of_isWhitespace (c : Char) (h : c.isWhitespace) : blank.has c := by
  simp only [Char.isWhitespace, Bool.or_eq_true, decide_eq_true_eq] at h
  rcases h with ((h | h) | h) | h <;> subst h <;> rfl

end BlockCodec.Text
