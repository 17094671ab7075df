import BlockCodec.Text.GraphemeExtend
import BlockCodec.Text.Ignorable
import BlockCodec.Text.Wide

/-!
# Columns of a text

How many columns a text takes on a terminal: one for each character, two for wide ones, none
for those that join the character beside them. Some letters that follow each other are drawn as
one. Texts are quoted before they are measured, so joiners and marks between letters are escapes
by then, and what letters do across them does not matter.
-/

namespace BlockCodec.Text

/-- Vowels and finals of Hangul syllables written letter by letter. -/
def syllableTail : CharClass := ⟨[(0x1160, 0x11ff), (0xd7b0, 0xd7c6), (0xd7cb, 0xd7fb)]⟩

/-- Drawn on what follows: the value Prepend of Grapheme_Cluster_Break, less the signs that stand
in front of or under a number, and the caret of Devanagari. -/
def prepended : CharClass := ⟨[
  (0x605, 0x605), (0x70f, 0x70f), (0x890, 0x891), (0x8e2, 0x8e2), (0xd4e, 0xd4e),
  (0xa8fa, 0xa8fa), (0x111c2, 0x111c3), (0x113d1, 0x113d1), (0x1193f, 0x1193f),
  (0x11941, 0x11941), (0x11a84, 0x11a89), (0x11d46, 0x11d46), (0x11f02, 0x11f02)]⟩

/-- Colours of skin: each attaches to a picture of a person or a hand. -/
def skinTone : CharClass := ⟨[(0x1f3fb, 0x1f3ff)]⟩

/-- Pictures that a colour of skin attaches to: the property Emoji_Modifier_Base. -/
def skinToned : CharClass := ⟨[
  (0x261d, 0x261d), (0x26f9, 0x26f9), (0x270a, 0x270d), (0x1f385, 0x1f385), (0x1f3c2, 0x1f3c4),
  (0x1f3c7, 0x1f3c7), (0x1f3ca, 0x1f3cc), (0x1f442, 0x1f443), (0x1f446, 0x1f450),
  (0x1f466, 0x1f478), (0x1f47c, 0x1f47c), (0x1f481, 0x1f483), (0x1f485, 0x1f487),
  (0x1f48f, 0x1f48f), (0x1f491, 0x1f491), (0x1f4aa, 0x1f4aa), (0x1f574, 0x1f575),
  (0x1f57a, 0x1f57a), (0x1f590, 0x1f590), (0x1f595, 0x1f596), (0x1f645, 0x1f647),
  (0x1f64b, 0x1f64f), (0x1f6a3, 0x1f6a3), (0x1f6b4, 0x1f6b6), (0x1f6c0, 0x1f6c0),
  (0x1f6cc, 0x1f6cc), (0x1f90c, 0x1f90c), (0x1f90f, 0x1f90f), (0x1f918, 0x1f91f),
  (0x1f926, 0x1f926), (0x1f930, 0x1f939), (0x1f93c, 0x1f93e), (0x1f977, 0x1f977),
  (0x1f9b5, 0x1f9b6), (0x1f9b8, 0x1f9b9), (0x1f9bb, 0x1f9bb), (0x1f9cd, 0x1f9cf),
  (0x1f9d1, 0x1f9dd), (0x1fac3, 0x1fac5), (0x1faf0, 0x1faf8)]⟩

/-- Arabic letters of the joining group Lam. -/
def lam : CharClass := ⟨[
  (0x644, 0x644), (0x6b5, 0x6b8), (0x76a, 0x76a), (0x8a6, 0x8a6), (0x8c7, 0x8c7)]⟩

/-- Arabic letters of the joining group Alef. -/
def alef : CharClass := ⟨[
  (0x622, 0x623), (0x625, 0x625), (0x627, 0x627), (0x671, 0x673), (0x675, 0x675),
  (0x773, 0x774), (0x870, 0x882)]⟩

/-- Lisu tones, which are written in pairs: one from each of the two runs. -/
def firstTone : CharClass := ⟨[(0xa4f8, 0xa4fb)]⟩

def secondTone : CharClass := ⟨[(0xa4fc, 0xa4fd)]⟩

/-! Some vowel signs of Kirat Rai are made up of others, and are drawn the same when written so. -/

namespace KiratRai

def signAa : Char := Char.ofNat 0x16d63

def signE : Char := Char.ofNat 0x16d67

def signAi : Char := Char.ofNat 0x16d68

def signO : Char := Char.ofNat 0x16d69

def signAu : Char := Char.ofNat 0x16d6a

/-- The signs that a sign is made up of. -/
def decompose (c : Char) : List Char :=
  if c = signAi then [signE, signE]
  else if c = signO then [signAa, signE]
  else if c = signAu then [signAa, signE, signE]
  else [c]

/-- The sign that two signs make up. -/
def compose? (first second : Char) : Option Char :=
  if second ≠ signE then none
  else if first = signE then some signAi
  else if first = signAa then some signO
  else if first = signO then some signAu
  else none

end KiratRai

/-- Takes no column of its own. -/
def isWidthless (c : Char) : Bool :=
  syllableTail.has c || prepended.has c || ignorable.has c || isMark c

/-- Columns of a character on its own. Four letters and signs differ from their classes. -/
def charColumns (c : Char) : Nat :=
  match c with
  | '\u2d7f' => 1
  | '\u115f' | '\u17a4' => 2
  | '\u17d8' => 3
  | c => if isWidthless c then 0 else if wide.has c then 2 else 1

/-- Columns of two characters that are drawn as one. -/
def pairColumns? (first second : Char) : Option Nat :=
  if lam.has first ∧ alef.has second then some 1
  else if firstTone.has first ∧ secondTone.has second then some 1
  else if skinToned.has first ∧ skinTone.has second then some 2
  else none

def listColumns : List Char → Nat
  | [] => 0
  | [c] => charColumns c
  | first :: second :: rest =>
    match KiratRai.compose? first second with
    | some sign => listColumns (sign :: rest)
    | none =>
      match pairColumns? first second with
      | some columns => columns + listColumns rest
      | none => charColumns first + listColumns (second :: rest)
termination_by chars => chars.length

def columns (text : String) : Nat := listColumns (text.toList.flatMap KiratRai.decompose)

/-- The text, filled up with spaces to a number of columns. -/
def padTo (width : Nat) (text : String) : String :=
  text ++ String.ofList (List.replicate (width - columns text) ' ')

/-- The text behind as many spaces as fill it up to a number of columns. -/
def padFront (width : Nat) (text : String) : String :=
  String.ofList (List.replicate (width - columns text) ' ') ++ text

end BlockCodec.Text
