/-!
# Byte strings

Everything that travels and everything that is stored is a list of bytes. Sizes and offsets
are machine words: arithmetic on them is exact up to `maxSize` and stays there beyond it, so a
range that would run past the largest size is cut off instead of wrapping round.
-/

namespace BlockCodec

abbrev Bytes := List UInt8

/-- The largest size or offset a machine word holds. -/
def maxSize : Nat := 0xffffffffffffffff

/-- A size computed from others, held at the largest one. -/
def clampSize (size : Nat) : Nat := min size maxSize

/-- The byte positions from `start` up to, not including, `stop`. -/
structure Span where
  start : Nat
  stop : Nat
deriving Repr, DecidableEq

namespace Span

/-- The `length` positions from `start` on. -/
def ofLength (start length : Nat) : Span := ⟨start, clampSize (start + length)⟩

def length (span : Span) : Nat := span.stop - span.start

/-- The span lies inside a block of `size` bytes. -/
def Within (span : Span) (size : Nat) : Prop := span.start ≤ span.stop ∧ span.stop ≤ size

instance (span : Span) (size : Nat) : Decidable (span.Within size) :=
  inferInstanceAs (Decidable (_ ∧ _))

end Span

namespace Bytes

def zeros (count : Nat) : Bytes := List.replicate count 0

/-- The bytes of a span, when the span lies inside the block. -/
def slice? (block : Bytes) (span : Span) : Option Bytes :=
  if span.Within block.length then some ((block.drop span.start).take span.length) else none

/-- The block with `content` laid over the bytes from `start` on. -/
def overwrite (block : Bytes) (start : Nat) (content : Bytes) : Bytes :=
  block.take start ++ content ++ block.drop (start + content.length)

/-- The block with every byte of a span set to zero. -/
def clear? (block : Bytes) (span : Span) : Option Bytes :=
  if span.Within block.length then some (overwrite block span.start (zeros span.length)) else none

def isZero (bytes : Bytes) : Bool := bytes.all (· == 0)

/-- The low `width` bytes of a number, least significant first. -/
def littleEndian : Nat → Nat → Bytes
  | 0, _ => []
  | width + 1, number => UInt8.ofNat number :: littleEndian width (number / 256)

def ofLittleEndian : Bytes → Nat
  | [] => 0
  | byte :: rest => byte.toNat + 256 * ofLittleEndian rest

/-- The text that the bytes encode, when they are well-formed UTF-8. -/
def text? (bytes : Bytes) : Option String := String.fromUTF8? ⟨bytes.toArray⟩

def ofText (text : String) : Bytes := text.toUTF8.data.toList

theorem length_zeros (count : Nat) : (zeros count).length = count := List.length_replicate

theorem length_littleEndian (width number : Nat) : (littleEndian width number).length = width := by
  induction width generalizing number with
  | zero => rfl
  | succ width ih => simp [littleEndian, ih]

theorem length_overwrite (block content : Bytes) (start : Nat)
    (h : start + content.length ≤ block.length) :
    (overwrite block start content).length = block.length := by
  simp [overwrite]
  omega

end Bytes

end BlockCodec
