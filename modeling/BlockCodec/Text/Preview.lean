import BlockCodec.Text.Hex
import BlockCodec.Text.Quoted

/-!
# Previews of payloads

A payload in one short line: quoted when it reads as text without control characters, in
hexadecimal otherwise. Only the front of a long payload is shown, with two dots behind it.
-/

namespace BlockCodec.Text

/-- The longest payload shown in full. -/
def previewLimit : Nat := 32

/-- A character that steers a terminal instead of showing on it. -/
def isControl (c : Char) : Bool := c < ' ' || ('\x7f' ≤ c && c ≤ '\u009f')

/-- The text that bytes read as, when it has no control characters. -/
def plainText? (bytes : Bytes) : Option String :=
  (Bytes.text? bytes).filter fun text => !text.toList.any isControl

def preview (payload : Bytes) : String :=
  let shown := payload.take previewLimit
  let body := match plainText? shown with
    | some text => quote text
    | none => "0x" ++ Hex.encode shown
  if shown.length < payload.length then body ++ ".." else body

end BlockCodec.Text
