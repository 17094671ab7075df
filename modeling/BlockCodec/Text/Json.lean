/-!
# JSON text

Values printed on one line without spaces, members in the order given.
-/

namespace BlockCodec.Text

inductive Json
  | number (value : Int)
  | flag (value : Bool)
  | text (value : String)
  | list (items : List Json)
  | object (members : List (String × Json))

namespace Json

/-- Four digits, for characters below the space. -/
def escapeControl (c : Char) : List Char :=
  ['\\', 'u', '0', '0', if c.toNat < 16 then '0' else '1'] ++ Nat.toDigits 16 (c.toNat % 16)

def escape (c : Char) : List Char :=
  match c with
  | '"' => ['\\', '"']
  | '\\' => ['\\', '\\']
  | '\x08' => ['\\', 'b']
  | '\t' => ['\\', 't']
  | '\n' => ['\\', 'n']
  | '\x0c' => ['\\', 'f']
  | '\r' => ['\\', 'r']
  | c => if c < ' ' then escapeControl c else [c]

def quote (text : String) : String :=
  String.ofList ('"' :: (text.toList.flatMap escape ++ ['"']))

mutual

def render : Json → String
  | .number value => toString value
  | .flag value => if value then "true" else "false"
  | .text value => quote value
  | .list items => "[" ++ String.intercalate "," (renderItems items) ++ "]"
  | .object members => "\x7b" ++ String.intercalate "," (renderMembers members) ++ "\x7d"

def renderItems : List Json → List String
  | [] => []
  | item :: rest => render item :: renderItems rest

def renderMembers : List (String × Json) → List String
  | [] => []
  | (name, value) :: rest => (quote name ++ ":" ++ render value) :: renderMembers rest

end

end Json

end BlockCodec.Text
