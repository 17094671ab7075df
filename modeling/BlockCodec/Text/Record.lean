import BlockCodec.Text.Quoted

/-!
# Records as text

The name of a type and its members between braces, for logs.
-/

namespace BlockCodec.Text

def flag (value : Bool) : String := if value then "true" else "false"

def record (name : String) (members : List (String × String)) : String :=
  let members := members.map fun (member, value) => member ++ ": " ++ value
  name ++ " \x7b " ++ String.intercalate ", " members ++ " \x7d"

end BlockCodec.Text
