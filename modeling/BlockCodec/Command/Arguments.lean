import BlockCodec.Command.Report
import BlockCodec.Frame.Basic
import BlockCodec.Text.Numeral

/-!
# Arguments

The command line is read word by word. The program and each of its commands is a level of its
own: a level knows its switch, whether it takes a limit, its operand and its commands. Settings
may stand at every level, and the deepest one counts. No option may be given twice at a level.
-/

namespace BlockCodec.Command

inductive Request
  | inspect (path : String) (delimited : Bool) (maxLength : Nat)
  | split (path : String) (maxLength : Nat)
  | encode (value : String) (zigzag : Bool)
  | decode (hex : String) (zigzag : Bool)
  | version (extended : Bool)
deriving Repr, DecidableEq

/-- Why there is nothing to run. -/
inductive Stop
  | help
  | version
  | refused
deriving Repr, DecidableEq

inductive Operand
  /-- A name; it may not be empty. -/
  | path
  | text
  /-- Words that look like negative numbers are no options. -/
  | number
deriving Repr, DecidableEq

structure Level where
  switch? : Option String := none
  limited : Bool := false
  operand? : Option Operand := none
  commands : List String := []
  /-- Answers for its version. -/
  versioned : Bool := false

/-- What was said at one level. -/
structure Said where
  style? : Option Style := none
  logStyle? : Option String := none
  logLevel? : Option String := none
  maxLength? : Option Nat := none
  switched : Bool := false
  operand? : Option String := none

def Style.ofName? : String → Option Style
  | "json" => some .json
  | "table" => some .table
  | "pretty" => some .pretty
  | "raw" => some .raw
  | _ => none

def logStyles : List String := ["text", "json"]

def logLevels : List String := ["off", "error", "warn", "info", "debug", "trace"]

namespace Said

/-- A choice made for the first time, with a value that can be read. -/
def once {α : Type} (said? read? : Option α) : Except Stop α :=
  match said?, read? with
  | none, some value => .ok value
  | _, _ => .error .refused

def oneOf (names : List String) (name : String) : Option String := names.find? (· == name)

/-- The option of a level with its value. -/
def setting (level : Level) (said : Said) (name value : String) : Except Stop Said := do
  match name with
  | "format" => return { said with style? := ← once said.style? (Style.ofName? value) }
  | "log-format" => return { said with logStyle? := ← once said.logStyle? (oneOf logStyles value) }
  | "log-level" => return { said with logLevel? := ← once said.logLevel? (oneOf logLevels value) }
  | "max-len" =>
    if level.limited then
      let limit? := (Text.unsigned? value).map (·.toNat)
      return { said with maxLength? := ← once said.maxLength? limit? }
    else throw .refused
  | _ => throw .refused

def switch (said : Said) : Except Stop Said :=
  if said.switched then .error .refused else .ok { said with switched := true }

def operand (level : Level) (said : Said) (word : String) : Except Stop Said :=
  match level.operand?, said.operand? with
  | some kind, none =>
    if kind = .path ∧ word.isEmpty then .error .refused else .ok { said with operand? := word }
  | _, _ => .error .refused

/-- Stands between a number and the power of ten it is multiplied by. -/
def isExponentMark (c : Char) : Bool := c == 'e' || c == 'E'

/-- A number that begins with a minus sign looks so: digits, with one point and one exponent
mark at most, neither in front and the mark not at the end. -/
def looksNumeric (digits : List Char) : Bool :=
  let mantissa := digits.takeWhile (!isExponentMark ·)
  let exponent := digits.dropWhile (!isExponentMark ·)
  let whole := mantissa.takeWhile Char.isDigit
  let fraction := mantissa.dropWhile Char.isDigit
  !whole.isEmpty &&
    (fraction.isEmpty || (fraction.head? == some '.' && (fraction.drop 1).all Char.isDigit)) &&
    (exponent.isEmpty || (exponent.length != 1 && (exponent.drop 1).all Char.isDigit))

/-- A word of a single dash with something behind it. -/
def short (level : Level) (said : Said) (letters : List Char) : Except Stop Said :=
  if level.operand? = some .number ∧ said.operand? = none ∧ looksNumeric letters then
    operand level said (String.ofList ('-' :: letters))
  else
    match letters with
    | 'h' :: _ => .error .help
    | 'V' :: _ => .error (if level.versioned then .version else .refused)
    | _ => .error .refused

/-- An option that takes no value. -/
def bare (level : Level) (said : Said) (name : String) : Except Stop Said :=
  if name = "help" then .error .help
  else if name = "version" ∧ level.versioned then .error .version
  else if level.switch? = some name then said.switch
  else .error .refused

end Said

def takesValue (name : String) : Bool :=
  ["format", "log-format", "log-level", "max-len"].contains name

/-- The parts of a word around its first equals sign. -/
def splitEquals (word : List Char) : List Char × Option (List Char) :=
  match word.dropWhile (· != '=') with
  | [] => (word, none)
  | _ :: value => (word.takeWhile (· != '='), some value)

namespace Level

/-- Reads the words of a level: all of them, or those up to the name of one of its commands,
which is left with what follows it. Behind a double dash there are operands only. -/
def read (level : Level) : Bool → Said → List String → Except Stop (Said × List String)
  | _, said, [] => .ok (said, [])
  | true, said, word :: rest => do
    let said ← said.operand level word
    read level true said rest
  | false, said, word :: rest =>
    -- the value of an option is taken with it and never looked at here
    if level.commands.contains word then .ok (said, word :: rest)
    else
      match word.toList with
      | ['-', '-'] => read level true said rest
      | '-' :: '-' :: option => do
        let (name, value?) := splitEquals option
        let name := String.ofList name
        match value?, takesValue name with
        | some value, true => do
          let said ← said.setting level name (String.ofList value)
          read level false said rest
        | some _, false => throw .refused
        | none, false => do
          let said ← said.bare level name
          read level false said rest
        | none, true =>
          match rest with
          | [] => throw .refused
          | value :: rest => do
            let said ← said.setting level name value
            read level false said rest
      | '-' :: c :: letters => do
        let said ← said.short level (c :: letters)
        read level false said rest
      | _ => do
        let said ← said.operand level word
        read level false said rest

/-- The words of a level without commands. -/
def readAll (level : Level) (words : List String) : Except Stop Said := do
  let (said, _) ← level.read false {} words
  pure said

end Level

def program : Level :=
  { commands := ["inspect", "varint", "split", "version", "help"], versioned := true }

def inspectLevel : Level :=
  { switch? := some "delimited", limited := true, operand? := some .path }

def splitLevel : Level := { limited := true, operand? := some .path }

def numberLevel : Level := { commands := ["encode", "decode", "help"] }

def encodeLevel : Level := { switch? := some "zigzag", operand? := some .number }

def decodeLevel : Level := { switch? := some "zigzag", operand? := some .text }

def versionLevel : Level := { switch? := some "extended" }

/-- What the words after the name of a command ask for, and the style said there. -/
abbrev Asked := Except Stop (Request × Option Style)

def Said.required (said : Said) : Except Stop String :=
  match said.operand? with
  | some operand => .ok operand
  | none => .error .refused

def Said.maxLength (said : Said) : Nat := said.maxLength?.getD Frame.defaultMax

/-- Help on a command is asked for by its name, which may be that of a command of a command. -/
def askHelp : List String → List String → Asked
  | _, [] => .error .help
  | commands, name :: rest =>
    if commands.contains name then
      askHelp (if name = "varint" then numberLevel.commands else []) rest
    else .error .refused

def askNumber (words : List String) : Asked := do
  let (outer, words) ← numberLevel.read false {} words
  match words with
  | "encode" :: words =>
    let said ← encodeLevel.readAll words
    return (.encode (← said.required) said.switched, said.style? <|> outer.style?)
  | "decode" :: words =>
    let said ← decodeLevel.readAll words
    return (.decode (← said.required) said.switched, said.style? <|> outer.style?)
  | "help" :: words => askHelp numberLevel.commands words
  | _ => throw .refused

def askCommand : List String → Asked
  | "inspect" :: words => do
    let said ← inspectLevel.readAll words
    return (.inspect (← said.required) said.switched said.maxLength, said.style?)
  | "split" :: words => do
    let said ← splitLevel.readAll words
    return (.split (← said.required) said.maxLength, said.style?)
  | "varint" :: words => askNumber words
  | "version" :: words => do
    let said ← versionLevel.readAll words
    return (.version said.switched, said.style?)
  | "help" :: words => askHelp program.commands words
  | _ => .error .refused

/-- The request of a command line and the style to answer it in. -/
def readArguments (words : List String) : Except Stop (Request × Style) := do
  let (outer, words) ← program.read false {} words
  let (request, style?) ← askCommand words
  pure (request, ((style? <|> outer.style?).getD .json))

end BlockCodec.Command
