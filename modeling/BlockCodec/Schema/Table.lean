import BlockCodec.Schema.Field

/-!
# Tables

A table lists the fields of one message shape and gives the size of its block. A schema says
which table every reference stands for, so tables may refer to each other in any way, and to
themselves.
-/

namespace BlockCodec

structure Table (Ref : Type) where
  name : String
  fields : List (Field Ref)
  size : Nat
deriving Repr, DecidableEq

abbrev Schema (Ref : Type) := Ref → Table Ref

/-- The most required fields that are tracked in one message. -/
def maxRequiredFields : Nat := 64

namespace Table

variable {Ref : Type}

/-- Tags ascend strictly. -/
def isSorted (table : Table Ref) : Bool :=
  (table.fields.zip (table.fields.drop 1)).all fun (field, next) => field.tag < next.tag

/-- Bisects the positions from `low` up to `high` for a tag; `steps` bounds the bisection. -/
def bisect (table : Table Ref) (tag : Nat) : Nat → Nat → Nat → Option Nat
  | 0, _, _ => none
  | steps + 1, low, high =>
    if low < high then
      let middle := (low + high) / 2
      match table.fields[middle]? with
      | none => none
      | some field =>
        if field.tag = tag then some middle
        else if field.tag < tag then bisect table tag steps (middle + 1) high
        else bisect table tag steps low middle
    else none

/-- Position of the field with a tag: by bisection when the table is sorted, from the front
otherwise. -/
def fieldIndex? (table : Table Ref) (tag : Nat) : Option Nat :=
  if table.isSorted then table.bisect tag (table.fields.length + 1) 0 table.fields.length
  else table.fields.findIdx? (·.tag == tag)

def field? (table : Table Ref) (tag : Nat) : Option (Field Ref) :=
  (table.fieldIndex? tag).bind (table.fields[·]?)

def requiredCount (table : Table Ref) : Nat := table.fields.countP Field.isRequired

/-- The members of a group, in table order. -/
def members (table : Table Ref) (group : Nat) : List (Field Ref) :=
  table.fields.filter fun field => field.group? == some group

end Table

/-- A field with its place in its table. -/
structure Entry (Ref : Type) where
  index : Nat
  field : Field Ref
  /-- How many required fields stand before it, when it is required itself. -/
  requiredIndex? : Option Nat
deriving Repr, DecidableEq

/-- A place in a table. It may stand behind the last field, and `requiredBefore` counts the
required fields before it. -/
structure Cursor where
  index : Nat
  requiredBefore : Nat
deriving Repr, DecidableEq

namespace Cursor

variable {Ref : Type}

def start : Cursor := ⟨0, 0⟩

def entry (cursor : Cursor) (field : Field Ref) : Entry Ref :=
  { index := cursor.index
    field
    requiredIndex? := if field.isRequired then some cursor.requiredBefore else none }

def step (cursor : Cursor) (field : Field Ref) : Cursor :=
  ⟨cursor.index + 1, if field.isRequired then cursor.requiredBefore + 1 else cursor.requiredBefore⟩

/-- The field under the cursor, which moves behind it. -/
def next (table : Table Ref) (cursor : Cursor) : Option (Entry Ref) × Cursor :=
  match table.fields[cursor.index]? with
  | none => (none, cursor)
  | some field => (some (cursor.entry field), cursor.step field)

/-- Looks at `places` fields from the cursor on, wrapping round at the end of the table. -/
def findWithin (table : Table Ref) (tag : Nat) : Nat → Cursor → Option (Entry Ref) × Cursor
  | 0, cursor => (none, cursor)
  | places + 1, cursor =>
    -- round the end, the count of required fields starts over
    let cursor := if cursor.index < table.fields.length then cursor else start
    match table.fields[cursor.index]? with
    | none => (none, cursor)
    | some field =>
      if field.tag = tag then (some (cursor.entry field), cursor)
      else findWithin table tag places (cursor.step field)

/-- The field with a tag, found with one turn round the table; the cursor stays on it, so that
fields that arrive in table order cost one step each. -/
def find (table : Table Ref) (tag : Nat) (cursor : Cursor) : Option (Entry Ref) × Cursor :=
  findWithin table tag table.fields.length cursor

end Cursor

namespace Table

variable {Ref : Type}

/-- Fields from a cursor on, with their places. -/
def entriesFrom (cursor : Cursor) : List (Field Ref) → List (Entry Ref)
  | [] => []
  | field :: rest => cursor.entry field :: entriesFrom (cursor.step field) rest

def entries (table : Table Ref) : List (Entry Ref) := entriesFrom .start table.fields

/-- The entry of a tag, looked up from the front. -/
def entryOf? (table : Table Ref) (tag : Nat) : Option (Entry Ref) :=
  (Cursor.start.find table tag).1

end Table

end BlockCodec
