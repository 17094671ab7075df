import BlockCodec.Schema.Validity
import BlockCodec.Proofs.Spans

/-!
# Layouts

What a table promises about where its fields lie. `Field.Built` are the fields that the builders
make, `Table.Laid` is what a table that passes the checks says about each of them, and
`Table.Separate` asks that fields keep out of each other's places. The checks do not look for
overlaps, so `Separate` is a promise of whoever writes the table.

A property of all tables that can be met on the way down from a table holds `Throughout`.
-/

namespace BlockCodec

variable {Ref : Type}

namespace Field

/-- The fields that the builders make. -/
inductive Built : Field Ref → Prop
  | ofStorage (tag : Nat) (name : String) (kind : Kind Ref) (dataOffset dataSize : Nat) :
    Built (.ofStorage tag name kind dataOffset dataSize)
  | optional {field : Field Ref} (flagOffset : Nat) : Built field → Built (field.optional flagOffset)
  | implicit {field : Field Ref} : Built field → Built field.implicit
  | repeated {field : Field Ref} (countOffset capacity : Nat) :
    Built field → Built (field.repeated countOffset capacity)
  | inPacks {field : Field Ref} : Built field → Built field.inPacks
  | oneof {field : Field Ref} (group whichOffset : Nat) :
    Built field → Built (field.oneof group whichOffset)
  | handled {field : Field Ref} : Built field → Built field.handled
  | withDefault {field : Field Ref} (value : Default) :
    Built field → Built (field.withDefault value)

/-- No builder gives a required field a size offset. -/
theorem Built.sizeOffset_eq_none {field : Field Ref} (h : Built field)
    (hr : field.multiplicity = .required) : field.sizeOffset = none := by
  induction h with
  | ofStorage => rfl
  | optional => cases hr
  | implicit => rfl
  | repeated => cases hr
  | inPacks _ ih => exact ih hr
  | oneof => cases hr
  | handled _ ih => exact ih hr
  | withDefault _ _ ih => exact ih hr

/-- The storage of all values of a field; for a handled field, its slot. -/
def storage (field : Field Ref) : Span :=
  if field.isRepeated ∧ ¬field.isHandled then field.array else field.data

/-- All places that a field lays claim to. -/
def spans (field : Field Ref) : List Span :=
  if field.isHandled then [field.data] else field.storage :: field.sizeSlot?.toList

/-- A place that the field lays claim to. -/
def extent (field : Field Ref) (place : Nat) : Prop := ∃ span ∈ field.spans, place ∈ span

/-- A place of the flag, the count or the active tag. -/
def slotPlaces (field : Field Ref) (place : Nat) : Prop := ∃ slot ∈ field.sizeSlot?, place ∈ slot

def SameGroup (field other : Field Ref) : Prop :=
  field.group?.isSome ∧ other.group? = field.group?

instance (field other : Field Ref) : Decidable (field.SameGroup other) :=
  inferInstanceAs (Decidable (_ ∧ _))

/-- Two fields have no place in common, except that members of a group share their active tag
and may share storage. -/
def Apart (field other : Field Ref) : Prop :=
  if field.SameGroup other then
    (∀ slot ∈ other.sizeSlot?, field.storage.Apart slot) ∧
      ∀ slot ∈ field.sizeSlot?, other.storage.Apart slot
  else ∀ a ∈ field.spans, ∀ b ∈ other.spans, a.Apart b

instance (field other : Field Ref) : Decidable (field.Apart other) := by
  unfold Apart
  infer_instance

/-- How many values the storage has room for. -/
def places (field : Field Ref) : Nat := if field.isRepeated then field.capacity else 1

def slotSize (field : Field Ref) : Nat := if field.multiplicity = .optional then 1 else 4

/-- The storage of one value suits the kind. -/
def Suits (schema : Schema Ref) (field : Field Ref) : Prop :=
  match field.kind with
  | .text => 0 < field.dataSize
  | .bytes => 4 ≤ field.dataSize
  | .message ref => field.dataSize = (schema ref).size
  | .fixed ⟨.w8, _⟩ | .fixed ⟨.w16, _⟩ | .float .w8 | .float .w16 => False
  | kind => kind.scalarWidth? = some field.dataSize

/-- The storage of a field in a block of `size` bytes that passes the checks. -/
structure Fits (schema : Schema Ref) (size : Nat) (field : Field Ref) : Prop where
  inBlock : field.isHandled = false
  suits : field.Suits schema
  places_pos : 0 < field.places
  storage_le : field.dataOffset + field.dataSize * field.places ≤ size
  storage_word : field.dataOffset + field.dataSize * field.places ≤ maxSize
  packed : field.packed → field.isRepeated ∧ field.kind.isScalar
  default_fits : ∀ value, field.default? = some value → value.fits field.kind field.dataSize

/-- A field in a block of `size` bytes that passes the checks and has its slot in the block, if it
has one. -/
structure Laid (schema : Schema Ref) (size : Nat) (field : Field Ref) : Prop
    extends Fits schema size field where
  slot_le : ∀ offset, field.sizeOffset = some offset → offset + field.slotSize ≤ size
  slot_word : ∀ offset, field.sizeOffset = some offset → offset + field.slotSize ≤ maxSize
  slot_isSome : field.isRepeated ∨ field.group?.isSome → field.sizeOffset.isSome

/-- A handled field in a block of `size` bytes that passes the checks. -/
structure SlotLaid (size : Nat) (field : Field Ref) : Prop where
  dataSize_eq : field.dataSize = 2
  group_eq : field.group? = none
  slot_le : field.dataOffset + 2 ≤ size
  slot_word : field.dataOffset + 2 ≤ maxSize

end Field

namespace Table

def Built (table : Table Ref) : Prop := ∀ field ∈ table.fields, field.Built

/-- No field of the table goes through a handler. -/
def Unhandled (table : Table Ref) : Prop := ∀ field ∈ table.fields, field.isHandled = false

instance (table : Table Ref) : Decidable table.Unhandled :=
  inferInstanceAs (Decidable (∀ field ∈ table.fields, field.isHandled = false))

def Undefaulted (table : Table Ref) : Prop := ∀ field ∈ table.fields, field.default? = none

instance (table : Table Ref) : Decidable table.Undefaulted :=
  inferInstanceAs (Decidable (∀ field ∈ table.fields, field.default? = none))

/-- The watched fields have their places to themselves. -/
def Separate (watched : Field Ref → Prop) (table : Table Ref) : Prop :=
  ∀ field ∈ table.fields, watched field → field.spans.Pairwise Span.Apart ∧
    ∀ other ∈ table.fields, other.tag ≠ field.tag → field.Apart other

instance (watched : Field Ref → Prop) [DecidablePred watched] (table : Table Ref) :
    Decidable (table.Separate watched) := by
  unfold Separate
  infer_instance

/-- All storage and all slots of the table lie apart, except within its groups. -/
def Disjoint (table : Table Ref) : Prop := table.Separate fun _ => True

instance (table : Table Ref) : Decidable table.Disjoint :=
  inferInstanceAs (Decidable (table.Separate fun _ => True))

/-- The slots of the fields in the block lie in it. The checks look at all of them but that of a
required field, which nothing uses but a reset. -/
def SlotsWithin (table : Table Ref) : Prop :=
  ∀ field ∈ table.fields, field.isHandled = false → ∀ offset ∈ field.sizeOffset,
    offset + field.slotSize ≤ table.size ∧ offset + field.slotSize ≤ maxSize

instance (table : Table Ref) : Decidable table.SlotsWithin := by
  unfold SlotsWithin
  infer_instance

/-- No required field has a slot. -/
def NoIdleSlots (table : Table Ref) : Prop :=
  ∀ field ∈ table.fields, field.multiplicity = .required → field.sizeOffset = none

theorem Built.noIdleSlots {table : Table Ref} (h : table.Built) : table.NoIdleSlots :=
  fun field hf => (h field hf).sizeOffset_eq_none

/-- The members of a group agree on where its active tag is. -/
def Grouped (table : Table Ref) : Prop :=
  ∀ field ∈ table.fields, ∀ other ∈ table.fields, field.SameGroup other →
    other.sizeOffset = field.sizeOffset

/-- What a table that passes the checks says about its fields, however they were made. -/
structure Fits (schema : Schema Ref) (table : Table Ref) : Prop where
  tag_pos : ∀ field ∈ table.fields, 0 < field.tag
  tag_le : ∀ field ∈ table.fields, field.tag ≤ Wire.maxFieldNumber
  tags_ne : table.fields.Pairwise (·.tag ≠ ·.tag)
  stored : ∀ field ∈ table.fields, field.isHandled = false → field.Fits schema table.size
  handled : ∀ field ∈ table.fields, field.isHandled = true → field.SlotLaid table.size

/-- The fields that may have a slot are laid, those that are not required. -/
def Slotted (schema : Schema Ref) (table : Table Ref) : Prop :=
  ∀ field ∈ table.fields, field.isHandled = false → field.multiplicity ≠ .required →
    field.Laid schema table.size

/-- What a table that passes the checks says about its fields when all slots lie in the block. -/
structure Laid (schema : Schema Ref) (table : Table Ref) : Prop extends Fits schema table where
  laid : ∀ field ∈ table.fields, field.isHandled = false → field.Laid schema table.size
  groups : ∀ field ∈ table.fields, ∀ other ∈ table.fields, field.SameGroup other →
    other.sizeOffset = field.sizeOffset
  required_le : table.requiredCount ≤ maxRequiredFields

end Table

namespace Schema

/-- The tables met on the way down from a table, itself among them. -/
inductive Below (schema : Schema Ref) : Ref → Ref → Prop
  | refl (ref : Ref) : Below schema ref ref
  | step {ref next last : Ref} : next ∈ (schema ref).nested → Below schema next last →
    Below schema ref last

/-- At every nesting level. -/
def Throughout (schema : Schema Ref) (P : Table Ref → Prop) (ref : Ref) : Prop :=
  ∀ inner, schema.Below ref inner → P (schema inner)

/-- Tables that pass the checks, nested no deeper than the levels given. -/
inductive Laid (schema : Schema Ref) : Nat → Ref → Prop
  | intro {levels : Nat} {ref : Ref} : (schema ref).Laid schema →
    (∀ inner ∈ (schema ref).nested, Laid schema levels inner) → Laid schema (levels + 1) ref

theorem Throughout.here {schema : Schema Ref} {P : Table Ref → Prop} {ref : Ref}
    (h : schema.Throughout P ref) : P (schema ref) :=
  h ref (.refl ref)

theorem Throughout.nested {schema : Schema Ref} {P : Table Ref → Prop} {ref inner : Ref}
    (h : schema.Throughout P ref) (hn : inner ∈ (schema ref).nested) : schema.Throughout P inner :=
  fun last hl => h last (.step hn hl)

theorem Throughout.mono {schema : Schema Ref} {P Q : Table Ref → Prop} {ref : Ref}
    (h : schema.Throughout P ref) (hpq : ∀ table, P table → Q table) : schema.Throughout Q ref :=
  fun last hl => hpq _ (h last hl)

theorem throughout_of_forall {schema : Schema Ref} {P : Table Ref → Prop}
    (h : ∀ ref, P (schema ref)) (ref : Ref) : schema.Throughout P ref :=
  fun inner _ => h inner

theorem Laid.here {schema : Schema Ref} {levels : Nat} {ref : Ref} (h : schema.Laid levels ref) :
    (schema ref).Laid schema := by
  cases h
  assumption

theorem Laid.nested {schema : Schema Ref} {levels : Nat} {ref inner : Ref}
    (h : schema.Laid (levels + 1) ref) (hn : inner ∈ (schema ref).nested) :
    schema.Laid levels inner := by
  cases h with
  | intro _ hb => exact hb inner hn

theorem Laid.mono {schema : Schema Ref} {levels more : Nat} {ref : Ref} (h : schema.Laid levels ref)
    (hm : levels ≤ more) : schema.Laid more ref := by
  induction h generalizing more with
  | intro hl _ ih =>
    obtain ⟨more, rfl⟩ : ∃ k, more = k + 1 := ⟨more - 1, by omega⟩
    exact .intro hl fun inner hn => ih inner hn (by omega)

theorem Laid.of_below {schema : Schema Ref} {levels : Nat} {ref inner : Ref}
    (h : schema.Laid levels ref) (hb : schema.Below ref inner) : schema.Laid levels inner := by
  induction hb with
  | refl => exact h
  | step hn _ ih =>
    cases levels with
    | zero => cases h
    | succ levels => exact ih ((h.nested hn).mono (Nat.le_succ _))

theorem Throughout.of_below {schema : Schema Ref} {P : Table Ref → Prop} {ref inner : Ref}
    (h : schema.Throughout P ref) (hb : schema.Below ref inner) : schema.Throughout P inner := by
  induction hb with
  | refl => exact h
  | step hn _ ih => exact ih (h.nested hn)

end Schema

theorem Table.eq_of_tag_eq {fields : List (Field Ref)} (h : fields.Pairwise (·.tag ≠ ·.tag))
    {field other : Field Ref} (hf : field ∈ fields) (ho : other ∈ fields)
    (ht : other.tag = field.tag) : other = field := by
  induction fields with
  | nil => cases hf
  | cons first rest ih =>
    obtain ⟨hfirst, hrest⟩ := List.pairwise_cons.mp h
    rcases List.mem_cons.mp hf with rfl | hfr <;> rcases List.mem_cons.mp ho with rfl | hor
    · rfl
    · exact absurd ht.symm (hfirst other hor)
    · exact absurd ht (hfirst field hfr)
    · exact ih hrest hfr hor

theorem Cursor.mem_of_findWithin {table : Table Ref} {tag places : Nat} {cursor after : Cursor}
    {entry : Entry Ref} (h : cursor.findWithin table tag places = (some entry, after)) :
    entry.field ∈ table.fields := by
  induction places generalizing cursor with
  | zero => simp [Cursor.findWithin] at h
  | succ places ih =>
    simp only [Cursor.findWithin] at h
    split at h
    · cases h
    · next field hf =>
      split at h
      · cases h
        exact List.mem_of_getElem? hf
      · exact ih h

theorem Table.mem_nested {table : Table Ref} {field : Field Ref} {ref : Ref}
    (hf : field ∈ table.fields) (hh : field.isHandled = false) (hk : field.kind = .message ref) :
    ref ∈ table.nested := by
  refine List.mem_filterMap.mpr ⟨field, hf, ?_⟩
  rw [hk]
  cases ha : field.allocation with
  | inBlock => rfl
  | handler => simp [Field.isHandled, ha] at hh

end BlockCodec
