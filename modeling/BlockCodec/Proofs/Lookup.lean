import BlockCodec.Message.View
import BlockCodec.Proofs.Layout

/-!
# Looking fields up

Fields that come in table order are found without a turn round the end of the table:
`Cursor.find_behind`. Where a cursor stands decides how long a lookup takes, and nothing else:
`Cursor.find_placed`. A cursor that stands on a place of the table knows how many required fields are
before it, and whatever it finds it finds with the number that a lookup from the front would give it.
A view finds the field with a tag, wherever it stands in the table: `Table.lookUp_eq_ok`.
-/

namespace BlockCodec.Cursor

variable {Ref : Type} {table : Table Ref} {cursor : Cursor} {field : Field Ref}
  {front skipped rest : List (Field Ref)} {tag places : Nat}

@[simp] theorem field_entry (cursor : Cursor) (field : Field Ref) :
    (cursor.entry field).field = field := rfl

/-- The cursor that has passed the first fields of a table. -/
def behind (front : List (Field Ref)) : Cursor := front.foldl step start

theorem behind_append (front : List (Field Ref)) (field : Field Ref) :
    behind (front ++ [field]) = (behind front).step field := by
  simp [behind]

theorem index_foldl (cursor : Cursor) (front : List (Field Ref)) :
    (front.foldl step cursor).index = cursor.index + front.length := by
  induction front generalizing cursor with
  | nil => rfl
  | cons first front ih => simp [ih, step, Nat.add_comm, Nat.add_left_comm]

@[simp] theorem index_behind (front : List (Field Ref)) : (behind front).index = front.length := by
  simp [behind, index_foldl, start]

theorem findWithin_behind (ht : table.fields = front ++ skipped ++ field :: rest)
    (hne : ∀ other ∈ skipped, other.tag ≠ field.tag) {places : Nat} (hp : skipped.length < places) :
    (behind front).findWithin table field.tag places =
      (some ((behind (front ++ skipped)).entry field), behind (front ++ skipped)) := by
  induction skipped generalizing front places with
  | nil =>
    obtain ⟨places, rfl⟩ : ∃ n, places = n + 1 := ⟨places - 1, by simp at hp; omega⟩
    simp [findWithin, ht]
  | cons first skipped ih =>
    obtain ⟨places, rfl⟩ : ∃ n, places = n + 1 := ⟨places - 1, by simp at hp; omega⟩
    have hsplit : table.fields = front ++ [first] ++ skipped ++ field :: rest := by simp [ht]
    have hless : skipped.length < places := by simp at hp; omega
    have hrest := ih hsplit (fun other ho => hne other (by simp [ho])) hless
    rw [behind_append] at hrest
    simpa [findWithin, ht, hne first (by simp)] using hrest

/-- A field is found from a cursor before it without a turn round the table. -/
theorem find_behind (ht : table.fields = front ++ skipped ++ field :: rest)
    (hne : ∀ other ∈ skipped, other.tag ≠ field.tag) :
    (behind front).find table field.tag =
      (some ((behind (front ++ skipped)).entry field), behind (front ++ skipped)) :=
  findWithin_behind ht hne (by simp [ht]; omega)

/-- The cursor has passed the first fields of the table, and counted the required ones. -/
def Placed (table : Table Ref) (cursor : Cursor) : Prop :=
  ∃ front, front <+: table.fields ∧ cursor = behind front

theorem placed_start : Placed table start := ⟨[], List.nil_prefix, rfl⟩

/-- Behind the last field the turn begins at the front. -/
theorem findWithin_end :
    (behind table.fields).findWithin table tag places =
      if places = 0 then (none, behind table.fields) else start.findWithin table tag places := by
  cases places with
  | zero => rfl
  | succ places => simp only [findWithin, index_behind, Nat.lt_irrefl, if_false, ite_self]; rfl

/-- Fields that have another tag are passed. -/
theorem findWithin_pass (ht : table.fields = front ++ rest) (hne : ∀ other ∈ rest, other.tag ≠ tag) :
    (behind front).findWithin table tag (rest.length + places) =
      (behind table.fields).findWithin table tag places := by
  induction rest generalizing front with
  | nil => simp [ht]
  | cons first rest ih =>
    have hsplit : table.fields = front ++ [first] ++ rest := by simp [ht]
    have hrest := ih hsplit fun other ho => hne other (List.mem_cons_of_mem _ ho)
    rw [behind_append] at hrest
    rw [List.length_cons, Nat.add_right_comm]
    simpa [findWithin, ht, hne first List.mem_cons_self] using hrest

/-- A field is found from wherever the cursor stands, and the cursor stays on it. -/
theorem find_of_split (htags : table.fields.Pairwise (·.tag ≠ ·.tag)) (h : cursor.Placed table)
    (ht : table.fields = front ++ field :: rest) :
    cursor.find table field.tag = (some ((behind front).entry field), behind front) := by
  obtain ⟨passed, ⟨ahead, hpassed⟩, rfl⟩ := h
  rw [ht, List.pairwise_append, List.pairwise_cons] at htags
  obtain ⟨-, ⟨hafter, -⟩, hbefore⟩ := htags
  have hfront : ∀ other ∈ front, other.tag ≠ field.tag := fun other ho =>
    hbefore other ho field List.mem_cons_self
  rcases Nat.lt_or_ge front.length passed.length with hlt | hle
  · -- the field is behind the cursor, so the lookup turns round the end
    have hback : rest <:+ table.fields := ⟨front ++ [field], by simp [ht]⟩
    have hahead : ahead <:+ rest := by
      refine List.suffix_of_suffix_length_le ⟨passed, hpassed⟩ hback ?_
      have hsum := congrArg List.length (hpassed.trans ht)
      simp only [List.length_append, List.length_cons] at hsum
      omega
    have hlength : table.fields.length = ahead.length + passed.length := by
      rw [← hpassed, List.length_append, Nat.add_comm]
    have hturn : table.fields = [] ++ front ++ field :: rest := ht
    rw [find, hlength, findWithin_pass hpassed.symm fun other ho =>
      (hafter other (hahead.subset ho)).symm, findWithin_end, if_neg (by omega)]
    exact findWithin_behind hturn hfront hlt
  · obtain ⟨skipped, rfl⟩ : passed <+: front :=
      List.prefix_of_prefix_length_le ⟨ahead, hpassed⟩ ⟨field :: rest, ht.symm⟩ hle
    exact find_behind ht fun other ho => hfront other (List.mem_append_right _ ho)

/-- Where no field has the tag, the cursor still ends on a place of the table. -/
theorem findWithin_absent (hne : ∀ other ∈ table.fields, other.tag ≠ tag) (h : cursor.Placed table)
    (places : Nat) :
    ∃ after, cursor.findWithin table tag places = (none, after) ∧ after.Placed table := by
  induction places generalizing cursor with
  | zero => exact ⟨cursor, rfl, h⟩
  | succ places ih =>
    rw [findWithin]
    have hturn : Placed table (if cursor.index < table.fields.length then cursor else start) := by
      split
      · exact h
      · exact placed_start
    generalize (if cursor.index < table.fields.length then cursor else start) = cursor at hturn
    obtain ⟨front, ⟨rest, ht⟩, rfl⟩ := hturn
    cases rest with
    | nil =>
      refine ⟨_, ?_, front, ⟨[], ht⟩, rfl⟩
      simp [← ht]
    | cons first rest =>
      have hstep : (behind front).step first = behind (front ++ [first]) := (behind_append _ _).symm
      have hget : table.fields[(behind front).index]? = some first := by simp [← ht]
      simp only [hget, if_neg (hne first (by simp [← ht]))]
      exact ih ⟨front ++ [first], ⟨rest, by simpa using ht⟩, hstep⟩

/-- A lookup finds the same from everywhere. -/
theorem find_placed (htags : table.fields.Pairwise (·.tag ≠ ·.tag)) (h : cursor.Placed table)
    (tag : Nat) : ∃ after, cursor.find table tag = (table.entryOf? tag, after) ∧ after.Placed table := by
  by_cases hex : ∃ field ∈ table.fields, field.tag = tag
  · obtain ⟨field, hf, rfl⟩ := hex
    obtain ⟨front, rest, ht⟩ := List.append_of_mem hf
    refine ⟨behind front, ?_, front, ⟨field :: rest, ht.symm⟩, rfl⟩
    rw [Table.entryOf?, find_of_split htags h ht, find_of_split htags placed_start ht]
  · have hne : ∀ other ∈ table.fields, other.tag ≠ tag := fun other ho heq => hex ⟨other, ho, heq⟩
    obtain ⟨after, hr, hplaced⟩ := findWithin_absent hne h table.fields.length
    obtain ⟨_, hstart, -⟩ := findWithin_absent hne placed_start table.fields.length
    exact ⟨after, by rw [Table.entryOf?, find, find, hr, hstart], hplaced⟩

/-- A field of the table is found under its tag. -/
theorem entryOf?_of_mem (htags : table.fields.Pairwise (·.tag ≠ ·.tag)) (hf : field ∈ table.fields) :
    ∃ entry, table.entryOf? field.tag = some entry ∧ entry.field = field := by
  obtain ⟨front, rest, ht⟩ := List.append_of_mem hf
  exact ⟨(behind front).entry field, by rw [Table.entryOf?, find_of_split htags placed_start ht], rfl⟩

/-- What a lookup finds is a field of the table. -/
theorem mem_of_entryOf? {entry : Entry Ref} (h : table.entryOf? tag = some entry) :
    entry.field ∈ table.fields :=
  mem_of_findWithin (Prod.ext h rfl)

theorem tag_of_findWithin {after : Cursor} {entry : Entry Ref}
    (h : cursor.findWithin table tag places = (some entry, after)) : entry.field.tag = tag := by
  induction places generalizing cursor with
  | zero => simp [findWithin] at h
  | succ places ih =>
    simp only [findWithin] at h
    split at h
    · simp at h
    · split at h
      · next hfield =>
        cases h
        exact hfield
      · exact ih h

/-- A number finds the field with this tag. -/
theorem entryOf?_field_iff (htags : table.fields.Pairwise (·.tag ≠ ·.tag)) :
    (table.entryOf? tag).map (·.field) = some field ↔ field ∈ table.fields ∧ field.tag = tag := by
  constructor
  · intro h
    obtain ⟨entry, he, rfl⟩ := Option.map_eq_some_iff.mp h
    exact ⟨mem_of_entryOf? he, tag_of_findWithin (Prod.ext he rfl)⟩
  · rintro ⟨hf, rfl⟩
    obtain ⟨entry, he, rfl⟩ := entryOf?_of_mem htags hf
    rw [he]
    rfl

-- ---------------------------------------------------------------------------
-- Entries
-- ---------------------------------------------------------------------------

theorem mem_entriesFrom {fields : List (Field Ref)} {entry : Entry Ref} :
    entry ∈ Table.entriesFrom cursor fields ↔ ∃ front rest, fields = front ++ entry.field :: rest ∧
      entry = (front.foldl step cursor).entry entry.field := by
  constructor
  · intro he
    induction fields generalizing cursor with
    | nil => cases he
    | cons first fields ih =>
      rcases List.mem_cons.mp he with rfl | he
      · exact ⟨[], fields, rfl, rfl⟩
      · obtain ⟨front, rest, hsplit, hentry⟩ := ih he
        exact ⟨first :: front, rest, congrArg (first :: ·) hsplit, hentry⟩
  · rintro ⟨front, rest, rfl, hentry⟩
    induction front generalizing cursor with
    | nil =>
      rw [hentry]
      exact List.mem_cons_self
    | cons first front ih => exact List.mem_cons_of_mem _ (ih hentry)

theorem field_mem_of_entriesFrom {fields : List (Field Ref)} {entry : Entry Ref}
    (he : entry ∈ Table.entriesFrom cursor fields) : entry.field ∈ fields := by
  obtain ⟨front, rest, hsplit, -⟩ := mem_entriesFrom.mp he
  rw [hsplit]
  exact List.mem_append_cons_self

theorem map_field_entriesFrom (cursor : Cursor) (fields : List (Field Ref)) :
    (Table.entriesFrom cursor fields).map (·.field) = fields := by
  induction fields generalizing cursor with
  | nil => rfl
  | cons first fields ih => rw [Table.entriesFrom, List.map_cons, ih, field_entry]

/-- The entries of a table are its fields, in their order. -/
theorem map_field_entries (table : Table Ref) : table.entries.map (·.field) = table.fields :=
  map_field_entriesFrom start table.fields

/-- The entries of a table are what its lookups find. -/
theorem mem_entries_iff (htags : table.fields.Pairwise (·.tag ≠ ·.tag)) {entry : Entry Ref} :
    entry ∈ table.entries ↔ table.entryOf? entry.field.tag = some entry := by
  constructor
  · intro he
    obtain ⟨front, rest, hsplit, hentry⟩ := mem_entriesFrom.mp he
    rw [Table.entryOf?, find_of_split htags placed_start hsplit]
    exact congrArg some hentry.symm
  · intro he
    obtain ⟨front, rest, hsplit⟩ := List.append_of_mem (mem_of_entryOf? he)
    rw [Table.entryOf?, find_of_split htags placed_start hsplit] at he
    exact mem_entriesFrom.mpr ⟨front, rest, hsplit, (Option.some.inj he).symm⟩

/-- The required fields are counted from where the cursor stands. -/
theorem requiredIndex_bounds {fields : List (Field Ref)} {entry : Entry Ref} {index : Nat}
    (he : entry ∈ Table.entriesFrom cursor fields) (hi : entry.requiredIndex? = some index) :
    cursor.requiredBefore ≤ index ∧ index < cursor.requiredBefore + fields.countP Field.isRequired := by
  induction fields generalizing cursor with
  | nil => cases he
  | cons first fields ih =>
    rw [List.countP_cons]
    rcases List.mem_cons.mp he with rfl | he
    · cases hr : first.isRequired <;> simp [entry, hr] at hi ⊢
      omega
    · have := ih he
      cases hr : first.isRequired <;> simp [step, hr] at this ⊢ <;> omega

theorem requiredIndex_isSome {fields : List (Field Ref)} {entry : Entry Ref}
    (he : entry ∈ Table.entriesFrom cursor fields) (hr : entry.field.isRequired = true) :
    ∃ index, entry.requiredIndex? = some index := by
  obtain ⟨front, rest, -, hentry⟩ := mem_entriesFrom.mp he
  rw [hentry]
  exact ⟨_, if_pos hr⟩

theorem requiredIndex_ne {first : Field Ref} {rest : List (Field Ref)} {other : Entry Ref} {index : Nat}
    (ho : other ∈ Table.entriesFrom (cursor.step first) rest) (hi : other.requiredIndex? = some index) :
    (cursor.entry first).requiredIndex? ≠ some index := by
  intro hfirst
  have hbounds := (requiredIndex_bounds ho hi).1
  cases hr : first.isRequired <;> simp [entry, step, hr] at hfirst hbounds
  omega

/-- No two required fields have the same count. -/
theorem eq_of_requiredIndex {fields : List (Field Ref)} {entry other : Entry Ref} {index : Nat}
    (he : entry ∈ Table.entriesFrom cursor fields) (ho : other ∈ Table.entriesFrom cursor fields)
    (hi : entry.requiredIndex? = some index) (hi' : other.requiredIndex? = some index) :
    entry = other := by
  induction fields generalizing cursor with
  | nil => cases he
  | cons first fields ih =>
    rcases List.mem_cons.mp he with rfl | he <;> rcases List.mem_cons.mp ho with rfl | ho
    · rfl
    · exact absurd hi (requiredIndex_ne ho hi')
    · exact absurd hi' (requiredIndex_ne he hi)
    · exact ih he ho

end BlockCodec.Cursor

-- ---------------------------------------------------------------------------
-- Lookups of views
-- ---------------------------------------------------------------------------

namespace BlockCodec.Table

variable {Ref : Type} {table : Table Ref} {field : Field Ref} {tag : Nat}

theorem lookUp_eq_ok (htags : table.fields.Pairwise (·.tag ≠ ·.tag)) :
    table.lookUp tag = .ok field ↔ field ∈ table.fields ∧ field.tag = tag := by
  rw [← Cursor.entryOf?_field_iff htags, lookUp]
  cases table.entryOf? tag <;> simp

theorem lookUp_of_mem (htags : table.fields.Pairwise (·.tag ≠ ·.tag)) (hf : field ∈ table.fields) :
    table.lookUp field.tag = .ok field :=
  (lookUp_eq_ok htags).mpr ⟨hf, rfl⟩

theorem mem_of_lookUp (h : table.lookUp tag = .ok field) : field ∈ table.fields ∧ field.tag = tag := by
  unfold lookUp at h
  split at h
  · next entry he =>
    cases h
    exact ⟨Cursor.mem_of_entryOf? he, Cursor.tag_of_findWithin (Prod.ext he rfl)⟩
  · cases h

end BlockCodec.Table
