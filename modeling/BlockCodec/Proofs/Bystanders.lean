import BlockCodec.Proofs.Walking

/-!
# Handlers as bystanders

Where no field goes through a handler, decoding neither looks at the handlers nor changes them: it is
`Aloof` from them, so runs with other handlers, of whatever type, do the same to the input and to the block.
The rows of handled fields may then be left out of the table (`Table.stripped`), for initialisation passes
them by and no group has one among its members.
-/

namespace BlockCodec

variable {Ref : Type}

-- ---------------------------------------------------------------------------
-- Tables without handled fields
-- ---------------------------------------------------------------------------

/-- The table without the rows of its handled fields. -/
def Table.stripped (table : Table Ref) : Table Ref :=
  { table with fields := table.fields.filter (!·.isHandled) }

def Schema.stripped (schema : Schema Ref) : Schema Ref := fun ref => (schema ref).stripped

namespace Table

variable {table : Table Ref} {field : Field Ref}

theorem mem_stripped : field ∈ table.stripped.fields ↔ field ∈ table.fields ∧ field.isHandled = false := by
  simp [stripped]

theorem unhandled_stripped (table : Table Ref) : table.stripped.Unhandled :=
  fun _ hf => (mem_stripped.mp hf).2

theorem Unhandled.stripped_eq (hu : table.Unhandled) : table.stripped = table := by
  have hfields : table.fields.filter (!·.isHandled) = table.fields :=
    List.filter_eq_self.mpr fun field hf => by simp [hu field hf]
  rw [stripped, hfields]

theorem nested_stripped (table : Table Ref) : table.stripped.nested = table.nested := by
  rw [nested, nested, stripped, List.filterMap_filter]
  refine List.filterMap_congr fun field _ => ?_
  cases hh : field.isHandled with
  | false => rfl
  | true =>
    have ha : field.allocation = .handler := by simpa [Field.isHandled] using hh
    simp [ha]

/-- Handled fields are members of no group. -/
def Ungrouped (table : Table Ref) : Prop :=
  ∀ field ∈ table.fields, field.isHandled = true → field.group? = none

theorem Unhandled.ungrouped (hu : table.Unhandled) : table.Ungrouped :=
  fun field hf hh => by simp [hu field hf] at hh

theorem Ungrouped.members_stripped (h : table.Ungrouped) (group : Nat) :
    table.stripped.members group = table.members group := by
  rw [members, members, stripped, List.filter_filter]
  refine List.filter_congr fun field hf => ?_
  cases hh : field.isHandled with
  | false => simp
  | true => simp [h field hf hh]

end Table

namespace Schema

variable {schema : Schema Ref} {table : Table Ref} {ref inner : Ref}

theorem below_stripped : schema.stripped.Below ref inner ↔ schema.Below ref inner := by
  constructor
  · intro h
    induction h with
    | refl => exact .refl _
    | step hn _ ih => exact .step (Table.nested_stripped _ ▸ hn) ih
  · intro h
    induction h with
    | refl => exact .refl _
    | @step ref next last hn _ ih =>
      have hstripped : next ∈ (schema.stripped ref).nested := (schema ref).nested_stripped ▸ hn
      exact .step hstripped ih

/-- Initialisation passes handled fields by. -/
theorem initialiseWithin_stripped (schema : Schema Ref) (levels : Nat) :
    schema.stripped.initialiseWithin levels = schema.initialiseWithin levels := by
  have hrows : ∀ (nested : Ref → Edit Unit) (fields : List (Field Ref)),
      (fields.filter (!·.isHandled)).forM (fun field => if field.isHandled then pure () else field.reset nested) =
        fields.forM fun field => if field.isHandled then pure () else field.reset nested := by
    intro nested fields
    induction fields with
    | nil => rfl
    | cons field rest ih =>
      cases hh : field.isHandled with
      | true =>
        rw [List.filter_cons_of_neg (by simp [hh]), ih, List.forM, if_pos hh, pure_bind]
      | false =>
        rw [List.filter_cons_of_pos (by simp [hh]), List.forM, List.forM, ih]
  induction levels with
  | zero => rfl
  | succ levels ih =>
    funext ref
    show (schema ref).stripped.reset (schema.stripped.initialiseWithin levels) = _
    rw [ih, Table.reset, Table.stripped, hrows]
    rfl

theorem activate_stripped (h : table.Ungrouped) (field : Field Ref) :
    schema.stripped.activate table.stripped field = schema.activate table field := by
  unfold activate initialiseNested
  simp only [initialiseWithin_stripped, h.members_stripped]

end Schema

-- ---------------------------------------------------------------------------
-- Steps
-- ---------------------------------------------------------------------------

namespace Decode

variable {σ S T α β : Type}

/-- The steps do the same to the input and to the block, and what they have for handlers stays as it is and
makes no difference. -/
def Aloof (a : Decode σ S α) (b : Decode σ T α) : Prop :=
  ∀ input block handlers others, ∃ outcome input' block',
    a.result ⟨input, block, handlers⟩ = (outcome, ⟨input', block', handlers⟩) ∧
      b.result ⟨input, block, others⟩ = (outcome, ⟨input', block', others⟩)

variable {a : Decode σ S α} {b : Decode σ T α} {field : Field Ref} {span : Span}

theorem aloof_pure (value : α) : Aloof (pure value : Decode σ S α) (pure value : Decode σ T α) :=
  fun _ _ _ _ => ⟨_, _, _, rfl, rfl⟩

theorem aloof_throw (failure : CodecError) :
    Aloof (throw failure : Decode σ S α) (throw failure : Decode σ T α) :=
  fun _ _ _ _ => ⟨_, _, _, rfl, rfl⟩

theorem Aloof.bind (h : Aloof a b) {next : α → Decode σ S β} {next' : α → Decode σ T β}
    (hn : ∀ value, Aloof (next value) (next' value)) : Aloof (a >>= next) (b >>= next') := by
  intro input block handlers others
  obtain ⟨outcome, input', block', ha, hb⟩ := h input block handlers others
  cases outcome with
  | error failure => exact ⟨_, _, _, Step.result_bind_error ha, Step.result_bind_error hb⟩
  | ok value =>
    rw [Step.result_bind_ok ha, Step.result_bind_ok hb]
    exact hn value input' block' handlers others

theorem aloof_ite {c : Prop} [Decidable c] {no : Decode σ S α} {no' : Decode σ T α} (hy : c → Aloof a b)
    (hn : ¬c → Aloof no no') : Aloof (if c then a else no) (if c then b else no') := by
  split
  · next h => exact hy h
  · next h => exact hn h

theorem aloof_unless {c : Prop} [Decidable c] {failure : CodecError} {next : Unit → Decode σ S α}
    {next' : Unit → Decode σ T α} (hn : ¬c → Aloof (next ()) (next' ())) :
    Aloof (if c then (throw failure : Decode σ S Unit) >>= next else next ())
      (if c then (throw failure : Decode σ T Unit) >>= next' else next' ()) :=
  aloof_ite (fun _ => aloof_throw failure) hn

/-- Everything but the handlers may be looked at. -/
theorem aloof_get {next : Decoding σ S → Decode σ S α} {next' : Decoding σ T → Decode σ T α}
    (h : ∀ input block handlers others, Aloof (next ⟨input, block, handlers⟩) (next' ⟨input, block, others⟩)) :
    Aloof (get >>= next) (get >>= next') := by
  intro input block handlers others
  rw [Step.result_bind_ok (Step.result_get _), Step.result_bind_ok (Step.result_get _)]
  exact h input block handlers others input block handlers others

theorem aloof_onInput (step : Step (Input σ) CodecError α) :
    Aloof (onInput step : Decode σ S α) (onInput step : Decode σ T α) :=
  fun _ _ _ _ => ⟨_, _, _, rfl, rfl⟩

theorem aloof_onBlock (edit : Edit α) : Aloof (onBlock edit : Decode σ S α) (onBlock edit : Decode σ T α) :=
  fun _ _ _ _ => ⟨_, _, _, rfl, rfl⟩

theorem Aloof.within (h : Aloof a b) (length : Nat) : Aloof (within length a) (within length b) := by
  intro input block handlers others
  simp only [Decode.within, Step.result_ofRun]
  cases input.narrow length with
  | error failure => exact ⟨_, _, _, rfl, rfl⟩
  | ok inner =>
    obtain ⟨outcome, input', block', ha, hb⟩ := h inner block handlers others
    simp only [ha, hb]
    exact ⟨_, _, _, rfl, rfl⟩

theorem Aloof.inside (h : Aloof a b) : Aloof (inside field span a) (inside field span b) := by
  intro input block handlers others
  simp only [Decode.inside, Step.result_ofRun]
  cases block.slice? span with
  | none => exact ⟨_, _, _, rfl, rfl⟩
  | some stored =>
    obtain ⟨outcome, input', block', ha, hb⟩ := h input stored handlers others
    simp only [ha, hb]
    exact ⟨_, _, _, rfl, rfl⟩

variable [Source σ] {schema : Schema Ref} {config : DecodeConfig} {table : Table Ref} {type : WireType}
  {nested : Ref → Decode σ S Unit} {nested' : Ref → Decode σ T Unit}

theorem aloof_fill (start count : Nat) :
    Aloof (fill start count : Decode σ S Unit) (fill start count : Decode σ T Unit) := by
  intro input block handlers others
  simp only [fill, Step.result_ofRun]
  cases (input.deliver count).1.failure? <;> exact ⟨_, _, _, rfl, rfl⟩

theorem aloof_text (config : DecodeConfig) (field : Field Ref) :
    Aloof (text config field : Decode σ S Unit) (text config field : Decode σ T Unit) := by
  refine (aloof_onInput _).bind fun length => aloof_get fun _ _ _ _ => aloof_unless fun _ => ?_
  refine (aloof_fill 0 length).bind fun _ => (aloof_onBlock _).bind fun _ => aloof_get fun _ _ _ _ => ?_
  exact aloof_ite (fun _ => aloof_throw _) fun _ => aloof_pure ()

theorem aloof_payload (field : Field Ref) :
    Aloof (payload field : Decode σ S Unit) (payload field : Decode σ T Unit) := by
  refine (aloof_onInput _).bind fun length => aloof_get fun _ _ _ _ => ?_
  refine aloof_unless fun _ => aloof_unless fun _ => ?_
  exact (aloof_fill 4 length).bind fun _ => aloof_onBlock _

/-- The messages of the field are decoded alike. -/
def NestsAloof (nested : Ref → Decode σ S Unit) (nested' : Ref → Decode σ T Unit) (field : Field Ref) : Prop :=
  ∀ inner, field.kind = .message inner → Aloof (nested inner) (nested' inner)

theorem aloof_value (hn : NestsAloof nested nested' field) :
    Aloof (value config nested field) (value config nested' field) := by
  unfold value
  split
  · exact aloof_text config field
  · exact aloof_payload field
  · next inner hk =>
    refine (aloof_onInput _).bind fun length => Aloof.within ((hn inner hk).bind fun _ => ?_) length
    exact aloof_get fun _ _ _ _ => aloof_ite (fun _ => aloof_throw _) fun _ => aloof_pure ()
  · exact (aloof_onInput _).bind fun _ => aloof_onBlock _

omit [Source σ] in
theorem aloof_nextElement (field : Field Ref) :
    Aloof (nextElement field : Decode σ S Nat) (nextElement field : Decode σ T Nat) :=
  (aloof_onBlock _).bind fun _ => aloof_unless fun _ => aloof_pure _

theorem aloof_packedElements (field : Field Ref) (room : Nat) :
    Aloof (packedElements field room : Decode σ S Unit) (packedElements field room : Decode σ T Unit) := by
  induction room with
  | zero => exact aloof_pure ()
  | succ room ih =>
    refine aloof_get fun _ _ _ _ => aloof_ite (fun _ => aloof_pure ()) fun _ => ?_
    refine (aloof_nextElement field).bind fun _ => (aloof_onInput _).bind fun _ => ?_
    exact (aloof_onBlock _).bind fun _ => (aloof_onBlock _).bind fun _ => ih

theorem aloof_element (hn : NestsAloof nested nested' field) :
    Aloof (element schema config nested field) (element schema.stripped config nested' field) := by
  have hvalue : Aloof (value config nested field) (value config nested' field) := aloof_value hn
  refine (aloof_nextElement field).bind fun _ => Aloof.bind (Aloof.inside ?_) fun _ => aloof_onBlock _
  unfold Schema.initialise
  rw [Schema.initialiseWithin_stripped]
  split
  · exact (aloof_onBlock _).bind fun _ => hvalue
  · exact hvalue

/-- The rows of handled fields have no part in what is done to a field in the block. -/
theorem aloof_stored (hg : table.Ungrouped) (hn : NestsAloof nested nested' field) :
    Aloof (stored schema config nested table field type)
      (stored schema.stripped config nested' table.stripped field type) := by
  have hinside : Aloof (Decode.inside field field.data (value config nested field))
      (Decode.inside field field.data (value config nested' field)) := (aloof_value hn).inside
  unfold stored
  rw [Schema.activate_stripped hg]
  split
  · refine aloof_ite (fun _ => (aloof_onInput _).bind fun length => ?_) fun _ => aloof_element hn
    exact (aloof_packedElements field length).within length
  · refine (aloof_onBlock _).bind fun _ => aloof_ite (fun _ => ?_) fun _ => hinside
    exact (aloof_onBlock _).bind fun _ => hinside
  · exact hinside.bind fun _ => aloof_ite (fun _ => aloof_onBlock _) fun _ => aloof_pure ()
  · exact hinside

-- ---------------------------------------------------------------------------
-- Messages
-- ---------------------------------------------------------------------------

variable [Handler Ref S] [Handler Ref T] {depth : Nat}

theorem aloof_record (hu : table.Unhandled) (hn : ∀ field ∈ table.fields, NestsAloof nested nested' field)
    {number : Nat} {found : Option (Entry Ref)} (hf : ∀ entry, found = some entry → entry.field ∈ table.fields) :
    Aloof (record schema config nested depth table type number found)
      (record schema.stripped config nested' depth table type number found) := by
  have hskip : Aloof (do skipValue number type; pure none : Decode σ S (Option Nat))
      (do skipValue number type; pure none : Decode σ T (Option Nat)) :=
    (aloof_onInput _).bind fun _ => aloof_pure none
  unfold record
  split
  · exact aloof_unless fun _ => hskip
  · next entry =>
    have hmem := hf entry rfl
    have hstored : Aloof (stored schema config nested table entry.field type)
        (stored schema.stripped config nested' table entry.field type) := by
      have h : Aloof (stored schema config nested table entry.field type)
          (stored schema.stripped config nested' table.stripped entry.field type) :=
        aloof_stored hu.ungrouped (hn _ hmem)
      rwa [hu.stripped_eq] at h
    refine aloof_ite (fun _ => ?_) fun _ => aloof_unless fun _ => hskip
    simp only [hu _ hmem, Bool.false_eq_true, if_false]
    exact hstored.bind fun _ => aloof_pure _

theorem aloof_walk (hu : table.Unhandled) (hn : ∀ field ∈ table.fields, NestsAloof nested nested' field)
    (room : Nat) (cursor : Cursor) (seen : List Nat) :
    Aloof (walk schema config nested depth table room cursor seen)
      (walk schema.stripped config nested' depth table room cursor seen) := by
  induction room generalizing cursor seen with
  | zero => exact aloof_pure seen
  | succ room ih =>
    refine (aloof_onInput _).bind fun header => ?_
    match header with
    | none => exact aloof_pure seen
    | some (number, type) =>
      refine (aloof_record hu hn fun entry hentry => ?_).bind fun _ => ih _ _
      exact Cursor.mem_of_findWithin (Prod.ext hentry rfl)

/-- Messages without handled fields are decoded alike whatever the handlers are. -/
theorem aloof_messageWithin (schema : Schema Ref) (config : DecodeConfig) (levels : Nat) {ref : Ref}
    (hu : schema.Throughout Table.Unhandled ref) :
    Aloof (messageWithin schema config levels ref : Decode σ S Unit)
      (messageWithin schema.stripped config levels ref : Decode σ T Unit) := by
  induction levels generalizing ref with
  | zero => exact aloof_throw _
  | succ levels ih =>
    have hsame : schema.stripped ref = schema ref := hu.here.stripped_eq
    unfold messageWithin
    simp only [fields_eq_walk, hsame]
    refine (aloof_onBlock _).bind fun _ => aloof_get fun _ _ _ _ => Aloof.bind ?_ fun seen => ?_
    · refine aloof_walk hu.here (fun field hf inner hk => ih ?_) _ _ _
      exact hu.nested (Table.mem_nested hf (hu.here field hf) hk)
    · unfold checkRequired
      split
      · exact aloof_pure ()
      · exact aloof_throw _

end Decode

end BlockCodec
