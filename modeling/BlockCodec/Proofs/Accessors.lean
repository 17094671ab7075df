import BlockCodec.Proofs.Looks
import BlockCodec.Proofs.Refusals

/-!
# What accessors are refused for

An accessor of a view asks for the field with a tag and for a field of some form. `Table.Answers` says how
it is answered: it is refused by name where there is no such field or the field has another form, and
otherwise blames neither the table nor itself. `accessors_answer` says that all accessors of messages of
valid tables are answered like that, but for one. To set the presence of a handled field that has a flag is
not refused, and the checks do not look at such a flag, so it may lie outside the block:
`setPresent_blames_table`.
-/

namespace BlockCodec

variable {Ref α β : Type} {schema : Schema Ref} {table : Table Ref} {ref inner : Ref} {field : Field Ref}
  {block stored : Bytes} {levels size : Nat} {failure : CodecError}

/-- The failures that blame the table or the accessor, whatever the block holds. -/
def CodecError.BlamesAccess : CodecError → Prop
  | .invalidDescriptor .. | .noSuchField .. | .kindMismatch .. => True
  | _ => False

theorem CodecError.BlamesAccess.of_class (h : failure.errorClass = .invalidDescriptor) :
    failure.BlamesAccess := by
  cases failure with
  | invalidDescriptor => trivial
  | wire cause => cases cause <;> cases h
  | _ => cases h

/-- The outcome blames neither the table nor the accessor. -/
def Fair (outcome : Except CodecError α) : Prop :=
  ∀ failure, outcome = .error failure → ¬failure.BlamesAccess

/-- How an accessor is answered that asks for the field with a tag and for a field of some form. -/
structure Table.Answers (table : Table Ref) (tag : Nat) (Suits : Field Ref → Prop)
    (outcome : Except CodecError α) : Prop where
  absent : (∀ field ∈ table.fields, field.tag ≠ tag) → outcome = .error (.noSuchField table.name tag)
  unsuited : ∀ field ∈ table.fields, field.tag = tag → ¬Suits field →
    ∃ kind, outcome = .error (.kindMismatch field.name kind)
  suited : ∀ field ∈ table.fields, field.tag = tag → Suits field → Fair outcome

/-- One use of a view that reads the field with a tag. -/
inductive Query
  | has (tag : Nat)
  | get (tag : Nat)
  | getText (tag : Nat)
  | getBytes (tag : Nat)
  | submessage (tag : Nat)
  | count (tag : Nat)
  | getAt (tag index : Nat)
  | getTextAt (tag index : Nat)
  | getBytesAt (tag index : Nat)
  | element (tag index : Nat)

namespace Query

/-- Whether the view answers, and what it fails with. -/
def ask (schema : Schema Ref) (view : View Ref) : Query → Except CodecError Unit
  | .has tag => (view.has tag).map fun _ => ()
  | .get tag => (view.get tag).map fun _ => ()
  | .getText tag => (view.getText tag).map fun _ => ()
  | .getBytes tag => (view.getBytes tag).map fun _ => ()
  | .submessage tag => (view.submessage schema tag).map fun _ => ()
  | .count tag => (view.count tag).map fun _ => ()
  | .getAt tag index => (view.getAt tag index).map fun _ => ()
  | .getTextAt tag index => (view.getTextAt tag index).map fun _ => ()
  | .getBytesAt tag index => (view.getBytesAt tag index).map fun _ => ()
  | .element tag index => (view.element schema tag index).map fun _ => ()

def tag : Query → Nat
  | .has tag | .get tag | .getText tag | .getBytes tag | .submessage tag | .count tag => tag
  | .getAt tag _ | .getTextAt tag _ | .getBytesAt tag _ | .element tag _ => tag

end Query

namespace Field

/-- The field holds one value in the block. -/
def IsSingle (field : Field Ref) : Prop := field.isHandled = false ∧ field.isRepeated = false

/-- The field is an array in the block. -/
def IsArray (field : Field Ref) : Prop := field.isHandled = false ∧ field.isRepeated = true

/-- The field is marked as present by itself: by a flag or by the active tag of its group. -/
def Flagged (field : Field Ref) : Prop :=
  field.multiplicity = .optional ∧ field.sizeOffset.isSome ∨ field.group?.isSome

end Field

/-- The form of the field that a query asks for. -/
def Query.Suits : Query → Field Ref → Prop
  | .has _, _ | .count _, _ => True
  | .get _, field => field.IsSingle ∧ field.kind.isScalar
  | .getText _, field => field.IsSingle ∧ field.kind = .text
  | .getBytes _, field => field.IsSingle ∧ field.kind = .bytes
  | .submessage _, field => field.IsSingle ∧ ∃ inner, field.kind = .message inner
  | .getAt .., field => field.IsArray ∧ field.kind.isScalar
  | .getTextAt .., field => field.IsArray ∧ field.kind = .text
  | .getBytesAt .., field => field.IsArray ∧ field.kind = .bytes
  | .element .., field => field.IsArray ∧ ∃ inner, field.kind = .message inner

namespace Action

/-- The tag of the field that is asked for; a message is initialised as a whole. -/
def tag? : Action → Option Nat
  | .set tag _ | .setText tag _ | .setBytes tag _ | .setPresent tag _ | .push tag _ => some tag
  | .pushText tag _ | .pushBytes tag _ | .pushMessage tag _ | .submessage tag _ => some tag
  | .element tag _ _ | .bind tag _ | .clear tag => some tag
  | .init => none

/-- The form of the field that an action asks for. -/
def Suits : Action → Field Ref → Prop
  | .set .., field => field.IsSingle ∧ field.kind.isScalar
  | .setText .., field => field.IsSingle ∧ field.kind = .text
  | .setBytes .., field => field.IsSingle ∧ field.kind = .bytes
  | .submessage .., field => field.IsSingle ∧ ∃ inner, field.kind = .message inner
  | .push .., field => field.IsArray ∧ field.kind.isScalar
  | .pushText .., field => field.IsArray ∧ field.kind = .text
  | .pushBytes .., field => field.IsArray ∧ field.kind = .bytes
  | .pushMessage .., field | .element .., field => field.IsArray ∧ ∃ inner, field.kind = .message inner
  | .setPresent .., field => field.isHandled = false ∧ field.Flagged
  | .bind .., field => field.isHandled = true
  | .clear _, _ | .init, _ => True

/-- The action sets the presence of a handled field that has a flag, at the offset. -/
def Strays (table : Table Ref) (action : Action) (field : Field Ref) (offset : Nat) : Prop :=
  ∃ tag present, action = .setPresent tag present ∧ field ∈ table.fields ∧ field.tag = tag ∧
    field.isHandled = true ∧ field.multiplicity = .optional ∧ field.sizeOffset = some offset

end Action

-- ---------------------------------------------------------------------------
-- Fair outcomes
-- ---------------------------------------------------------------------------

theorem fair_ok (value : α) : Fair (.ok value : Except CodecError α) := nofun

theorem Fair.bind {outcome : Except CodecError α} {next : α → Except CodecError β} (h : Fair outcome)
    (hn : ∀ value, outcome = .ok value → Fair (next value)) : Fair (outcome >>= next) := by
  cases ho : outcome with
  | ok value => exact hn value ho
  | error failure =>
    rintro _ ⟨⟩
    exact h failure ho

theorem Fair.of_ok {outcome : Except CodecError α} {next : α → Except CodecError β} {value : α}
    (ho : outcome = .ok value) (hn : Fair (next value)) : Fair (outcome >>= next) := by
  rwa [ho, bind_ok]

theorem fair_result_iff {edit : Edit α} :
    Fair (edit.result block).1 ↔
      edit.Ends block (fun _ _ => True) fun failure _ => ¬failure.BlamesAccess := by
  unfold Fair Step.Ends
  split <;> simp_all

namespace Table.Answers

variable {tag : Nat} {Suits : Field Ref → Prop} {outcome : Except CodecError α}

theorem map (h : table.Answers tag Suits outcome) (f : α → β) :
    table.Answers tag Suits (outcome.map f) where
  absent hne := by rw [h.absent hne]; rfl
  unsuited field hf ht hs := by
    obtain ⟨kind, hk⟩ := h.unsuited field hf ht hs
    exact ⟨kind, by rw [hk]; rfl⟩
  suited field hf ht hs failure he := by
    cases ho : outcome with
    | ok value => simp [ho, Except.map] at he
    | error cause =>
      simp only [ho, Except.map, Except.error.injEq] at he
      exact he ▸ h.suited field hf ht hs cause ho

/-- However an accessor is answered, the table is not blamed. -/
theorem class_ne (h : table.Answers tag Suits outcome) (he : outcome = .error failure) :
    failure.errorClass ≠ .invalidDescriptor := by
  by_cases hf : ∃ field ∈ table.fields, field.tag = tag
  · obtain ⟨field, hf, ht⟩ := hf
    by_cases hs : Suits field
    · exact fun hc => h.suited field hf ht hs failure he (.of_class hc)
    · obtain ⟨kind, hk⟩ := h.unsuited field hf ht hs
      rw [hk] at he
      cases he
      nofun
  · rw [h.absent fun field hm ht => hf ⟨field, hm, ht⟩] at he
    cases he
    nofun

end Table.Answers

-- ---------------------------------------------------------------------------
-- What is read of a field
-- ---------------------------------------------------------------------------

namespace Field

theorem fair_text (field : Field Ref) (stored : Bytes) : Fair (field.text stored) := by
  refine Fair.bind (fun failure he => ?_) fun bytes _ => ?_
  · unfold textBytes at he
    split at he <;> cases he
    exact id
  · split
    · exact fair_ok _
    · rintro _ ⟨⟩
      exact id

/-- Storage of bytes has room for the length in front. -/
theorem fair_payload (h : 4 ≤ stored.length) : Fair (field.payload stored) := by
  intro failure he
  rw [payload, if_neg (by omega)] at he
  simp only at he
  split at he <;> cases he
  exact id

theorem place_of_elementSpan (hm : field.multiplicity = .repeated) {index : Nat} {span : Span}
    (h : field.elementSpan index block = .ok span) : field.Place .loose block span := by
  obtain ⟨count, hcount, hlt, rfl⟩ := elementSpan_eq_ok.mp h
  exact loose_element hm (Nat.lt_of_lt_of_le hlt (count_eq_ok.mp hcount).2)

theorem Suits.four_le (h : field.Suits schema) (hk : field.kind = .bytes) : 4 ≤ field.dataSize := by
  simpa only [Suits, hk] using h

section

variable (h : field.Laid schema size) (hs : size ≤ block.length)

include h hs

theorem Laid.isActive_ok : ∃ active, field.isActive block = .ok active := by
  cases hm : field.multiplicity with
  | required | optional | «repeated» => exact ⟨true, by simp [isActive, hm]⟩
  | oneof group =>
    have hg : field.group?.isSome := by simp [group?, hm]
    obtain ⟨_, _, -, -, -, hslot⟩ := h.slot_ok hs (h.slot_isSome (.inr hg))
    exact ⟨_, isActive_of_slot hg hslot⟩

theorem Laid.load_single (hr : field.isRepeated = false) :
    ∃ stored, field.load field.data block = .ok stored ∧ stored.length = field.dataSize := by
  have hw := h.storage_within hs
  rw [storage_eq_data (by simpa [isRepeated] using hr)] at hw
  obtain ⟨stored, hst⟩ := Bytes.slice_isSome hw
  exact ⟨stored, by rw [load, hst], (Bytes.length_slice hst).trans h.length_data⟩

theorem Laid.fair_isPresent : Fair (field.isPresent block) := by
  unfold isPresent
  cases hm : field.multiplicity with
  | required => exact fair_ok _
  | «repeated» =>
    obtain ⟨_, _, -, -, -, hslot⟩ := h.slot_ok hs (h.slot_isSome (.inl (by simp [isRepeated, hm])))
    exact Fair.of_ok hslot (fair_ok _)
  | oneof group =>
    obtain ⟨active, hactive⟩ := h.isActive_ok hs
    simp only [hactive]
    exact fair_ok _
  | optional =>
    simp only
    split
    · next ho =>
      obtain ⟨_, _, -, -, -, hslot⟩ := h.slot_ok hs ho
      exact Fair.of_ok hslot (fair_ok _)
    · obtain ⟨stored, hload, hl⟩ := h.load_single hs (by simp [isRepeated, hm])
      refine Fair.of_ok hload ?_
      unfold isNonzero
      split
      · next hk => exact (fair_payload (by have := h.suits.four_le hk; omega)).bind fun _ _ => fair_ok _
      · exact fair_ok _
      · exact fair_ok _

theorem Laid.fair_count (hr : field.isRepeated = true) : Fair (field.count block) := by
  obtain ⟨_, _, -, -, -, hslot⟩ := h.slot_ok hs (h.slot_isSome (.inl hr))
  intro failure he
  rw [count_error hslot he]
  exact id

/-- The value of a single field is read if it is active. -/
theorem Laid.fair_single (hr : field.isRepeated = false) {read : Bytes → Except CodecError α}
    {absent : Except CodecError α} (hread : ∀ stored, stored.length = field.dataSize → Fair (read stored))
    (habsent : Fair absent) :
    Fair (field.isActive block >>= fun active =>
      if active = true then field.load field.data block >>= read else absent) := by
  obtain ⟨active, hactive⟩ := h.isActive_ok hs
  obtain ⟨stored, hload, hl⟩ := h.load_single hs hr
  refine Fair.of_ok hactive ?_
  split
  · exact Fair.of_ok hload (hread stored hl)
  · exact habsent

theorem Laid.fair_elementSpan (hr : field.isRepeated = true) (index : Nat) :
    Fair (field.elementSpan index block) := by
  refine (h.fair_count hs hr).bind fun count _ => ?_
  split
  · rintro _ ⟨⟩
    exact id
  · exact fair_ok _

/-- An element in use is read. -/
theorem Laid.fair_element (hr : field.isRepeated = true) {index : Nat}
    {read : Bytes → Except CodecError α} (hread : ∀ stored, stored.length = field.dataSize → Fair (read stored)) :
    Fair (field.elementSpan index block >>= fun span => field.load span block >>= read) := by
  have hm : field.multiplicity = .repeated := by simpa [isRepeated] using hr
  refine (h.fair_elementSpan hs hr index).bind fun span hspan => ?_
  obtain ⟨stored, -, hl, hload⟩ := Encode.load_place h.toFits hs (place_of_elementSpan hm hspan)
  exact Fair.of_ok hload (hread stored hl)

end

end Field

-- ---------------------------------------------------------------------------
-- Checks
-- ---------------------------------------------------------------------------

/-- The check passes the fields that suit, and says of any other that it is of a wrong kind. -/
def Screens (check : Field Ref → Except CodecError α) (Suits : Field Ref → Prop) : Prop :=
  ∀ field, (Suits field → ∃ value, check field = .ok value) ∧
    (¬Suits field → ∃ kind, check field = .error (.kindMismatch field.name kind))

theorem screens_single : Screens Field.expectSingle (Field.IsSingle : Field Ref → Prop) := by
  intro field
  unfold Field.expectSingle Field.IsSingle
  cases field.isHandled <;> cases field.isRepeated <;> simp [Field.mismatch]

theorem screens_array : Screens Field.expectArray (Field.IsArray : Field Ref → Prop) := by
  intro field
  unfold Field.expectArray Field.IsArray
  cases field.isHandled <;> cases field.isRepeated <;> simp [Field.mismatch]

theorem screens_scalar : Screens Field.expectScalar fun field : Field Ref => field.kind.isScalar = true := by
  intro field
  unfold Field.expectScalar
  cases hk : field.kind.isScalar <;> simp [Field.mismatch, hk]

theorem screens_text : Screens Field.expectText fun field : Field Ref => field.kind = .text := by
  intro field
  unfold Field.expectText
  cases hk : field.kind <;> simp [Field.mismatch, hk]

theorem screens_bytes : Screens Field.expectBytes fun field : Field Ref => field.kind = .bytes := by
  intro field
  unfold Field.expectBytes
  cases hk : field.kind <;> simp [Field.mismatch, hk]

theorem screens_message :
    Screens Field.expectMessage fun field : Field Ref => ∃ inner, field.kind = .message inner := by
  intro field
  unfold Field.expectMessage
  cases hk : field.kind <;> simp [Field.mismatch, hk]

theorem screens_handled :
    Screens (fun field => if field.isHandled then pure () else field.mismatch field.kind.name)
      fun field : Field Ref => field.isHandled = true := by
  intro field
  cases hh : field.isHandled <;> simp [Field.mismatch, hh, pure, Except.pure]

theorem screens_any : Screens (fun _ : Field Ref => pure ()) fun _ => True :=
  fun _ => ⟨fun _ => ⟨(), rfl⟩, fun h => absurd trivial h⟩

theorem Screens.and {first : Field Ref → Except CodecError Unit} {second : Field Ref → Except CodecError α}
    {First Second : Field Ref → Prop} (h : Screens first First) (h' : Screens second Second) :
    Screens (fun field => first field >>= fun _ => second field) fun field => First field ∧ Second field := by
  intro field
  by_cases hf : First field
  · obtain ⟨⟨⟩, hfirst⟩ := (h field).1 hf
    simpa only [hfirst, bind_ok, hf, true_and] using h' field
  · obtain ⟨kind, hfirst⟩ := (h field).2 hf
    exact ⟨fun hs => absurd hs.1 hf, fun _ => ⟨kind, by simp only [hfirst]; rfl⟩⟩

theorem Table.lookUp_absent {tag : Nat} (h : ∀ field ∈ table.fields, field.tag ≠ tag) :
    table.lookUp tag = .error (.noSuchField table.name tag) := by
  cases hl : table.lookUp tag with
  | ok field => exact absurd (mem_of_lookUp hl).2 (h field (mem_of_lookUp hl).1)
  | error failure =>
    unfold lookUp at hl
    split at hl <;> cases hl
    rfl

-- ---------------------------------------------------------------------------
-- Queries
-- ---------------------------------------------------------------------------

section

variable {tag : Nat} {form : Field Ref → Except CodecError Unit} {kind : Field Ref → Except CodecError α}
  {Form Kind : Field Ref → Prop}

/-- An accessor that checks the form of the field and its kind before it reads. -/
theorem answers_checked (htags : table.fields.Pairwise (·.tag ≠ ·.tag)) (hform : Screens form Form)
    (hkind : Screens kind Kind) {read : Field Ref → α → Except CodecError β}
    (hread : ∀ field ∈ table.fields, Form field → ∀ value, kind field = .ok value →
      Fair (read field value)) :
    table.Answers tag (fun field => Form field ∧ Kind field)
      (table.lookUp tag >>= fun field => form field >>= fun _ => kind field >>= read field) where
  absent hne := by rw [Table.lookUp_absent hne]; rfl
  unsuited field hf ht hn := by
    subst ht
    rw [Table.lookUp_of_mem htags hf, bind_ok]
    by_cases hs : Form field
    · obtain ⟨⟨⟩, hfirst⟩ := (hform field).1 hs
      obtain ⟨name, hsecond⟩ := (hkind field).2 fun hk => hn ⟨hs, hk⟩
      exact ⟨name, by rw [hfirst, bind_ok, hsecond]; rfl⟩
    · obtain ⟨name, hfirst⟩ := (hform field).2 hs
      exact ⟨name, by rw [hfirst]; rfl⟩
  suited field hf ht hs := by
    subst ht
    obtain ⟨⟨⟩, hfirst⟩ := (hform field).1 hs.1
    obtain ⟨value, hsecond⟩ := (hkind field).1 hs.2
    rw [Table.lookUp_of_mem htags hf, bind_ok, hfirst, bind_ok, hsecond, bind_ok]
    exact hread field hf hs.1 value hsecond

/-- An accessor that takes a field of any form. -/
theorem answers_any (htags : table.fields.Pairwise (·.tag ≠ ·.tag))
    {read : Field Ref → Except CodecError β}
    (hread : ∀ field ∈ table.fields, field.tag = tag → Fair (read field)) :
    table.Answers tag (fun _ => True) (table.lookUp tag >>= read) where
  absent hne := by rw [Table.lookUp_absent hne]; rfl
  unsuited field hf ht hn := absurd trivial hn
  suited field hf ht _ := by
    rw [← ht, Table.lookUp_of_mem htags hf, bind_ok]
    exact hread field hf ht

end

section

variable (h : (schema ref).Laid schema) (hs : (schema ref).size ≤ block.length)

include h hs

theorem answers_has (tag : Nat) :
    (schema ref).Answers tag (fun _ => True) (View.has ⟨schema ref, block⟩ tag) := by
  refine answers_any h.tags_ne fun field hf _ => ?_
  cases hh : field.isHandled with
  | true =>
    obtain ⟨stored, hst⟩ := Bytes.slice_isSome ((h.handled field hf hh).data_within hs)
    have hslot : field.handlerSlot block = .ok (readUnsigned stored).toNat := by
      rw [Field.handlerSlot, Field.load, hst]
      rfl
    exact Fair.of_ok hslot (fair_ok _)
  | false => exact (h.laid field hf hh).fair_isPresent hs

theorem answers_count (tag : Nat) :
    (schema ref).Answers tag (fun _ => True) (View.count ⟨schema ref, block⟩ tag) := by
  refine answers_any h.tags_ne fun field hf ht => ?_
  split
  · next hr => exact (h.laid field hf (by simpa using hr.2)).fair_count hs hr.1
  · exact ((answers_has h hs tag).suited field hf ht trivial).bind fun _ _ => fair_ok _

omit hs in
/-- A view of a message in the block can be made. -/
theorem fair_message (hf : field ∈ (schema ref).fields) (hh : field.isHandled = false)
    (hk : field.kind = .message inner) (hl : stored.length = field.dataSize) :
    Fair (View.ofBlock (schema inner) stored) :=
  Fair.of_ok (Table.checkBlock_ok (Nat.le_of_eq
    (hl.trans ((h.stored field hf hh).dataSize_of_message hk)).symm)) (fair_ok _)

theorem Query.answers (query : Query) :
    (schema ref).Answers query.tag query.Suits (query.ask schema ⟨schema ref, block⟩) := by
  cases query with
  | has tag => exact (answers_has h hs tag).map _
  | count tag => exact (answers_count h hs tag).map _
  | get tag =>
    refine (answers_checked h.tags_ne screens_single screens_scalar fun field hf hform _ _ => ?_).map _
    exact (h.laid field hf hform.1).fair_single hs hform.2 (fun _ _ => fair_ok _) (fair_ok _)
  | getText tag =>
    refine (answers_checked h.tags_ne screens_single screens_text fun field hf hform _ _ => ?_).map _
    exact (h.laid field hf hform.1).fair_single hs hform.2 (fun _ _ => field.fair_text _) (fair_ok _)
  | getBytes tag =>
    refine (answers_checked h.tags_ne screens_single screens_bytes fun field hf hform _ hk => ?_).map _
    have hlaid := h.laid field hf hform.1
    exact hlaid.fair_single hs hform.2 (fun stored hl => Field.fair_payload
      (hl ▸ hlaid.suits.four_le (Update.kind_of_expectBytes hk))) (fair_ok _)
  | submessage tag =>
    refine (answers_checked h.tags_ne screens_single screens_message fun field hf hform inner hk => ?_).map _
    obtain ⟨stored, hload, hl⟩ := (h.laid field hf hform.1).load_single hs hform.2
    exact Fair.of_ok hload (fair_message h hf hform.1 (Update.message_of_expect hk) hl)
  | getAt tag index =>
    refine (answers_checked h.tags_ne screens_array screens_scalar fun field hf hform _ _ => ?_).map _
    exact (h.laid field hf hform.1).fair_element hs hform.2 fun _ _ => fair_ok _
  | getTextAt tag index =>
    refine (answers_checked h.tags_ne screens_array screens_text fun field hf hform _ _ => ?_).map _
    exact (h.laid field hf hform.1).fair_element hs hform.2 fun _ _ => field.fair_text _
  | getBytesAt tag index =>
    refine (answers_checked h.tags_ne screens_array screens_bytes fun field hf hform _ hk => ?_).map _
    have hlaid := h.laid field hf hform.1
    exact hlaid.fair_element hs hform.2 fun stored hl => Field.fair_payload
      (hl ▸ hlaid.suits.four_le (Update.kind_of_expectBytes hk))
  | element tag index =>
    refine (answers_checked h.tags_ne screens_array screens_message fun field hf hform inner hk => ?_).map _
    exact (h.laid field hf hform.1).fair_element hs hform.2 fun stored hl =>
      fair_message h hf hform.1 (Update.message_of_expect hk) hl

/-- A group without members is none; of any other the view tells the active member. -/
theorem which_answers (group : Nat) :
    ((schema ref).members group = [] →
      View.which ⟨schema ref, block⟩ group = .error (.noSuchField (schema ref).name group)) ∧
    ((schema ref).members group ≠ [] →
      ∃ active?, View.which ⟨schema ref, block⟩ group = .ok active?) := by
  unfold View.which
  cases hm : (schema ref).members group with
  | nil => exact ⟨fun _ => rfl, fun hne => absurd rfl hne⟩
  | cons member rest =>
    obtain ⟨hf, hg⟩ := Schema.group_of_mem_members (hm ▸ List.mem_cons_self)
    have hsome : member.group?.isSome := Option.isSome_of_eq_some hg
    obtain ⟨_, _, -, -, -, hslot⟩ := (h.laid member hf (h.inBlock_of_group hf hsome)).slot_ok hs
      ((h.laid member hf (h.inBlock_of_group hf hsome)).slot_isSome (.inr hsome))
    simp only [Table.lookUp_of_mem h.tags_ne hf, bind_ok, hslot]
    exact ⟨nofun, fun _ => ⟨_, rfl⟩⟩

end

-- ---------------------------------------------------------------------------
-- Updates
-- ---------------------------------------------------------------------------

namespace Update

variable {tag : Nat} {parcel? : Option Parcel}

theorem result_lookUp (htags : table.fields.Pairwise (·.tag ≠ ·.tag)) (hf : field ∈ table.fields)
    (check : Field Ref → Except CodecError α) :
    (lookUp table field.tag check).result block =
      (check field >>= fun value => pure (field, value), block) := by
  rw [lookUp, Step.result_ofExcept, Table.lookUp_of_mem htags hf, bind_ok]

theorem result_lookUp_absent (hne : ∀ field ∈ table.fields, field.tag ≠ tag)
    (check : Field Ref → Except CodecError α) :
    (lookUp table tag check).result block = (.error (.noSuchField table.name tag), block) := by
  rw [lookUp, Step.result_ofExcept, Table.lookUp_absent hne]
  rfl

/-- An update that checks the field before it does anything. -/
theorem answers_lookUp (htags : table.fields.Pairwise (·.tag ≠ ·.tag))
    {check : Field Ref → Except CodecError α} {Suits : Field Ref → Prop} (hc : Screens check Suits)
    {next : Field Ref × α → Edit β}
    (hn : ∀ field ∈ table.fields, field.tag = tag → ∀ value, check field = .ok value →
      (next (field, value)).Ends block (fun _ _ => True) fun failure _ => ¬failure.BlamesAccess) :
    table.Answers tag Suits ((lookUp table tag check >>= next).result block).1 where
  absent hne := by rw [Step.result_bind_error (result_lookUp_absent hne check)]
  unsuited field hf ht hs := by
    subst ht
    obtain ⟨kind, hk⟩ := (hc field).2 hs
    refine ⟨kind, ?_⟩
    rw [Step.result_bind_error ((result_lookUp htags hf check).trans (by rw [hk]; rfl))]
  suited field hf ht hs := by
    subst ht
    obtain ⟨value, hv⟩ := (hc field).1 hs
    rw [Step.result_bind_ok ((result_lookUp htags hf check).trans (by rw [hv]; rfl))]
    exact fair_result_iff.mpr (hn field hf rfl value hv)

section

variable (h : schema.Plain .loose (levels + 1) ref) (hs : (schema ref).size ≤ block.length)

include h hs

/-- What follows a claim fails only if the array is full or the parcel is too long. -/
theorem fair_claimed (hf : field ∈ (schema ref).fields) (hh : field.isHandled = false)
    {write : Edit α} (hw : Careful parcel? field write) :
    (claim schema (schema ref) field >>= fun span => Edit.inside field span write).Ends block
      (fun _ _ => True) fun failure _ => ¬failure.BlamesAccess := by
  refine Step.Ends.bind ((ends_claim h hs hf hh).mono (fun _ _ hp => hp) ?_) fun span after ⟨hp, hl⟩ => ?_
  · rintro _ _ ⟨-, rfl⟩
    exact id
  refine (ends_place (h.laid.here.stored field hf hh) (by rwa [hl]) hw hp).mono (fun _ _ hq => hq) ?_
  rintro _ _ ⟨-, parcel, -, -, rfl⟩
  exact id

theorem fair_marked (hf : field ∈ (schema ref).fields) (hsingle : field.expectSingle = .ok ())
    {write : Edit α} (hw : Careful parcel? field write) :
    (markPresent schema (schema ref) field >>= fun _ => Edit.inside field field.data write).Ends block
      (fun _ _ => True) fun failure _ => ¬failure.BlamesAccess := by
  obtain ⟨hh, hm⟩ := single_of_expect hsingle
  have hclaimed := fair_claimed h hs hf hh hw
  rwa [claim_bind_single (by simpa [Field.isRepeated] using hm)] at hclaimed

theorem fair_appended (hf : field ∈ (schema ref).fields) (harray : field.expectArray = .ok ())
    {write : Edit α} (hw : Careful parcel? field write) :
    (append field >>= fun span => Edit.inside field span write).Ends block (fun _ _ => True)
      fun failure _ => ¬failure.BlamesAccess := by
  obtain ⟨hh, hm⟩ := array_of_expect harray
  have hclaimed := fair_claimed h hs hf hh hw
  rwa [claim_array (by simp [Field.isRepeated, hm])] at hclaimed

theorem answers_store {expect : Field Ref → Except CodecError Unit} {write : Field Ref → Edit Unit}
    {Kind : Field Ref → Prop} (hc : Screens expect Kind)
    (hw : ∀ field : Field Ref, field.Suits schema → expect field = .ok () →
      Careful parcel? field (write field)) :
    (schema ref).Answers tag (fun field => field.IsSingle ∧ Kind field)
      ((store schema (schema ref) tag expect write).result block).1 := by
  refine answers_lookUp h.laid.here.tags_ne (screens_single.and hc) fun field hf _ _ hcheck => ?_
  obtain ⟨hsingle, hexpect⟩ := unit_bind_eq_ok.mp hcheck
  have hsuits := (h.laid.here.stored field hf (single_of_expect hsingle).1).suits
  exact fair_marked h hs hf hsingle (hw field hsuits hexpect)

theorem answers_pushValue {expect : Field Ref → Except CodecError Unit} {write : Field Ref → Edit Unit}
    {Kind : Field Ref → Prop} (hc : Screens expect Kind)
    (hw : ∀ field : Field Ref, field.Suits schema → expect field = .ok () →
      Careful parcel? field (write field)) :
    (schema ref).Answers tag (fun field => field.IsArray ∧ Kind field)
      ((pushValue (schema ref) tag expect write).result block).1 := by
  refine answers_lookUp h.laid.here.tags_ne (screens_array.and hc) fun field hf _ _ hcheck => ?_
  obtain ⟨harray, hexpect⟩ := unit_bind_eq_ok.mp hcheck
  have hsuits := (h.laid.here.stored field hf (array_of_expect harray).1).suits
  exact fair_appended h hs hf harray (hw field hsuits hexpect)

variable {update : Table Ref → Edit α} (hu : Sure update)

include hu

theorem answers_submessage :
    (schema ref).Answers tag (fun field => field.IsSingle ∧ ∃ inner, field.kind = .message inner)
      ((submessage schema (schema ref) tag update).result block).1 := by
  refine answers_lookUp h.laid.here.tags_ne (screens_single.and screens_message)
    fun field hf _ inner hcheck => ?_
  obtain ⟨hsingle, hexpect⟩ := unit_bind_eq_ok.mp hcheck
  exact fair_marked h hs hf hsingle
    (careful_nested h hf (single_of_expect hsingle).1 (message_of_expect hexpect) hu)

theorem answers_pushMessage :
    (schema ref).Answers tag (fun field => field.IsArray ∧ ∃ inner, field.kind = .message inner)
      ((pushMessage schema (schema ref) tag update).result block).1 := by
  refine answers_lookUp h.laid.here.tags_ne (screens_array.and screens_message)
    fun field hf _ inner hcheck => ?_
  obtain ⟨harray, hexpect⟩ := unit_bind_eq_ok.mp hcheck
  exact fair_appended h hs hf harray
    (careful_fresh h hf (array_of_expect harray).1 (message_of_expect hexpect) hu)

theorem answers_element {index : Nat} :
    (schema ref).Answers tag (fun field => field.IsArray ∧ ∃ inner, field.kind = .message inner)
      ((element schema (schema ref) tag index update).result block).1 := by
  refine answers_lookUp h.laid.here.tags_ne (screens_array.and screens_message)
    fun field hf _ inner hcheck => ?_
  obtain ⟨harray, hexpect⟩ := unit_bind_eq_ok.mp hcheck
  obtain ⟨hh, hm⟩ := array_of_expect harray
  have hspan : (Edit.ask (field.elementSpan index)).Ends block
      (fun span after => after = block ∧ field.Place .loose block span) fun failure _ => ¬failure.BlamesAccess :=
    Step.ends_ofExcept (fun span hspan => ⟨rfl, Field.place_of_elementSpan hm hspan⟩) fun failure he =>
      (h.laid.here.laid field hf hh).fair_elementSpan hs (by simp [Field.isRepeated, hm]) index failure he
  refine hspan.bind ?_
  rintro span after ⟨rfl, hp⟩
  refine (ends_place (h.laid.here.stored field hf hh) hs
    (careful_nested h hf hh (message_of_expect hexpect) hu) hp).mono (fun _ _ hq => hq) ?_
  rintro _ _ ⟨-, _, hnone, -⟩
  cases hnone

end

section

variable (h : schema.Plain .loose (levels + 1) ref) (hs : (schema ref).size ≤ block.length)

include h hs

theorem answers_bind (tag slot : Nat) :
    (schema ref).Answers tag (fun field => field.isHandled = true)
      ((bind (schema ref) tag slot).result block).1 := by
  refine answers_lookUp h.laid.here.tags_ne screens_handled fun field hf _ _ hcheck => ?_
  split at hcheck
  · next hh =>
    obtain ⟨stored, hst⟩ := Bytes.slice_isSome ((h.laid.here.handled field hf hh).data_within hs)
    exact .of_ok (Edit.result_change hst _) trivial
  · cases hcheck

theorem answers_clear (tag : Nat) :
    (schema ref).Answers tag (fun _ => True) ((clear schema (schema ref) tag).result block).1 := by
  refine answers_lookUp h.laid.here.tags_ne screens_any fun field hf ht _ _ => ?_
  refine Step.ends_ite (fun hh => ?_) fun hhandled => ?_
  · exact fair_result_iff.mp ((answers_bind h hs tag 0).suited field hf ht hh)
  · have hh : field.isHandled = false := by simpa using hhandled
    obtain ⟨active, hactive⟩ := (h.laid.here.laid field hf hh).isActive_ok hs
    have hask : (Edit.ask field.isActive).result block = (.ok active, block) := Prod.ext hactive rfl
    refine Step.Ends.bind (P := fun _ after => after = block) (.of_ok hask rfl) ?_
    rintro active _ rfl
    refine Step.ends_ite (fun _ => ?_) fun _ => trivial
    obtain ⟨after, hr⟩ := h.reset_ok hs hf hh
    exact .of_ok hr trivial

omit h hs in
theorem result_setPresent (htags : table.fields.Pairwise (·.tag ≠ ·.tag)) (hf : field ∈ table.fields)
    (present : Bool) :
    (setPresent schema table field.tag present).result block =
      (match field.multiplicity, field.sizeOffset with
        | .optional, some _ => Edit.setSlot field (if present then 1 else 0)
        | .oneof _, _ => if present then markPresent schema table field else clear schema table field.tag
        | _, _ => Step.ofExcept (field.mismatch "field without a presence flag") : Edit Unit).result block := by
  have hlook : (lookUp table field.tag fun _ => pure ()).result block = (.ok (field, ()), block) :=
    result_lookUp htags hf _
  refine (Step.result_bind_ok hlook).trans ?_
  cases hm : field.multiplicity <;> cases hs : field.sizeOffset <;> simp only [hm, hs]

theorem answers_setPresent (tag : Nat) (present : Bool)
    (hn : ∀ field offset, ¬(Action.setPresent tag present).Strays (schema ref) field offset) :
    (schema ref).Answers tag (fun field => field.isHandled = false ∧ field.Flagged)
      ((setPresent schema (schema ref) tag present).result block).1 where
  absent hne := by
    rw [setPresent, Step.result_bind_error (result_lookUp_absent hne _)]
  unsuited field hf ht hs := by
    subst ht
    rw [result_setPresent h.laid.here.tags_ne hf]
    cases hm : field.multiplicity with
    | required | «repeated» => exact ⟨_, rfl⟩
    | oneof group =>
      have hg : field.group?.isSome := by simp [Field.group?, hm]
      exact absurd ⟨h.laid.here.inBlock_of_group hf hg, .inr hg⟩ hs
    | optional =>
      cases ho : field.sizeOffset with
      | none => exact ⟨_, rfl⟩
      | some offset =>
        have hh : field.isHandled = true := by
          by_contra hh
          exact hs ⟨by simpa using hh, .inl ⟨hm, by simp [ho]⟩⟩
        exact absurd ⟨_, _, rfl, hf, rfl, hh, hm, ho⟩ (hn field offset)
  suited field hf ht hs := by
    subst ht
    obtain ⟨hh, hflagged⟩ := hs
    rw [result_setPresent h.laid.here.tags_ne hf]
    cases hm : field.multiplicity with
    | required | «repeated» => simp [Field.Flagged, Field.group?, hm] at hflagged
    | oneof group =>
      simp only
      split
      · obtain ⟨after, hr⟩ := markPresent_ok h hs hf hh
        rw [hr]
        exact fair_ok _
      · exact (answers_clear h hs field.tag).suited field hf rfl trivial
    | optional =>
      cases ho : field.sizeOffset with
      | none => simp [Field.Flagged, Field.group?, hm, ho] at hflagged
      | some offset =>
        obtain ⟨after, -, hr, -⟩ :=
          (h.laid.here.laid field hf hh).setSlot_ok hs (by simp [ho]) (if present then 1 else 0)
        simp only [hr]
        exact fair_ok _

end

end Update

-- ---------------------------------------------------------------------------
-- Actions
-- ---------------------------------------------------------------------------

/-- The flag of a handled field is written if it lies inside the block, and the table is blamed if not. -/
theorem Action.Strays.outcome {action : Action} {offset : Nat}
    (h : action.Strays table field offset) (htags : table.fields.Pairwise (·.tag ≠ ·.tag)) :
    ((action.perform schema table).result block).1 =
      if (Span.ofLength offset 1).Within block.length then .ok () else .error field.outside := by
  obtain ⟨tag, present, rfl, hf, rfl, -, hm, ho⟩ := h
  have hslot : field.sizeSlot = .ok (.ofLength offset 1) := by
    simp [Field.sizeSlot, Field.sizeSlot?, ho, hm]
  rw [perform, Update.result_setPresent htags hf]
  simp only [hm, ho, Edit.setSlot, hslot]
  rw [Step.result_bind_ok (Step.result_ofExcept _ _)]
  by_cases hw : (Span.ofLength offset 1).Within block.length
  · obtain ⟨stored, hst⟩ := Bytes.slice_isSome hw
    rw [Edit.result_change hst, if_pos hw]
  · rw [Edit.change, Edit.result_inside_none (if_neg hw), if_neg hw]

/-- A message is initialised without fail. -/
theorem Action.init_ok (h : schema.Plain .loose (levels + 1) ref) (hs : (schema ref).size ≤ block.length) :
    ((Action.init.perform schema (schema ref)).result block).1 = .ok () := by
  obtain ⟨after, hr⟩ := Schema.initialiseWithin_ok (h.laid.mono h.levels_le) hs
  rw [perform]
  exact congrArg Prod.fst (show (schema.initialise ref).result block = _ from hr)

theorem Action.answers (action : Action) (h : schema.Plain .loose (levels + 1) ref)
    (hs : (schema ref).size ≤ block.length)
    (hn : ∀ field offset, ¬action.Strays (schema ref) field offset) {tag : Nat}
    (ht : action.tag? = some tag) :
    (schema ref).Answers tag action.Suits ((action.perform schema (schema ref)).result block).1 := by
  cases action with
  | set _ value =>
    cases ht
    rw [perform]
    exact Update.answers_store h hs screens_scalar fun _ _ _ => Update.careful_storeScalar value
  | setText _ text =>
    cases ht
    rw [perform]
    exact Update.answers_store h hs screens_text fun _ _ _ => Update.careful_storeText tag false text
  | setBytes _ bytes =>
    cases ht
    rw [perform]
    exact Update.answers_store h hs screens_bytes fun _ hsuits hexpect =>
      Update.careful_storeBytes tag false bytes (hsuits.four_le (Update.kind_of_expectBytes hexpect))
  | push _ value =>
    cases ht
    rw [perform]
    exact Update.answers_pushValue h hs screens_scalar fun _ _ _ => Update.careful_storeScalar value
  | pushText _ text =>
    cases ht
    rw [perform]
    exact Update.answers_pushValue h hs screens_text fun _ _ _ => Update.careful_storeText tag true text
  | pushBytes _ bytes =>
    cases ht
    rw [perform]
    exact Update.answers_pushValue h hs screens_bytes fun _ hsuits hexpect =>
      Update.careful_storeBytes tag true bytes (hsuits.four_le (Update.kind_of_expectBytes hexpect))
  | pushMessage _ actions =>
    cases ht
    rw [perform]
    exact Update.answers_pushMessage h hs (sure_performAll actions)
  | submessage _ actions =>
    cases ht
    rw [perform]
    exact Update.answers_submessage h hs (sure_performAll actions)
  | element _ index actions =>
    cases ht
    rw [perform]
    exact Update.answers_element h hs (sure_performAll actions)
  | bind _ slot =>
    cases ht
    rw [perform]
    exact Update.answers_bind h hs tag slot
  | setPresent _ present =>
    cases ht
    rw [perform]
    exact Update.answers_setPresent h hs tag present hn
  | clear _ =>
    cases ht
    rw [perform]
    exact Update.answers_clear h hs tag
  | init => cases ht

/-- Accessors of messages of valid tables are answered as they should be, in a block that is long enough:
who asks for no field of the table, or for one of another form, is told so, and no failure blames the
table. One action strays from that: to set the presence of a handled field that has a flag. -/
theorem accessors_answer (hvalid : Table.validate schema ref = .ok ())
    (hbuilt : schema.Throughout Table.Built ref) (hb : schema.Below ref inner)
    (hs : (schema inner).size ≤ block.length) :
    let table := schema inner
    let view : View Ref := ⟨table, block⟩
    View.ofBlock table block = .ok view ∧
    (∀ query : Query, table.Answers query.tag query.Suits (query.ask schema view) ∧
      ∀ failure, query.ask schema view = .error failure → failure.errorClass ≠ .invalidDescriptor) ∧
    (∀ group, (table.members group = [] → view.which group = .error (.noSuchField table.name group)) ∧
      (table.members group ≠ [] → ∃ active?, view.which group = .ok active?)) ∧
    ∀ action : Action,
      let outcome := ((action.perform schema table).result block).1
      (action = .init → outcome = .ok ()) ∧
      (∀ field offset, action.Strays table field offset → outcome =
        if (Span.ofLength offset 1).Within block.length then .ok () else .error field.outside) ∧
      ((∀ field offset, ¬action.Strays table field offset) →
        (∀ tag ∈ action.tag?, table.Answers tag action.Suits outcome) ∧
        ∀ failure, outcome = .error failure → failure.errorClass ≠ .invalidDescriptor) := by
  intro table view
  have hlaid : schema.Laid (maxInitialDepth + 1) inner := (Schema.laid_of_validate hvalid hbuilt).of_below hb
  have hplain : schema.Plain .loose (maxInitialDepth + 1) inner := ⟨hlaid, Nat.le_refl _, nofun⟩
  refine ⟨?_, fun query => ?_, which_answers hlaid.here hs, fun action => ⟨?_, ?_, fun hn => ?_⟩⟩
  · rw [View.ofBlock, Table.checkBlock_ok hs]
    rfl
  · exact ⟨query.answers hlaid.here hs, fun failure he => (query.answers hlaid.here hs).class_ne he⟩
  · rintro rfl
    exact Action.init_ok hplain hs
  · exact fun field offset hstrays => hstrays.outcome hlaid.here.tags_ne
  · refine ⟨fun tag ht => action.answers hplain hs hn ht, fun failure he => ?_⟩
    cases ht : action.tag? with
    | some tag => exact (action.answers hplain hs hn ht).class_ne he
    | none =>
      cases action with
      | init => exact absurd (he.symm.trans (Action.init_ok hplain hs)) nofun
      | _ => cases ht

/-- A block of four bytes with a handled field whose flag would be the eighth. -/
def flagged : Schema Unit := fun _ =>
  ⟨"T", [((Field.ofStorage 1 "hook" (.varint ⟨.w32, false⟩) 0 2).optional 7).handled,
    (Field.ofStorage 2 "note" .text 2 2).implicit], 4⟩

theorem flagged_built : flagged.Throughout Table.Built () := by
  refine Schema.throughout_of_forall (fun _ field hf => ?_) ()
  rcases List.mem_cons.mp hf with rfl | hf
  · exact .handled (.optional 7 (.ofStorage ..))
  · rw [List.mem_singleton.mp hf]
    exact .implicit (.ofStorage ..)

theorem accessors_answer_flagged :
    Table.validate flagged () = .ok () ∧ flagged.Throughout Table.Built () ∧ flagged.Below () () ∧
    (flagged ()).size ≤ (Bytes.zeros 4).length ∧
    (flagged ()).Answers 1 (Query.Suits (.get 1) : Field Unit → Prop)
      (Query.ask flagged ⟨flagged (), Bytes.zeros 4⟩ (.get 1)) ∧
    (flagged ()).Answers 2 (Action.Suits (.setText 2 "a") : Field Unit → Prop)
      (((Action.setText 2 "a").perform flagged (flagged ())).result (Bytes.zeros 4)).1 := by
  have hvalid : Table.validate flagged () = .ok () := rfl
  have hsize : (flagged ()).size ≤ (Bytes.zeros 4).length := by decide
  obtain ⟨-, hqueries, -, hactions⟩ := accessors_answer hvalid flagged_built (.refl ()) hsize
  refine ⟨hvalid, flagged_built, .refl (), hsize, (hqueries (.get 1)).1, ?_⟩
  refine ((hactions (.setText 2 "a")).2.2 ?_).1 2 rfl
  rintro field offset ⟨_, _, ⟨⟩, _⟩

/-- The flag is sought behind the block, and the table is blamed, though it passed the checks. -/
theorem setPresent_blames_table :
    Table.validate flagged () = .ok () ∧ flagged.Throughout Table.Built () ∧
    (flagged ()).size ≤ (Bytes.zeros 4).length ∧
    (Update.setPresent flagged (flagged ()) 1 true).result (Bytes.zeros 4) =
      (.error (.invalidDescriptor "hook" "storage outside message block"), Bytes.zeros 4) :=
  ⟨rfl, flagged_built, by decide, by cbv⟩

end BlockCodec
