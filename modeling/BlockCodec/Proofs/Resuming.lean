import BlockCodec.Proofs.Accepting
import BlockCodec.Proofs.Lookup

/-!
# Reading fields in table order

The decoder looks fields up from where it found the last one, so what it makes of fields that come in
table order depends only on how many of them are behind it: `Decode.Continues`. The required fields in
the block that are among those are known to have been seen; what may be missing at the end is a handled
one.
-/

namespace BlockCodec

variable {Ref S : Type} {schema : Schema Ref} {config : DecodeConfig}
  {nested : Ref → Decode Bytes S Unit} {depth : Nat} {table : Table Ref} {field : Field Ref}
  {front rest : List (Field Ref)} {seen more : List Nat} {E : CodecError → Prop} {last : Prop}
  {P Q : Bytes → Prop} {before content body : Bytes}

namespace Decode

-- ---------------------------------------------------------------------------
-- Required fields
-- ---------------------------------------------------------------------------

theorem entriesFrom_append (cursor : Cursor) (front : List (Field Ref)) (field : Field Ref) :
    Table.entriesFrom cursor (front ++ [field]) =
      Table.entriesFrom cursor front ++ [(front.foldl Cursor.step cursor).entry field] := by
  induction front generalizing cursor with
  | nil => rfl
  | cons first front ih => simp [Table.entriesFrom, ih]

theorem mem_track {tracked : Option Nat} {number : Nat} (h : number ∈ seen ∨ tracked = some number) :
    number ∈ tracked.elim seen (seen.insert ·) := by
  cases tracked with
  | none => simpa using h
  | some other => simpa [or_comm, eq_comm] using h

/-- The tracked fields in the block among the first ones of a table have been seen. -/
def Noted (front : List (Field Ref)) (seen : List Nat) : Prop :=
  ∀ entry ∈ Table.entriesFrom .start front, entry.field.isHandled = false →
    ∀ number, tracked? entry = some number → number ∈ seen

theorem noted_nil : Noted ([] : List (Field Ref)) seen := by
  intro entry he
  cases he

theorem Noted.mono (h : Noted front seen) (hsub : ∀ number ∈ seen, number ∈ more) : Noted front more :=
  fun entry he hh number hn => hsub number (h entry he hh number hn)

theorem Noted.append (h : Noted front seen) (hnew : field.isHandled = false →
      ∀ number, tracked? ((Cursor.behind front).entry field) = some number → number ∈ seen) :
    Noted (front ++ [field]) seen := by
  intro entry he
  rw [entriesFrom_append, List.mem_append, List.mem_singleton] at he
  rcases he with he | rfl
  · exact h entry he
  · exact hnew

theorem isRequired_of_tracked {cursor : Cursor} {entry : Entry Ref}
    (he : entry ∈ Table.entriesFrom cursor front) {number : Nat} (ht : tracked? entry = some number) :
    entry.field.isRequired = true := by
  obtain ⟨before, _, -, hentry⟩ := Cursor.mem_entriesFrom.mp he
  rw [hentry, tracked?] at ht
  by_contra hr
  simp [Cursor.entry, hr] at ht

/-- What is missing when all tracked fields in the block have been seen is handled. -/
theorem handled_of_missing? (h : Noted table.fields seen) (hm : missing? table seen = some field) :
    field ∈ table.fields ∧ field.isRequired = true ∧ field.isHandled = true := by
  obtain ⟨entry, hfind, rfl⟩ := Option.map_eq_some_iff.mp hm
  have he := List.mem_of_find?_eq_some hfind
  have hunseen := List.find?_some hfind
  obtain ⟨number, ht, hnot⟩ : ∃ number, tracked? entry = some number ∧ number ∉ seen := by
    simpa [Option.any_eq_true] using hunseen
  refine ⟨Cursor.field_mem_of_entriesFrom he, isRequired_of_tracked he ht, ?_⟩
  by_contra hh
  exact hnot (h entry he (by simpa using hh) number ht)

-- ---------------------------------------------------------------------------
-- Fields in table order
-- ---------------------------------------------------------------------------

section

variable [Handler Ref S] (schema config nested depth table)

/-- With the first fields of the table behind it the decoder accepts these bytes. -/
def Continues (E : CodecError → Prop) (front : List (Field Ref)) (content before : Bytes)
    (Q : Bytes → Prop) : Prop :=
  ∀ cursor seen room, cursor.Placed table → Noted front seen → content.length ≤ room →
    Accepts E True (fields schema config nested depth table room cursor seen) content before Q

variable {schema config nested depth table}

omit [Handler Ref S] in
theorem accepts_checkRequired (h : Noted table.fields seen) (hq : Q before)
    (he : ∀ field ∈ table.fields, field.isRequired = true → field.isHandled = true →
      E (.missingRequiredField table.name field.name)) :
    Accepts E last (checkRequired table seen : Decode Bytes S Unit) [] before Q := by
  unfold checkRequired
  split
  · exact (restores_pure () before).accepts hq
  · next field hm =>
    obtain ⟨hf, hr, hh⟩ := handled_of_missing? h hm
    exact accepts_throw (he field hf hr hh)

/-- Behind the last field the input ends. -/
theorem continues_end (hq : Q before) (he : ∀ field ∈ table.fields, field.isRequired = true →
      field.isHandled = true → E (.missingRequiredField table.name field.name)) :
    Continues (S := S) schema config nested depth table E table.fields [] before Q := by
  intro cursor seen room _ hnoted _
  cases room with
  | zero => exact accepts_checkRequired hnoted hq he
  | succ room =>
    intro rest left taken bounded handlers hle hlast
    obtain rfl : left = 0 := hlast trivial
    rw [fields, Step.Ends, Step.result_bind_ok (result_onWire Wire.readTag_end)]
    exact accepts_checkRequired hnoted hq he rest 0 taken bounded handlers hle hlast

/-- A field that is not required may be left out, and so may a handled one. -/
theorem Continues.skip (h : Continues schema config nested depth table E (front ++ [field]) content
      before Q) (hr : field.isHandled = false → field.isRequired = false) :
    Continues schema config nested depth table E front content before Q := by
  intro cursor seen room hc hnoted hroom
  refine h cursor seen room hc (hnoted.append fun hh number hn => ?_) hroom
  simp [tracked?, Cursor.entry, hr hh] at hn

section

variable (hl : table.Fits schema) (ht : table.fields = front ++ field :: rest)
  (hh : field.isHandled = false) {type : WireType} (ha : field.accepts type = true)
  (hb : Accepts E False (Decode.stored schema config nested table field type) body before P)

include hl ht hh ha hb

/-- The next field is read, and the rest with the cursor on it. -/
theorem continues_of_body
    (hrest : ∀ middle, P middle → ∀ cursor more room, cursor.Placed table →
      (∀ number, tracked? ((Cursor.behind front).entry field) = some number → number ∈ more) →
      Noted front more → content.length ≤ room →
      Accepts E True (fields schema config nested depth table room cursor more) content middle Q) :
    Continues schema config nested depth table E front
      (Wire.headerForm type field.tag ++ body ++ content) before Q := by
  intro cursor seen room hc hnoted hroom
  have hf : field ∈ table.fields := by simp [ht]
  have hplaced : Cursor.Placed table (Cursor.behind front) := ⟨front, ⟨field :: rest, ht.symm⟩, rfl⟩
  have hpos : 0 < (Wire.headerForm type field.tag).length := by
    rw [Wire.headerForm, Varint.length_encode]
    exact Nat.succ_pos _
  rw [List.length_append, List.length_append] at hroom
  obtain ⟨room, rfl⟩ : ∃ n, room = n + 1 := ⟨room - 1, by omega⟩
  have hheader : Input.Reads Wire.readTag (Wire.headerForm type field.tag) (some (field.tag, type)) :=
    Wire.reads_readTag (hl.tag_pos field hf) (hl.tag_le field hf)
  rw [List.append_assoc, fields]
  refine (restores_onInput (hheader.mapFailure _)).seq ?_
  simp only [Cursor.find_of_split hl.tags_ne hc ht, Cursor.field_entry, ha, hh, if_true,
    Bool.false_eq_true, if_false]
  refine hb.seq fun middle hp => hrest middle hp _ _ room hplaced (fun number hn => ?_)
    (hnoted.mono fun number hn => ?_) (by omega)
  · exact mem_track (.inr hn)
  · exact mem_track (.inl hn)

theorem Continues.again (hn : ∀ middle, P middle →
      Continues schema config nested depth table E front content middle Q) :
    Continues schema config nested depth table E front
      (Wire.headerForm type field.tag ++ body ++ content) before Q :=
  continues_of_body hl ht hh ha hb fun middle hp cursor more room hc _ hnoted hroom =>
    hn middle hp cursor more room hc hnoted hroom

theorem Continues.record (hn : ∀ middle, P middle →
      Continues schema config nested depth table E (front ++ [field]) content middle Q) :
    Continues schema config nested depth table E front
      (Wire.headerForm type field.tag ++ body ++ content) before Q :=
  continues_of_body hl ht hh ha hb fun middle hp cursor more room hc hnew hnoted hroom =>
    hn middle hp cursor more room hc (hnoted.append fun _ => hnew) hroom

end

end

end Decode

end BlockCodec
