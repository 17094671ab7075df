import Mathlib.Data.List.Find
import BlockCodec.Proofs.Rows

/-!
# Required fields

A message is decoded field by field up to the end of its input, and then its required fields are checked.
A `Course` is such a run in which no field fails, told by the headers that are read on the way. Its
outcome is the `verdict` on these headers: the message is accepted if each required field is the field of
one of them, and else the first field of the table is named that is not. `decodeMessage_verdict` says so of
whole messages and of the messages inside, for all sources and all handlers.

The decoder counts the required fields while it turns round the table, and allows as many fields as the
input has bytes left. Neither is part of a course, so `walk_of_course` has to account for both: the count
is that of a lookup from the front, and no field gives back bytes that have been taken.
-/

namespace BlockCodec

-- ---------------------------------------------------------------------------
-- Headers
-- ---------------------------------------------------------------------------

section

variable {Ref : Type}

/-- One of the headers is that of a value for the field. -/
def Field.occursIn (headers : List (Nat × WireType)) (field : Field Ref) : Bool :=
  headers.any fun (number, type) => number == field.tag && field.accepts type

theorem Field.occursIn_iff {field : Field Ref} {headers : List (Nat × WireType)} :
    field.occursIn headers = true ↔ ∃ type, (field.tag, type) ∈ headers ∧ field.accepts type = true := by
  simp only [occursIn, List.any_eq_true, Bool.and_eq_true, beq_iff_eq]
  constructor
  · rintro ⟨⟨_, type⟩, hmem, rfl, ha⟩
    exact ⟨type, hmem, ha⟩
  · rintro ⟨type, hmem, ha⟩
    exact ⟨(field.tag, type), hmem, rfl, ha⟩

/-- The first required field of the table that has no value. -/
def Table.lacking? (table : Table Ref) (headers : List (Nat × WireType)) : Option (Field Ref) :=
  table.fields.find? fun field => field.isRequired && !field.occursIn headers

/-- The outcome of a message that consists of fields with these headers. -/
def Table.verdict (table : Table Ref) (headers : List (Nat × WireType)) : Except CodecError Unit :=
  match table.lacking? headers with
  | none => .ok ()
  | some field => .error (.missingRequiredField table.name field.name)

theorem Table.verdict_eq_ok_iff {table : Table Ref} {headers : List (Nat × WireType)} :
    table.verdict headers = .ok () ↔ ∀ field ∈ table.fields, field.isRequired = true →
      ∃ type, (field.tag, type) ∈ headers ∧ field.accepts type = true := by
  have hnone : table.verdict headers = .ok () ↔ table.lacking? headers = none := by
    unfold verdict
    split <;> simp_all
  simp [hnone, lacking?, ← Field.occursIn_iff]

end

-- ---------------------------------------------------------------------------
-- Steps that give nothing back
-- ---------------------------------------------------------------------------

namespace Step

variable {s t ε ε' α β : Type} {room : s → Nat}

/-- The step leaves no more room than there was. -/
def Shrinks (room : s → Nat) (step : Step s ε α) : Prop :=
  ∀ state, room (step.result state).2 ≤ room state

theorem Shrinks.bind {step : Step s ε α} {next : α → Step s ε β} (h : step.Shrinks room)
    (hn : ∀ value, (next value).Shrinks room) : (step >>= next).Shrinks room := by
  intro state
  have hfirst := h state
  rcases hr : step.result state with ⟨failure | value, after⟩ <;> rw [hr] at hfirst
  · rwa [result_bind_error hr]
  · rw [result_bind_ok hr]
    exact Nat.le_trans (hn value after) hfirst

theorem shrinks_pure (value : α) : (pure value : Step s ε α).Shrinks room := fun _ => Nat.le_refl _

theorem shrinks_throw (failure : ε) : (throw failure : Step s ε α).Shrinks room := fun _ => Nat.le_refl _

theorem shrinks_get : (get : Step s ε s).Shrinks room := fun _ => Nat.le_refl _

theorem Shrinks.mapFailure {step : Step s ε α} (h : step.Shrinks room) (restate : ε → ε') :
    (step.mapFailure restate).Shrinks room := h

theorem shrinks_ite {c : Prop} [Decidable c] {yes no : Step s ε α} (hy : yes.Shrinks room)
    (hn : no.Shrinks room) : (if c then yes else no).Shrinks room := by
  split <;> assumption

end Step

open Step

namespace Input

variable {σ : Type} [Source σ]

theorem left_deliver (count : Nat) (input : Input σ) : (input.deliver count).2.left ≤ input.left := by
  unfold deliver
  split
  · exact Nat.le_refl _
  · simp only
    split
    · exact Nat.le_refl _
    · exact Nat.sub_le _ _

theorem shrinks_read (count : Nat) : (read count : Step (Input σ) StreamError Bytes).Shrinks left := by
  intro input
  have h := left_deliver count input
  simp only [read, result_ofRun]
  split <;> simp_all

theorem shrinks_readByte : (readByte : Step (Input σ) StreamError UInt8).Shrinks left :=
  (shrinks_read 1).bind fun _ => shrinks_pure _

/-- A byte that is read is taken. -/
theorem left_of_readByte? {input after : Input σ} {byte : UInt8}
    (h : readByte?.result input = (.ok (some byte), after)) : after.left < input.left := by
  simp only [readByte?, result_ofRun] at h
  split at h
  · cases h
  · next hleft =>
    split at h <;> cases h
    simp only [charge]
    omega

theorem readByte?_of_left {input : Input σ} (h : input.left = 0) :
    readByte?.result input = (.ok none, input) := by
  simp [readByte?, h]

theorem shrinks_skip (count : Nat) : (skip count : Step (Input σ) StreamError Unit).Shrinks left := by
  intro input
  simp only [skip, result_ofRun]
  split
  · exact Nat.le_refl _
  · split
    · exact Nat.le_refl _
    · exact Nat.sub_le _ _

end Input

namespace Wire

variable {σ : Type} [Source σ]

theorem shrinks_nextGroup : (nextGroup : Read σ UInt8).Shrinks Input.left :=
  Input.shrinks_readByte.mapFailure _

theorem shrinks_readGroups (places weight sum : Nat) :
    (readGroups places weight sum : Read σ UInt64).Shrinks Input.left := by
  induction places generalizing weight sum with
  | zero => exact shrinks_throw _
  | succ places ih =>
    refine shrinks_nextGroup.bind fun byte => shrinks_ite ((shrinks_throw _).bind fun _ => ?_) ?_
    all_goals exact shrinks_ite (shrinks_pure _) (ih _ _)

theorem shrinks_readVarintFrom (first : UInt8) : (readVarintFrom first : Read σ UInt64).Shrinks Input.left :=
  shrinks_ite (shrinks_pure _) (shrinks_readGroups _ _ _)

theorem shrinks_readVarint : (readVarint : Read σ UInt64).Shrinks Input.left :=
  (Input.shrinks_readByte.mapFailure _).bind shrinks_readVarintFrom

theorem shrinks_readVarint32 : (readVarint32 : Read σ Nat).Shrinks Input.left :=
  shrinks_readVarint.bind fun _ => shrinks_ite (shrinks_pure _) (shrinks_throw _)

theorem shrinks_readZigZag : (readZigZag : Read σ Int64).Shrinks Input.left :=
  shrinks_readVarint.bind fun _ => shrinks_pure _

theorem shrinks_readFixed32 : (readFixed32 : Read σ UInt32).Shrinks Input.left :=
  ((Input.shrinks_read 4).mapFailure _).bind fun _ => shrinks_pure _

theorem shrinks_readFixed64 : (readFixed64 : Read σ UInt64).Shrinks Input.left :=
  ((Input.shrinks_read 8).mapFailure _).bind fun _ => shrinks_pure _

theorem shrinks_readLength : (readLength : Read σ Nat).Shrinks Input.left :=
  shrinks_readVarint32.bind fun _ => shrinks_get.bind fun _ =>
    shrinks_ite ((shrinks_throw _).bind fun _ => shrinks_pure _) (shrinks_pure _)

theorem shrinks_skipGroups (places : Nat) : (skipGroups places : Read σ Unit).Shrinks Input.left := by
  induction places with
  | zero => exact shrinks_throw _
  | succ places ih => exact shrinks_nextGroup.bind fun _ => shrinks_ite (shrinks_pure _) ih

theorem shrinks_skipVarint : (skipVarint : Read σ Unit).Shrinks Input.left :=
  (Input.shrinks_readByte.mapFailure _).bind fun _ => shrinks_ite (shrinks_pure _) (shrinks_skipGroups _)

theorem shrinks_skipField (type : WireType) : (skipField type : Read σ Unit).Shrinks Input.left := by
  unfold skipField
  cases type with
  | varint => exact shrinks_skipVarint
  | fixed32 | fixed64 => exact (Input.shrinks_skip _).mapFailure _
  | delimited => exact shrinks_readLength.bind fun _ => (Input.shrinks_skip _).mapFailure _
  | startGroup | endGroup => exact shrinks_throw _

/-- A header that is read takes its bytes. -/
theorem left_of_readTag {input after : Input σ} {tag : Nat × WireType}
    (h : readTag.result input = (.ok (some tag), after)) : after.left < input.left := by
  obtain ⟨first?, middle, hfirst, h⟩ := result_bind_eq_ok.mp h
  cases first? with
  | none => cases h
  | some first =>
    obtain ⟨header, rest, hheader, h⟩ := result_bind_eq_ok.mp h
    have hle := shrinks_readVarintFrom first middle
    rw [hheader] at hle
    have hlt := Input.left_of_readByte? (result_mapFailure_eq_ok hfirst)
    split at h
    · obtain ⟨tag, _, htag, h⟩ := result_bind_eq_ok.mp h
      cases h
      cases (Prod.mk.inj htag).2
      exact Nat.lt_of_le_of_lt hle hlt
    · cases h

theorem readTag_of_left {input : Input σ} (h : input.left = 0) :
    readTag.result input = (.ok none, input) := by
  have hfirst : (onStream Input.readByte?).result input = (.ok none, input) := by
    rw [onStream, result_mapFailure, Input.readByte?_of_left h]
    rfl
  rw [readTag, result_bind_ok hfirst]
  rfl

end Wire

namespace Decode

variable {σ S Ref α β : Type}

/-- How many bytes may still be taken. -/
abbrev room (state : Decoding σ S) : Nat := state.input.left

theorem shrinks_onInput {step : Step (Input σ) CodecError α} (h : step.Shrinks Input.left) :
    (onInput step : Decode σ S α).Shrinks room :=
  fun state => h state.input

theorem shrinks_onWire {step : Wire.Read σ α} (h : step.Shrinks Input.left) :
    (onWire step : Decode σ S α).Shrinks room :=
  shrinks_onInput (h.mapFailure _)

theorem shrinks_onBlock (edit : Edit α) : (onBlock edit : Decode σ S α).Shrinks room :=
  fun _ => Nat.le_refl _

/-- Whatever is done inside, what it took is charged. -/
theorem shrinks_within (length : Nat) (step : Decode σ S α) : (within length step).Shrinks room := by
  intro state
  simp only [within, Step.result_ofRun]
  split
  · exact Nat.le_refl _
  · exact Nat.sub_le _ _

theorem shrinks_inside {field : Field Ref} {span : Span} {step : Decode σ S α} (h : step.Shrinks room) :
    (inside field span step).Shrinks room := by
  intro state
  simp only [inside, Step.result_ofRun]
  split
  · exact Nat.le_refl _
  · exact h { state with block := _ }

theorem shrinks_unless {c : Prop} [Decidable c] {failure : CodecError} {next : Unit → Decode σ S α}
    (h : (next ()).Shrinks room) :
    (if c then (throw failure : Decode σ S Unit) >>= next else next ()).Shrinks room :=
  shrinks_ite ((shrinks_throw _).bind fun _ => h) h

variable [Source σ] {schema : Schema Ref} {config : DecodeConfig} {nested : Ref → Decode σ S Unit}
  {depth : Nat} {table : Table Ref}

theorem shrinks_skipValue (number : Nat) (type : WireType) :
    (skipValue number type : Decode σ S Unit).Shrinks room :=
  shrinks_onInput ((Wire.shrinks_skipField type).mapFailure _)

theorem shrinks_fill (start count : Nat) : (fill start count : Decode σ S Unit).Shrinks room := by
  intro state
  have h := Input.left_deliver count state.input
  simp only [fill, Step.result_ofRun]
  split <;> exact h

theorem shrinks_readScalar (field : Field Ref) :
    (field.readScalar : Step (Input σ) CodecError Scalar).Shrinks Input.left := by
  obtain ⟨-, f, hf⟩ | ⟨-, f, hf⟩ | ⟨-, f, hf⟩ | ⟨-, f, hf⟩ | ⟨-, hf⟩ := readScalar_forms field <;> rw [hf σ]
  · exact (Wire.shrinks_readVarint.mapFailure _).bind fun _ => shrinks_pure _
  · exact (Wire.shrinks_readZigZag.mapFailure _).bind fun _ => shrinks_pure _
  · exact (Wire.shrinks_readFixed32.mapFailure _).bind fun _ => shrinks_pure _
  · exact (Wire.shrinks_readFixed64.mapFailure _).bind fun _ => shrinks_pure _
  · exact shrinks_throw _

theorem shrinks_number (field : Field Ref) : (number field : Decode σ S Scalar).Shrinks room :=
  shrinks_onInput (shrinks_readScalar field)

theorem shrinks_value (field : Field Ref) : (value config nested field).Shrinks room := by
  have hlength : (onWire Wire.readLength : Decode σ S Nat).Shrinks room := shrinks_onWire Wire.shrinks_readLength
  unfold value
  split
  · refine hlength.bind fun length => shrinks_get.bind fun _ => shrinks_unless ?_
    refine (shrinks_fill _ _).bind fun _ => (shrinks_onBlock _).bind fun _ => shrinks_get.bind fun _ => ?_
    exact shrinks_ite (shrinks_throw _) (shrinks_pure _)
  · refine hlength.bind fun length => shrinks_get.bind fun _ => shrinks_unless (shrinks_unless ?_)
    exact (shrinks_fill _ _).bind fun _ => shrinks_onBlock _
  · exact hlength.bind fun length => shrinks_within length _
  · exact (shrinks_number field).bind fun _ => shrinks_onBlock _

omit [Source σ] in
theorem shrinks_nextElement (field : Field Ref) : (nextElement field : Decode σ S Nat).Shrinks room :=
  (shrinks_onBlock _).bind fun _ => shrinks_unless (shrinks_pure _)

theorem shrinks_element (field : Field Ref) : (element schema config nested field).Shrinks room := by
  refine (shrinks_nextElement field).bind fun count => (shrinks_inside ?_).bind fun _ => shrinks_onBlock _
  split
  · exact (shrinks_onBlock _).bind fun _ => shrinks_value field
  · exact shrinks_value field

theorem shrinks_stored (field : Field Ref) (type : WireType) :
    (stored schema config nested table field type).Shrinks room := by
  have hvalue : ∀ span, (inside field span (value config nested field)).Shrinks room :=
    fun span => shrinks_inside (shrinks_value field)
  unfold stored
  split
  · refine shrinks_ite ?_ ?_
    · exact (shrinks_onWire Wire.shrinks_readLength).bind fun length => shrinks_within length _
    · exact shrinks_element field
  · refine (shrinks_onBlock _).bind fun active => shrinks_ite ?_ (hvalue _)
    exact (shrinks_onBlock _).bind fun _ => hvalue _
  · exact (hvalue _).bind fun _ => shrinks_ite (shrinks_onBlock _) (shrinks_pure _)
  · exact hvalue _

variable [Handler Ref S]

theorem shrinks_handledNumber (field : Field Ref) (slot : Nat) :
    (handledNumber field slot : Decode σ S Unit).Shrinks room := by
  refine (shrinks_number field).bind fun scalar state => ?_
  simp only [withHandler, Step.result_ofRun]
  split <;> exact Nat.le_refl _

theorem shrinks_handled (field : Field Ref) (type : WireType) :
    (handled config depth field type : Decode σ S Unit).Shrinks room := by
  refine (shrinks_onBlock _).bind fun slot => shrinks_ite (shrinks_skipValue _ _) ?_
  refine (shrinks_get.bind fun _ => shrinks_ite (shrinks_throw _) (shrinks_pure _)).bind fun _ => ?_
  refine shrinks_ite ?_ (shrinks_handledNumber field slot)
  exact (shrinks_onWire Wire.shrinks_readLength).bind fun length => shrinks_within length _

/-- No field gives back bytes, whatever its handler does. -/
theorem shrinks_record (type : WireType) (number : Nat) (found : Option (Entry Ref)) :
    (record schema config nested depth table type number found).Shrinks room := by
  have hskip : (skipValue number type >>= fun _ => pure none : Decode σ S (Option Nat)).Shrinks room :=
    (shrinks_skipValue number type).bind fun _ => shrinks_pure _
  unfold record
  split
  · exact shrinks_unless hskip
  · refine shrinks_ite ?_ (shrinks_unless hskip)
    exact shrinks_ite ((shrinks_handled _ _).bind fun _ => shrinks_pure _)
      ((shrinks_stored _ _).bind fun _ => shrinks_pure _)

-- ---------------------------------------------------------------------------
-- Courses
-- ---------------------------------------------------------------------------

/-- The fields of a message of `ref` at a depth, up to the end of the input, each of which is decoded or
skipped and does not fail. Their headers are told in the order of the wire. -/
inductive Course (schema : Schema Ref) (config : DecodeConfig) (depth : Nat) (ref : Ref) :
    List (Nat × WireType) → Decoding σ S → Decoding σ S → Prop
  | done {state last : Decoding σ S} (h : (onWire Wire.readTag).result state = (.ok none, last)) :
    Course schema config depth ref [] state last
  | field {header : Nat × WireType} {headers : List (Nat × WireType)} {mark : Option Nat}
    {state middle after last : Decoding σ S}
    (hheader : (onWire Wire.readTag).result state = (.ok (some header), middle))
    (hrecord : (record schema config (message schema config (depth + 1)) depth (schema ref) header.2 header.1
      ((schema ref).entryOf? header.1)).result middle = (.ok mark, after))
    (hrest : Course schema config depth ref headers after last) :
    Course schema config depth ref (header :: headers) state last

variable {ref : Ref} {state last : Decoding σ S} {headers : List (Nat × WireType)} {cursor : Cursor}

/-- The number under which the field of a header is tracked, if its value goes into the field. -/
def markOf (table : Table Ref) (header : Nat × WireType) : Option Nat :=
  ((table.entryOf? header.1).filter (·.field.accepts header.2)).bind tracked?

theorem mark_of_record {header : Nat × WireType} {mark : Option Nat}
    (hr : (record schema config nested depth table header.2 header.1 (table.entryOf? header.1)).result state =
      (.ok mark, last)) : mark = markOf table header := by
  unfold record at hr
  unfold markOf
  split at hr
  · next hnone =>
    rw [hnone]
    exact mark_of_skip hr
  · next entry hentry =>
    rw [hentry]
    cases ha : entry.field.accepts header.2 with
    | false =>
      simp only [ha, Bool.false_eq_true, if_false, Option.filter_some] at hr ⊢
      exact mark_of_skip hr
    | true =>
      have hfound : ∀ {step : Decode σ S Unit}, (step >>= fun _ => pure (tracked? entry)).result state =
          (.ok mark, last) → mark = tracked? entry := by
        intro step hr
        obtain ⟨_, _, -, hpure⟩ := Step.result_bind_eq_ok.mp hr
        cases hpure
        rfl
      simp only [ha, if_true, Option.filter_some] at hr ⊢
      split at hr <;> exact hfound hr

/-- A walk with room for all bytes goes the whole course, wherever its lookups start, and has seen the
marks of the headers at its end. -/
theorem walk_of_course (htags : (schema ref).fields.Pairwise (·.tag ≠ ·.tag))
    (h : Course schema config depth ref headers state last) {places : Nat} (hp : room state ≤ places)
    (hc : cursor.Placed (schema ref)) (seen : List Nat) :
    ∃ found, (walk schema config (message schema config (depth + 1)) depth (schema ref) places cursor seen).result
        state = (.ok found, last) ∧
      ∀ mark, mark ∈ found ↔ mark ∈ seen ∨ ∃ header ∈ headers, markOf (schema ref) header = some mark := by
  induction h generalizing places cursor seen with
  | @done state last h =>
    refine ⟨seen, ?_, by simp⟩
    cases places with
    | zero =>
      have hend : (onWire Wire.readTag).result state = (.ok none, state) :=
        result_onWire (Wire.readTag_of_left (Nat.le_zero.mp hp))
      rw [hend] at h
      cases h
      rfl
    | succ places =>
      rw [walk, Step.result_bind_ok h]
      rfl
  | @field header headers mark state middle after last hheader hrecord hrest ih =>
    have hread : Wire.readTag.result state.input = (.ok (some header), middle.input) :=
      Step.result_mapFailure_eq_ok (result_onInput_eq_ok hheader)
    have hshrinks : (record schema config (message schema config (depth + 1)) depth (schema ref) header.2
      header.1 ((schema ref).entryOf? header.1) : Decode σ S (Option Nat)).Shrinks room := shrinks_record _ _ _
    have hle : room after ≤ room middle := by simpa only [hrecord] using hshrinks middle
    have hlt : room after < room state := Nat.lt_of_le_of_lt hle (Wire.left_of_readTag hread)
    obtain ⟨places, rfl⟩ : ∃ n, places = n + 1 := ⟨places - 1, by omega⟩
    obtain ⟨next, hfind, hplaced⟩ := Cursor.find_placed htags hc header.1
    have hroom : room after ≤ places := by omega
    obtain ⟨found, hwalk, hfound⟩ := ih hroom hplaced (mark.elim seen (seen.insert ·))
    refine ⟨found, ?_, fun number => ?_⟩
    · rw [walk, Step.result_bind_ok hheader]
      simp only [hfind]
      rw [Step.result_bind_ok hrecord]
      exact hwalk
    · have hmark := mark_of_record hrecord
      simp only [hfound number, List.mem_cons, exists_eq_or_imp, ← hmark]
      cases mark <;> simp [or_assoc, or_left_comm, eq_comm]

-- ---------------------------------------------------------------------------
-- What is missing
-- ---------------------------------------------------------------------------

omit [Source σ] [Handler Ref S] in
theorem markOf_eq_some {header : Nat × WireType} {mark : Nat} (h : markOf table header = some mark) :
    ∃ entry, table.entryOf? header.1 = some entry ∧ entry.field.accepts header.2 = true ∧
      tracked? entry = some mark := by
  obtain ⟨entry, hentry, ht⟩ := Option.bind_eq_some_iff.mp h
  obtain ⟨hentry, ha⟩ := Option.filter_eq_some_iff.mp hentry
  exact ⟨entry, hentry, ha, ht⟩

/-- The mark of a field has been seen if there was a value for the field. -/
theorem mem_marks_iff (htags : table.fields.Pairwise (·.tag ≠ ·.tag)) {entry : Entry Ref}
    (he : entry ∈ table.entries) {mark : Nat} (ht : tracked? entry = some mark) :
    (∃ header ∈ headers, markOf table header = some mark) ↔ entry.field.occursIn headers = true := by
  have hentry := (Cursor.mem_entries_iff htags).mp he
  rw [Field.occursIn_iff]
  constructor
  · rintro ⟨⟨number, type⟩, hmem, hmark⟩
    obtain ⟨other, hother, ha, ht'⟩ := markOf_eq_some hmark
    obtain rfl : other.field.tag = number := Cursor.tag_of_findWithin (Prod.ext hother rfl)
    have ho := (Cursor.mem_entries_iff htags).mpr hother
    -- no other field has this count
    obtain rfl := Cursor.eq_of_requiredIndex ho he (tracked?_eq_some.mp ht').1 (tracked?_eq_some.mp ht).1
    exact ⟨type, hmem, ha⟩
  · rintro ⟨type, hmem, ha⟩
    exact ⟨_, hmem, by simp [markOf, hentry, Option.filter_some, ha, ht]⟩

/-- The first tracked field whose mark has not been seen is the first required field without a value. -/
theorem missing?_eq_lacking? (htags : table.fields.Pairwise (·.tag ≠ ·.tag))
    (hrequired : table.requiredCount ≤ maxRequiredFields) {found : List Nat}
    (hfound : ∀ mark, mark ∈ found ↔ ∃ header ∈ headers, markOf table header = some mark) :
    missing? table found = table.lacking? headers := by
  have hsame : ∀ entry ∈ table.entries, (tracked? entry).any (!found.contains ·) =
      (entry.field.isRequired && !entry.field.occursIn headers) := by
    intro entry he
    cases ht : tracked? entry with
    | none =>
      cases hr : entry.field.isRequired with
      | false => rfl
      | true =>
        obtain ⟨mark, hmark⟩ := tracked_of_required hrequired he hr
        rw [ht] at hmark
        cases hmark
    | some mark =>
      have hmem := (hfound mark).trans (mem_marks_iff htags he ht)
      cases ho : entry.field.occursIn headers <;> simp_all [isRequired_of_tracked he ht]
  rw [missing?, List.find?_congr hsame, Table.lacking?, ← Cursor.map_field_entries table, List.find?_map]
  rfl

-- ---------------------------------------------------------------------------
-- Messages
-- ---------------------------------------------------------------------------

/-- What the decoder counts on to find the required fields of a table. -/
structure Counted (table : Table Ref) : Prop where
  tags_ne : table.fields.Pairwise (·.tag ≠ ·.tag)
  required_le : table.requiredCount ≤ maxRequiredFields

omit [Source σ] [Handler Ref S] in
theorem counted_of_validate (h : Table.validate schema ref = .ok ()) : schema.Throughout Counted ref :=
  fun inner hb => ⟨(Schema.fits_of_validate h inner hb).tags_ne, Schema.required_of_validate h inner hb⟩

theorem message_of_course (hc : Counted (schema ref)) (hd : depth ≤ config.maxDepth)
    (hs : (schema ref).size ≤ state.block.length) (h : Course schema config depth ref headers state last) :
    (message schema config depth ref).result state = ((schema ref).verdict headers, last) := by
  obtain ⟨levels, hlevels⟩ : ∃ levels, config.maxDepth = depth + levels := ⟨config.maxDepth - depth, by omega⟩
  have hnested : (message schema config (depth + 1) : Ref → Decode σ S Unit) =
      messageWithin schema config levels := by
    funext inner
    rw [message, hlevels]
    congr 1
    omega
  obtain ⟨found, hwalk, hfound⟩ := walk_of_course hc.tags_ne h (Nat.le_refl _) Cursor.placed_start []
  have hmissing := missing?_eq_lacking? hc.tags_ne hc.required_le fun mark => by simpa using hfound mark
  have hroom : config.maxDepth + 1 - depth = levels + 1 := by omega
  have hdepth : config.maxDepth - levels = depth := by omega
  rw [message, hroom, messageWithin_of_ok (Table.checkBlock_ok hs), hdepth, ← hnested, fields_eq_walk,
    Step.result_bind_ok hwalk, checkRequired, hmissing, Table.verdict]
  cases (schema ref).lacking? headers <;> rfl

/-- A value that is such a message ends like it, in a part of the input that has been taken whole. -/
theorem value_of_course {field : Field Ref} {inner : Ref} (hk : field.kind = .message inner)
    (hc : Counted (schema inner)) (hd : depth ≤ config.maxDepth)
    (hs : (schema inner).size ≤ state.block.length) {length : Nat} {middle : Decoding σ S} {part : Input σ}
    (hlength : (onWire Wire.readLength).result state = (.ok length, middle))
    (hpart : middle.input.narrow length = .ok part)
    (h : Course schema config depth inner headers { middle with input := part } last)
    (hwhole : last.input.isExhausted = true) :
    (value config (message schema config depth) field).result state =
      ((schema inner).verdict headers, { last with input := middle.input.rejoin last.input }) := by
  have hblock : middle.block = state.block := by
    rw [← (Prod.mk.inj hlength).2]
  have hmessage := message_of_course hc hd (hblock ▸ hs) h
  have hresult : (whole length (message schema config depth inner)).result { middle with input := part } =
      ((schema inner).verdict headers, last) := by
    cases hv : (schema inner).verdict headers with
    | error failure => exact Step.result_bind_error (hmessage.trans (by rw [hv]))
    | ok _ =>
      rw [whole, Step.result_bind_ok (hmessage.trans (by rw [hv])), Step.result_bind_ok (Step.result_get last)]
      simp [hwhole]
  unfold value
  simp only [hk]
  rw [Step.result_bind_ok hlength]
  simp only [within, Step.result_ofRun, hpart, hresult]

/-- Required fields are reported exactly. A message of fields that are all decoded or skipped is accepted if
each required field of its table has a value among them, and else the first in the table that has none is
named; so is a message inside, at any depth, and a value that is such a message. -/
theorem decodeMessage_verdict (hvalid : Table.validate schema ref = .ok ()) (config : DecodeConfig) :
    (∀ (state last : Decoding σ S) (initial : Bytes) (headers : List (Nat × WireType)),
      (schema.initialise ref).result state.block = (.ok (), initial) →
      Course schema config 0 ref headers { state with block := initial } last →
      (decodeMessage schema config ref).result state = ((schema ref).verdict headers, last)) ∧
    (∀ inner, schema.Below ref inner → ∀ depth ≤ config.maxDepth, ∀ (state last : Decoding σ S)
      (headers : List (Nat × WireType)), (schema inner).size ≤ state.block.length →
      Course schema config depth inner headers state last →
      (message schema config depth inner).result state = ((schema inner).verdict headers, last)) ∧
    (∀ inner, schema.Below ref inner → ∀ depth ≤ config.maxDepth, ∀ (field : Field Ref)
      (state middle last : Decoding σ S) (length : Nat) (part : Input σ) (headers : List (Nat × WireType)),
      field.kind = .message inner → (schema inner).size ≤ state.block.length →
      (onWire Wire.readLength).result state = (.ok length, middle) → middle.input.narrow length = .ok part →
      Course schema config depth inner headers { middle with input := part } last →
      last.input.isExhausted = true →
      (value config (message schema config depth) field).result state =
        ((schema inner).verdict headers, { last with input := middle.input.rejoin last.input })) ∧
    ∀ (table : Table Ref) (headers : List (Nat × WireType)), table.verdict headers = .ok () ↔
      ∀ field ∈ table.fields, field.isRequired = true →
        ∃ type, (field.tag, type) ∈ headers ∧ field.accepts type = true := by
  have hcounted := counted_of_validate hvalid
  refine ⟨fun state last initial headers hinit hcourse => ?_, fun inner hb depth hd state last headers hs =>
      message_of_course (hcounted inner hb) hd hs,
    fun inner hb depth hd field state middle last length part headers hk hs =>
      value_of_course hk (hcounted inner hb) hd hs, fun table headers => ?_⟩
  · have hblock : (onBlock (schema.initialise ref) : Decode σ S Unit).result state =
        (.ok (), { state with block := initial }) := result_onBlock_eq_ok.mpr ⟨hinit, rfl⟩
    rw [decodeMessage, Step.result_bind_ok hblock]
    exact message_of_course hcounted.here (Nat.zero_le _) (Schema.size_le_of_initialise hinit) hcourse
  · exact Table.verdict_eq_ok_iff

/-- A dossier with a number, a title and a sheet; the sheet has a page. -/
def dossier : Schema Bool
  | false => ⟨"Dossier", [.ofStorage 1 "number" (.varint ⟨.w32, false⟩) 0 4, .ofStorage 2 "title" .text 4 4,
      (Field.ofStorage 3 "sheet" (.message true) 8 4).implicit], 12⟩
  | true => ⟨"Sheet", [.ofStorage 1 "page" (.varint ⟨.w32, false⟩) 0 4], 4⟩

/-- An unknown field and a number, but no title; and a sheet without a page. -/
theorem decodeMessage_verdict_dossier :
    Table.validate dossier false = .ok () ∧
    (∃ start last : Decoding Bytes Empty, start = ⟨.ofBytes [0x20, 5, 8, 7], Bytes.zeros 12, []⟩ ∧
      Course dossier {} 0 false [(4, .varint), (1, .varint)] start last ∧
      (decodeMessage dossier {} false).result start =
        (.error (.missingRequiredField "Dossier" "title"), last)) ∧
    ∃ start last : Decoding Bytes Empty, start = ⟨.ofBytes [0], Bytes.zeros 4, []⟩ ∧
      (value {} (message dossier {} 1) (.ofStorage 3 "sheet" (.message true) 8 4)).result start =
        (.error (.missingRequiredField "Sheet" "page"), last) := by
  have hvalid : Table.validate dossier false = .ok () := rfl
  have hsheet : dossier.Below false true := .step (by decide) (.refl true)
  refine ⟨hvalid, ⟨_, ⟨⟨[], 0, 4, true⟩, [7, 0, 0, 0, 0, 0, 0, 0, 0, 0, 0, 0], []⟩, rfl, ?_⟩,
    _, ⟨⟨[], 0, 1, true⟩, Bytes.zeros 4, []⟩, rfl, ?_⟩
  · have hstray : (record dossier {} (message dossier {} 1) 0 (dossier false) .varint 4
        ((dossier false).entryOf? 4)).result
          (⟨⟨[5, 8, 7], 3, 1, true⟩, Bytes.zeros 12, []⟩ : Decoding Bytes Empty) =
            (.ok none, ⟨⟨[8, 7], 2, 2, true⟩, Bytes.zeros 12, []⟩) := by cbv
    have hnumber : (record dossier {} (message dossier {} 1) 0 (dossier false) .varint 1
        ((dossier false).entryOf? 1)).result
          (⟨⟨[7], 1, 3, true⟩, Bytes.zeros 12, []⟩ : Decoding Bytes Empty) =
            (.ok (some 0), ⟨⟨[], 0, 4, true⟩, [7, 0, 0, 0, 0, 0, 0, 0, 0, 0, 0, 0], []⟩) := by cbv
    have hcourse : Course dossier {} 0 false [(4, .varint), (1, .varint)]
        (⟨.ofBytes [0x20, 5, 8, 7], Bytes.zeros 12, []⟩ : Decoding Bytes Empty) _ :=
      .field rfl hstray (.field rfl hnumber (.done rfl))
    have hinit : (dossier.initialise false).result (Bytes.zeros 12) = (.ok (), Bytes.zeros 12) := rfl
    have hverdict : (dossier false).verdict [(4, .varint), (1, .varint)] =
        .error (.missingRequiredField "Dossier" "title") := rfl
    exact ⟨hcourse, hverdict ▸ (decodeMessage_verdict hvalid {}).1 _ _ _ _ hinit hcourse⟩
  · exact (decodeMessage_verdict hvalid {}).2.2.1 true hsheet 1 (by decide) _ _
      ⟨⟨[], 0, 1, true⟩, Bytes.zeros 4, []⟩ ⟨⟨[], 0, 0, true⟩, Bytes.zeros 4, []⟩ 0 _ [] rfl (by decide)
      (by cbv) rfl (.done rfl) rfl

end Decode

end BlockCodec
