import BlockCodec.Message.Collect
import BlockCodec.Proofs.Emission
import BlockCodec.Proofs.Laps
import BlockCodec.Proofs.Narrowing
import BlockCodec.Proofs.Rows

/-!
# Values through collectors

A collector sends the values it has as a list of records (`Collector.records`), all of them in one when the
field is packed. A decoder that is given these records feeds an empty collector until it has the same
values, numbers as the wire carries them: `Collector.laps_records`.
-/

namespace BlockCodec

variable {Ref α β : Type} {field : Field Ref} {content : Bytes}

-- ---------------------------------------------------------------------------
-- Collectors
-- ---------------------------------------------------------------------------

namespace Collector

/-- The collector is one for values of the kind. -/
def Suits (kind : Kind Ref) : Collector → Prop
  | .scalars _ => kind.isScalar = true
  | .bytes _ => kind = .bytes
  | .texts _ => kind = .text
  | .nothing => False

def isEmpty : Collector → Bool
  | .scalars values => values.isEmpty
  | .bytes items => items.isEmpty
  | .texts items => items.isEmpty
  | .nothing => true

/-- The collector without its values. -/
def emptied : Collector → Collector
  | .scalars _ => .scalars []
  | .bytes _ => .bytes []
  | .texts _ => .texts []
  | .nothing => .nothing

/-- The collector with its numbers as the wire carries them. -/
def carried (kind : Kind Ref) : Collector → Collector
  | .scalars values => .scalars (values.map kind.carry)
  | collector => collector

/-- A number behind its header. -/
def numberRecord (field : Field Ref) (value : Scalar) : Bytes :=
  Wire.headerForm field.kind.wireType field.tag ++ field.scalarForm value

/-- What a collector sends, record by record. -/
def records (field : Field Ref) : Collector → List Bytes
  | .scalars values =>
    if field.packed then
      if values.isEmpty then [] else [field.packForm (values.flatMap field.scalarForm)]
    else values.map (numberRecord field)
  | .bytes items => items.map field.packForm
  | .texts items => items.map fun item => field.packForm (Bytes.ofText item)
  | .nothing => []

theorem records_ne_nil {collector : Collector} (h : collector.isEmpty = false) : collector.records field ≠ [] := by
  cases collector with
  | nothing => cases h
  | scalars values =>
    have hne : values ≠ [] := by simpa [isEmpty] using h
    simp only [records]
    split <;> simp [hne]
  | bytes items | texts items => simpa [records, isEmpty] using h

-- ---------------------------------------------------------------------------
-- Values written
-- ---------------------------------------------------------------------------

section

open Output

variable {writer : ElementWriter Ref} {collector : Collector}

theorem puts_writeEach {write : Scalar → Step (Output Bytes) CodecError Unit} {form : Scalar → Bytes}
    (h : ∀ value, Puts (write value) (form value)) (values : List Scalar) :
    Puts (ElementWriter.writeEach write values) (values.flatMap form) := by
  induction values with
  | nil => exact puts_pure
  | cons value values ih => exact (h value).seq ih

theorem puts_forM {write : α → Step (Output Bytes) CodecError Unit} {form : α → Bytes}
    (h : ∀ item, Puts (write item) (form item)) (items : List α) :
    Puts (items.forM write) (items.flatMap form) := by
  induction items with
  | nil => exact puts_pure
  | cons item items ih => exact (h item).seq ih

theorem length_scalarForms {width : Nat} (hw : field.kind.wireLength? = some width) (values : List Scalar) :
    (values.flatMap field.scalarForm).length = width * values.length := by
  induction values with
  | nil => rfl
  | cons value values ih =>
    rw [List.flatMap_cons, List.length_append, ih, Field.length_scalarForm hw, List.length_cons]
    ring

/-- A collector writes its records one behind the other. -/
theorem puts_elements (hpos : 0 < writer.field.tag) (hle : writer.field.tag ≤ Wire.maxFieldNumber)
    (hs : collector.Suits writer.field.kind) :
    Puts (collector.elements writer) (collector.records writer.field).flatten := by
  have hheader : ∀ type, Puts (writer.writeHeader type) (Wire.headerForm type writer.field.tag) :=
    fun type => (Wire.puts_writeTag hpos hle).mapFailure _
  have hbytes : ∀ item, Puts (writer.writeBytes item) (writer.field.packForm item) :=
    fun item => (hheader .delimited).seq ((Wire.puts_writeDelimited item).mapFailure _)
  cases collector with
  | nothing => exact hs.elim
  | bytes items =>
    rw [records, ← List.flatMap_def]
    exact puts_forM hbytes items
  | texts items =>
    rw [records, ← List.flatMap_def]
    exact puts_forM (fun item => hbytes (Bytes.ofText item)) items
  | scalars values =>
    have hscalar : writer.field.kind.isScalar = true := hs
    simp only [elements, records]
    by_cases hp : writer.field.packed = true
    · rw [if_pos hp, if_pos hp, ElementWriter.writePacked]
      by_cases he : values.isEmpty = true
      · rw [if_pos he, if_pos he]
        exact puts_pure
      · rw [if_neg he, if_neg he, if_neg (by simp [hscalar]), List.flatten_singleton]
        exact Encode.puts_writePacked hpos hle (puts_writeEach (Field.puts_writeScalar hscalar) values)
          fun width hw => length_scalarForms hw values
    · rw [if_neg hp, if_neg hp, ← List.flatMap_def]
      exact puts_writeEach (fun value => (hheader _).seq (Field.puts_writeScalar hscalar value)) values

end

/-- Every record that is sent is one of the field. -/
theorem recordOf_of_mem {collector : Collector} (hpos : 0 < field.tag) (hle : field.tag ≤ Wire.maxFieldNumber)
    (hs : collector.Suits field.kind) (hl : ∀ record ∈ collector.records field, record.length < 2 ^ 32)
    {record : Bytes} (hr : record ∈ collector.records field) :
    ∃ type, Wire.RecordOf (field.tag, type) record := by
  have hpacked : ∀ body, field.packForm body = record → ∃ type, Wire.RecordOf (field.tag, type) record := by
    rintro body rfl
    exact ⟨_, Field.recordOf_packForm hpos hle (hl _ hr)⟩
  cases collector with
  | nothing => exact hs.elim
  | bytes items =>
    obtain ⟨item, -, hitem⟩ := List.mem_map.mp hr
    exact hpacked item hitem
  | texts items =>
    obtain ⟨item, -, hitem⟩ := List.mem_map.mp hr
    exact hpacked _ hitem
  | scalars values =>
    simp only [records] at hr
    split at hr
    · split at hr
      · cases hr
      · exact hpacked _ (List.mem_singleton.mp hr).symm
    · obtain ⟨value, -, rfl⟩ := List.mem_map.mp hr
      obtain ⟨raw, hraw⟩ := Field.reads_scalar_raw hs value
      exact ⟨_, Wire.recordOf_of_reads hpos hle hraw⟩

end Collector

-- ---------------------------------------------------------------------------
-- Values taken
-- ---------------------------------------------------------------------------

namespace Decode

variable {last : Prop} {block : Bytes} {place : Nat}

section

variable {S : Type} {handlers : List S} {handler handler' : S}

/-- A handler at work on just these bytes. -/
theorem turns_withHandler {step : Receive Bytes S α} {value : α} (hh : handlers[place]? = some handler)
    (h : ∀ (rest : Bytes) (left taken : Nat) (bounded : Bool), content.length ≤ left →
      (last → left = content.length) →
      step.result (⟨content ++ rest, left, taken, bounded⟩, handler) =
        (.ok value, ⟨rest, left - content.length, taken + content.length, bounded⟩, handler')) :
    Turns last (withHandler field (place + 1) step) content (block, handlers) value
      (block, handlers.set place handler') := by
  intro rest left taken bounded hle hlast
  rw [withHandler, Step.result_ofRun, Nat.add_sub_cancel]
  simp only [hh, h rest left taken bounded hle hlast]

variable [Handler Ref S] {after : List S} {config : DecodeConfig} {depth : Nat} {type : WireType}

/-- A bound field goes on with its handler. -/
theorem result_handled {state : Decoding Bytes S} (hslot : field.handlerSlot state.block = .ok (place + 1))
    (hlt : place < state.handlers.length) :
    (handled config depth field type).result state = (if type = .delimited then do
        let length ← onWire Wire.readLength
        within length (if field.kind.isScalar then handledElements field (place + 1) length
          else handledPayload config depth field (place + 1))
      else handledNumber field (place + 1) : Decode Bytes S Unit).result state := by
  have hask : (onBlock (Edit.ask field.handlerSlot) : Decode Bytes S Nat).result state = (.ok (place + 1), state) :=
    result_onBlock_eq_ok.mpr ⟨by rw [Edit.ask, Step.result_ofRun, hslot], rfl⟩
  have hrequire : (requireHandler field (place + 1) : Decode Bytes S Unit).result state = (.ok (), state) := by
    rw [requireHandler, Step.result_bind_ok (Step.result_get state), if_neg (by omega)]
    rfl
  rw [handled, Step.result_bind_ok hask, if_neg (by omega), Step.result_bind_ok hrequire]

theorem turns_handled (hslot : field.handlerSlot block = .ok (place + 1)) (hlt : place < handlers.length)
    (h : Turns last (if type = .delimited then do
        let length ← onWire Wire.readLength
        within length (if field.kind.isScalar then handledElements field (place + 1) length
          else handledPayload config depth field (place + 1))
      else handledNumber field (place + 1) : Decode Bytes S Unit) content (block, handlers) () (block, after)) :
    Turns last (handled config depth field type) content (block, handlers) () (block, after) := by
  intro rest left taken bounded hle hlast
  rw [result_handled hslot hlt]
  exact h rest left taken bounded hle hlast

/-- A payload that the handler takes as a whole, behind its length. -/
theorem turns_delimited (hslot : field.handlerSlot block = .ok (place + 1)) (hlt : place < handlers.length)
    (hl : content.length < 2 ^ 32)
    (h : Turns True (if field.kind.isScalar then handledElements field (place + 1) content.length
      else handledPayload config depth field (place + 1) : Decode Bytes S Unit) content (block, handlers) ()
        (block, after)) :
    Turns last (handled config depth field .delimited) (Wire.delimitedForm content) (block, handlers) ()
      (block, after) := by
  refine turns_handled hslot hlt ?_
  rw [if_pos rfl]
  exact turns_length hl h.within

/-- What is done behind the header of a field that the table has is a lap. -/
theorem lap_of_turns {schema : Schema Ref} {nested : Ref → Decode Bytes S Unit} {table : Table Ref}
    (hfits : table.Fits schema) (hf : field ∈ table.fields) (hh : field.isHandled = true)
    (ha : field.accepts type = true) {before next : Bytes × List S}
    (h : Turns True (handled config depth field type) content before () next) :
    Lap schema config nested depth table (Wire.headerForm type field.tag ++ content) (mark? table field.tag)
      before next := by
  have htag := Wire.result_nextTag_headerForm (hfits.tag_pos field hf) (hfits.tag_le field hf) type content
  obtain ⟨entry, hfound, rfl⟩ := Cursor.entryOf?_of_mem hfits.tags_ne hf
  have hrun := h [] content.length (Wire.headerForm type entry.field.tag).length true (Nat.le_refl _) fun _ => rfl
  rw [List.append_nil, Nat.sub_self] at hrun
  refine (lap_iff_record htag).mpr
    ⟨⟨[], 0, (Wire.headerForm type entry.field.tag).length + content.length, true⟩, rfl, ?_⟩
  rw [mark?, hfound]
  simp only [record, ha, hh, if_true]
  rw [Step.result_bind_ok hrun]
  rfl

end

variable {handlers : List Collector} {collector : Collector}

theorem turns_handledNumber (hk : field.kind.isScalar = true) {values : List Scalar}
    (hh : handlers[place]? = some (.scalars values)) (value : Scalar) :
    Turns last (handledNumber field (place + 1) : Decode Bytes Collector Unit) (field.scalarForm value)
      (block, handlers) () (block, handlers.set place (.scalars (values ++ [field.kind.carry value]))) := by
  have hread : Turns False (number field : Decode Bytes Collector Scalar) (field.scalarForm value)
      (block, handlers) (field.kind.carry value) (block, handlers) := turns_onInput (Field.reads_carry hk value)
  have htake : Turns last (withHandler field (place + 1)
      ((Handler.takeScalar field (field.kind.carry value)).onPart (·.2) fun handler state => (state.1, handler)) :
        Decode Bytes Collector Unit) [] (block, handlers) ()
        (block, handlers.set place (.scalars (values ++ [field.kind.carry value]))) :=
    turns_withHandler hh fun rest left taken bounded _ _ => rfl
  rw [← List.append_nil (field.scalarForm value)]
  exact hread.bind htake

theorem set_of_get (h : handlers[place]? = some collector) : handlers.set place collector = handlers := by
  obtain ⟨hlt, rfl⟩ := List.getElem?_eq_some_iff.mp h
  exact List.set_getElem_self hlt

/-- A run of numbers, one after the other. -/
theorem turns_handledElements (hk : field.kind.isScalar = true) {before : List Scalar}
    (hh : handlers[place]? = some (.scalars before)) (values : List Scalar) {room : Nat}
    (hroom : (values.flatMap field.scalarForm).length ≤ room) :
    Turns True (handledElements field (place + 1) room : Decode Bytes Collector Unit)
      (values.flatMap field.scalarForm) (block, handlers) ()
      (block, handlers.set place (.scalars (before ++ values.map field.kind.carry))) := by
  induction values generalizing handlers before room with
  | nil =>
    rw [List.map_nil, List.append_nil, set_of_get hh]
    cases room with
    | zero => exact turns_pure () _
    | succ room =>
      refine turns_get fun state _ _ hlast => ?_
      rw [if_pos (by simp [Input.isExhausted, hlast trivial])]
      exact turns_pure () _
  | cons value values ih =>
    have hpos := length_scalarForm_pos hk value
    rw [List.flatMap_cons, List.length_append] at hroom
    obtain ⟨room, rfl⟩ : ∃ n, room = n + 1 := ⟨room - 1, by omega⟩
    have hgrown : (handlers.set place (.scalars (before ++ [field.kind.carry value])))[place]? =
        some (.scalars (before ++ [field.kind.carry value])) :=
      List.getElem?_set_self (List.getElem?_eq_some_iff.mp hh).1
    have hrest := ih hgrown (show _ ≤ room by omega)
    rw [List.set_set, List.append_assoc] at hrest
    refine turns_get fun state _ hle _ => ?_
    rw [List.flatMap_cons, List.length_append] at hle
    rw [if_neg (by simp only [Input.isExhausted, beq_iff_eq]; omega)]
    exact (turns_handledNumber hk hh value).bind hrest

/-- A payload that the collector keeps as it is. -/
theorem turns_handledPayload {config : DecodeConfig} {depth : Nat} {after : Collector}
    (hh : handlers[place]? = some collector)
    (h : ∀ (payload : Payload) (rest : Bytes) (taken : Nat) (bounded : Bool),
      (Collector.takePayload field payload).result (⟨content ++ rest, content.length, taken, bounded⟩, collector) =
        (.ok (), ⟨rest, 0, taken + content.length, bounded⟩, after)) :
    Turns True (handledPayload config depth field (place + 1) : Decode Bytes Collector Unit) content
      (block, handlers) () (block, handlers.set place after) := by
  have htake : Turns True (withHandler field (place + 1) (Handler.takePayload field
      { field := field.name, config, depth }) : Decode Bytes Collector Unit) content (block, handlers) ()
        (block, handlers.set place after) :=
    turns_withHandler hh fun rest left taken bounded _ hlast => by
      rw [hlast trivial, Nat.sub_self]
      exact h _ rest taken bounded
  intro rest left taken bounded hle hlast
  unfold handledPayload
  rw [Step.result_bind_ok (htake rest left taken bounded hle hlast), Step.result_bind_ok (Step.result_get _),
    hlast trivial, Nat.sub_self]
  simp [onWire, onInput, Wire.onStream, Input.skip, Source.skip, Input.charge, Except.mapError]

theorem result_toBytes (content rest : Bytes) (taken : Nat) (bounded : Bool) :
    (Payload.toBytes : Step (Input Bytes) CodecError Bytes).result ⟨content ++ rest, content.length, taken, bounded⟩ =
      (.ok content, ⟨rest, 0, taken + content.length, bounded⟩) := by
  have hread := ((Input.reads_read content).mapFailure CodecError.stream) rest content.length taken bounded
    (Nat.le_refl _)
  rw [Nat.sub_self] at hread
  exact hread

theorem takePayload_bytes (items : List Bytes) (payload : Payload) (rest : Bytes) (taken : Nat) (bounded : Bool) :
    (Collector.takePayload field payload).result (⟨content ++ rest, content.length, taken, bounded⟩, .bytes items) =
      (.ok (), ⟨rest, 0, taken + content.length, bounded⟩, .bytes (items ++ [content])) := by
  have htake := result_toBytes content rest taken bounded
  unfold Collector.takePayload
  rw [Step.result_bind_ok (Step.result_get _)]
  simp only [Step.result_bind, Step.result_onPart, htake, Step.result_modify]

theorem takePayload_texts (items : List String) (text : String) (payload : Payload) (rest : Bytes) (taken : Nat)
    (bounded : Bool) :
    (Collector.takePayload field payload).result
        (⟨Bytes.ofText text ++ rest, (Bytes.ofText text).length, taken, bounded⟩, .texts items) =
      (.ok (), ⟨rest, 0, taken + (Bytes.ofText text).length, bounded⟩, .texts (items ++ [text])) := by
  have htake : payload.toText.result ⟨Bytes.ofText text ++ rest, (Bytes.ofText text).length, taken, bounded⟩ =
      (.ok text, ⟨rest, 0, taken + (Bytes.ofText text).length, bounded⟩) := by
    rw [Payload.toText, Step.result_bind_ok (result_toBytes _ rest taken bounded), Payload.asText,
      Bytes.text?_ofText]
    rfl
  unfold Collector.takePayload
  rw [Step.result_bind_ok (Step.result_get _)]
  simp only [Step.result_bind, Step.result_onPart, htake, Step.result_modify]

-- ---------------------------------------------------------------------------
-- Records taken
-- ---------------------------------------------------------------------------

variable {schema : Schema Ref} {config : DecodeConfig} {nested : Ref → Decode Bytes Collector Unit} {depth : Nat}
  {table : Table Ref}

/-- Items that come one by one are kept in their order. -/
theorem laps_each {make : List β → Collector} {form : β → Bytes} {tag : Nat} {items : List β}
    (h : ∀ item ∈ items, ∀ handlers before, handlers[place]? = some (make before) →
      Lap schema config nested depth table (form item) (mark? table tag) (block, handlers)
        (block, handlers.set place (make (before ++ [item]))))
    {before : List β} (hh : handlers[place]? = some (make before)) :
    ∃ marks, Laps schema config nested depth table (items.map form) marks (block, handlers)
        (block, handlers.set place (make (before ++ items))) ∧
      Notes table (items.map fun _ => tag) marks := by
  induction items generalizing handlers before with
  | nil =>
    rw [List.append_nil, set_of_get hh]
    exact ⟨[], .nil _, notes_nil table⟩
  | cons item items ih =>
    obtain ⟨hitem, hitems⟩ := List.forall_mem_cons.mp h
    have hgrown : (handlers.set place (make (before ++ [item])))[place]? = some (make (before ++ [item])) :=
      List.getElem?_set_self (List.getElem?_eq_some_iff.mp hh).1
    obtain ⟨marks, hlaps, hnotes⟩ := ih hitems hgrown
    rw [List.set_set, List.append_assoc] at hlaps
    exact ⟨_, .cons (hitem handlers before hh) hlaps, (notes_mark table tag).append hnotes⟩

end Decode

namespace Collector

open Decode

variable {schema : Schema Ref} {config : DecodeConfig} {nested : Ref → Decode Bytes Collector Unit} {depth : Nat}
  {table : Table Ref} {collector : Collector} {handlers : List Collector} {block : Bytes} {place : Nat}

theorem length_lt_of_packForm (hl : (field.packForm content).length < 2 ^ 32) : content.length < 2 ^ 32 := by
  rw [Field.packForm, Wire.delimitedForm, List.length_append, List.length_append] at hl
  omega

section

variable (hfits : table.Fits schema) (hf : field ∈ table.fields) (hh : field.isHandled = true)
  (hslot : field.handlerSlot block = .ok (place + 1))

include hfits hf hh hslot

/-- Items that a collector takes as payloads, each in a record of its own. -/
theorem laps_payloads {make : List β → Collector} {form : β → Bytes} {items : List β}
    (htype : field.kind.wireType = .delimited) (hscalar : field.kind.isScalar = false)
    (hl : ∀ item ∈ items, (field.packForm (form item)).length < 2 ^ 32) (he : handlers[place]? = some (make []))
    (h : ∀ before item (payload : Payload) rest taken bounded, (takePayload field payload).result
        (⟨form item ++ rest, (form item).length, taken, bounded⟩, make before) =
      (.ok (), ⟨rest, 0, taken + (form item).length, bounded⟩, make (before ++ [item]))) :
    ∃ marks, Laps schema config nested depth table (items.map fun item => field.packForm (form item)) marks
        (block, handlers) (block, handlers.set place (make items)) ∧
      Notes table (items.map fun _ => field.tag) marks := by
  refine laps_each (fun item hi handlers before hget => ?_) he
  refine lap_of_turns hfits hf hh (by simp [Field.accepts, htype]) ?_
  refine turns_delimited hslot (List.getElem?_eq_some_iff.mp hget).1 (length_lt_of_packForm (hl item hi)) ?_
  rw [hscalar, if_neg (by simp)]
  exact turns_handledPayload hget (h before item)

/-- Numbers in one record. -/
theorem lap_packed {values : List Scalar} (hk : field.kind.isScalar = true)
    (hl : (field.packForm (values.flatMap field.scalarForm)).length < 2 ^ 32)
    (he : handlers[place]? = some (.scalars [])) :
    Lap schema config nested depth table (field.packForm (values.flatMap field.scalarForm))
      (mark? table field.tag) (block, handlers)
      (block, handlers.set place (.scalars (values.map field.kind.carry))) := by
  refine lap_of_turns hfits hf hh (by simp [Field.accepts, hk, hh]) ?_
  refine turns_delimited hslot (List.getElem?_eq_some_iff.mp he).1 (length_lt_of_packForm hl) ?_
  rw [if_pos hk]
  exact turns_handledElements hk he values (Nat.le_refl _)

/-- Numbers with a record each. -/
theorem laps_numbers {values : List Scalar} (hk : field.kind.isScalar = true)
    (he : handlers[place]? = some (.scalars [])) :
    ∃ marks, Laps schema config nested depth table (values.map (numberRecord field)) marks (block, handlers)
        (block, handlers.set place (.scalars (values.map field.kind.carry))) ∧
      Notes table (values.map fun _ => field.tag) marks := by
  let make (values : List Scalar) : Collector := .scalars (values.map field.kind.carry)
  have hstart : handlers[place]? = some (make []) := he
  refine laps_each (fun value _ handlers before hget => ?_) hstart
  refine lap_of_turns hfits hf hh field.accepts_wireType ?_
  refine turns_handled hslot (List.getElem?_eq_some_iff.mp hget).1 ?_
  have hnumber : Turns True (handledNumber field (place + 1) : Decode Bytes Collector Unit)
      (field.scalarForm value) (block, handlers) () (block, handlers.set place (make (before ++ [value]))) := by
    simp only [make, List.map_append, List.map_cons, List.map_nil]
    exact turns_handledNumber hk hget value
  rwa [if_neg (Kind.wireType_ne_delimited hk)]

/-- The records of a collector fill an empty one with its values. -/
theorem laps_records (hs : collector.Suits field.kind)
    (hl : ∀ record ∈ collector.records field, record.length < 2 ^ 32)
    (he : handlers[place]? = some collector.emptied) :
    ∃ marks, Laps schema config nested depth table (collector.records field) marks (block, handlers)
        (block, handlers.set place (collector.carried field.kind)) ∧
      Notes table ((collector.records field).map fun _ => field.tag) marks := by
  cases collector with
  | nothing => exact hs.elim
  | bytes items =>
    have hkind : field.kind = .bytes := hs
    rw [records, List.map_map]
    exact laps_payloads hfits hf hh hslot (by rw [hkind]; rfl) (by rw [hkind]; rfl)
      (fun item hi => hl _ (List.mem_map_of_mem hi)) he fun before item => takePayload_bytes before
  | texts items =>
    have hkind : field.kind = .text := hs
    rw [records, List.map_map]
    exact laps_payloads hfits hf hh hslot (by rw [hkind]; rfl) (by rw [hkind]; rfl)
      (fun item hi => hl _ (List.mem_map_of_mem hi)) he fun before item => takePayload_texts before item
  | scalars values =>
    have hscalar : field.kind.isScalar = true := hs
    have hget : handlers[place]? = some (.scalars []) := he
    simp only [records, carried] at hl ⊢
    by_cases hp : field.packed = true
    · rw [if_pos hp] at hl ⊢
      cases values with
      | nil => exact ⟨[], by rw [List.map_nil, set_of_get hget]; exact .nil _, notes_nil table⟩
      | cons value values =>
        rw [if_neg (by simp)] at hl ⊢
        refine ⟨_, .cons (lap_packed hfits hf hh hslot hscalar (hl _ (List.mem_singleton_self _)) hget) (.nil _), ?_⟩
        rw [List.append_nil]
        exact notes_mark table field.tag
    · rw [if_neg hp, List.map_map]
      exact laps_numbers hfits hf hh hslot hscalar hget

end

end Collector

end BlockCodec
