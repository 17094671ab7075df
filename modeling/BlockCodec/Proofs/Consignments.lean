import BlockCodec.Proofs.Collectors
import BlockCodec.Proofs.Ordering

/-!
# Records sent for the fields of a table

Each handled field of a table is bound to a collector of its own (`Table.Collects`). What is encoded is then
a list of records for each field, in the order of the table: those of its collector for a handled field, and
records with its tag for every other (`sends_of_encodeMessage`).
-/

namespace BlockCodec

variable {Ref : Type}

-- ---------------------------------------------------------------------------
-- Bindings
-- ---------------------------------------------------------------------------

/-- The handler whose place in the list the slot of the field in the block holds. -/
def Field.BoundTo {S : Type} (field : Field Ref) (block : Bytes) (handlers : List S) (handler : S) : Prop :=
  ∃ place, field.handlerSlot block = .ok (place + 1) ∧ handlers[place]? = some handler

/-- Each handled field is bound to a collector of its own, which is one for its values and has some if the
field is required. -/
structure Table.Collects (table : Table Ref) (block : Bytes) (collectors : List Collector) : Prop where
  bound : ∀ field ∈ table.fields, field.isHandled = true → ∃ collector,
    field.BoundTo block collectors collector ∧ collector.Suits field.kind ∧
      (field.isRequired = true → collector.isEmpty = false)
  apart : table.fields.Pairwise fun field other => field.isHandled = true → other.isHandled = true →
    field.handlerSlot block ≠ other.handlerSlot block

/-- The record has the number of a handled field. -/
def Table.handles (table : Table Ref) (record : Bytes) : Bool :=
  table.fields.any fun field => field.isHandled && Wire.number? record == some field.tag

theorem Field.BoundTo.unique {S : Type} {field : Field Ref} {block : Bytes} {handlers : List S}
    {handler other : S} (h : field.BoundTo block handlers handler) (h' : field.BoundTo block handlers other) :
    handler = other := by
  obtain ⟨place, hslot, hget⟩ := h
  obtain ⟨place', hslot', hget'⟩ := h'
  cases hslot.symm.trans hslot'
  exact Option.some.inj (hget.symm.trans hget')

theorem Wire.RecordOf.nextTag {header : Nat × WireType} {record : Bytes} (h : RecordOf header record) :
    ∃ behind, Wire.nextTag.result (.ofBytes record) = (.ok header, behind) := by
  obtain ⟨rest, hr, -⟩ := h.result
  obtain ⟨tag, behind, htag, hr⟩ := Step.result_bind_eq_ok.mp hr
  obtain ⟨value, last, -, hpure⟩ := Step.result_bind_eq_ok.mp hr
  cases hpure
  exact ⟨behind, htag⟩

theorem Wire.RecordOf.number? {header : Nat × WireType} {record : Bytes} (h : RecordOf header record) :
    Wire.number? record = some header.1 := by
  obtain ⟨behind, htag⟩ := h.nextTag
  rw [Wire.number?, result_readTag_of_nextTag (Input.at_ofBytes record) htag]

theorem Wire.RecordOf.record {header : Nat × WireType} {record : Bytes} (h : RecordOf header record) :
    Record record :=
  (readable_iff.mp h.readable).1

/-- Which fields are handled is known by their tags. -/
theorem Table.handles_eq {table : Table Ref} {field : Field Ref} {record : Bytes}
    (htags : table.fields.Pairwise (·.tag ≠ ·.tag)) (hf : field ∈ table.fields)
    (hn : Wire.number? record = some field.tag) : table.handles record = field.isHandled := by
  rw [Bool.eq_iff_iff, handles, List.any_eq_true, hn]
  constructor
  · rintro ⟨other, ho, hother⟩
    obtain ⟨hh, ht⟩ := Bool.and_eq_true_iff.mp hother
    have htag : field.tag = other.tag := by simpa using ht
    obtain rfl : other = field := eq_of_tag_eq htags hf ho htag.symm
    exact hh
  · exact fun hh => ⟨field, hf, by simp [hh]⟩

-- ---------------------------------------------------------------------------
-- What is sent
-- ---------------------------------------------------------------------------

/-- The records for a field: what its collector sends if it is handled. -/
structure Field.Sends (field : Field Ref) (block : Bytes) (collectors : List Collector)
    (records : List Bytes) : Prop where
  headed : ∀ record ∈ records, ∃ type, Wire.RecordOf (field.tag, type) record
  collected : field.isHandled = true → ∀ collector, field.BoundTo block collectors collector →
    records = collector.records field

theorem Field.records_of_sends {block : Bytes} {collectors : List Collector} {fields : List (Field Ref)}
    {parts : List (List Bytes)} (h : List.Forall₂ (Field.Sends · block collectors) fields parts) :
    ∀ record ∈ parts.flatten, Wire.Record record := by
  induction h with
  | nil => exact nofun
  | cons hfirst _ ih =>
    rw [List.flatten_cons, List.forall_mem_append]
    refine ⟨fun record hr => ?_, ih⟩
    obtain ⟨type, hrecord⟩ := hfirst.headed record hr
    exact hrecord.record

theorem View.tag_of_headers {view : View Ref} {field : Field Ref} {headers : List (Nat × WireType)}
    (h : View.headers view field = .ok headers) : ∀ header ∈ headers, header.1 = field.tag := by
  simp only [View.headers, bind_eq_ok, pure_eq_ok] at h
  obtain ⟨present, -, count, -, rfl⟩ := h
  intro header hh
  cases present with
  | false => simp at hh
  | true =>
    simp only [if_true, Field.headers] at hh
    split at hh
    · split at hh
      · rw [List.mem_singleton.mp hh]
      · rw [List.eq_of_mem_replicate hh]
    · rw [List.mem_singleton.mp hh]

theorem Wire.recordOf_of_headers {headers : List (Nat × WireType)} {records : List Bytes} {tag : Nat}
    (h : List.Forall₂ RecordOf headers records) (ht : ∀ header ∈ headers, header.1 = tag) :
    ∀ record ∈ records, ∃ type, RecordOf (tag, type) record := by
  induction h with
  | nil => exact nofun
  | cons hrecord _ ih =>
    obtain ⟨rfl, hrest⟩ := List.forall_mem_cons.mp ht
    exact List.forall_mem_cons.mpr ⟨⟨_, hrecord⟩, ih hrest⟩

/-- A field in the block is sent as a list of records with its tag. -/
theorem Field.sends_wireForm {schema : Schema Ref} {table : Table Ref} {field : Field Ref} {block content : Bytes}
    {forms : Ref → Bytes → Except CodecError Bytes} (collectors : List Collector)
    (hfits : table.Fits schema) (hf : field ∈ table.fields) (hh : field.isHandled = false)
    (hform : field.wireForm forms block = .ok content) (hl : content.length < 2 ^ 32) :
    ∃ records, field.Sends block collectors records ∧ records.flatten = content := by
  obtain ⟨headers, hheaders, records, hrecords, hflat⟩ := View.lists_wireForm hfits hf hh hform hl
  refine ⟨records, ⟨Wire.recordOf_of_headers hrecords (View.tag_of_headers hheaders), fun h => ?_⟩, hflat⟩
  simp [hh] at h

namespace Encode

variable {schema : Schema Ref} {table : Table Ref} {config : EncodeConfig} {depth : Nat} {block : Bytes}
  {nested : Ref → Bytes → Encode Bytes Collector Unit} {forms : Ref → Bytes → Except CodecError Bytes}
  {field : Field Ref} {state after : Encoding Bytes Collector}

/-- A bound collector puts its records and stays as it is. -/
theorem put_of_handled {collector : Collector} (hpos : 0 < field.tag) (hle : field.tag ≤ Wire.maxFieldNumber)
    (hb : field.BoundTo block state.handlers collector) (hs : collector.Suits field.kind)
    (hr : (handled config depth field block : Encode Bytes Collector Unit).result state = (.ok (), after)) :
    after = state.put (collector.records field).flatten := by
  obtain ⟨place, hslot, hget⟩ := hb
  obtain ⟨slot, _, hask, hr⟩ := Step.result_bind_eq_ok.mp hr
  rw [hslot] at hask
  cases hask
  let writer : ElementWriter Ref := { field, config, depth }
  have hputs : Output.Puts (collector.elements writer) (collector.records field).flatten :=
    Collector.puts_elements hpos hle hs
  rcases hw : (collector.elements writer).result state.output with ⟨outcome, output⟩
  have hwrite : (Handler.writeElements writer : Emit Bytes Collector Unit).result (state.output, collector) =
      (outcome, output, collector) := by
    refine (Step.result_bind_ok (Step.result_get _)).trans ?_
    rw [Step.result_onPart, hw]
  rw [if_neg (by omega), withHandler, Step.result_ofRun, Nat.add_sub_cancel] at hr
  simp only [hget, writer, hwrite, Decode.set_of_get hget] at hr
  obtain ⟨rfl, rfl⟩ := Prod.mk.inj hr
  rw [((hputs state.output).ok hw).2]
  rfl

/-- What encoding puts for a field. -/
theorem put_of_field (hfits : table.Fits schema) (hf : field ∈ table.fields) (hs : table.size ≤ block.length)
    (hn : field.isHandled = false → ∀ inner, field.kind = .message inner → ∀ stored,
      Emits (nested inner stored) (forms inner stored))
    (hc : table.Collects block state.handlers)
    (hr : (if field.isHandled then handled config depth field block
      else stored nested field block : Encode Bytes Collector Unit).result state = (.ok (), after)) :
    ∃ content, after = state.put content ∧ (content.length < 2 ^ 32 → ∃ records,
      field.Sends block state.handlers records ∧ records.flatten = content) := by
  have hpos := hfits.tag_pos field hf
  have hle := hfits.tag_le field hf
  cases hh : field.isHandled with
  | true =>
    rw [hh, if_pos rfl] at hr
    obtain ⟨collector, hbound, hsuits, -⟩ := hc.bound field hf hh
    refine ⟨_, put_of_handled hpos hle hbound hsuits hr, fun hl => ⟨_, ⟨fun record hrecord => ?_, ?_⟩, rfl⟩⟩
    · refine Collector.recordOf_of_mem hpos hle hsuits (fun other ho => ?_) hrecord
      exact Nat.lt_of_le_of_lt (List.sublist_flatten_of_mem ho).length_le hl
    · rintro - other hother
      rw [hbound.unique hother]
  | false =>
    rw [hh, if_neg (by simp)] at hr
    have hemits := emits_stored (hfits.stored field hf hh) hs hpos hle fun _ stored _ _ =>
      emits_value hpos hle fun inner hk => hn hh inner hk stored
    obtain ⟨content, hform, -, rfl⟩ := (hemits state).ok hr
    exact ⟨content, rfl, Field.sends_wireForm _ hfits hf hh hform⟩

/-- What encoding puts for the fields one after the other. -/
theorem put_of_fields (hfits : table.Fits schema) (hs : table.size ≤ block.length)
    (hn : ∀ field ∈ table.fields, field.isHandled = false → ∀ inner, field.kind = .message inner → ∀ stored,
      Emits (nested inner stored) (forms inner stored))
    {fields : List (Field Ref)} (hsub : ∀ field ∈ fields, field ∈ table.fields)
    (hc : table.Collects block state.handlers)
    (hr : (Encode.fields config nested depth block fields).result state = (.ok (), after)) :
    ∃ content, after = state.put content ∧ (content.length < 2 ^ 32 → ∃ parts,
      List.Forall₂ (Field.Sends · block state.handlers) fields parts ∧ parts.flatten.flatten = content) := by
  induction fields generalizing state with
  | nil =>
    cases hr
    refine ⟨[], ?_, fun _ => ⟨[], .nil, rfl⟩⟩
    rw [Encoding.put, Output.put_nil]
  | cons field rest ih =>
    obtain ⟨hf, hrest⟩ := List.forall_mem_cons.mp hsub
    have hseq : Encode.fields config nested depth block (field :: rest) =
        (if field.isHandled then handled config depth field block else stored nested field block) >>= fun _ =>
          Encode.fields config nested depth block rest := by
      cases hh : field.isHandled <;> simp only [Encode.fields, hh] <;> rfl
    rw [hseq] at hr
    obtain ⟨_, middle, hfirst, hr⟩ := Step.result_bind_eq_ok.mp hr
    obtain ⟨first, rfl, hrecords⟩ := put_of_field hfits hf hs (hn field hf) hc hfirst
    have hafter : table.Collects block (state.put first).handlers := hc
    obtain ⟨more, rfl, hparts⟩ := ih hrest hafter hr
    refine ⟨first ++ more, ?_, fun hl => ?_⟩
    · simp only [Encoding.put, Output.put_put]
    · rw [List.length_append] at hl
      obtain ⟨records, hsends, hflat⟩ := hrecords (by omega)
      obtain ⟨parts, hall, hflats⟩ := hparts (by omega)
      exact ⟨records :: parts, .cons hsends hall, by simp [hflat, hflats]⟩

end Encode

/-- What is encoded through collectors is a list of records for each field of the table. -/
theorem sends_of_encodeMessage {schema : Schema Ref} {ref : Ref} {config : EncodeConfig} {block wire : Bytes}
    {collectors : List Collector} {encoded : Encoding Bytes Collector}
    (hfits : schema.Throughout (Table.Fits schema) ref)
    (hu : ∀ inner ∈ (schema ref).nested, schema.Throughout Table.Unhandled inner)
    (hc : (schema ref).Collects block collectors)
    (hr : (encodeMessage schema config ref block : Encode Bytes Collector Unit).result
      ⟨.unbounded [], collectors⟩ = (.ok (), encoded))
    (hwire : encoded.output.sink = some wire) (hl : wire.length < 2 ^ 32) :
    ∃ parts, List.Forall₂ (Field.Sends · block collectors) (schema ref).fields parts ∧
      parts.flatten.flatten = wire := by
  obtain ⟨_, _, hlook, hr⟩ := Step.result_bind_eq_ok.mp hr
  obtain ⟨hcheck, rfl⟩ : (schema ref).checkBlock block = .ok () ∧ _ = _ := Prod.mk.inj hlook
  have hn : ∀ field ∈ (schema ref).fields, field.isHandled = false → ∀ inner, field.kind = .message inner →
      ∀ stored, Encode.Emits (Encode.messageWithin schema config config.maxDepth inner stored :
        Encode Bytes Collector Unit) (schema.wireForm config config.maxDepth inner stored) :=
    fun field hf hh inner hk stored =>
      have hinner := Table.mem_nested hf hh hk
      Encode.emits_messageWithin_of_fits (hfits.nested hinner) (hu inner hinner) _
  obtain ⟨content, rfl, hparts⟩ := Encode.put_of_fields hfits.here (Table.checkBlock_le hcheck) hn
    (fun _ hf => hf) hc hr
  obtain rfl : content = wire := by
    simpa [Encoding.put, Output.put, Output.unbounded, Output.ofSink, Output.charge] using hwire
  exact hparts hl

end BlockCodec
