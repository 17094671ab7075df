import BlockCodec.Proofs.Bystanders
import BlockCodec.Proofs.Consignments
import BlockCodec.Proofs.Forgetting
import BlockCodec.Proofs.Transparency

/-!
# Messages through collectors

Fields whose values go through handlers and fields in the block have no part in each other: a record for a
field in the block does what it does where the handled rows are left out of the table
(`Decode.laps_of_stripped`), and the records of a handled field leave the block as it is and fill its collector
(`Collector.laps_records`). So what was encoded through collectors is decoded through empty ones, whatever the
fields and their order: `collectors_round_trip`.
-/

namespace BlockCodec

open Bytes (AgreeOn)

variable {Ref S T : Type} {schema : Schema Ref} {table : Table Ref} {field : Field Ref}

-- ---------------------------------------------------------------------------
-- Tables and their rows in the block
-- ---------------------------------------------------------------------------

namespace Table

variable (hfits : table.Fits schema)

include hfits

theorem Fits.tags_ne_stripped : table.stripped.fields.Pairwise (·.tag ≠ ·.tag) :=
  hfits.tags_ne.filter _

theorem Fits.ungrouped : table.Ungrouped := fun field hf hh => (hfits.handled field hf hh).group_eq

/-- The slot of a handled field is none of the places that are declared for values. -/
theorem Fits.not_declares_of_handled (hd : table.Disjoint) (hf : field ∈ table.fields)
    (hh : field.isHandled = true) {place : Nat} (hp : place ∈ field.data) : ¬table.declares place := by
  rintro ⟨other, ho, hother, hpo⟩
  refine hfits.not_inBlock_of_handled hf hh (hd field hf trivial).2 hp ⟨other, ho, ?_, hpo⟩
  cases hh' : other.isHandled with
  | false => rfl
  | true => simp [hh', hfits.ungrouped other ho hh'] at hother

/-- What changes the places for values alone leaves the slots of the handled fields. -/
theorem Fits.handlerSlot_kept (hd : table.Disjoint) (hf : field ∈ table.fields) (hh : field.isHandled = true)
    {block after : Bytes} (h : AgreeOn (fun place => ¬table.declares place) block after) :
    field.handlerSlot after = field.handlerSlot block :=
  Field.handlerSlot_congr (h.slice fun _ hp => hfits.not_declares_of_handled hd hf hh hp)

end Table

namespace Decode

/-- Where its row is left out, a field is not tracked. -/
theorem mark?_stripped_of_handled (hfits : table.Fits schema) (hf : field ∈ table.fields)
    (hh : field.isHandled = true) : mark? table.stripped field.tag = none := by
  cases hfound : table.stripped.entryOf? field.tag with
  | none => rw [mark?, hfound]; rfl
  | some entry =>
    have hentry := Table.mem_stripped.mp (Cursor.mem_of_entryOf? hfound)
    have htag : entry.field.tag = field.tag := Cursor.tag_of_findWithin (Prod.ext hfound rfl)
    obtain rfl : entry.field = field := Table.eq_of_tag_eq hfits.tags_ne hf hentry.1 htag
    simp [hh] at hentry

/-- When nothing is missing without the handled rows, and no handled field is missing, nothing is. -/
theorem missing?_of_stripped (hfits : table.Fits schema) (ho : table.Orderly) {tags marks marks' : List Nat}
    (hn : Notes table tags marks) (hn' : Notes table.stripped tags marks')
    (hh : ∀ field ∈ table.fields, field.isHandled = true → field.isRequired = true → field.tag ∈ tags)
    (h : missing? table.stripped marks' = none) : missing? table marks = none := by
  have hstripped : table.stripped.Orderly := {
    tags_ne := hfits.tags_ne_stripped
    disjoint := fun field hf _ =>
      have hfield := ho.disjoint field (Table.mem_stripped.mp hf).1 trivial
      ⟨hfield.1, fun other hother => hfield.2 other (Table.mem_stripped.mp hother).1⟩
    required_le := Nat.le_trans (List.filter_sublist.countP_le) ho.required_le }
  refine (missing?_eq_none_iff ho hn).mpr fun field hf hreq => ?_
  cases hhandled : field.isHandled with
  | true => exact hh field hf hhandled hreq
  | false =>
    exact (missing?_eq_none_iff hstripped hn').mp h field (Table.mem_stripped.mpr ⟨hf, hhandled⟩) hreq

-- ---------------------------------------------------------------------------
-- Records of fields in the block
-- ---------------------------------------------------------------------------

theorem Aloof.ok {σ α : Type} {a : Decode σ S α} {b : Decode σ T α} (h : Aloof a b) {input input' : Input σ}
    {block block' : Bytes} {others others' : List T} {value : α}
    (hr : b.result ⟨input, block, others⟩ = (.ok value, ⟨input', block', others'⟩)) (handlers : List S) :
    a.result ⟨input, block, handlers⟩ = (.ok value, ⟨input', block', handlers⟩) := by
  obtain ⟨outcome, input', block', ha, hb⟩ := h input block handlers others
  cases hb.symm.trans hr
  exact ha

variable [Handler Ref S] [Handler Ref T] {config : DecodeConfig} {depth : Nat}
  {nested : Ref → Decode Bytes S Unit} {nested' : Ref → Decode Bytes T Unit} {record : Bytes}
  {before after : Bytes} {handlers : List S} {others others' : List T}

/-- A record for a field in the block does what it does without the handled rows. The field is marked under its
number in either table, or in neither. -/
theorem lap_of_stripped (hfits : table.Fits schema) (hf : field ∈ table.fields) (hh : field.isHandled = false)
    (hn : NestsAloof nested nested' field) {type : WireType} (hrecord : Wire.RecordOf (field.tag, type) record)
    {mark' : Option Nat} (h : Lap schema.stripped config nested' depth table.stripped record mark'
      (before, others) (after, others')) (handlers : List S) :
    ∃ mark, Lap schema config nested depth table record mark (before, handlers) (after, handlers) ∧
      (mark = none ∧ mark' = none ∨
        mark = mark? table field.tag ∧ mark' = mark? table.stripped field.tag) := by
  obtain ⟨behind, htag⟩ := hrecord.nextTag
  obtain ⟨input, hleft, hr⟩ := (lap_iff_record htag).mp h
  obtain ⟨entry, hfound, hentry⟩ := Cursor.entryOf?_of_mem hfits.tags_ne hf
  obtain ⟨entry', hfound', hentry'⟩ :=
    Cursor.entryOf?_of_mem hfits.tags_ne_stripped (Table.mem_stripped.mpr ⟨hf, hh⟩)
  simp only [lap_iff_record htag, mark?, hfound, hfound']
  simp only [hfound', Decode.record, hentry'] at hr
  simp only [Decode.record, hentry]
  cases ha : field.accepts type with
  | false =>
    simp only [ha, Bool.false_eq_true, if_false] at hr ⊢
    obtain rfl : mark' = none := mark_of_skip hr
    have hskip : Aloof (do skipValue field.tag type; pure none : Decode Bytes S (Option Nat))
        (do skipValue field.tag type; pure none : Decode Bytes T (Option Nat)) :=
      (aloof_onInput _).bind fun _ => aloof_pure none
    exact ⟨none, ⟨input, hleft, (aloof_unless fun _ => hskip).ok hr handlers⟩, .inl ⟨rfl, rfl⟩⟩
  | true =>
    simp only [ha, hh, Bool.false_eq_true, if_true, if_false] at hr ⊢
    obtain ⟨_, middle, hstored, hpure⟩ := Step.result_bind_eq_ok.mp hr
    cases hpure
    have hfull := (aloof_stored hfits.ungrouped hn).ok hstored handlers
    exact ⟨tracked? entry, ⟨input, hleft, Step.result_bind_eq_ok.mpr ⟨(), _, hfull, rfl⟩⟩, .inr ⟨rfl, rfl⟩⟩

theorem laps_of_stripped (hfits : table.Fits schema) (hf : field ∈ table.fields) (hh : field.isHandled = false)
    (hn : NestsAloof nested nested' field) {records : List Bytes}
    (hrecords : ∀ record ∈ records, ∃ type, Wire.RecordOf (field.tag, type) record) {marks' : List Nat}
    (h : Laps schema.stripped config nested' depth table.stripped records marks'
      (before, others) (after, others')) (handlers : List S) :
    ∃ marks tags, Laps schema config nested depth table records marks (before, handlers) (after, handlers) ∧
      Notes table tags marks ∧ Notes table.stripped tags marks' := by
  induction records generalizing before others marks' with
  | nil =>
    cases h
    exact ⟨[], [], .nil _, notes_nil _, notes_nil _⟩
  | cons record records ih =>
    obtain ⟨⟨type, hrecord⟩, hrest⟩ := List.forall_mem_cons.mp hrecords
    cases h with
    | @cons _ _ mark' marks' _ middle _ hlap' hlaps' =>
      obtain ⟨mark, hlap, hmarks⟩ := lap_of_stripped hfits hf hh hn hrecord hlap' handlers
      obtain ⟨marks, tags, hlaps, hnotes, hnotes'⟩ := ih hrest hlaps'
      refine ⟨mark.toList ++ marks, ?_⟩
      rcases hmarks with ⟨rfl, rfl⟩ | ⟨rfl, rfl⟩
      · exact ⟨tags, .cons hlap hlaps, hnotes, hnotes'⟩
      · exact ⟨[field.tag] ++ tags, .cons hlap hlaps, (notes_mark table field.tag).append hnotes,
          (notes_mark table.stripped field.tag).append hnotes'⟩

end Decode

-- ---------------------------------------------------------------------------
-- Records of all fields
-- ---------------------------------------------------------------------------

/-- The handlers that the fields are bound to have come to hold the values of the collectors, and all others
are as they were. -/
structure Feeds (fields : List (Field Ref)) (block : Bytes) (collectors before after : List Collector) :
    Prop where
  fed : ∀ field ∈ fields, field.isHandled = true → ∀ place collector,
    field.handlerSlot block = .ok (place + 1) → collectors[place]? = some collector →
      after[place]? = some (collector.carried field.kind)
  kept : ∀ place, (∀ field ∈ fields, field.isHandled = true → field.handlerSlot block ≠ .ok (place + 1)) →
    after[place]? = before[place]?

section

variable {block : Bytes} {fields : List (Field Ref)} {collectors before middle after : List Collector}

theorem feeds_nil : Feeds ([] : List (Field Ref)) block collectors before before :=
  ⟨List.forall_mem_nil _, fun _ _ => rfl⟩

theorem feeds_unhandled (hh : field.isHandled = false) : Feeds [field] block collectors before before where
  fed other ho hother := by
    rw [List.mem_singleton.mp ho, hh] at hother
    cases hother
  kept _ _ := rfl

theorem feeds_set {place : Nat} {collector : Collector} (hslot : field.handlerSlot block = .ok (place + 1))
    (hget : collectors[place]? = some collector) (hlt : place < before.length) (hh : field.isHandled = true) :
    Feeds [field] block collectors before (before.set place (collector.carried field.kind)) where
  fed other ho _ place' collector' hslot' hget' := by
    obtain rfl := List.mem_singleton.mp ho
    cases hslot.symm.trans hslot'
    cases hget.symm.trans hget'
    exact List.getElem?_set_self hlt
  kept place' hother := by
    refine List.getElem?_set_ne fun heq => hother field (List.mem_singleton_self _) hh ?_
    rw [hslot, heq]

/-- What is fed by one field is not touched by others with slots of their own. -/
theorem Feeds.cons (h : Feeds [field] block collectors before middle)
    (hrest : Feeds fields block collectors middle after)
    (hapart : ∀ other ∈ fields, field.isHandled = true → other.isHandled = true →
      field.handlerSlot block ≠ other.handlerSlot block) :
    Feeds (field :: fields) block collectors before after where
  fed := by
    refine List.forall_mem_cons.mpr ⟨fun hh place collector hslot hget => ?_, hrest.fed⟩
    rw [hrest.kept place fun other ho hh' hslot' => hapart other ho hh hh' (hslot.trans hslot'.symm)]
    exact h.fed field (List.mem_singleton_self _) hh place collector hslot hget
  kept place hno := by
    obtain ⟨hfirst, hothers⟩ := List.forall_mem_cons.mp hno
    rw [hrest.kept place hothers]
    exact h.kept place fun other ho => by rw [List.mem_singleton.mp ho]; exact hfirst

end

namespace Decode

variable [Handler Ref T] {config : DecodeConfig} {depth : Nat} {nested : Ref → Decode Bytes Collector Unit}
  {nested' : Ref → Decode Bytes T Unit} {block before after : Bytes} {others others' : List T}
  {collectors handlers : List Collector} {records : List Bytes} {marks' : List Nat}

/-- The fields in a list that are handled are bound to emptied collectors. -/
def Empties (fields : List (Field Ref)) (block : Bytes) (collectors handlers : List Collector) : Prop :=
  ∀ field ∈ fields, field.isHandled = true → ∀ place collector, field.handlerSlot block = .ok (place + 1) →
    collectors[place]? = some collector → handlers[place]? = some collector.emptied

/-- The records of one field: a handled one fills its collector, every other does in the block what it does
without the handled rows. -/
theorem laps_of_field (hfits : table.Fits schema) (hf : field ∈ table.fields)
    (hn : field.isHandled = false → NestsAloof nested nested' field) (hc : table.Collects block collectors)
    (hsends : field.Sends block collectors records) (hl : ∀ record ∈ records, record.length < 2 ^ 32)
    (hslot : field.isHandled = true → field.handlerSlot before = field.handlerSlot block)
    (hempty : Empties [field] block collectors handlers)
    (h : Laps schema.stripped config nested' depth table.stripped (records.filter (!table.handles ·)) marks'
      (before, others) (after, others')) :
    ∃ marks tags handlers', Laps schema config nested depth table records marks (before, handlers)
        (after, handlers') ∧ Notes table tags marks ∧ Notes table.stripped tags marks' ∧
      Feeds [field] block collectors handlers handlers' ∧
      (field.isHandled = true → field.isRequired = true → field.tag ∈ tags) := by
  have hhandles : ∀ record ∈ records, table.handles record = field.isHandled := fun record hr => by
    obtain ⟨_, hrecord⟩ := hsends.headed record hr
    exact Table.handles_eq hfits.tags_ne hf hrecord.number?
  cases hh : field.isHandled with
  | true =>
    obtain ⟨collector, ⟨place, hplace, hget⟩, hsuits, hrequired⟩ := hc.bound field hf hh
    obtain rfl := hsends.collected hh collector ⟨place, hplace, hget⟩
    have hnone : (collector.records field).filter (!table.handles ·) = [] :=
      List.filter_eq_nil_iff.mpr fun record hr => by simp [hhandles record hr, hh]
    rw [hnone] at h
    cases h
    have hstart := hempty field (List.mem_singleton_self _) hh place collector hplace hget
    obtain ⟨marks, hlaps, hnotes⟩ :=
      collector.laps_records hfits hf hh ((hslot hh).trans hplace) hsuits hl hstart
    refine ⟨marks, _, _, hlaps, hnotes, ?_, feeds_set hplace hget (List.getElem?_eq_some_iff.mp hstart).1 hh,
      fun _ hreq => ?_⟩
    · simp [Notes, mark?_stripped_of_handled hfits hf hh]
    · obtain ⟨record, hrecord⟩ := List.exists_mem_of_ne_nil _ (Collector.records_ne_nil (hrequired hreq))
      exact List.mem_map.mpr ⟨record, hrecord, rfl⟩
  | false =>
    have hall : records.filter (!table.handles ·) = records :=
      List.filter_eq_self.mpr fun record hr => by simp [hhandles record hr, hh]
    rw [hall] at h
    obtain ⟨marks, tags, hlaps, hnotes, hnotes'⟩ :=
      laps_of_stripped hfits hf hh (hn hh) hsends.headed h handlers
    exact ⟨marks, tags, handlers, hlaps, hnotes, hnotes', feeds_unhandled hh, (absurd · Bool.false_ne_true)⟩

/-- The records of all fields, one field after the other. -/
theorem laps_of_parts (hfits : table.Fits schema) (hd : table.Disjoint)
    (hn : ∀ field ∈ table.fields, field.isHandled = false → NestsAloof nested nested' field)
    (hlocal : ∀ inner, Step.Local everywhere everywhere (nested inner)) (hc : table.Collects block collectors)
    {fields : List (Field Ref)} {parts : List (List Bytes)} (hsub : ∀ field ∈ fields, field ∈ table.fields)
    (hapart : fields.Pairwise fun field other => field.isHandled = true → other.isHandled = true →
      field.handlerSlot block ≠ other.handlerSlot block)
    (hsends : List.Forall₂ (Field.Sends · block collectors) fields parts)
    (hl : ∀ record ∈ parts.flatten, record.length < 2 ^ 32)
    (hslots : ∀ field ∈ table.fields, field.isHandled = true →
      field.handlerSlot before = field.handlerSlot block)
    (hempty : Empties fields block collectors handlers)
    (h : Laps schema.stripped config nested' depth table.stripped (parts.flatten.filter (!table.handles ·)) marks'
      (before, others) (after, others')) :
    ∃ marks tags handlers', Laps schema config nested depth table parts.flatten marks (before, handlers)
        (after, handlers') ∧ Notes table tags marks ∧ Notes table.stripped tags marks' ∧
      Feeds fields block collectors handlers handlers' ∧
      ∀ field ∈ fields, field.isHandled = true → field.isRequired = true → field.tag ∈ tags := by
  induction hsends generalizing before others handlers marks' with
  | nil =>
    cases h
    exact ⟨[], [], handlers, .nil _, notes_nil _, notes_nil _, feeds_nil, List.forall_mem_nil _⟩
  | @cons field records fields parts hfirst _ ih =>
    obtain ⟨hf, hrest⟩ := List.forall_mem_cons.mp hsub
    obtain ⟨hother, hothers⟩ := List.pairwise_cons.mp hapart
    rw [List.flatten_cons, List.forall_mem_append] at hl
    obtain ⟨hemptyFirst, hemptyRest⟩ := List.forall_mem_cons.mp hempty
    rw [List.flatten_cons, List.filter_append] at h
    obtain ⟨first', more', ⟨middle, others₁⟩, rfl, hfront, hback⟩ := h.split
    obtain ⟨first, tags, handlers₁, hlaps, hnotes, hnotes', hfeeds, hrequired⟩ :=
      laps_of_field hfits hf (hn field hf) hc hfirst hl.1 (hslots field hf)
        (fun other ho => by rw [List.mem_singleton.mp ho]; exact hemptyFirst) hfront
    have hslots' : ∀ field ∈ table.fields, field.isHandled = true →
        field.handlerSlot middle = field.handlerSlot block := fun other ho hh =>
      (hfits.handlerSlot_kept hd ho hh (hlaps.keeps hlocal)).trans (hslots other ho hh)
    have hempty' : Empties fields block collectors handlers₁ := fun other ho hh place collector hslot hget => by
      rw [hfeeds.kept place fun field' hf' hh' hslot' => ?_]
      · exact hemptyRest other ho hh place collector hslot hget
      · obtain rfl := List.mem_singleton.mp hf'
        exact hother other ho hh' hh (hslot'.trans hslot.symm)
    obtain ⟨more, tags', handlers', hmore, hmoreNotes, hmoreNotes', hmoreFeeds, hmoreRequired⟩ :=
      ih hrest hothers hl.2 hslots' hempty' hback
    refine ⟨first ++ more, tags ++ tags', handlers', hlaps.append hmore, hnotes.append hmoreNotes,
      hnotes'.append hmoreNotes', hfeeds.cons hmoreFeeds hother, ?_⟩
    refine List.forall_mem_cons.mpr ⟨fun hh hreq => ?_, fun other ho hh hreq => ?_⟩
    · exact List.mem_append_left _ (hrequired hh hreq)
    · exact List.mem_append_right _ (hmoreRequired other ho hh hreq)

-- ---------------------------------------------------------------------------
-- Messages
-- ---------------------------------------------------------------------------

section

variable [Handler Ref S] {nested : Ref → Decode Bytes S Unit}

/-- Where the handlers are modest, records make their laps wherever they are offered. -/
theorem portable_of_modest (hm : Handler.Modest Ref Bytes Bytes S)
    (hn : ∀ field ∈ table.fields, NestsTwins nested nested field) {bytes : Bytes} (hrecord : Wire.Record bytes) :
    Portable schema config nested depth table bytes := by
  rintro mark state more after ⟨tag, input, halone, -⟩ hx
  have hy : Offers (⟨.ofBytes bytes, state.block, state.handlers⟩ : Decoding Bytes S) (bytes ++ []) := by
    rw [List.append_nil]
    exact ⟨bytes.length, 0, ⟨rfl, rfl, rfl⟩, Nat.le_refl _⟩
  rcases nextField_alike hm hn hrecord hx hy rfl with
    ⟨lap, x', y', ha, hb, hx', -, hrest⟩ | ⟨failure, x', y', -, hb, -⟩
  · cases hb.symm.trans halone
    exact ⟨List.length_pos_iff.mpr hrecord.ne_nil, tag, x', ha, hx', hrest⟩
  · cases hb.symm.trans halone

end

end Decode

section

variable {ref : Ref} {config : DecodeConfig} {block start after wire : Bytes} {collectors : List Collector}

theorem Schema.plain_stripped (hfits : schema.Throughout (Table.Fits schema) ref) :
    schema.stripped.Throughout Table.Plain ref := fun inner hbelow =>
  ⟨(schema inner).unhandled_stripped, (hfits inner (below_stripped.mp hbelow)).tags_ne_stripped⟩

theorem empties_emptied (fields : List (Field Ref)) (block : Bytes) (collectors : List Collector) :
    Decode.Empties fields block collectors (collectors.map Collector.emptied) :=
  fun _ _ _ _ _ _ hget => by rw [List.getElem?_map, hget, Option.map_some]

/-- What a message makes of a block without the records of the handled fields, it makes with them as well,
and it fills the collectors. -/
theorem Decode.Makes.filled (hfits : schema.Throughout (Table.Fits schema) ref) (ho : (schema ref).Orderly)
    (hu : ∀ inner ∈ (schema ref).nested, schema.Throughout Table.Unhandled inner)
    (hc : (schema ref).Collects block collectors) {parts : List (List Bytes)}
    (hsends : List.Forall₂ (Field.Sends · block collectors) (schema ref).fields parts)
    (hr : ∀ record ∈ parts.flatten, Wire.Record record) (hl : ∀ record ∈ parts.flatten, record.length < 2 ^ 32)
    (hslots : ∀ field ∈ (schema ref).fields, field.isHandled = true →
      field.handlerSlot start = field.handlerSlot block) {levels : Nat}
    (h : Makes (messageWithin schema.stripped config (levels + 1) ref : Decode Bytes Empty Unit)
      (parts.flatten.filter (!(schema ref).handles ·)).flatten (start, []) (after, [])) :
    ∃ handlers, Makes (messageWithin schema config (levels + 1) ref : Decode Bytes Collector Unit)
        parts.flatten.flatten (start, collectors.map Collector.emptied) (after, handlers) ∧
      Feeds (schema ref).fields block collectors (collectors.map Collector.emptied) handlers ∧
      AgreeOn (fun place => ¬(schema ref).declares place) start after := by
  have hplain := Schema.plain_stripped hfits
  obtain ⟨hcheck, records, marks', hlaps', hflat, hmissing'⟩ := (makes_iff_laps hplain).mp h
  obtain rfl : records = parts.flatten.filter (!(schema ref).handles ·) := by
    refine Wire.eq_of_flatten (hlaps'.record hplain.here (nestsAlike_messageWithin hplain)) ?_ hflat
    exact fun record hrecord => hr record (List.mem_filter.mp hrecord).1
  have hn : ∀ field ∈ (schema ref).fields, field.isHandled = false → NestsAloof
      (messageWithin schema config levels : Ref → Decode Bytes Collector Unit)
      (messageWithin schema.stripped config levels : Ref → Decode Bytes Empty Unit) field :=
    fun field hf hh inner hk => aloof_messageWithin schema config levels (hu inner (Table.mem_nested hf hh hk))
  have hlocal : ∀ inner, Step.Local everywhere everywhere
      (messageWithin schema config levels inner : Decode Bytes Collector Unit) :=
    local_messageWithin_everywhere schema config levels
  obtain ⟨marks, tags, handlers, hlaps, hnotes, hnotes', hfeeds, hrequired⟩ :=
    laps_of_parts hfits.here ho.disjoint hn hlocal hc (fun _ hf => hf) hc.apart hsends hl hslots
      (empties_emptied _ block collectors) hlaps'
  have hmissing := missing?_of_stripped hfits.here ho hnotes hnotes' hrequired hmissing'
  have hport : ∀ record ∈ parts.flatten, Portable schema config
      (messageWithin schema config levels : Ref → Decode Bytes Collector Unit) (config.maxDepth - levels)
      (schema ref) record := fun record hrecord =>
    portable_of_modest Handler.modest_collector
      (fun _ _ inner _ => twins_messageWithin Handler.modest_collector levels inner) (hr record hrecord)
  exact ⟨handlers, makes_of_laps hfits.here.tags_ne hport hcheck hlaps hmissing, hfeeds, hlaps.keeps hlocal⟩

/-- Where a message is decoded into one block it is decoded into every other of its length, and no field of the
two is different. -/
theorem Decode.Makes.forgets (hu : (schema ref).Unhandled) {target other reduced rest : Bytes}
    (h : Makes (decodeMessage schema config ref : Decode Bytes Empty Unit) rest (other, []) (reduced, []))
    (hlen : other.length = target.length) :
    ∃ last, Makes (decodeMessage schema config ref : Decode Bytes Empty Unit) rest (target, []) (last, []) ∧
      ∀ field ∈ (schema ref).fields, AgreeOn field.extent reduced last := by
  obtain ⟨start, hinit, -⟩ := makes_decodeMessage_iff.mp h
  obtain ⟨input, hr⟩ := h
  obtain ⟨hout, -, hagree⟩ :=
    decodeMessage_forgets hu config (.ofBytes rest) ([] : List Empty) hlen hinit
  rw [hr] at hout hagree
  rcases hs : (decodeMessage schema config ref : Decode Bytes Empty Unit).result ⟨.ofBytes rest, target, []⟩ with
    ⟨outcome, input', last, handlers⟩
  rw [hs] at hout hagree
  obtain rfl : handlers = [] := Subsingleton.elim _ _
  obtain rfl : Except.ok () = outcome := hout
  exact ⟨last, ⟨input', hs⟩, hagree⟩

/-- The bytes are records, and these are the bytes without the records of the handled fields. -/
def Table.Strips (table : Table Ref) (wire rest : Bytes) : Prop :=
  ∃ records : List Bytes, (∀ record ∈ records, Wire.Record record) ∧ records.flatten = wire ∧
    (records.filter (!table.handles ·)).flatten = rest

/-- What is encoded through collectors is decoded through empty ones: each has the values of its like in their
order and no others, numbers as the wire carries them, and the fields in the block hold what they hold without
the handled rows. All it takes is that the bytes are accepted without these rows and their records. -/
theorem collectors_round_trip {encoded : Encoding Bytes Collector} {sending : EncodeConfig}
    (hvalid : Table.validate schema ref = .ok ()) (hd : schema.Throughout Table.Disjoint ref)
    (hu : ∀ inner ∈ (schema ref).nested, schema.Throughout Table.Unhandled inner)
    (hc : (schema ref).Collects block collectors)
    (hr : (encodeMessage schema sending ref block : Encode Bytes Collector Unit).result
      ⟨.unbounded [], collectors⟩ = (.ok (), encoded))
    (hwire : encoded.output.sink = some wire) (hl : wire.length < 2 ^ 32) :
    (∃ rest, (schema ref).Strips wire rest) ∧
    ∀ (config : DecodeConfig) (rest target other reduced : Bytes), (schema ref).Strips wire rest →
      target.length = other.length →
      (∀ field ∈ (schema ref).fields, field.isHandled = true →
        field.handlerSlot target = field.handlerSlot block) →
      Decode.Makes (decodeMessage schema.stripped config ref : Decode Bytes Empty Unit) rest (other, [])
        (reduced, []) →
      ∃ after handlers, Decode.Makes (decodeMessage schema config ref : Decode Bytes Collector Unit) wire
          (target, collectors.map Collector.emptied) (after, handlers) ∧
        (∀ field ∈ (schema ref).fields, field.isHandled = true → ∀ collector,
          field.BoundTo block collectors collector →
            field.BoundTo after handlers (collector.carried field.kind)) ∧
        ∀ field ∈ (schema ref).fields, field.isHandled = false → AgreeOn field.extent reduced after := by
  have hfits := Schema.fits_of_validate hvalid
  obtain ⟨parts, hsends, rfl⟩ := sends_of_encodeMessage hfits hu hc hr hwire hl
  have hrecords := Field.records_of_sends hsends
  have hshort : ∀ record ∈ parts.flatten, record.length < 2 ^ 32 := fun record hrecord =>
    Nat.lt_of_le_of_lt (List.sublist_flatten_of_mem hrecord).length_le hl
  refine ⟨⟨_, parts.flatten, hrecords, rfl, rfl⟩, ?_⟩
  rintro config rest target other reduced ⟨records, hall, hflat, rfl⟩ hlen hslots hreduced
  obtain rfl : records = parts.flatten := Wire.eq_of_flatten hall hrecords hflat
  -- without the handled rows, the target is decoded into as the other block is
  obtain ⟨after, hmakes, hagree⟩ := hreduced.forgets (schema ref).unhandled_stripped hlen.symm
  obtain ⟨start, hinit, hmakes⟩ := Decode.makes_decodeMessage_iff.mp hmakes
  rw [Schema.initialise, Schema.initialiseWithin_stripped] at hinit
  have hstart : ∀ field ∈ (schema ref).fields, field.isHandled = true →
      field.handlerSlot start = field.handlerSlot block := fun field hf hh => by
    rw [← hslots field hf hh, ← Schema.handlerSlot_initialiseWithin (maxInitialDepth + 1) target hfits.here hf hh
      (hd.here field hf trivial).2, hinit]
  obtain ⟨handlers, hfull, hfeeds, hkept⟩ := hmakes.filled hfits (Schema.orderly_of_validate hvalid hd).here hu hc
    hsends hrecords hshort hstart
  refine ⟨after, handlers, Decode.makes_decodeMessage_iff.mpr ⟨start, hinit, hfull⟩, ?_, ?_⟩
  · rintro field hf hh collector ⟨place, hplace, hget⟩
    refine ⟨place, ?_, hfeeds.fed field hf hh place collector hplace hget⟩
    rw [hfits.here.handlerSlot_kept hd.here hf hh hkept, hstart field hf hh, hplace]
  · exact fun field hf hh => hagree field (Table.mem_stripped.mpr ⟨hf, hh⟩)

end

def remark : Field Unit := (Field.ofStorage 2 "remark" .bytes 4 2).handled

/-- Truth values that travel in packs. -/
def tick : Field Unit := (Field.ofStorage 3 "tick" .bool 6 2).implicit.inPacks.handled

def survey : Schema Unit :=
  fun _ => ⟨"Survey", [.ofStorage 1 "number" (.varint ⟨.w32, false⟩) 0 4, remark, tick], 8⟩

/-- A survey with its number, its remarks in the second place and its ticks in the first. -/
def answered : Bytes := [44, 0, 0, 0, 2, 0, 1, 0]

/-- Two ticks, the first of them a number, and two remarks, the second of them empty. -/
def answers : List Collector := [.scalars [.unsigned 300, .bool false], .bytes [[0x61], []]]

/-- What is sent for the survey: the number, the remarks, and the ticks in a pack. -/
def mailed : List Bytes := [[0x08, 0x2c], [0x12, 1, 0x61], [0x12, 0], [0x1a, 2, 1, 0]]

theorem collects_answers : (survey ()).Collects answered answers where
  bound := by
    simp only [survey, List.forall_mem_cons]
    exact ⟨nofun, fun _ => ⟨.bytes [[0x61], []], ⟨1, by cbv, rfl⟩, rfl, fun _ => rfl⟩,
      fun _ => ⟨.scalars [.unsigned 300, .bool false], ⟨0, by cbv, rfl⟩, rfl, nofun⟩, List.forall_mem_nil _⟩
  apart := by
    have hremark : remark.handlerSlot answered = .ok 2 := by cbv
    have htick : tick.handlerSlot answered = .ok 1 := by cbv
    simp [survey, hremark, htick, Field.ofStorage, Field.isHandled]

theorem strips_mailed : (survey ()).Strips mailed.flatten [0x08, 0x2c] := by
  refine ⟨mailed, ?_, rfl, by cbv⟩
  simp only [mailed, List.forall_mem_cons]
  exact ⟨⟨1, .varint, ⟨[0x2c], 1, 1, true⟩, ⟨[], 0, 2, true⟩, by cbv, by cbv, rfl⟩,
    ⟨2, .delimited, ⟨[1, 0x61], 2, 1, true⟩, ⟨[], 0, 3, true⟩, by cbv, by cbv, rfl⟩,
    ⟨2, .delimited, ⟨[0], 1, 1, true⟩, ⟨[], 0, 2, true⟩, by cbv, by cbv, rfl⟩,
    ⟨3, .delimited, ⟨[2, 1, 0], 3, 1, true⟩, ⟨[], 0, 4, true⟩, by cbv, by cbv, rfl⟩, List.forall_mem_nil _⟩

theorem collectors_round_trip_survey :
    Table.validate survey () = .ok () ∧ survey.Throughout Table.Disjoint () ∧ (survey ()).nested = [] ∧
    (survey ()).Collects answered answers ∧
    (∃ encoded, (encodeMessage survey {} () answered : Encode Bytes Collector Unit).result
      ⟨.unbounded [], answers⟩ = (.ok (), encoded) ∧ encoded.output.sink = some mailed.flatten) ∧
    mailed.flatten.length < 2 ^ 32 ∧ (survey ()).Strips mailed.flatten [0x08, 0x2c] ∧
    Decode.Makes (decodeMessage survey.stripped {} () : Decode Bytes Empty Unit) [0x08, 0x2c] (Bytes.zeros 8, [])
      ([44, 0, 0, 0, 0, 0, 0, 0], []) ∧
    ∃ after handlers, Decode.Makes (decodeMessage survey {} () : Decode Bytes Collector Unit) mailed.flatten
        ([7, 0, 0, 0, 2, 0, 1, 0], [.scalars [], .bytes []]) (after, handlers) ∧
      remark.BoundTo after handlers (.bytes [[0x61], []]) ∧
      tick.BoundTo after handlers (.scalars [.bool true, .bool false]) := by
  have hvalid : Table.validate survey () = .ok () := by cbv
  have hdisjoint : survey.Throughout Table.Disjoint () := Schema.throughout_of_forall (by decide) ()
  have hnested : (survey ()).nested = [] := rfl
  have hencoded : (encodeMessage survey {} () answered : Encode Bytes Collector Unit).result
      ⟨.unbounded [], answers⟩ = (.ok (), ⟨⟨some mailed.flatten, maxSize, 11⟩, answers⟩) := by cbv
  have hlength : mailed.flatten.length < 2 ^ 32 := show 11 < 2 ^ 32 by omega
  have hreduced : Decode.Makes (decodeMessage survey.stripped {} () : Decode Bytes Empty Unit) [0x08, 0x2c]
      (Bytes.zeros 8, []) ([44, 0, 0, 0, 0, 0, 0, 0], []) := ⟨⟨[], 0, 2, true⟩, by cbv⟩
  have hslots : ∀ field ∈ (survey ()).fields, field.isHandled = true →
      field.handlerSlot [7, 0, 0, 0, 2, 0, 1, 0] = field.handlerSlot answered := by
    simp only [survey, List.forall_mem_cons]
    exact ⟨(absurd · Bool.false_ne_true), fun _ => by cbv, fun _ => by cbv, List.forall_mem_nil _⟩
  obtain ⟨-, h⟩ := collectors_round_trip hvalid hdisjoint (by simp [hnested]) collects_answers hencoded rfl hlength
  obtain ⟨after, handlers, hmakes, hbound, -⟩ :=
    h {} [0x08, 0x2c] [7, 0, 0, 0, 2, 0, 1, 0] (Bytes.zeros 8) _ strips_mailed rfl hslots hreduced
  refine ⟨hvalid, hdisjoint, hnested, collects_answers, ⟨_, hencoded, rfl⟩, hlength, strips_mailed, hreduced, after,
    handlers, hmakes, ?_, ?_⟩
  · exact hbound remark (by simp [survey]) rfl _ ⟨1, by cbv, rfl⟩
  · exact hbound tick (by simp [survey]) rfl _ ⟨0, by cbv, rfl⟩

/-- Fixed numbers that are meant for one byte. -/
def code : Field Unit := (Field.ofStorage 1 "code" (.fixed ⟨.w8, false⟩) 0 2).implicit.handled

def coded : Schema Unit := fun _ => ⟨"Coded", [code], 2⟩

/-- The checks of a table say nothing about the kinds of its handled fields, and a fixed number that is meant
for one byte comes back with four. -/
theorem octet_returns_as_word :
    Table.validate coded () = .ok () ∧ coded.Throughout Table.Disjoint () ∧ (coded ()).nested = [] ∧
    (coded ()).Collects [1, 0] [.scalars [.unsigned 300]] ∧
    (∃ encoded, (encodeMessage coded {} () [1, 0] : Encode Bytes Collector Unit).result
      ⟨.unbounded [], [.scalars [.unsigned 300]]⟩ = (.ok (), encoded) ∧
        encoded.output.sink = some [0x0d, 0x2c, 1, 0, 0]) ∧
    (coded ()).Strips [0x0d, 0x2c, 1, 0, 0] [] ∧
    Decode.Makes (decodeMessage coded.stripped {} () : Decode Bytes Empty Unit) [] ([1, 0], []) ([1, 0], []) ∧
    Decode.Makes (decodeMessage coded {} () : Decode Bytes Collector Unit) [0x0d, 0x2c, 1, 0, 0]
      ([1, 0], [.scalars []]) ([1, 0], [.scalars [.unsigned 300]]) ∧
    code.kind.narrow (.unsigned 300) = .unsigned 44 := by
  refine ⟨by cbv, Schema.throughout_of_forall (by decide) (), rfl, ⟨?_, by simp [coded]⟩,
    ⟨⟨⟨some [0x0d, 0x2c, 1, 0, 0], maxSize, 5⟩, [.scalars [.unsigned 300]]⟩, by cbv, rfl⟩,
    ⟨[[0x0d, 0x2c, 1, 0, 0]], ?_, rfl, by cbv⟩, ⟨⟨[], 0, 0, true⟩, by cbv⟩, ⟨⟨[], 0, 5, true⟩, by cbv⟩, by cbv⟩
  · simp only [coded, List.forall_mem_singleton]
    exact fun _ => ⟨_, ⟨0, by cbv, rfl⟩, rfl, (absurd · Bool.false_ne_true)⟩
  · exact List.forall_mem_singleton.mpr
      ⟨1, .fixed32, ⟨[0x2c, 1, 0, 0], 4, 1, true⟩, ⟨[], 0, 5, true⟩, by cbv, by cbv, rfl⟩

end BlockCodec
