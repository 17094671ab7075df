import BlockCodec.Proofs.Ordering
import BlockCodec.Proofs.Requirements
import BlockCodec.Proofs.Transparency

/-!
# Messages as series of records

A message that consists of records does what its records do one after the other, each of them `alone`, and
then its required fields are checked against the headers: `Decode.result_messageWithin`. So it is whatever
source the bytes come from, with success or failure, for handlers that go by the bytes of their payloads. A
record for another field passes a field by: it leaves the places of the field as they are, and what it does
does not depend on them (`Decode.local_alone_of_other`).
-/

namespace BlockCodec

/-- The number and the wire type in the header of a record. -/
def Wire.header? (bytes : Bytes) : Option (Nat × WireType) :=
  match nextTag.result (.ofBytes bytes) with
  | (.ok header, _) => some header
  | _ => none

theorem Wire.header?_eq_some {bytes : Bytes} {header : Nat × WireType} :
    header? bytes = some header ↔ ∃ behind, nextTag.result (.ofBytes bytes) = (.ok header, behind) := by
  unfold header?
  split
  · next hr => simp [hr]
  · next hno => exact ⟨nofun, fun ⟨behind, hr⟩ => absurd hr (hno header behind)⟩

theorem Wire.Record.header? {bytes : Bytes} (h : Record bytes) : ∃ header, Wire.header? bytes = some header := by
  obtain ⟨number, hnumber⟩ := h.number?
  obtain ⟨type, behind, htag⟩ := nextTag_of_number? hnumber
  exact ⟨_, header?_eq_some.mpr ⟨behind, htag⟩⟩

/-- What is beside the block are the handlers. -/
instance {S : Type} : HasBlock (Bytes × List S) (List S) := ⟨Prod.fst, Prod.snd⟩

namespace Decode

variable {σ S Ref : Type} [Handler Ref S] {bytes : Bytes} {records : List Bytes} {rest : Bytes × List S}

section

variable (schema : Schema Ref) (config : DecodeConfig) (nested : Ref → Decode Bytes S Unit) (depth : Nat)
  (table : Table Ref)

/-- A record decoded on its own: what it makes of a block and the handlers. -/
def alone (bytes : Bytes) : Step (Bytes × List S) CodecError Unit :=
  .ofRun fun rest =>
    let (outcome, last) := (nextField schema config nested depth table).result ⟨.ofBytes bytes, rest.1, rest.2⟩
    (outcome.map fun _ => (), Reader.rest last)

variable {schema config nested depth table}

/-- A record does what is done behind its header. -/
theorem result_alone {header : Nat × WireType} {behind : Input Bytes}
    (htag : Wire.nextTag.result (.ofBytes bytes) = (.ok header, behind)) :
    let run := (record schema config nested depth table header.2 header.1 (table.entryOf? header.1)).result
      ⟨behind, rest.1, rest.2⟩
    (alone schema config nested depth table bytes).result rest = (run.1.map fun _ => (), Reader.rest run.2) := by
  have hheader : (onWire Wire.nextTag : Decode Bytes S _).result ⟨.ofBytes bytes, rest.1, rest.2⟩ =
      (.ok header, ⟨behind, rest.1, rest.2⟩) := result_onWire htag
  simp only [alone, Step.result_ofRun, nextField]
  rw [Step.result_bind_ok hheader, Step.result_bind]
  rcases (record schema config nested depth table header.2 header.1 (table.entryOf? header.1)).result
    ⟨behind, rest.1, rest.2⟩ with ⟨failure | mark, last⟩ <;> rfl

/-- A record that is accepted for a field of the table does what the field does with its value. -/
theorem result_alone_of_accepts {field : Field Ref} {type : WireType} {behind : Input Bytes}
    (htags : table.fields.Pairwise (·.tag ≠ ·.tag)) (hf : field ∈ table.fields) (ha : field.accepts type = true)
    (htag : Wire.nextTag.result (.ofBytes bytes) = (.ok (field.tag, type), behind)) :
    let run := (if field.isHandled then handled config depth field type
      else stored schema config nested table field type).result ⟨behind, rest.1, rest.2⟩
    (alone schema config nested depth table bytes).result rest = (run.1, Reader.rest run.2) := by
  obtain ⟨entry, hfound, rfl⟩ := Cursor.entryOf?_of_mem htags hf
  have hrecord : record schema config nested depth table type entry.field.tag (table.entryOf? entry.field.tag) =
      (if entry.field.isHandled then handled config depth entry.field type
        else stored schema config nested table entry.field type) >>= fun _ => pure (tracked? entry) := by
    simp only [record, hfound, ha, if_true]
    split <;> rfl
  rw [result_alone htag, hrecord, Step.result_bind]
  rcases (if entry.field.isHandled then handled config depth entry.field type
    else stored schema config nested table entry.field type).result ⟨behind, rest.1, rest.2⟩ with
      ⟨failure | _, last⟩ <;> rfl

/-- A record that its field does not accept is refused, unless such records are skipped. -/
theorem alone_of_refuses {field : Field Ref} {type : WireType} {behind : Input Bytes}
    (htags : table.fields.Pairwise (·.tag ≠ ·.tag)) (hf : field ∈ table.fields)
    (hskip : config.skipMismatched = false) (ha : field.accepts type = false)
    (htag : Wire.nextTag.result (.ofBytes bytes) = (.ok (field.tag, type), behind)) :
    ((alone schema config nested depth table bytes).result rest).1 =
      .error (.wireTypeMismatch field.name field.kind.wireType type) := by
  obtain ⟨entry, hfound, rfl⟩ := Cursor.entryOf?_of_mem htags hf
  rw [result_alone htag]
  simp only [record, hfound, ha, hskip, Bool.false_eq_true, if_false, Bool.not_false, if_true]
  rfl

theorem header_of_nextField {header : Nat × WireType} {mark : Option Nat} {block : Bytes} {handlers : List S}
    {last : Decoding Bytes S}
    (hr : (nextField schema config nested depth table).result ⟨.ofBytes bytes, block, handlers⟩ =
      (.ok (header, mark), last)) : Wire.header? bytes = some header ∧ mark = markOf table header := by
  obtain ⟨_, middle, hheader, htail⟩ := Step.result_bind_eq_ok.mp hr
  obtain ⟨_, _, hrecord, hpure⟩ := Step.result_bind_eq_ok.mp htail
  cases hpure
  have hread := Step.result_mapFailure_eq_ok (result_onInput_eq_ok hheader)
  exact ⟨Wire.header?_eq_some.mpr ⟨_, hread⟩, mark_of_record hrecord⟩

-- ---------------------------------------------------------------------------
-- Places
-- ---------------------------------------------------------------------------

variable {lane : Lane} {field : Field Ref}

/-- A record with another number is not in the lane of a field that is in no group. -/
theorem lane?_ne_of_number (hg : field.group? = none)
    (hne : Wire.number? bytes ≠ some field.tag) : table.lane? bytes ≠ some field.lane := by
  intro hlane
  obtain ⟨tag, htag, hlane⟩ := Option.map_eq_some_iff.mp hlane
  rw [Field.lane, hg] at hlane
  exact hne (Table.eq_of_laneOf hlane ▸ htag)

/-- A record is decoded in the places of its lane. -/
theorem local_alone (hn : ∀ inner, Step.Local everywhere everywhere (nested inner))
    (hlane : table.lane? bytes = some lane) :
    Step.Local (table.zone lane) (table.zone lane) (alone schema config nested depth table bytes) := by
  obtain ⟨number, hnumber, rfl⟩ := Option.map_eq_some_iff.mp hlane
  obtain ⟨type, behind, htag⟩ := Wire.nextTag_of_number? hnumber
  have hrecord : Step.Local (table.zone (table.laneOf number)) (table.zone (table.laneOf number))
      (record schema config nested depth table type number (table.entryOf? number)) := local_lane hn number
  refine ⟨fun {x y} hsame => ?_, fun rest => ?_⟩
  · obtain ⟨hout, hafter⟩ := hrecord.alike (x := ⟨behind, x.1, x.2⟩) (y := ⟨behind, y.1, y.2⟩)
      ⟨Prod.ext rfl hsame.aside_eq, hsame.agree⟩
    rw [result_alone htag, result_alone htag]
    exact ⟨by rw [hout], (Prod.mk.inj hafter.aside_eq).2, hafter.agree⟩
  · rw [result_alone htag]
    exact hrecord.keeps ⟨behind, rest.1, rest.2⟩

theorem local_alone_everywhere (hn : ∀ inner, Step.Local everywhere everywhere (nested inner))
    (hrecord : Wire.Record bytes) :
    Step.Local everywhere everywhere (alone schema config nested depth table bytes) := by
  obtain ⟨number, hnumber⟩ := hrecord.number?
  exact (local_alone hn (by rw [Table.lane?, hnumber, Option.map_some])).mono (fun _ _ => trivial)
    (fun _ _ => trivial) fun _ hp => hp

/-- A record for another field has nothing to do with the places of the field. -/
theorem local_alone_of_other (htags : table.fields.Pairwise (·.tag ≠ ·.tag)) (hd : table.Separate (· = field))
    (hn : ∀ inner, Step.Local everywhere everywhere (nested inner)) (hf : field ∈ table.fields)
    (hrecord : Wire.Record bytes) (hother : table.lane? bytes ≠ some field.lane) :
    Step.Local (fun place => ¬field.extent place) (fun place => ¬field.extent place)
      (alone schema config nested depth table bytes) := by
  obtain ⟨number, hnumber⟩ := hrecord.number?
  have hlane : table.lane? bytes = some (table.laneOf number) := by rw [Table.lane?, hnumber, Option.map_some]
  have hapart : ∀ place, table.zone (table.laneOf number) place → ¬field.extent place := by
    rintro place ⟨other, ho, hlanes, hp⟩ hown
    have hne : other.lane ≠ field.lane := fun heq => hother (hlane.trans (congrArg some (hlanes.symm.trans heq)))
    have htag : other.tag ≠ field.tag := fun ht => hne (by rw [Table.eq_of_tag_eq htags hf ho ht])
    exact ((hd field hf rfl).2 other ho htag).disjoint (fun hsame => hne hsame.lane_eq) hown hp
  exact (local_alone hn hlane).mono hapart hapart fun _ hp => hp

/-- Records for other fields leave the places of the field as they are. -/
theorem keeps_others (htags : table.fields.Pairwise (·.tag ≠ ·.tag)) (hd : table.Separate (· = field))
    (hn : ∀ inner, Step.Local everywhere everywhere (nested inner)) (hf : field ∈ table.fields)
    (hr : ∀ bytes ∈ records, Wire.Record bytes ∧ table.lane? bytes ≠ some field.lane) (rest : Bytes × List S) :
    Bytes.AgreeOn field.extent rest.1
      ((records.forM (alone schema config nested depth table)).result rest).2.1 := by
  have hlocal : Step.Local (fun place => ¬field.extent place) (fun place => ¬field.extent place)
      (records.forM (alone schema config nested depth table)) := Step.Local.forM fun bytes hb =>
    local_alone_of_other htags hd hn hf (hr bytes hb).1 (hr bytes hb).2
  exact (hlocal.keeps rest).mono fun _ hp => not_not.mpr hp

-- ---------------------------------------------------------------------------
-- Walks
-- ---------------------------------------------------------------------------

variable [Source σ] [Supply σ] {bodies : Ref → Decode σ S Unit} {x : Decoding σ S} {room : Nat} {cursor : Cursor}

/-- A walk over records does what they do one after the other, and has seen the marks of their headers. -/
theorem walk_series (htags : table.fields.Pairwise (·.tag ≠ ·.tag)) (hm : Handler.Modest Ref σ Bytes S)
    (hn : ∀ field ∈ table.fields, NestsTwins bodies nested field) (hr : ∀ bytes ∈ records, Wire.Record bytes)
    (hx : Offers x records.flatten) (hc : cursor.Placed table) (hroom : records.flatten.length ≤ room)
    (seen : List Nat) :
    (walk schema config bodies depth table room cursor seen).Ends x
      (fun found last => (records.forM (alone schema config nested depth table)).result (Reader.rest x) =
          (.ok (), Reader.rest last) ∧
        ∀ mark, mark ∈ found ↔ mark ∈ seen ∨
          ∃ header ∈ records.filterMap Wire.header?, markOf table header = some mark)
      fun failure last => (records.forM (alone schema config nested depth table)).result (Reader.rest x) =
        (.error failure, Reader.rest last) := by
  induction records generalizing x room cursor seen with
  | nil =>
    obtain ⟨left, taken, hat, -⟩ := hx
    obtain ⟨input, hend, -⟩ := walk_end schema config bodies depth table hat (Nat.min_zero _) room cursor seen
    exact .of_ok hend ⟨rfl, by simp⟩
  | cons bytes records ih =>
    obtain ⟨hrecord, hrecords⟩ := List.forall_mem_cons.mp hr
    have hpos : 0 < bytes.length := List.length_pos_iff.mpr hrecord.ne_nil
    rw [List.flatten_cons] at hx hroom
    rw [List.length_append] at hroom
    obtain ⟨room, rfl⟩ : ∃ n, room = n + 1 := ⟨room - 1, by omega⟩
    have hself : Offers (⟨.ofBytes bytes, x.block, x.handlers⟩ : Decoding Bytes S) (bytes ++ []) := by
      rw [List.append_nil]
      exact ⟨bytes.length, 0, ⟨rfl, rfl, rfl⟩, Nat.le_refl _⟩
    rcases nextField_alike hm hn hrecord hx hself rfl with
      ⟨⟨header, mark⟩, x', y', ha, hb, hx', -, hrest⟩ | ⟨failure, x', y', ha, hb, hrest⟩
    · have hfirst : (alone schema config nested depth table bytes).result (Reader.rest x) =
          (.ok (), Reader.rest x') := by
        rw [hrest]
        exact congrArg (fun run => (run.1.map fun _ => (), Reader.rest run.2)) hb
      obtain ⟨hheader, hmark⟩ := header_of_nextField hb
      obtain ⟨next, hfind, hplaced⟩ := Cursor.find_placed htags hc header.1
      refine Step.Ends.congr ?_ ((walk_of_offers htags hc hx hpos).trans (Step.result_bind_ok ha))
      rw [hfind, List.forM, Step.result_bind_ok hfirst]
      refine (ih hrecords hx' hplaced (by omega) _).mono (fun found last h => ⟨h.1, fun number => ?_⟩)
        fun _ _ h => h
      simp only [h.2 number, List.filterMap_cons_some hheader, List.mem_cons, exists_eq_or_imp, ← hmark]
      cases mark <;> simp [or_assoc, or_left_comm, eq_comm]
    · have hfirst : (alone schema config nested depth table bytes).result (Reader.rest x) =
          (.error failure, Reader.rest x') := by
        rw [hrest]
        exact congrArg (fun run => (run.1.map fun _ => (), Reader.rest run.2)) hb
      refine .of_error ((walk_of_offers htags hc hx hpos).trans (Step.result_bind_error ha)) ?_
      rw [List.forM, Step.result_bind_error hfirst]

-- ---------------------------------------------------------------------------
-- Messages
-- ---------------------------------------------------------------------------

/-- What the records of a message do one after the other, and the verdict on their headers. -/
def series (schema : Schema Ref) (config : DecodeConfig) (levels : Nat) (ref : Ref) (records : List Bytes) :
    Step (Bytes × List S) CodecError Unit := do
  records.forM (alone schema config (messageWithin schema config levels) (config.maxDepth - levels) (schema ref))
  .ofExcept ((schema ref).verdict (records.filterMap Wire.header?))

/-- A message that consists of records is the series of them. -/
theorem result_messageWithin {ref : Ref} (hc : Counted (schema ref)) (hm : Handler.Modest Ref σ Bytes S)
    (hr : ∀ bytes ∈ records, Wire.Record bytes) (hx : Offers x records.flatten)
    (hs : (schema ref).size ≤ x.block.length) (levels : Nat) :
    let run := (messageWithin schema config (levels + 1) ref).result x
    (run.1, Reader.rest run.2) = (series schema config levels ref records).result (Reader.rest x) := by
  simp only [messageWithin_of_ok (Table.checkBlock_ok hs), fields_eq_walk]
  have hnested : ∀ field ∈ (schema ref).fields,
      NestsTwins (messageWithin schema config levels : Ref → Decode σ S Unit)
        (messageWithin schema config levels) field := fun _ _ inner _ => twins_messageWithin hm levels inner
  have hends : (walk schema config (messageWithin schema config levels) (config.maxDepth - levels) (schema ref)
      x.input.left .start []).Ends x _ _ :=
    walk_series hc.tags_ne hm hnested hr hx Cursor.placed_start hx.length_le []
  rcases hwalk : (walk schema config (messageWithin schema config levels) (config.maxDepth - levels) (schema ref)
    x.input.left .start []).result x with ⟨failure | found, last⟩
  · rw [Step.result_bind_error hwalk, series, Step.result_bind_error (hends.error hwalk)]
  · obtain ⟨hseries, hfound⟩ := hends.ok hwalk
    have hmissing := missing?_eq_lacking? hc.tags_ne hc.required_le fun mark =>
      (hfound mark).trans (or_iff_right (List.not_mem_nil))
    rw [Step.result_bind_ok hwalk, checkRequired, hmissing, series, Step.result_bind_ok hseries, Table.verdict]
    cases (schema ref).lacking? (records.filterMap Wire.header?) <;> rfl

end

end Decode

end BlockCodec
