import Mathlib.Data.List.Forall2
import BlockCodec.Proofs.Checks
import BlockCodec.Proofs.Looks
import BlockCodec.Proofs.Reach
import BlockCodec.Proofs.Reading
import BlockCodec.Proofs.RoundTrip
import BlockCodec.Proofs.Skipping

/-!
# What is emitted for a block

The wire form of a field is a list of records that all begin with its tag, one for each of its values or
one for all of them when they are packed. How many there are is what the view of the block tells, and a
scanner that knows nothing of the table finds just these (`emission_matches_view`).
-/

namespace BlockCodec

variable {Ref : Type} {a b content : Bytes}

-- ---------------------------------------------------------------------------
-- Records with known headers
-- ---------------------------------------------------------------------------

namespace Wire

open Input (Reads)

variable {header : Nat × WireType} {headers others : List (Nat × WireType)} {type : WireType} {tag : Nat}

/-- The bytes are read as one record with this header, whatever stands behind them. -/
def RecordOf (header : Nat × WireType) (bytes : Bytes) : Prop := Reads readRecord bytes header

theorem RecordOf.result {record : Bytes} (h : RecordOf header record) :
    ∃ rest, readRecord.result (.ofBytes record) = (.ok header, rest) ∧ rest.left = 0 := by
  have hr := h [] record.length 0 true (Nat.le_refl _)
  rw [List.append_nil] at hr
  exact ⟨_, hr, Nat.sub_self _⟩

theorem RecordOf.readable {record : Bytes} (h : RecordOf header record) : Readable record := by
  obtain ⟨rest, hr, hleft⟩ := h.result
  exact ⟨header, rest, hr, hleft⟩

theorem RecordOf.shows {record : Bytes} {field : RawField} (h : RecordOf header record)
    (hs : Scanner.Shows record field) : (field.number, field.type) = header := by
  obtain ⟨rest, hr, -⟩ := h.result
  obtain ⟨last, hlast⟩ := hs
  simpa using (Prod.mk.inj (hlast.symm.trans hr)).1

theorem reads_nextTag (hpos : 0 < tag) (hle : tag ≤ maxFieldNumber) :
    Reads nextTag (headerForm type tag) (tag, type) := fun rest left taken bounded hroom =>
  result_nextTag_of_readTag ⟨rfl, rfl, rfl⟩ (reads_readTag hpos hle rest left taken bounded hroom)

/-- A header is taken off the bytes that begin with it. -/
theorem result_nextTag_headerForm (hpos : 0 < tag) (hle : tag ≤ maxFieldNumber) (type : WireType)
    (content : Bytes) : nextTag.result (.ofBytes (headerForm type tag ++ content)) =
      (.ok (tag, type), ⟨content, content.length, (headerForm type tag).length, true⟩) := by
  refine (reads_nextTag hpos hle content _ 0 true (by simp)).trans ?_
  rw [List.length_append, Nat.add_sub_cancel_left, Nat.zero_add]

theorem recordOf_of_reads {body : Bytes} {value : RawValue} (hpos : 0 < tag) (hle : tag ≤ maxFieldNumber)
    (h : Reads (readRawValue type) body value) : RecordOf (tag, type) (headerForm type tag ++ body) :=
  (reads_nextTag hpos hle).bind (h.map rfl)

theorem reads_delimitedForm (hl : content.length < 2 ^ 32) :
    Reads (readRawValue .delimited) (delimitedForm content) (.delimited content) := by
  intro rest left taken bounded hroom
  have hpayload : Reads (onStream (Input.read content.length)) content content :=
    (Input.reads_read content).mapFailure _
  have hwhole : Reads (do
      let bytes ← onStream (Input.read content.length)
      pure (RawValue.delimited bytes)) content (RawValue.delimited content) := hpayload.map rfl
  rw [readRawValue, Step.result_bind_ok (readLength_append hl hroom)]
  rw [delimitedForm, List.length_append] at hroom ⊢
  rw [hwhole _ _ _ _ (by omega), Nat.sub_sub, Nat.add_assoc]

/-- The bytes are records with these headers, one behind the other. -/
def Lists (headers : List (Nat × WireType)) (bytes : Bytes) : Prop :=
  ∃ records, List.Forall₂ RecordOf headers records ∧ records.flatten = bytes

theorem lists_nil : Lists [] [] := ⟨[], .nil, rfl⟩

theorem lists_one (h : RecordOf header content) : Lists [header] content :=
  ⟨[content], .cons h .nil, by simp⟩

theorem Lists.append (ha : Lists headers a) (hb : Lists others b) : Lists (headers ++ others) (a ++ b) := by
  obtain ⟨first, hfirst, rfl⟩ := ha
  obtain ⟨rest, hrest, rfl⟩ := hb
  exact ⟨first ++ rest, List.rel_append hfirst hrest, List.flatten_append⟩

/-- A scanner finds what is listed. -/
theorem Lists.scan (h : Lists headers content) :
    ∃ fields scanner, scan content = (fields, none, scanner) ∧ scanner.position = content.length ∧
      fields.map (fun field => (field.number, field.type)) = headers := by
  obtain ⟨records, hrecords, rfl⟩ := h
  have hreadable : ∀ record ∈ records, Readable record := by
    induction hrecords with
    | nil => exact nofun
    | cons hrecord _ ih => exact List.forall_mem_cons.mpr ⟨hrecord.readable, ih⟩
  have hat : (Scanner.ofBytes records.flatten).input.At records.flatten records.flatten.length 0 :=
    ⟨rfl, rfl, rfl⟩
  obtain ⟨fields, scanner, hscan, hplace, hshows⟩ :=
    Scanner.run_of_readable hreadable rfl hat (Nat.lt_succ_self _)
  refine ⟨fields, scanner, hscan, hplace.trans (Nat.zero_add _), ?_⟩
  clear hscan hplace hreadable hat
  induction hrecords generalizing fields with
  | nil =>
    cases hshows
    rfl
  | cons hrecord _ ih =>
    obtain _ | ⟨hshow, hrest⟩ := hshows
    rw [List.map_cons, hrecord.shows hshow, ih _ hrest]

end Wire

-- ---------------------------------------------------------------------------
-- Forms as lists of records
-- ---------------------------------------------------------------------------

namespace Field

open Wire

variable {field : Field Ref} {forms : Ref → Bytes → Except CodecError Bytes} {block stored : Bytes}

theorem reads_scalar_raw (hk : field.kind.isScalar = true) (value : Scalar) :
    ∃ raw, Input.Reads (readRawValue field.kind.wireType) (field.scalarForm value) raw := by
  unfold scalarForm
  cases hkind : field.kind with
  | text | bytes | message => simp [hkind, Kind.isScalar] at hk
  | fixed type =>
    obtain ⟨width, signed⟩ := type
    cases width with
    | w64 => exact ⟨_, (reads_readFixed64 _).map rfl⟩
    | w8 | w16 | w32 => exact ⟨_, (reads_readFixed32 _).map rfl⟩
  | float width =>
    cases width with
    | w64 => exact ⟨_, (reads_readFixed64 _).map rfl⟩
    | w8 | w16 | w32 => exact ⟨_, (reads_readFixed32 _).map rfl⟩
  | bool | varint | zigZag | enumeration => exact ⟨_, (reads_readVarint _).map rfl⟩

section

variable (hpos : 0 < field.tag) (hle : field.tag ≤ maxFieldNumber)

include hpos hle

/-- A value of any kind is one record of the wire type of its kind. -/
theorem recordOf_valueForm (hform : field.valueForm forms stored = .ok content) (hl : content.length < 2 ^ 32) :
    RecordOf (field.tag, field.kind.wireType) content := by
  obtain ⟨body, hbody, hcontent⟩ := bind_eq_ok.mp hform
  rw [pure_eq_ok] at hcontent
  subst hcontent
  rw [List.length_append] at hl
  have hdelimited : ∀ {outcome : Except CodecError Bytes}, field.kind.wireType = .delimited →
      outcome.map delimitedForm = .ok body → RecordOf (field.tag, field.kind.wireType)
        (headerForm field.kind.wireType field.tag ++ body) := by
    intro outcome htype hmap
    cases outcome with
    | error failure => cases hmap
    | ok payload =>
      cases hmap
      rw [delimitedForm, List.length_append] at hl
      rw [htype]
      exact recordOf_of_reads hpos hle (reads_delimitedForm (by omega))
  unfold bodyForm at hbody
  split at hbody
  · next hk => exact hdelimited (by rw [hk]; rfl) hbody
  · next hk => exact hdelimited (by rw [hk]; rfl) hbody
  · next hk => exact hdelimited (by rw [hk]; rfl) hbody
  · next kind htext hbytes hmessage =>
    have hk : field.kind.isScalar = true := by
      cases hkind : field.kind with
      | text => exact absurd hkind htext
      | bytes => exact absurd hkind hbytes
      | message ref => exact absurd hkind (hmessage ref)
      | _ => rfl
    obtain ⟨raw, hraw⟩ := reads_scalar_raw hk (field.kind.loadScalar stored)
    cases hbody
    exact recordOf_of_reads hpos hle hraw

omit hpos hle in
theorem lists_elementForms {form : Bytes → Except CodecError Bytes} {header : Nat × WireType}
    (h : ∀ {stored content}, form stored = .ok content → content.length < 2 ^ 32 → RecordOf header content)
    {index left : Nat} (hform : field.elementForms form block index left = .ok content)
    (hl : content.length < 2 ^ 32) : Lists (List.replicate left header) content := by
  induction left generalizing index content with
  | zero =>
    cases hform
    exact lists_nil
  | succ left ih =>
    simp only [elementForms, bind_eq_ok, pure_eq_ok] at hform
    obtain ⟨stored, -, first, hfirst, rest, hrest, rfl⟩ := hform
    rw [List.length_append] at hl
    exact (lists_one (h hfirst (by omega))).append (ih hrest (by omega))

theorem recordOf_packForm {numbers : Bytes} (hl : (field.packForm numbers).length < 2 ^ 32) :
    RecordOf (field.tag, .delimited) (field.packForm numbers) := by
  rw [packForm, delimitedForm, List.length_append, List.length_append] at hl
  exact recordOf_of_reads hpos hle (reads_delimitedForm (by omega))

end

/-- The headers of the records of a field that is there, with so many elements if it is an array. -/
def headers (field : Field Ref) (count : Nat) : List (Nat × WireType) :=
  if field.isRepeated then
    if field.packed then [(field.tag, .delimited)]
    else List.replicate count (field.tag, field.kind.wireType)
  else [(field.tag, field.kind.wireType)]

end Field

/-- The headers that are written for a field, going by what a view tells about it. -/
def View.headers (view : View Ref) (field : Field Ref) : Except CodecError (List (Nat × WireType)) := do
  let present ← view.has field.tag
  let count ← view.count field.tag
  pure (if present then field.headers count else [])

section

open Wire

variable {schema : Schema Ref} {table : Table Ref} {field : Field Ref} {block : Bytes}
  {forms : Ref → Bytes → Except CodecError Bytes} {count : Nat}

theorem View.headers_array (htags : table.fields.Pairwise (·.tag ≠ ·.tag)) (hf : field ∈ table.fields)
    (hh : field.isHandled = false) (hm : field.multiplicity = .repeated) (hslot : field.slot block = .ok count)
    (hle : count ≤ field.capacity) :
    View.headers ⟨table, block⟩ field = .ok (if 0 < count then field.headers count else []) := by
  have hcount : View.count ⟨table, block⟩ field.tag = .ok count := by
    rw [View.count, Table.lookUp_of_mem htags hf, bind_ok, if_pos (by simp [Field.isRepeated, hm, hh]),
      Field.count, hslot, bind_ok, if_neg (by omega)]
    rfl
  rw [View.headers, View.has_of_inBlock htags hf hh, Field.isPresent_of_count hm hslot, bind_ok, hcount, bind_ok]
  simp only [decide_eq_true_eq]
  rfl

theorem View.headers_single (htags : table.fields.Pairwise (·.tag ≠ ·.tag)) (hf : field ∈ table.fields)
    (hh : field.isHandled = false) (hm : field.multiplicity ≠ .repeated) {present : Bool}
    (hp : field.isPresent block = .ok present) :
    View.headers ⟨table, block⟩ field = .ok (if present then [(field.tag, field.kind.wireType)] else []) := by
  have hrepeated : field.isRepeated = false := by simpa [Field.isRepeated] using hm
  have hcount : View.count ⟨table, block⟩ field.tag = .ok (if present then 1 else 0) := by
    rw [View.count, Table.lookUp_of_mem htags hf, bind_ok, if_neg (by simp [hrepeated]),
      View.has_of_inBlock htags hf hh, hp]
    rfl
  rw [View.headers, View.has_of_inBlock htags hf hh, hp, bind_ok, hcount, bind_ok, Field.headers, hrepeated]
  rfl

/-- What is written for a field is what the view tells. -/
theorem View.lists_wireForm (hfits : table.Fits schema) (hf : field ∈ table.fields)
    (hh : field.isHandled = false) (hform : field.wireForm forms block = .ok content)
    (hl : content.length < 2 ^ 32) :
    ∃ headers, View.headers ⟨table, block⟩ field = .ok headers ∧ Lists headers content := by
  have hpos := hfits.tag_pos field hf
  have hle := hfits.tag_le field hf
  by_cases hm : field.multiplicity = .repeated
  · rw [Field.wireForm_array forms hh hm] at hform
    obtain ⟨count, hslot, hform⟩ := bind_eq_ok.mp hform
    by_cases hzero : count = 0
    · rw [if_pos hzero, pure_eq_ok] at hform
      subst hform hzero
      exact ⟨[], View.headers_array hfits.tags_ne hf hh hm hslot (Nat.zero_le _), lists_nil⟩
    by_cases hfull : field.capacity < count
    · rw [if_neg hzero, if_pos hfull] at hform
      cases hform
    have hheaders := View.headers_array hfits.tags_ne hf hh hm hslot (by omega)
    rw [if_pos (by omega)] at hheaders
    refine ⟨_, hheaders, ?_⟩
    rw [if_neg hzero, if_neg hfull] at hform
    have hrepeated : field.isRepeated = true := by simp [Field.isRepeated, hm]
    by_cases hpacked : field.packed = true
    · have hscalar := ((hfits.stored field hf hh).packed hpacked).2
      rw [if_pos ⟨hpacked, hscalar⟩] at hform
      obtain ⟨numbers, -, hcontent⟩ := bind_eq_ok.mp hform
      rw [pure_eq_ok] at hcontent
      subst hcontent
      rw [Field.headers, if_pos hrepeated, if_pos hpacked]
      exact lists_one (Field.recordOf_packForm hpos hle hl)
    · rw [if_neg fun h => hpacked h.1] at hform
      rw [Field.headers, if_pos hrepeated, if_neg hpacked]
      exact Field.lists_elementForms (Field.recordOf_valueForm hpos hle) hform hl
  · rw [Field.wireForm_single forms hh hm] at hform
    obtain ⟨present, hpresent, hform⟩ := bind_eq_ok.mp hform
    refine ⟨_, View.headers_single hfits.tags_ne hf hh hm hpresent, ?_⟩
    cases present with
    | false =>
      cases hform
      exact lists_nil
    | true =>
      obtain ⟨stored, -, hvalue⟩ := bind_eq_ok.mp hform
      exact lists_one (Field.recordOf_valueForm hpos hle hvalue hl)

theorem View.lists_wireForms (hfits : table.Fits schema) (hu : table.Unhandled) {fields : List (Field Ref)}
    (hsub : ∀ field ∈ fields, field ∈ table.fields) (hform : Field.wireForms forms block fields = .ok content)
    (hl : content.length < 2 ^ 32) :
    ∃ headers, fields.mapM (View.headers ⟨table, block⟩) = .ok headers ∧ Lists headers.flatten content := by
  induction fields generalizing content with
  | nil =>
    cases hform
    exact ⟨[], rfl, lists_nil⟩
  | cons field rest ih =>
    obtain ⟨hf, hrest⟩ := List.forall_mem_cons.mp hsub
    simp only [Field.wireForms, bind_eq_ok, pure_eq_ok] at hform
    obtain ⟨first, hfirst, others, hothers, rfl⟩ := hform
    rw [List.length_append] at hl
    obtain ⟨headers, hheaders, hlists⟩ := View.lists_wireForm hfits hf (hu field hf) hfirst (by omega)
    obtain ⟨more, hmore, hlists'⟩ := ih hrest hothers (by omega)
    refine ⟨headers :: more, ?_, hlists.append hlists'⟩
    rw [List.mapM_cons, hheaders, bind_ok, hmore]
    rfl

end

/-- What is encoded is scanned without a failure and to its end, and the fields that the scan finds are
those that the view of the block tells: field after field as in the table, none for a field that is not
there, one for each element of an array that is not packed, and of the wire type of the kind unless packed. -/
theorem emission_matches_view {schema : Schema Ref} {ref : Ref} {block wire : Bytes}
    (hvalid : Table.validate schema ref = .ok ()) (hu : schema.Throughout Table.Unhandled ref)
    (hwire : encodeToBytes schema ref block = .ok wire) (hlen : wire.length < 2 ^ 32) :
    ∃ headers fields scanner, (schema ref).fields.mapM (View.headers ⟨schema ref, block⟩) = .ok headers ∧
      Wire.scan wire = (fields, none, scanner) ∧ scanner.position = wire.length ∧
      fields.map (fun field => (field.number, field.type)) = headers.flatten := by
  have hfits := Schema.fits_of_validate hvalid
  have hform : schema.wireForm {} (({} : EncodeConfig).maxDepth + 1 - 0) ref block = .ok wire :=
    form_of_encodeToBytes (Encode.emits_messageWithin_of_fits hfits hu _) hwire
  obtain ⟨-, -, hform⟩ := bind_eq_ok.mp hform
  obtain ⟨headers, hheaders, hlists⟩ :=
    View.lists_wireForms hfits.here hu.here (fun _ hf => hf) hform hlen
  obtain ⟨fields, scanner, hscan, hplace, hfields⟩ := hlists.scan
  exact ⟨headers, fields, scanner, hheaders, hscan, hplace, hfields⟩

/-- A number, two lines and a stamp, but no seal. -/
theorem emission_matches_view_letter :
    Table.validate letter false = .ok () ∧ letter.Throughout Table.Unhandled false ∧
    let block : Bytes :=
      [44, 0, 0, 0, 2, 0, 0, 0, 97, 98, 0, 0, 0, 0, 0, 0, 4, 0, 0, 0, 5, 0, 0, 0, 0, 0]
    let wire : Bytes := [8, 44, 18, 2, 97, 98, 18, 0, 34, 2, 8, 5]
    encodeToBytes letter false block = .ok wire ∧ wire.length < 2 ^ 32 ∧
    (letter false).fields.mapM (View.headers ⟨letter false, block⟩) =
      .ok [[(1, .varint)], [(2, .delimited), (2, .delimited)], [], [(4, .delimited)]] ∧
    ∃ fields scanner, Wire.scan wire = (fields, none, scanner) ∧ scanner.position = 12 ∧
      fields.map (fun field => (field.number, field.type)) =
        [(1, .varint), (2, .delimited), (2, .delimited), (4, .delimited)] := by
  have hvalid : Table.validate letter false = .ok () := rfl
  refine ⟨hvalid, letter_unhandled false, ?_⟩
  intro block wire
  have hwire : encodeToBytes letter false block = .ok wire := by cbv
  have hlen : wire.length < 2 ^ 32 := show 12 < 2 ^ 32 by omega
  have htold : (letter false).fields.mapM (View.headers ⟨letter false, block⟩) =
      .ok [[(1, .varint)], [(2, .delimited), (2, .delimited)], [], [(4, .delimited)]] := by cbv
  obtain ⟨headers, fields, scanner, hheaders, hscan, hplace, hfields⟩ :=
    emission_matches_view hvalid (letter_unhandled false) hwire hlen
  cases htold.symm.trans hheaders
  exact ⟨hwire, hlen, htold, fields, scanner, hscan, hplace, hfields⟩

end BlockCodec
