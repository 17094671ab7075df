import BlockCodec.Proofs.Footprints
import BlockCodec.Proofs.Preparation
import BlockCodec.Proofs.Truncation

/-!
# Concatenation is merging

Two messages one behind the other do what they do one after the other: `Decode.Makes.append`. What a
single message field receives twice is a case of that one level down, once it is clear that nothing
else happens between the two payloads: the field is ready for the second one, and the flag that is set
again is set already.
-/

namespace BlockCodec

-- ---------------------------------------------------------------------------
-- Single messages
-- ---------------------------------------------------------------------------

/-- A header, a length and the payload of that length, and nothing else. -/
def Wire.Carries (tag : Nat) (payload bytes : Bytes) : Prop :=
  ∃ behind last, readTag.result (.ofBytes bytes) = (.ok (some (tag, .delimited)), behind) ∧
    readLength.result behind = (.ok payload.length, last) ∧ last.source = payload

namespace Wire

variable {tag : Nat} {payload bytes : Bytes} {behind last : Input Bytes}

/-- Behind the header and the length there is the payload. -/
theorem at_payload (htag : readTag.result (.ofBytes bytes) = (.ok (some (tag, .delimited)), behind))
    (hlength : readLength.result behind = (.ok payload.length, last)) (hsource : last.source = payload) :
    last.At payload payload.length last.taken := by
  have hat := Input.at_ofBytes bytes
  have hheader : Tracks WireError.IsShort 1 (nextTag : Read Bytes _) (nextTag : Read Bytes _) :=
    tracks_nextTag
  have hread : Owes WireError.IsShort 0 id (readLength : Read Bytes Nat) (readLength : Read Bytes Nat) :=
    owes_readLength
  obtain ⟨count, -, -, hbehind⟩ := (hheader.advances hat).ok (result_nextTag_of_readTag hat htag)
  obtain ⟨count', -, -, hlast⟩ := (hread.advances hbehind).ok hlength
  have hpayload : (bytes.drop count).drop count' = payload := by
    rw [← hsource]
    exact hlast.holds.symm
  refine ⟨hsource, ?_, rfl⟩
  rw [← hpayload, List.length_drop, List.length_drop]
  exact hlast.left_eq

theorem Carries.record (h : Carries tag payload bytes) : Record bytes := by
  obtain ⟨behind, last, htag, hlength, hsource⟩ := h
  have hlast := at_payload htag hlength hsource
  have hskip := Input.demands_skip payload.length _ _ _ _ hlast
  rcases hr : (Input.skip payload.length).result last with ⟨outcome, rest⟩
  cases outcome with
  | error failure =>
    have := (hskip.error hr).1
    omega
  | ok _ =>
    have hrest : rest.left = payload.length - payload.length := (hskip.ok hr).2.2.1.left_eq
    refine ⟨tag, .delimited, behind, rest, htag, ?_, by omega⟩
    rw [skipField, Step.result_bind_ok hlength, onStream, Step.result_mapFailure, hr]
    rfl

end Wire

namespace Decode

section

variable {S Ref : Type} [Handler Ref S] {schema : Schema Ref} {config : DecodeConfig}
  {nested : Ref → Decode Bytes S Unit} {depth : Nat} {table : Table Ref} {field : Field Ref}
  {inner : Ref} {tag : Nat} {payload bytes : Bytes} {before after : Bytes × List S}

/-- A payload is received into a single field. -/
def Receives (schema : Schema Ref) (nested : Ref → Decode Bytes S Unit) (table : Table Ref)
    (field : Field Ref) (inner : Ref) (payload : Bytes) (before after : Bytes × List S) : Prop :=
  ∃ ready stored content, (prepare schema table field).result before.1 = (.ok (), ready) ∧
    ready.slice? field.data = some stored ∧
    Makes (nested inner) payload (stored, before.2) (content, after.2) ∧
    (conclude field).result (Bytes.overwrite ready field.data.start content) = (.ok (), after.1)

omit [Handler Ref S] in
/-- The value of a message field is its payload, over an input of its own. -/
theorem result_value_carried (hk : field.kind = .message inner)
    (hdrains : Drains (nested inner) (nested inner)) {behind last : Input Bytes}
    (hlength : Wire.readLength.result behind = (.ok payload.length, last))
    (hlast : last.At payload payload.length (last.taken)) {block content : Bytes}
    {handlers others : List S} {input : Input Bytes} :
    (value config nested field).result ⟨behind, block, handlers⟩ = (.ok (), ⟨input, content, others⟩) ↔
      Makes (nested inner) payload (block, handlers) (content, others) ∧
        input = ⟨[], 0, last.taken + payload.length, last.bounded⟩ := by
  let inside : Decoding Bytes S := ⟨.ofBytes payload, block, handlers⟩
  have hat : inside.input.At payload payload.length 0 := ⟨rfl, rfl, rfl⟩
  have hvalue : (value config nested field).result ⟨behind, block, handlers⟩ =
      (within payload.length (whole payload.length (nested inner))).result ⟨last, block, handlers⟩ := by
    unfold value
    simp only [hk]
    exact Step.result_bind_ok (result_onWire hlength)
  have hsource : last.source = payload := hlast.holds
  have hnarrow : last.narrow payload.length = .ok (.ofBytes payload) := by
    rw [Input.narrow, if_neg (by rw [hlast.left_eq]; omega), hsource]
    rfl
  have hends := hdrains.takes hat
  rw [Nat.min_self, List.drop_length, Nat.sub_self, Nat.zero_add] at hends
  -- a message that is accepted leaves nothing of its payload
  have hwhole : (whole payload.length (nested inner)).result inside = (nested inner).result inside := by
    rcases hr : (nested inner).result inside with ⟨outcome, next⟩
    cases outcome with
    | error failure => exact Step.result_bind_error hr
    | ok _ =>
      have hexhausted : next.input.isExhausted = true := by
        simp [Input.isExhausted, (hends.ok hr).left_eq]
      rw [whole, Step.result_bind_ok hr, Step.result_bind_ok (Step.result_get next)]
      simp [hexhausted]
  rw [hvalue, within, Step.result_ofRun]
  simp only [hnarrow]
  rcases hr : (nested inner).result inside with ⟨outcome, next⟩
  rw [hr] at hwhole
  simp only [inside] at hwhole hr
  simp only [hwhole, Makes, hr]
  cases outcome with
  | error failure => simp
  | ok _ =>
    have hnext : next.input.At [] 0 payload.length := hends.ok hr
    have hrejoin : last.rejoin next.input = ⟨[], 0, last.taken + payload.length, last.bounded⟩ := by
      have hnil : next.input.source = [] := hnext.holds
      simp [Input.rejoin, Input.charge, hnil, hnext.taken_eq, hlast.left_eq]
    rw [hrejoin]
    constructor
    · intro h
      obtain ⟨-, hstate⟩ := Prod.mk.inj h
      cases hstate
      exact ⟨⟨next.input, rfl⟩, rfl⟩
    · rintro ⟨⟨input', hstate⟩, rfl⟩
      obtain ⟨-, rfl⟩ := Prod.mk.inj hstate
      rfl

/-- A record that carries a payload makes the lap of a field that receives it. -/
theorem lap_iff_receives {entry : Entry Ref} (hentry : table.entryOf? tag = some entry)
    (hk : entry.field.kind = .message inner) (hm : entry.field.multiplicity ≠ .repeated)
    (hh : entry.field.isHandled = false) (hdrains : Drains (nested inner) (nested inner))
    (hc : Wire.Carries tag payload bytes) {mark : Option Nat} :
    Lap schema config nested depth table bytes mark before after ↔
      mark = tracked? entry ∧ Receives schema nested table entry.field inner payload before after := by
  obtain ⟨behind, last, htag, hlength, hsource⟩ := hc
  have hlast := Wire.at_payload htag hlength hsource
  have haccepts : entry.field.accepts .delimited = true := by simp [Field.accepts, hk, Kind.wireType]
  rw [lap_iff_record (Wire.result_nextTag_of_readTag (Input.at_ofBytes bytes) htag)]
  simp only [hentry, record, haccepts, hh, if_true, Bool.false_eq_true, if_false, stored_single hm,
    bind_assoc]
  constructor
  · rintro ⟨input, -, hr⟩
    obtain ⟨_, ready, hprepare, hr⟩ := Step.result_bind_eq_ok.mp hr
    obtain ⟨_, filled, hinside, hr⟩ := Step.result_bind_eq_ok.mp hr
    obtain ⟨_, done, hconclude, hr⟩ := Step.result_bind_eq_ok.mp hr
    obtain ⟨hanswer, rfl⟩ := Prod.mk.inj hr
    cases hanswer
    obtain ⟨hprepare, hready⟩ := result_onBlock_eq_ok.mp hprepare
    obtain ⟨stored, content, hslice, hvalue, hfilled⟩ := result_inside_eq_ok.mp hinside
    obtain ⟨hconclude, hdone⟩ := result_onBlock_eq_ok.mp hconclude
    rw [hready] at hvalue
    obtain ⟨hmakes, -⟩ := (result_value_carried hk hdrains hlength hlast).mp hvalue
    have hhandlers : after.2 = filled.handlers := congrArg Decoding.handlers hdone
    refine ⟨rfl, ready.block, stored, content, hprepare, hslice, hhandlers ▸ hmakes, ?_⟩
    rw [← hfilled]
    exact hconclude
  · rintro ⟨rfl, ready, stored, content, hprepare, hslice, hmakes, hconclude⟩
    let input : Input Bytes := ⟨[], 0, last.taken + payload.length, last.bounded⟩
    let filled := Bytes.overwrite ready entry.field.data.start content
    refine ⟨input, rfl, ?_⟩
    refine Step.result_bind_eq_ok.mpr ⟨(), ⟨behind, ready, before.2⟩,
      result_onBlock_eq_ok.mpr ⟨hprepare, rfl⟩, ?_⟩
    refine Step.result_bind_eq_ok.mpr ⟨(), ⟨input, filled, after.2⟩,
      result_inside_eq_ok.mpr ⟨stored, content, hslice, ?_, rfl⟩, ?_⟩
    · exact (result_value_carried hk hdrains hlength hlast).mpr ⟨hmakes, rfl⟩
    · exact Step.result_bind_eq_ok.mpr ⟨(), ⟨input, after.1, after.2⟩,
        result_onBlock_eq_ok.mpr ⟨hconclude, rfl⟩, rfl⟩

-- ---------------------------------------------------------------------------
-- Receiving twice
-- ---------------------------------------------------------------------------

variable {size : Nat} {block ready other : Bytes}

/-- What was in the slot makes no difference to what is set. -/
theorem setSlot_congr (hlaid : field.Laid schema size) (hs : size ≤ block.length) {value : Nat}
    {last : Bytes} (hr : (Edit.setSlot field value).result block = (.ok (), last))
    (hagree : Bytes.AgreeOn (fun place => ¬field.slotPlaces place) block other) :
    (Edit.setSlot field value).result other = (.ok (), last) := by
  have hsome := Field.sizeOffset_isSome_of_setSlot hr
  obtain ⟨_, slot, hr', hout, hslot, hcontent, -⟩ := hlaid.setSlot_ok hs hsome value
  obtain ⟨-, rfl⟩ := Prod.mk.inj (hr.symm.trans hr')
  obtain ⟨last', slot', hlast, hout', hslot', hcontent', -⟩ :=
    hlaid.setSlot_ok (hagree.1 ▸ hs) hsome value
  obtain rfl : slot = slot' := Option.some.inj (hslot.symm.trans hslot')
  have hrest := (hout.symm.trans hagree).trans hout'
  refine hlast.trans (Prod.ext rfl (Bytes.ext_byte hrest.1.symm fun place => ?_))
  by_cases hp : field.slotPlaces place
  · rw [Field.slotPlaces_iff hslot] at hp
    have hstop := Bytes.start_add_length_slice hcontent
    obtain ⟨offset, rfl⟩ : ∃ offset, place = slot.start + offset := ⟨place - slot.start, by
      have := hp.1
      omega⟩
    rw [Span.mem_iff] at hp
    rw [← Bytes.byte_slice hcontent' (by omega), ← Bytes.byte_slice hcontent (by omega)]
  · exact (hrest.2 place hp).symm

/-- Storage that is written twice holds what was written last. -/
theorem agreeOn_overwrite_twice {P : Nat → Prop} {span : Span} {stored content last : Bytes}
    (hs : ready.slice? span = some stored) (hc : content.length = stored.length)
    (hl : last.length = content.length) (hb : block.slice? span = some content)
    (hagree : Bytes.AgreeOn P (Bytes.overwrite ready span.start content) block) :
    Bytes.AgreeOn P (Bytes.overwrite block span.start last) (Bytes.overwrite ready span.start last) := by
  have hlast : last.length = stored.length := hl.trans hc
  refine ⟨?_, fun place hp => ?_⟩
  · rw [Bytes.length_overwrite_slice hb hl, Bytes.length_overwrite_slice hs hlast, ← hagree.1,
      Bytes.length_overwrite_slice hs hc]
  · have hplace := hagree.2 place hp
    rw [Bytes.byte_overwrite_slice hs hc] at hplace
    rw [Bytes.byte_overwrite_slice hb hl, Bytes.byte_overwrite_slice hs hlast]
    split
    · rfl
    · next hout => rw [← hplace, if_neg hout]

omit [Handler Ref S] in
/-- A single field that receives two payloads holds what their concatenation would have made. -/
theorem Receives.append {more : Bytes} {middle : Bytes × List S}
    (hlaid : field.multiplicity ≠ .required → field.Laid schema size)
    (hm : field.multiplicity ≠ .repeated) (hh : field.isHandled = false)
    (hself : field.spans.Pairwise Span.Apart) (ht : field.tag ≤ Wire.maxFieldNumber)
    (hs : size ≤ before.1.length) (hkeeps : (nested inner).KeepsLength)
    (happend : ∀ {before middle after : Bytes × List S}, Makes (nested inner) payload before middle →
      Makes (nested inner) more middle after → Makes (nested inner) (payload ++ more) before after)
    (h : Receives schema nested table field inner payload before middle)
    (h' : Receives schema nested table field inner more middle after) :
    Receives schema nested table field inner (payload ++ more) before after := by
  obtain ⟨ready, stored, content, hready, hstored, hfirst, hmiddle⟩ := h
  obtain ⟨ready', stored', last, hready', hstored', hsecond, hafter⟩ := h'
  have hlen : content.length = stored.length := by
    obtain ⟨input, hr⟩ := hfirst
    exact (hkeeps stored _ rfl).ok hr
  have hlen' : last.length = stored'.length := by
    obtain ⟨input, hr⟩ := hsecond
    exact (hkeeps stored' _ rfl).ok hr
  have hfilled := Bytes.slice_overwrite_self hstored hlen
  have hagree := (touches_conclude field).agree hmiddle
  -- what the first payload made is there when the second one comes
  have hdata : middle.1.slice? field.data = some content := by
    rw [← hagree.slice fun place hp => ?_]
    · exact hfilled
    · rw [← Field.storage_eq_data hm] at hp
      exact Field.not_slotPlaces_of_storage hh hself hp
  have hslot : field.group?.isSome → field.slot middle.1 = .ok field.tag := by
    intro hg
    obtain ⟨group, hmult⟩ := Field.multiplicity_of_group hg
    have hslot := slot_prepare (hlaid (by simp [hmult])) hs ht hg hready
    have hmiddle' : middle.1 = Bytes.overwrite ready field.data.start content := by
      simp only [conclude, hmult] at hmiddle
      exact (Prod.mk.inj hmiddle).2.symm
    rw [hmiddle', Field.slot_congr, hslot]
    refine (Bytes.agreeOn_overwrite hstored hlen).mono fun place hp hin => ?_
    rw [← Field.storage_eq_data hm] at hin
    exact Field.not_slotPlaces_of_storage hh hself hin hp
  obtain ⟨-, rfl⟩ := Prod.mk.inj ((prepare_ready hslot).symm.trans hready')
  obtain rfl : content = stored' := Option.some.inj (hdata.symm.trans hstored')
  refine ⟨ready, stored, last, hready, hstored, happend hfirst hsecond, ?_⟩
  rcases conclude_cases field with hnone | ⟨hmult, ho, hflag⟩
  · rw [hnone] at hmiddle hafter ⊢
    have hblock : Bytes.overwrite ready field.data.start content = middle.1 := (Prod.mk.inj hmiddle).2
    have hrefl : Bytes.AgreeOn (fun _ => True) (Bytes.overwrite ready field.data.start content) middle.1 :=
      hblock ▸ .refl _ _
    have hsame := agreeOn_overwrite_twice hstored hlen hlen' hdata hrefl
    rw [← Bytes.ext_byte hsame.1 fun place => hsame.2 place trivial]
    exact hafter
  · have hready' : before.1 = ready := by
      simp only [prepare, hmult] at hready
      exact (Prod.mk.inj hready).2
    rw [hflag] at hafter ⊢
    refine setSlot_congr (hlaid (by simp [hmult])) ?_ hafter
      (agreeOn_overwrite_twice hstored hlen hlen' hdata hagree)
    rwa [Bytes.length_overwrite_slice hdata hlen', ← hagree.1, Bytes.length_overwrite_slice hstored hlen,
      ← hready']

end

-- ---------------------------------------------------------------------------
-- Messages
-- ---------------------------------------------------------------------------

section

variable {S Ref : Type} [Handler Ref S] {schema : Schema Ref} {config : DecodeConfig}
  {nested : Ref → Decode Bytes S Unit} {depth levels : Nat} {table : Table Ref} {field : Field Ref}
  {ref inner : Ref} {before after : Bytes × List S}

/-- Records are decoded into the places for values. -/
theorem Laps.keeps (hn : ∀ inner, Step.Local everywhere everywhere (nested inner)) {records : List Bytes}
    {marks : List Nat} (h : Laps schema config nested depth table records marks before after) :
    Bytes.AgreeOn (fun place => ¬table.declares place) before.1 after.1 := by
  have hlocal : Step.Local table.claims table.declares (nextField schema config nested depth table) :=
    local_nextField hn
  induction h with
  | nil => exact .refl _ _
  | @cons bytes _ _ _ before _ _ hlap _ ih =>
    obtain ⟨tag, input, hr, -⟩ := hlap
    have hkeeps := hlocal.keeps ⟨.ofBytes bytes, before.1, before.2⟩
    rw [hr] at hkeeps
    exact hkeeps.trans ih

theorem nestsAlike_messageWithin (hp : schema.Throughout Table.Plain ref) :
    ∀ field ∈ (schema ref).fields,
      NestsAlike (messageWithin schema config levels : Ref → Decode Bytes S Unit)
        (messageWithin schema config levels : Ref → Decode Bytes S Unit) field :=
  fun field hf _ hk =>
    drains_messageWithin (hp.nested (Table.mem_nested hf (hp.here.unhandled field hf) hk)) levels

/-- Records in the middle of a message may be replaced by others that do the same. -/
theorem Makes.replace (hp : schema.Throughout Table.Plain ref) {front old new : List Bytes} {back : Bytes}
    (hfront : ∀ bytes ∈ front, Wire.Record bytes) (hold : ∀ bytes ∈ old, Wire.Record bytes)
    (hnew : ∀ {marks : List Nat} {before after : Bytes × List S}, (schema ref).size ≤ before.1.length →
      Laps schema config (messageWithin schema config levels) (config.maxDepth - levels) (schema ref)
        old marks before after → ∃ more,
      Laps schema config (messageWithin schema config levels) (config.maxDepth - levels) (schema ref)
        new more before after ∧ ∀ number ∈ marks, number ∈ more)
    (h : Makes (messageWithin schema config (levels + 1) ref) (front.flatten ++ old.flatten ++ back)
      before after) :
    Makes (messageWithin schema config (levels + 1) ref) (front.flatten ++ new.flatten ++ back)
      before after := by
  obtain ⟨hcheck, records, marks, hlaps, hflat, hmissing⟩ := (makes_iff_laps hp).mp h
  have hparts : ∀ bytes ∈ front ++ old, Wire.Record bytes := fun bytes hb =>
    (List.mem_append.mp hb).elim (hfront bytes) (hold bytes)
  -- the records of the message are the ones that it was put together from
  obtain ⟨rest, rfl⟩ := Wire.prefix_of_flatten hparts
    (hlaps.record hp.here (nestsAlike_messageWithin hp)) (by
      rw [hflat, List.flatten_append]
      exact List.prefix_append _ _)
  rw [List.flatten_append, List.flatten_append] at hflat
  obtain rfl : rest.flatten = back := List.append_cancel_left hflat
  obtain ⟨marks, last, middle, rfl, hlaps, hback⟩ := hlaps.split
  obtain ⟨marks, old, start, rfl, hbefore, hlaps⟩ := hlaps.split
  have hsize : (schema ref).size ≤ start.1.length := by
    rw [← (hbefore.keeps (local_messageWithin_everywhere schema config levels)).1]
    exact Table.checkBlock_le hcheck
  obtain ⟨more, hlaps, hsub⟩ := hnew hsize hlaps
  refine (makes_iff_laps hp).mpr ⟨hcheck, _, _, (hbefore.append hlaps).append hback, by simp, ?_⟩
  refine missing?_mono (fun number hn => ?_) hmissing
  simp only [List.mem_append] at hn ⊢
  exact hn.imp_left (Or.imp_right (hsub number))

/-- A field that is received twice in the middle of a message may as well be received once. -/
theorem Makes.once (hp : schema.Throughout Table.Plain ref) (hfits : (schema ref).Fits schema)
    (hslotted : (schema ref).Slotted schema) (hd : (schema ref).Disjoint)
    (hf : field ∈ (schema ref).fields) (hk : field.kind = .message inner)
    (hm : field.multiplicity ≠ .repeated) {payload more first second once : Bytes}
    (hfirst : Wire.Carries field.tag payload first) (hsecond : Wire.Carries field.tag more second)
    (honce : Wire.Carries field.tag (payload ++ more) once) {front : List Bytes} {back : Bytes}
    (hfront : ∀ bytes ∈ front, Wire.Record bytes)
    (h : Makes (messageWithin schema config levels ref) (front.flatten ++ (first ++ second) ++ back)
      before after) :
    Makes (messageWithin schema config levels ref) (front.flatten ++ once ++ back) before after := by
  cases levels with
  | zero => exact (not_makes_zero h).elim
  | succ levels =>
    have hh := hp.here.unhandled field hf
    have hinner := hp.nested (Table.mem_nested hf hh hk)
    have hdrains : Drains (messageWithin schema config levels inner : Decode Bytes S Unit)
      (messageWithin schema config levels inner : Decode Bytes S Unit) := drains_messageWithin hinner levels
    obtain ⟨entry, hentry, rfl⟩ := Cursor.entryOf?_of_mem hp.here.tags_ne hf
    have hrecords : ∀ bytes ∈ [first, second], Wire.Record bytes := by
      simp [hfirst.record, hsecond.record]
    have hnew : ∀ {marks : List Nat} {before after : Bytes × List S},
        (schema ref).size ≤ before.1.length →
        Laps schema config (messageWithin schema config levels) (config.maxDepth - levels) (schema ref)
          [first, second] marks before after → ∃ more,
        Laps schema config (messageWithin schema config levels) (config.maxDepth - levels) (schema ref)
          [once] more before after ∧ ∀ number ∈ marks, number ∈ more := by
      intro marks before after hsize hlaps
      cases hlaps with
      | cons hlap hrest =>
      cases hrest with
      | cons hlap' hnil =>
      cases hnil
      obtain ⟨rfl, hreceives⟩ := (lap_iff_receives hentry hk hm hh hdrains hfirst).mp hlap
      obtain ⟨rfl, hreceives'⟩ := (lap_iff_receives hentry hk hm hh hdrains hsecond).mp hlap'
      have hboth := hreceives.append (hslotted _ hf hh) hm hh (hd _ hf trivial).1 (hfits.tag_le _ hf)
        hsize (keepsLength_of_local (local_messageWithin schema config levels inner))
        (fun h h' => h.append hinner h') hreceives'
      refine ⟨_, .cons ((lap_iff_receives hentry hk hm hh hdrains honce).mpr ⟨rfl, hboth⟩) (.nil _), ?_⟩
      exact fun number hn => by simpa using hn
    have htwice : Makes (messageWithin schema config (levels + 1) ref)
        (front.flatten ++ [first, second].flatten ++ back) before after := by simpa using h
    simpa using htwice.replace hp hfront hrecords hnew

end

end Decode

/-- Decodes a whole byte string into a block as it is, without handlers. -/
def mergeBytes {Ref : Type} (schema : Schema Ref) (ref : Ref) (bytes block : Bytes) :
    Except CodecError Unit × Bytes :=
  let step : Decode Bytes Empty Unit := mergeMessage schema {} ref
  let (outcome, state) := step.result { input := .ofBytes bytes, block, handlers := [] }
  (outcome, state.block)

section

variable {Ref : Type} {schema : Schema Ref} {ref : Ref} {bytes block after : Bytes}

theorem Decode.makes_iff {step : Decode Bytes Empty Unit} :
    Makes step bytes (block, []) (after, []) ↔
      ((step.result ⟨.ofBytes bytes, block, []⟩).1, (step.result ⟨.ofBytes bytes, block, []⟩).2.block) =
        (.ok (), after) := by
  rcases hr : step.result ⟨.ofBytes bytes, block, []⟩ with ⟨outcome, input, last, handlers⟩
  obtain rfl : handlers = [] := Subsingleton.elim _ _
  simp [Makes, hr]

theorem mergeBytes_eq_ok : mergeBytes schema ref bytes block = (.ok (), after) ↔
    Decode.Makes (mergeMessage schema {} ref : Decode Bytes Empty Unit) bytes (block, []) (after, []) :=
  Decode.makes_iff.symm

theorem decodeBytes_eq_ok : decodeBytes schema ref bytes block = (.ok (), after) ↔
    Decode.Makes (decodeMessage schema {} ref : Decode Bytes Empty Unit) bytes (block, []) (after, []) :=
  Decode.makes_iff.symm

/-- Decoding the concatenation of two messages merges the second into the first, and so it is with the
payloads of a single message field. -/
theorem concatenation_merges (hvalid : Table.validate schema ref = .ok ())
    (hu : schema.Throughout Table.Unhandled ref) (hd : schema.Throughout Table.Disjoint ref) :
    (∀ a b block middle after : Bytes, decodeBytes schema ref a block = (.ok (), middle) →
      mergeBytes schema ref b middle = (.ok (), after) →
        decodeBytes schema ref (a ++ b) block = (.ok (), after)) ∧
    ∀ field ∈ (schema ref).fields, ∀ inner, field.kind = .message inner →
      field.multiplicity ≠ .repeated → ∀ payload more first second once : Bytes,
        Wire.Carries field.tag payload first → Wire.Carries field.tag more second →
        Wire.Carries field.tag (payload ++ more) once →
        ∀ (front : List Bytes) (back block after : Bytes), (∀ bytes ∈ front, Wire.Record bytes) →
          mergeBytes schema ref (front.flatten ++ (first ++ second) ++ back) block = (.ok (), after) →
          mergeBytes schema ref (front.flatten ++ once ++ back) block = (.ok (), after) := by
  have hp := Schema.plain_of_validate hvalid hu
  constructor
  · intro a b block middle after ha hb
    obtain ⟨start, hinit, hfirst⟩ := Decode.makes_decodeMessage_iff.mp (decodeBytes_eq_ok.mp ha)
    have hsecond := mergeBytes_eq_ok.mp hb
    exact decodeBytes_eq_ok.mpr
      (Decode.makes_decodeMessage_iff.mpr ⟨start, hinit, hfirst.append hp hsecond⟩)
  · intro field hf inner hk hm payload more first second once hfirst hsecond honce front back block
      after hfront htwice
    exact mergeBytes_eq_ok.mpr (Decode.Makes.once hp (Schema.fits_of_validate hvalid).here
      (Schema.slotted_of_validate hvalid).here hd.here hf hk hm hfirst hsecond honce hfront
      (mergeBytes_eq_ok.mp htwice))

/-- A letter that is stamped twice, in two messages and in one. -/
theorem concatenation_merges_letter :
    Table.validate letter false = .ok () ∧ letter.Throughout Table.Unhandled false ∧
    letter.Throughout Table.Disjoint false ∧
    (∃ middle after, decodeBytes letter false stamped (Bytes.zeros 26) = (.ok (), middle) ∧
      mergeBytes letter false stamped middle = (.ok (), after) ∧
      decodeBytes letter false (stamped ++ stamped) (Bytes.zeros 26) = (.ok (), after)) ∧
    ∃ after, mergeBytes letter false [0x08, 0x2c, 0x22, 0x02, 0x08, 0x05, 0x22, 0x02, 0x08, 0x06]
        (Bytes.zeros 26) = (.ok (), after) ∧
      mergeBytes letter false [0x08, 0x2c, 0x22, 0x04, 0x08, 0x05, 0x08, 0x06] (Bytes.zeros 26) =
        (.ok (), after) := by
  have hvalid : Table.validate letter false = .ok () := rfl
  obtain ⟨happend, honce⟩ := concatenation_merges hvalid (letter_unhandled false) (letter_disjoint false)
  have hmiddle : (decodeBytes letter false stamped (Bytes.zeros 26)).1 = .ok () := by cbv
  have hafter : (mergeBytes letter false stamped
    (decodeBytes letter false stamped (Bytes.zeros 26)).2).1 = .ok () := by cbv
  have htwice : (mergeBytes letter false
    [0x08, 0x2c, 0x22, 0x02, 0x08, 0x05, 0x22, 0x02, 0x08, 0x06] (Bytes.zeros 26)).1 = .ok () := by cbv
  refine ⟨hvalid, letter_unhandled false, letter_disjoint false,
    ⟨_, _, Prod.ext hmiddle rfl, Prod.ext hafter rfl,
      happend _ _ _ _ _ (Prod.ext hmiddle rfl) (Prod.ext hafter rfl)⟩, _, Prod.ext htwice rfl, ?_⟩
  have hfirst : Wire.Carries 4 [0x08, 0x05] [0x22, 0x02, 0x08, 0x05] :=
    ⟨⟨[0x02, 0x08, 0x05], 3, 1, true⟩, ⟨[0x08, 0x05], 2, 2, true⟩, rfl, by cbv, rfl⟩
  have hsecond : Wire.Carries 4 [0x08, 0x06] [0x22, 0x02, 0x08, 0x06] :=
    ⟨⟨[0x02, 0x08, 0x06], 3, 1, true⟩, ⟨[0x08, 0x06], 2, 2, true⟩, rfl, by cbv, rfl⟩
  have hboth : Wire.Carries 4 [0x08, 0x05, 0x08, 0x06] [0x22, 0x04, 0x08, 0x05, 0x08, 0x06] :=
    ⟨⟨[0x04, 0x08, 0x05, 0x08, 0x06], 5, 1, true⟩, ⟨[0x08, 0x05, 0x08, 0x06], 4, 2, true⟩, rfl, by cbv, rfl⟩
  have hnumber : Wire.Record [0x08, 0x2c] :=
    ⟨1, .varint, ⟨[0x2c], 1, 1, true⟩, ⟨[], 0, 2, true⟩, rfl, by cbv, rfl⟩
  exact honce ((Field.ofStorage 4 "stamp" (.message true) 20 2).oneof 1 16) (by decide) true rfl (by decide)
    _ _ _ _ _ hfirst hsecond hboth [[0x08, 0x2c]] [] _ _ (by simpa using hnumber) (Prod.ext htwice rfl)

end

end BlockCodec
