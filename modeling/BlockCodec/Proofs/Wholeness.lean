import BlockCodec.Proofs.Copying
import BlockCodec.Proofs.Merging
import BlockCodec.Proofs.Series
import BlockCodec.Proofs.Storing
import BlockCodec.Proofs.WireForm

/-!
# Texts are kept whole

A text is stored with a zero byte behind it and is read and encoded up to the first one. So of every text that
is accepted, be it set, appended or decoded, storage that the field has to itself gives back the part before its
first zero byte, which is the text itself unless it has one; and what does not fit is refused
(`texts_whole`).
-/

namespace BlockCodec

variable {σ κ S Ref : Type} {schema : Schema Ref} {table : Table Ref} {field : Field Ref} {size count : Nat}
  {block after last held content : Bytes} {text : String} {texts : List String}

-- ---------------------------------------------------------------------------
-- Texts in storage
-- ---------------------------------------------------------------------------

/-- The part of a text before its first zero byte. -/
def untilZero (text : String) : String := (Bytes.text? ((Bytes.ofText text).takeWhile (· != 0))).getD ""

theorem ofText_untilZero (text : String) :
    Bytes.ofText (untilZero text) = (Bytes.ofText text).takeWhile (· != 0) := by
  obtain ⟨front, hfront⟩ := Bytes.takeWhile_ofText text
  rw [untilZero, hfront, Bytes.text?_ofText, Option.getD_some]

/-- A text without a zero byte is all before it. -/
theorem untilZero_eq (hz : 0 ∉ Bytes.ofText text) : untilZero text = text := by
  have hall : (Bytes.ofText text).takeWhile (· != 0) = Bytes.ofText text :=
    List.takeWhile_eq_self_iff.mpr fun byte hb => by
      rw [bne_iff_ne]
      rintro rfl
      exact hz hb
  rw [untilZero, hall, Bytes.text?_ofText, Option.getD_some]

/-- The bytes of a text with a zero byte behind them, and whatever is left of the storage. -/
def Terminated (text : String) (held : Bytes) : Prop := ∃ rest, held = Bytes.ofText text ++ 0 :: rest

namespace Field

theorem textBytes_of_terminated (h : Terminated text held) :
    field.textBytes held = .ok (Bytes.ofText (untilZero text)) := by
  obtain ⟨rest, rfl⟩ := h
  rw [textBytes, if_pos (by simp), Bytes.takeWhile_append_zero, ofText_untilZero]

theorem text_of_terminated (h : Terminated text held) : field.text held = .ok (untilZero text) := by
  rw [Field.text, textBytes_of_terminated h, bind_ok, Bytes.text?_ofText]
  rfl

/-- Storage is taken for empty when there is nothing before the first zero byte. -/
theorem isNonzero_of_terminated (hk : field.kind = .text) (h : Terminated text held) :
    field.isNonzero held = .ok (decide (untilZero text ≠ "")) := by
  obtain ⟨rest, rfl⟩ := h
  have hempty : untilZero text = "" ↔ (Bytes.ofText text).takeWhile (· != 0) = [] := by
    rw [← ofText_untilZero]
    refine ⟨fun h => h ▸ rfl, fun h => ?_⟩
    have htext := Bytes.text?_ofText (untilZero text)
    rw [h] at htext
    exact (Option.some.inj htext).symm
  simp only [isNonzero, hk, ne_eq, hempty]
  cases Bytes.ofText text with
  | nil => rfl
  | cons byte bytes => cases h : byte != 0 <;> simp [h]

end Field

/-- A text that is stored fits with its zero byte. -/
theorem Update.terminated_of_storeText (hr : (storeText field text).result held = (.ok (), content)) :
    (Bytes.ofText text).length < held.length ∧ Terminated text content := by
  rcases result_storeText field text held with ⟨_, hfail⟩ | ⟨count, hlen, hok⟩
  · cases hr.symm.trans hfail
  · obtain rfl := congrArg Prod.snd (hr.symm.trans hok)
    exact ⟨by omega, Bytes.zeros count, rfl⟩

-- ---------------------------------------------------------------------------
-- Encoding a text
-- ---------------------------------------------------------------------------

namespace Encode

variable [Sink κ] {nested : Ref → Bytes → Encode κ S Unit}

/-- The header of a field, and the bytes of a text behind their length. -/
def textRecord (field : Field Ref) (text : String) : Encode κ S Unit := do
  onWire (Wire.writeTag .delimited field.tag)
  onWire (Wire.writeDelimited (Bytes.ofText text))

theorem emits_textRecord (hpos : 0 < field.tag) (hle : field.tag ≤ Wire.maxFieldNumber) (text : String) :
    Emits (textRecord field text : Encode Bytes S Unit) (.ok (field.packForm (Bytes.ofText text))) :=
  (emits_onWire (Wire.puts_writeTag hpos hle)).seq_ok (emits_onWire (Wire.puts_writeDelimited _))

theorem value_of_terminated (hk : field.kind = .text) (h : Terminated text held) :
    value nested field held = textRecord field (untilZero text) := by
  unfold value
  simp only [hk, Field.textBytes_of_terminated h, Step.ofExcept_ok, pure_bind]
  rfl

/-- What a single field is encoded to that holds a text: the empty text of a field without a flag says nothing. -/
def singleText (field : Field Ref) (text : String) : Encode κ S Unit :=
  if field.multiplicity = .optional ∧ field.sizeOffset = none ∧ text = "" then pure () else textRecord field text

theorem stored_single (hm : field.multiplicity ≠ .repeated) : stored nested field block = (do
    let present ← Step.ofExcept (field.isPresent block)
    if present then
      let held ← Step.ofExcept (field.load field.data block)
      value nested field held) := by
  unfold stored
  split
  · next hrep => exact absurd hrep hm
  · rfl

theorem elements_add (index a b : Nat) : elements nested field block index (a + b) =
    elements nested field block index a >>= fun _ => elements nested field block (index + a) b := by
  induction a generalizing index with
  | zero => simp only [Nat.zero_add, elements, pure_bind, Nat.add_zero]
  | succ a ih =>
    rw [Nat.succ_add, elements, elements, bind_assoc]
    congr 1
    funext stored
    rw [bind_assoc]
    congr 1
    funext _
    rw [ih, Nat.succ_add_eq_add_succ]

theorem elements_congr {index left : Nat} (h : ∀ place, index ≤ place → place < index + left →
    field.load (field.element place) after = field.load (field.element place) block) :
    elements nested field after index left = elements nested field block index left := by
  induction left generalizing index with
  | zero => rfl
  | succ left ih =>
    rw [elements, elements, h index (Nat.le_refl _) (by omega), ih fun place hle hlt => h place (by omega) (by omega)]

/-- Elements that spell texts are the records of them. -/
theorem elements_of_terminated (hk : field.kind = .text) {index : Nat}
    (h : ∀ place (hp : place < texts.length), ∃ held,
      field.load (field.element (index + place)) block = .ok held ∧ Terminated texts[place] held) :
    elements nested field block index texts.length = (texts.map untilZero).forM (textRecord field) := by
  induction texts generalizing index with
  | nil => rfl
  | cons text texts ih =>
    obtain ⟨held, hload, hterm⟩ := h 0 (Nat.succ_pos _)
    rw [Nat.add_zero] at hload
    have hrest := ih fun place hp => by
      obtain ⟨held, hload, hterm⟩ := h (place + 1) (Nat.succ_lt_succ hp)
      exact ⟨held, by rw [← hload, Nat.succ_add_eq_add_succ], hterm⟩
    rw [List.length_cons, elements, hload, Step.ofExcept_ok, pure_bind, value_of_terminated hk hterm, hrest]
    rfl

/-- An array of texts is its elements one after the other. -/
theorem stored_array (hk : field.kind = .text) (hm : field.multiplicity = .repeated)
    (hslot : field.slot block = .ok count) (hle : count ≤ field.capacity) :
    stored nested field block = elements nested field block 0 count := by
  unfold stored array
  simp only [hm, hslot, Step.ofExcept_ok, pure_bind]
  have hpack : ¬(field.packed = true ∧ field.kind.isScalar = true) := by simp [hk, Kind.isScalar]
  rw [if_neg (Nat.not_lt.mpr hle), if_neg hpack]
  split
  · next hzero => rw [hzero]; rfl
  · rfl

end Encode

-- ---------------------------------------------------------------------------
-- Single texts
-- ---------------------------------------------------------------------------

/-- A single field holds this text: it is read, and it is what the field is encoded to. -/
structure View.HoldsText (field : Field Ref) (text : String) (view : View Ref) : Prop where
  read : view.getText field.tag = .ok text
  encoded : ∀ {κ S : Type} [Sink κ] (nested : Ref → Bytes → Encode κ S Unit),
    Encode.stored nested field view.block = Encode.singleText field text

namespace Update.Stored

theorem congr (h : Stored table field block after content) (hh : field.isHandled = false)
    (hm : field.multiplicity ≠ .repeated) (hagree : Bytes.AgreeOn field.extent after last) :
    Stored table field last last content where
  slice := (hagree.slice fun _ hp => Field.extent_of_data hm hp).symm.trans h.slice
  flag hopt hsome := (Field.slot_congr_extent hh hagree).trans (h.flag hopt hsome)
  active hg := (Field.slot_congr_extent hh hagree).trans (h.active hg)
  agree := .refl _ _

theorem isPresent_eq (h : Stored table field block after content) (hm : field.multiplicity ≠ .repeated)
    (hk : field.kind = .text) (hterm : Terminated text content) : field.isPresent after =
      .ok (decide ¬(field.multiplicity = .optional ∧ field.sizeOffset = none ∧ untilZero text = "")) := by
  cases hmult : field.multiplicity with
  | «repeated» => exact absurd hmult hm
  | required => simp [Field.isPresent_of_required hmult]
  | oneof group =>
    have hg : field.group?.isSome := by simp [Field.group?, hmult]
    simp [Field.isPresent_of_group hg, h.isActive_eq]
  | optional =>
    cases ho : field.sizeOffset with
    | none => simp [Field.isPresent_of_storage hmult ho h.slice, Field.isNonzero_of_terminated hk hterm]
    | some offset => simp [Field.isPresent_of_flag hmult (h.flag hmult (by simp [ho]))]

/-- A text that has been stored is held up to its first zero byte. -/
theorem holdsText (h : Stored table field block after content) (htags : table.fields.Pairwise (·.tag ≠ ·.tag))
    (hf : field ∈ table.fields) (hsingle : field.expectSingle = .ok ()) (hk : field.kind = .text)
    (hterm : Terminated text content) : View.HoldsText field (untilZero text) ⟨table, after⟩ where
  read := by
    have htext : field.expectText = .ok () := by rw [Field.expectText, hk]
    simp only [View.getText, Table.lookUp_of_mem htags hf, hsingle, htext, bind_ok, h.isActive_eq, if_true,
      h.load_eq, Field.text_of_terminated hterm]
  encoded nested := by
    obtain ⟨-, hm⟩ := single_of_expect hsingle
    rw [Encode.stored_single hm, h.isPresent_eq hm hk hterm, Step.ofExcept_ok, pure_bind, Encode.singleText]
    by_cases hnone : field.multiplicity = .optional ∧ field.sizeOffset = none ∧ untilZero text = ""
    · rw [if_pos hnone, if_neg fun hno => absurd hnone (of_decide_eq_true hno)]
    · rw [if_neg hnone, if_pos (decide_eq_true hnone), h.load_eq, Step.ofExcept_ok, pure_bind,
        Encode.value_of_terminated hk hterm]

end Update.Stored

-- ---------------------------------------------------------------------------
-- Arrays of texts
-- ---------------------------------------------------------------------------

/-- Behind the `count` elements of an array there are these texts: they are read, and their records come behind
those of the elements. -/
structure View.GainsTexts (field : Field Ref) (count : Nat) (texts : List String) (before after : View Ref) :
    Prop where
  counted : before.count field.tag = .ok count
  grown : after.count field.tag = .ok (count + texts.length)
  read : ∀ place (h : place < texts.length), after.getTextAt field.tag (count + place) = .ok texts[place]
  kept : ∀ index < count, after.getTextAt field.tag index = before.getTextAt field.tag index
  encoded : ∀ {κ S : Type} [Sink κ] (nested : Ref → Bytes → Encode κ S Unit),
    Encode.stored nested field after.block =
      Encode.stored nested field before.block >>= fun _ => texts.forM (Encode.textRecord field)

namespace Field

/-- In storage the elements of an array are followed by elements that spell these texts. -/
structure Lengthened (field : Field Ref) (count : Nat) (texts : List String) (block after : Bytes) : Prop where
  slot_before : field.slot block = .ok count
  slot_after : field.slot after = .ok (count + texts.length)
  le_capacity : count + texts.length ≤ field.capacity
  terminated : ∀ place (h : place < texts.length), ∃ held,
    field.load (field.element (count + place)) after = .ok held ∧ Terminated texts[place] held
  kept : ∀ index < count, field.load (field.element index) after = field.load (field.element index) block

namespace Lengthened

variable {more : List String} {other : Nat}

theorem trans (h : field.Lengthened count texts block after) (h' : field.Lengthened other more after last) :
    field.Lengthened count (texts ++ more) block last := by
  obtain rfl : other = count + texts.length := Except.ok.inj (h'.slot_before.symm.trans h.slot_after)
  refine ⟨h.slot_before, ?_, ?_, fun place hp => ?_, fun index hi => ?_⟩
  · rw [h'.slot_after, List.length_append, Nat.add_assoc]
  · rw [List.length_append, ← Nat.add_assoc]
    exact h'.le_capacity
  · by_cases hlt : place < texts.length
    · obtain ⟨held, hload, hterm⟩ := h.terminated place hlt
      exact ⟨held, (h'.kept _ (by omega)).trans hload, by rwa [List.getElem_append_left hlt]⟩
    · rw [List.length_append] at hp
      obtain ⟨held, hload, hterm⟩ := h'.terminated (place - texts.length) (by omega)
      refine ⟨held, ?_, by rwa [List.getElem_append_right (Nat.le_of_not_lt hlt)]⟩
      rw [← hload]
      congr 2
      omega
  · exact (h'.kept index (by omega)).trans (h.kept index hi)

theorem loads_congr (hh : field.isHandled = false) (hm : field.multiplicity = .repeated)
    (hagree : Bytes.AgreeOn field.extent block after) {index : Nat} (hi : index < field.capacity) :
    field.load (field.element index) after = field.load (field.element index) block :=
  load_congr hagree fun _ hp => extent_of_element hh hm hi hp

/-- What comes before or behind and leaves the places of the field alone makes no difference. -/
theorem congr (h : field.Lengthened count texts block after) (hh : field.isHandled = false)
    (hm : field.multiplicity = .repeated) {first : Bytes} (hbefore : Bytes.AgreeOn field.extent first block)
    (hafter : Bytes.AgreeOn field.extent after last) : field.Lengthened count texts first last := by
  have hle := h.le_capacity
  refine ⟨(slot_congr_extent hh hbefore).symm.trans h.slot_before,
    (slot_congr_extent hh hafter).trans h.slot_after, hle, fun place hp => ?_, fun index hi => ?_⟩
  · obtain ⟨held, hload, hterm⟩ := h.terminated place hp
    exact ⟨held, (loads_congr hh hm hafter (by omega)).trans hload, hterm⟩
  · rw [loads_congr hh hm hafter (by omega), h.kept index hi, loads_congr hh hm hbefore (by omega)]

/-- An array that has been lengthened gives the texts up to their first zero bytes. -/
theorem gainsTexts (h : field.Lengthened count texts block after)
    (htags : table.fields.Pairwise (·.tag ≠ ·.tag)) (hf : field ∈ table.fields)
    (harray : field.expectArray = .ok ()) (hk : field.kind = .text) :
    View.GainsTexts field count (texts.map untilZero) ⟨table, block⟩ ⟨table, after⟩ := by
  obtain ⟨hh, hm⟩ := Update.array_of_expect harray
  have hlook := Table.lookUp_of_mem htags hf
  have htext : field.expectText = .ok () := by rw [expectText, hk]
  have hrep : field.isRepeated = true ∧ ¬field.isHandled = true := by simp [isRepeated, hm, hh]
  have hle := h.le_capacity
  have hbefore : field.count block = .ok count := count_eq_ok.mpr ⟨h.slot_before, by omega⟩
  have hafter : field.count after = .ok (count + texts.length) := count_eq_ok.mpr ⟨h.slot_after, hle⟩
  refine ⟨?_, ?_, fun place hp => ?_, fun index hi => ?_, fun nested => ?_⟩
  · rw [View.count, hlook, bind_ok, if_pos hrep, hbefore]
  · rw [View.count, hlook, bind_ok, if_pos hrep, hafter, List.length_map]
  · rw [List.length_map] at hp
    obtain ⟨held, hload, hterm⟩ := h.terminated place hp
    have hspan := elementSpan_eq_ok.mpr ⟨_, hafter, (by omega : count + place < count + texts.length), rfl⟩
    simp only [View.getTextAt, hlook, harray, htext, bind_ok, hspan, hload, text_of_terminated hterm, List.getElem_map]
  · have hspan := elementSpan_eq_ok.mpr ⟨_, hafter, (by omega : index < count + texts.length), rfl⟩
    have hspan' := elementSpan_eq_ok.mpr ⟨_, hbefore, hi, rfl⟩
    simp only [View.getTextAt, hlook, harray, htext, bind_ok, hspan, hspan', h.kept index hi]
  · rw [Encode.stored_array hk hm h.slot_after hle, Encode.stored_array hk hm h.slot_before (by omega),
      Encode.elements_add, Encode.elements_congr fun place _ hp => h.kept place (by omega),
      Encode.elements_of_terminated hk fun place hp => by rw [Nat.zero_add]; exact h.terminated place hp]

end Lengthened

end Field

/-- A text that has been appended lengthens the array. -/
theorem Update.Pushed.lengthened (h : Pushed table field count block after content)
    (hfits : field.Fits schema table.size) (hself : field.spans.Pairwise Span.Apart)
    (harray : field.expectArray = .ok ()) (hterm : Terminated text content) :
    field.Lengthened count [text] block after where
  slot_before := (Field.count_eq_ok.mp h.count_before).1
  slot_after := (Field.count_eq_ok.mp h.count_after).1
  le_capacity := (Field.count_eq_ok.mp h.count_after).2
  terminated place hp := by
    obtain rfl := Nat.lt_one_iff.mp hp
    exact ⟨content, h.load_eq, hterm⟩
  kept index hi := (h.earlier hfits hself harray hi).2

-- ---------------------------------------------------------------------------
-- Decoding a text
-- ---------------------------------------------------------------------------

/-- A record with the header of a value behind a length carries what stands there. -/
theorem Wire.Record.carries {tag : Nat} {bytes : Bytes} (h : Record bytes)
    (hheader : Wire.header? bytes = some (tag, .delimited)) : ∃ payload, Carries tag payload bytes := by
  obtain ⟨number, type, behind, rest, htag, hskip, hleft⟩ := h
  have hnext := result_nextTag_of_readTag (Input.at_ofBytes bytes) htag
  obtain ⟨behind', hnext'⟩ := header?_eq_some.mp hheader
  obtain ⟨hsame, rfl⟩ := Prod.mk.inj (hnext.symm.trans hnext')
  obtain ⟨rfl, rfl⟩ := Prod.mk.inj (Except.ok.inj hsame)
  rw [skipField] at hskip
  obtain ⟨length, last, hlength, hskip⟩ := Step.result_bind_eq_ok.mp hskip
  have hread : Owes WireError.IsShort 0 id (readLength : Read Bytes Nat) (readLength : Read Bytes Nat) :=
    owes_readLength
  have htagged : Tracks WireError.IsShort 1 (nextTag : Read Bytes _) (nextTag : Read Bytes _) := tracks_nextTag
  obtain ⟨count, -, -, hbehind⟩ := (htagged.advances (Input.at_ofBytes bytes)).ok hnext
  obtain ⟨count', -, -, hlast⟩ := (hread.advances hbehind).ok hlength
  obtain ⟨hle, -, hrest, -⟩ := (Input.demands_skip length _ _ _ _ hlast).ok (Step.result_mapFailure_eq_ok hskip)
  have hsource : last.source = (bytes.drop count).drop count' := hlast.holds
  -- the skip takes all that is left, so the length is that of the rest
  have hlen : length = ((bytes.drop count).drop count').length := by
    have hzero := hrest.left_eq.symm.trans hleft
    rw [List.length_drop, List.length_drop] at hle ⊢
    omega
  exact ⟨_, behind, last, htag, hlen ▸ hlength, hsource⟩

namespace Decode

variable {input behind : Input Bytes} {handlers : List S} {state : Decoding Bytes S} {payload : Bytes}

/-- A payload that is accepted is a text that fits, and is stored with a zero byte behind it. -/
theorem text_of_carried (hlength : Wire.readLength.result behind = (.ok payload.length, input))
    (hinput : input.At payload payload.length input.taken)
    (hr : (Decode.text {} field).result ⟨behind, held, handlers⟩ = (.ok (), state)) :
    ∃ text, payload = Bytes.ofText text ∧ payload.length < held.length ∧
      state.block.length = held.length ∧ Terminated text state.block := by
  rw [Decode.text, Step.result_bind_ok (result_onWire hlength), Step.result_bind_ok (Step.result_get _)] at hr
  simp only at hr
  split at hr
  · obtain ⟨_, _, hthrow, -⟩ := Step.result_bind_eq_ok.mp hr
    cases hthrow
  · next hroom =>
    obtain ⟨after, hdeliver, -⟩ := hinput.deliver (Nat.le_of_eq (Nat.min_self payload.length).symm)
    have hfill : (fill 0 payload.length : Decode Bytes S Unit).result ⟨input, held, handlers⟩ =
        (.ok (), ⟨after, Bytes.overwrite held 0 payload, handlers⟩) := by
      rw [fill, Step.result_ofRun]
      simp only [hdeliver, List.take_length]
    have hended : (onBlock (modify fun block => Bytes.overwrite block payload.length [0]) :
        Decode Bytes S Unit).result ⟨after, Bytes.overwrite held 0 payload, handlers⟩ =
          (.ok (), ⟨after, payload ++ 0 :: held.drop (payload.length + 1), handlers⟩) := by
      rw [onBlock, Step.result_onPart, Step.result_modify]
      simp [Bytes.overwrite, List.drop_append]
    rw [Step.result_bind_ok hfill, Step.result_bind_ok hended, Step.result_bind_ok (Step.result_get _)] at hr
    simp only [List.take_left] at hr
    split at hr
    · cases hr
    · next hvalid =>
      cases hr
      cases htext : Bytes.text? payload with
      | none => exact absurd ⟨trivial, by rw [htext, Option.isNone_none]⟩ hvalid
      | some text =>
        have hpayload := Bytes.ofText_of_text? htext
        refine ⟨text, hpayload.symm, Nat.not_le.mp hroom, ?_, _, by rw [hpayload]⟩
        simp only [List.length_append, List.length_cons, List.length_drop]
        omega

section

variable {nested : Ref → Decode Bytes S Unit} (hfits : table.Fits schema) (hslotted : table.Slotted schema)
  (hself : field.spans.Pairwise Span.Apart) (hf : field ∈ table.fields) (hk : field.kind = .text)
  (hlength : Wire.readLength.result behind = (.ok payload.length, input))
  (hinput : input.At payload payload.length input.taken) {done : Decoding Bytes S}
  (hs : table.size ≤ block.length)

include hk hlength hinput

/-- What a value that is a text leaves of its place. -/
theorem content_of_value {input' : Input Bytes} {handlers' : List S}
    (hr : (value {} nested field).result ⟨behind, held, handlers⟩ = (.ok (), ⟨input', content, handlers'⟩)) :
    ∃ text, payload = Bytes.ofText text ∧ payload.length < held.length ∧ content.length = held.length ∧
      Terminated text content := by
  unfold value at hr
  simp only [hk] at hr
  exact text_of_carried hlength hinput hr

include hfits hslotted hself hf hs

/-- A single field that a text is decoded into holds it. -/
theorem holds_of_stored (hsingle : field.expectSingle = .ok ())
    (hr : (stored schema {} nested table field .delimited).result ⟨behind, block, handlers⟩ = (.ok (), done)) :
    ∃ text content, payload = Bytes.ofText text ∧ payload.length < field.dataSize ∧ Terminated text content ∧
      Update.Stored table field done.block done.block content := by
  obtain ⟨hh, hm⟩ := Update.single_of_expect hsingle
  have hapart : ∀ place, field.slotPlaces place → place ∉ field.data := fun place hp hin =>
    Field.not_slotPlaces_of_storage hh hself (Field.storage_eq_data hm ▸ hin) hp
  rw [stored_single hm] at hr
  obtain ⟨_, ready, hprepare, hr⟩ := Step.result_bind_eq_ok.mp hr
  obtain ⟨_, filled, hinside, hconclude⟩ := Step.result_bind_eq_ok.mp hr
  obtain ⟨hprepare, hready⟩ := result_onBlock_eq_ok.mp hprepare
  obtain ⟨held, content, hslice, hvalue, hfilled⟩ := result_inside_eq_ok.mp hinside
  obtain ⟨hconclude, -⟩ := result_onBlock_eq_ok.mp hconclude
  rw [hready] at hvalue
  obtain ⟨text, htext, hlt, hlen, hterm⟩ := content_of_value hk hlength hinput hvalue
  have hover := Bytes.agreeOn_overwrite hslice hlen
  rw [← hfilled] at hover
  have hkept := (touches_conclude field).agree hconclude
  refine ⟨text, content, htext, ?_, hterm, ?_, fun hopt hsome => ?_, fun hg => ?_, .refl _ _⟩
  · rwa [Bytes.length_slice hslice, (hfits.stored field hf hh).length_data] at hlt
  · rw [← hkept.slice fun place hin hp => hapart place hp hin, hfilled]
    exact Bytes.slice_overwrite_self hslice hlen
  · simp only [prepare, hopt] at hprepare
    obtain rfl : block = ready.block := congrArg Prod.snd hprepare
    simp only [conclude, hopt, hsome, if_true] at hconclude
    exact (hslotted field hf hh (by simp [hopt])).flag_setSlot (hover.1 ▸ hs) hopt hconclude
  · obtain ⟨group, hgroup⟩ := Field.multiplicity_of_group hg
    simp only [conclude, hgroup] at hconclude
    obtain hlast : filled.block = done.block := congrArg Prod.snd hconclude
    rw [← hlast, Field.slot_congr (hover.mono fun place hp => hapart place hp)]
    exact slot_prepare (hslotted.laid_of_group hfits hf hg) hs (hfits.tag_le field hf) hg hprepare

omit hfits in
/-- A text that is decoded as an element lengthens the array. -/
theorem lengthened_of_stored (hshort : table.size < 2 ^ 32) (harray : field.expectArray = .ok ())
    (hr : (stored schema {} nested table field .delimited).result ⟨behind, block, handlers⟩ = (.ok (), done)) :
    ∃ text count, payload = Bytes.ofText text ∧ payload.length < field.dataSize ∧
      field.Lengthened count [text] block done.block := by
  obtain ⟨hh, hm⟩ := Update.array_of_expect harray
  have hlaid := hslotted field hf hh (by simp [hm])
  simp only [stored, hm, hk, Kind.isScalar, Bool.false_eq_true, and_false, if_false, element, nextElement,
    bind_assoc] at hr
  obtain ⟨count, start, hask, hr⟩ := Step.result_bind_eq_ok.mp hr
  obtain ⟨hask, hstart⟩ := result_onBlock_eq_ok.mp hask
  obtain ⟨hslot, hblock⟩ := Prod.mk.inj hask
  split at hr
  · obtain ⟨_, _, hthrow, -⟩ := Step.result_bind_eq_ok.mp hr
    cases hthrow
  · next hroom =>
    obtain rfl : start = ⟨behind, block, handlers⟩ := by rw [hstart, ← hblock]
    rw [pure_bind] at hr
    obtain ⟨_, filled, hinside, hcount⟩ := Step.result_bind_eq_ok.mp hr
    obtain ⟨held, content, hslice, hvalue, hfilled⟩ := result_inside_eq_ok.mp hinside
    obtain ⟨text, htext, hlt, hlen, hterm⟩ := content_of_value hk hlength hinput hvalue
    have hfit : held.length = field.dataSize := hlaid.length_place (Field.loose_element hm (by omega)) hslice
    have hcap := hlaid.capacity_lt hm (by omega) hshort
    obtain ⟨final, hset, hafter, -, hlast, hothers⟩ :=
      hlaid.count_element hself hm hs (Nat.not_le.mp hroom) (by omega) hslice hlen
    obtain ⟨hcount, -⟩ := result_onBlock_eq_ok.mp hcount
    rw [hfilled] at hcount
    obtain rfl : final = done.block := congrArg Prod.snd (hset.symm.trans hcount)
    refine ⟨text, count, htext, hfit ▸ hlt, hslot, hafter, Nat.not_le.mp hroom, fun place hp => ?_, fun index hi => ?_⟩
    · obtain rfl := Nat.lt_one_iff.mp hp
      exact ⟨content, by rw [Nat.add_zero, Field.load, hlast], hterm⟩
    · rw [Field.load, Field.load, hothers index (by omega) (by omega)]

end

-- ---------------------------------------------------------------------------
-- Records of a text
-- ---------------------------------------------------------------------------

section

variable [Handler Ref S] {config : DecodeConfig} {nested : Ref → Decode Bytes S Unit} {depth : Nat} {bytes : Bytes}
  {x x' : Bytes × List S}

/-- A record that is accepted for a text carries a payload, which is decoded behind its length. -/
theorem stored_of_alone (htags : table.fields.Pairwise (·.tag ≠ ·.tag)) (hf : field ∈ table.fields)
    (hh : field.isHandled = false) (hk : field.kind = .text) (hrecord : Wire.Record bytes)
    (hnumber : Wire.number? bytes = some field.tag)
    (hr : (alone schema {} nested depth table bytes).result x = (.ok (), x')) :
    ∃ payload behind input last, Wire.Carries field.tag payload bytes ∧
      Wire.readLength.result behind = (.ok payload.length, input) ∧
      input.At payload payload.length input.taken ∧
      (stored schema {} nested table field .delimited).result ⟨behind, x.1, x.2⟩ = (.ok (), last) ∧
      Reader.rest last = x' := by
  obtain ⟨type, behind, htag⟩ := Wire.nextTag_of_number? hnumber
  cases ha : field.accepts type with
  | false =>
    have hrefused : ((alone schema {} nested depth table bytes).result x).1 = _ :=
      alone_of_refuses htags hf rfl ha htag
    rw [hr] at hrefused
    cases hrefused
  | true =>
    obtain rfl : type = .delimited := by simpa [Field.accepts, hk, Kind.wireType, Kind.isScalar] using ha
    rw [result_alone_of_accepts htags hf ha htag, if_neg (by simp [hh])] at hr
    obtain ⟨payload, hcarries⟩ := hrecord.carries (Wire.header?_eq_some.mpr ⟨behind, htag⟩)
    obtain ⟨_, input, htag', hlength, hsource⟩ := id hcarries
    obtain rfl := congrArg Prod.snd (htag.symm.trans (Wire.result_nextTag_of_readTag (Input.at_ofBytes bytes) htag'))
    obtain ⟨hout, hlast⟩ := Prod.mk.inj hr
    exact ⟨payload, behind, input, _, hcarries, hlength, Wire.at_payload htag' hlength hsource, Prod.ext hout rfl,
      hlast⟩

variable {records front back : List Bytes} (hfits : table.Fits schema) (hslotted : table.Slotted schema)
  (hd : table.Separate (· = field)) (hf : field ∈ table.fields)
  (hk : field.kind = .text) (hn : ∀ inner, Step.Local everywhere everywhere (nested inner))

include hfits hslotted hd hf hk

theorem holds_of_alone (hsingle : field.expectSingle = .ok ()) (hs : table.size ≤ x.1.length)
    (hrecord : Wire.Record bytes) (hnumber : Wire.number? bytes = some field.tag)
    (hr : (alone schema {} nested depth table bytes).result x = (.ok (), x')) :
    ∃ text content, Wire.Carries field.tag (Bytes.ofText text) bytes ∧
      (Bytes.ofText text).length < field.dataSize ∧ Terminated text content ∧
      Update.Stored table field x'.1 x'.1 content := by
  obtain ⟨payload, behind, input, done, hcarries, hlength, hinput, hstored, rfl⟩ :=
    stored_of_alone hfits.tags_ne hf (Update.single_of_expect hsingle).1 hk hrecord hnumber hr
  obtain ⟨text, content, rfl, hlt, hterm, hholds⟩ :=
    holds_of_stored hfits hslotted (hd field hf rfl).1 hf hk hlength hinput hs hsingle hstored
  exact ⟨text, content, hcarries, hlt, hterm, hholds⟩

theorem lengthened_of_alone (hshort : table.size < 2 ^ 32) (harray : field.expectArray = .ok ())
    (hs : table.size ≤ x.1.length) (hrecord : Wire.Record bytes) (hnumber : Wire.number? bytes = some field.tag)
    (hr : (alone schema {} nested depth table bytes).result x = (.ok (), x')) :
    ∃ text count, (Wire.Carries field.tag (Bytes.ofText text) bytes ∧
      (Bytes.ofText text).length < field.dataSize) ∧ field.Lengthened count [text] x.1 x'.1 := by
  obtain ⟨payload, behind, input, done, hcarries, hlength, hinput, hstored, rfl⟩ :=
    stored_of_alone hfits.tags_ne hf (Update.array_of_expect harray).1 hk hrecord hnumber hr
  obtain ⟨text, count, rfl, hlt, hgrown⟩ :=
    lengthened_of_stored hslotted (hd field hf rfl).1 hf hk hlength hinput hs hshort harray hstored
  exact ⟨text, count, ⟨hcarries, hlt⟩, hgrown⟩

include hn

/-- The records of an array lengthen it by the texts that they carry, one after the other. -/
theorem lengthened_of_records (hshort : table.size < 2 ^ 32) (harray : field.expectArray = .ok ())
    (hs : table.size ≤ x.1.length) (hrecords : ∀ bytes ∈ records, Wire.Record bytes)
    (hr : (records.forM (alone schema {} nested depth table)).result x = (.ok (), x')) :
    ∃ texts, List.Forall₂ (fun bytes text => Wire.Carries field.tag (Bytes.ofText text) bytes ∧
        (Bytes.ofText text).length < field.dataSize)
          (records.filter fun bytes => Wire.number? bytes = some field.tag) texts ∧
      (texts = [] ∧ Bytes.AgreeOn field.extent x.1 x'.1 ∨ ∃ count, field.Lengthened count texts x.1 x'.1) := by
  obtain ⟨hh, hm⟩ := Update.array_of_expect harray
  induction records generalizing x with
  | nil =>
    cases hr
    exact ⟨[], .nil, .inl ⟨rfl, .refl _ _⟩⟩
  | cons bytes records ih =>
    obtain ⟨hrecord, hrest⟩ := List.forall_mem_cons.mp hrecords
    rw [List.forM] at hr
    obtain ⟨_, middle, hfirst, hr⟩ := Step.result_bind_eq_ok.mp hr
    have hlocal : Step.Local everywhere everywhere (alone schema {} nested depth table bytes) :=
      local_alone_everywhere hn hrecord
    have hkeeps := hlocal.keeps x
    rw [hfirst] at hkeeps
    obtain ⟨texts, hcarried, hends⟩ := ih (hkeeps.1 ▸ hs) hrest hr
    by_cases hnumber : Wire.number? bytes = some field.tag
    · obtain ⟨text, count, hown, hgrown⟩ :=
        lengthened_of_alone hfits hslotted hd hf hk hshort harray hs hrecord hnumber hfirst
      refine ⟨text :: texts, ?_, .inr ⟨count, ?_⟩⟩
      · rw [List.filter_cons_of_pos (by simpa using hnumber)]
        exact .cons hown hcarried
      · rcases hends with ⟨rfl, hagree⟩ | ⟨other, hmore⟩
        · exact hgrown.congr hh hm (.refl _ _) hagree
        · exact hgrown.trans hmore
    · have hpasses : Step.Local _ _ (alone schema {} nested depth table bytes) :=
        local_alone_of_other hfits.tags_ne hd hn hf hrecord
          (lane?_ne_of_number (by simp [Field.group?, hm]) hnumber)
      have hother : Bytes.AgreeOn field.extent x.1 _ := (hpasses.keeps x).mono fun _ hp => not_not.mpr hp
      rw [hfirst] at hother
      refine ⟨texts, ?_, ?_⟩
      · rwa [List.filter_cons_of_neg (by simpa using hnumber)]
      · rcases hends with ⟨rfl, hagree⟩ | ⟨other, hmore⟩
        · exact .inl ⟨rfl, hother.trans hagree⟩
        · exact .inr ⟨other, hmore.congr hh hm hother (.refl _ _)⟩

/-- The last record of its lane leaves its text in a single field. -/
theorem holds_of_records (hsingle : field.expectSingle = .ok ()) (hs : table.size ≤ x.1.length)
    (hrecords : ∀ other ∈ front ++ bytes :: back, Wire.Record other)
    (hnumber : Wire.number? bytes = some field.tag)
    (hr : ((front ++ bytes :: back).forM (alone schema {} nested depth table)).result x = (.ok (), x')) :
    ∃ text content, Wire.Carries field.tag (Bytes.ofText text) bytes ∧
      (Bytes.ofText text).length < field.dataSize ∧ Terminated text content ∧
      ((∀ later ∈ back, table.lane? later ≠ some field.lane) →
        Update.Stored table field x'.1 x'.1 content) := by
  obtain ⟨hh, hm⟩ := Update.single_of_expect hsingle
  obtain ⟨hfront, hrecord, hback⟩ : (∀ other ∈ front, Wire.Record other) ∧ Wire.Record bytes ∧
      ∀ other ∈ back, Wire.Record other := by
    simpa [or_imp, forall_and] using hrecords
  have hsplit : (front ++ bytes :: back).forM (alone schema {} nested depth table) =
      front.forM (alone schema {} nested depth table) >>= fun _ =>
        alone schema {} nested depth table bytes >>= fun _ =>
          back.forM (alone schema {} nested depth table) := List.forM_append
  rw [hsplit] at hr
  obtain ⟨_, before, hfirst, hr⟩ := Step.result_bind_eq_ok.mp hr
  obtain ⟨_, after, hown, hlast⟩ := Step.result_bind_eq_ok.mp hr
  have hlocal : Step.Local everywhere everywhere (front.forM (alone schema {} nested depth table)) :=
    Step.Local.forM fun other ho => local_alone_everywhere hn (hfront other ho)
  have hsize := (hlocal.keeps x).1
  rw [hfirst] at hsize
  obtain ⟨text, content, hcarries, hlt, hterm, hholds⟩ :=
    holds_of_alone hfits hslotted hd hf hk hsingle (hsize ▸ hs) hrecord hnumber hown
  refine ⟨text, content, hcarries, hlt, hterm, fun hlater => ?_⟩
  have hkept : Bytes.AgreeOn field.extent after.1
      ((back.forM (alone schema {} nested depth table)).result after).2.1 :=
    keeps_others hfits.tags_ne hd hn hf (fun other ho => ⟨hback other ho, hlater other ho⟩) after
  rw [hlast] at hkept
  exact hholds.congr hh hm hkept

end

end Decode

-- ---------------------------------------------------------------------------
-- Texts that are accepted
-- ---------------------------------------------------------------------------

/-- Texts are kept whole. A text that is set, appended or decoded fits its storage with a zero byte behind it, and
what stands before its first zero byte is read back and encoded. Decoding takes a record for the field only if it
carries a text; a single field holds the last one, unless another member of its group comes behind it, and an
array gains them all. -/
theorem texts_whole [Source σ] [Supply σ] [Handler Ref S] {ref : Ref} (hvalid : Table.validate schema ref = .ok ())
    (hself : field.spans.Pairwise Span.Apart) (hf : field ∈ (schema ref).fields) (hh : field.isHandled = false)
    (hk : field.kind = .text) (hm : Handler.Modest Ref σ Bytes S) :
    (∀ (text : String) (block after : Bytes), (schema ref).size ≤ block.length →
      (Update.setText schema (schema ref) field.tag text).result block = (.ok (), after) →
      (Bytes.ofText text).length < field.dataSize ∧ View.HoldsText field (untilZero text) ⟨schema ref, after⟩) ∧
    ((schema ref).size < 2 ^ 32 → ∀ (text : String) (block after : Bytes), (schema ref).size ≤ block.length →
      (Update.pushText (schema ref) field.tag text).result block = (.ok (), after) →
      (Bytes.ofText text).length < field.dataSize ∧
        ∃ count, View.GainsTexts field count [untilZero text] ⟨schema ref, block⟩ ⟨schema ref, after⟩) ∧
    ((schema ref).Separate (· = field) → ∀ (levels : Nat) (records : List Bytes) (x last : Decoding σ S),
      (∀ bytes ∈ records, Wire.Record bytes) → Decode.Offers x records.flatten →
      (Decode.messageWithin schema {} (levels + 1) ref).result x = (.ok (), last) →
      (field.expectSingle = .ok () → ∀ front bytes back, records = front ++ bytes :: back →
        Wire.number? bytes = some field.tag → ∃ text, Wire.Carries field.tag (Bytes.ofText text) bytes ∧
          (Bytes.ofText text).length < field.dataSize ∧
          ((∀ later ∈ back, (schema ref).lane? later ≠ some field.lane) →
            View.HoldsText field (untilZero text) ⟨schema ref, last.block⟩)) ∧
      (field.expectArray = .ok () → (schema ref).size < 2 ^ 32 → ∃ texts,
        List.Forall₂ (fun bytes text => Wire.Carries field.tag (Bytes.ofText text) bytes ∧
          (Bytes.ofText text).length < field.dataSize)
            (records.filter fun bytes => Wire.number? bytes = some field.tag) texts ∧
        (texts ≠ [] → ∃ count,
          View.GainsTexts field count (texts.map untilZero) ⟨schema ref, x.block⟩ ⟨schema ref, last.block⟩))) ∧
    (∀ text, 0 ∉ Bytes.ofText text → untilZero text = text) ∧
    ∀ text, Encode.Emits (Encode.textRecord field text : Encode Bytes S Unit)
      (.ok (field.packForm (Bytes.ofText text))) := by
  have hfits := (Schema.fits_of_validate hvalid).here
  have hslotted := (Schema.slotted_of_validate hvalid).here
  have hown : ∀ other ∈ (schema ref).fields, other.tag = field.tag → other.spans.Pairwise Span.Apart :=
    fun other ho ht => Table.eq_of_tag_eq hfits.tags_ne hf ho ht ▸ hself
  have hn := Decode.local_messageWithin_everywhere (σ := Bytes) (S := S) schema {}
  refine ⟨fun text block after hs hr => ?_, fun hshort text block after hs hr => ?_,
    fun hd levels records x last hrecords hx hr => ?_, fun text hz => untilZero_eq hz,
    Encode.emits_textRecord (hfits.tag_pos field hf) (hfits.tag_le field hf)⟩
  · obtain ⟨other, ho, ht, hsingle, -, held, content, hlen, hwrite, h⟩ :=
      Update.stored_of_apart hfits hslotted hown hs (Update.suited_text fun hstrict => by cases hstrict) hr
    obtain rfl := Table.eq_of_tag_eq hfits.tags_ne hf ho ht
    obtain ⟨hlt, hterm⟩ := Update.terminated_of_storeText hwrite
    exact ⟨hlen ▸ hlt, h.holdsText hfits.tags_ne hf hsingle hk hterm⟩
  · obtain ⟨other, ho, ht, harray, -, count, held, content, hlen, hwrite, h⟩ :=
      Update.pushed_of_apart hslotted hown hshort hs (Update.suited_text fun hstrict => by cases hstrict) hr
    obtain rfl := Table.eq_of_tag_eq hfits.tags_ne hf ho ht
    obtain ⟨hlt, hterm⟩ := Update.terminated_of_storeText hwrite
    have hgrown := h.lengthened (hfits.stored _ hf hh) hself harray hterm
    exact ⟨hlen ▸ hlt, count, hgrown.gainsTexts hfits.tags_ne hf harray hk⟩
  · have hs : (schema ref).size ≤ x.block.length := by
      cases hcheck : (schema ref).checkBlock x.block with
      | ok _ => exact Table.checkBlock_le hcheck
      | error failure => cases (Decode.messageWithin_of_error hcheck).symm.trans hr
    have hseries : (_, Reader.rest _) = (Decode.series schema {} levels ref records).result (Reader.rest x) :=
      Decode.result_messageWithin (Decode.counted_of_validate hvalid).here hm hrecords hx hs levels
    rw [hr] at hseries
    obtain ⟨_, middle, hrun, hend⟩ := Step.result_bind_eq_ok.mp hseries.symm
    obtain ⟨-, rfl⟩ := Prod.mk.inj hend
    refine ⟨fun hsingle front bytes back hsplit hnumber => ?_, fun harray hshort => ?_⟩
    · subst hsplit
      obtain ⟨text, content, hcarries, hlt, hterm, hholds⟩ :=
        Decode.holds_of_records hfits hslotted hd hf hk (hn levels) hsingle hs hrecords hnumber hrun
      exact ⟨text, hcarries, hlt, fun hlater =>
        (hholds hlater).holdsText hfits.tags_ne hf hsingle hk hterm⟩
    · obtain ⟨texts, hcarried, hends⟩ :=
        Decode.lengthened_of_records hfits hslotted hd hf hk (hn levels) hshort harray hs hrecords hrun
      refine ⟨texts, hcarried, fun hne => ?_⟩
      rcases hends with ⟨hnil, -⟩ | ⟨count, hgrown⟩
      · exact absurd hnil hne
      · exact ⟨count, hgrown.gainsTexts hfits.tags_ne hf harray hk⟩

/-- A title and lines of text. -/
def poster : Schema Unit := fun _ =>
  ⟨"Poster", [(Field.ofStorage 1 "title" .text 0 4).implicit, (Field.ofStorage 2 "lines" .text 8 4).repeated 4 2], 16⟩

/-- A title that is set, and one that is decoded with two lines. -/
theorem texts_whole_poster :
    Table.validate poster () = .ok () ∧ ∃ title ∈ (poster ()).fields, ∃ lines ∈ (poster ()).fields,
      title.spans.Pairwise Span.Apart ∧ lines.spans.Pairwise Span.Apart ∧
      (poster ()).Separate (· = title) ∧ (poster ()).Separate (· = lines) ∧
      title.isHandled = false ∧ title.kind = .text ∧ lines.isHandled = false ∧ lines.kind = .text ∧
      (∃ after, (Update.setText poster (poster ()) 1 "ab").result (Bytes.zeros 16) = (.ok (), after) ∧
        View.HoldsText title "ab" ⟨poster (), after⟩) ∧
      ∃ start last : Decoding Bytes Empty,
        start = ⟨.ofBytes [0x0a, 2, 0x68, 0x69, 0x12, 1, 0x61, 0x12, 0], Bytes.zeros 16, []⟩ ∧
        (Decode.messageWithin poster {} 1 ()).result start = (.ok (), last) ∧
        (∃ text, Wire.Carries 1 (Bytes.ofText text) [0x0a, 2, 0x68, 0x69] ∧
          View.HoldsText title (untilZero text) ⟨poster (), last.block⟩) ∧
        ∃ first second count, Wire.Carries 2 (Bytes.ofText first) [0x12, 1, 0x61] ∧
          Wire.Carries 2 (Bytes.ofText second) [0x12, 0] ∧
          View.GainsTexts lines count [untilZero first, untilZero second] ⟨poster (), Bytes.zeros 16⟩
            ⟨poster (), last.block⟩ := by
  have hvalid : Table.validate poster () = .ok () := rfl
  let title : Field Unit := (Field.ofStorage 1 "title" .text 0 4).implicit
  let lines : Field Unit := (Field.ofStorage 2 "lines" .text 8 4).repeated 4 2
  have htitle : title ∈ (poster ()).fields := by decide
  have hlines : lines ∈ (poster ()).fields := by decide
  have hself : title.spans.Pairwise Span.Apart := by decide
  have hself' : lines.spans.Pairwise Span.Apart := by decide
  have hown : (poster ()).Separate (· = title) := by decide
  have hown' : (poster ()).Separate (· = lines) := by decide
  have hmodest : Handler.Modest Unit Bytes Bytes Empty := Handler.modest_empty
  let records : List Bytes := [[0x0a, 2, 0x68, 0x69], [0x12, 1, 0x61], [0x12, 0]]
  let start : Decoding Bytes Empty :=
    ⟨.ofBytes [0x0a, 2, 0x68, 0x69, 0x12, 1, 0x61, 0x12, 0], Bytes.zeros 16, []⟩
  have hrecords : ∀ bytes ∈ records, Wire.Record bytes := by
    simp only [records, List.forall_mem_cons]
    exact ⟨⟨1, .delimited, ⟨[2, 0x68, 0x69], 3, 1, true⟩, ⟨[], 0, 4, true⟩, rfl, by cbv, rfl⟩,
      ⟨2, .delimited, ⟨[1, 0x61], 2, 1, true⟩, ⟨[], 0, 3, true⟩, rfl, by cbv, rfl⟩,
      ⟨2, .delimited, ⟨[0], 1, 1, true⟩, ⟨[], 0, 2, true⟩, rfl, by cbv, rfl⟩, List.forall_mem_nil _⟩
  have hx : Decode.Offers start records.flatten := ⟨9, 0, Input.at_ofBytes _, Nat.le_refl _⟩
  have hdecode : (Decode.messageWithin poster {} 1 ()).result start = (.ok (), ⟨⟨[], 0, 9, true⟩,
      [0x68, 0x69, 0, 0, 2, 0, 0, 0, 0x61, 0, 0, 0, 0, 0, 0, 0], []⟩) := by cbv
  refine ⟨hvalid, title, htitle, lines, hlines, hself, hself', hown, hown', rfl, rfl, rfl, rfl, ⟨_, rfl, ?_⟩,
    start, _, rfl, hdecode, ?_, ?_⟩
  · have hwhole := texts_whole hvalid hself htitle rfl rfl hmodest
    exact hwhole.2.2.2.1 "ab" (by decide) ▸ (hwhole.1 "ab" (Bytes.zeros 16) _ (by decide) rfl).2
  · have hdecoded := (texts_whole hvalid hself htitle rfl rfl hmodest).2.2.1 hown 0 records start _ hrecords hx hdecode
    obtain ⟨text, hcarries, -, hholds⟩ :=
      hdecoded.1 rfl [] [0x0a, 2, 0x68, 0x69] [[0x12, 1, 0x61], [0x12, 0]] rfl rfl
    exact ⟨text, hcarries, hholds (by decide)⟩
  · have hdecoded :=
      (texts_whole hvalid hself' hlines rfl rfl hmodest).2.2.1 hown' 0 records start _ hrecords hx hdecode
    obtain ⟨texts, hcarried, hgained⟩ := hdecoded.2 rfl (by decide)
    have hrows : (records.filter fun bytes => Wire.number? bytes = some lines.tag) = [[0x12, 1, 0x61], [0x12, 0]] := rfl
    rw [hrows] at hcarried
    obtain ⟨first, _, hfirst, hrest, rfl⟩ := List.forall₂_cons_left_iff.mp hcarried
    obtain ⟨second, _, hsecond, hnil, rfl⟩ := List.forall₂_cons_left_iff.mp hrest
    obtain rfl := List.forall₂_nil_left_iff.mp hnil
    obtain ⟨count, hgained⟩ := hgained (List.cons_ne_nil _ _)
    exact ⟨first, second, count, hfirst.1, hsecond.1, hgained⟩

/-- A label whose flag lies in its text, and an owner whose text lies in the place of a rank. -/
def badge : Schema Unit := fun _ =>
  ⟨"Badge", [(Field.ofStorage 1 "label" .text 0 4).optional 0, (Field.ofStorage 2 "owner" .text 4 4).implicit,
    (Field.ofStorage 3 "rank" (.varint ⟨.w8, false⟩) 4 1).implicit], 8⟩

/-- A text with a zero byte comes back without what is behind it, and where a field is not apart from itself, or
not from the others, a text comes back as another. -/
theorem texts_altered :
    (Table.validate poster () = .ok () ∧ (poster ()).Disjoint ∧
      ∃ after, (Update.setText poster (poster ()) 1 "a\x00b").result (Bytes.zeros 16) = (.ok (), after) ∧
        View.getText ⟨poster (), after⟩ 1 = .ok "a" ∧ encodeToBytes poster () after = .ok [0x0a, 1, 0x61]) ∧
    Table.validate badge () = .ok () ∧
      (∃ after, decodeBytes badge () [0x0a, 2, 0x68, 0x69] (Bytes.zeros 8) = (.ok (), after) ∧
        View.getText ⟨badge (), after⟩ 1 = .ok "\x01i") ∧
      ∃ after, decodeBytes badge () [0x12, 2, 0x68, 0x69, 0x18, 0x61] (Bytes.zeros 8) = (.ok (), after) ∧
        View.getText ⟨badge (), after⟩ 2 = .ok "ai" := by
  have hencode : encodeToBytes poster () [0x61, 0, 0x62, 0, 0, 0, 0, 0, 0, 0, 0, 0, 0, 0, 0, 0] =
      .ok [0x0a, 1, 0x61] := by cbv
  have hlabel : decodeBytes badge () [0x0a, 2, 0x68, 0x69] (Bytes.zeros 8) =
      (.ok (), [1, 0x69, 0, 0, 0, 0, 0, 0]) := by cbv
  have howner : decodeBytes badge () [0x12, 2, 0x68, 0x69, 0x18, 0x61] (Bytes.zeros 8) =
      (.ok (), [0, 0, 0, 0, 0x61, 0x69, 0, 0]) := by cbv
  exact ⟨⟨rfl, by decide, _, rfl, rfl, hencode⟩, rfl, ⟨_, hlabel, rfl⟩, _, howner, rfl⟩

end BlockCodec
