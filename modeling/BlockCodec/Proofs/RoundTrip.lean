import BlockCodec.Proofs.Copying
import BlockCodec.Proofs.Reach
import BlockCodec.Proofs.Resuming

/-!
# Round trips

The wire form of a clean block, decoded over zeros, gives the block back: each field in use is copied
by the form that the field has, and the rest of the block is zero anyway. A block into which values
were written is clean, and what the encoder writes is its wire form.
-/

namespace BlockCodec

variable {Ref S : Type} {schema : Schema Ref} {ref : Ref} {levels : Nat} {field other : Field Ref}
  {block before middle after stored content first : Bytes} {place : Nat}

theorem Kind.wireType_ne_delimited {kind : Kind Ref} (h : kind.isScalar = true) :
    kind.wireType ≠ .delimited := by
  unfold wireType
  split <;> simp_all [isScalar]

theorem Field.accepts_wireType (field : Field Ref) : field.accepts field.kind.wireType = true := by
  simp [accepts]

theorem Field.accepts_packed (hm : field.multiplicity = .repeated)
    (hk : field.kind.isScalar = true) : field.accepts .delimited = true := by
  simp [accepts, isRepeated, hm, hk]

namespace Decode

variable {config : DecodeConfig} {forms : Ref → Bytes → Except CodecError Bytes}
  {nested : Ref → Decode Bytes S Unit} {depth : Nat} {front rest : List (Field Ref)}

-- ---------------------------------------------------------------------------
-- One field
-- ---------------------------------------------------------------------------

theorem stored_repeated (hm : field.multiplicity = .repeated) {type : WireType}
    (hp : ¬(type = .delimited ∧ field.kind.isScalar = true)) :
    (Decode.stored schema config nested (schema ref) field type : Decode Bytes S Unit) =
      Decode.element schema config nested field := by
  simp only [Decode.stored, hm]
  rw [if_neg hp]

section

variable [Handler Ref S] (h : Restorable schema forms nested levels ref block)
  (ht : (schema ref).fields = front ++ field :: rest)

include h ht

/-- The elements of an array, each with its header. -/
theorem Restorable.elements (hm : field.multiplicity = .repeated) {count left total : Nat}
    (htotal : field.slot block = .ok total)
    (hz : ∀ place, field.extent place → before.byte place = 0)
    (hform : field.elementForms (field.valueForm forms) block count left = .ok content)
    (hsum : count + left = total) (hshort : content.length < 2 ^ 32)
    (hfilled : field.Filled block before count middle) :
    ∃ after, field.Filled block before total after ∧ ∀ others Q,
      Continues schema config nested depth (schema ref) (fun _ => False) front others after Q →
        Continues schema config nested depth (schema ref) (fun _ => False) front (content ++ others)
          middle Q := by
  have hf : field ∈ (schema ref).fields := by simp [ht]
  induction left generalizing count content middle with
  | zero =>
    simp only [Field.elementForms, Except.ok.injEq] at hform
    obtain rfl := hform
    obtain rfl : count = total := by omega
    exact ⟨middle, hfilled, fun _ _ hn => hn⟩
  | succ left ih =>
    simp only [Field.elementForms, Field.valueForm, bind_eq_ok, pure_eq_ok] at hform
    obtain ⟨stored, hload, _, ⟨body, hbody, rfl⟩, others, hothers, rfl⟩ := hform
    simp only [List.length_append] at hshort
    obtain ⟨next, hr, hnext⟩ : ∃ next,
        Restores False (Decode.element schema config nested field) body middle () next ∧
          field.Filled block before (count + 1) next :=
      h.element hf hm htotal (by omega) (Field.slice_of_load hload) hbody (by omega) hz hfilled
    obtain ⟨after, hdone, hresume⟩ := ih hothers (by omega) (by omega) hnext
    have hstored : Restores False
        (Decode.stored schema config nested (schema ref) field field.kind.wireType) body middle ()
          next := by
      rwa [stored_repeated hm]
      rintro ⟨hd, hk⟩
      exact Kind.wireType_ne_delimited hk hd
    refine ⟨after, hdone, fun others Q hn => ?_⟩
    rw [List.append_assoc]
    refine Continues.again h.bare.laid.here.toFits ht (h.bare.unhandled.here field hf)
      field.accepts_wireType (hstored.accepts rfl) ?_
    rintro _ rfl
    exact hresume others Q hn

/-- The form of an array that is not empty. -/
theorem Restorable.array (hm : field.multiplicity = .repeated) {total : Nat}
    (htotal : field.slot block = .ok total) (hpos : 0 < total)
    (hform : field.arrayForm forms block = .ok first) (hshort : first.length < 2 ^ 32)
    (hl : block.length = before.length)
    (hz : ∀ place, field.extent place → before.byte place = 0) :
    ∃ after, Bytes.Copies (field.Occupies block) block before after ∧ ∀ others Q,
      Continues schema config nested depth (schema ref) (fun _ => False) (front ++ [field]) others after Q →
        Continues schema config nested depth (schema ref) (fun _ => False) front (first ++ others)
          before Q := by
  have hf : field ∈ (schema ref).fields := by simp [ht]
  have hlaid := h.bare.fieldLaid hf
  have hle := h.total_le hf hm htotal
  have hzero := hlaid.slot_of_zero (hl ▸ h.size_le) (Field.sizeOffset_isSome_of_slot htotal)
    fun place hp => hz place (Field.extent_of_slotPlaces hlaid.inBlock hp)
  have hfilled := Field.filled_zero hl hzero
  have hcopies : ∀ after, field.Filled block before total after →
      Bytes.Copies (field.Occupies block) block before after := fun after hdone =>
    hdone.copies hlaid hm h.size_le hdone.copied.1.symm htotal hpos hle
  simp only [Field.arrayForm, htotal, bind_ok, if_neg (Nat.ne_of_gt hpos),
    if_neg (Nat.not_lt.mpr hle)] at hform
  split at hform
  · next hp =>
    simp only [bind_eq_ok, pure_eq_ok] at hform
    obtain ⟨numbers, hnumbers, rfl⟩ := hform
    simp only [Field.packForm, Wire.delimitedForm, List.length_append] at hshort
    obtain ⟨after, hr, hdone⟩ : ∃ after,
        Restores True (Decode.packedElements field numbers.length : Decode Bytes S Unit) numbers
          before () after ∧ field.Filled block before total after :=
      h.packedElements hf hm hp.2 htotal hz hnumbers (Nat.zero_add total) (Nat.le_refl _) hfilled
    have hstored : Restores False
        (Decode.stored schema config nested (schema ref) field .delimited) (Wire.delimitedForm numbers)
          before () after := by
      simp only [Decode.stored, hm, hp.2, and_self, if_true]
      exact restores_length (by omega) hr.within
    refine ⟨after, hcopies after hdone, fun others Q hn => ?_⟩
    refine Continues.record h.bare.laid.here.toFits ht hlaid.inBlock (Field.accepts_packed hm hp.2)
      (hstored.accepts rfl) ?_
    rintro _ rfl
    exact hn
  · obtain ⟨after, hdone, hresume⟩ :=
      h.elements ht hm htotal hz hform (Nat.zero_add total) hshort hfilled
    refine ⟨after, hcopies after hdone, fun others Q hn => hresume others Q (hn.skip fun _ => ?_)⟩
    simp [Field.isRequired, hm]

/-- The form of a field copies it into a block that is still zero where the field may lie. -/
theorem Restorable.oneField (hform : field.wireForm forms block = .ok first)
    (hshort : first.length < 2 ^ 32) (hl : block.length = before.length)
    (hz : field.isPresent block = .ok true → ∀ place, field.extent place → before.byte place = 0)
    (hzg : field.isPresent block = .ok true → field.group?.isSome →
      ∀ place, Schema.groupPlaces (schema ref) field place → before.byte place = 0) :
    ∃ after, Bytes.Copies (field.Occupies block) block before after ∧ ∀ others Q,
      Continues schema config nested depth (schema ref) (fun _ => False) (front ++ [field]) others after Q →
        Continues schema config nested depth (schema ref) (fun _ => False) front (first ++ others)
          before Q := by
  have hf : field ∈ (schema ref).fields := by simp [ht]
  have hlaid := h.bare.fieldLaid hf
  by_cases hpresent : field.isPresent block = .ok true
  · by_cases hm : field.multiplicity = .repeated
    · rw [Field.wireForm_array forms hlaid.inBlock hm] at hform
      obtain ⟨total, htotal, hpos⟩ := Field.count_of_present hm hpresent
      exact h.array ht hm htotal hpos hform hshort hl (hz hpresent)
    · rw [Field.wireForm_single forms hlaid.inBlock hm, hpresent, bind_ok, if_pos rfl] at hform
      simp only [Field.valueForm, bind_eq_ok, pure_eq_ok] at hform
      obtain ⟨stored, hload, body, hbody, rfl⟩ := hform
      simp only [List.length_append] at hshort
      obtain ⟨after, hr, hcopies⟩ : ∃ after, Restores False
          (Decode.stored schema config nested (schema ref) field field.kind.wireType) body before ()
            after ∧ Bytes.Copies (field.Occupies block) block before after :=
        h.single hf hl hm hpresent (Field.slice_of_load hload) hbody (by omega) (hz hpresent)
          (hzg hpresent) field.kind.wireType
      refine ⟨after, hcopies, fun others Q hn => ?_⟩
      refine Continues.record h.bare.laid.here.toFits ht hlaid.inBlock field.accepts_wireType
        (hr.accepts rfl) ?_
      rintro _ rfl
      exact hn
  · obtain ⟨rfl, hr⟩ := Field.wireForm_of_not_present forms hlaid.inBlock hpresent hform
    exact ⟨before, Bytes.copies_refl hl fun place ho => absurd ho.1 hpresent,
      fun _ _ hn => hn.skip fun _ => hr⟩

end

-- ---------------------------------------------------------------------------
-- Fields beside each other
-- ---------------------------------------------------------------------------

section

variable (h : Restorable schema forms nested levels ref block) (hf : field ∈ (schema ref).fields)
  (ho : other ∈ (schema ref).fields) (hne : other.tag ≠ field.tag)
  (hp : field.isPresent block = .ok true)

include h hf ho hne hp

/-- Of the members of a group only one is present. -/
theorem Restorable.not_sameGroup (hq : other.isPresent block = .ok true) :
    ¬field.SameGroup other :=
  h.bare.laid.here.not_sameGroup hf ho hne hp hq

/-- Copying one field leaves the places of the others alone. -/
theorem Restorable.untouched (hocc : other.Occupies block place) :
    ¬field.extent place ∧
      (field.group?.isSome → ¬Schema.groupPlaces (schema ref) field place) := by
  have hgroup := h.not_sameGroup hf ho hne hp hocc.1
  have hext := hocc.2.extent (h.bare.fieldLaid ho).toFits
  refine ⟨h.bare.not_extent hf ho hne hgroup hext, fun hg => ?_⟩
  exact Schema.not_groupPlaces h.bare.laid.here.tags_ne (h.bare.disjoint.here other ho trivial).2 ho
    hg hgroup hext

end

/-- What is not zero belongs to a field that is present. -/
theorem Restorable.occupied (h : Restorable schema forms nested levels ref block)
    (hne : block.byte place ≠ 0) : ∃ field ∈ (schema ref).fields, field.Occupies block place := by
  obtain ⟨field, hf, huse⟩ := h.clean.covers place hne
  have hlaid := h.bare.fieldLaid hf
  have hkeeps := h.keeps hf
  rcases huse with hslot | ⟨span, hp, hin⟩
  · obtain ⟨value, hvalue, hpos⟩ := hlaid.slot_of_byte h.size_le hslot hne
    have hsound := (hkeeps.slot hlaid.inBlock value hvalue).1
    cases hm : field.multiplicity with
    | required =>
      have ho := Field.sizeOffset_isSome_of_slot hvalue
      simp [h.bare.tidy.here field hf hm] at ho
    | optional =>
      refine ⟨field, hf, ?_, .inl hslot⟩
      simpa [Field.isPresent_of_flag hm hvalue] using hpos
    | «repeated» =>
      refine ⟨field, hf, ?_, .inl hslot⟩
      simpa [Field.isPresent_of_count hm hvalue] using Nat.pos_of_ne_zero hpos
    | oneof group =>
      -- the slot is that of the whole group, and the tag in it that of a member
      simp only [Discipline.sound, hm] at hsound
      obtain ⟨member, hmem, hsame, rfl⟩ := hsound.resolve_left hpos
      have heq := hsame.sizeSlot_eq (h.bare.laid.here.groups field hf member hmem hsame)
      have hactive := Field.slot_of_sizeSlot_eq heq hvalue
      refine ⟨member, hmem, ?_, .inl ?_⟩
      · rw [Field.isPresent_of_tag hsame.symm.1 hactive, beq_self_eq_true]
      · obtain ⟨slot, hslot, hin⟩ := hslot
        exact ⟨slot, heq ▸ hslot, hin⟩
  · obtain ⟨stored, hst, hl⟩ := hlaid.place_slice h.size_le hp
    have hc := (hkeeps.value hlaid.inBlock span stored hp.loosen hst).1
    have hstored : stored ≠ Bytes.zeros stored.length := fun hz =>
      hne (Bytes.byte_of_slice_zeros (hz ▸ hst) hin)
    have hshort : stored.length < 2 ^ 32 := hl ▸ h.dataSize_lt hf
    exact ⟨field, hf, hlaid.present_of_place h.size_le hp hst hc hshort hstored,
      .inr ⟨span, hp, hin⟩⟩

-- ---------------------------------------------------------------------------
-- Messages
-- ---------------------------------------------------------------------------

section

variable [Handler Ref S]

/-- The fields that are still to be read, over a block that has those before them. -/
theorem Restorable.walk (h : Restorable schema forms nested levels ref block)
    (ht : (schema ref).fields = front ++ rest)
    (hform : Field.wireForms forms block rest = .ok content) (hshort : content.length < 2 ^ 32)
    (hcopies : Bytes.Copies (fun place => ∃ field ∈ front, field.Occupies block place) block
      (Bytes.zeros block.length) before) :
    ∃ after, Continues schema config nested depth (schema ref) (fun _ => False) front content before
        (· = after) ∧
      Bytes.Copies (fun place => ∃ field ∈ (schema ref).fields, field.Occupies block place) block
        (Bytes.zeros block.length) after := by
  induction rest generalizing front content before with
  | nil =>
    simp only [Field.wireForms, Except.ok.injEq] at hform
    obtain rfl := hform
    obtain rfl : (schema ref).fields = front := by simpa using ht
    refine ⟨before, continues_end rfl fun field hf _ hh => ?_, hcopies⟩
    simp [h.bare.unhandled.here field hf] at hh
  | cons field rest ih =>
    simp only [Field.wireForms, bind_eq_ok, pure_eq_ok] at hform
    obtain ⟨first, hfirst, others, hothers, rfl⟩ := hform
    rw [List.length_append] at hshort
    have hf : field ∈ (schema ref).fields := by simp [ht]
    have hclear : ∀ place, (∀ other ∈ front, ¬other.Occupies block place) → before.byte place = 0 := by
      intro place hno
      have hfree : ¬∃ field ∈ front, field.Occupies block place := by
        rintro ⟨other, ho, hocc⟩
        exact hno other ho hocc
      rw [← hcopies.kept.2 place hfree, Bytes.byte_zeros]
    have htags := h.bare.laid.here.tags_ne
    rw [ht, List.pairwise_append] at htags
    have huntouched := fun hp place other (ho : other ∈ front) (hocc : other.Occupies block place) =>
      h.untouched hf (by simp [ht, ho]) (htags.2.2 other ho field (by simp)) hp hocc
    obtain ⟨middle, hcopy, hresume⟩ := h.oneField ht hfirst (by omega) hcopies.copied.1
      (fun hp place hin => hclear place fun other ho hocc => (huntouched hp place other ho hocc).1 hin)
      (fun hp hg place hin => hclear place fun other ho hocc =>
        (huntouched hp place other ho hocc).2 hg hin)
    have hnext : (schema ref).fields = front ++ [field] ++ rest := by simp [ht]
    obtain ⟨after, hrest, hdone⟩ := ih hnext hothers (by omega)
      ((hcopies.trans hcopy).congr fun place => by simp [or_and_right, exists_or])
    exact ⟨after, hresume others _ hrest, hdone⟩

/-- Decoding the wire form of a clean block over zeros restores the block. -/
theorem restores_messageWithin {encoding : EncodeConfig} (hb : schema.Bare levels ref)
    (hl : levels ≤ maxInitialDepth + 1) (hc : schema.Clean ref block)
    (hs : (schema ref).size ≤ block.length)
    (hform : schema.wireForm encoding depth ref block = .ok content)
    (hshort : content.length < 2 ^ 32) :
    Restores True (messageWithin schema config depth ref : Decode Bytes S Unit) content
      (Bytes.zeros block.length) () block := by
  induction depth generalizing levels ref block content with
  | zero => cases hform
  | succ depth ih =>
    cases levels with
    | zero => cases hb.laid
    | succ levels =>
      obtain ⟨-, -, hform⟩ := bind_eq_ok.mp hform
      have h : Restorable schema (schema.wireForm encoding depth)
          (messageWithin schema config depth : Ref → Decode Bytes S Unit) levels ref block := by
        refine ⟨hb, Nat.le_of_succ_le_succ hl, hc, hs, ?_⟩
        intro field hf inner hk span stored payload hp hst hinner hpayload
        have hlaid := hb.fieldLaid hf
        have hbelow := hb.below hf hk
        have hat := Schema.holds_iff.mp hc.holds field hf (hb.undefaulted.here field hf)
        refine ih hbelow (by omega) ⟨?_, ?_⟩ ?_ hinner hpayload
        · exact (hat.keeps.value hlaid.inBlock span stored hp.loosen hst).2 inner levels hk hbelow
        · exact hat.nested hlaid.inBlock inner hk span stored hp.loosen hst
        · exact Nat.le_of_eq
            ((hlaid.length_place hp hst).trans (hlaid.dataSize_of_message hk)).symm
      obtain ⟨after, hresume, hdone⟩ := h.walk (List.nil_append _).symm hform hshort
        (Bytes.copies_refl (Bytes.length_zeros _).symm (by simp))
      obtain rfl : block = after := by
        refine Bytes.ext_byte hdone.copied.1 fun place => ?_
        by_cases hocc : ∃ field ∈ (schema ref).fields, field.Occupies block place
        · exact hdone.copied.2 place hocc
        · rw [← hdone.kept.2 place hocc, Bytes.byte_zeros]
          exact Classical.not_not.mp fun hne => hocc (h.occupied hne)
      unfold messageWithin
      have hzeros : (schema ref).size ≤ (Bytes.zeros block.length).length := by
        rwa [Bytes.length_zeros]
      refine Restores.afterEdit (restores_ask (Table.checkBlock_ok hzeros)) ?_
      refine restores_get fun state _ hle _ => ?_
      exact (hresume .start [] _ Cursor.placed_start noted_nil hle).restores

end

end Decode

-- ---------------------------------------------------------------------------
-- Encoding and decoding
-- ---------------------------------------------------------------------------

/-- What a step appends to an empty byte string is what it emits. -/
theorem Encode.Emits.form_of_result {S : Type} {step : Encode Bytes S Unit} {handlers : List S}
    {form : Except CodecError Bytes} {wire : Bytes} (h : Encode.Emits step form)
    (hwire : (step.result ⟨.unbounded [], handlers⟩).1.map
      (fun _ => (step.result ⟨.unbounded [], handlers⟩).2.output.sink.getD []) = .ok wire) :
    form = .ok wire := by
  have hends := h ⟨.unbounded [], handlers⟩
  unfold Step.Ends at hends
  split at hends
  · next value after hr =>
    obtain ⟨content, hform, -, rfl⟩ := hends
    rw [hr] at hwire
    have hcontent : content = wire := by
      simpa [Except.map, Encoding.put, Output.put, Output.charge, Output.unbounded,
        Output.ofSink] using hwire
    rw [hform, hcontent]
  · next failure after hr =>
    rw [hr] at hwire
    cases hwire

/-- What is encoded is the form of the block. -/
theorem form_of_encodeToBytes {form : Except CodecError Bytes} {wire : Bytes}
    (h : Encode.Emits (encodeMessage schema {} ref block : Encode Bytes Empty Unit) form)
    (he : encodeToBytes schema ref block = .ok wire) : form = .ok wire :=
  h.form_of_result he

theorem encodeToBytes_of_form {wire : Bytes}
    (h : Encode.Emits (encodeMessage schema {} ref block : Encode Bytes Empty Unit) (.ok wire))
    (hroom : wire.length ≤ maxSize) : encodeToBytes schema ref block = .ok wire := by
  have hr : (encodeMessage schema {} ref block : Encode Bytes Empty Unit).result ⟨.unbounded [], []⟩ =
      (.ok (), _) := encode_of_emits h (.inr hroom)
  simp only [encodeToBytes, hr]
  rfl

theorem decodeBytes_of_restores {wire : Bytes} {count : Nat}
    (hinit : (schema.initialise ref).result (Bytes.zeros count) = (.ok (), Bytes.zeros count))
    (h : Decode.Restores True (mergeMessage schema {} ref : Decode Bytes Empty Unit) wire
      (Bytes.zeros count) () block) :
    decodeBytes schema ref wire (Bytes.zeros count) = (.ok (), block) := by
  have hwhole : Decode.Restores True (decodeMessage schema {} ref : Decode Bytes Empty Unit) wire
      (Bytes.zeros count) () block :=
    Decode.Restores.afterEdit (Decode.restores_onBlock hinit) h
  have hr := hwhole [] wire.length 0 true [] (Nat.le_refl _) fun _ => rfl
  rw [List.append_nil] at hr
  rw [decodeBytes, Input.ofBytes, Input.ofSource, hr]

/-- A block into which values were written is the same after a trip over the wire, when it is
decoded into zeros. No text may have a zero byte in it; writes that fail may come in between. -/
theorem decodeBytes_of_encodeToBytes (hvalid : Table.validate schema ref = .ok ())
    (hbuilt : schema.Throughout Table.Built ref) (hu : schema.Throughout Table.Unhandled ref)
    (hd : schema.Throughout Table.Undefaulted ref) (hsep : schema.Throughout Table.Disjoint ref)
    (hshort : (schema ref).size < 2 ^ 32) {count : Nat} (hs : (schema ref).size ≤ count)
    {actions : List Action} (hw : ∀ action ∈ actions, action.Writes) {wire : Bytes}
    (hblock : ((performAll schema actions (schema ref)).result (Bytes.zeros count)).2 = block)
    (hwire : encodeToBytes schema ref block = .ok wire) (hlen : wire.length < 2 ^ 32) :
    decodeBytes schema ref wire (Bytes.zeros count) = (.ok (), block) := by
  have hlaid := Schema.laid_of_validate hvalid hbuilt
  have hb : schema.Bare (maxInitialDepth + 1) ref := ⟨hlaid, hsep, hu, hd,
    hbuilt.mono fun _ => Table.Built.noIdleSlots, hshort⟩
  have hclean := clean_performAll hb (Nat.le_refl _) hw hs
  have hcount : block.length = count := by
    have hzeros : (schema ref).size ≤ (Bytes.zeros count).length := by rwa [Bytes.length_zeros]
    rw [← hblock, (performAll_obeys actions (hb.plain (Nat.le_refl _)) hzeros fun _ => hw).moves.length_eq,
      Bytes.length_zeros]
  rw [hblock] at hclean
  subst hcount
  have hemits : Encode.Emits (encodeMessage schema {} ref block : Encode Bytes Empty Unit)
      (schema.wireForm {} (({} : EncodeConfig).maxDepth + 1 - 0) ref block) :=
    Encode.emits_messageWithin hlaid (Schema.unbound_of_unhandled hu block) _
  have hform := form_of_encodeToBytes hemits hwire
  exact decodeBytes_of_restores (hb.initialise_zeros (Nat.le_refl _) hs)
    (Decode.restores_messageWithin hb (Nat.le_refl _) hclean hs hform hlen)

/-- A seal gives way to a stamp, and a line that does not fit is left empty. -/
theorem decodeBytes_of_encodeToBytes_letter :
    Table.validate letter false = .ok () ∧ letter.Throughout Table.Built false ∧
    letter.Throughout Table.Unhandled false ∧ letter.Throughout Table.Undefaulted false ∧
    letter.Throughout Table.Disjoint false ∧
    ∃ (actions : List Action) (block wire : Bytes), (∀ action ∈ actions, action.Writes) ∧
      ((performAll letter actions (letter false)).result (Bytes.zeros 26)).2 = block ∧
      block = [44, 0, 0, 0, 2, 0, 0, 0, 97, 98, 0, 0, 0, 0, 0, 0, 4, 0, 0, 0, 5, 0, 0, 0, 0, 0] ∧
      encodeToBytes letter false block = .ok wire ∧ wire.length = 12 ∧
      decodeBytes letter false wire (Bytes.zeros 26) = (.ok (), block) := by
  have hvalid : Table.validate letter false = .ok () := rfl
  have hd : letter.Throughout Table.Undefaulted false := Schema.throughout_of_forall (by decide) false
  let actions : List Action := [.set 1 (.unsigned 44), .pushText 2 "ab", .pushText 2 "abcde",
    .setBytes 3 [9], .submessage 4 [.set 1 (.signed 5)]]
  let block : Bytes :=
    [44, 0, 0, 0, 2, 0, 0, 0, 97, 98, 0, 0, 0, 0, 0, 0, 4, 0, 0, 0, 5, 0, 0, 0, 0, 0]
  let wire : Bytes := [8, 44, 18, 2, 97, 98, 18, 0, 34, 2, 8, 5]
  have hw : ∀ action ∈ actions, action.Writes := by
    simp only [actions, List.mem_cons, List.not_mem_nil, or_false]
    rintro _ (rfl | rfl | rfl | rfl | rfl)
    · exact .set ..
    · exact .pushText 2 (by decide)
    · exact .pushText 2 (by decide)
    · exact .setBytes ..
    · exact .submessage 4 (by rintro _ (_ | ⟨_, ⟨⟩⟩); exact .set ..)
  have hblock : ((performAll letter actions (letter false)).result (Bytes.zeros 26)).2 = block := by
    cbv
  have hwire : encodeToBytes letter false block = .ok wire := by cbv
  exact ⟨hvalid, letter_built false, letter_unhandled false, hd, letter_disjoint false, actions, block,
    wire, hw, hblock, rfl, hwire, rfl,
    decodeBytes_of_encodeToBytes hvalid (letter_built false) (letter_unhandled false) hd
      (letter_disjoint false) (show 26 < 2 ^ 32 by omega) (Nat.le_refl 26) hw hblock hwire
      (show 12 < 2 ^ 32 by omega)⟩

/-- Lines of text and nothing else. -/
def inscription : Schema Unit := fun _ =>
  ⟨"Inscription", [(Field.ofStorage 1 "lines" .text 4 4).repeated 0 1], 8⟩

theorem inscription_built : inscription.Throughout Table.Built () := by
  refine Schema.throughout_of_forall (fun _ field hf => ?_) ()
  rw [List.mem_singleton.mp hf]
  exact .repeated _ _ (.ofStorage ..)

/-- A text that is pushed with a zero byte in it is stored as it is, but ends there on the wire. -/
theorem decodeBytes_cuts_text :
    Table.validate inscription () = .ok () ∧ inscription.Throughout Table.Built () ∧
    inscription.Throughout Table.Unhandled () ∧ inscription.Throughout Table.Undefaulted () ∧
    inscription.Throughout Table.Disjoint () ∧
    ((Action.pushText 1 "a\x00b").perform inscription (inscription ())).result (Bytes.zeros 8) =
      (.ok (), [1, 0, 0, 0, 97, 0, 98, 0]) ∧
    encodeToBytes inscription () [1, 0, 0, 0, 97, 0, 98, 0] = .ok [10, 1, 97] ∧
    decodeBytes inscription () [10, 1, 97] (Bytes.zeros 8) = (.ok (), [1, 0, 0, 0, 97, 0, 0, 0]) :=
  ⟨rfl, inscription_built, Schema.throughout_of_forall (fun () => by decide) (),
    Schema.throughout_of_forall (fun () => by decide) (),
    Schema.throughout_of_forall (fun () => by decide) (), by cbv, by cbv, by cbv⟩

end BlockCodec
