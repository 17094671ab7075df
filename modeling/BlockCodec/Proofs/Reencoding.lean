import BlockCodec.Proofs.Acceptance
import BlockCodec.Proofs.Merging
import BlockCodec.Proofs.Narrowing

/-!
# Encoding again

What was decoded and encoded, whatever its input looked like, is decoded to a block that mirrors the
first one and is encoded to the same bytes: `reencoding_settles`. There is one thing that a block shows
and its form does not tell: a message without a flag is present while any byte of its storage is not
zero, be it what a longer text has left behind a shorter one. Such a message must be `Vouched` for by
what is on the wire. `reencoding_drops_note` is one that is not.
-/

namespace BlockCodec

variable {Ref : Type} {schema : Schema Ref} {table : Table Ref} {ref : Ref} {field : Field Ref}
  {block start after stored content first body : Bytes} {levels depth size index left : Nat}
  {same : Ref → Bytes → Bytes → Prop} {ready : Ref → Bytes → Prop}
  {forms : Ref → Bytes → Except CodecError Bytes}

-- ---------------------------------------------------------------------------
-- Values
-- ---------------------------------------------------------------------------

namespace Field

theorem isNonzero_text {text : Bytes} (hk : field.kind = .text) (h : field.textBytes stored = .ok text) :
    field.isNonzero stored = .ok !text.isEmpty := by
  rw [isNonzero, hk]
  unfold textBytes at h
  split at h
  · cases h
    cases stored with
    | nil => rfl
    | cons head tail => by_cases hz : head = 0 <;> simp [hz]
  · cases h

theorem isNonzero_zeros (hs : field.Suits schema) :
    field.isNonzero (Bytes.zeros field.dataSize) = .ok false := by
  unfold isNonzero
  split
  · next hk =>
    rw [Decode.payload_zeros hk hs]
    rfl
  · cases field.dataSize <;> rfl
  · rw [Bytes.isZero_zeros]
    rfl

/-- Storage that shows the same value has the same form. -/
theorem Repeats.bodyForm (h : field.Repeats same stored content)
    (hn : ∀ inner payload, field.kind = .message inner → same inner stored content →
      forms inner stored = .ok payload → forms inner content = .ok payload)
    (hform : field.bodyForm forms stored = .ok body) : field.bodyForm forms content = .ok body := by
  rw [← hform]
  unfold Field.bodyForm at hform ⊢
  cases hk : field.kind with
  | text | bytes =>
    simp only [Repeats, hk] at h
    simp only [h]
  | message inner =>
    simp only [Repeats, hk] at h
    simp only [hk] at hform
    cases hinner : forms inner stored with
    | error failure => simp [hinner, Except.map] at hform
    | ok payload => simp only [hn inner payload hk h hinner, hinner]
  | _ =>
    simp only [Repeats, hk] at h
    simp only [h.1]

/-- Storage that shows the same value is present alike. -/
theorem Repeats.isNonzero (h : field.Repeats same stored content)
    (hk : ∀ inner, field.kind ≠ .message inner) (hform : field.bodyForm forms stored = .ok body) :
    field.isNonzero content = field.isNonzero stored := by
  cases hkind : field.kind with
  | text =>
    simp only [Repeats, hkind] at h
    cases htext : field.textBytes stored with
    | error failure => simp [Field.bodyForm, hkind, htext, Except.map] at hform
    | ok text => rw [isNonzero_text hkind htext, isNonzero_text hkind (h.trans htext)]
  | bytes =>
    simp only [Repeats, hkind] at h
    simp only [Field.isNonzero, hkind, h]
  | message inner => exact absurd hkind (hk inner)
  | _ =>
    simp only [Repeats, hkind] at h
    simp only [Field.isNonzero, hkind, h.2]

-- ---------------------------------------------------------------------------
-- Fields on the wire
-- ---------------------------------------------------------------------------

/-- The forms of fields come one by one. -/
theorem wireForms_of_each {fields : List (Field Ref)}
    (h : ∀ field ∈ fields, ∀ first, field.wireForm forms block = .ok first →
      field.wireForm forms after = .ok first)
    (hform : wireForms forms block fields = .ok first) : wireForms forms after fields = .ok first := by
  induction fields generalizing first with
  | nil => exact hform
  | cons field rest ih =>
    simp only [wireForms, bind_eq_ok, pure_eq_ok] at hform ⊢
    obtain ⟨piece, hpiece, others, hothers, rfl⟩ := hform
    exact ⟨piece, h field List.mem_cons_self piece hpiece, others,
      ih (fun other ho => h other (List.mem_cons_of_mem _ ho)) hothers, rfl⟩

/-- The elements have the forms of those that they repeat. -/
theorem elementForms_of_slices {form : Bytes → Except CodecError Bytes}
    (h : ∀ place < index + left, ∀ stored piece, block.slice? (field.element place) = some stored →
      form stored = .ok piece →
        ∃ content, after.slice? (field.element place) = some content ∧ form content = .ok piece)
    (hform : field.elementForms form block index left = .ok first) :
    field.elementForms form after index left = .ok first := by
  induction left generalizing index first with
  | zero => exact hform
  | succ left ih =>
    simp only [elementForms, bind_eq_ok, pure_eq_ok] at hform ⊢
    obtain ⟨stored, hload, piece, hpiece, others, hothers, rfl⟩ := hform
    obtain ⟨content, hcontent, hsame⟩ := h index (by omega) stored piece (slice_of_load hload) hpiece
    exact ⟨content, load_of_slice hcontent, piece, hsame, others,
      ih (fun place hp => h place (by omega)) hothers, rfl⟩

/-- What a field shows again has the form that it had. -/
structure Retells (forms : Ref → Bytes → Except CodecError Bytes) (same : Ref → Bytes → Bytes → Prop)
    (field : Field Ref) (block : Bytes) : Prop where
  form : ∀ inner, field.kind = .message inner → ∀ span stored payload content,
    Decode.Sends field block span → block.slice? span = some stored → same inner stored content →
      forms inner stored = .ok payload → forms inner content = .ok payload
  shown : field.multiplicity = .optional → field.sizeOffset = none → ∀ inner, field.kind = .message inner →
    ∀ stored content, block.slice? field.data = some stored → same inner stored content →
      Bytes.isZero content = false

theorem Retells.bodyForm (hn : field.Retells forms same block) {span : Span}
    (hsends : Decode.Sends field block span) (hs : block.slice? span = some stored)
    (hrepeats : field.Repeats same stored content) (hform : field.bodyForm forms stored = .ok body) :
    field.bodyForm forms content = .ok body :=
  hrepeats.bodyForm (fun inner payload hk => hn.form inner hk span stored payload content hsends hs) hform

section

variable (h : field.Echoes same block after) (hsent : field.Sent block)
  (hn : field.Retells forms same block)

include h hsent hn

/-- A single field that is on the wire is present where it is echoed. -/
theorem Echoes.isPresent (hm : field.multiplicity ≠ .repeated)
    (hs : block.slice? field.data = some stored) (hform : field.bodyForm forms stored = .ok body) :
    field.isPresent after = .ok true := by
  cases hmult : field.multiplicity with
  | «repeated» => exact absurd hmult hm
  | required => exact isPresent_of_required hmult
  | oneof group =>
    have hg : field.group?.isSome := by simp [group?, hmult]
    rw [isPresent_of_group hg, h.isActive, isActive_of_present hsent.present]
  | optional =>
    cases ho : field.sizeOffset with
    | some offset =>
      rw [isPresent_of_flag hmult (h.flag hmult (by simp [ho]))]
      rfl
    | none =>
      obtain ⟨content, hcontent, hrepeats⟩ := h.value _ _ (place_of_present hm hsent.present) hs
      have hnonzero := (isPresent_of_storage hmult ho hs).symm.trans hsent.present
      rw [isPresent_of_storage hmult ho hcontent]
      by_cases hk : ∃ inner, field.kind = .message inner
      · obtain ⟨inner, hk⟩ := hk
        simp only [Repeats, hk] at hrepeats
        simp only [Field.isNonzero, hk, hn.shown hmult ho inner hk stored content hs hrepeats]
        rfl
      · rw [hrepeats.isNonzero (fun inner hi => hk ⟨inner, hi⟩) hform, hnonzero]

/-- The elements of an array are echoed. -/
theorem Echoes.element {count place : Nat} (hm : field.multiplicity = .repeated)
    (hcount : field.slot block = .ok count) (hle : count ≤ field.capacity) (hp : place < count)
    (hs : block.slice? (field.element place) = some stored) :
    ∃ content, after.slice? (field.element place) = some content ∧ field.Repeats same stored content ∧
      ∀ body, field.bodyForm forms stored = .ok body → field.bodyForm forms content = .ok body := by
  have hplace : field.Place .strict block (field.element place) :=
    .element hm (by omega) fun _ => ⟨count, hcount, hp⟩
  obtain ⟨content, hcontent, hrepeats⟩ := h.value _ _ hplace hs
  exact ⟨content, hcontent, hrepeats, fun _ => hn.bodyForm ⟨hsent.present, hplace⟩ hs hrepeats⟩

/-- An array has the form that it had where it is echoed. -/
theorem Echoes.arrayForm (hm : field.multiplicity = .repeated)
    (hform : field.arrayForm forms block = .ok first) : field.arrayForm forms after = .ok first := by
  have hslot : field.slot after = field.slot block := h.slot (.inl (by simp [isRepeated, hm]))
  obtain ⟨count, hcount, hform⟩ := bind_eq_ok.mp hform
  rw [Field.arrayForm, hslot, hcount, bind_ok]
  by_cases hzero : count = 0
  · rwa [if_pos hzero] at hform ⊢
  by_cases hfull : field.capacity < count
  · rw [if_neg hzero, if_pos hfull] at hform
    cases hform
  have hle : count ≤ field.capacity := by omega
  rw [if_neg hzero, if_neg hfull] at hform ⊢
  by_cases hpacked : field.packed ∧ field.kind.isScalar
  · rw [if_pos hpacked] at hform ⊢
    obtain ⟨numbers, hnumbers, hform⟩ := bind_eq_ok.mp hform
    refine bind_eq_ok.mpr ⟨numbers, elementForms_of_slices (fun place hp stored piece hs hpiece => ?_)
      hnumbers, hform⟩
    obtain ⟨content, hcontent, hrepeats, -⟩ := h.element hsent hn hm hcount hle (by omega) hs
    refine ⟨content, hcontent, ?_⟩
    rw [((repeats_iff_scalar hpacked.2).mp hrepeats).1, hpiece]
  · rw [if_neg hpacked] at hform ⊢
    refine elementForms_of_slices (fun place hp stored piece hs hpiece => ?_) hform
    obtain ⟨content, hcontent, -, hbodies⟩ := h.element hsent hn hm hcount hle (by omega) hs
    obtain ⟨body, hbody, hpiece⟩ := bind_eq_ok.mp hpiece
    exact ⟨content, hcontent, bind_eq_ok.mpr ⟨body, hbodies body hbody, hpiece⟩⟩

/-- A field has the form that it had where it is echoed. -/
theorem Echoes.wireForm (hform : field.wireForm forms block = .ok first) :
    field.wireForm forms after = .ok first := by
  by_cases hm : field.multiplicity = .repeated
  · rw [wireForm_array forms hsent.inBlock hm] at hform ⊢
    exact h.arrayForm hsent hn hm hform
  rw [wireForm_single forms hsent.inBlock hm] at hform ⊢
  rw [hsent.present, bind_ok, if_pos rfl] at hform
  obtain ⟨stored, hload, hform⟩ := bind_eq_ok.mp hform
  obtain ⟨body, hbody, hform⟩ := bind_eq_ok.mp hform
  have hs := slice_of_load hload
  have hplace := place_of_present hm hsent.present
  obtain ⟨content, hcontent, hrepeats⟩ := h.value _ _ hplace hs
  rw [h.isPresent hsent hn hm hs hbody, bind_ok, if_pos rfl, load_of_slice hcontent, bind_ok]
  exact bind_eq_ok.mpr ⟨body, hn.bodyForm ⟨hsent.present, hplace⟩ hs hrepeats hbody, hform⟩

end

-- ---------------------------------------------------------------------------
-- Fields that are not on the wire
-- ---------------------------------------------------------------------------

/-- A field that has just been initialised is not on the wire. -/
theorem wireForm_of_fresh {nested : Ref → Edit Unit} (h : field.Fresh nested block)
    (hlaid : field.Laid schema size) (hpos : 0 < field.tag) (hr : field.isRequired = false)
    (hd : field.default? = none) (hw : ∀ ref, field.kind = .message ref → (nested ref).Wipes) :
    field.wireForm forms block = .ok [] := by
  have hh := hlaid.inBlock
  cases hmult : field.multiplicity with
  | required => simp [isRequired, hmult] at hr
  | «repeated» =>
    have hslot := h.slot_eq_zero hlaid (hlaid.slot_isSome (.inl (by simp [isRepeated, hmult])))
    rw [wireForm_array forms hh hmult, Field.arrayForm, hslot]
    rfl
  | oneof group =>
    have hg : field.group?.isSome := by simp [group?, hmult]
    have hslot := h.slot_eq_zero hlaid (hlaid.slot_isSome (.inr hg))
    refine wireForm_of_absent forms hh (by simp [hmult]) ?_
    rw [isPresent_of_tag hg hslot, beq_eq_false_iff_ne.mpr (by omega)]
  | optional =>
    refine wireForm_of_absent forms hh (by simp [hmult]) ?_
    cases ho : field.sizeOffset with
    | some offset =>
      rw [isPresent_of_flag hmult (h.slot_eq_zero hlaid (by simp [ho]))]
      rfl
    | none =>
      obtain ⟨content, hs, hc⟩ := h.storage
      rw [storage_eq_data (by simp [hmult])] at hs
      obtain rfl := hc.eq_zeros hd hw
      rw [storage_eq_data (by simp [hmult]), hlaid.length_data] at hs
      rw [isPresent_of_storage hmult ho hs, isNonzero_zeros hlaid.suits]

end Field

/-- A field that is not on the wire is not on it again. -/
theorem Table.Rereads.absent (h : (schema ref).Rereads same (schema ref).fields block start after)
    (hlaid : schema.Laid levels ref) (hd : schema.Throughout Table.Disjoint ref)
    (hb : schema.Throughout Table.Undefaulted ref) (hstart : schema.Initialised ref start)
    (hf : field ∈ (schema ref).fields) (hh : field.isHandled = false) (hsent : ¬field.Sent block)
    (hrequired : field.isRequired = false) : field.wireForm forms after = .ok [] := by
  rcases h.unsent hlaid.here hd.here hf hsent with ⟨hg, tag, hne, hslot⟩ | hagree
  · obtain ⟨group, hmult⟩ := Field.multiplicity_of_group hg
    refine Field.wireForm_of_absent forms hh (by simp [hmult]) ?_
    rw [Field.isPresent_of_tag hg hslot, beq_eq_false_iff_ne.mpr hne]
  · obtain ⟨levels, before, hr⟩ := hstart
    cases levels with
    | zero => cases hr
    | succ levels =>
      have hfresh := (Schema.fresh_of_initialise hlaid hd hr hf hh).congr hh hagree
      exact Field.wireForm_of_fresh hfresh (hlaid.here.laid field hf hh) (hlaid.here.tag_pos field hf)
        hrequired (hb.here field hf) fun inner hk =>
          Schema.wipes_initialiseWithin levels (hb.nested (Table.mem_nested hf hh hk))

-- ---------------------------------------------------------------------------
-- Messages
-- ---------------------------------------------------------------------------

/-- The storage of a value other than a message says more than zero or nothing. -/
def Field.Speaks (field : Field Ref) (stored : Bytes) : Prop :=
  match field.kind with
  | .text => ∃ text, text ≠ [] ∧ field.textBytes stored = .ok text
  | .bytes => ∃ payload, payload ≠ [] ∧ field.payload stored = .ok payload
  | .message _ => False
  | _ => Bytes.isZero stored = false

namespace Schema

/-- What is on the wire of a message leaves something that is not zero: a mark, or a value. -/
inductive Tells (schema : Schema Ref) : Ref → Bytes → Prop
  | marked {ref : Ref} {block : Bytes} {field : Field Ref} (hf : field ∈ (schema ref).fields)
    (hsent : field.Sent block) (hm : field.multiplicity ≠ .required) (ho : field.sizeOffset.isSome) :
    Tells schema ref block
  | value {ref : Ref} {block stored : Bytes} {field : Field Ref} (hf : field ∈ (schema ref).fields)
    (hsent : field.Sent block) (hm : field.multiplicity ≠ .repeated)
    (hs : block.slice? field.data = some stored) (h : field.Speaks stored) : Tells schema ref block
  | inside {ref inner : Ref} {block stored : Bytes} {field : Field Ref}
    (hf : field ∈ (schema ref).fields) (hsent : field.Sent block) (hm : field.multiplicity ≠ .repeated)
    (hk : field.kind = .message inner) (hs : block.slice? field.data = some stored)
    (h : Tells schema inner stored) : Tells schema ref block

/-- The messages on the wire that only their own storage marks as present tell something on the wire,
and so on in all messages on the wire. -/
inductive Vouched (schema : Schema Ref) : Ref → Bytes → Prop
  | intro {ref : Ref} {block : Bytes}
    (unmarked : ∀ field ∈ (schema ref).fields, field.Sent block → field.multiplicity = .optional →
      field.sizeOffset = none → ∀ inner, field.kind = .message inner → ∀ stored,
        block.slice? field.data = some stored → schema.Tells inner stored)
    (inside : ∀ field ∈ (schema ref).fields, field.isHandled = false → ∀ inner,
      field.kind = .message inner → ∀ span stored, Decode.Sends field block span →
        block.slice? span = some stored → Vouched schema inner stored) :
    Vouched schema ref block

end Schema

namespace Field

theorem not_isZero_of_isNonzero (h : field.isNonzero stored = .ok true) :
    Bytes.isZero stored = false := by
  rw [← Bool.not_eq_true]
  intro hz
  unfold isNonzero at h
  split at h
  · obtain ⟨payload, hpayload, h⟩ := bind_eq_ok.mp h
    unfold Field.payload at hpayload
    rw [Bytes.isZero_iff_eq_zeros.mp hz, show (Bytes.zeros stored.length).take 4 =
      Bytes.zeros (min 4 stored.length) by simp [Bytes.zeros], Bytes.ofLittleEndian_zeros] at hpayload
    split at hpayload
    · cases hpayload
    · simp [← Except.ok.inj hpayload, pure, Except.pure] at h
  · rw [Bytes.isZero_iff_eq_zeros.mp hz] at h
    cases hl : stored.length <;> simp_all [Bytes.zeros, List.replicate_succ]
  · simp [hz] at h

theorem Speaks.not_isZero (h : field.Speaks stored) : Bytes.isZero stored = false := by
  cases hk : field.kind with
  | text =>
    simp only [Speaks, hk] at h
    obtain ⟨text, hne, htext⟩ := h
    have hnonzero : field.isNonzero stored = .ok true := by simpa [isNonzero_text hk htext] using hne
    exact not_isZero_of_isNonzero hnonzero
  | bytes =>
    simp only [Speaks, hk] at h
    obtain ⟨payload, hne, hpayload⟩ := h
    have hnonzero : field.isNonzero stored = .ok true := by
      simpa [isNonzero, hk, hpayload, bind_ok, pure, Except.pure] using hne
    exact not_isZero_of_isNonzero hnonzero
  | message inner => simp only [Speaks, hk] at h
  | _ => simpa only [Speaks, hk] using h

theorem Repeats.speaks (h : field.Repeats same stored content) (hs : field.Speaks stored) :
    field.Speaks content := by
  cases hk : field.kind with
  | message inner => simp only [Speaks, hk] at hs
  | text | bytes =>
    simp only [Repeats, hk] at h
    simpa only [Speaks, hk, h] using hs
  | _ =>
    simp only [Repeats, hk] at h
    simpa only [Speaks, hk, h.2] using hs

theorem slot_of_isZero {value : Nat} (hz : Bytes.isZero block = true)
    (hv : field.slot block = .ok value) : value = 0 := by
  obtain ⟨slot, held, -, hs, rfl⟩ := slice_of_slot hv
  rw [Bytes.isZero_iff_eq_zeros.mp (Bytes.isZero_of_slice hz hs), readUnsigned_zeros]
  rfl

/-- The mark of a field on the wire is not zero where the field is echoed. -/
theorem Echoes.marked (h : field.Echoes same block after) (hsent : field.Sent block)
    (hm : field.multiplicity ≠ .required) (ho : field.sizeOffset.isSome) (hpos : 0 < field.tag) :
    ∃ value, field.slot after = .ok value ∧ value ≠ 0 := by
  cases hmult : field.multiplicity with
  | required => exact absurd hmult hm
  | optional => exact ⟨1, h.flag hmult ho, Nat.one_ne_zero⟩
  | oneof group =>
    refine ⟨field.tag, (h.slot (.inr (by simp [group?, hmult]))).trans ?_, by omega⟩
    exact active_of_present hmult hsent.present
  | «repeated» =>
    obtain ⟨count, hcount, hlt⟩ := count_of_present hmult hsent.present
    exact ⟨count, (h.slot (.inl (by simp [isRepeated, hmult]))).trans hcount, by omega⟩

end Field

namespace Schema

/-- A message that tells something is not zero where it is mirrored. -/
theorem Tells.not_isZero (h : schema.Tells ref block) (hlaid : schema.Laid levels ref)
    (hm : schema.Mirrors ready ref block after) : Bytes.isZero after = false := by
  rw [← Bool.not_eq_true]
  intro hz
  induction h generalizing levels after with
  | marked hf hsent hmult ho =>
    obtain ⟨value, hvalue, hne⟩ :=
      (hm.echoes hf hsent).marked hsent hmult ho (hlaid.here.tag_pos _ hf)
    exact hne (Field.slot_of_isZero hz hvalue)
  | value hf hsent hmult hs h =>
    obtain ⟨content, hcontent, hrepeats⟩ :=
      (hm.echoes hf hsent).value _ _ (Field.place_of_present hmult hsent.present) hs
    have hzero := Bytes.isZero_of_slice hz hcontent
    rw [(hrepeats.speaks h).not_isZero] at hzero
    cases hzero
  | inside hf hsent hmult hk hs _ ih =>
    obtain ⟨content, hcontent, hrepeats⟩ :=
      (hm.echoes hf hsent).value _ _ (Field.place_of_present hmult hsent.present) hs
    simp only [Field.Repeats, hk] at hrepeats
    cases levels with
    | zero => cases hlaid
    | succ levels =>
      exact ih (hlaid.nested (Table.mem_nested hf hsent.inBlock hk)) hrepeats
        (Bytes.isZero_of_slice hz hcontent)

/-- A block that mirrors another one has the form of that one. -/
theorem wireForm_of_mirrors {config : EncodeConfig} {wire : Bytes} (hlaid : schema.Laid levels ref)
    (hd : schema.Throughout Table.Disjoint ref) (hu : schema.Throughout Table.Unhandled ref)
    (hb : schema.Throughout Table.Undefaulted ref) (hv : schema.Vouched ref block)
    (hm : schema.Mirrors schema.Initialised ref block after)
    (hform : schema.wireForm config depth ref block = .ok wire) :
    schema.wireForm config depth ref after = .ok wire := by
  induction depth generalizing levels ref block after wire with
  | zero => cases hform
  | succ depth ih =>
    cases levels with
    | zero => cases hlaid
    | succ levels =>
    obtain ⟨start, hstart, hreads⟩ := mirrors_iff.mp hm
    obtain ⟨-, -, hform⟩ := bind_eq_ok.mp hform
    obtain ⟨unmarked, inside⟩ := hv
    refine bind_eq_ok.mpr ⟨(), Table.checkBlock_ok hm.size_le, ?_⟩
    refine Field.wireForms_of_each (fun field hf first hfirst => ?_) hform
    have hh := hu.here field hf
    by_cases hsent : field.Sent block
    · refine (hreads.echoes field hf hsent).wireForm hsent ⟨?_, ?_⟩ hfirst
      · intro inner hk span stored payload content hsends hst hmirrors hpayload
        have hn := Table.mem_nested hf hh hk
        exact ih (hlaid.nested hn) (hd.nested hn) (hu.nested hn) (hb.nested hn)
          (inside field hf hh inner hk span stored hsends hst) hmirrors hpayload
      · intro hmult ho inner hk stored content hst hmirrors
        exact (unmarked field hf hsent hmult ho inner hk stored hst).not_isZero
          (hlaid.nested (Table.mem_nested hf hh hk)) hmirrors
    · obtain ⟨rfl, hr⟩ := Field.wireForm_of_not_sent hsent hfirst
      exact hreads.absent hlaid hd hb hstart hf hh hsent (hr hh)

end Schema

-- ---------------------------------------------------------------------------
-- Whole byte strings
-- ---------------------------------------------------------------------------

/-- What was decoded has legible texts. -/
theorem legible_of_decodeBytes {message : Bytes} (hlaid : schema.Laid (maxInitialDepth + 1) ref)
    (hd : schema.Throughout Table.Disjoint ref) (hu : schema.Throughout Table.Unhandled ref)
    (hm : decodeBytes schema ref message start = (.ok (), block)) :
    (schema ref).size ≤ block.length ∧ schema.Holds .legible ref block := by
  obtain ⟨initial, hinit, input, hr⟩ := Decode.makes_decodeMessage_iff.mp (decodeBytes_eq_ok.mp hm)
  have hsize := Schema.size_le_of_initialise hinit
  have hg : Decode.Guarded schema (maxInitialDepth + 1) ref :=
    ⟨hlaid, Nat.le_refl _, hd.mono fun table h => (fun field hf _ => h field hf trivial :
      table.Separate schema.Carries)⟩
  have hfollows : Decode.Follows schema {} ref (mergeMessage schema {} ref : Decode Bytes Empty Unit) initial :=
    Decode.follows_mergeMessage hg (Schema.unbound_of_unhandled hu initial) hsize
  have hviews : schema.ViewMoves .loose ref initial block := ((hfollows _ rfl).ok hr).views rfl
  exact ⟨by rwa [hviews.length_eq], hviews.legible_of_initialise hlaid hd hu hinit⟩

/-- What a byte string was decoded to is encoded to what is decoded again, and encoded to the same bytes
if every message on the wire is vouched for. -/
theorem reencoding_settles (hvalid : Table.validate schema ref = .ok ())
    (hslots : schema.Throughout Table.SlotsWithin ref) (hu : schema.Throughout Table.Unhandled ref)
    (hb : schema.Throughout Table.Undefaulted ref) (hd : schema.Throughout Table.Disjoint ref)
    {message wire target : Bytes} (hm : decodeBytes schema ref message start = (.ok (), block))
    (hwire : encodeToBytes schema ref block = .ok wire) (hlen : wire.length < 2 ^ 32)
    (htarget : (schema ref).size ≤ target.length) :
    ∃ after, decodeBytes schema ref wire target = (.ok (), after) ∧
      (schema.Vouched ref block → encodeToBytes schema ref after = .ok wire) := by
  have hlaid : schema.Laid (maxInitialDepth + 1) ref := Schema.laid_of_validateWithin hvalid hslots
  obtain ⟨hs, hlegible⟩ := legible_of_decodeBytes hlaid hd hu hm
  have hemits : ∀ held : Bytes, (schema ref).size ≤ held.length →
      Encode.Emits (encodeMessage schema {} ref held : Encode Bytes Empty Unit)
        (schema.wireForm {} (({} : EncodeConfig).maxDepth + 1 - 0) ref held) := fun held hle =>
    Encode.emits_messageWithin hlaid (Schema.unbound_of_unhandled hu held) _
  have hform := form_of_encodeToBytes (hemits block hs) hwire
  obtain ⟨after, hafter, hmirrors⟩ := decodeBytes_mirrors hlaid hd hu hs hlegible hwire hlen htarget
  refine ⟨after, hafter, fun hv => ?_⟩
  have hagain := hemits after hmirrors.size_le
  rw [Schema.wireForm_of_mirrors hlaid hd hu hb hv hmirrors hform] at hagain
  exact encodeToBytes_of_form hagain (by have : maxSize = 2 ^ 64 - 1 := rfl; omega)

/-- An envelope with a note in it, both without flags. -/
def envelope : Schema Bool
  | false => ⟨"Envelope", [(Field.ofStorage 1 "note" (.message true) 0 4).implicit], 4⟩
  | true => ⟨"Note", [(Field.ofStorage 1 "text" .text 0 4).implicit], 4⟩

theorem envelope_slotsWithin (ref : Bool) : envelope.Throughout Table.SlotsWithin ref :=
  Schema.throughout_of_forall (by decide) ref

theorem envelope_unhandled (ref : Bool) : envelope.Throughout Table.Unhandled ref :=
  Schema.throughout_of_forall (by decide) ref

theorem envelope_undefaulted (ref : Bool) : envelope.Throughout Table.Undefaulted ref :=
  Schema.throughout_of_forall (by decide) ref

theorem envelope_disjoint (ref : Bool) : envelope.Throughout Table.Disjoint ref :=
  Schema.throughout_of_forall (by decide) ref

/-- The note in the envelope tells its text. -/
theorem envelope_vouched : envelope.Vouched false [97, 0, 0, 0] := by
  have htells : envelope.Tells true [97, 0, 0, 0] :=
    .value List.mem_cons_self ⟨rfl, rfl⟩ nofun rfl ⟨[97], nofun, rfl⟩
  have hplain : ∀ field ∈ (envelope true).fields, ∀ inner, field.kind ≠ .message inner := by
    intro field hf inner hk
    rw [List.mem_singleton.mp hf] at hk
    cases hk
  refine .intro (fun field hf _ _ _ inner hk stored hs => ?_) fun field hf _ inner hk span stored hsends hs => ?_
  · rw [List.mem_singleton.mp hf] at hk hs
    cases hk
    cases hs
    exact htells
  · rw [List.mem_singleton.mp hf] at hk hsends
    cases hk
    exact .intro (fun field hf _ _ _ inner hk => absurd hk (hplain field hf inner))
      fun field hf _ inner hk => absurd hk (hplain field hf inner)

/-- A longer text is overwritten by a shorter one, and the note tells that one. -/
theorem reencoding_settles_envelope :
    Table.validate envelope false = .ok () ∧ envelope.Throughout Table.SlotsWithin false ∧
    envelope.Throughout Table.Unhandled false ∧ envelope.Throughout Table.Undefaulted false ∧
    envelope.Throughout Table.Disjoint false ∧
    decodeBytes envelope false [0x0a, 0x04, 0x0a, 0x02, 104, 105, 0x0a, 0x03, 0x0a, 0x01, 97]
      (Bytes.zeros 4) = (.ok (), [97, 0, 0, 0]) ∧
    encodeToBytes envelope false [97, 0, 0, 0] = .ok [0x0a, 0x03, 0x0a, 0x01, 97] ∧
    envelope.Vouched false [97, 0, 0, 0] ∧
    ∃ after, decodeBytes envelope false [0x0a, 0x03, 0x0a, 0x01, 97] (Bytes.zeros 4) = (.ok (), after) ∧
      encodeToBytes envelope false after = .ok [0x0a, 0x03, 0x0a, 0x01, 97] := by
  have hvalid : Table.validate envelope false = .ok () := rfl
  have hm : decodeBytes envelope false
      [0x0a, 0x04, 0x0a, 0x02, 104, 105, 0x0a, 0x03, 0x0a, 0x01, 97] (Bytes.zeros 4) =
        (.ok (), [97, 0, 0, 0]) := by cbv
  have hwire : encodeToBytes envelope false [97, 0, 0, 0] = .ok [0x0a, 0x03, 0x0a, 0x01, 97] := by cbv
  obtain ⟨after, hafter, hagain⟩ := reencoding_settles hvalid (envelope_slotsWithin false)
    (envelope_unhandled false) (envelope_undefaulted false) (envelope_disjoint false) hm hwire
    (show 5 < 2 ^ 32 by omega) (Nat.le_of_eq (Bytes.length_zeros 4).symm)
  exact ⟨hvalid, envelope_slotsWithin false, envelope_unhandled false, envelope_undefaulted false,
    envelope_disjoint false, hm, hwire, envelope_vouched, after, hafter, hagain envelope_vouched⟩

/-- An empty text has overwritten the note, which is present for what is left of the longer one. It is
encoded as an empty note, and that is decoded to one that is not present. -/
theorem reencoding_drops_note :
    Table.validate envelope false = .ok () ∧ envelope.Throughout Table.SlotsWithin false ∧
    envelope.Throughout Table.Unhandled false ∧ envelope.Throughout Table.Undefaulted false ∧
    envelope.Throughout Table.Disjoint false ∧
    decodeBytes envelope false [0x0a, 0x04, 0x0a, 0x02, 104, 105, 0x0a, 0x02, 0x0a, 0x00]
      (Bytes.zeros 4) = (.ok (), [0, 105, 0, 0]) ∧
    encodeToBytes envelope false [0, 105, 0, 0] = .ok [0x0a, 0x00] ∧
    decodeBytes envelope false [0x0a, 0x00] (Bytes.zeros 4) = (.ok (), Bytes.zeros 4) ∧
    encodeToBytes envelope false (Bytes.zeros 4) = .ok [] :=
  ⟨rfl, envelope_slotsWithin false, envelope_unhandled false, envelope_undefaulted false,
    envelope_disjoint false, by cbv, by cbv, by cbv, by cbv⟩

end BlockCodec
