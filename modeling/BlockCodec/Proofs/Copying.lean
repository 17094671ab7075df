import BlockCodec.Proofs.Restoring

/-!
# Copying fields

Reading the form of a field of a clean block into a block that is still zero there copies the places
that the field uses, and leaves the others as they are: `Bytes.Copies`. This is shown for a value in
its place, for the only value of a field, and for the elements of an array one after the other.
-/

namespace BlockCodec

variable {Ref S : Type} {schema : Schema Ref} {ref : Ref} {levels size : Nat} {field : Field Ref}
  {block before middle after stored content : Bytes} {span : Span} {place : Nat}

namespace Bytes

/-- The places are as in `source` afterwards, and the others as they were. -/
structure Copies (places : Nat → Prop) (source before after : Bytes) : Prop where
  copied : AgreeOn places source after
  kept : AgreeOn (fun place => ¬places place) before after

variable {source : Bytes} {places more : Nat → Prop}

theorem Copies.length_eq (h : Copies places source before after) : after.length = before.length :=
  h.kept.1.symm

theorem copies_refl (hl : source.length = before.length) (h : ∀ place, ¬places place) :
    Copies places source before before :=
  ⟨⟨hl, fun place hp => absurd hp (h place)⟩, .refl _ _⟩

theorem Copies.trans (h : Copies places source before middle) (h' : Copies more source middle after) :
    Copies (fun place => places place ∨ more place) source before after := by
  refine ⟨⟨h'.copied.1, fun place hp => ?_⟩, ⟨h.kept.1.trans h'.kept.1, fun place hp => ?_⟩⟩
  · by_cases hm : more place
    · exact h'.copied.2 place hm
    · rw [h.copied.2 place (hp.resolve_right hm), h'.kept.2 place hm]
  · obtain ⟨hp, hm⟩ := not_or.mp hp
    rw [h.kept.2 place hp, h'.kept.2 place hm]

theorem Copies.congr (h : Copies places source before after)
    (hiff : ∀ place, more place ↔ places place) : Copies more source before after := by
  obtain rfl : more = places := funext fun place => propext (hiff place)
  exact h

theorem agreeOn_of_slice (hl : block.length = after.length) (hb : block.slice? span = some stored)
    (ha : after.slice? span = some stored) : AgreeOn (· ∈ span) block after := by
  refine ⟨hl, fun place hp => ?_⟩
  have hstop := start_add_length_slice hb
  simp only [Span.mem_iff] at hp
  have hplace : span.start + (place - span.start) = place := by omega
  rw [← hplace, ← byte_slice hb (by omega), byte_slice ha (by omega)]

theorem copies_overwrite (hl : source.length = before.length) (hs : source.slice? span = some stored)
    {held : Bytes} (hb : before.slice? span = some held) :
    Copies (· ∈ span) source before (overwrite before span.start stored) := by
  have hlen : stored.length = held.length := (length_slice hs).trans (length_slice hb).symm
  refine ⟨agreeOn_of_slice ?_ hs (slice_overwrite_self hb hlen), agreeOn_overwrite hb hlen⟩
  rw [length_overwrite_slice hb hlen, hl]

end Bytes

-- ---------------------------------------------------------------------------
-- Slots
-- ---------------------------------------------------------------------------

theorem Field.Laid.agreeOn_slot (h : field.Laid schema size) (hs : size ≤ block.length)
    (hl : block.length = after.length) {value : Nat} (hb : field.slot block = .ok value)
    (ha : field.slot after = .ok value) : Bytes.AgreeOn field.slotPlaces block after := by
  have hsome := sizeOffset_isSome_of_slot hb
  obtain ⟨slot, a, ho, hslice, hlen, heq⟩ := h.slot_ok hs hsome
  obtain ⟨_, b, ho', hslice', hlen', heq'⟩ := h.slot_ok (hl ▸ hs) hsome
  obtain rfl : slot = _ := Option.some.inj (ho.symm.trans ho')
  rw [hb, Except.ok.injEq] at heq
  rw [ha, Except.ok.injEq] at heq'
  obtain rfl : a = b := by
    rw [← Bytes.littleEndian_ofLittleEndian a, ← Bytes.littleEndian_ofLittleEndian b, ← heq, ← heq',
      hlen, hlen']
  refine (Bytes.agreeOn_of_slice hl hslice hslice').mono fun place hp => ?_
  exact (slotPlaces_iff ho).mp hp

theorem Field.Laid.copies_setSlot (h : field.Laid schema size) (hs : size ≤ block.length)
    (hl : block.length = before.length) {value : Nat} (hb : field.slot block = .ok value)
    (hr : (Edit.setSlot field value).result before = (.ok (), after)) :
    Bytes.Copies field.slotPlaces block before after := by
  have hkept := Edit.touches_setSlot.agree hr
  have hslot := h.slot_setSlot (hl ▸ hs) hr
  rw [Nat.mod_eq_of_lt (h.slot_lt hs hb)] at hslot
  exact ⟨h.agreeOn_slot hs (hl.trans hkept.1) hb hslot, hkept⟩

theorem Field.Laid.slot_of_zero (h : field.Laid schema size) (hs : size ≤ block.length)
    (ho : field.sizeOffset.isSome) (hz : ∀ place, field.slotPlaces place → block.byte place = 0) :
    field.slot block = .ok 0 := by
  obtain ⟨slot, stored, hslot, hslice, -⟩ := h.slot_ok hs ho
  have hzeros := Bytes.slice_eq_zeros hslice fun place hp => hz place ((slotPlaces_iff hslot).mpr hp)
  rw [Bytes.length_slice hslice] at hzeros
  exact slot_of_zeros hslot (hzeros ▸ hslice)

-- ---------------------------------------------------------------------------
-- Fields that are present
-- ---------------------------------------------------------------------------

namespace Field

theorem slice_of_load (h : field.load span block = .ok stored) : block.slice? span = some stored := by
  unfold load at h
  split at h
  · next held hs => rwa [← Except.ok.inj h]
  · cases h

theorem load_of_slice (h : block.slice? span = some stored) : field.load span block = .ok stored := by
  rw [load, h]

/-- The field is present and uses the place. -/
def Occupies (field : Field Ref) (block : Bytes) (place : Nat) : Prop :=
  field.isPresent block = .ok true ∧ field.Uses block place

theorem occupies_iff (hm : field.multiplicity ≠ .repeated) (h : field.isPresent block = .ok true)
    (hp : field.Place .strict block field.data) :
    field.Occupies block place ↔ field.slotPlaces place ∨ place ∈ field.data := by
  constructor
  · rintro ⟨-, hslot | ⟨span, hspan, hin⟩⟩
    · exact .inl hslot
    · cases hspan with
      | single | active => exact .inr hin
      | element hrep => exact absurd hrep hm
  · rintro (hslot | hin)
    · exact ⟨h, .inl hslot⟩
    · exact ⟨h, .inr ⟨field.data, hp, hin⟩⟩

/-- A value that is not all zeros says something. -/
theorem isNonzero_of_canonical (hc : field.Canonical stored) (hl : stored.length < 2 ^ 32)
    (hne : stored ≠ Bytes.zeros stored.length) : field.isNonzero stored = .ok true := by
  unfold isNonzero
  split
  · next hk =>
    simp only [Canonical, hk] at hc
    obtain ⟨payload, count, rfl⟩ := hc
    simp only [List.length_append, Bytes.length_littleEndian, Bytes.length_zeros] at hl
    cases payload with
    | nil => simp [Bytes.littleEndian_zero, Bytes.zeros, List.replicate_succ] at hne
    | cons first payload =>
      rw [Decode.payload_append (by omega)]
      rfl
  · next hk =>
    simp only [Canonical, hk] at hc
    obtain ⟨text, hnul, count, rfl⟩ := hc
    generalize Bytes.ofText text = bytes at hnul hne
    cases bytes with
    | nil => simp [Bytes.length_zeros] at hne
    | cons first bytes =>
      have hfirst : first ≠ 0 := fun hz => hnul (by simp [hz])
      simpa using hfirst
  · have hz : Bytes.isZero stored = false := by
      rw [← Bool.not_eq_true, Bytes.isZero_iff_eq_zeros]
      exact hne
    rw [hz]
    rfl

/-- A slot that is not all zeros. -/
theorem Laid.slot_of_byte (h : field.Laid schema size) (hs : size ≤ block.length)
    (hp : field.slotPlaces place) (hne : block.byte place ≠ 0) :
    ∃ value, field.slot block = .ok value ∧ value ≠ 0 := by
  have ho : field.sizeOffset.isSome := by
    obtain ⟨slot, hslot, -⟩ := hp
    simpa [sizeSlot?] using Option.isSome_iff_exists.mpr ⟨slot, hslot⟩
  obtain ⟨slot, stored, hslot, hslice, -, hvalue⟩ := h.slot_ok hs ho
  refine ⟨_, hvalue, fun hz => hne ?_⟩
  have hzeros := Bytes.littleEndian_ofLittleEndian stored
  rw [hz, Bytes.littleEndian_zero] at hzeros
  rw [← hzeros] at hslice
  exact Bytes.byte_of_slice_zeros hslice ((slotPlaces_iff hslot).mp hp)

/-- A value in use that is not all zeros is that of a field that is present. -/
theorem Laid.present_of_place (h : field.Laid schema size) (hs : size ≤ block.length)
    (hp : field.Place .strict block span) (hst : block.slice? span = some stored)
    (hc : field.Canonical stored) (hl : stored.length < 2 ^ 32)
    (hne : stored ≠ Bytes.zeros stored.length) : field.isPresent block = .ok true := by
  cases hp with
  | active hm ha => rw [isPresent_of_tag (by simp [group?, hm]) ha, beq_self_eq_true]
  | element hm hi hu =>
    obtain ⟨count, hcount, hlt⟩ := hu rfl
    simpa [isPresent_of_count hm hcount] using Nat.zero_lt_of_lt hlt
  | single hm hu =>
    rcases hm with hm | hm
    · exact isPresent_of_required hm
    · cases ho : field.sizeOffset with
      | some offset =>
        obtain ⟨_, _, -, -, -, hvalue⟩ := h.slot_ok hs (by simp [ho])
        simpa [isPresent_of_flag hm hvalue] using hu rfl hm _ hvalue
      | none => rw [isPresent_of_storage hm ho hst, isNonzero_of_canonical hc hl hne]

end Field

-- ---------------------------------------------------------------------------
-- Arrays that are filled
-- ---------------------------------------------------------------------------

namespace Field

/-- The place is in one of the first elements. -/
def inElements (field : Field Ref) (count place : Nat) : Prop :=
  ∃ index < count, place ∈ field.element index

/-- The first elements of an array are those of `block`; all else but the count is as before. -/
structure Filled (field : Field Ref) (block before : Bytes) (count : Nat) (after : Bytes) : Prop where
  slot : field.slot after = .ok count
  copied : Bytes.AgreeOn (field.inElements count) block after
  kept : Bytes.AgreeOn (fun place => ¬field.slotPlaces place ∧ ¬field.inElements count place)
    before after

variable {count : Nat}

theorem filled_zero (hl : block.length = before.length) (hslot : field.slot before = .ok 0) :
    field.Filled block before 0 before :=
  ⟨hslot, ⟨hl, by rintro _ ⟨_, hi, -⟩; omega⟩, .refl _ _⟩

theorem Fits.mem_storage_of_element (h : field.Fits schema size)
    (hm : field.multiplicity = .repeated) {index : Nat} (hi : index < field.capacity)
    (hp : place ∈ field.element index) : place ∈ field.storage := by
  have hplace : field.Place .loose [] (field.element index) := loose_element hm hi
  exact h.mem_storage hplace hp

theorem Fits.not_inElements (h : field.Fits schema size) (hm : field.multiplicity = .repeated)
    (hc : count < field.capacity) (hp : place ∈ field.element count) :
    ¬field.inElements count place := by
  rintro ⟨index, hi, hin⟩
  have hplaces : field.places = field.capacity := by simp [places, isRepeated, hm]
  rw [h.element_eq (by omega), Span.mem_iff] at hp hin
  have hle := Nat.mul_le_mul_right field.dataSize hi
  rw [Nat.succ_mul] at hle
  simp only at hp hin
  omega

/-- An element that has been written is counted; the other elements and what is no place of the field stay
as they were. -/
theorem Laid.count_element (hlaid : field.Laid schema size) (hself : field.spans.Pairwise Span.Apart)
    (hm : field.multiplicity = .repeated) (hs : size ≤ block.length) (hc : count < field.capacity)
    (hword : count + 1 < 2 ^ 32) {held content : Bytes}
    (hheld : block.slice? (field.element count) = some held) (hl : content.length = held.length) :
    ∃ final, (Edit.setSlot field (count + 1)).result
        (Bytes.overwrite block (field.element count).start content) = (.ok (), final) ∧
      field.slot final = .ok (count + 1) ∧ Bytes.AgreeOn (fun place => ¬field.extent place) block final ∧
      final.slice? (field.element count) = some content ∧
      ∀ index < field.capacity, index ≠ count →
        final.slice? (field.element index) = block.slice? (field.element index) := by
  have hh := hlaid.inBlock
  have hplaces : field.places = field.capacity := by simp [places, isRepeated, hm]
  have hfilled := Bytes.agreeOn_overwrite hheld hl
  have hsize : size ≤ (Bytes.overwrite block (field.element count).start content).length := by
    rwa [← hfilled.1]
  obtain ⟨final, _, hr, hrest, -⟩ :=
    hlaid.setSlot_ok hsize (hlaid.slot_isSome (.inl (by simp [isRepeated, hm]))) (count + 1)
  have hslice : ∀ index < field.capacity, final.slice? (field.element index) =
      Bytes.slice? (Bytes.overwrite block (field.element count).start content) (field.element index) :=
    fun index hi => (hrest.slice fun place hin =>
      not_slotPlaces_of_storage hh hself (hlaid.mem_storage_of_element hm hi hin)).symm
  refine ⟨final, hr, hlaid.word_setSlot hsize (by simp [hm]) hword hr, ?_, ?_, fun index hi hne => ?_⟩
  · refine (hfilled.mono fun place hp hin => hp ?_).trans
      (hrest.mono fun place hp hin => hp (extent_of_slotPlaces hh hin))
    exact extent_of_storage hh (hlaid.mem_storage_of_element hm hc hin)
  · rw [hslice count hc]
    exact Bytes.slice_overwrite_self hheld hl
  · rw [hslice index hi]
    exact (hfilled.slice fun place hin => Span.apart_iff.mp
      (hlaid.element_apart (by omega) (by omega) hne) place hin).symm

/-- One more element. -/
theorem Filled.step (hf : field.Filled block before count middle) (h : field.Laid schema size)
    (hm : field.multiplicity = .repeated) (hc : count < field.capacity)
    (hs : size ≤ block.length) (hword : count + 1 < 2 ^ 32)
    (hself : ∀ place ∈ field.storage, ¬field.slotPlaces place) {last : Bytes}
    (hcopy : Bytes.Copies (· ∈ field.element count) block middle after)
    (hr : (Edit.setSlot field (count + 1)).result after = (.ok (), last)) :
    field.Filled block before (count + 1) last := by
  have hkept := Edit.touches_setSlot.agree hr
  have hlen : after.length = block.length := hcopy.copied.1.symm
  have hslot := h.word_setSlot (hlen ▸ hs) (by simp [hm]) hword hr
  refine ⟨hslot, ⟨hlen ▸ hkept.1, ?_⟩, hf.kept.1.trans (hcopy.kept.1.trans hkept.1), ?_⟩
  · rintro place ⟨index, hi, hin⟩
    have hstorage := h.mem_storage_of_element hm (by omega) hin
    rw [← hkept.2 place (hself place hstorage)]
    by_cases heq : place ∈ field.element count
    · exact hcopy.copied.2 place heq
    · rw [← hcopy.kept.2 place heq]
      refine hf.copied.2 place ⟨index, ?_, hin⟩
      rcases Nat.lt_or_eq_of_le (Nat.le_of_lt_succ hi) with hlt | rfl
      · exact hlt
      · exact absurd hin heq
  · rintro place ⟨hns, hne⟩
    have hnot : place ∉ field.element count := fun hin => hne ⟨count, Nat.lt_succ_self _, hin⟩
    have hfewer : ¬field.inElements count place := by
      rintro ⟨index, hi, hin⟩
      exact hne ⟨index, Nat.lt_succ_of_lt hi, hin⟩
    rw [hf.kept.2 place ⟨hns, hfewer⟩, hcopy.kept.2 place hnot, hkept.2 place hns]

/-- An array with all its elements is copied. -/
theorem Filled.copies (hf : field.Filled block before count after) (h : field.Laid schema size)
    (hm : field.multiplicity = .repeated) (hs : size ≤ block.length) (hl : after.length = block.length)
    (hslot : field.slot block = .ok count) (hpos : 0 < count) (hle : count ≤ field.capacity) :
    Bytes.Copies (field.Occupies block) block before after := by
  have hpresent : field.isPresent block = .ok true := by
    simpa [isPresent_of_count hm hslot] using hpos
  have hiff : ∀ place, field.Occupies block place ↔
      field.slotPlaces place ∨ field.inElements count place := by
    intro place
    constructor
    · rintro ⟨-, hs | ⟨span, hspan, hin⟩⟩
      · exact .inl hs
      · cases hspan with
        | single hone => simp [hm] at hone
        | active hone => simp [hm] at hone
        | element _ hi hu =>
          obtain ⟨held, hheld, hlt⟩ := hu rfl
          rw [hslot, Except.ok.injEq] at hheld
          exact .inr ⟨_, by omega, hin⟩
    · rintro (hs | ⟨index, hi, hin⟩)
      · exact ⟨hpresent, .inl hs⟩
      · exact ⟨hpresent, .inr ⟨_, .element hm (by omega) fun _ => ⟨count, hslot, hi⟩, hin⟩⟩
  refine ⟨⟨hl.symm, fun place hp => ?_⟩, hf.kept.mono fun place hp => ?_⟩
  · rcases (hiff place).mp hp with hs' | hin
    · exact (h.agreeOn_slot hs hl.symm hslot hf.slot).2 place hs'
    · exact hf.copied.2 place hin
  · exact not_or.mp fun hor => hp ((hiff place).mpr hor)

end Field

namespace Decode

-- ---------------------------------------------------------------------------
-- A value in its place
-- ---------------------------------------------------------------------------

variable {config : DecodeConfig} {forms : Ref → Bytes → Except CodecError Bytes}
  {nested : Ref → Decode Bytes S Unit} {last : Prop}

/-- A clean block whose form is to be read back, given that the messages inside it are. -/
structure Restorable (schema : Schema Ref) (forms : Ref → Bytes → Except CodecError Bytes)
    (nested : Ref → Decode Bytes S Unit) (levels : Nat) (ref : Ref) (block : Bytes) : Prop where
  bare : schema.Bare (levels + 1) ref
  levels_le : levels ≤ maxInitialDepth
  clean : schema.Clean ref block
  size_le : (schema ref).size ≤ block.length
  inner : ∀ field ∈ (schema ref).fields, ∀ inner, field.kind = .message inner →
    ∀ span stored payload, field.Place .strict block span → block.slice? span = some stored →
      forms inner stored = .ok payload → payload.length < 2 ^ 32 →
      Restores True (nested inner) payload (Bytes.zeros stored.length) () stored

variable (h : Restorable schema forms nested levels ref block) (hf : field ∈ (schema ref).fields)

include h hf

theorem Restorable.keeps : field.Keeps (.clean schema) (schema ref) block :=
  (Schema.holds_iff.mp h.clean.holds field hf (h.bare.undefaulted.here field hf)).keeps

theorem Restorable.slice_zeros (hl : block.length = before.length)
    (hp : field.Place .strict block span) (hst : block.slice? span = some stored)
    (hz : ∀ place ∈ span, before.byte place = 0) :
    before.slice? span = some (Bytes.zeros field.dataSize) := by
  obtain ⟨held, hheld⟩ := Bytes.slice_isSome (hl ▸ Bytes.within_of_slice hst)
  rw [hheld, Bytes.slice_eq_zeros hheld hz, Bytes.length_slice hheld, ← Bytes.length_slice hst,
    (h.bare.fieldLaid hf).length_place hp hst]

theorem Restorable.dataSize_lt : field.dataSize < 2 ^ 32 := by
  have hlaid := h.bare.fieldLaid hf
  have hle := hlaid.storage_le
  have hone := Field.element_le hlaid.places_pos
  have hshort := h.bare.short
  omega

/-- What follows the header of a value in use restores its storage. -/
theorem Restorable.value (hp : field.Place .strict block span)
    (hst : block.slice? span = some stored) (hform : field.bodyForm forms stored = .ok content)
    (hshort : content.length < 2 ^ 32) :
    Restores last (value config nested field) content (Bytes.zeros field.dataSize) () stored := by
  have hlaid := h.bare.fieldLaid hf
  have hlen := hlaid.length_place hp hst
  have hc := ((h.keeps hf).value hlaid.inBlock span stored hp.loosen hst).1
  refine restores_value hlaid.suits (h.dataSize_lt hf) hlen hc hform hshort fun inner payload hk hi hl => ?_
  rw [← hlen]
  exact h.inner field hf inner hk span stored payload hp hst hi hl

/-- What is restored in a place that is zero is copied there. -/
theorem Restorable.inside (hl : block.length = before.length) (hp : field.Place .strict block span)
    (hst : block.slice? span = some stored) (hz : ∀ place ∈ span, before.byte place = 0) :
    ∃ after, Bytes.Copies (· ∈ span) block before after ∧ ∀ step : Decode Bytes S Unit,
      Restores last step content (Bytes.zeros field.dataSize) () stored →
        Restores last (inside field span step) content before () after := by
  have hheld := h.slice_zeros hf hl hp hst hz
  exact ⟨_, Bytes.copies_overwrite hl hst hheld, fun step hr => hr.inside hheld⟩

-- ---------------------------------------------------------------------------
-- Single fields
-- ---------------------------------------------------------------------------

/-- A member of a group that is made active in zeros: its tag is copied and nothing else changes. -/
theorem Restorable.activate (hl : block.length = before.length) (hg : field.group?.isSome)
    (hactive : field.slot block = .ok field.tag)
    (hz : ∀ place, Schema.groupPlaces (schema ref) field place → before.byte place = 0) :
    ∃ after, (schema.activate (schema ref) field).result before = (.ok (), after) ∧
      Bytes.Copies field.slotPlaces block before after := by
  have hlaid := h.bare.fieldLaid hf
  have hh := hlaid.inBlock
  obtain ⟨after, hr⟩ :=
    Schema.activate_ok h.bare.laid h.levels_le (hl ▸ h.size_le) hf hh
  have hkept := (Schema.touches_activate hf hh hg).agree hr
  have hslot := Schema.slot_activate hlaid (hl ▸ h.size_le) hg (h.bare.laid.here.tag_le field hf) hr
  refine ⟨after, hr, hlaid.agreeOn_slot h.size_le (hl.trans hkept.1) hactive hslot, hkept.1,
    fun place hp => ?_⟩
  by_cases hgroup : Schema.groupPlaces (schema ref) field place
  · rw [hz place hgroup, Schema.byte_activate h.bare hf hg hr hgroup hp]
  · exact hkept.2 place hgroup

/-- The form of a single field copies the field. -/
theorem Restorable.single (hl : block.length = before.length) (hm : field.multiplicity ≠ .repeated)
    (hp : field.isPresent block = .ok true) (hst : block.slice? field.data = some stored)
    (hform : field.bodyForm forms stored = .ok content) (hshort : content.length < 2 ^ 32)
    (hz : ∀ place, field.extent place → before.byte place = 0)
    (hzg : field.group?.isSome →
      ∀ place, Schema.groupPlaces (schema ref) field place → before.byte place = 0)
    (type : WireType) :
    ∃ after, Restores False (Decode.stored schema config nested (schema ref) field type) content
      before () after ∧ Bytes.Copies (field.Occupies block) block before after := by
  have hlaid := h.bare.fieldLaid hf
  have hplace := Field.place_of_present hm hp
  have hdata : ∀ place ∈ field.data, before.byte place = 0 := fun place hin =>
    hz place (Field.extent_of_data hm hin)
  have hvalue : ∀ start : Bytes, block.length = start.length →
      (∀ place ∈ field.data, start.byte place = 0) → ∃ after,
        Restores False (Decode.inside field field.data (Decode.value config nested field)) content
          start () after ∧ Bytes.Copies (· ∈ field.data) block start after := by
    intro start hl hz
    obtain ⟨after, hcopy, hinside⟩ := h.inside hf hl hplace hst hz
    exact ⟨after, hinside _ (h.value hf hplace hst hform hshort), hcopy⟩
  cases hmult : field.multiplicity with
  | «repeated» => exact absurd hmult hm
  | required =>
    obtain ⟨after, hr, hc⟩ := hvalue before hl hdata
    simp only [Decode.stored, hmult]
    refine ⟨after, hr, hc.congr fun place => (Field.occupies_iff hm hp hplace).trans ?_⟩
    simp [Field.slotPlaces, Field.sizeSlot?, h.bare.tidy.here field hf hmult]
  | optional =>
    obtain ⟨middle, hr, hc⟩ := hvalue before hl hdata
    simp only [Decode.stored, hmult]
    by_cases ho : field.sizeOffset.isSome
    · obtain ⟨flag, hflag, hne⟩ := Field.flag_of_present hmult ho hp
      have hle := ((h.keeps hf).slot hlaid.inBlock flag hflag).2 hmult
      obtain rfl : flag = 1 := by omega
      have hlen := hc.length_eq
      have hsize : (schema ref).size ≤ middle.length := by
        rw [hlen, ← hl]
        exact h.size_le
      obtain ⟨after, -, hset, -⟩ := hlaid.setSlot_ok hsize ho 1
      have hcs := hlaid.copies_setSlot h.size_le (by rw [hlen, hl]) hflag hset
      refine ⟨after, hr.thenEdit ?_, (hc.trans hcs).congr fun place => ?_⟩
      · rw [if_pos ho]
        exact restores_onBlock hset
      · exact (Field.occupies_iff hm hp hplace).trans or_comm
    · have hslot : ∀ place, ¬field.slotPlaces place := by
        rintro place ⟨slot, hslot, -⟩
        cases hoff : field.sizeOffset with
        | none => simp [Field.sizeSlot?, hoff] at hslot
        | some offset => simp [hoff] at ho
      refine ⟨middle, hr.thenEdit ?_, hc.congr fun place => ?_⟩
      · rw [if_neg ho]
        exact restores_pure () _
      · exact (Field.occupies_iff hm hp hplace).trans (or_iff_right (hslot place))
  | oneof group =>
    have hg : field.group?.isSome := by simp [Field.group?, hmult]
    have hactive := Field.active_of_present hmult hp
    have hslot := hlaid.slot_of_zero (hl ▸ h.size_le) (Field.sizeOffset_isSome_of_slot hactive)
      fun place hs => hz place (Field.extent_of_slotPlaces hlaid.inBlock hs)
    obtain ⟨middle, hact, hcs⟩ := h.activate hf hl hg hactive (hzg hg)
    have hclear : ∀ place ∈ field.data, middle.byte place = 0 := by
      intro place hin
      have hkept := hcs.kept.2 place (h.bare.not_slotPlaces hf hf (by rwa [Field.storage_eq_data hm]))
      rw [← hkept]
      exact hdata place hin
    obtain ⟨after, hr, hc⟩ := hvalue middle (by rw [hcs.length_eq, hl]) hclear
    have hpos := h.bare.laid.here.tag_pos field hf
    simp only [Decode.stored, hmult]
    refine ⟨after, Restores.afterEdit (restores_ask hslot) ?_, (hcs.trans hc).congr fun place =>
      Field.occupies_iff hm hp hplace⟩
    rw [if_pos (by omega)]
    exact Restores.afterEdit (restores_onBlock hact) hr

-- ---------------------------------------------------------------------------
-- Elements
-- ---------------------------------------------------------------------------

variable {count total : Nat}

omit h hf in
theorem restores_nextElement (hslot : field.slot before = .ok count) (hc : count < field.capacity) :
    Restores last (nextElement field : Decode Bytes S Nat) [] before count before :=
  Restores.afterEdit (restores_ask hslot) (restores_unless (by omega) (restores_pure count before))

theorem Restorable.total_le (hm : field.multiplicity = .repeated)
    (htotal : field.slot block = .ok total) : total ≤ field.capacity := by
  have hsound := ((h.keeps hf).slot (h.bare.fieldLaid hf).inBlock total htotal).1
  simpa only [Discipline.sound, hm] using hsound

/-- An element that has been copied is counted. -/
theorem Restorable.claim (hm : field.multiplicity = .repeated) (htotal : field.slot block = .ok total)
    (hfilled : field.Filled block before count middle) (hc : count < total)
    (hcopy : Bytes.Copies (· ∈ field.element count) block middle after) :
    ∃ final, (Edit.setSlot field (count + 1)).result after = (.ok (), final) ∧
      field.Filled block before (count + 1) final := by
  have hlaid := h.bare.fieldLaid hf
  have hle := h.total_le hf hm htotal
  have hword := hlaid.slot_lt h.size_le htotal
  simp only [Field.slotSize, hm, reduceCtorEq, if_false] at hword
  obtain ⟨final, -, hset, -⟩ := hlaid.setSlot_ok (hcopy.copied.1 ▸ h.size_le)
    (Field.sizeOffset_isSome_of_slot htotal) (count + 1)
  exact ⟨final, hset, hfilled.step hlaid hm (by omega) h.size_le (by omega)
    (fun place => h.bare.not_slotPlaces hf hf) hcopy hset⟩

/-- The next element of an array that is filled in zeros is zero. -/
theorem Restorable.byte_next (hm : field.multiplicity = .repeated)
    (hfilled : field.Filled block before count middle) (hc : count < field.capacity)
    (hz : ∀ place, field.extent place → before.byte place = 0) :
    ∀ place ∈ field.element count, middle.byte place = 0 := by
  intro place hin
  have hlaid := h.bare.fieldLaid hf
  have hstorage := hlaid.mem_storage_of_element hm hc hin
  rw [← hfilled.kept.2 place ⟨h.bare.not_slotPlaces hf hf hstorage, hlaid.not_inElements hm hc hin⟩]
  exact hz place (Field.extent_of_storage hlaid.inBlock hstorage)

/-- An element that is not packed. -/
theorem Restorable.element (hm : field.multiplicity = .repeated)
    (htotal : field.slot block = .ok total) (hc : count < total)
    (hst : block.slice? (field.element count) = some stored)
    (hform : field.bodyForm forms stored = .ok content) (hshort : content.length < 2 ^ 32)
    (hz : ∀ place, field.extent place → before.byte place = 0)
    (hfilled : field.Filled block before count middle) :
    ∃ after, Restores last (Decode.element schema config nested field) content middle () after ∧
      field.Filled block before (count + 1) after := by
  have hcap : count < field.capacity := Nat.lt_of_lt_of_le hc (h.total_le hf hm htotal)
  have hplace : field.Place .strict block (field.element count) :=
    .element hm hcap fun _ => ⟨total, htotal, hc⟩
  have hvalue : Restores False (Decode.value config nested field) content
      (Bytes.zeros field.dataSize) () stored := h.value hf hplace hst hform hshort
  have hbytes := h.byte_next hf hm hfilled hcap hz
  have hl := hfilled.copied.1
  have hfresh : ∀ inner, field.kind = .message inner →
      (schema.initialise inner).result (Bytes.zeros field.dataSize) =
        (.ok (), Bytes.zeros field.dataSize) := fun inner hk =>
    (h.bare.below hf hk).initialise_zeros (Nat.le_succ_of_le h.levels_le)
      (Nat.le_of_eq ((h.bare.fieldLaid hf).dataSize_of_message hk).symm)
  obtain ⟨after, hcopy, hinside⟩ : ∃ after,
      Bytes.Copies (· ∈ field.element count) block middle after ∧ ∀ step : Decode Bytes S Unit,
        Restores False step content (Bytes.zeros field.dataSize) () stored →
          Restores False (Decode.inside field (field.element count) step) content middle () after :=
    h.inside hf hl hplace hst hbytes
  obtain ⟨final, hset, hdone⟩ := h.claim hf hm htotal hfilled hc hcopy
  refine ⟨final, Restores.afterEdit (restores_nextElement hfilled.slot hcap)
    ((hinside _ ?_).thenEdit (restores_onBlock hset)), hdone⟩
  generalize Decode.value config nested field = step at hvalue ⊢
  split
  · next inner hk => exact Restores.afterEdit (restores_onBlock (hfresh inner hk)) hvalue
  · exact hvalue

omit h hf in
theorem length_scalarForm_pos (hk : field.kind.isScalar = true) (value : Scalar) :
    0 < (field.scalarForm value).length := by
  have hvarint : ∀ value, 0 < (Varint.encode value).length := fun value => by
    rw [Varint.length_encode]
    exact Nat.succ_pos _
  unfold Field.scalarForm
  split <;> simp_all [Kind.isScalar, Bytes.length_littleEndian]

/-- The numbers of a packed array. -/
theorem Restorable.packedElements (hm : field.multiplicity = .repeated)
    (hk : field.kind.isScalar = true) (htotal : field.slot block = .ok total)
    (hz : ∀ place, field.extent place → before.byte place = 0) {left room : Nat}
    (hform : field.elementForms (fun stored =>
      .ok (field.scalarForm (field.kind.loadScalar stored))) block count left = .ok content)
    (hsum : count + left = total) (hroom : content.length ≤ room)
    (hfilled : field.Filled block before count middle) :
    ∃ after, Restores True (Decode.packedElements field room : Decode Bytes S Unit) content middle ()
      after ∧ field.Filled block before total after := by
  have hlaid := h.bare.fieldLaid hf
  induction left generalizing count room content middle with
  | zero =>
    simp only [Field.elementForms, Except.ok.injEq] at hform
    obtain rfl := hform
    obtain rfl : count = total := by omega
    refine ⟨middle, ?_, hfilled⟩
    cases room with
    | zero => exact restores_pure () middle
    | succ room =>
      refine restores_get fun state _ _ hlast => ?_
      rw [if_pos (by simpa [Input.isExhausted] using hlast trivial)]
      exact restores_pure () middle
  | succ left ih =>
    simp only [Field.elementForms, bind_eq_ok, pure_eq_ok, Except.ok.injEq] at hform
    obtain ⟨stored, hload, first, hfirst, others, hothers, rfl⟩ := hform
    have hc : count < total := by omega
    have hcap : count < field.capacity := Nat.lt_of_lt_of_le hc (h.total_le hf hm htotal)
    have hplace : field.Place .strict block (field.element count) :=
      .element hm hcap fun _ => ⟨total, htotal, hc⟩
    have hst := Field.slice_of_load hload
    have hl := hfilled.copied.1
    have hheld := h.slice_zeros hf hl hplace hst (h.byte_next hf hm hfilled hcap hz)
    have hcanonical := ((h.keeps hf).value hlaid.inBlock _ stored hplace.loosen hst).1
    obtain ⟨value, hread, hstore⟩ :=
      Field.reads_readScalar hk hlaid.suits (hlaid.length_place hplace hst) hcanonical
    have hwrite : (Edit.change field (field.element count)
        fun stored => field.kind.storeScalar stored value).result middle =
          (.ok (), Bytes.overwrite middle (field.element count).start stored) := by
      rw [Edit.result_change hheld, hstore]
    obtain ⟨final, hset, hnext⟩ :=
      h.claim hf hm htotal hfilled hc (Bytes.copies_overwrite hl hst hheld)
    have hpos := length_scalarForm_pos hk (field.kind.loadScalar stored)
    rw [hfirst] at hpos hread
    rw [List.length_append] at hroom
    obtain ⟨room, rfl⟩ : ∃ n, room = n + 1 := ⟨room - 1, by omega⟩
    obtain ⟨after, hrest, hdone⟩ := ih hothers (by omega) (show others.length ≤ room by omega) hnext
    refine ⟨after, restores_get fun state _ hle _ => ?_, hdone⟩
    rw [List.length_append] at hle
    rw [if_neg (by simp [Input.isExhausted]; omega)]
    refine Restores.afterEdit (restores_nextElement hfilled.slot hcap) ?_
    refine (restores_onInput hread).bind (Restores.afterEdit (restores_onBlock hwrite) ?_)
    exact Restores.afterEdit (restores_onBlock hset) hrest

end Decode

end BlockCodec
