import BlockCodec.Proofs.Checks
import BlockCodec.Proofs.Edits

/-!
# Places of values

Where the values of a laid field are and what its slot says. A `Place` of a field is a span that
holds one value of it: the only one of a single field, the active member of a group, an element
of an array. Everything here depends on the places of the field alone, so it is the same for
blocks that agree on these.
-/

namespace BlockCodec

variable {Ref : Type} {schema : Schema Ref} {size : Nat} {field : Field Ref} {block after : Bytes}

theorem Span.ofLength_eq {start length : Nat} (h : start + length ≤ maxSize) :
    Span.ofLength start length = ⟨start, start + length⟩ := by
  simp only [Span.ofLength, clampSize, Nat.min_eq_left h]

namespace Field

-- ---------------------------------------------------------------------------
-- Spans of laid fields
-- ---------------------------------------------------------------------------

theorem element_le {index : Nat} (hi : index < field.places) :
    index * field.dataSize + field.dataSize ≤ field.dataSize * field.places := by
  have := Nat.mul_le_mul_right field.dataSize (show index + 1 ≤ field.places from hi)
  rw [Nat.mul_comm field.dataSize]
  rwa [Nat.succ_mul] at this

theorem Fits.dataSize_of_message (h : field.Fits schema size) {ref : Ref}
    (hk : field.kind = .message ref) : field.dataSize = (schema ref).size := by
  simpa only [Suits, hk] using h.suits

/-- Only messages may do without storage. -/
theorem dataSize_pos (hs : field.Suits schema) (hk : ∀ inner, field.kind ≠ .message inner) :
    0 < field.dataSize := by
  have hwidth : ∀ width : Width, 0 < width.bytes := fun width => by cases width <;> decide
  cases hkind : field.kind with
  | text => simpa only [Suits, hkind] using hs
  | bytes =>
    simp only [Suits, hkind] at hs
    omega
  | message inner => exact absurd hkind (hk inner)
  | fixed type =>
    obtain ⟨width, signed⟩ := type
    cases width <;> simp_all [Suits, Kind.scalarWidth?, Width.bytes] <;> omega
  | float width => cases width <;> simp_all [Suits, Kind.scalarWidth?, Width.bytes] <;> omega
  | _ =>
    simp only [Suits, hkind, Kind.scalarWidth?, Option.some.injEq] at hs
    rw [← hs]
    first | exact hwidth _ | decide

theorem Fits.element_eq (h : field.Fits schema size) {index : Nat} (hi : index < field.places) :
    field.element index = ⟨field.dataOffset + index * field.dataSize,
      field.dataOffset + index * field.dataSize + field.dataSize⟩ := by
  have hone := element_le hi
  have hword := h.storage_word
  have h1 : clampSize (index * field.dataSize) = index * field.dataSize :=
    Nat.min_eq_left (by omega)
  have h2 : clampSize (field.dataOffset + index * field.dataSize) =
      field.dataOffset + index * field.dataSize := Nat.min_eq_left (by omega)
  rw [element, h1, h2, Span.ofLength_eq (by omega)]

theorem Fits.data_eq (h : field.Fits schema size) :
    field.data = ⟨field.dataOffset, field.dataOffset + field.dataSize⟩ := by
  have hone := element_le h.places_pos
  have hword := h.storage_word
  exact Span.ofLength_eq (by omega)

theorem Fits.length_data (h : field.Fits schema size) : field.data.length = field.dataSize := by
  rw [h.data_eq, Span.length]
  simp only
  omega

theorem Fits.storage_eq (h : field.Fits schema size) :
    field.storage = ⟨field.dataOffset, field.dataOffset + field.dataSize * field.places⟩ := by
  have hword := h.storage_word
  unfold storage
  split
  · next hr =>
    rw [places, if_pos hr.1] at hword ⊢
    rw [array, clampSize, Nat.min_eq_left (by omega), Span.ofLength_eq hword]
  · next hr =>
    have hr : field.isRepeated = false := by simpa [h.inBlock] using hr
    rw [places, hr, if_neg (by simp), Nat.mul_one]
    exact h.data_eq

theorem Laid.sizeSlot_eq (h : field.Laid schema size) {offset : Nat}
    (ho : field.sizeOffset = some offset) :
    field.sizeSlot? = some ⟨offset, offset + field.slotSize⟩ := by
  have hw := h.slot_word offset ho
  rw [sizeSlot?, ho]
  exact congrArg some (Span.ofLength_eq hw)

/-- Elements with storage are too few to exceed what the count can say. -/
theorem Fits.capacity_lt (h : field.Fits schema size) (hm : field.multiplicity = .repeated)
    (hpos : 0 < field.dataSize) (hshort : size < 2 ^ 32) : field.capacity < 2 ^ 32 := by
  have hle := h.storage_le
  rw [places, if_pos (by simp [isRepeated, hm])] at hle
  have := Nat.le_mul_of_pos_left field.capacity hpos
  omega

theorem Fits.storage_within (h : field.Fits schema size) (hs : size ≤ block.length) :
    field.storage.Within block.length := by
  have := h.storage_le
  rw [h.storage_eq]
  constructor <;> simp only <;> omega

theorem Laid.sizeSlot_isSome (h : field.Laid schema size) (hg : field.group?.isSome) :
    ∃ slot, field.sizeSlot? = some slot := by
  obtain ⟨offset, ho⟩ := Option.isSome_iff_exists.mp (h.slot_isSome (.inr hg))
  exact ⟨_, h.sizeSlot_eq ho⟩

theorem Laid.slot_within (h : field.Laid schema size) (hs : size ≤ block.length) {slot : Span}
    (ho : field.sizeSlot? = some slot) : slot.Within block.length := by
  cases hoff : field.sizeOffset with
  | none => simp [sizeSlot?, hoff] at ho
  | some offset =>
    have := h.slot_le offset hoff
    rw [h.sizeSlot_eq hoff, Option.some.injEq] at ho
    subst ho
    constructor <;> simp only <;> omega

theorem SlotLaid.data_eq (h : field.SlotLaid size) :
    field.data = ⟨field.dataOffset, field.dataOffset + 2⟩ := by
  rw [data, h.dataSize_eq, Span.ofLength_eq h.slot_word]

theorem SlotLaid.data_within (h : field.SlotLaid size) (hs : size ≤ block.length) :
    field.data.Within block.length := by
  have := h.slot_le
  rw [h.data_eq]
  constructor <;> simp only <;> omega

theorem handlerSlot_of_zeros {count : Nat}
    (hs : block.slice? field.data = some (Bytes.zeros count)) : field.handlerSlot block = .ok 0 := by
  rw [handlerSlot, load, hs]
  simp only [bind, Except.bind, readUnsigned_zeros]
  rfl

theorem Fits.spans_eq (h : field.Fits schema size) :
    field.spans = field.storage :: field.sizeSlot?.toList := by
  rw [spans, h.inBlock, if_neg (by simp)]

theorem extent_of_storage (hh : field.isHandled = false) {place : Nat} (hp : place ∈ field.storage) :
    field.extent place :=
  ⟨field.storage, by simp [spans, hh], hp⟩

theorem extent_of_data (hm : field.multiplicity ≠ .repeated) {place : Nat} (hp : place ∈ field.data) :
    field.extent place := by
  cases hh : field.isHandled with
  | true => exact ⟨field.data, by simp [spans, hh], hp⟩
  | false =>
    refine extent_of_storage hh ?_
    simpa [storage, isRepeated, hm] using hp

theorem multiplicity_of_group (hg : field.group?.isSome) : ∃ group, field.multiplicity = .oneof group := by
  cases hm : field.multiplicity with
  | oneof group => exact ⟨group, rfl⟩
  | _ => simp [group?, hm] at hg

theorem extent_of_slotPlaces (hh : field.isHandled = false) {place : Nat}
    (hp : field.slotPlaces place) : field.extent place := by
  obtain ⟨slot, hslot, hp⟩ := hp
  exact ⟨slot, by simp [spans, hh, Option.mem_toList.mpr hslot], hp⟩

theorem extent_cases (hh : field.isHandled = false) {place : Nat} (hp : field.extent place) :
    place ∈ field.storage ∨ field.slotPlaces place := by
  obtain ⟨span, hspan, hp⟩ := hp
  simp only [spans, hh, Bool.false_eq_true, if_false, List.mem_cons, Option.mem_toList] at hspan
  obtain rfl | hslot := hspan
  · exact .inl hp
  · exact .inr ⟨span, hslot, hp⟩

theorem slotPlaces_iff {slot : Span} (ho : field.sizeSlot? = some slot) {place : Nat} :
    field.slotPlaces place ↔ place ∈ slot := by
  simp [slotPlaces, ho]

-- ---------------------------------------------------------------------------
-- Slots
-- ---------------------------------------------------------------------------

theorem slotSize_le : field.slotSize ≤ 8 := by
  unfold slotSize
  split <;> decide

theorem slot_eq {slot : Span} {stored : Bytes} (ho : field.sizeSlot? = some slot)
    (hs : block.slice? slot = some stored) : field.slot block = .ok (readUnsigned stored).toNat := by
  simp [Field.slot, sizeSlot, ho, load, hs, bind, Except.bind, pure, Except.pure]

theorem slice_of_slot {value : Nat} (h : field.slot block = .ok value) :
    ∃ slot stored, field.sizeSlot? = some slot ∧ block.slice? slot = some stored ∧
      value = (readUnsigned stored).toNat := by
  cases ho : field.sizeSlot? with
  | none => simp [Field.slot, sizeSlot, ho, bind, Except.bind] at h
  | some slot =>
    cases hs : block.slice? slot with
    | none => simp [Field.slot, sizeSlot, ho, load, hs, bind, Except.bind] at h
    | some stored =>
      rw [slot_eq ho hs, Except.ok.injEq] at h
      exact ⟨slot, stored, rfl, hs, h.symm⟩

theorem sizeOffset_isSome_of_slot {value : Nat} (h : field.slot block = .ok value) :
    field.sizeOffset.isSome := by
  obtain ⟨slot, _, ho, -⟩ := slice_of_slot h
  cases hoff : field.sizeOffset with
  | none => simp [sizeSlot?, hoff] at ho
  | some offset => rfl

theorem slot_of_zeros {slot : Span} (ho : field.sizeSlot? = some slot)
    (hs : block.slice? slot = some (Bytes.zeros slot.length)) : field.slot block = .ok 0 := by
  rw [slot_eq ho hs, readUnsigned_zeros]
  rfl

theorem slot_congr (h : Bytes.AgreeOn field.slotPlaces block after) :
    field.slot after = field.slot block := by
  cases ho : field.sizeSlot? with
  | none => simp [Field.slot, sizeSlot, ho, bind, Except.bind]
  | some slot =>
    have hs : block.slice? slot = after.slice? slot :=
      h.slice fun place hp => (slotPlaces_iff ho).mpr hp
    simp [Field.slot, sizeSlot, ho, load, hs, bind, Except.bind]

theorem SameGroup.symm {other : Field Ref} (h : field.SameGroup other) : other.SameGroup field :=
  ⟨by rw [h.2]; exact h.1, h.2.symm⟩

theorem SameGroup.sizeSlot_eq {other : Field Ref} (h : field.SameGroup other)
    (ho : other.sizeOffset = field.sizeOffset) : other.sizeSlot? = field.sizeSlot? := by
  obtain ⟨_, hm⟩ := multiplicity_of_group h.1
  obtain ⟨_, hm'⟩ := multiplicity_of_group h.symm.1
  simp [sizeSlot?, ho, hm, hm']

theorem slot_of_sizeSlot_eq {other : Field Ref} (h : other.sizeSlot? = field.sizeSlot?) {value : Nat}
    (hv : field.slot block = .ok value) : other.slot block = .ok value := by
  obtain ⟨slot, stored, ho, hs, rfl⟩ := slice_of_slot hv
  exact slot_eq (h.trans ho) hs

/-- A field that has its places to itself keeps its slot apart from its storage. -/
theorem not_slotPlaces_of_storage (hh : field.isHandled = false)
    (hself : field.spans.Pairwise Span.Apart) {place : Nat} (hp : place ∈ field.storage) :
    ¬field.slotPlaces place := by
  rintro ⟨slot, hslot, hps⟩
  rw [Option.mem_def] at hslot
  simp only [spans, hh, Bool.false_eq_true, if_false, hslot, Option.toList_some,
    List.pairwise_cons, List.mem_singleton, forall_eq] at hself
  exact Span.apart_iff.mp hself.1 place hp hps

/-- The slot of a laid field can be read. -/
theorem Laid.slot_ok (h : field.Laid schema size) (hs : size ≤ block.length)
    (ho : field.sizeOffset.isSome) : ∃ slot stored, field.sizeSlot? = some slot ∧
      block.slice? slot = some stored ∧ stored.length = field.slotSize ∧
      field.slot block = .ok (Bytes.ofLittleEndian stored) := by
  obtain ⟨offset, ho⟩ := Option.isSome_iff_exists.mp ho
  have hslot := h.sizeSlot_eq ho
  obtain ⟨stored, hstored⟩ := Bytes.slice_isSome (h.slot_within hs hslot)
  have hlen : stored.length = field.slotSize := by
    rw [Bytes.length_slice hstored, Span.length]
    simp only
    omega
  have hle : stored.length ≤ 8 := hlen ▸ slotSize_le
  exact ⟨_, stored, hslot, hstored, hlen, by rw [slot_eq hslot hstored, toNat_readUnsigned hle]⟩

/-- A slot that is set holds as much of the value as it has bytes for. -/
theorem Laid.setSlot_ok (h : field.Laid schema size) (hs : size ≤ block.length)
    (ho : field.sizeOffset.isSome) (value : Nat) : ∃ after slot,
      (Edit.setSlot field value).result block = (.ok (), after) ∧
      Bytes.AgreeOn (fun place => ¬field.slotPlaces place) block after ∧
      field.sizeSlot? = some slot ∧
      after.slice? slot = some (Bytes.littleEndian field.slotSize value) ∧
      field.slot after = .ok (value % 256 ^ field.slotSize) := by
  obtain ⟨slot, stored, hslot, hstored, hlen, -⟩ := h.slot_ok hs ho
  have hle : stored.length ≤ 8 := hlen ▸ slotSize_le
  have hcontent : writeUnsigned stored (UInt64.ofNat value) =
      Bytes.littleEndian field.slotSize value := by
    rw [writeUnsigned_eq hle, hlen, ← Bytes.littleEndian_mod, UInt64.toNat_ofNat',
      Nat.mod_mod_of_dvd _ (pow_dvd_word slotSize_le), Bytes.littleEndian_mod]
  have hresult := Edit.result_setSlot value hslot hstored
  rw [hcontent] at hresult
  have hlen' : (Bytes.littleEndian field.slotSize value).length = stored.length := by
    rw [Bytes.length_littleEndian, hlen]
  have hafter := Bytes.slice_overwrite_self hstored hlen'
  refine ⟨_, slot, hresult, ?_, hslot, hafter, ?_⟩
  · have ht : (Edit.setSlot field value).Touches field.slotPlaces := Edit.touches_setSlot
    have hb := ht block
    rwa [hresult] at hb
  · rw [slot_eq hslot hafter, toNat_readUnsigned (by rw [hlen']; exact hle),
      Bytes.ofLittleEndian_littleEndian]

theorem sizeOffset_isSome_of_setSlot {value : Nat}
    (hr : (Edit.setSlot field value).result block = (.ok (), after)) : field.sizeOffset.isSome := by
  cases ho : field.sizeOffset with
  | none =>
    rw [Edit.setSlot, Step.result_bind_eq_ok] at hr
    simp [sizeSlot, sizeSlot?, ho] at hr
  | some offset => rfl

theorem Laid.slot_setSlot (h : field.Laid schema size) (hs : size ≤ block.length) {value : Nat}
    (hr : (Edit.setSlot field value).result block = (.ok (), after)) :
    field.slot after = .ok (value % 256 ^ field.slotSize) := by
  obtain ⟨_, _, hr', -, -, -, hslot⟩ :=
    h.setSlot_ok hs (sizeOffset_isSome_of_setSlot hr) value
  rw [hr, Prod.mk.injEq] at hr'
  rwa [hr'.2]

theorem Laid.flag_setSlot (h : field.Laid schema size) (hs : size ≤ block.length)
    (hm : field.multiplicity = .optional)
    (hr : (Edit.setSlot field 1).result block = (.ok (), after)) : field.slot after = .ok 1 := by
  simpa [slotSize, hm] using h.slot_setSlot hs hr

/-- Counts and active tags take a word. -/
theorem Laid.word_setSlot (h : field.Laid schema size) (hs : size ≤ block.length)
    (hm : field.multiplicity ≠ .optional) {value : Nat} (hv : value < 2 ^ 32)
    (hr : (Edit.setSlot field value).result block = (.ok (), after)) :
    field.slot after = .ok value := by
  have hslot := h.slot_setSlot hs hr
  rwa [slotSize, if_neg hm, Nat.mod_eq_of_lt (by omega)] at hslot

theorem Laid.slot_lt (h : field.Laid schema size) (hs : size ≤ block.length) {value : Nat}
    (hv : field.slot block = .ok value) : value < 256 ^ field.slotSize := by
  obtain ⟨slot, stored, ho, -⟩ := slice_of_slot hv
  have hsome : field.sizeOffset.isSome := by
    cases hoff : field.sizeOffset with
    | none => simp [sizeSlot?, hoff] at ho
    | some => rfl
  obtain ⟨_, stored, -, -, hlen, heq⟩ := h.slot_ok hs hsome
  rw [heq, Except.ok.injEq] at hv
  rw [← hv, ← hlen]
  exact Bytes.ofLittleEndian_lt stored

-- ---------------------------------------------------------------------------
-- Members of groups
-- ---------------------------------------------------------------------------

theorem isActive_of_slot (hg : field.group?.isSome) {active : Nat} (hs : field.slot block = .ok active) :
    field.isActive block = .ok (active == field.tag) := by
  obtain ⟨_, hm⟩ := multiplicity_of_group hg
  simp only [isActive, hm, hs, bind_ok]
  rfl

theorem slot_of_isActive (hg : field.group?.isSome) (h : field.isActive block = .ok true) :
    field.slot block = .ok field.tag := by
  obtain ⟨_, hm⟩ := multiplicity_of_group hg
  simp only [isActive, hm, bind_eq_ok, pure_eq_ok, beq_iff_eq] at h
  obtain ⟨active, hslot, rfl⟩ := h
  exact hslot

theorem isPresent_of_group (hg : field.group?.isSome) :
    field.isPresent block = field.isActive block := by
  obtain ⟨_, hm⟩ := multiplicity_of_group hg
  rw [isPresent, hm]

theorem isNonzero_of_scalar (hk : field.kind.isScalar = true) (stored : Bytes) :
    field.isNonzero stored = .ok !Bytes.isZero stored := by
  cases hkind : field.kind <;> simp_all [isNonzero, Kind.isScalar]

-- ---------------------------------------------------------------------------
-- Presence
-- ---------------------------------------------------------------------------

theorem isPresent_of_required (hm : field.multiplicity = .required) : field.isPresent block = .ok true := by
  rw [isPresent, hm]

theorem isPresent_of_count {count : Nat} (hm : field.multiplicity = .repeated)
    (hs : field.slot block = .ok count) : field.isPresent block = .ok (decide (0 < count)) := by
  simp only [isPresent, hm, hs, bind_ok]
  rfl

theorem isPresent_of_flag {flag : Nat} (hm : field.multiplicity = .optional)
    (hs : field.slot block = .ok flag) : field.isPresent block = .ok (flag != 0) := by
  simp only [isPresent, hm, sizeOffset_isSome_of_slot hs, if_true, hs, bind_ok]
  rfl

theorem isPresent_of_storage {stored : Bytes} (hm : field.multiplicity = .optional)
    (ho : field.sizeOffset = none) (hs : block.slice? field.data = some stored) :
    field.isPresent block = field.isNonzero stored := by
  simp only [isPresent, hm, ho, Option.isSome_none, Bool.false_eq_true, if_false, load, hs, bind_ok]

theorem isPresent_of_tag {active : Nat} (hg : field.group?.isSome) (hs : field.slot block = .ok active) :
    field.isPresent block = .ok (active == field.tag) :=
  (isPresent_of_group hg).trans (isActive_of_slot hg hs)

theorem isActive_of_present (hp : field.isPresent block = .ok true) : field.isActive block = .ok true := by
  cases hm : field.multiplicity with
  | oneof group => rwa [← isPresent_of_group (by simp [group?, hm])]
  | _ => simp [isActive, hm]

theorem count_of_present (hm : field.multiplicity = .repeated) (hp : field.isPresent block = .ok true) :
    ∃ count, field.slot block = .ok count ∧ 0 < count := by
  simpa only [isPresent, hm, bind_eq_ok, pure_eq_ok, decide_eq_true_eq] using hp

-- ---------------------------------------------------------------------------
-- Places
-- ---------------------------------------------------------------------------

/-- How a block is written. Under the strict mode a value is written where a value is in use, whole
and in its one form; under the loose mode it may go behind the last element in use or under a flag
that is not set, and may be cut short. -/
inductive Mode
  | strict
  | loose
deriving DecidableEq

/-- A span that holds one value of the field. Under the strict mode the value is in use. -/
inductive Place (mode : Mode) (field : Field Ref) (block : Bytes) : Span → Prop
  | single (hm : field.multiplicity = .required ∨ field.multiplicity = .optional)
    (hu : mode = .strict → field.multiplicity = .optional → ∀ flag, field.slot block = .ok flag →
      flag ≠ 0) :
    Place mode field block field.data
  | active {group : Nat} (hm : field.multiplicity = .oneof group)
    (ha : field.slot block = .ok field.tag) : Place mode field block field.data
  | element {index : Nat} (hm : field.multiplicity = .repeated) (hi : index < field.capacity)
    (hu : mode = .strict → ∃ count, field.slot block = .ok count ∧ index < count) :
    Place mode field block (field.element index)

theorem loose_single (hm : field.multiplicity = .required ∨ field.multiplicity = .optional) :
    field.Place .loose block field.data :=
  .single hm nofun

theorem loose_element {index : Nat} (hm : field.multiplicity = .repeated)
    (hi : index < field.capacity) : field.Place .loose block (field.element index) :=
  .element hm hi nofun

theorem Place.loosen {mode : Mode} {span : Span} (h : field.Place mode block span) :
    field.Place .loose block span := by
  cases h with
  | single hm => exact loose_single hm
  | active hm ha => exact .active hm ha
  | element hm hi hu => exact loose_element hm hi

theorem Place.congr {mode : Mode} {span : Span} (h : field.Place mode block span)
    (hs : field.slot after = field.slot block) : field.Place mode after span := by
  cases h with
  | single hm hu => exact .single hm (by rwa [hs])
  | active hm ha => exact .active hm (hs.trans ha)
  | element hm hi hu => exact .element hm hi (by rwa [hs])

theorem flag_of_present (hm : field.multiplicity = .optional) (ho : field.sizeOffset.isSome)
    (hp : field.isPresent block = .ok true) : ∃ flag, field.slot block = .ok flag ∧ flag ≠ 0 := by
  simpa only [isPresent, hm, ho, if_true, bind_eq_ok, pure_eq_ok, bne_iff_ne] using hp

theorem active_of_present {group : Nat} (hm : field.multiplicity = .oneof group)
    (hp : field.isPresent block = .ok true) : field.slot block = .ok field.tag := by
  have hg : field.group?.isSome := by simp [group?, hm]
  exact slot_of_isActive hg (by rwa [← isPresent_of_group hg])

/-- The value of a single field that is present is in use. -/
theorem place_of_present (hm : field.multiplicity ≠ .repeated)
    (hp : field.isPresent block = .ok true) : field.Place .strict block field.data := by
  cases hmult : field.multiplicity with
  | «repeated» => exact absurd hmult hm
  | oneof group => exact .active hmult (active_of_present hmult hp)
  | required =>
    exact .single (.inl hmult) fun _ hopt => by simp [hmult] at hopt
  | optional =>
    refine .single (.inr hmult) fun _ _ flag hflag => ?_
    obtain ⟨value, hvalue, hne⟩ := flag_of_present hmult (sizeOffset_isSome_of_slot hflag) hp
    rw [hflag, Except.ok.injEq] at hvalue
    rwa [hvalue]

/-- A place is that of an element, the only one unless the field is an array. -/
theorem Fits.place_eq_element (h : field.Fits schema size) {mode : Mode} {span : Span}
    (hp : field.Place mode block span) : ∃ index < field.places, span = field.element index := by
  have hdata : field.data = field.element 0 := by
    rw [h.data_eq, h.element_eq h.places_pos]
    simp
  cases hp with
  | single => exact ⟨0, h.places_pos, hdata⟩
  | active => exact ⟨0, h.places_pos, hdata⟩
  | @element index hm hi =>
    refine ⟨index, ?_, rfl⟩
    rwa [places, if_pos (by rw [isRepeated, hm]; rfl)]

theorem Fits.mem_storage (h : field.Fits schema size) {mode : Mode} {span : Span}
    (hp : field.Place mode block span) {place : Nat} (hm : place ∈ span) :
    place ∈ field.storage := by
  obtain ⟨index, hi, rfl⟩ := h.place_eq_element hp
  have hone := element_le hi
  rw [h.element_eq hi, Span.mem_iff] at hm
  rw [h.storage_eq, Span.mem_iff]
  simp only at hm ⊢
  omega

theorem Fits.extent_of_element (h : field.Fits schema size) (hm : field.multiplicity = .repeated)
    {index : Nat} (hi : index < field.capacity) {place : Nat} (hp : place ∈ field.element index) :
    field.extent place := by
  have hplace : field.Place .loose ([] : Bytes) (field.element index) := loose_element hm hi
  exact extent_of_storage h.inBlock (h.mem_storage hplace hp)

theorem Fits.length_place (h : field.Fits schema size) {mode : Mode} {span : Span} {stored : Bytes}
    (hp : field.Place mode block span) (hs : block.slice? span = some stored) :
    stored.length = field.dataSize := by
  obtain ⟨index, hi, rfl⟩ := h.place_eq_element hp
  rw [Bytes.length_slice hs, h.element_eq hi, Span.length]
  simp only
  omega

theorem Fits.place_slice (h : field.Fits schema size) (hs : size ≤ block.length) {mode : Mode}
    {span : Span} (hp : field.Place mode block span) :
    ∃ stored, block.slice? span = some stored ∧ stored.length = field.dataSize := by
  have hw : span.Within block.length := by
    obtain ⟨index, hi, rfl⟩ := h.place_eq_element hp
    have hone := element_le hi
    have hle := h.storage_le
    rw [h.element_eq hi]
    constructor <;> simp only <;> omega
  obtain ⟨stored, hstored⟩ := Bytes.slice_isSome hw
  exact ⟨stored, hstored, h.length_place hp hstored⟩

/-- Different elements have no place in common. -/
theorem Fits.element_apart (h : field.Fits schema size) {i j : Nat} (hi : i < field.places)
    (hj : j < field.places) (hij : j ≠ i) : (field.element j).Apart (field.element i) := by
  rw [h.element_eq hi, h.element_eq hj, Span.Apart]
  rcases Nat.lt_or_gt_of_ne hij with hlt | hgt
  · have := Nat.mul_le_mul_right field.dataSize hlt
    rw [Nat.succ_mul] at this
    simp only
    omega
  · have := Nat.mul_le_mul_right field.dataSize hgt
    rw [Nat.succ_mul] at this
    simp only
    omega

/-- Different places of a field have nothing in common. -/
theorem Fits.place_apart (h : field.Fits schema size) {mode : Mode} {span other : Span}
    (hp : field.Place mode block span) (ho : field.Place mode block other) (hne : other ≠ span) :
    other.Apart span := by
  obtain ⟨i, hi, rfl⟩ := h.place_eq_element hp
  obtain ⟨j, hj, rfl⟩ := h.place_eq_element ho
  exact h.element_apart hi hj fun hij => hne (hij ▸ rfl)

end Field

/-- Of the members of a group only one is present. -/
theorem Table.Laid.not_sameGroup {table : Table Ref} {other : Field Ref} (h : table.Laid schema)
    (hf : field ∈ table.fields) (ho : other ∈ table.fields) (hne : other.tag ≠ field.tag)
    (hp : field.isPresent block = .ok true) (hq : other.isPresent block = .ok true) :
    ¬field.SameGroup other := by
  intro hsame
  obtain ⟨group, hm⟩ := Field.multiplicity_of_group hsame.1
  obtain ⟨shared, hms⟩ := Field.multiplicity_of_group hsame.symm.1
  have heq := hsame.sizeSlot_eq (h.groups field hf other ho hsame)
  have hboth := Field.slot_of_sizeSlot_eq heq (Field.active_of_present hm hp)
  rw [Field.active_of_present hms hq, Except.ok.injEq] at hboth
  exact hne hboth

end BlockCodec
