import BlockCodec.Proofs.Moves

/-!
# Invariants of blocks

A `Discipline` says which fields are watched, what their slots may say and what their storage may
hold; the slots of watched handled fields are unbound. A block `Holds` to it when every watched
field does, in the messages inside it too. `Schema.Holds.moves`: moves keep to a lawful discipline
when the watched fields have their places to themselves.
-/

namespace BlockCodec

variable {Ref : Type} {schema : Schema Ref} {size : Nat} {field other : Field Ref}
  {block after stored content : Bytes} {span : Span}

structure Discipline (Ref : Type) where
  watches : Field Ref → Prop
  slot : Table Ref → Field Ref → Nat → Prop
  value : Field Ref → Bytes → Prop

/-- What the discipline asks of a field, but for the messages in it. -/
structure Field.Keeps (discipline : Discipline Ref) (table : Table Ref) (block : Bytes)
    (field : Field Ref) : Prop where
  unbound : field.isHandled = true → ∀ stored, block.slice? field.data = some stored →
    stored = Bytes.zeros stored.length
  slot : field.isHandled = false → ∀ value, field.slot block = .ok value →
    discipline.slot table field value
  value : field.isHandled = false → ∀ span stored, field.Place .loose block span →
    block.slice? span = some stored → discipline.value field stored

inductive Schema.Holds (schema : Schema Ref) (discipline : Discipline Ref) : Ref → Bytes → Prop
  | intro {ref : Ref} {block : Bytes} :
    (∀ field ∈ (schema ref).fields, discipline.watches field →
      field.Keeps discipline (schema ref) block) →
    (∀ field ∈ (schema ref).fields, discipline.watches field → field.isHandled = false →
      ∀ inner, field.kind = .message inner → ∀ span stored, field.Place .loose block span →
        block.slice? span = some stored → Holds schema discipline inner stored) →
    Holds schema discipline ref block

/-- What the discipline asks of a field and of the messages in it. -/
structure Schema.HoldsAt (schema : Schema Ref) (discipline : Discipline Ref) (ref : Ref)
    (block : Bytes) (field : Field Ref) : Prop where
  keeps : field.Keeps discipline (schema ref) block
  nested : field.isHandled = false → ∀ inner, field.kind = .message inner → ∀ span stored,
    field.Place .loose block span → block.slice? span = some stored →
      schema.Holds discipline inner stored

/-- The discipline allows everything that moves of a mode write. -/
structure Discipline.Lawful (schema : Schema Ref) (mode : Field.Mode)
    (discipline : Discipline Ref) : Prop where
  slot_zero : ∀ table field, discipline.slot table field 0
  slot_tag : ∀ (table : Table Ref), ∀ field ∈ table.fields, ∀ member ∈ table.fields,
    field.SameGroup member → discipline.slot table field member.tag
  slot_flag : ∀ table field value, field.multiplicity = .optional → value ≤ 1 →
    discipline.slot table field value
  slot_count : ∀ table field value, field.multiplicity = .repeated → value ≤ field.capacity →
    discipline.slot table field value
  value_zeros : ∀ field : Field Ref, field.Suits schema →
    discipline.value field (Bytes.zeros field.dataSize)
  value_default : ∀ (field : Field Ref) value filled, discipline.watches field →
    field.default? = some value → (∀ inner, field.kind ≠ .message inner) →
    field.applyDefault value (Bytes.zeros field.dataSize) = .ok filled →
    discipline.value field filled
  value_stores : ∀ field stored content, (∀ inner, field.kind ≠ .message inner) →
    field.Stores mode stored content → discipline.value field stored →
    discipline.value field content
  value_moves : ∀ (field : Field Ref) inner levels stored content, field.kind = .message inner →
    schema.Laid levels inner → schema.Throughout (Table.Separate discipline.watches) inner →
    (schema inner).size ≤ stored.length → schema.Moves mode inner stored content →
    discipline.value field stored → discipline.value field content

namespace Schema

variable {discipline : Discipline Ref} {mode : Field.Mode} {ref : Ref}

theorem holds_iff : schema.Holds discipline ref block ↔
    ∀ field ∈ (schema ref).fields, discipline.watches field →
      schema.HoldsAt discipline ref block field := by
  constructor
  · rintro ⟨hkeeps, hnested⟩ field hf hw
    exact ⟨hkeeps field hf hw, hnested field hf hw⟩
  · intro h
    exact ⟨fun field hf hw => (h field hf hw).keeps, fun field hf hw => (h field hf hw).nested⟩

-- ---------------------------------------------------------------------------
-- One field
-- ---------------------------------------------------------------------------

/-- What a field holds is not changed by what happens elsewhere. -/
theorem HoldsAt.congr (h : schema.HoldsAt discipline ref block field)
    (hfits : field.isHandled = false → field.Fits schema size)
    (hagree : Bytes.AgreeOn field.extent block after) :
    schema.HoldsAt discipline ref after field := by
  have hslot : field.isHandled = false → field.slot after = field.slot block := fun hh =>
    Field.slot_congr (hagree.mono fun _ => Field.extent_of_slotPlaces hh)
  have hslice : field.isHandled = false → ∀ span, field.Place .loose after span →
      field.Place .loose block span ∧ block.slice? span = after.slice? span := by
    intro hh span hp
    refine ⟨hp.congr (hslot hh).symm, hagree.slice fun place hm => ?_⟩
    exact Field.extent_of_storage hh ((hfits hh).mem_storage hp hm)
  refine ⟨⟨fun hh stored hs => ?_, fun hh value hv => ?_, fun hh span stored hp hs => ?_⟩,
    fun hh inner hk span stored hp hs => ?_⟩
  · rw [← hagree.slice fun place hp => ⟨field.data, by simp [Field.spans, hh], hp⟩] at hs
    exact h.keeps.unbound hh stored hs
  · rw [hslot hh] at hv
    exact h.keeps.slot hh value hv
  · obtain ⟨hp, heq⟩ := hslice hh span hp
    exact h.keeps.value hh span stored hp (heq.trans hs)
  · obtain ⟨hp, heq⟩ := hslice hh span hp
    exact h.nested hh inner hk span stored hp (heq.trans hs)

/-- A field whose value changes: what is stored elsewhere in it stays. -/
theorem HoldsAt.overwrite (h : schema.HoldsAt discipline ref block field)
    (hfits : field.Fits schema size) (hself : field.spans.Pairwise Span.Apart)
    (hp : field.Place .loose block span) (hs : block.slice? span = some stored)
    (hl : content.length = stored.length)
    (hv : discipline.value field stored → discipline.value field content)
    (hn : ∀ inner, field.kind = .message inner → schema.Holds discipline inner stored →
      schema.Holds discipline inner content) :
    schema.HoldsAt discipline ref (Bytes.overwrite block span.start content) field := by
  have hh := hfits.inBlock
  have hagree := Bytes.agreeOn_overwrite hs hl
  have hslot : field.slot (Bytes.overwrite block span.start content) = field.slot block :=
    Field.slot_congr (hagree.mono fun place hps hin =>
      Field.not_slotPlaces_of_storage hh hself (hfits.mem_storage hp hin) hps)
  -- the storage of a place is the new content or what it was
  have hplace : ∀ place value, field.Place .loose (Bytes.overwrite block span.start content) place →
      Bytes.slice? (Bytes.overwrite block span.start content) place = some value →
      field.Place .loose block place ∧
        (place = span ∧ value = content ∨ block.slice? place = some value) := by
    intro place value hplace hvalue
    have hold := hplace.congr hslot.symm
    refine ⟨hold, ?_⟩
    by_cases heq : place = span
    · subst heq
      rw [Bytes.slice_overwrite_self hs hl, Option.some.injEq] at hvalue
      exact .inl ⟨rfl, hvalue.symm⟩
    · refine .inr ?_
      rw [← hvalue]
      exact hagree.slice fun p hm => Span.apart_iff.mp (hfits.place_apart hp hold heq) p hm
  refine ⟨⟨fun hhandled => by simp [hh] at hhandled, fun _ value hvalue => ?_,
    fun _ place value hpl hvalue => ?_⟩, fun _ inner hk place value hpl hvalue => ?_⟩
  · rw [hslot] at hvalue
    exact h.keeps.slot hh value hvalue
  · obtain ⟨hold, ⟨rfl, rfl⟩ | hval⟩ := hplace place value hpl hvalue
    · exact hv (h.keeps.value hh _ _ hold hs)
    · exact h.keeps.value hh _ _ hold hval
  · obtain ⟨hold, ⟨rfl, rfl⟩ | hval⟩ := hplace place value hpl hvalue
    · exact hn inner hk (h.nested hh inner hk _ _ hold hs)
    · exact h.nested hh inner hk _ _ hold hval

/-- A field of which only the slot changes, outside of groups. -/
theorem HoldsAt.setSlot (h : schema.HoldsAt discipline ref block field)
    (hlaid : field.Laid schema size) (hs : size ≤ block.length)
    (hself : field.spans.Pairwise Span.Apart) (hg : field.group? = none) {value : Nat}
    (hr : (Edit.setSlot field value).result block = (.ok (), after))
    (hv : discipline.slot (schema ref) field (value % 256 ^ field.slotSize)) :
    schema.HoldsAt discipline ref after field := by
  have hh := hlaid.inBlock
  have hslice : ∀ place value, field.Place .loose after place → after.slice? place = some value →
      field.Place .loose block place ∧ block.slice? place = some value := by
    intro place value hp hvalue
    have hold : field.Place .loose block place := by
      cases hp with
      | single hm => exact Field.loose_single hm
      | active hm => simp [Field.group?, hm] at hg
      | element hm hi => exact Field.loose_element hm hi
    refine ⟨hold, ?_⟩
    rw [← hvalue]
    exact (Edit.touches_setSlot.agree hr).slice fun p hm =>
      Field.not_slotPlaces_of_storage hh hself (hlaid.mem_storage hold hm)
  refine ⟨⟨fun hhandled => by simp [hh] at hhandled, fun _ number hnumber => ?_,
    fun _ place number hp hnumber => ?_⟩, fun _ inner hk place number hp hnumber => ?_⟩
  · rw [hlaid.slot_setSlot hs hr, Except.ok.injEq] at hnumber
    rwa [← hnumber]
  · obtain ⟨hold, hval⟩ := hslice place number hp hnumber
    exact h.keeps.value hh _ _ hold hval
  · obtain ⟨hold, hval⟩ := hslice place number hp hnumber
    exact h.nested hh inner hk _ _ hold hval

/-- A field whose storage is zero. -/
theorem HoldsAt.of_zeros (hlaw : discipline.Lawful schema mode) (hfits : field.Fits schema size)
    (hslot : ∀ value, field.slot block = .ok value → discipline.slot (schema ref) field value)
    (hz : ∀ place ∈ field.storage, block.byte place = 0)
    (hn : ∀ inner, field.kind = .message inner →
      schema.Holds discipline inner (Bytes.zeros (schema inner).size)) :
    schema.HoldsAt discipline ref block field := by
  have hstored : ∀ place stored, field.Place .loose block place →
      block.slice? place = some stored → stored = Bytes.zeros field.dataSize := by
    intro place stored hp hstored
    have hl := hfits.length_place hp hstored
    rw [← hl]
    exact Bytes.slice_eq_zeros hstored fun p hm => hz p (hfits.mem_storage hp hm)
  refine ⟨⟨fun hh => by simp [hfits.inBlock] at hh, fun _ => hslot, fun _ place stored hp hst => ?_⟩,
    fun _ inner hk place stored hp hst => ?_⟩
  · rw [hstored place stored hp hst]
    exact hlaw.value_zeros field hfits.suits
  · rw [hstored place stored hp hst, hfits.dataSize_of_message hk]
    exact hn inner hk

/-- A member of a group that is not the active one. -/
theorem HoldsAt.of_inactive {group value : Nat} (hh : field.isHandled = false)
    (hm : field.multiplicity = .oneof group) (hslot : field.slot block = .ok value)
    (hne : value ≠ field.tag) (hv : discipline.slot (schema ref) field value) :
    schema.HoldsAt discipline ref block field := by
  have hnone : ∀ place, ¬field.Place .loose block place := by
    intro place hp
    cases hp with
    | single h => simp [hm] at h
    | active _ ha => simp [hslot, hne] at ha
    | element h => simp [hm] at h
  refine ⟨⟨fun h => by simp [hh] at h, fun _ number hnumber => ?_,
    fun _ place _ hp => absurd hp (hnone place)⟩, fun _ _ _ place _ hp => absurd hp (hnone place)⟩
  rw [hslot, Except.ok.injEq] at hnumber
  rwa [← hnumber]

/-- A field with a single value. -/
theorem HoldsAt.of_data (hh : field.isHandled = false) (hm : field.multiplicity ≠ .repeated)
    (hslot : ∀ value, field.slot block = .ok value → discipline.slot (schema ref) field value)
    (hs : block.slice? field.data = some content) (hv : discipline.value field content)
    (hn : ∀ inner, field.kind = .message inner → schema.Holds discipline inner content) :
    schema.HoldsAt discipline ref block field := by
  have hdata : ∀ place stored, field.Place .loose block place →
      block.slice? place = some stored → stored = content := by
    intro place stored hp hstored
    cases hp with
    | single | active => simpa [hs, eq_comm] using hstored
    | element h => exact absurd h hm
  refine ⟨⟨fun h => by simp [hh] at h, fun _ => hslot, fun _ place stored hp hst => ?_⟩,
    fun _ inner hk place stored hp hst => ?_⟩
  · rwa [hdata place stored hp hst]
  · rw [hdata place stored hp hst]
    exact hn inner hk

-- ---------------------------------------------------------------------------
-- Initial content
-- ---------------------------------------------------------------------------

/-- Zeros hold to every lawful discipline. -/
theorem holds_zeros (hlaw : discipline.Lawful schema mode) {levels : Nat} (h : schema.Laid levels ref)
    (count : Nat) : schema.Holds discipline ref (Bytes.zeros count) := by
  induction h generalizing count with
  | @intro levels ref hlaid _ ih =>
    refine holds_iff.mpr fun field hf hw => ?_
    cases hh : field.isHandled with
    | true =>
      exact ⟨⟨fun _ _ hs => Bytes.slice_eq_zeros hs fun _ _ => Bytes.byte_zeros _ _,
        fun h => by simp [hh] at h, fun h => by simp [hh] at h⟩, fun h => by simp [hh] at h⟩
    | false =>
      refine .of_zeros hlaw (hlaid.stored field hf hh) (fun value hv => ?_)
        (fun _ _ => Bytes.byte_zeros _ _)
        fun inner hk => ih inner (Table.mem_nested hf hh hk) _
      obtain ⟨slot, stored, ho, hstored, rfl⟩ := Field.slice_of_slot hv
      rw [Bytes.slice_eq_zeros hstored fun _ _ => Bytes.byte_zeros _ _, readUnsigned_zeros]
      exact hlaw.slot_zero _ _

/-- What initialisation makes of the message in a field. -/
theorem value_initialise (hlaw : discipline.Lawful schema mode) (hfits : field.Fits schema size)
    {inner : Ref} (hk : field.kind = .message inner) {levels depth : Nat}
    (h : schema.Laid depth inner) (hsep : schema.Throughout (Table.Separate discipline.watches) inner)
    (hr : (schema.initialiseWithin levels inner).result (Bytes.zeros (schema inner).size) =
      (.ok (), content)) : discipline.value field content := by
  have hzeros := hlaw.value_zeros field hfits.suits
  rw [hfits.dataSize_of_message hk] at hzeros
  exact hlaw.value_moves field inner depth _ _ hk h hsep
    (Nat.le_of_eq (Bytes.length_zeros _).symm) (.initialise hr) hzeros

theorem value_fillInitial (hlaw : discipline.Lawful schema mode) (hfits : field.Fits schema size)
    (hw : discipline.watches field) {nested : Ref → Edit Unit}
    (hn : ∀ inner, field.kind = .message inner →
      (nested inner).result (Bytes.zeros field.dataSize) = (.ok (), content) →
      discipline.value field content)
    (hr : (field.fillInitial nested).result (Bytes.zeros field.dataSize) = (.ok (), content)) :
    discipline.value field content := by
  unfold Field.fillInitial at hr
  split at hr
  · next inner hk => exact hn inner hk hr
  · next hk =>
    split at hr
    · cases hr
      exact hlaw.value_zeros field hfits.suits
    · next value hd =>
      simp only [Step.result_bind_eq_ok, Step.result_get, Step.result_ofExcept, Prod.mk.injEq,
        Except.ok.injEq, Step.result_set] at hr
      obtain ⟨_, _, ⟨rfl, rfl⟩, filled, _, ⟨hfilled, rfl⟩, -, rfl⟩ := hr
      exact hlaw.value_default field value _ hw hd hk hfilled

theorem nested_fillInitial {nested : Ref → Edit Unit} {inner : Ref} (hk : field.kind = .message inner)
    (hr : (field.fillInitial nested).result stored = (.ok (), content)) :
    (nested inner).result stored = (.ok (), content) := by
  rwa [Field.fillInitial, hk] at hr

/-- A fresh field, given what initialisation makes of the messages in it. -/
theorem HoldsAt.of_fresh (hlaw : discipline.Lawful schema mode) (hfits : field.Fits schema size)
    (hw : discipline.watches field) {nested : Ref → Edit Unit} (hfresh : field.Fresh nested block)
    (hzeros : ∀ inner, field.kind = .message inner →
      schema.Holds discipline inner (Bytes.zeros (schema inner).size))
    (hn : ∀ inner content, field.kind = .message inner →
      (nested inner).result (Bytes.zeros (schema inner).size) = (.ok (), content) →
      discipline.value field content ∧ schema.Holds discipline inner content) :
    schema.HoldsAt discipline ref block field := by
  have hslot : ∀ value, field.slot block = .ok value → discipline.slot (schema ref) field value := by
    intro value hv
    obtain ⟨slot, _, ho, -⟩ := Field.slice_of_slot hv
    rw [Field.slot_of_zeros ho (hfresh.slot slot ho), Except.ok.injEq] at hv
    rw [← hv]
    exact hlaw.slot_zero _ _
  obtain ⟨content, hstored, hc⟩ := hfresh.storage
  cases hm : field.multiplicity with
  | «repeated» | oneof =>
    simp only [Field.Initial, hm] at hc
    rw [hc] at hstored
    exact .of_zeros hlaw hfits hslot (fun place => Bytes.byte_of_slice_zeros hstored) hzeros
  | required | optional =>
    rw [Field.storage_eq_data (by simp [hm])] at hstored
    simp only [Field.Initial, hm] at hc
    rw [Field.storage_eq_data (by simp [hm]), hfits.length_data] at hc
    have hn' : ∀ inner, field.kind = .message inner →
        (nested inner).result (Bytes.zeros field.dataSize) = (.ok (), content) →
        discipline.value field content ∧ schema.Holds discipline inner content :=
      fun inner hk hr => hn inner content hk (by rwa [hfits.dataSize_of_message hk] at hr)
    exact .of_data hfits.inBlock (by simp [hm]) hslot hstored
      (value_fillInitial hlaw hfits hw (fun inner hk hr => (hn' inner hk hr).1) hc)
      fun inner hk => (hn' inner hk (nested_fillInitial hk hc)).2

/-- Initialisation keeps to a lawful discipline; the slots of handled fields it leaves alone. -/
theorem holds_initialiseWithin (hlaw : discipline.Lawful schema mode) {levels depth : Nat}
    (h : schema.Laid depth ref) (hsep : schema.Throughout (Table.Separate discipline.watches) ref)
    (hub : ∀ field ∈ (schema ref).fields, discipline.watches field → field.isHandled = true →
      ∀ stored, block.slice? field.data = some stored → stored = Bytes.zeros stored.length)
    (hr : (schema.initialiseWithin levels ref).result block = (.ok (), after)) :
    schema.Holds discipline ref after := by
  induction levels generalizing depth ref block after with
  | zero => cases hr
  | succ levels ih =>
    cases h with
    | @intro depth ref hlaid hbelow =>
    have hkeep := keepsLength_initialiseWithin schema levels
    refine holds_iff.mpr fun field hf hw => ?_
    cases hh : field.isHandled with
    | true =>
      refine ⟨⟨fun _ stored hs => hub field hf hw hh stored ?_, fun h => by simp [hh] at h,
        fun h => by simp [hh] at h⟩, fun h => by simp [hh] at h⟩
      rw [← hs]
      exact ((Table.touches_reset hkeep).agree hr).slice fun place hp =>
        hlaid.not_inBlock_of_handled hf hh (hsep.here field hf hw).2 hp
    | false =>
      have hfresh := Table.fresh_of_reset hlaid.tags_ne hsep.here hkeep hr field hf hw hh
      have hfits := hlaid.stored field hf hh
      refine .of_fresh hlaw hfits hw hfresh (fun inner hk => ?_) fun inner content hk hc => ?_
      · exact holds_zeros hlaw (hbelow inner (Table.mem_nested hf hh hk)) _
      · have hn := Table.mem_nested hf hh hk
        exact ⟨value_initialise hlaw hfits hk (hbelow inner hn) (hsep.nested hn) hc,
          ih (hbelow inner hn) (hsep.nested hn) (fun _ _ _ _ _ hs =>
            Bytes.slice_eq_zeros hs fun _ _ => Bytes.byte_zeros _ _) hc⟩

theorem settled_initialise (hlaw : discipline.Lawful schema mode) (hfits : field.Fits schema size)
    {inner : Ref} (hk : field.kind = .message inner) {levels depth : Nat}
    (h : schema.Laid depth inner) (hsep : schema.Throughout (Table.Separate discipline.watches) inner)
    (hr : (schema.initialiseWithin levels inner).result (Bytes.zeros (schema inner).size) =
      (.ok (), content)) :
    discipline.value field content ∧ schema.Holds discipline inner content :=
  ⟨value_initialise hlaw hfits hk h hsep hr, holds_initialiseWithin hlaw h hsep
    (fun _ _ _ _ _ hs => Bytes.slice_eq_zeros hs fun _ _ => Bytes.byte_zeros _ _) hr⟩

-- ---------------------------------------------------------------------------
-- Moves
-- ---------------------------------------------------------------------------

/-- A change of the places of one field: fields outside its group hold what they held. -/
theorem Holds.change (h : schema.Holds discipline ref block) (hlaid : (schema ref).Laid schema)
    (hsep : (schema ref).Separate discipline.watches) (hf : field ∈ (schema ref).fields)
    (hagree : Bytes.AgreeOn (fun place => ¬field.extent place) block after)
    (hself : discipline.watches field → schema.HoldsAt discipline ref after field)
    (hgroup : ∀ other ∈ (schema ref).fields, discipline.watches other → other.tag ≠ field.tag →
      other.Apart field → field.SameGroup other → schema.HoldsAt discipline ref after other) :
    schema.Holds discipline ref after := by
  refine holds_iff.mpr fun other ho hw => ?_
  by_cases ht : other.tag = field.tag
  · obtain rfl := Table.eq_of_tag_eq hlaid.tags_ne hf ho ht
    exact hself hw
  · have hapart := (hsep other ho hw).2 field hf (Ne.symm ht)
    by_cases hg : field.SameGroup other
    · exact hgroup other ho hw ht hapart hg
    · refine (holds_iff.mp h other ho hw).congr (hlaid.stored other ho) ?_
      exact hagree.mono fun place hp => hapart.disjoint (fun hg' => hg hg'.symm) hp

/-- The members of a group that are not active have nothing to hold. -/
theorem HoldsAt.of_group (hlaw : discipline.Lawful schema mode) (hlaid : (schema ref).Laid schema)
    (hf : field ∈ (schema ref).fields) (ho : other ∈ (schema ref).fields)
    (hg : field.SameGroup other) {value : Nat} (hslot : field.slot after = .ok value)
    (hv : value = 0 ∨ value = field.tag) (ht : other.tag ≠ field.tag) :
    schema.HoldsAt discipline ref after other := by
  obtain ⟨_, hm⟩ := Field.multiplicity_of_group hg.symm.1
  have hh : other.isHandled = false := by
    cases hh : other.isHandled with
    | false => rfl
    | true => simpa [Field.group?, hm] using (hlaid.handled other ho hh).group_eq
  have hslot' := Field.slot_of_sizeSlot_eq (hg.sizeSlot_eq (hlaid.groups field hf other ho hg)) hslot
  have hpos := hlaid.tag_pos other ho
  rcases hv with rfl | rfl
  · exact .of_inactive hh hm hslot' (by omega) (hlaw.slot_zero _ _)
  · exact .of_inactive hh hm hslot' (Ne.symm ht) (hlaw.slot_tag _ other ho field hf hg.symm)

theorem Holds.put (h : schema.Holds discipline ref block) (hlaw : discipline.Lawful schema mode)
    (hlaid : (schema ref).Laid schema) (hsep : (schema ref).Separate discipline.watches)
    (hf : field ∈ (schema ref).fields) (hh : field.isHandled = false)
    (hp : field.Place .loose block span) (hs : block.slice? span = some stored)
    (hl : content.length = stored.length)
    (hv : discipline.value field stored → discipline.value field content)
    (hn : ∀ inner, field.kind = .message inner → schema.Holds discipline inner stored →
      schema.Holds discipline inner content) :
    schema.Holds discipline ref (Bytes.overwrite block span.start content) := by
  have hfits := hlaid.stored field hf hh
  have hagree := Bytes.agreeOn_overwrite hs hl
  refine h.change hlaid hsep hf (hagree.mono fun place hp' hm => ?_) (fun hw => ?_)
    fun other ho hw ht hapart hg => ?_
  · exact hp' (Field.extent_of_storage hh (hfits.mem_storage hp hm))
  · exact (holds_iff.mp h field hf hw).overwrite hfits (hsep field hf hw).1 hp hs hl hv hn
  · obtain ⟨_, hm⟩ := Field.multiplicity_of_group hg.1
    have hactive : field.slot block = .ok field.tag := by
      cases hp with
      | single h => simp [hm] at h
      | active _ ha => exact ha
      | element h => simp [hm] at h
    -- the storage of the active member is apart from the slot that the group shares
    have hslot := hg.sizeSlot_eq (hlaid.groups field hf other ho hg)
    rw [Field.Apart, if_pos hg.symm] at hapart
    refine .of_group hlaw hlaid hf ho hg ((Field.slot_congr (hagree.mono ?_)).trans hactive)
      (.inr rfl) ht
    rintro place ⟨slot, hs, hps⟩ hin
    exact Span.apart_iff.mp (hapart.2 slot (by rwa [hslot])) place (hfits.mem_storage hp hin) hps

theorem Holds.setSlot (h : schema.Holds discipline ref block)
    (hlaid : (schema ref).Laid schema) (hsep : (schema ref).Separate discipline.watches)
    (hs : (schema ref).size ≤ block.length) (hf : field ∈ (schema ref).fields)
    (hh : field.isHandled = false) (hg : field.group? = none) {value : Nat}
    (hv : discipline.slot (schema ref) field (value % 256 ^ field.slotSize))
    (hr : (Edit.setSlot field value).result block = (.ok (), after)) :
    schema.Holds discipline ref after := by
  have hagree := Edit.touches_setSlot.agree hr
  refine h.change hlaid hsep hf (hagree.mono fun place hp hm => ?_) (fun hw => ?_)
    fun other _ _ _ _ hgroup => by simp [Field.SameGroup, hg] at hgroup
  · exact hp (Field.extent_of_slotPlaces hh hm)
  · exact (holds_iff.mp h field hf hw).setSlot (hlaid.laid field hf hh) hs (hsep field hf hw).1 hg hr hv

theorem Holds.reset (h : schema.Holds discipline ref block) (hlaw : discipline.Lawful schema mode)
    {levels : Nat} (hlaid : schema.Laid (levels + 1) ref)
    (hsep : schema.Throughout (Table.Separate discipline.watches) ref)
    (hf : field ∈ (schema ref).fields) (hh : field.isHandled = false)
    (hr : (field.reset schema.initialiseNested).result block = (.ok (), after)) :
    schema.Holds discipline ref after := by
  have hkeep := keepsLength_initialiseWithin schema maxInitialDepth
  have htouch := Field.touches_reset hh hkeep
  have hlaid' := hlaid.here.laid field hf hh
  refine h.change hlaid.here hsep.here hf (htouch.agree hr) (fun hw => ?_)
    fun other ho hw ht _ hg => ?_
  · have hfresh := Field.fresh_of_reset hh hkeep (hsep.here field hf hw).1 hr
    refine .of_fresh hlaw hlaid'.toFits hw hfresh
      (fun inner hk => ?_) fun inner content hk hc => ?_
    · exact holds_zeros hlaw (hlaid.nested (Table.mem_nested hf hh hk)) _
    · exact settled_initialise hlaw hlaid'.toFits hk (hlaid.nested (Table.mem_nested hf hh hk))
        (hsep.nested (Table.mem_nested hf hh hk)) hc
  · obtain ⟨slot, ho'⟩ := hlaid'.sizeSlot_isSome hg.1
    exact .of_group hlaw hlaid.here hf ho hg (Field.slot_reset_member hg.1 ho' hr) (.inl rfl) ht

theorem Holds.activate (h : schema.Holds discipline ref block) (hlaw : discipline.Lawful schema mode)
    {levels : Nat} (hlaid : schema.Laid (levels + 1) ref)
    (hsep : schema.Throughout (Table.Separate discipline.watches) ref)
    (hs : (schema ref).size ≤ block.length) (hf : field ∈ (schema ref).fields)
    (hh : field.isHandled = false) (hg : field.group?.isSome)
    (hr : (schema.activate (schema ref) field).result block = (.ok (), after)) :
    schema.Holds discipline ref after := by
  have hlaid' := hlaid.here.laid field hf hh
  have hslot := slot_activate hlaid' hs hg (hlaid.here.tag_le field hf) hr
  refine holds_iff.mpr fun other ho hw => ?_
  obtain ⟨hself, hapart⟩ := hsep.here other ho hw
  by_cases ht : other.tag = field.tag
  · obtain rfl := Table.eq_of_tag_eq hlaid.here.tags_ne hf ho ht
    obtain ⟨_, hm⟩ := Field.multiplicity_of_group hg
    obtain ⟨content, hstored, hc⟩ := data_activate hg hf hh hself hr
    rw [hlaid'.length_data] at hc
    have hinner : ∀ inner, other.kind = .message inner →
        (schema.initialiseNested inner).result (Bytes.zeros other.dataSize) = (.ok (), content) →
        discipline.value other content ∧ schema.Holds discipline inner content := by
      intro inner hk hr
      rw [hlaid'.dataSize_of_message hk] at hr
      exact settled_initialise hlaw hlaid'.toFits hk (hlaid.nested (Table.mem_nested hf hh hk))
        (hsep.nested (Table.mem_nested hf hh hk)) hr
    refine .of_data hh (by simp [hm]) (fun value hv => ?_) hstored
      (value_fillInitial hlaw hlaid'.toFits hw (fun inner hk hr => (hinner inner hk hr).1) hc)
      fun inner hk => (hinner inner hk (nested_fillInitial hk hc)).2
    rw [hslot, Except.ok.injEq] at hv
    rw [← hv]
    exact hlaw.slot_tag _ _ hf _ hf ⟨hg, rfl⟩
  · by_cases hgroup : field.SameGroup other
    · exact .of_group hlaw hlaid.here hf ho hgroup hslot (.inr rfl) ht
    · refine (holds_iff.mp h other ho hw).congr (hlaid.here.stored other ho) ?_
      exact ((touches_activate hf hh hg).agree hr).mono fun _ =>
        not_groupPlaces hlaid.here.tags_ne hapart ho hg hgroup

/-- Moves keep to a lawful discipline. -/
theorem Holds.moves (hlaw : discipline.Lawful schema mode) (hm : schema.Moves mode ref block after)
    {levels : Nat} (hlaid : schema.Laid levels ref)
    (hsep : schema.Throughout (Table.Separate discipline.watches) ref)
    (hs : (schema ref).size ≤ block.length) (h : schema.Holds discipline ref block) :
    schema.Holds discipline ref after := by
  induction hm generalizing levels with
  | refl => exact h
  | trans ha _ iha ihb =>
    exact ihb hlaid hsep (by rwa [ha.length_eq]) (iha hlaid hsep hs h)
  | @store ref field span block stored content hf hh hk hp hstored hc =>
    exact h.put hlaw hlaid.here hsep.here hf hh hp.loosen hstored hc.1 (hlaw.value_stores _ _ _ hk hc)
      fun inner hk' => absurd hk' (hk inner)
  | @inner ref inner field span block stored content hf hh hk hp hstored hm ih =>
    cases hlaid with
    | @intro levels _ hl hbelow =>
    have hn := Table.mem_nested hf hh hk
    have hfits := hl.stored field hf hh
    have hsize : (schema inner).size ≤ stored.length := by
      have hlen := hfits.length_place hp hstored
      exact Nat.le_of_eq (hlen.trans (hfits.dataSize_of_message hk)).symm
    refine h.put hlaw hl hsep.here hf hh hp.loosen hstored hm.length_eq
      (hlaw.value_moves _ _ _ _ _ hk (hbelow inner hn) (hsep.nested hn) hsize hm)
      fun inner' hk' hstored' => ?_
    obtain rfl : inner = inner' := by simpa [hk] using hk'
    exact ih (hbelow inner hn) (hsep.nested hn) hsize hstored'
  | @flag ref field block after value hf hh hm hv hr =>
    refine h.setSlot hlaid.here hsep.here hs hf hh (by simp [Field.group?, hm])
      (hlaw.slot_flag _ _ _ hm (Nat.le_trans (Nat.mod_le _ _) ?_)) hr
    omega
  | @claim ref field block after count hf hh hm hc hu hr =>
    exact h.setSlot hlaid.here hsep.here hs hf hh (by simp [Field.group?, hm])
      (hlaw.slot_count _ _ _ hm (Nat.le_trans (Nat.mod_le _ _) hc)) hr
  | @activate ref field block after hf hh hg hr =>
    cases hlaid with
    | intro hl hbelow => exact h.activate hlaw (.intro hl hbelow) hsep hs hf hh hg hr
  | @reset ref field block after _ hf hh _ hr =>
    cases hlaid with
    | intro hl hbelow => exact h.reset hlaw (.intro hl hbelow) hsep hf hh hr
  | @initialise ref block after levels' hr =>
    exact holds_initialiseWithin hlaw hlaid hsep (fun field hf hw hh =>
      (holds_iff.mp h field hf hw).keeps.unbound hh) hr

-- ---------------------------------------------------------------------------
-- Two disciplines
-- ---------------------------------------------------------------------------

/-- Some field in the block, or in a message inside it, is handled. -/
inductive Carries (schema : Schema Ref) : Field Ref → Prop
  | handled {field : Field Ref} : field.isHandled = true → Carries schema field
  | nested {field inner : Field Ref} {ref : Ref} : field.isHandled = false →
    field.kind = .message ref → inner ∈ (schema ref).fields → Carries schema inner →
    Carries schema field

end Schema

/-- Every handled field is unbound. -/
def Discipline.unbound (schema : Schema Ref) : Discipline Ref where
  watches := schema.Carries
  slot _ _ _ := True
  value _ _ := True

/-- Everything in use can be read: arrays are not longer than their capacity, texts end and bytes
stay inside their storage, and the active tag of a group is that of a member. -/
def Discipline.sound : Discipline Ref where
  watches _ := True
  slot table field value :=
    match field.multiplicity with
    | .required | .optional => True
    | .repeated => value ≤ field.capacity
    | .oneof _ => value = 0 ∨ ∃ member ∈ table.fields, field.SameGroup member ∧ member.tag = value
  value field stored := field.Sound stored

theorem Discipline.lawful_unbound : (Discipline.unbound schema).Lawful schema .loose where
  slot_zero _ _ := trivial
  slot_tag _ _ _ _ _ _ := trivial
  slot_flag _ _ _ _ _ := trivial
  slot_count _ _ _ _ _ := trivial
  value_zeros _ _ := trivial
  value_default _ _ _ _ _ _ _ := trivial
  value_stores _ _ _ _ _ _ := trivial
  value_moves _ _ _ _ _ _ _ _ _ _ _ := trivial

theorem Discipline.lawful_sound : Discipline.sound.Lawful schema .loose where
  slot_zero table field := by
    cases hm : field.multiplicity <;> simp [sound, hm]
  slot_tag table field hf member hm hg := by
    obtain ⟨_, hone⟩ := Field.multiplicity_of_group hg.1
    simp only [sound, hone]
    exact .inr ⟨member, hm, hg, rfl⟩
  slot_flag table field value hm _ := by simp only [sound, hm]
  slot_count table field value hm hv := by simpa only [sound, hm] using hv
  value_zeros field hs := Field.sound_zeros hs
  value_default field value filled _ _ _ hd := Field.sound_applyDefault hd
  value_stores field stored content _ hc := hc.2
  value_moves field inner _ stored content hk _ _ _ _ _ := by simp only [sound, Field.Sound, hk]

end BlockCodec
