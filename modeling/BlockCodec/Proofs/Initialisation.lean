import BlockCodec.Proofs.Places

/-!
# What initialisation does

Initialisation never fails on a block that is long enough for laid tables
(`Schema.initialiseWithin_ok`). It touches the storage and the slots of the fields in the block
and nothing else, and it leaves every field that has its places to itself `Fresh`: its slot
zero and its storage as a reset leaves it, whatever the block held before.
-/

namespace BlockCodec

variable {Ref : Type} {schema : Schema Ref} {size : Nat} {nested : Ref → Edit Unit}
  {field other : Field Ref} {block after : Bytes}

@[simp] theorem Bytes.length_ofText (text : String) : (ofText text).length = text.utf8ByteSize := by
  rw [ofText, Array.length_toList]
  rfl

/-- A default that fits is a number, a text or a byte string as its kind is. -/
theorem Default.fits_cases {value : Default} {kind : Kind Ref} (h : value.fits kind size = true) :
    (∃ number, value = .scalar number ∧ kind.isScalar = true) ∨
      (∃ content, value = .text content ∧ kind = .text ∧ (Bytes.ofText content).length < size) ∨
      ∃ content, value = .bytes content ∧ kind = .bytes ∧ content.length + 4 ≤ size := by
  cases value with
  | scalar number =>
    refine .inl ⟨number, rfl, ?_⟩
    cases kind <;> cases number <;> first | rfl | cases h
  | text content =>
    cases kind with
    | text => exact .inr (.inl ⟨content, rfl, rfl, by simpa [fits] using h⟩)
    | _ => cases h
  | bytes content =>
    cases kind with
    | bytes => exact .inr (.inr ⟨content, rfl, rfl, by simpa [fits] using h⟩)
    | _ => cases h

namespace Field

open Edit

-- ---------------------------------------------------------------------------
-- Defaults
-- ---------------------------------------------------------------------------

theorem applyDefault_scalar {number : Scalar} {stored : Bytes} (hk : field.kind.isScalar = true) :
    field.applyDefault (.scalar number) stored = .ok (field.kind.storeScalar stored number) := by
  simp only [applyDefault]
  rw [if_pos hk]

theorem applyDefault_text {content : String} {stored : Bytes} (hk : field.kind = .text)
    (hlt : (Bytes.ofText content).length < stored.length) :
    field.applyDefault (.text content) stored =
      .ok (Bytes.overwrite stored 0 (Bytes.ofText content ++ [0])) := by
  simp only [applyDefault, hk]
  rw [if_neg (by omega)]

theorem applyDefault_bytes {content stored : Bytes} (hk : field.kind = .bytes)
    (hle : content.length + 4 ≤ stored.length) :
    field.applyDefault (.bytes content) stored =
      .ok (Bytes.overwrite stored 0 (Bytes.littleEndian 4 content.length ++ content)) := by
  simp only [applyDefault, hk]
  rw [if_neg (by omega)]

-- ---------------------------------------------------------------------------
-- Lengths
-- ---------------------------------------------------------------------------

theorem length_storeScalar (kind : Kind Ref) (stored : Bytes) (value : Scalar) :
    (kind.storeScalar stored value).length = stored.length := by
  unfold Kind.storeScalar
  split <;> exact length_writeUnsigned _ _

/-- A number of up to eight bytes is written over all of its storage. -/
theorem storeScalar_congr (kind : Kind Ref) {stored held : Bytes} (hl : held.length = stored.length)
    (h8 : stored.length ≤ 8) (value : Scalar) :
    kind.storeScalar held value = kind.storeScalar stored value := by
  have hwrite : ∀ number, writeUnsigned held number = writeUnsigned stored number := fun number => by
    rw [writeUnsigned_eq h8, writeUnsigned_eq (hl ▸ h8), hl]
  unfold Kind.storeScalar
  split <;> exact hwrite _

theorem length_applyDefault {value : Default} {stored filled : Bytes}
    (h : field.applyDefault value stored = .ok filled) : filled.length = stored.length := by
  unfold applyDefault at h
  split at h
  · simp only at h
    split at h
    · cases h
    · cases h
      apply Bytes.length_overwrite
      simp only [List.length_append, List.length_cons, List.length_nil]
      omega
  · split at h
    · cases h
    · cases h
      apply Bytes.length_overwrite
      simp only [List.length_append, Bytes.length_littleEndian]
      omega
  · split at h
    · cases h
      exact length_storeScalar _ _ _
    · cases h
  · cases h

theorem keepsLength_fillInitial (h : ∀ ref, (nested ref).KeepsLength) :
    (field.fillInitial nested).KeepsLength := by
  intro block
  unfold fillInitial
  split
  · exact h _ _
  · split
    · rfl
    · next value _ =>
      rw [Step.result_bind_ok (Step.result_get block)]
      cases hd : field.applyDefault value block with
      | error failure => rfl
      | ok filled => exact length_applyDefault hd

theorem wipes_fillInitial (hd : field.default? = none)
    (h : ∀ ref, field.kind = .message ref → (nested ref).Wipes) :
    (field.fillInitial nested).Wipes := by
  unfold fillInitial
  split
  · next ref hk => exact h ref hk
  · rw [hd]
    exact wipes_of_snd fun _ => rfl

-- ---------------------------------------------------------------------------
-- Resetting a field
-- ---------------------------------------------------------------------------

/-- What a reset leaves in the storage of a field. -/
def Initial (nested : Ref → Edit Unit) (field : Field Ref) (content : Bytes) : Prop :=
  match field.multiplicity with
  | .repeated | .oneof _ => content = Bytes.zeros field.storage.length
  | .required | .optional =>
    (field.fillInitial nested).result (Bytes.zeros field.storage.length) = (.ok (), content)

/-- The field is as a reset leaves it. -/
structure Fresh (nested : Ref → Edit Unit) (field : Field Ref) (block : Bytes) : Prop where
  slot : ∀ slot, field.sizeSlot? = some slot → block.slice? slot = some (Bytes.zeros slot.length)
  storage : ∃ content, block.slice? field.storage = some content ∧ field.Initial nested content

/-- The part of a reset that concerns the storage. -/
def resetStorage (nested : Ref → Edit Unit) (field : Field Ref) : Edit Unit :=
  match field.multiplicity with
  | .repeated => Edit.clear field field.array
  | .oneof _ => Edit.clear field field.data
  | .required | .optional =>
    Edit.inside field field.data do
      modify fun stored => Bytes.zeros stored.length
      field.fillInitial nested

def resetSlot (field : Field Ref) : Edit Unit :=
  match field.sizeSlot? with
  | some span => Edit.clear field span
  | none => pure ()

theorem reset_eq : field.reset nested = (field.resetSlot >>= fun _ => field.resetStorage nested) := by
  unfold reset resetSlot resetStorage
  cases field.sizeSlot? <;> cases field.multiplicity <;> rfl

theorem storage_eq_array (hh : field.isHandled = false) (hm : field.multiplicity = .repeated) :
    field.storage = field.array := by
  simp [storage, hh, isRepeated, hm]

theorem storage_eq_data (hm : field.multiplicity ≠ .repeated) : field.storage = field.data := by
  simp [storage, isRepeated, hm]

theorem keepsLength_refill (h : ∀ ref, (nested ref).KeepsLength) : Edit.KeepsLength (do
    modify fun stored => Bytes.zeros stored.length
    field.fillInitial nested) := by
  intro block
  rw [Step.result_bind_ok (Step.result_modify _ block)]
  exact (keepsLength_fillInitial h _).trans (Bytes.length_zeros _)

theorem touches_resetStorage (hh : field.isHandled = false) (h : ∀ ref, (nested ref).KeepsLength) :
    (field.resetStorage nested).Touches (· ∈ field.storage) := by
  cases hm : field.multiplicity with
  | «repeated» =>
    rw [storage_eq_array hh hm]
    simp only [resetStorage, hm]
    exact touches_clear
  | oneof group =>
    rw [storage_eq_data (by simp [hm])]
    simp only [resetStorage, hm]
    exact touches_clear
  | required | optional =>
    rw [storage_eq_data (by simp [hm])]
    simp only [resetStorage, hm]
    exact touches_inside (keepsLength_refill h)

theorem touches_resetSlot : field.resetSlot.Touches field.slotPlaces := by
  unfold resetSlot
  split
  · next slot hs => exact touches_clear.mono fun place hp => ⟨slot, hs, hp⟩
  · exact touches_pure ()

theorem touches_reset (hh : field.isHandled = false) (h : ∀ ref, (nested ref).KeepsLength) :
    (field.reset nested).Touches field.extent := by
  rw [reset_eq]
  exact (touches_resetSlot.mono fun _ => extent_of_slotPlaces hh).bind fun _ =>
    (touches_resetStorage hh h).mono fun _ => extent_of_storage hh

theorem wipes_resetSlot : field.resetSlot.Wipes := by
  unfold resetSlot
  split
  · exact wipes_clear
  · exact wipes_of_snd fun _ => rfl

/-- Members of a group have no initial content of their own. -/
theorem wipes_reset_member (hg : field.group?.isSome) : (field.reset nested).Wipes := by
  rw [reset_eq]
  refine wipes_resetSlot.bind fun _ => ?_
  cases hm : field.multiplicity with
  | oneof group =>
    simp only [resetStorage, hm]
    exact wipes_clear
  | required | optional | «repeated» => simp [group?, hm] at hg

theorem wipes_reset (hd : field.default? = none)
    (h : ∀ ref, field.kind = .message ref → (nested ref).Wipes) :
    (field.reset nested).Wipes := by
  rw [reset_eq]
  refine wipes_resetSlot.bind fun _ => ?_
  cases hm : field.multiplicity with
  | «repeated» | oneof =>
    simp only [resetStorage, hm]
    exact wipes_clear
  | required | optional =>
    simp only [resetStorage, hm]
    exact wipes_inside (wipes_zeros.bind fun _ => wipes_fillInitial hd h)

/-- Without a default there is nothing but zeros. -/
theorem Initial.eq_zeros {content : Bytes} (hi : field.Initial nested content)
    (hd : field.default? = none) (h : ∀ ref, field.kind = .message ref → (nested ref).Wipes) :
    content = Bytes.zeros field.storage.length := by
  cases hm : field.multiplicity with
  | «repeated» | oneof => simpa only [Initial, hm] using hi
  | required | optional =>
    simp only [Initial, hm] at hi
    have hzeros := (wipes_fillInitial hd h).zeros field.storage.length
    rwa [hi] at hzeros

-- ---------------------------------------------------------------------------
-- What a reset leaves
-- ---------------------------------------------------------------------------

theorem slice_resetStorage (hh : field.isHandled = false) (h : ∀ ref, (nested ref).KeepsLength)
    (hr : (field.resetStorage nested).result block = (.ok (), after)) :
    ∃ content, after.slice? field.storage = some content ∧ field.Initial nested content := by
  cases hm : field.multiplicity with
  | «repeated» =>
    simp only [resetStorage, hm] at hr
    simp only [Initial, hm]
    rw [storage_eq_array hh hm]
    exact ⟨_, slice_clear hr, rfl⟩
  | oneof group =>
    simp only [resetStorage, hm] at hr
    simp only [Initial, hm]
    rw [storage_eq_data (by simp [hm])]
    exact ⟨_, slice_clear hr, rfl⟩
  | required | optional =>
    simp only [resetStorage, hm] at hr
    simp only [Initial, hm]
    rw [storage_eq_data (by simp [hm])]
    obtain ⟨stored, content, hs, hc, rfl⟩ := inside_eq_ok hr
    rw [Step.result_bind_ok (Step.result_modify _ stored), Bytes.length_slice hs] at hc
    refine ⟨content, Bytes.slice_overwrite_self hs ?_, hc⟩
    have hkeep : (field.fillInitial nested).KeepsLength := keepsLength_fillInitial h
    have hlen := hkeep (Bytes.zeros field.data.length)
    rwa [hc, Bytes.length_zeros, ← Bytes.length_slice hs] at hlen

theorem slice_resetSlot (hr : field.resetSlot.result block = (.ok (), after)) {slot : Span}
    (hs : field.sizeSlot? = some slot) : after.slice? slot = some (Bytes.zeros slot.length) := by
  simp only [resetSlot, hs] at hr
  exact slice_clear hr

/-- A field whose slot is apart from its storage is fresh once it has been reset. -/
theorem fresh_of_reset (hh : field.isHandled = false) (h : ∀ ref, (nested ref).KeepsLength)
    (hself : field.spans.Pairwise Span.Apart)
    (hr : (field.reset nested).result block = (.ok (), after)) : field.Fresh nested after := by
  rw [reset_eq] at hr
  rcases hslot : field.resetSlot.result block with ⟨outcome, middle⟩
  cases outcome with
  | error failure =>
    rw [Step.result_bind_error hslot] at hr
    cases hr
  | ok =>
    rw [Step.result_bind_ok hslot] at hr
    refine ⟨fun slot hs => ?_, slice_resetStorage hh h hr⟩
    have hagree := touches_resetStorage hh h middle
    rw [hr] at hagree
    rw [← hagree.slice fun place hp hin => ?_]
    · exact slice_resetSlot hslot hs
    · exact not_slotPlaces_of_storage hh hself hin ((slotPlaces_iff hs).mpr hp)

/-- No member of a group is active once one of them has been reset. -/
theorem slot_reset_member (hg : field.group?.isSome) {slot : Span} (hs : field.sizeSlot? = some slot)
    (hr : (field.reset nested).result block = (.ok (), after)) : field.slot after = .ok 0 := by
  rw [reset_eq, Step.result_bind_eq_ok] at hr
  obtain ⟨_, middle, hslot, hstorage⟩ := hr
  have hwipes : (field.resetStorage nested).Wipes := by
    obtain ⟨group, hm⟩ := multiplicity_of_group hg
    simp only [resetStorage, hm]
    exact wipes_clear
  have hzero := hwipes.slice_zeros (slice_resetSlot hslot hs)
  rw [hstorage] at hzero
  exact slot_of_zeros hs hzero

/-- What touches none of the places of a field leaves it fresh. -/
theorem Fresh.congr (hh : field.isHandled = false) (hf : field.Fresh nested block)
    (h : Bytes.AgreeOn field.extent block after) : field.Fresh nested after where
  slot := fun slot hs => by
    rw [← h.slice fun place hp => extent_of_slotPlaces hh ((slotPlaces_iff hs).mpr hp)]
    exact hf.slot slot hs
  storage := by
    rw [← h.slice fun place hp => extent_of_storage hh hp]
    exact hf.storage

theorem Apart.disjoint (h : field.Apart other) (hg : ¬field.SameGroup other) {place : Nat}
    (hp : field.extent place) : ¬other.extent place := by
  rintro ⟨b, hb, hpb⟩
  obtain ⟨a, ha, hpa⟩ := hp
  rw [Apart, if_neg hg] at h
  exact Span.apart_iff.mp (h a ha b hb) place hpa hpb

/-- Resetting another field leaves a fresh field as it is: it works elsewhere, or on members of
the same group, which are zero when they are fresh. -/
theorem Fresh.keep (hf : field.Fresh nested block) (hh : field.isHandled = false)
    (ho : other.isHandled = false) (ha : field.Apart other) (h : ∀ ref, (nested ref).KeepsLength) :
    field.Fresh nested ((other.reset nested).result block).2 := by
  by_cases hg : field.SameGroup other
  · have hwipes : (other.reset nested).Wipes := wipes_reset_member (by rw [hg.2]; exact hg.1)
    refine ⟨fun slot hs => hwipes.slice_zeros (hf.slot slot hs), ?_⟩
    obtain ⟨content, hs, hc⟩ := hf.storage
    obtain rfl : content = Bytes.zeros field.storage.length := by
      cases hm : field.multiplicity with
      | oneof group => simpa only [Initial, hm] using hc
      | required | optional | «repeated» => simp [SameGroup, group?, hm] at hg
    exact ⟨_, hwipes.slice_zeros hs, hc⟩
  · exact hf.congr hh ((touches_reset ho h block).mono fun place hp => ha.disjoint hg hp)

theorem applyDefault_ok {value : Default} {stored : Bytes}
    (h : value.fits field.kind stored.length = true) :
    ∃ filled, field.applyDefault value stored = .ok filled := by
  rcases Default.fits_cases h with ⟨number, rfl, hk⟩ | ⟨content, rfl, hk, hlt⟩ | ⟨content, rfl, hk, hle⟩
  · exact ⟨_, applyDefault_scalar hk⟩
  · exact ⟨_, applyDefault_text hk hlt⟩
  · exact ⟨_, applyDefault_bytes hk hle⟩

theorem Laid.fillInitial_ok (h : field.Laid schema size) {stored : Bytes}
    (hl : stored.length = field.dataSize)
    (hn : ∀ ref, field.kind = .message ref →
      ∃ filled, (nested ref).result stored = (.ok (), filled)) :
    ∃ filled, (field.fillInitial nested).result stored = (.ok (), filled) := by
  unfold fillInitial
  split
  · next ref hk => exact hn ref hk
  · split
    · exact ⟨stored, rfl⟩
    · next value hv =>
      have hfits := h.default_fits value hv
      rw [← hl] at hfits
      obtain ⟨filled, hfilled⟩ := applyDefault_ok hfits
      rw [Step.result_bind_ok (Step.result_get stored), hfilled]
      exact ⟨filled, rfl⟩

theorem resetSlot_ok (block : Bytes)
    (hw : ∀ slot, field.sizeSlot? = some slot → slot.Within block.length) :
    ∃ after, field.resetSlot.result block = (.ok (), after) := by
  unfold resetSlot
  split
  · next slot hs =>
    obtain ⟨stored, hstored⟩ := Bytes.slice_isSome (hw slot hs)
    exact ⟨_, result_change hstored _⟩
  · exact ⟨block, rfl⟩

theorem Laid.resetStorage_ok (h : field.Laid schema size) (hs : size ≤ block.length)
    (hn : ∀ ref, field.kind = .message ref →
      ∃ filled, (nested ref).result (Bytes.zeros field.dataSize) = (.ok (), filled)) :
    ∃ after, (field.resetStorage nested).result block = (.ok (), after) := by
  obtain ⟨stored, hstored⟩ := Bytes.slice_isSome (h.storage_within hs)
  cases hm : field.multiplicity with
  | «repeated» =>
    rw [storage_eq_array h.inBlock hm] at hstored
    simp only [resetStorage, hm]
    exact ⟨_, result_change hstored _⟩
  | oneof group =>
    rw [storage_eq_data (by simp [hm])] at hstored
    simp only [resetStorage, hm]
    exact ⟨_, result_change hstored _⟩
  | required | optional =>
    rw [storage_eq_data (by simp [hm])] at hstored
    have hl : stored.length = field.dataSize := by rw [Bytes.length_slice hstored, h.length_data]
    obtain ⟨filled, hfilled⟩ := h.fillInitial_ok (Bytes.length_zeros field.dataSize) hn
    simp only [resetStorage, hm]
    rw [result_inside hstored, Step.result_bind_ok (Step.result_modify _ stored), hl, hfilled]
    exact ⟨_, rfl⟩

/-- A laid field can be reset when a message in it can be initialised. -/
theorem Laid.reset_ok (h : field.Laid schema size) (hs : size ≤ block.length)
    (hn : ∀ ref, field.kind = .message ref →
      ∃ filled, (nested ref).result (Bytes.zeros field.dataSize) = (.ok (), filled)) :
    ∃ after, (field.reset nested).result block = (.ok (), after) := by
  rw [reset_eq]
  obtain ⟨middle, hslot⟩ := resetSlot_ok block fun slot => h.slot_within hs
  have hl : (field.resetSlot.result block).2.length = block.length := wipes_resetSlot.keepsLength block
  rw [hslot] at hl
  rw [Step.result_bind_ok hslot]
  exact h.resetStorage_ok (by rwa [hl]) hn

end Field

-- ---------------------------------------------------------------------------
-- Tables
-- ---------------------------------------------------------------------------

namespace Table

open Edit

variable {table : Table Ref}

/-- A place of a field that lies in the block. -/
def inBlock (table : Table Ref) (place : Nat) : Prop :=
  ∃ field ∈ table.fields, field.isHandled = false ∧ field.extent place

/-- What is apart from all other fields is apart from the fields in the block. -/
theorem Fits.not_inBlock_of_handled (h : table.Fits schema) (hf : field ∈ table.fields)
    (hh : field.isHandled = true)
    (hsep : ∀ other ∈ table.fields, other.tag ≠ field.tag → field.Apart other) {place : Nat}
    (hp : place ∈ field.data) : ¬table.inBlock place := by
  rintro ⟨other, ho, hother, hpo⟩
  have hne : other.tag ≠ field.tag := fun ht => by
    rw [eq_of_tag_eq h.tags_ne hf ho ht, hh] at hother
    cases hother
  refine (hsep other ho hne).disjoint (fun hg => ?_) ⟨field.data, by simp [Field.spans, hh], hp⟩ hpo
  simp [Field.SameGroup, (h.handled field hf hh).group_eq] at hg

/-- What a reset does once the block has been found long enough. -/
def resetEach (nested : Ref → Edit Unit) (fields : List (Field Ref)) : Edit Unit :=
  fields.forM fun field => if field.isHandled then pure () else field.reset nested

theorem reset_eq_ok : (table.reset nested).result block = (.ok (), after) ↔
    table.checkBlock block = .ok () ∧
      (resetEach nested table.fields).result block = (.ok (), after) := by
  rw [Table.reset, Step.result_bind_eq_ok]
  constructor
  · rintro ⟨_, middle, hcheck, heach⟩
    obtain ⟨hok, rfl⟩ : table.checkBlock block = .ok () ∧ block = middle := by
      simpa [ask] using hcheck
    exact ⟨hok, heach⟩
  · rintro ⟨hcheck, heach⟩
    exact ⟨(), block, Prod.ext hcheck rfl, heach⟩

theorem touches_resetEach (h : ∀ ref, (nested ref).KeepsLength) {fields : List (Field Ref)}
    (hsub : ∀ field ∈ fields, field ∈ table.fields) :
    Touches (resetEach nested fields) table.inBlock := by
  refine Touches.forM fun field hf => ?_
  cases hh : field.isHandled with
  | true => exact touches_pure ()
  | false =>
    exact (Field.touches_reset hh h).mono fun place hp => ⟨field, hsub field hf, hh, hp⟩

theorem touches_reset (h : ∀ ref, (nested ref).KeepsLength) :
    (table.reset nested).Touches table.inBlock :=
  (touches_ask _).bind fun _ => touches_resetEach h fun _ hf => hf

theorem keepsLength_reset (h : ∀ ref, (nested ref).KeepsLength) : (table.reset nested).KeepsLength :=
  (touches_reset h).keepsLength

theorem wipes_reset (hd : table.Undefaulted) (h : ∀ ref ∈ table.nested, (nested ref).Wipes) :
    (table.reset nested).Wipes := by
  refine (wipes_of_snd fun _ => rfl).bind fun _ => Wipes.forM fun field hf => ?_
  cases hh : field.isHandled with
  | true => exact wipes_of_snd fun _ => rfl
  | false => exact Field.wipes_reset (hd field hf) fun ref hk => h ref (mem_nested hf hh hk)

theorem checkBlock_ok (h : table.size ≤ block.length) : table.checkBlock block = .ok () := by
  rw [checkBlock, if_neg (by omega)]

theorem checkBlock_le (h : table.checkBlock block = .ok ()) : table.size ≤ block.length := by
  unfold checkBlock at h
  split at h
  · cases h
  · omega

theorem Laid.reset_ok (h : table.Laid schema) (hs : table.size ≤ block.length)
    (hkeep : ∀ ref, (nested ref).KeepsLength)
    (hn : ∀ ref ∈ table.nested,
      ∃ filled, (nested ref).result (Bytes.zeros (schema ref).size) = (.ok (), filled)) :
    ∃ after, (table.reset nested).result block = (.ok (), after) := by
  have heach : Step.Ends (resetEach nested table.fields) block
      (fun _ after => table.size ≤ after.length) fun _ _ => False := by
    refine Step.Ends.forM (fun field hf u hu => ?_) hs
    cases hh : field.isHandled with
    | true => exact hu
    | false =>
      have hl := h.laid field hf hh
      obtain ⟨after, hr⟩ := hl.reset_ok hu fun ref hk => by
        rw [hl.dataSize_of_message hk]
        exact hn ref (mem_nested hf hh hk)
      have hlen := (Field.touches_reset hh hkeep).keepsLength u
      rw [hr] at hlen
      exact .of_ok hr (by rwa [hlen])
  obtain ⟨_, after, hr, -⟩ := heach.answers
  exact ⟨after, reset_eq_ok.mpr ⟨checkBlock_ok hs, hr⟩⟩

theorem fresh_resetEach {fields : List (Field Ref)} (hh : field.isHandled = false)
    (hf : field.Fresh nested block) (ha : ∀ other ∈ fields, field.Apart other)
    (hkeep : ∀ ref, (nested ref).KeepsLength)
    (hr : (resetEach nested fields).result block = (.ok (), after)) : field.Fresh nested after := by
  induction fields generalizing block with
  | nil =>
    cases hr
    exact hf
  | cons other rest ih =>
    rw [resetEach, List.forM, Step.result_bind_eq_ok] at hr
    obtain ⟨_, middle, hfirst, hrest⟩ := hr
    refine ih ?_ (fun last hl => ha last (by simp [hl])) hrest
    cases hother : other.isHandled with
    | true =>
      rw [hother] at hfirst
      cases hfirst
      exact hf
    | false =>
      have hk := hf.keep hh hother (ha other (by simp)) hkeep
      rw [hother, if_neg (by simp)] at hfirst
      rwa [hfirst] at hk

theorem fresh_of_resetEach {watched : Field Ref → Prop} {fields : List (Field Ref)}
    (ht : fields.Pairwise (·.tag ≠ ·.tag)) (hsep : ∀ field ∈ fields, watched field →
      field.spans.Pairwise Span.Apart ∧
        ∀ other ∈ fields, other.tag ≠ field.tag → field.Apart other)
    (hkeep : ∀ ref, (nested ref).KeepsLength)
    (hr : (resetEach nested fields).result block = (.ok (), after)) :
    ∀ field ∈ fields, watched field → field.isHandled = false → field.Fresh nested after := by
  induction fields generalizing block with
  | nil => simp
  | cons first rest ih =>
    intro field hf hw hh
    rw [resetEach, List.forM, Step.result_bind_eq_ok] at hr
    obtain ⟨_, middle, hfirst, hrest⟩ := hr
    obtain ⟨hne, ht⟩ := List.pairwise_cons.mp ht
    rcases List.mem_cons.mp hf with rfl | hf
    · obtain ⟨hself, hother⟩ := hsep field (by simp) hw
      rw [hh] at hfirst
      refine fresh_resetEach hh (Field.fresh_of_reset hh hkeep hself hfirst) ?_ hkeep hrest
      exact fun other ho => hother other (by simp [ho]) (hne other ho).symm
    · refine ih ht (fun field hf hw => ?_) hrest field hf hw hh
      obtain ⟨hself, hother⟩ := hsep field (by simp [hf]) hw
      exact ⟨hself, fun other ho => hother other (by simp [ho])⟩

/-- Every field that has its places to itself is fresh once its table has been reset. -/
theorem fresh_of_reset {watched : Field Ref → Prop} (ht : table.fields.Pairwise (·.tag ≠ ·.tag))
    (hsep : table.Separate watched) (hkeep : ∀ ref, (nested ref).KeepsLength)
    (hr : (table.reset nested).result block = (.ok (), after)) :
    ∀ field ∈ table.fields, watched field → field.isHandled = false →
      field.Fresh nested after :=
  fresh_of_resetEach ht hsep hkeep (reset_eq_ok.mp hr).2

end Table

-- ---------------------------------------------------------------------------
-- Schemas
-- ---------------------------------------------------------------------------

namespace Schema

open Edit

theorem keepsLength_initialiseWithin (schema : Schema Ref) (levels : Nat) (ref : Ref) :
    (schema.initialiseWithin levels ref).KeepsLength := by
  induction levels generalizing ref with
  | zero => exact fun _ => rfl
  | succ levels ih => exact Table.keepsLength_reset ih

/-- Initialisation touches the fields in the block and nothing else, whether it succeeds or not. -/
theorem touches_initialiseWithin (schema : Schema Ref) (levels : Nat) (ref : Ref) :
    (schema.initialiseWithin levels ref).Touches (schema ref).inBlock := by
  cases levels with
  | zero => exact touches_throw _
  | succ levels => exact Table.touches_reset (keepsLength_initialiseWithin schema levels)

theorem wipes_initialiseWithin (levels : Nat) {ref : Ref}
    (hd : schema.Throughout Table.Undefaulted ref) : (schema.initialiseWithin levels ref).Wipes := by
  induction levels generalizing ref with
  | zero => exact wipes_of_snd fun _ => rfl
  | succ levels ih => exact Table.wipes_reset hd.here fun inner hn => ih (hd.nested hn)

theorem size_le_of_initialise {ref : Ref}
    (hr : (schema.initialise ref).result block = (.ok (), after)) : (schema ref).size ≤ after.length := by
  rw [(keepsLength_initialiseWithin schema _ ref).length_eq hr]
  exact Table.checkBlock_le (Table.reset_eq_ok.mp hr).1

/-- Initialisation succeeds on every block that is long enough for laid tables. -/
theorem initialiseWithin_ok {levels : Nat} {ref : Ref} (h : schema.Laid levels ref)
    (hs : (schema ref).size ≤ block.length) :
    ∃ after, (schema.initialiseWithin levels ref).result block = (.ok (), after) := by
  induction levels generalizing ref block with
  | zero => cases h
  | succ levels ih =>
    refine h.here.reset_ok hs (keepsLength_initialiseWithin schema levels) fun inner hn => ?_
    exact ih (h.nested hn) (Nat.le_of_eq (Bytes.length_zeros _).symm)

end Schema

end BlockCodec
