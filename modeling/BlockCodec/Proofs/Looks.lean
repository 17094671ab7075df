import BlockCodec.Proofs.Actions
import BlockCodec.Proofs.Bindings

/-!
# What a view reads

All that a view tells of the field with a tag is its `Reading`. It depends on the places of the field
alone (`View.reading_congr`), so it is the same for two blocks that agree on these, whether it succeeds
or fails. The active tag of a group depends on the place that its members share.
-/

namespace BlockCodec

variable {Ref : Type} {schema : Schema Ref} {size : Nat} {field : Field Ref} {table : Table Ref}
  {block after : Bytes} {tag : Nat}

theorem bind_congr_ok {ε α β : Type} {outcome : Except ε α} {next next' : α → Except ε β}
    (h : ∀ value, outcome = .ok value → next value = next' value) :
    outcome >>= next = outcome >>= next' := by
  cases outcome with
  | ok value => exact h value rfl
  | error failure => rfl

-- ---------------------------------------------------------------------------
-- Fields
-- ---------------------------------------------------------------------------

namespace Field

theorem load_congr {span : Span} (h : Bytes.AgreeOn field.extent block after)
    (hs : ∀ place ∈ span, field.extent place) : field.load span after = field.load span block := by
  rw [load, load, h.slice hs]

theorem load_data_congr (h : Bytes.AgreeOn field.extent block after)
    (hm : field.multiplicity ≠ .repeated) : field.load field.data after = field.load field.data block :=
  load_congr h fun _ hp => extent_of_data hm hp

theorem slot_congr_extent (hh : field.isHandled = false) (h : Bytes.AgreeOn field.extent block after) :
    field.slot after = field.slot block :=
  slot_congr (h.mono fun _ hp => extent_of_slotPlaces hh hp)

theorem isActive_congr (hh : field.isHandled = false) (h : Bytes.AgreeOn field.extent block after) :
    field.isActive after = field.isActive block := by
  unfold isActive
  rw [slot_congr_extent hh h]

theorem isPresent_congr (hh : field.isHandled = false) (h : Bytes.AgreeOn field.extent block after) :
    field.isPresent after = field.isPresent block := by
  unfold isPresent
  cases hm : field.multiplicity with
  | required => rfl
  | «repeated» => simp only [slot_congr_extent hh h]
  | oneof group => exact isActive_congr hh h
  | optional => simp only [slot_congr_extent hh h, load_data_congr h (by simp [hm])]

theorem count_congr (hh : field.isHandled = false) (h : Bytes.AgreeOn field.extent block after) :
    field.count after = field.count block := by
  unfold count
  rw [slot_congr_extent hh h]

theorem elementSpan_congr (hh : field.isHandled = false) (h : Bytes.AgreeOn field.extent block after)
    (index : Nat) : field.elementSpan index after = field.elementSpan index block := by
  unfold elementSpan
  rw [count_congr hh h]

/-- Whatever is read from an element in use, when the blocks agree on the elements in use. -/
theorem readElement_congr {α : Type} {index : Nat} {read : Bytes → Except CodecError α}
    (hspan : field.elementSpan index after = field.elementSpan index block)
    (hload : ∀ count, field.count block = .ok count → index < count →
      field.load (field.element index) after = field.load (field.element index) block) :
    (field.elementSpan index after >>= fun span => field.load span after >>= read) =
      (field.elementSpan index block >>= fun span => field.load span block >>= read) := by
  rw [hspan]
  refine bind_congr_ok fun span hs => ?_
  obtain ⟨count, hcount, hlt, rfl⟩ := elementSpan_eq_ok.mp hs
  rw [hload count hcount hlt]

theorem Fits.load_element_congr (hfits : field.Fits schema size) (hm : field.multiplicity = .repeated)
    (h : Bytes.AgreeOn field.extent block after) {count index : Nat}
    (hcount : field.count block = .ok count) (hi : index < count) :
    field.load (field.element index) after = field.load (field.element index) block :=
  load_congr h fun _ hp => hfits.extent_of_element hm (by have := (count_eq_ok.mp hcount).2; omega) hp

end Field

-- ---------------------------------------------------------------------------
-- Members of groups
-- ---------------------------------------------------------------------------

namespace Table

theorem Fits.inBlock_of_group (h : table.Fits schema) (hf : field ∈ table.fields)
    (hg : field.group?.isSome) : field.isHandled = false := by
  cases hh : field.isHandled with
  | false => rfl
  | true => simp [(h.handled field hf hh).group_eq] at hg

theorem Laid.grouped (h : table.Laid schema) : table.Grouped := h.groups

/-- All members of a group read the same active tag. -/
theorem Grouped.slot_member {other : Field Ref} (h : table.Grouped) (hf : field ∈ table.fields)
    (ho : other ∈ table.fields) (hg : field.SameGroup other) {value : Nat}
    (hv : field.slot block = .ok value) : other.slot block = .ok value :=
  Field.slot_of_sizeSlot_eq (hg.sizeSlot_eq (h field hf other ho hg)) hv

end Table

namespace View

/-- All that a view tells of the field with a tag. -/
structure Reading (Ref : Type) where
  has : Except CodecError Bool
  get : Except CodecError Scalar
  getText : Except CodecError String
  getBytes : Except CodecError Bytes
  submessage : Except CodecError (View Ref)
  count : Except CodecError Nat
  getAt : Nat → Except CodecError Scalar
  getTextAt : Nat → Except CodecError String
  getBytesAt : Nat → Except CodecError Bytes
  element : Nat → Except CodecError (View Ref)

def reading (schema : Schema Ref) (view : View Ref) (tag : Nat) : Reading Ref where
  has := view.has tag
  get := view.get tag
  getText := view.getText tag
  getBytes := view.getBytes tag
  submessage := view.submessage schema tag
  count := view.count tag
  getAt := view.getAt tag
  getTextAt := view.getTextAt tag
  getBytesAt := view.getBytesAt tag
  element := view.element schema tag

-- ---------------------------------------------------------------------------
-- Single fields
-- ---------------------------------------------------------------------------

section

variable (hf : field ∈ table.fields) (hh : field.isHandled = false)
  (hm : field.multiplicity ≠ .repeated) (htags : table.fields.Pairwise (·.tag ≠ ·.tag))

include hf hh hm htags

theorem get_eq (hk : field.kind.isScalar = true) :
    get ⟨table, block⟩ field.tag = (do
      if ← field.isActive block then
        let stored ← field.load field.data block
        pure (field.kind.loadScalar stored)
      else pure (field.kind.loadScalar (Bytes.zeros 8))) := by
  have hsingle : field.expectSingle = .ok () := by simp [Field.expectSingle, hh, Field.isRepeated, hm]
  have hscalar : field.expectScalar = .ok () := by simp [Field.expectScalar, hk]
  simp only [get, Table.lookUp_of_mem htags hf, hsingle, hscalar, bind_ok]

theorem getText_eq (hk : field.kind = .text) :
    getText ⟨table, block⟩ field.tag = (do
      if ← field.isActive block then
        let stored ← field.load field.data block
        field.text stored
      else pure "") := by
  have hsingle : field.expectSingle = .ok () := by simp [Field.expectSingle, hh, Field.isRepeated, hm]
  have htext : field.expectText = .ok () := by simp [Field.expectText, hk]
  simp only [getText, Table.lookUp_of_mem htags hf, hsingle, htext, bind_ok]

theorem getBytes_eq (hk : field.kind = .bytes) :
    getBytes ⟨table, block⟩ field.tag = (do
      if ← field.isActive block then
        let stored ← field.load field.data block
        field.payload stored
      else pure []) := by
  have hsingle : field.expectSingle = .ok () := by simp [Field.expectSingle, hh, Field.isRepeated, hm]
  have hbytes : field.expectBytes = .ok () := by simp [Field.expectBytes, hk]
  simp only [getBytes, Table.lookUp_of_mem htags hf, hsingle, hbytes, bind_ok]

theorem submessage_eq {inner : Ref} (hk : field.kind = .message inner) :
    submessage schema ⟨table, block⟩ field.tag = (do
      let stored ← field.load field.data block
      ofBlock (schema inner) stored) := by
  have hsingle : field.expectSingle = .ok () := by simp [Field.expectSingle, hh, Field.isRepeated, hm]
  have hmessage : field.expectMessage = .ok inner := by simp [Field.expectMessage, hk]
  simp only [submessage, Table.lookUp_of_mem htags hf, hsingle, hmessage, bind_ok]

end

-- ---------------------------------------------------------------------------
-- Blocks that agree on a field
-- ---------------------------------------------------------------------------

theorem has_of_inBlock (htags : table.fields.Pairwise (·.tag ≠ ·.tag)) (hf : field ∈ table.fields)
    (hh : field.isHandled = false) : has ⟨table, block⟩ field.tag = field.isPresent block := by
  simp [has, Table.lookUp_of_mem htags hf, bind_ok, hh]

section

variable (h : ∀ field, table.lookUp tag = .ok field → Bytes.AgreeOn field.extent block after)

include h

theorem has_congr : has ⟨table, after⟩ tag = has ⟨table, block⟩ tag := by
  refine bind_congr_ok fun field hf => ?_
  have hagree := h field hf
  cases hh : field.isHandled with
  | true =>
    have hslot : field.handlerSlot after = field.handlerSlot block :=
      Field.handlerSlot_congr
        (hagree.slice fun place hp => ⟨field.data, by simp [Field.spans, hh], hp⟩)
    simp only [if_true, hslot]
  | false => simpa using Field.isPresent_congr hh hagree

theorem get_congr : get ⟨table, after⟩ tag = get ⟨table, block⟩ tag := by
  refine bind_congr_ok fun field hf => bind_congr_ok fun _ hs => bind_congr_ok fun _ _ => ?_
  obtain ⟨hh, hm⟩ := Update.single_of_expect hs
  simp only [Field.isActive_congr hh (h field hf), Field.load_data_congr (h field hf) hm]

theorem getText_congr : getText ⟨table, after⟩ tag = getText ⟨table, block⟩ tag := by
  refine bind_congr_ok fun field hf => bind_congr_ok fun _ hs => bind_congr_ok fun _ _ => ?_
  obtain ⟨hh, hm⟩ := Update.single_of_expect hs
  simp only [Field.isActive_congr hh (h field hf), Field.load_data_congr (h field hf) hm]

theorem getBytes_congr : getBytes ⟨table, after⟩ tag = getBytes ⟨table, block⟩ tag := by
  refine bind_congr_ok fun field hf => bind_congr_ok fun _ hs => bind_congr_ok fun _ _ => ?_
  obtain ⟨hh, hm⟩ := Update.single_of_expect hs
  simp only [Field.isActive_congr hh (h field hf), Field.load_data_congr (h field hf) hm]

theorem submessage_congr :
    submessage schema ⟨table, after⟩ tag = submessage schema ⟨table, block⟩ tag := by
  refine bind_congr_ok fun field hf => bind_congr_ok fun _ hs => bind_congr_ok fun _ _ => ?_
  simp only [Field.load_data_congr (h field hf) (Update.single_of_expect hs).2]

theorem count_congr : count ⟨table, after⟩ tag = count ⟨table, block⟩ tag := by
  refine bind_congr_ok fun field hf => ?_
  split
  · next hr => exact Field.count_congr (by simpa using hr.2) (h field hf)
  · rw [has_congr h]

end

/-- Whatever is read from the elements of an array, when the blocks agree on those in use. -/
theorem readArray_congr {α β : Type} {check : Field Ref → Except CodecError β}
    {read : Field Ref → β → Bytes → Except CodecError α} {index : Nat}
    (h : ∀ field, table.lookUp tag = .ok field → field.expectArray = .ok () →
      field.elementSpan index after = field.elementSpan index block ∧
      ∀ count, field.count block = .ok count → index < count →
        field.load (field.element index) after = field.load (field.element index) block) :
    (table.lookUp tag >>= fun field => field.expectArray >>= fun _ => check field >>= fun value =>
      field.elementSpan index after >>= fun span => field.load span after >>= read field value) =
    (table.lookUp tag >>= fun field => field.expectArray >>= fun _ => check field >>= fun value =>
      field.elementSpan index block >>= fun span => field.load span block >>= read field value) :=
  bind_congr_ok fun field hf => bind_congr_ok fun _ hs => bind_congr_ok fun _ _ =>
    Field.readElement_congr (h field hf hs).1 (h field hf hs).2

/-- The reading of a field depends on its places alone. -/
theorem reading_congr (hfits : table.Fits schema)
    (h : ∀ field, table.lookUp tag = .ok field → Bytes.AgreeOn field.extent block after) :
    reading schema ⟨table, after⟩ tag = reading schema ⟨table, block⟩ tag := by
  have harray : ∀ index field, table.lookUp tag = .ok field → field.expectArray = .ok () →
      field.elementSpan index after = field.elementSpan index block ∧
      ∀ count, field.count block = .ok count → index < count →
        field.load (field.element index) after = field.load (field.element index) block := by
    intro index field hf hs
    obtain ⟨hh, hm⟩ := Update.array_of_expect hs
    have hfield := hfits.stored field (Table.mem_of_lookUp hf).1 hh
    exact ⟨Field.elementSpan_congr hh (h field hf) index, fun count hcount hi =>
      hfield.load_element_congr hm (h field hf) hcount hi⟩
  simp only [reading, has_congr h, get_congr h, getText_congr h, getBytes_congr h, submessage_congr h,
    count_congr h, Reading.mk.injEq, true_and]
  refine ⟨?_, ?_, ?_, ?_⟩ <;> exact funext fun index => readArray_congr (harray index)

/-- The active tag of a group depends on the place that its members share. -/
theorem which_congr {group : Nat} (htags : table.fields.Pairwise (·.tag ≠ ·.tag))
    (h : ∀ member ∈ table.members group, Bytes.AgreeOn member.slotPlaces block after) :
    which ⟨table, after⟩ group = which ⟨table, block⟩ group := by
  unfold which
  cases hm : table.members group with
  | nil => rfl
  | cons member rest =>
    have hmem : member ∈ table.members group := by simp [hm]
    simp only [Table.lookUp_of_mem htags (Schema.group_of_mem_members hmem).1, bind_ok,
      Field.slot_congr (h member hmem)]

end View

end BlockCodec
