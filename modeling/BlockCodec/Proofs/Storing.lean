import BlockCodec.Proofs.Looks
import BlockCodec.Proofs.Narrowing
import BlockCodec.Proofs.Reach

/-!
# What is stored is read

A successful update of a field through a view is seen by every read that follows it, and by no read of
another field: `View.store_laws`. The value comes back cut to the kind of the field, the field is
present, an array has one more element behind the ones it had, and of the other fields only the members
of the same group change, which are absent afterwards. A text comes back whole when there is no zero
byte in it; `View.pushText_cut` shows one that does not.
-/

namespace BlockCodec

variable {Ref : Type} {schema : Schema Ref} {table : Table Ref} {field other : Field Ref}
  {block after stored content : Bytes} {tag : Nat}

/-- What the laws need of a table: what the checks say, and fields that keep to their own places. -/
structure Table.Regular (schema : Schema Ref) (table : Table Ref) : Prop
    extends Fits schema table where
  slotted : table.Slotted schema
  grouped : table.Grouped
  disjoint : table.Disjoint

theorem Table.regular_of_validate {ref : Ref} (hvalid : Table.validate schema ref = .ok ())
    (hd : (schema ref).Disjoint) : (schema ref).Regular schema :=
  ⟨(Schema.fits_of_validate hvalid).here, (Schema.slotted_of_validate hvalid).here,
    (Schema.grouped_of_validate hvalid).here, hd⟩

theorem Table.Slotted.laid_of_group (h : table.Slotted schema) (hfits : table.Fits schema) (hf : field ∈ table.fields)
    (hg : field.group?.isSome) : field.Laid schema table.size := by
  obtain ⟨_, hm⟩ := Field.multiplicity_of_group hg
  exact h field hf (hfits.inBlock_of_group hf hg) (by simp [hm])

namespace Table.Regular

theorem laid (h : table.Regular schema) (hf : field ∈ table.fields) (hh : field.isHandled = false)
    (hm : field.multiplicity ≠ .required) : field.Laid schema table.size :=
  h.slotted field hf hh hm

theorem laid_of_group (h : table.Regular schema) (hf : field ∈ table.fields)
    (hg : field.group?.isSome) : field.Laid schema table.size :=
  h.slotted.laid_of_group h.toFits hf hg

/-- An update leaves the places of the fields outside its group alone. -/
theorem not_updates (h : table.Regular schema) (hf : field ∈ table.fields) (ho : other ∈ table.fields)
    (ht : other.tag ≠ field.tag) (hg : ¬field.SameGroup other) {place : Nat}
    (hp : other.extent place) : ¬table.updates field place :=
  Table.not_updates h.tags_ne h.disjoint hf ho ht hg hp

end Table.Regular

-- ---------------------------------------------------------------------------
-- Other fields
-- ---------------------------------------------------------------------------

namespace View

/-- What an update of the field leaves of the others: outside its group nothing has changed that can
be read, and the other members of its group are absent. -/
structure Frames (schema : Schema Ref) (field : Field Ref) (before after : View Ref) : Prop where
  reading : ∀ tag, tag ≠ field.tag →
    (∀ other ∈ before.table.fields, other.tag = tag → ¬field.SameGroup other) →
    after.reading schema tag = before.reading schema tag
  which : ∀ group, field.group? ≠ some group → after.which group = before.which group
  siblings : ∀ other ∈ before.table.fields, field.SameGroup other → other.tag ≠ field.tag →
    after.has other.tag = .ok false

theorem frames_of_agree (h : table.Regular schema) (hf : field ∈ table.fields)
    (hagree : Bytes.AgreeOn (fun place => ¬table.updates field place) block after)
    (hslot : field.group?.isSome → field.slot after = .ok field.tag) :
    Frames schema field ⟨table, block⟩ ⟨table, after⟩ where
  reading tag ht hg := by
    refine reading_congr h.toFits fun other hlook => ?_
    obtain ⟨ho, rfl⟩ := Table.mem_of_lookUp hlook
    exact hagree.mono fun place hp => h.not_updates hf ho ht (hg other ho rfl) hp
  which group hg := by
    refine which_congr h.tags_ne fun member hmem => ?_
    obtain ⟨hm, hgroup⟩ := Schema.group_of_mem_members hmem
    have hsome : member.group?.isSome := Option.isSome_of_eq_some hgroup
    have hne : ¬field.SameGroup member := fun hsame => hg (hsame.2.symm.trans hgroup)
    have ht : member.tag ≠ field.tag := fun ht => by
      obtain rfl := Table.eq_of_tag_eq h.tags_ne hf hm ht
      exact hg hgroup
    exact hagree.mono fun place hp => h.not_updates hf hm ht hne
      (Field.extent_of_slotPlaces (h.inBlock_of_group hm hsome) hp)
  siblings other ho hg ht := by
    rw [has_of_inBlock h.tags_ne ho (h.inBlock_of_group ho hg.symm.1),
      Field.isPresent_of_tag hg.symm.1 (h.grouped.slot_member hf ho hg (hslot hg.1)),
      beq_eq_false_iff_ne.mpr ht.symm]

/-- The field is reported present; one without a flag, when its storage is not zero. -/
def Shows (field : Field Ref) (view : View Ref) : Prop :=
  if field.multiplicity = .optional ∧ field.sizeOffset = none then
    ∃ stored, view.block.slice? field.data = some stored ∧
      view.has field.tag = .ok (!Bytes.isZero stored)
  else view.has field.tag = .ok true

/-- What an update leaves of an array that had `count` elements: one more. -/
structure Grows (schema : Schema Ref) (field : Field Ref) (count : Nat) (before after : View Ref) :
    Prop where
  counted : before.count field.tag = .ok count
  grown : after.count field.tag = .ok (count + 1)
  has : after.has field.tag = .ok true
  getAt : ∀ index < count, after.getAt field.tag index = before.getAt field.tag index
  getTextAt : ∀ index < count, after.getTextAt field.tag index = before.getTextAt field.tag index
  getBytesAt : ∀ index < count, after.getBytesAt field.tag index = before.getBytesAt field.tag index
  element : ∀ index < count,
    after.element schema field.tag index = before.element schema field.tag index

end View

namespace Update

theorem lookUp_eq_ok {α : Type} {check : Field Ref → Except CodecError α} {value : α}
    (hr : (lookUp table tag check).result block = (.ok (field, value), after)) :
    block = after ∧ field ∈ table.fields ∧ field.tag = tag ∧ check field = .ok value := by
  obtain ⟨hfound, rfl⟩ := Prod.mk.inj hr
  simp only [bind_eq_ok, pure_eq_ok, Prod.mk.injEq] at hfound
  obtain ⟨_, hlook, _, hcheck, rfl, rfl⟩ := hfound
  obtain ⟨hf, ht⟩ := Table.mem_of_lookUp hlook
  exact ⟨rfl, hf, ht, hcheck⟩

variable {expect : Field Ref → Except CodecError Unit} {write : Field Ref → Edit Unit}

-- ---------------------------------------------------------------------------
-- Single fields
-- ---------------------------------------------------------------------------

/-- The flag is set and the member is active; nothing else has changed but what goes with these. -/
structure Marked (table : Table Ref) (field : Field Ref) (block after : Bytes) : Prop where
  flag : field.multiplicity = .optional → field.sizeOffset.isSome → field.slot after = .ok 1
  active : field.group?.isSome → field.slot after = .ok field.tag
  agree : Bytes.AgreeOn (fun place => ¬(field.slotPlaces place ∨
    field.group?.isSome ∧ Schema.groupPlaces table field place)) block after

theorem marked_of_markPresent (h : table.Fits schema) (hslotted : table.Slotted schema) (hs : table.size ≤ block.length)
    (hf : field ∈ table.fields) (hh : field.isHandled = false)
    (hr : (markPresent schema table field).result block = (.ok (), after)) :
    Marked table field block after := by
  unfold markPresent at hr
  cases hm : field.multiplicity with
  | required | «repeated» =>
    simp only [hm] at hr
    cases hr
    exact ⟨by simp [hm], by simp [Field.group?, hm], .refl _ _⟩
  | optional =>
    simp only [hm] at hr
    refine ⟨fun _ hsome => ?_, by simp [Field.group?, hm], ?_⟩
    · rw [if_pos hsome] at hr
      exact (hslotted field hf hh (by simp [hm])).flag_setSlot hs hm hr
    · split at hr
      · exact (Edit.touches_setSlot.agree hr).mono fun place hp hslot => hp (.inl hslot)
      · cases hr
        exact .refl _ _
  | oneof group =>
    simp only [hm, Step.result_bind_eq_ok] at hr
    obtain ⟨active, middle, hask, hr⟩ := hr
    obtain ⟨hactive, rfl⟩ := Prod.mk.inj hask
    have hg : field.group?.isSome := by simp [Field.group?, hm]
    have hlaid := hslotted.laid_of_group h hf hg
    cases active with
    | true =>
      cases hr
      exact ⟨by simp [hm], fun _ => Field.slot_of_isActive hg hactive, .refl _ _⟩
    | false =>
      refine ⟨by simp [hm], fun _ => Schema.slot_activate hlaid hs hg (h.tag_le field hf) hr, ?_⟩
      exact ((Schema.touches_activate hf hh hg).agree hr).mono fun place hp hgroup =>
        hp (.inr ⟨hg, hgroup⟩)

/-- What a value that has been stored leaves. -/
structure Stored (table : Table Ref) (field : Field Ref) (block after content : Bytes) : Prop where
  slice : after.slice? field.data = some content
  flag : field.multiplicity = .optional → field.sizeOffset.isSome → field.slot after = .ok 1
  active : field.group?.isSome → field.slot after = .ok field.tag
  agree : Bytes.AgreeOn (fun place => ¬table.updates field place) block after

/-- A value is stored in a field whose places are apart from each other. -/
theorem stored_of_apart (h : table.Fits schema) (hslotted : table.Slotted schema)
    (hself : ∀ field ∈ table.fields, field.tag = tag → field.spans.Pairwise Span.Apart)
    (hs : table.size ≤ block.length) (hw : Suited schema .loose expect write)
    (hr : (store schema table tag expect write).result block = (.ok (), after)) :
    ∃ field ∈ table.fields, field.tag = tag ∧ field.expectSingle = .ok () ∧ expect field = .ok () ∧
      ∃ stored content, stored.length = field.dataSize ∧
        (write field).result stored = (.ok (), content) ∧ Stored table field block after content := by
  rw [store, Step.result_bind_eq_ok] at hr
  obtain ⟨⟨field, _⟩, _, hlook, hr⟩ := hr
  obtain ⟨rfl, hf, ht, hcheck⟩ := lookUp_eq_ok hlook
  obtain ⟨hsingle, hexpect⟩ := unit_bind_eq_ok.mp hcheck
  obtain ⟨hh, hm⟩ := single_of_expect hsingle
  obtain ⟨_, middle, hmark, hinside⟩ := Step.result_bind_eq_ok.mp hr
  have hmarked := marked_of_markPresent h hslotted hs hf hh hmark
  obtain ⟨stored, content, hstored, hwrite, rfl⟩ := Edit.inside_eq_ok hinside
  have hfits := h.stored field hf hh
  have hsize : stored.length = field.dataSize := by
    rw [Bytes.length_slice hstored, hfits.length_data]
  have hlen := (hw field hfits.suits hexpect).2.length_eq hsize hwrite
  have hover := Bytes.agreeOn_overwrite hstored hlen
  -- the value is stored apart from the slot
  have hslot : field.slot (Bytes.overwrite middle field.data.start content) = field.slot middle := by
    refine Field.slot_congr (hover.mono fun place hp hin => ?_)
    rw [← Field.storage_eq_data hm] at hin
    exact Field.not_slotPlaces_of_storage hh (hself field hf ht) hin hp
  refine ⟨field, hf, ht, hsingle, hexpect, stored, content, hsize, hwrite,
    Bytes.slice_overwrite_self hstored hlen, fun hopt hsome => ?_, fun hg => ?_, ?_⟩
  · rw [hslot, hmarked.flag hopt hsome]
  · rw [hslot, hmarked.active hg]
  · refine (hmarked.agree.mono fun place hp => ?_).trans (hover.mono fun place hp hin => hp ?_)
    · rintro (hin | hgroup)
      · exact hp (.inl (Field.extent_of_slotPlaces hh hin))
      · exact hp (.inr hgroup)
    · exact .inl (Field.extent_of_data hm hin)

theorem stored_of_store (h : table.Regular schema) (hs : table.size ≤ block.length)
    (hw : Suited schema .loose expect write)
    (hr : (store schema table tag expect write).result block = (.ok (), after)) :
    ∃ field ∈ table.fields, field.tag = tag ∧ field.expectSingle = .ok () ∧ expect field = .ok () ∧
      ∃ stored content, stored.length = field.dataSize ∧
        (write field).result stored = (.ok (), content) ∧ Stored table field block after content :=
  stored_of_apart h.toFits h.slotted (fun field hf _ => (h.disjoint field hf trivial).1) hs hw hr

namespace Stored

variable (h : Stored table field block after content)

include h

theorem load_eq : field.load field.data after = .ok content := by
  rw [Field.load, h.slice]

theorem isActive_eq : field.isActive after = .ok true := by
  cases hm : field.multiplicity with
  | oneof group =>
    have hg : field.group?.isSome := by simp [Field.group?, hm]
    rw [Field.isActive_of_slot hg (h.active hg), beq_self_eq_true]
  | _ => simp [Field.isActive, hm]

theorem shows (hreg : table.Regular schema) (hf : field ∈ table.fields)
    (hsingle : field.expectSingle = .ok ())
    (hzero : field.isNonzero content = .ok (!Bytes.isZero content)) :
    View.Shows field ⟨table, after⟩ := by
  obtain ⟨hh, hm⟩ := single_of_expect hsingle
  rw [View.Shows, View.has_of_inBlock hreg.tags_ne hf hh]
  cases hmult : field.multiplicity with
  | «repeated» => exact absurd hmult hm
  | required => simpa using Field.isPresent_of_required hmult
  | oneof group =>
    have hg : field.group?.isSome := by simp [Field.group?, hmult]
    simpa using (Field.isPresent_of_group hg).trans h.isActive_eq
  | optional =>
    cases ho : field.sizeOffset with
    | none =>
      rw [if_pos ⟨rfl, rfl⟩]
      exact ⟨content, h.slice, (Field.isPresent_of_storage hmult ho h.slice).trans hzero⟩
    | some offset =>
      rw [if_neg (by simp)]
      exact Field.isPresent_of_flag hmult (h.flag hmult (by simp [ho]))

theorem frames (hreg : table.Regular schema) (hf : field ∈ table.fields) :
    View.Frames schema field ⟨table, block⟩ ⟨table, after⟩ :=
  View.frames_of_agree hreg hf h.agree h.active

theorem get_eq (hreg : table.Regular schema) (hf : field ∈ table.fields)
    (hsingle : field.expectSingle = .ok ()) (hscalar : field.expectScalar = .ok ()) :
    View.get ⟨table, after⟩ field.tag = .ok (field.kind.loadScalar content) := by
  simp only [View.get, Table.lookUp_of_mem hreg.tags_ne hf, hsingle, hscalar, bind_ok, h.isActive_eq,
    if_true, h.load_eq]
  rfl

theorem getText_eq (hreg : table.Regular schema) (hf : field ∈ table.fields)
    (hsingle : field.expectSingle = .ok ()) (htext : field.expectText = .ok ()) :
    View.getText ⟨table, after⟩ field.tag = field.text content := by
  simp only [View.getText, Table.lookUp_of_mem hreg.tags_ne hf, hsingle, htext, bind_ok, h.isActive_eq,
    if_true, h.load_eq]

theorem getBytes_eq (hreg : table.Regular schema) (hf : field ∈ table.fields)
    (hsingle : field.expectSingle = .ok ()) (hbytes : field.expectBytes = .ok ()) :
    View.getBytes ⟨table, after⟩ field.tag = field.payload content := by
  simp only [View.getBytes, Table.lookUp_of_mem hreg.tags_ne hf, hsingle, hbytes, bind_ok, h.isActive_eq,
    if_true, h.load_eq]

end Stored

-- ---------------------------------------------------------------------------
-- Arrays
-- ---------------------------------------------------------------------------

/-- What an element that has been stored behind `count` others leaves. -/
structure Pushed (table : Table Ref) (field : Field Ref) (count : Nat) (block after content : Bytes) :
    Prop where
  count_before : field.count block = .ok count
  count_after : field.count after = .ok (count + 1)
  slice : after.slice? (field.element count) = some content
  agree : Bytes.AgreeOn (fun place => ¬(field.slotPlaces place ∨ place ∈ field.element count))
    block after

theorem append_eq_ok {span : Span} (hr : (append field).result block = (.ok span, after)) :
    ∃ count, field.count block = .ok count ∧ count < field.capacity ∧ span = field.element count ∧
      (Edit.setSlot field (count + 1)).result block = (.ok (), after) := by
  rw [append, Step.result_bind_eq_ok] at hr
  obtain ⟨count, _, hask, hr⟩ := hr
  obtain ⟨hcount, rfl⟩ := Prod.mk.inj hask
  split at hr
  · obtain ⟨_, _, hthrow, -⟩ := Step.result_bind_eq_ok.mp hr
    cases hthrow
  · next hlt =>
    obtain ⟨_, middle, hset, hpure⟩ := Step.result_bind_eq_ok.mp hr
    cases hpure
    exact ⟨count, hcount, by omega, rfl, hset⟩

/-- An element is stored in an array whose places are apart from each other. -/
theorem pushed_of_apart (hslotted : table.Slotted schema)
    (hself : ∀ field ∈ table.fields, field.tag = tag → field.spans.Pairwise Span.Apart)
    (hshort : table.size < 2 ^ 32) (hs : table.size ≤ block.length) (hw : Suited schema .loose expect write)
    (hr : (pushValue table tag expect write).result block = (.ok (), after)) :
    ∃ field ∈ table.fields, field.tag = tag ∧ field.expectArray = .ok () ∧ expect field = .ok () ∧
      ∃ count stored content, stored.length = field.dataSize ∧
        (write field).result stored = (.ok (), content) ∧
        Pushed table field count block after content := by
  rw [pushValue, Step.result_bind_eq_ok] at hr
  obtain ⟨⟨field, _⟩, _, hlook, hr⟩ := hr
  obtain ⟨rfl, hf, ht, hcheck⟩ := lookUp_eq_ok hlook
  obtain ⟨harray, hexpect⟩ := unit_bind_eq_ok.mp hcheck
  obtain ⟨hh, hm⟩ := array_of_expect harray
  have hlaid := hslotted field hf hh (by simp [hm])
  obtain ⟨span, middle, happend, hinside⟩ := Step.result_bind_eq_ok.mp hr
  obtain ⟨count, hcount, hlt, rfl, hset⟩ := append_eq_ok happend
  obtain ⟨stored, content, hstored, hwrite, rfl⟩ := Edit.inside_eq_ok hinside
  obtain ⟨hk, hfills⟩ := hw field hlaid.suits hexpect
  have hplace : field.Place .loose middle (field.element count) := Field.loose_element hm hlt
  have hsize := hlaid.length_place hplace hstored
  have hlen := hfills.length_eq hsize hwrite
  have hover := Bytes.agreeOn_overwrite hstored hlen
  -- the element is stored apart from the count
  have hslot : field.slot (Bytes.overwrite middle (field.element count).start content) =
      field.slot middle := by
    refine Field.slot_congr (hover.mono fun place hp hin => ?_)
    exact Field.not_slotPlaces_of_storage hh (hself field hf ht) (hlaid.mem_storage hplace hin) hp
  have hcap := hlaid.capacity_lt hm (Field.dataSize_pos hlaid.suits hk) hshort
  have hafter := hlaid.word_setSlot hs (by simp [hm]) (by omega) hset
  refine ⟨field, hf, ht, harray, hexpect, count, stored, content, hsize, hwrite, hcount, ?_,
    Bytes.slice_overwrite_self hstored hlen, ?_⟩
  · exact Field.count_eq_ok.mpr ⟨hslot.trans hafter, by omega⟩
  · exact ((Edit.touches_setSlot.agree hset).mono fun place hp hin => hp (.inl hin)).trans
      (hover.mono fun place hp hin => hp (.inr hin))

theorem pushed_of_pushValue (h : table.Regular schema) (hshort : table.size < 2 ^ 32)
    (hs : table.size ≤ block.length) (hw : Suited schema .loose expect write)
    (hr : (pushValue table tag expect write).result block = (.ok (), after)) :
    ∃ field ∈ table.fields, field.tag = tag ∧ field.expectArray = .ok () ∧ expect field = .ok () ∧
      ∃ count stored content, stored.length = field.dataSize ∧
        (write field).result stored = (.ok (), content) ∧
        Pushed table field count block after content :=
  pushed_of_apart h.slotted (fun field hf _ => (h.disjoint field hf trivial).1) hshort hs hw hr

namespace Pushed

variable {count : Nat} (h : Pushed table field count block after content)

include h

theorem last_eq : field.elementSpan count after = .ok (field.element count) :=
  Field.elementSpan_eq_ok.mpr ⟨count + 1, h.count_after, Nat.lt_succ_self count, rfl⟩

theorem load_eq : field.load (field.element count) after = .ok content := by
  rw [Field.load, h.slice]

/-- The elements before the last are where they were and what they were. -/
theorem earlier (hfits : field.Fits schema table.size) (hself : field.spans.Pairwise Span.Apart)
    (harray : field.expectArray = .ok ()) {index : Nat} (hi : index < count) :
    field.elementSpan index after = field.elementSpan index block ∧
      field.load (field.element index) after = field.load (field.element index) block := by
  obtain ⟨hh, hm⟩ := array_of_expect harray
  have hle := (Field.count_eq_ok.mp h.count_after).2
  have hplaces : field.places = field.capacity := by simp [Field.places, Field.isRepeated, hm]
  have hplace : field.Place .loose block (field.element index) := Field.loose_element hm (by omega)
  refine ⟨?_, ?_⟩
  · rw [Field.elementSpan_eq_ok.mpr ⟨count + 1, h.count_after, by omega, rfl⟩,
      Field.elementSpan_eq_ok.mpr ⟨count, h.count_before, hi, rfl⟩]
  · rw [Field.load, Field.load, h.agree.slice fun place hp => ?_]
    rintro (hin | hin)
    · exact Field.not_slotPlaces_of_storage hh hself (hfits.mem_storage hplace hp) hin
    · exact Span.apart_iff.mp (hfits.element_apart (by omega) (by omega) (by omega)) place hin hp

theorem grows (hreg : table.Regular schema) (hf : field ∈ table.fields)
    (harray : field.expectArray = .ok ()) :
    View.Grows schema field count ⟨table, block⟩ ⟨table, after⟩ := by
  obtain ⟨hh, hm⟩ := array_of_expect harray
  have hlook := Table.lookUp_of_mem hreg.tags_ne hf
  have hrep : field.isRepeated = true := by simp [Field.isRepeated, hm]
  have hread : ∀ index < count, ∀ other, table.lookUp field.tag = .ok other →
      other.expectArray = .ok () →
      other.elementSpan index after = other.elementSpan index block ∧
      ∀ held, other.count block = .ok held → index < held →
        other.load (other.element index) after = other.load (other.element index) block := by
    intro index hi other ho _
    obtain rfl : field = other := Except.ok.inj (hlook.symm.trans ho)
    have hsame := h.earlier (hreg.stored field hf hh) (hreg.disjoint field hf trivial).1 harray hi
    exact ⟨hsame.1, fun _ _ _ => hsame.2⟩
  refine ⟨?_, ?_, ?_, fun index hi => ?_, fun index hi => ?_, fun index hi => ?_, fun index hi => ?_⟩
  · simp [View.count, hlook, bind_ok, hrep, hh, h.count_before]
  · simp [View.count, hlook, bind_ok, hrep, hh, h.count_after]
  · rw [View.has_of_inBlock hreg.tags_ne hf hh,
      Field.isPresent_of_count hm (Field.count_eq_ok.mp h.count_after).1]
    simp
  all_goals exact View.readArray_congr (hread index hi)

theorem frames (hreg : table.Regular schema) (hf : field ∈ table.fields)
    (harray : field.expectArray = .ok ()) :
    View.Frames schema field ⟨table, block⟩ ⟨table, after⟩ := by
  obtain ⟨hh, hm⟩ := array_of_expect harray
  have hlt : count < field.capacity := (Field.count_eq_ok.mp h.count_after).2
  refine View.frames_of_agree hreg hf (h.agree.mono fun place hp => ?_) (by simp [Field.group?, hm])
  rintro (hin | hin)
  · exact hp (.inl (Field.extent_of_slotPlaces hh hin))
  · exact hp (.inl ((hreg.stored field hf hh).extent_of_element hm hlt hin))

theorem getAt_eq (hreg : table.Regular schema) (hf : field ∈ table.fields)
    (harray : field.expectArray = .ok ()) (hscalar : field.expectScalar = .ok ()) :
    View.getAt ⟨table, after⟩ field.tag count = .ok (field.kind.loadScalar content) := by
  simp only [View.getAt, Table.lookUp_of_mem hreg.tags_ne hf, harray, hscalar, bind_ok, h.last_eq,
    h.load_eq]
  rfl

theorem getTextAt_eq (hreg : table.Regular schema) (hf : field ∈ table.fields)
    (harray : field.expectArray = .ok ()) (htext : field.expectText = .ok ()) :
    View.getTextAt ⟨table, after⟩ field.tag count = field.text content := by
  simp only [View.getTextAt, Table.lookUp_of_mem hreg.tags_ne hf, harray, htext, bind_ok, h.last_eq,
    h.load_eq]

theorem getBytesAt_eq (hreg : table.Regular schema) (hf : field ∈ table.fields)
    (harray : field.expectArray = .ok ()) (hbytes : field.expectBytes = .ok ()) :
    View.getBytesAt ⟨table, after⟩ field.tag count = field.payload content := by
  simp only [View.getBytesAt, Table.lookUp_of_mem hreg.tags_ne hf, harray, hbytes, bind_ok, h.last_eq,
    h.load_eq]

end Pushed

-- ---------------------------------------------------------------------------
-- The values that have been stored
-- ---------------------------------------------------------------------------

/-- A number is read back cut to the kind. -/
theorem loadScalar_of_storeScalar {value : Scalar} (hs : field.Suits schema)
    (hl : stored.length = field.dataSize) (h : field.expectScalar = .ok ())
    (hr : (storeScalar field value).result stored = (.ok (), content)) :
    field.kind.loadScalar content = field.kind.narrow value := by
  cases hr
  exact Field.loadScalar_storeScalar (isScalar_of_expect h) hs hl value

/-- A text without a zero byte is read back, and present when there is something in it. -/
theorem text_of_storeText {text : String} (hz : 0 ∉ Bytes.ofText text)
    (h : field.expectText = .ok ()) (hr : (storeText field text).result stored = (.ok (), content)) :
    field.text content = .ok text ∧ field.isNonzero content = .ok (!Bytes.isZero content) := by
  obtain ⟨count, rfl⟩ : ∃ count, content = Bytes.ofText text ++ Bytes.zeros (count + 1) := by
    rcases result_storeText field text stored with ⟨_, hfail⟩ | ⟨count, -, hok⟩
    · cases hr.symm.trans hfail
    · exact ⟨count, (Prod.mk.inj (hr.symm.trans hok)).2⟩
  refine ⟨Field.text_ofText hz count, ?_⟩
  simp only [Field.isNonzero, kind_of_expectText h, Field.isZero_ofText hz]

/-- Bytes are read back, and present when there are any: storage is too short for more than the
length in front of them can say. -/
theorem payload_of_storeBytes {bytes : Bytes} (hshort : stored.length < 2 ^ 32)
    (h : field.expectBytes = .ok ()) (hr : (storeBytes field bytes).result stored = (.ok (), content)) :
    field.payload content = .ok bytes ∧ field.isNonzero content = .ok (!Bytes.isZero content) := by
  obtain ⟨count, hroom, rfl⟩ : ∃ count, stored.length = 4 + bytes.length + count ∧
      content = Bytes.littleEndian 4 bytes.length ++ bytes ++ Bytes.zeros count := by
    rcases result_storeBytes field bytes stored with ⟨_, hfail⟩ | ⟨count, hroom, hok⟩
    · cases hr.symm.trans hfail
    · exact ⟨count, hroom, (Prod.mk.inj (hr.symm.trans hok)).2⟩
  have hl : bytes.length < 2 ^ 32 := by omega
  have hpayload : field.payload _ = .ok bytes := Decode.payload_append hl (Bytes.zeros count)
  refine ⟨hpayload, ?_⟩
  simp only [Field.isNonzero, kind_of_expectBytes h, hpayload, bind_ok, Field.isZero_littleEndian hl]
  rfl

end Update

theorem Table.Regular.dataSize_lt (h : table.Regular schema) (hshort : table.size < 2 ^ 32)
    (hf : field ∈ table.fields) (hh : field.isHandled = false) : field.dataSize < 2 ^ 32 := by
  have hfits := h.stored field hf hh
  have hone := Field.element_le hfits.places_pos
  have hle := hfits.storage_le
  omega

-- ---------------------------------------------------------------------------
-- The laws
-- ---------------------------------------------------------------------------

namespace View

variable {ref : Ref}

/-- After a successful update the field reads what was stored and is present, an array is longer by
the one element, and no other field reads anything new, but that the other members of its group are
absent. -/
theorem store_laws (hvalid : Table.validate schema ref = .ok ()) (hd : (schema ref).Disjoint)
    (hshort : (schema ref).size < 2 ^ 32) (hs : (schema ref).size ≤ block.length) (tag : Nat)
    (after : Bytes) :
    (∀ value, (Update.set schema (schema ref) tag value).result block = (.ok (), after) →
      ∃ field ∈ (schema ref).fields, field.tag = tag ∧
        get ⟨schema ref, after⟩ tag = .ok (field.kind.narrow value) ∧
        Shows field ⟨schema ref, after⟩ ∧
        Frames schema field ⟨schema ref, block⟩ ⟨schema ref, after⟩) ∧
    (∀ bytes, (Update.setBytes schema (schema ref) tag bytes).result block = (.ok (), after) →
      ∃ field ∈ (schema ref).fields, field.tag = tag ∧
        getBytes ⟨schema ref, after⟩ tag = .ok bytes ∧
        Shows field ⟨schema ref, after⟩ ∧
        Frames schema field ⟨schema ref, block⟩ ⟨schema ref, after⟩) ∧
    (∀ text, 0 ∉ Bytes.ofText text →
      (Update.setText schema (schema ref) tag text).result block = (.ok (), after) →
      ∃ field ∈ (schema ref).fields, field.tag = tag ∧
        getText ⟨schema ref, after⟩ tag = .ok text ∧
        Shows field ⟨schema ref, after⟩ ∧
        Frames schema field ⟨schema ref, block⟩ ⟨schema ref, after⟩) ∧
    (∀ value, (Update.push (schema ref) tag value).result block = (.ok (), after) →
      ∃ field ∈ (schema ref).fields, field.tag = tag ∧ ∃ count,
        getAt ⟨schema ref, after⟩ tag count = .ok (field.kind.narrow value) ∧
        Grows schema field count ⟨schema ref, block⟩ ⟨schema ref, after⟩ ∧
        Frames schema field ⟨schema ref, block⟩ ⟨schema ref, after⟩) ∧
    (∀ bytes, (Update.pushBytes (schema ref) tag bytes).result block = (.ok (), after) →
      ∃ field ∈ (schema ref).fields, field.tag = tag ∧ ∃ count,
        getBytesAt ⟨schema ref, after⟩ tag count = .ok bytes ∧
        Grows schema field count ⟨schema ref, block⟩ ⟨schema ref, after⟩ ∧
        Frames schema field ⟨schema ref, block⟩ ⟨schema ref, after⟩) ∧
    (∀ text, 0 ∉ Bytes.ofText text →
      (Update.pushText (schema ref) tag text).result block = (.ok (), after) →
      ∃ field ∈ (schema ref).fields, field.tag = tag ∧ ∃ count,
        getTextAt ⟨schema ref, after⟩ tag count = .ok text ∧
        Grows schema field count ⟨schema ref, block⟩ ⟨schema ref, after⟩ ∧
        Frames schema field ⟨schema ref, block⟩ ⟨schema ref, after⟩) := by
  have hreg := Table.regular_of_validate hvalid hd
  refine ⟨fun value hr => ?_, fun bytes hr => ?_, fun text hz hr => ?_, fun value hr => ?_,
    fun bytes hr => ?_, fun text hz hr => ?_⟩
  · obtain ⟨field, hf, rfl, hsingle, hscalar, stored, content, hlen, hwrite, h⟩ :=
      Update.stored_of_store hreg hs (Update.suited_scalar value) hr
    have hback := Update.loadScalar_of_storeScalar
      (hreg.stored field hf (Update.single_of_expect hsingle).1).suits hlen hscalar hwrite
    exact ⟨field, hf, rfl, (h.get_eq hreg hf hsingle hscalar).trans (congrArg Except.ok hback),
      h.shows hreg hf hsingle (Field.isNonzero_of_scalar (Update.isScalar_of_expect hscalar) _), h.frames hreg hf⟩
  · obtain ⟨field, hf, rfl, hsingle, hbytes, stored, content, hlen, hwrite, h⟩ :=
      Update.stored_of_store hreg hs (Update.suited_bytes bytes) hr
    have hlt := hreg.dataSize_lt hshort hf (Update.single_of_expect hsingle).1
    obtain ⟨hpayload, hzero⟩ := Update.payload_of_storeBytes (by omega) hbytes hwrite
    exact ⟨field, hf, rfl, (h.getBytes_eq hreg hf hsingle hbytes).trans hpayload,
      h.shows hreg hf hsingle hzero, h.frames hreg hf⟩
  · obtain ⟨field, hf, rfl, hsingle, htext, stored, content, -, hwrite, h⟩ :=
      Update.stored_of_store hreg hs (Update.suited_text fun hstrict => by cases hstrict) hr
    obtain ⟨hback, hzero⟩ := Update.text_of_storeText hz htext hwrite
    exact ⟨field, hf, rfl, (h.getText_eq hreg hf hsingle htext).trans hback,
      h.shows hreg hf hsingle hzero, h.frames hreg hf⟩
  · obtain ⟨field, hf, rfl, harray, hscalar, count, stored, content, hlen, hwrite, h⟩ :=
      Update.pushed_of_pushValue hreg hshort hs (Update.suited_scalar value) hr
    have hback := Update.loadScalar_of_storeScalar
      (hreg.stored field hf (Update.array_of_expect harray).1).suits hlen hscalar hwrite
    exact ⟨field, hf, rfl, count, (h.getAt_eq hreg hf harray hscalar).trans (congrArg Except.ok hback),
      h.grows hreg hf harray, h.frames hreg hf harray⟩
  · obtain ⟨field, hf, rfl, harray, hbytes, count, stored, content, hlen, hwrite, h⟩ :=
      Update.pushed_of_pushValue hreg hshort hs (Update.suited_bytes bytes) hr
    have hlt := hreg.dataSize_lt hshort hf (Update.array_of_expect harray).1
    obtain ⟨hpayload, -⟩ := Update.payload_of_storeBytes (by omega) hbytes hwrite
    exact ⟨field, hf, rfl, count, (h.getBytesAt_eq hreg hf harray hbytes).trans hpayload,
      h.grows hreg hf harray, h.frames hreg hf harray⟩
  · obtain ⟨field, hf, rfl, harray, htext, count, stored, content, -, hwrite, h⟩ :=
      Update.pushed_of_pushValue hreg hshort hs (Update.suited_text fun hstrict => by cases hstrict) hr
    obtain ⟨hback, -⟩ := Update.text_of_storeText hz htext hwrite
    exact ⟨field, hf, rfl, count, (h.getTextAt_eq hreg hf harray htext).trans hback,
      h.grows hreg hf harray, h.frames hreg hf harray⟩

/-- A number too large for its field, which is cut, and a line of text. -/
theorem store_laws_letter :
    Table.validate letter false = .ok () ∧ (letter false).Disjoint ∧ (letter false).size < 2 ^ 32 ∧
    (letter false).size ≤ (Bytes.zeros 26).length ∧
    (∃ after, (Update.set letter (letter false) 1 (.unsigned 4294967303)).result (Bytes.zeros 26) =
        (.ok (), after) ∧
      ∃ field ∈ (letter false).fields, field.tag = 1 ∧
        get ⟨letter false, after⟩ 1 = .ok (field.kind.narrow (.unsigned 4294967303)) ∧
        Shows field ⟨letter false, after⟩ ∧
        Frames letter field ⟨letter false, Bytes.zeros 26⟩ ⟨letter false, after⟩) ∧
    0 ∉ Bytes.ofText "ab" ∧
    ∃ after, (Update.pushText (letter false) 2 "ab").result (Bytes.zeros 26) = (.ok (), after) ∧
      ∃ field ∈ (letter false).fields, field.tag = 2 ∧ ∃ count,
        getTextAt ⟨letter false, after⟩ 2 count = .ok "ab" ∧
        Grows letter field count ⟨letter false, Bytes.zeros 26⟩ ⟨letter false, after⟩ ∧
        Frames letter field ⟨letter false, Bytes.zeros 26⟩ ⟨letter false, after⟩ := by
  have hvalid : Table.validate letter false = .ok () := rfl
  have hd : (letter false).Disjoint := by decide
  have hsize : (letter false).size ≤ (Bytes.zeros 26).length := by decide
  have hlaws := fun tag after => store_laws hvalid hd (by decide) hsize tag after
  have htext : 0 ∉ Bytes.ofText "ab" := by decide
  exact ⟨hvalid, hd, by decide, hsize, ⟨_, rfl, (hlaws 1 _).1 _ rfl⟩, htext, _, rfl,
    (hlaws 2 _).2.2.2.2.2 _ htext rfl⟩

/-- A text with a zero byte is stored whole, but only the part before that byte is read back. -/
theorem pushText_cut :
    Table.validate letter false = .ok () ∧ letter.Throughout Table.Disjoint false ∧
    (letter false).size < 2 ^ 32 ∧
    ∃ after, (Update.pushText (letter false) 2 "a\x00b").result (Bytes.zeros 26) = (.ok (), after) ∧
      count ⟨letter false, Bytes.zeros 26⟩ 2 = .ok 0 ∧ count ⟨letter false, after⟩ 2 = .ok 1 ∧
      getTextAt ⟨letter false, after⟩ 2 0 = .ok "a" ∧ "a" ≠ "a\x00b" := by
  exact ⟨rfl, letter_disjoint false, by decide, _, rfl, rfl, rfl, rfl, by decide⟩

end View

end BlockCodec
