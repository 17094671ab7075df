import BlockCodec.Proofs.Accepting
import BlockCodec.Proofs.Vacancy

/-!
# Blocks that mirror others

The decoder does not restore the block whose form it reads. What it leaves `Mirrors` that block: a field
that went on the wire `Echoes` what it was, in the messages that were sent too, and all other places are
as they were when the decoder came to them.
-/

namespace BlockCodec

variable {Ref : Type} {schema : Schema Ref} {table : Table Ref} {ref : Ref} {field other : Field Ref}
  {front rest : List (Field Ref)} {block start before after stored content : Bytes} {size : Nat}
  {same finer : Ref → Bytes → Bytes → Prop} {ready : Ref → Bytes → Prop}

-- ---------------------------------------------------------------------------
-- One field
-- ---------------------------------------------------------------------------

namespace Field

/-- The field goes on the wire. -/
structure Sent (field : Field Ref) (block : Bytes) : Prop where
  inBlock : field.isHandled = false
  present : field.isPresent block = .ok true

/-- The form of a field that does not go on the wire is empty, and a required field does. -/
theorem wireForm_of_not_sent {forms : Ref → Bytes → Except CodecError Bytes} {first : Bytes}
    (hsent : ¬field.Sent block) (hform : field.wireForm forms block = .ok first) :
    first = [] ∧ (field.isHandled = false → field.isRequired = false) := by
  cases hh : field.isHandled with
  | true =>
    simp only [wireForm, hh, if_true, Except.ok.injEq] at hform
    exact ⟨hform.symm, by simp⟩
  | false =>
    obtain ⟨hnil, hr⟩ := wireForm_of_not_present forms hh (fun hp => hsent ⟨hh, hp⟩) hform
    exact ⟨hnil, fun _ => hr⟩

/-- The field shows in the other block what it shows in this one, and that it is present there. -/
structure Echoes (same : Ref → Bytes → Bytes → Prop) (field : Field Ref) (block after : Bytes) :
    Prop where
  slot : field.isRepeated ∨ field.group?.isSome → field.slot after = field.slot block
  flag : field.multiplicity = .optional → field.sizeOffset.isSome → field.slot after = .ok 1
  value : ∀ span stored, field.Place .strict block span → block.slice? span = some stored →
    ∃ content, after.slice? span = some content ∧ field.Repeats same stored content

theorem Repeats.mono (h : field.Repeats finer stored content)
    (hsame : ∀ inner, finer inner stored content → same inner stored content) :
    field.Repeats same stored content := by
  cases hk : field.kind with
  | message inner =>
    simp only [Repeats, hk] at h ⊢
    exact hsame inner h
  | _ => simpa only [Repeats, hk] using h

theorem Echoes.mono (h : field.Echoes finer block after)
    (hsame : ∀ inner stored content, finer inner stored content → same inner stored content) :
    field.Echoes same block after where
  slot := h.slot
  flag := h.flag
  value span stored hp hst := by
    obtain ⟨content, hcontent, hrepeats⟩ := h.value span stored hp hst
    exact ⟨content, hcontent, hrepeats.mono fun inner => hsame inner stored content⟩

theorem Echoes.congr (h : field.Echoes same block before) (hfits : field.Fits schema size)
    (hagree : Bytes.AgreeOn field.extent before after) : field.Echoes same block after := by
  have hslot : field.slot after = field.slot before :=
    slot_congr (hagree.mono fun _ => extent_of_slotPlaces hfits.inBlock)
  refine ⟨fun hm => hslot.trans (h.slot hm), fun hm ho => hslot.trans (h.flag hm ho), ?_⟩
  intro span stored hp hst
  obtain ⟨content, hcontent, hrepeats⟩ := h.value span stored hp hst
  refine ⟨content, ?_, hrepeats⟩
  rw [← hcontent]
  exact (hagree.slice fun place hin => extent_of_storage hfits.inBlock (hfits.mem_storage hp hin)).symm

/-- Where a field is echoed it is as active as it was. -/
theorem Echoes.isActive (h : field.Echoes same block after) :
    field.isActive after = field.isActive block := by
  cases hm : field.multiplicity with
  | oneof group => simp only [Field.isActive, hm, h.slot (.inr (by simp [group?, hm]))]
  | _ => simp [Field.isActive, hm]

/-- A single field echoes the value that has been stored in its place. -/
theorem echoes_single (hm : field.multiplicity ≠ .repeated) (hp : field.isPresent block = .ok true)
    (hst : block.slice? field.data = some stored) (hcontent : after.slice? field.data = some content)
    (hrepeats : field.Repeats same stored content)
    (hactive : field.group?.isSome → field.slot after = .ok field.tag)
    (hflag : field.multiplicity = .optional → field.sizeOffset.isSome → field.slot after = .ok 1) :
    field.Echoes same block after := by
  refine ⟨fun hmarked => ?_, hflag, fun span held hplace hheld => ?_⟩
  · rcases hmarked with hrep | hg
    · exact absurd (by simpa [isRepeated] using hrep) hm
    · obtain ⟨group, hmult⟩ := multiplicity_of_group hg
      rw [hactive hg, active_of_present hmult hp]
  · obtain rfl : span = field.data := by
      cases hplace with
      | single | active => rfl
      | element h => exact absurd h hm
    obtain rfl : stored = held := Option.some.inj (hst.symm.trans hheld)
    exact ⟨content, hcontent, hrepeats⟩

end Field

-- ---------------------------------------------------------------------------
-- The fields of a table
-- ---------------------------------------------------------------------------

namespace Table

/-- What reading the forms that these fields have in `block` makes of `start`. -/
structure Rereads (same : Ref → Bytes → Bytes → Prop) (table : Table Ref) (fields : List (Field Ref))
    (block start after : Bytes) : Prop where
  idle : Bytes.AgreeOn (fun place => ∀ field ∈ fields, field.Sent block → ¬table.updates field place)
    start after
  echoes : ∀ field ∈ fields, field.Sent block → field.Echoes same block after

theorem rereads_nil (same : Ref → Bytes → Bytes → Prop) (table : Table Ref) (block start : Bytes) :
    table.Rereads same [] block start start :=
  ⟨.refl _ _, fun _ hf => absurd hf List.not_mem_nil⟩

theorem Rereads.mono {fields : List (Field Ref)} (h : table.Rereads finer fields block start after)
    (hsame : ∀ inner stored content, finer inner stored content → same inner stored content) :
    table.Rereads same fields block start after :=
  ⟨h.idle, fun field hf hsent => (h.echoes field hf hsent).mono hsame⟩

/-- A field that is not on the wire is passed over. -/
theorem Rereads.skip (h : table.Rereads same front block start after) (hsent : ¬field.Sent block) :
    table.Rereads same (front ++ [field]) block start after := by
  refine ⟨h.idle.mono fun place hp other ho => hp other (by simp [ho]), fun other ho hs => ?_⟩
  rcases List.mem_append.mp ho with ho | ho
  · exact h.echoes other ho hs
  · rw [List.mem_singleton.mp ho] at hs
    exact absurd hs hsent

section

variable (hlaid : table.Laid schema) (hd : table.Disjoint)
  (hsub : ∀ other ∈ front, other ∈ table.fields) (hf : field ∈ table.fields)
  (hne : ∀ other ∈ front, other.tag ≠ field.tag) (hsent : field.Sent block)

include hlaid hd hsub hf hne hsent

/-- The places of a field that is on the wire are untouched until its turn. -/
theorem Rereads.untouched (h : table.Rereads same front block start before) :
    Bytes.AgreeOn field.extent start before :=
  h.idle.mono fun _ hp other ho hother => not_updates hlaid.tags_ne hd (hsub other ho) hf
    (hne other ho).symm
    (hlaid.not_sameGroup (hsub other ho) hf (hne other ho).symm hother.present hsent.present) hp

/-- The next field is read. -/
theorem Rereads.record (h : table.Rereads same front block start before)
    (hkept : Bytes.AgreeOn (fun place => ¬table.updates field place) before after)
    (he : field.Echoes same block after) : table.Rereads same (front ++ [field]) block start after := by
  refine ⟨(h.idle.mono fun place hp other ho => hp other (by simp [ho])).trans
    (hkept.mono fun place hp => hp field (by simp) hsent), fun other ho hother => ?_⟩
  rcases List.mem_append.mp ho with ho | ho
  · have hfits := hlaid.stored other (hsub other ho) hother.inBlock
    refine (h.echoes other ho hother).congr hfits (hkept.mono fun place => ?_)
    exact not_updates hlaid.tags_ne hd hf (hsub other ho) (hne other ho)
      (hlaid.not_sameGroup hf (hsub other ho) (hne other ho) hsent.present hother.present)
  · rwa [List.mem_singleton.mp ho]

end

/-- A field that is not on the wire gives way to another member of its group, or is as it was at the
start. -/
theorem Rereads.unsent (h : table.Rereads same table.fields block start after) (hlaid : table.Laid schema)
    (hd : table.Disjoint) (hf : field ∈ table.fields) (hsent : ¬field.Sent block) :
    (field.group?.isSome ∧ ∃ tag, tag ≠ field.tag ∧ field.slot after = .ok tag) ∨
      Bytes.AgreeOn field.extent start after := by
  have hne : ∀ other ∈ table.fields, other.Sent block → field.tag ≠ other.tag := fun other ho hother ht =>
    hsent (eq_of_tag_eq hlaid.tags_ne ho hf ht ▸ hother)
  by_cases hgroup : ∃ other ∈ table.fields, other.Sent block ∧ other.SameGroup field
  · obtain ⟨other, ho, hother, hsame⟩ := hgroup
    obtain ⟨group, hm⟩ := Field.multiplicity_of_group hsame.1
    have hslot := (h.echoes other ho hother).slot (.inr hsame.1)
    rw [Field.active_of_present hm hother.present] at hslot
    exact .inl ⟨hsame.symm.1, other.tag, (hne other ho hother).symm,
      Field.slot_of_sizeSlot_eq (hsame.sizeSlot_eq (hlaid.groups other ho field hf hsame)) hslot⟩
  · refine .inr (h.idle.mono fun place hp other ho hother => ?_)
    exact not_updates hlaid.tags_ne hd ho hf (hne other ho hother)
      (fun hsame => hgroup ⟨other, ho, hother, hsame⟩) hp

end Table

-- ---------------------------------------------------------------------------
-- Messages
-- ---------------------------------------------------------------------------

namespace Schema

/-- The second block is what reading the form of the first makes of a ready block. -/
inductive Mirrors (schema : Schema Ref) (ready : Ref → Bytes → Prop) : Ref → Bytes → Bytes → Prop
  | intro {ref : Ref} {block start after : Bytes} {same : Ref → Bytes → Bytes → Prop}
    (hstart : ready ref start)
    (hsame : ∀ inner stored content, same inner stored content →
      Mirrors schema ready inner stored content)
    (h : (schema ref).Rereads same (schema ref).fields block start after) :
    Mirrors schema ready ref block after

theorem Initialised.size_le (h : schema.Initialised ref block) : (schema ref).size ≤ block.length := by
  obtain ⟨levels, before, hr⟩ := h
  rw [(keepsLength_initialiseWithin schema levels ref).length_eq hr]
  cases levels with
  | zero => cases hr
  | succ levels => exact Table.checkBlock_le (Table.reset_eq_ok.mp hr).1

theorem mirrors_iff : schema.Mirrors ready ref block after ↔
    ∃ start, ready ref start ∧
      (schema ref).Rereads (schema.Mirrors ready) (schema ref).fields block start after := by
  constructor
  · rintro ⟨hstart, hsame, h⟩
    exact ⟨_, hstart, h.mono hsame⟩
  · rintro ⟨start, hstart, h⟩
    exact .intro hstart (fun _ _ _ h => h) h

theorem Mirrors.echoes (h : schema.Mirrors ready ref block after) (hf : field ∈ (schema ref).fields)
    (hsent : field.Sent block) : field.Echoes (schema.Mirrors ready) block after := by
  obtain ⟨start, -, hreads⟩ := mirrors_iff.mp h
  exact hreads.echoes field hf hsent

theorem Mirrors.size_le (h : schema.Mirrors schema.Initialised ref block after) :
    (schema ref).size ≤ after.length := by
  obtain ⟨start, hstart, hreads⟩ := mirrors_iff.mp h
  exact hreads.idle.1 ▸ hstart.size_le

end Schema

end BlockCodec
