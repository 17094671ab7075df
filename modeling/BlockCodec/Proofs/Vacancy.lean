import BlockCodec.Proofs.Invariants
import BlockCodec.Proofs.Preparation

/-!
# Vacant blocks

A block that has been initialised is `Vacant`: its arrays have no elements, in the single messages
inside it too. Vacancy is one of the conditions that initialisation meets and that lets the decoder
read into every field, itself among them: those are `Receptive`, and to have been `Initialised` is
another. What reading needs of one field is that it `Awaits` a value.
-/

namespace BlockCodec

variable {Ref : Type} {schema : Schema Ref} {ref : Ref} {field : Field Ref}
  {block before after stored : Bytes} {levels depth : Nat} {ready : Ref → Bytes → Prop}

/-- The arrays of the block are empty, those in its messages too. -/
inductive Schema.Vacant (schema : Schema Ref) : Ref → Bytes → Prop
  | intro {ref : Ref} {block : Bytes} :
    (∀ field ∈ (schema ref).fields, field.isHandled = false → field.multiplicity = .repeated →
      field.slot block = .ok 0) →
    (∀ field ∈ (schema ref).fields, field.isHandled = false → field.multiplicity ≠ .repeated →
      ∀ inner, field.kind = .message inner → field.Place .loose block field.data →
        ∀ stored, block.slice? field.data = some stored → Vacant schema inner stored) →
    Vacant schema ref block

/-- The block is what an initialisation leaves. -/
def Schema.Initialised (schema : Schema Ref) (ref : Ref) (block : Bytes) : Prop :=
  ∃ levels before, (schema.initialiseWithin levels ref).result before = (.ok (), block)

/-- What the decoder needs of a field it reads into: an array is empty, and a message is ready. -/
structure Field.Awaits (ready : Ref → Bytes → Prop) (block : Bytes) (field : Field Ref) : Prop where
  count : field.multiplicity = .repeated → field.slot block = .ok 0
  nested : field.multiplicity ≠ .repeated → ∀ inner, field.kind = .message inner →
    field.Place .loose block field.data → ∀ stored, block.slice? field.data = some stored →
      ready inner stored

namespace Schema

/-- Initialisation makes a block ready, and every field of a ready block awaits a value. -/
structure Receptive (schema : Schema Ref) (ready : Ref → Bytes → Prop) : Prop where
  initialised : ∀ {depth levels ref before after}, schema.Laid depth ref →
    schema.Throughout Table.Disjoint ref →
    (schema.initialiseWithin levels ref).result before = (.ok (), after) → ready ref after
  awaits : ∀ {depth ref block}, schema.Laid depth ref → schema.Throughout Table.Disjoint ref →
    ready ref block → ∀ field ∈ (schema ref).fields, field.isHandled = false →
      field.Awaits ready block

end Schema

namespace Field

theorem Awaits.congr (h : field.Awaits ready before) (hh : field.isHandled = false)
    (hagree : Bytes.AgreeOn field.extent before after) : field.Awaits ready after := by
  have hslot : field.slot after = field.slot before :=
    Field.slot_congr (hagree.mono fun _ => Field.extent_of_slotPlaces hh)
  refine ⟨fun hm => hslot.trans (h.count hm), fun hm inner hk hp stored hs => ?_⟩
  rw [← hagree.slice fun place => Field.extent_of_data hm] at hs
  exact h.nested hm inner hk (hp.congr hslot.symm) stored hs

/-- A member of a group that is not the active one. -/
theorem awaits_of_inactive {value : Nat} (hg : field.group?.isSome)
    (hslot : field.slot block = .ok value) (hne : value ≠ field.tag) : field.Awaits ready block := by
  obtain ⟨group, hm⟩ := Field.multiplicity_of_group hg
  refine ⟨fun h => by simp [hm] at h, fun _ inner _ hp => ?_⟩
  exfalso
  generalize field.data = span at hp
  cases hp with
  | single h => simp [hm] at h
  | active _ ha => exact hne (by simpa [hslot] using ha)
  | element h => simp [hm] at h

/-- A slot in the block is zero while its field is fresh. -/
theorem Fresh.slot_eq_zero {size : Nat} {nested : Ref → Edit Unit} (h : field.Fresh nested block)
    (hlaid : field.Laid schema size) (ho : field.sizeOffset.isSome) : field.slot block = .ok 0 := by
  obtain ⟨offset, ho⟩ := Option.isSome_iff_exists.mp ho
  exact Field.slot_of_zeros (hlaid.sizeSlot_eq ho) (h.slot _ (hlaid.sizeSlot_eq ho))

end Field

namespace Schema

/-- The fields of a block that has been initialised are fresh. -/
theorem fresh_of_initialise (h : schema.Laid depth ref) (hd : schema.Throughout Table.Disjoint ref)
    (hr : (schema.initialiseWithin (levels + 1) ref).result block = (.ok (), after))
    (hf : field ∈ (schema ref).fields) (hh : field.isHandled = false) :
    field.Fresh (schema.initialiseWithin levels) after :=
  Table.fresh_of_reset h.here.tags_ne hd.here (keepsLength_initialiseWithin schema levels) hr field hf
    trivial hh

/-- The fields of a block that has been initialised await values. -/
theorem awaits_initialiseWithin (h : schema.Laid depth ref) (hd : schema.Throughout Table.Disjoint ref)
    (hr : (schema.initialiseWithin (levels + 1) ref).result block = (.ok (), after))
    (hf : field ∈ (schema ref).fields) (hh : field.isHandled = false)
    (hn : ∀ inner ∈ (schema ref).nested, ∀ before filled,
      (schema.initialiseWithin levels inner).result before = (.ok (), filled) → ready inner filled) :
    field.Awaits ready after := by
  have hfield := h.here.laid field hf hh
  have hfresh := fresh_of_initialise h hd hr hf hh
  cases hm : field.multiplicity with
  | «repeated» =>
    have hrep : field.isRepeated = true := by simp [Field.isRepeated, hm]
    exact ⟨fun _ => hfresh.slot_eq_zero hfield (hfield.slot_isSome (.inl hrep)), fun h => absurd hm h⟩
  | oneof group =>
    have hg : field.group?.isSome := by simp [Field.group?, hm]
    have hpos := h.here.tag_pos field hf
    exact Field.awaits_of_inactive hg (hfresh.slot_eq_zero hfield (hfield.slot_isSome (.inr hg)))
      (by omega)
  | required | optional =>
    refine ⟨fun h => by simp [hm] at h, fun hne inner hk _ stored hs => ?_⟩
    obtain ⟨content, hstored, hc⟩ := hfresh.storage
    rw [Field.storage_eq_data hne] at hstored
    simp only [Field.Initial, hm] at hc
    obtain rfl : content = stored := Option.some.inj (hstored.symm.trans hs)
    exact hn inner (Table.mem_nested hf hh hk) _ _ (nested_fillInitial hk hc)

theorem vacant_iff : schema.Vacant ref block ↔
    ∀ field ∈ (schema ref).fields, field.isHandled = false → field.Awaits schema.Vacant block := by
  constructor
  · rintro ⟨hcount, hnested⟩ field hf hh
    exact ⟨hcount field hf hh, hnested field hf hh⟩
  · intro h
    exact ⟨fun field hf hh => (h field hf hh).count, fun field hf hh => (h field hf hh).nested⟩

/-- A block that has been initialised is vacant. -/
theorem vacant_initialiseWithin (h : schema.Laid depth ref) (hd : schema.Throughout Table.Disjoint ref)
    (hr : (schema.initialiseWithin levels ref).result block = (.ok (), after)) :
    schema.Vacant ref after := by
  induction levels generalizing depth ref block after with
  | zero => cases hr
  | succ levels ih =>
    cases h with
    | @intro depth ref hlaid hbelow =>
    exact vacant_iff.mpr fun field hf hh => awaits_initialiseWithin (.intro hlaid hbelow) hd hr hf hh
      fun inner hn _ _ => ih (hbelow inner hn) (hd.nested hn)

theorem receptive_vacant (schema : Schema Ref) : schema.Receptive schema.Vacant where
  initialised := vacant_initialiseWithin
  awaits _ _ hv := vacant_iff.mp hv

theorem receptive_initialised (schema : Schema Ref) : schema.Receptive schema.Initialised where
  initialised _ _ hr := ⟨_, _, hr⟩
  awaits h hd hv field hf hh := by
    obtain ⟨levels, before, hr⟩ := hv
    cases levels with
    | zero => cases hr
    | succ levels => exact awaits_initialiseWithin h hd hr hf hh fun _ _ _ _ hr => ⟨_, _, hr⟩

end Schema

namespace Decode

/-- A single field that awaits a value is made ready for it, and so is a message in it. -/
theorem prepare_ok (hready : schema.Receptive ready) (hlaid : schema.Laid (levels + 1) ref)
    (hl : levels ≤ maxInitialDepth) (hd : schema.Throughout Table.Disjoint ref)
    (hs : (schema ref).size ≤ before.length) (hf : field ∈ (schema ref).fields)
    (hh : field.isHandled = false) (hm : field.multiplicity ≠ .repeated)
    (ha : field.Awaits ready before) :
    ∃ middle, (prepare schema (schema ref) field).result before = (.ok (), middle) ∧
      Bytes.AgreeOn (fun place => ¬(schema ref).updates field place) before middle ∧
      (field.group?.isSome → field.slot middle = .ok field.tag) ∧
      ∀ inner, field.kind = .message inner → ∀ held, middle.slice? field.data = some held →
        ready inner held := by
  have hfield := hlaid.here.laid field hf hh
  by_cases hactive : field.group?.isSome → field.slot before = .ok field.tag
  · refine ⟨before, prepare_ready hactive, .refl _ _, hactive, fun inner hk held => ?_⟩
    refine ha.nested hm inner hk ?_ held
    cases hmult : field.multiplicity with
    | «repeated» => exact absurd hmult hm
    | required => exact Field.loose_single (.inl hmult)
    | optional => exact Field.loose_single (.inr hmult)
    | oneof group => exact .active hmult (hactive (by simp [Field.group?, hmult]))
  · obtain ⟨hg, hne⟩ := Classical.not_imp.mp hactive
    obtain ⟨group, hmult⟩ := Field.multiplicity_of_group hg
    obtain ⟨_, _, -, -, -, hslot⟩ := hfield.slot_ok hs (hfield.slot_isSome (.inr hg))
    obtain ⟨middle, hr⟩ := Schema.activate_ok hlaid hl hs hf hh
    have hprepare : (prepare schema (schema ref) field).result before = (.ok (), middle) := by
      simp only [prepare, hmult]
      refine Step.result_bind_eq_ok.mpr ⟨_, before, by rw [Edit.ask, Step.result_ofRun, hslot], ?_⟩
      rw [if_pos fun heq => hne (hslot.trans (congrArg _ heq)), hr]
    refine ⟨middle, hprepare, ((Schema.touches_activate hf hh hg).agree hr).mono fun _ hp hin =>
      hp (.inr ⟨hg, hin⟩), fun _ => Schema.slot_activate hfield hs hg (hlaid.here.tag_le field hf) hr, ?_⟩
    intro inner hk held hheld
    obtain ⟨content, hcontent, hc⟩ :=
      Schema.data_activate hg hf hh (hd.here field hf trivial).1 hr
    obtain rfl : content = held := Option.some.inj (hcontent.symm.trans hheld)
    have hn := Table.mem_nested hf hh hk
    exact hready.initialised (hlaid.nested hn) (hd.nested hn) (Schema.nested_fillInitial hk hc)

/-- Behind a value nothing changes but its flag, which is set. -/
theorem conclude_ok {size : Nat} (hlaid : field.Laid schema size) (hs : size ≤ before.length) :
    ∃ after, (conclude field).result before = (.ok (), after) ∧
      Bytes.AgreeOn (fun place => ¬field.slotPlaces place) before after ∧
      (field.group?.isSome → after = before) ∧
      (field.multiplicity = .optional → field.sizeOffset.isSome → field.slot after = .ok 1) := by
  by_cases hflag : field.multiplicity = .optional ∧ field.sizeOffset.isSome
  · obtain ⟨hm, ho⟩ := hflag
    have hc : conclude field = Edit.setSlot field 1 := by simp only [conclude, hm, ho, if_true]
    obtain ⟨after, _, hr, hagree, -⟩ := hlaid.setSlot_ok hs ho 1
    exact ⟨after, hc ▸ hr, hagree, fun hg => by simp [Field.group?, hm] at hg, fun _ _ =>
      hlaid.flag_setSlot hs hm hr⟩
  · have hc : conclude field = pure () := by
      rcases conclude_cases field with hc | ⟨hm, ho, -⟩
      · exact hc
      · exact absurd ⟨hm, ho⟩ hflag
    exact ⟨before, hc ▸ rfl, .refl _ _, fun _ => rfl, fun hm ho => absurd ⟨hm, ho⟩ hflag⟩

end Decode

end BlockCodec
