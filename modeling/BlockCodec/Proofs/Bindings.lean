import BlockCodec.Proofs.Initialisation

/-!
# What initialisation does to bindings

The slots of handled fields at the top level survive initialisation. Those of messages inside the
block do not: the storage of a single message is zeroed as a whole before the message is
initialised, and a message of zeros has nothing bound. `Schema.initialise_bindings` says exactly
which bindings survive, and `initialise_unbinds_below` shows one that does not.
-/

namespace BlockCodec

variable {Ref : Type} {schema : Schema Ref} {block after : Bytes}

-- ---------------------------------------------------------------------------
-- Slots below the top level
-- ---------------------------------------------------------------------------

/-- The slot of a handled field of the message that a path of single messages leads to. -/
def Field.slotBelow (field : Field Ref) : List (Field Ref) → Bytes → Except CodecError Nat
  | [], block => field.handlerSlot block
  | outer :: path, block => do
    let stored ← outer.load outer.data block
    field.slotBelow path stored

/-- The path goes down from a table through single messages in the block. -/
inductive Schema.Leads (schema : Schema Ref) : Ref → List (Field Ref) → Ref → Prop
  | here (ref : Ref) : Leads schema ref [] ref
  | single {ref inner last : Ref} {field : Field Ref} {path : List (Field Ref)} :
    field ∈ (schema ref).fields → field.isHandled = false → field.isRepeated = false →
    field.kind = .message inner → Leads schema inner path last →
    Leads schema ref (field :: path) last

theorem Field.handlerSlot_congr {field : Field Ref}
    (h : block.slice? field.data = after.slice? field.data) :
    field.handlerSlot after = field.handlerSlot block := by
  simp only [handlerSlot, load, h]

theorem Field.SlotLaid.handlerSlot_zeros {field : Field Ref} {size count : Nat}
    (h : field.SlotLaid size) (hs : size ≤ count) :
    field.handlerSlot (Bytes.zeros count) = .ok 0 := by
  have hw := h.data_within (Nat.le_trans hs (Nat.le_of_eq (Bytes.length_zeros count).symm))
  rw [Bytes.length_zeros] at hw
  exact handlerSlot_of_zeros (Bytes.slice_zeros hw)

namespace Schema

/-- Whether it succeeds or not, initialisation leaves the slots of its table alone. -/
theorem handlerSlot_initialiseWithin (levels : Nat) (block : Bytes) {ref : Ref}
    (hfit : (schema ref).Fits schema) {field : Field Ref} (hf : field ∈ (schema ref).fields) (hh : field.isHandled = true)
    (hsep : ∀ other ∈ (schema ref).fields, other.tag ≠ field.tag → field.Apart other) :
    field.handlerSlot ((schema.initialiseWithin levels ref).result block).2 =
      field.handlerSlot block := by
  have htouch := touches_initialiseWithin schema levels ref block
  exact Field.handlerSlot_congr (htouch.slice fun place hp =>
    hfit.not_inBlock_of_handled hf hh hsep hp)

theorem slotBelow_zeros {ref last : Ref} {path : List (Field Ref)}
    (hfit : schema.Throughout (Table.Fits schema) ref) (hl : schema.Leads ref path last)
    {field : Field Ref} (hf : field ∈ (schema last).fields) (hh : field.isHandled = true)
    {count : Nat} (hs : (schema ref).size ≤ count) :
    field.slotBelow path (Bytes.zeros count) = .ok 0 := by
  induction hl generalizing count with
  | here ref => exact (hfit.here.handled field hf hh).handlerSlot_zeros hs
  | @single ref inner last outer path ho hb hr hk hl ih =>
    have hfits := hfit.here.stored outer ho hb
    have hw : outer.storage.Within (Bytes.zeros count).length :=
      hfits.storage_within (by rwa [Bytes.length_zeros])
    rw [Field.storage_eq_data (by simpa [Field.isRepeated] using hr), Bytes.length_zeros] at hw
    rw [Field.slotBelow, Field.load, Bytes.slice_zeros hw]
    refine ih (hfit.nested (Table.mem_nested ho hb hk)) hf (Nat.le_of_eq ?_)
    rw [hfits.length_data, hfits.dataSize_of_message hk]

/-- A binding below a message that has been initialised as a whole is gone. -/
theorem slotBelow_initialiseWithin {levels : Nat} {ref last : Ref} {path : List (Field Ref)}
    (hfit : schema.Throughout (Table.Fits schema) ref)
    (hsep : schema.Throughout Table.Disjoint ref) (hl : schema.Leads ref path last)
    {field : Field Ref} (hf : field ∈ (schema last).fields) (hh : field.isHandled = true)
    (hr : (schema.initialiseWithin levels ref).result block = (.ok (), after))
    (hz : path = [] → field.handlerSlot block = .ok 0) :
    field.slotBelow path after = .ok 0 := by
  induction hl generalizing levels block after with
  | here ref =>
    have hkeep := handlerSlot_initialiseWithin levels block hfit.here hf hh
      (hsep.here field hf trivial).2
    rw [hr] at hkeep
    exact hkeep.trans (hz rfl)
  | @single ref inner last outer path ho hb hrep hk hl ih =>
    have hn := Table.mem_nested ho hb hk
    cases levels with
    | zero => cases hr
    | succ levels =>
      have hfits := hfit.here.stored outer ho hb
      have hfresh := Table.fresh_of_reset hfit.here.tags_ne hsep.here
        (keepsLength_initialiseWithin schema levels) hr outer ho trivial hb
      obtain ⟨content, hs, hc⟩ := hfresh.storage
      have hdata : outer.storage = outer.data :=
        Field.storage_eq_data (by simpa [Field.isRepeated] using hrep)
      have hlen : outer.storage.length = (schema inner).size := by
        rw [hdata, hfits.length_data, hfits.dataSize_of_message hk]
      rw [Field.slotBelow, Field.load, ← hdata, hs]
      show field.slotBelow path content = .ok 0
      cases hm : outer.multiplicity with
      | «repeated» => simp [Field.isRepeated, hm] at hrep
      | oneof group =>
        simp only [Field.Initial, hm] at hc
        rw [hc]
        exact slotBelow_zeros (hfit.nested hn) hl hf hh (Nat.le_of_eq hlen.symm)
      | required | optional =>
        simp only [Field.Initial, hm, Field.fillInitial, hk] at hc
        refine ih (hfit.nested hn) (hsep.nested hn) hf hc fun hp => ?_
        subst hp
        cases hl
        exact ((hfit.nested hn).here.handled field hf hh).handlerSlot_zeros (Nat.le_of_eq hlen.symm)

-- ---------------------------------------------------------------------------
-- Which bindings survive
-- ---------------------------------------------------------------------------

/-- Initialisation of valid tables whose places are apart leaves the slots of the top level alone,
whether it succeeds or not. When it succeeds, which it does on every block that is long enough if
the fields come from the builders, every other field is reset, and a slot below is what it was
only if it was unbound. -/
theorem initialise_bindings {ref : Ref} (hvalid : Table.validate schema ref = .ok ())
    (hsep : schema.Throughout Table.Disjoint ref) (block : Bytes) :
    (∀ field ∈ (schema ref).fields, field.isHandled = true →
      field.handlerSlot ((schema.initialise ref).result block).2 = field.handlerSlot block) ∧
    (∀ after, (schema.initialise ref).result block = (.ok (), after) →
      (∀ field ∈ (schema ref).fields, field.isHandled = false →
        field.Fresh schema.initialiseNested after) ∧
      ∀ path last, schema.Leads ref path last → ∀ field ∈ (schema last).fields,
        field.isHandled = true →
          (field.slotBelow path after = field.slotBelow path block ↔
            path = [] ∨ field.slotBelow path block = .ok 0)) ∧
    (schema.Throughout Table.Built ref → (schema ref).size ≤ block.length →
      ∃ after, (schema.initialise ref).result block = (.ok (), after)) := by
  have hfit := fits_of_validate hvalid
  refine ⟨fun field hf hh => ?_, fun after hr => ⟨fun field hf hh => ?_, ?_⟩, fun hb hs => ?_⟩
  · exact handlerSlot_initialiseWithin _ _ hfit.here hf hh (hsep.here field hf trivial).2
  · exact Table.fresh_of_reset hfit.here.tags_ne hsep.here
      (keepsLength_initialiseWithin schema maxInitialDepth) hr field hf trivial hh
  · intro path last hl field hf hh
    by_cases hp : path = []
    · subst hp
      cases hl
      have hkeep := handlerSlot_initialiseWithin (maxInitialDepth + 1) block hfit.here hf hh
        (hsep.here field hf trivial).2
      rw [show (schema.initialiseWithin (maxInitialDepth + 1) ref).result block = (.ok (), after)
        from hr] at hkeep
      simpa [Field.slotBelow] using hkeep
    · have hzero := slotBelow_initialiseWithin hfit hsep hl hf hh hr fun h => absurd h hp
      rw [hzero]
      simp [hp, eq_comm]
  · exact initialiseWithin_ok (laid_of_validate hvalid hb) hs

end Schema

/-- A message with a handled field, alone inside another message. -/
def hooked : Schema Bool
  | false => ⟨"Outer", [.ofStorage 1 "inner" (.message true) 0 2], 2⟩
  | true => ⟨"Inner", [(Field.ofStorage 1 "hook" (.varint ⟨.w32, false⟩) 0 2).handled], 2⟩

theorem hooked_disjoint (ref : Bool) : hooked.Throughout Table.Disjoint ref :=
  Schema.throughout_of_forall (by decide) ref

theorem hooked_built (ref : Bool) : hooked.Throughout Table.Built ref := by
  refine Schema.throughout_of_forall (fun ref field hf => ?_) ref
  cases ref <;> cases List.mem_singleton.mp hf
  · exact .ofStorage ..
  · exact .handled (.ofStorage ..)

theorem initialise_bindings_hooked :
    Table.validate hooked false = .ok () ∧ hooked.Throughout Table.Disjoint false ∧
    ∃ after, (hooked.initialise false).result [5, 0] = (.ok (), after) ∧
      ∀ field ∈ (hooked false).fields, field.isHandled = false →
        field.Fresh hooked.initialiseNested after := by
  have h := Schema.initialise_bindings rfl (hooked_disjoint false) [5, 0]
  exact ⟨rfl, hooked_disjoint false, [0, 0], rfl, (h.2.1 _ rfl).1⟩

/-- The handled field below has slot 5 before and 0 after. -/
theorem initialise_unbinds_below :
    Table.validate hooked false = .ok () ∧ hooked.Throughout Table.Built false ∧
    hooked.Throughout Table.Disjoint false ∧
    ∃ path, hooked.Leads false path true ∧ ∃ field ∈ (hooked true).fields,
      field.isHandled = true ∧ field.slotBelow path [5, 0] = .ok 5 ∧
      (hooked.initialise false).result [5, 0] = (.ok (), [0, 0]) ∧
      field.slotBelow path [0, 0] = .ok 0 := by
  refine ⟨rfl, hooked_built false, hooked_disjoint false, (hooked false).fields, ?_, ?_⟩
  · exact .single (List.mem_singleton.mpr rfl) rfl rfl rfl (.here true)
  · exact ⟨_, List.mem_singleton.mpr rfl, rfl, rfl, rfl, rfl⟩

end BlockCodec
