import BlockCodec.Proofs.Looks
import BlockCodec.Proofs.Reach

/-!
# Groups hold one value

The members of a group may share their storage, and at most one of them is active. `Table.Exclusive`
says that the storage of a group holds nothing but the value of the active member; every move keeps it
(`Schema.exclusive_moves`), so it holds in every block that can be reached, and in the messages inside
it. `sole_of_reached`: at most one member of a group is present, all other storage of the group
is zero, and the encoder writes no other member.

The slots have to lie in the block, as the storage does, or a move could fail half-way. The checks see
to that but for the slot of a required field, which no builder gives it.
-/

namespace BlockCodec

variable {Ref : Type} {schema : Schema Ref} {ref inner : Ref} {table : Table Ref} {levels : Nat}
  {field member other : Field Ref} {block after stored content : Bytes} {span : Span} {place : Nat}

-- ---------------------------------------------------------------------------
-- One group
-- ---------------------------------------------------------------------------

/-- Where the storage of the member is not zero, the active member of its group has its value. -/
def Field.Confined (table : Table Ref) (block : Bytes) (member : Field Ref) : Prop :=
  ∀ place ∈ member.data, block.byte place ≠ 0 → ∃ active ∈ table.fields,
    member.SameGroup active ∧ active.slot block = .ok active.tag ∧ place ∈ active.data

/-- Groups hold nothing but the values of their active members. -/
def Table.Exclusive (table : Table Ref) (block : Bytes) : Prop :=
  ∀ member ∈ table.fields, member.group?.isSome → member.Confined table block

theorem Table.exclusive_zeros (table : Table Ref) (count : Nat) :
    table.Exclusive (Bytes.zeros count) :=
  fun _ _ _ place _ hne => absurd (Bytes.byte_zeros count place) hne

namespace Table.Laid

theorem storage_of_group (hg : field.group?.isSome) : field.storage = field.data := by
  obtain ⟨_, hm⟩ := Field.multiplicity_of_group hg
  exact Field.storage_eq_data (by simp [hm])

/-- What a group holds is not changed by what happens elsewhere. -/
theorem confined_congr (h : table.Laid schema) (hm : member ∈ table.fields) (hg : member.group?.isSome)
    (hc : member.Confined table block)
    (hagree : ∀ other ∈ table.fields, member.SameGroup other →
      Bytes.AgreeOn other.extent block after) :
    member.Confined table after := by
  intro place hp hne
  have hself := hagree member hm ⟨hg, rfl⟩
  obtain ⟨_, hone⟩ := Field.multiplicity_of_group hg
  rw [← hself.2 place (Field.extent_of_data (by simp [hone]) hp)] at hne
  obtain ⟨active, ha, hsame, hslot, hin⟩ := hc place hp hne
  have hah := h.inBlock_of_group ha hsame.symm.1
  refine ⟨active, ha, hsame, ?_, hin⟩
  rw [Field.slot_congr ((hagree active ha hsame).mono fun _ hps =>
    Field.extent_of_slotPlaces hah hps), hslot]

/-- A change of one field that is not a member of the group. -/
theorem confined_of_agree (h : table.Laid schema) (hd : table.Disjoint) (hf : field ∈ table.fields)
    (hm : member ∈ table.fields) (hg : member.group?.isSome) (hne : ¬member.SameGroup field)
    (hc : member.Confined table block)
    (hagree : Bytes.AgreeOn (fun place => ¬field.extent place) block after) :
    member.Confined table after := by
  refine h.confined_congr hm hg hc fun other ho hsame => hagree.mono fun place hp => ?_
  have hgroup : ¬other.SameGroup field := fun h => hne ⟨hg, by rw [h.2, hsame.2]⟩
  have ht : field.tag ≠ other.tag := fun ht => by
    obtain rfl := Table.eq_of_tag_eq h.tags_ne ho hf ht
    exact hne hsame
  exact ((hd other ho trivial).2 field hf ht).disjoint hgroup hp

-- ---------------------------------------------------------------------------
-- One move
-- ---------------------------------------------------------------------------

/-- A value is stored in its place: in a group, that of the active member. -/
theorem exclusive_overwrite (h : table.Laid schema) (hd : table.Disjoint) (hx : table.Exclusive block)
    (hf : field ∈ table.fields) (hh : field.isHandled = false) (hp : field.Place .loose block span)
    (hs : block.slice? span = some stored) (hl : content.length = stored.length) :
    table.Exclusive (Bytes.overwrite block span.start content) := by
  intro member hm hg
  have hfits := h.stored field hf hh
  have hagree := Bytes.agreeOn_overwrite hs hl
  have hstorage : ∀ place ∈ span, place ∈ field.storage := fun place hin => hfits.mem_storage hp hin
  by_cases hsame : member.SameGroup field
  · have hslots : ∀ other ∈ table.fields, other.group?.isSome →
        other.slot (Bytes.overwrite block span.start content) = other.slot block := fun other ho hog =>
      Field.slot_congr (hagree.mono fun place hps hin =>
        Schema.not_slotPlaces_of_storage h.tags_ne hd hf hh ho (h.inBlock_of_group ho hog)
          (hstorage place hin) hps)
    obtain ⟨group, hone⟩ := Field.multiplicity_of_group hsame.symm.1
    cases hp with
    | single hm => simp [hone] at hm
    | element hm => simp [hone] at hm
    | active _ hactive =>
      intro place hin hne
      by_cases hspan : place ∈ field.data
      · exact ⟨field, hf, hsame, (hslots field hf hsame.symm.1).trans hactive, hspan⟩
      · rw [← hagree.2 place hspan] at hne
        obtain ⟨active, ha, hasame, hslot, hpl⟩ := hx member hm hg place hin hne
        exact ⟨active, ha, hasame, (hslots active ha hasame.symm.1).trans hslot, hpl⟩
  · exact h.confined_of_agree hd hf hm hg hsame (hx member hm hg) (hagree.mono fun place hp hin =>
      hp (Field.extent_of_storage hh (hstorage place hin)))

/-- A flag or a count is set. -/
theorem exclusive_setSlot (h : table.Laid schema) (hd : table.Disjoint) (hx : table.Exclusive block)
    (hf : field ∈ table.fields) (hh : field.isHandled = false) (hg : field.group? = none) {value : Nat}
    (hr : (Edit.setSlot field value).result block = (.ok (), after)) : table.Exclusive after := by
  intro member hm hgroup
  refine h.confined_of_agree hd hf hm hgroup (fun hsame => ?_) (hx member hm hgroup)
    ((Edit.touches_setSlot.agree hr).mono fun place hp hslot =>
      hp (Field.extent_of_slotPlaces hh hslot))
  have hsome := hsame.symm.1
  rw [hg] at hsome
  cases hsome

/-- An activation zeroes all storage of the group but that of the member it activates. -/
theorem byte_activate (h : table.Laid schema) (hd : table.Disjoint) (hf : field ∈ table.fields)
    (hg : field.group?.isSome)
    (hr : (schema.activate table field).result block = (.ok (), after))
    (hm : member ∈ table.fields) (hsame : field.SameGroup member) (hp : place ∈ member.data)
    (hout : place ∉ field.data) : after.byte place = 0 := by
  obtain ⟨group, cleared, filled, hgroup, hc, hfill, hset⟩ := (Schema.activate_eq_ok hg).mp hr
  have hmh := h.inBlock_of_group hm hsame.symm.1
  have hzero := Schema.slice_clearEach hc (Schema.mem_members hm (hsame.2.trans hgroup))
  have hfilled : Bytes.AgreeOn (fun place => place ∉ field.data) cleared filled :=
    (Edit.touches_inside (Field.keepsLength_fillInitial
      (Schema.keepsLength_initialiseWithin schema _))).agree hfill
  have hslot : ¬field.slotPlaces place :=
    Schema.not_slotPlaces_of_storage h.tags_ne hd hm hmh hf (h.inBlock_of_group hf hg)
      (by rwa [storage_of_group hsame.symm.1])
  rw [← (Edit.touches_setSlot.agree hset).2 place hslot, ← hfilled.2 place hout]
  exact Bytes.byte_of_slice_zeros hzero hp

theorem exclusive_activate (h : table.Laid schema) (hd : table.Disjoint) (hx : table.Exclusive block)
    (hs : table.size ≤ block.length) (hf : field ∈ table.fields) (hg : field.group?.isSome)
    (hr : (schema.activate table field).result block = (.ok (), after)) : table.Exclusive after := by
  intro member hm hgroup
  have hh := h.inBlock_of_group hf hg
  by_cases hsame : field.SameGroup member
  · intro place hp hne
    have hslot := Schema.slot_activate (h.laid field hf hh) hs hg (h.tag_le field hf) hr
    refine ⟨field, hf, hsame.symm, hslot, ?_⟩
    by_contra hout
    exact hne (h.byte_activate hd hf hg hr hm hsame hp hout)
  · refine h.confined_congr hm hgroup (hx member hm hgroup) fun other ho hother => ?_
    refine ((Schema.touches_activate hf hh hg).agree hr).mono fun place hp => ?_
    refine Schema.not_groupPlaces h.tags_ne (hd other ho trivial).2 ho hg (fun hfield => ?_) hp
    exact hsame ⟨hg, by rw [← hother.2, hfield.2]⟩

/-- The active member of a group is reset: nothing of the group is left. -/
theorem exclusive_reset (h : table.Laid schema) (hd : table.Disjoint) (hx : table.Exclusive block)
    (hf : field ∈ table.fields) (hh : field.isHandled = false)
    (ha : field.isActive block = .ok true)
    (hr : (field.reset schema.initialiseNested).result block = (.ok (), after)) :
    table.Exclusive after := by
  intro member hm hg
  have hkeep := Schema.keepsLength_initialiseWithin schema maxInitialDepth
  by_cases hsame : member.SameGroup field
  · have hgroup := hsame.symm.1
    obtain ⟨_, hone⟩ := Field.multiplicity_of_group hgroup
    have hslot := Field.slot_of_isActive hgroup ha
    obtain ⟨stored, hstored, hinit⟩ :=
      (Field.fresh_of_reset hh hkeep (hd field hf trivial).1 hr).storage
    simp only [Field.Initial, hone] at hinit
    rw [storage_of_group hgroup, hinit] at hstored
    have hwipes : (field.reset schema.initialiseNested).Wipes := Field.wipes_reset_member hgroup
    have hwiped := hwipes block
    rw [hr] at hwiped
    intro place hp hne
    rcases hwiped.2 place with heq | hzero
    · rw [heq] at hne
      obtain ⟨active, hact, hasame, haslot, hin⟩ := hx member hm hg place hp hne
      -- the storage belongs to the active member, and that is the one that is reset
      have hfield := h.grouped.slot_member hf hact ⟨hgroup, by rw [hasame.2, hsame.2]⟩ hslot
      rw [haslot, Except.ok.injEq] at hfield
      obtain rfl := Table.eq_of_tag_eq h.tags_ne hf hact hfield
      rw [← heq] at hne
      exact absurd (Bytes.byte_of_slice_zeros hstored hin) hne
    · exact absurd hzero hne
  · exact h.confined_of_agree hd hf hm hg hsame (hx member hm hg)
      ((Field.touches_reset hh hkeep).agree hr)

/-- In a message that has been initialised no group holds anything. -/
theorem exclusive_initialiseWithin (h : (schema ref).Laid schema) (hd : (schema ref).Disjoint)
    (hr : (schema.initialiseWithin levels ref).result block = (.ok (), after)) :
    (schema ref).Exclusive after := by
  cases levels with
  | zero => cases hr
  | succ levels =>
    intro member hm hg place hp hne
    obtain ⟨_, hone⟩ := Field.multiplicity_of_group hg
    obtain ⟨stored, hstored, hinit⟩ := (Table.fresh_of_reset h.tags_ne hd
      (Schema.keepsLength_initialiseWithin schema levels) hr member hm trivial
      (h.inBlock_of_group hm hg)).storage
    simp only [Field.Initial, hone] at hinit
    rw [storage_of_group hg, hinit] at hstored
    exact absurd (Bytes.byte_of_slice_zeros hstored hp) hne

end Table.Laid

namespace Schema

/-- Moves leave nothing in a group but the value of its active member. -/
theorem exclusive_moves {mode : Field.Mode} (hm : schema.Moves mode ref block after)
    (h : (schema ref).Laid schema) (hd : (schema ref).Disjoint) (hs : (schema ref).size ≤ block.length)
    (hx : (schema ref).Exclusive block) : (schema ref).Exclusive after := by
  induction hm with
  | refl => exact hx
  | trans ha _ iha ihb => exact ihb h hd (by rwa [ha.length_eq]) (iha h hd hs hx)
  | store hf hh _ hp hstored hc => exact h.exclusive_overwrite hd hx hf hh hp.loosen hstored hc.1
  | inner hf hh _ hp hstored hm =>
    exact h.exclusive_overwrite hd hx hf hh hp.loosen hstored hm.length_eq
  | flag hf hh hm _ hr => exact h.exclusive_setSlot hd hx hf hh (by simp [Field.group?, hm]) hr
  | claim hf hh hm _ _ hr => exact h.exclusive_setSlot hd hx hf hh (by simp [Field.group?, hm]) hr
  | activate hf _ hg hr => exact h.exclusive_activate hd hx hs hf hg hr
  | reset _ hf hh ha hr => exact h.exclusive_reset hd hx hf hh ha hr
  | initialise hr => exact h.exclusive_initialiseWithin hd hr

end Schema

-- ---------------------------------------------------------------------------
-- Messages inside
-- ---------------------------------------------------------------------------

/-- In the messages of a field, groups hold nothing but the values of their active members. -/
def Discipline.exclusive (schema : Schema Ref) : Discipline Ref where
  watches _ := True
  slot _ _ _ := True
  value field stored := ∀ inner, field.kind = .message inner → (schema inner).Exclusive stored

theorem Discipline.lawful_exclusive : (Discipline.exclusive schema).Lawful schema .loose where
  slot_zero _ _ := trivial
  slot_tag _ _ _ _ _ _ := trivial
  slot_flag _ _ _ _ _ := trivial
  slot_count _ _ _ _ _ := trivial
  value_zeros _ _ _ _ := Table.exclusive_zeros _ _
  value_default _ _ _ _ _ hk _ inner hinner := absurd hinner (hk inner)
  value_stores _ _ _ hk _ _ inner hinner := absurd hinner (hk inner)
  value_moves field inner levels stored content hk hlaid hsep hs hm h := fun other ho => by
    obtain rfl : inner = other := by simpa [hk] using ho
    exact Schema.exclusive_moves hm hlaid.here hsep.here hs (h inner hk)

namespace Schema

/-- The message with the second block lies in that with the first one, at any depth. -/
inductive Contains (schema : Schema Ref) : Ref → Bytes → Ref → Bytes → Prop
  | here (ref : Ref) (block : Bytes) : Contains schema ref block ref block
  | inside {ref inner last : Ref} {field : Field Ref} {span : Span} {block stored content : Bytes}
    (hf : field ∈ (schema ref).fields) (hh : field.isHandled = false)
    (hk : field.kind = .message inner) (hp : field.Place .loose block span)
    (hs : block.slice? span = some stored) (h : Contains schema inner stored last content) :
    Contains schema ref block last content

theorem exclusive_of_contains (h : schema.Contains ref block inner content)
    (hlaid : schema.Laid levels ref) (hs : (schema ref).size ≤ block.length)
    (hx : (schema ref).Exclusive block) (hholds : schema.Holds (.exclusive schema) ref block) :
    (schema inner).Laid schema ∧ (schema inner).size ≤ content.length ∧
      (schema inner).Exclusive content := by
  induction h generalizing levels with
  | here => exact ⟨hlaid.here, hs, hx⟩
  | @inside ref inner last field span block stored content hf hh hk hp hstored _ ih =>
    cases hlaid with
    | intro hl hbelow =>
      have hat := holds_iff.mp hholds field hf trivial
      have hlen := (hl.stored field hf hh).length_place hp hstored
      refine ih (hbelow inner (Table.mem_nested hf hh hk)) ?_
        (hat.keeps.value hh span stored hp hstored inner hk)
        (hat.nested hh inner hk span stored hp hstored)
      exact Nat.le_of_eq (hlen.trans ((hl.stored field hf hh).dataSize_of_message hk)).symm

end Schema

-- ---------------------------------------------------------------------------
-- What comes of a group
-- ---------------------------------------------------------------------------

section

variable {κ S : Type} [Sink κ] [Handler Ref S]

/-- Fields that write nothing may be left out. -/
theorem Encode.fields_filter {config : EncodeConfig} {nested : Ref → Bytes → Encode κ S Unit}
    {depth : Nat} {keep : Field Ref → Bool} {fields : List (Field Ref)}
    (h : ∀ field ∈ fields, keep field = false →
      field.isHandled = false ∧ Encode.stored nested field block = pure ()) :
    Encode.fields config nested depth block fields =
      Encode.fields config nested depth block (fields.filter keep) := by
  induction fields with
  | nil => rfl
  | cons field rest ih =>
    have hrest := ih fun other ho => h other (List.mem_cons_of_mem _ ho)
    cases hkeep : keep field with
    | true => rw [List.filter_cons_of_pos hkeep, Encode.fields, Encode.fields, hrest]
    | false =>
      obtain ⟨hh, hnone⟩ := h field List.mem_cons_self hkeep
      rw [List.filter_cons_of_neg (by simp [hkeep]), Encode.fields, if_neg (by simp [hh]), hnone, hrest,
        pure_bind]

end

/-- Of the members of a group only the one with the active tag is there: it alone is present, has
storage that is not zero and is encoded. With no such member the group is empty. -/
structure Table.Sole (table : Table Ref) (group : Nat) (block : Bytes) (active : Nat) : Prop where
  one : ∀ member ∈ table.members group, ∀ other ∈ table.members group,
    member.tag = active → other.tag = active → member = other
  has : ∀ member ∈ table.members group,
    View.has ⟨table, block⟩ member.tag = .ok (active == member.tag)
  storage : ∀ member ∈ table.members group, ∀ place ∈ member.data, block.byte place ≠ 0 →
    ∃ owner ∈ table.members group, owner.tag = active ∧ place ∈ owner.data
  encoded : ∀ (κ S : Type) [Sink κ] [Handler Ref S] (config : EncodeConfig)
    (nested : Ref → Bytes → Encode κ S Unit) (depth : Nat),
    Encode.fields config nested depth block table.fields =
      Encode.fields config nested depth block
        (table.fields.filter fun field => field.group? ≠ some group ∨ field.tag = active)

/-- A group has one active tag, for whichever member it is read. -/
theorem Table.Laid.slot_members (h : table.Laid schema) (hs : table.size ≤ block.length)
    (group : Nat) : ∃ active, ∀ member ∈ table.members group, member.slot block = .ok active := by
  by_cases hnone : ∃ first, first ∈ table.members group
  · obtain ⟨first, hfirst⟩ := hnone
    obtain ⟨hf, hg⟩ := Schema.group_of_mem_members hfirst
    have hsome : first.group?.isSome := Option.isSome_of_eq_some hg
    have hlaid := h.laid first hf (h.inBlock_of_group hf hsome)
    obtain ⟨_, stored, -, -, -, hslot⟩ := hlaid.slot_ok hs (hlaid.slot_isSome (.inr hsome))
    refine ⟨Bytes.ofLittleEndian stored, fun member hmem => ?_⟩
    obtain ⟨hmf, hmg⟩ := Schema.group_of_mem_members hmem
    exact h.grouped.slot_member hf hmf ⟨hsome, hmg.trans hg.symm⟩ hslot
  · exact ⟨0, fun member hmem => absurd ⟨member, hmem⟩ hnone⟩

/-- A group that holds nothing but the value of its active member has no more than that member. -/
theorem Table.Laid.sole (h : table.Laid schema) (hs : table.size ≤ block.length)
    (hx : table.Exclusive block) (group : Nat) : ∃ active, table.Sole group block active := by
  obtain ⟨active, hactive⟩ := h.slot_members hs group
  have hmember : ∀ member ∈ table.members group, member ∈ table.fields ∧ member.isHandled = false ∧
      member.isPresent block = .ok (active == member.tag) := by
    intro member hm
    obtain ⟨hf, hg⟩ := Schema.group_of_mem_members hm
    have hsome : member.group?.isSome := Option.isSome_of_eq_some hg
    exact ⟨hf, h.inBlock_of_group hf hsome,
      Field.isPresent_of_tag hsome (hactive member hm)⟩
  refine ⟨active, fun member hm other ho ht ht' => ?_, fun member hm => ?_,
    fun member hm place hp hne => ?_,
    fun κ S _ _ config nested depth => Encode.fields_filter fun field hf hkeep => ?_⟩
  · exact (Table.eq_of_tag_eq h.tags_ne (hmember member hm).1 (hmember other ho).1
      (ht'.trans ht.symm)).symm
  · obtain ⟨hf, hh, hpresent⟩ := hmember member hm
    rw [View.has_of_inBlock h.tags_ne hf hh, hpresent]
  · obtain ⟨hf, hg⟩ := Schema.group_of_mem_members hm
    obtain ⟨owner, ho, hsame, hslot, hin⟩ := hx member hf (Option.isSome_of_eq_some hg) place hp hne
    have hom : owner ∈ table.members group := Schema.mem_members ho (hsame.2.trans hg)
    rw [hactive owner hom, Except.ok.injEq] at hslot
    exact ⟨owner, hom, hslot.symm, hin⟩
  · simp only [decide_eq_false_iff_not, not_or, not_not] at hkeep
    have hm : field ∈ table.members group := Schema.mem_members hf hkeep.1
    obtain ⟨-, hh, hpresent⟩ := hmember field hm
    obtain ⟨_, hone⟩ := Field.multiplicity_of_group (Option.isSome_of_eq_some hkeep.1)
    have habsent : (active == field.tag) = false := beq_eq_false_iff_ne.mpr fun h => hkeep.2 h.symm
    refine ⟨hh, ?_⟩
    rw [Encode.stored, hone, hpresent, habsent]
    rfl

theorem letter_slotsWithin (ref : Bool) : letter.Throughout Table.SlotsWithin ref :=
  Schema.throughout_of_forall (by decide) ref

end BlockCodec
