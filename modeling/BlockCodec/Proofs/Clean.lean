import BlockCodec.Proofs.Actions

/-!
# Clean blocks

Writing values into a zero block leaves it `Clean`: every byte that is not zero lies in a slot or in
a value in use, and every value has the one form that `Canonical` says, in the messages inside it
too. So a clean block is known once its values are known, which is why it can be read back.
-/

namespace BlockCodec

variable {Ref : Type} {schema : Schema Ref} {ref : Ref} {levels size : Nat} {field other : Field Ref}
  {block after stored content : Bytes} {span : Span} {place : Nat}

/-- Tables without handled fields and without defaults, whose fields keep to their own places and
have no slots but those they use. -/
structure Schema.Bare (schema : Schema Ref) (levels : Nat) (ref : Ref) : Prop where
  laid : schema.Laid levels ref
  disjoint : schema.Throughout Table.Disjoint ref
  unhandled : schema.Throughout Table.Unhandled ref
  undefaulted : schema.Throughout Table.Undefaulted ref
  tidy : schema.Throughout Table.NoIdleSlots ref
  short : (schema ref).size < 2 ^ 32

/-- The place is in the slot of the field or in a value in use. -/
def Field.Uses (field : Field Ref) (block : Bytes) (place : Nat) : Prop :=
  field.slotPlaces place ∨ ∃ span, field.Place .strict block span ∧ place ∈ span

/-- There is nothing in the block but what its fields use. -/
def Table.Covers (table : Table Ref) (block : Bytes) : Prop :=
  ∀ place, block.byte place ≠ 0 → ∃ field ∈ table.fields, field.Uses block place

theorem Field.Uses.congr (h : field.Uses block place) (hs : field.slot after = field.slot block) :
    field.Uses after place := by
  rcases h with hslot | ⟨span, hp, hm⟩
  · exact .inl hslot
  · exact .inr ⟨span, hp.congr hs, hm⟩

theorem Field.Uses.extent (h : field.Uses block place) (hfits : field.Fits schema size) :
    field.extent place := by
  rcases h with hslot | ⟨span, hp, hm⟩
  · exact extent_of_slotPlaces hfits.inBlock hslot
  · exact extent_of_storage hfits.inBlock (hfits.mem_storage hp hm)

theorem Table.covers_zeros (table : Table Ref) (count : Nat) : table.Covers (Bytes.zeros count) :=
  fun place hp => absurd (Bytes.byte_zeros count place) hp

/-- A change of some places: what is used elsewhere is used still. -/
theorem Table.Covers.change {table : Table Ref} {places : Nat → Prop} (h : table.Covers block)
    (hagree : Bytes.AgreeOn (fun place => ¬places place) block after)
    (hin : ∀ place, places place → after.byte place ≠ 0 →
      ∃ field ∈ table.fields, field.Uses after place)
    (hout : ∀ place, ¬places place → ∀ field ∈ table.fields, field.Uses block place →
      field.Uses after place) : table.Covers after := by
  intro place hp
  by_cases hpl : places place
  · exact hin place hpl hp
  · rw [← hagree.2 place hpl] at hp
    obtain ⟨field, hf, hu⟩ := h place hp
    exact ⟨field, hf, hout place hpl field hf hu⟩

namespace Schema.Bare

theorem fieldLaid (hb : schema.Bare levels ref) (hf : field ∈ (schema ref).fields) :
    field.Laid schema (schema ref).size :=
  hb.laid.here.laid field hf (hb.unhandled.here field hf)

theorem plain (hb : schema.Bare levels ref) (hl : levels ≤ maxInitialDepth + 1) :
    schema.Plain .strict levels ref :=
  ⟨hb.laid, hl, fun _ => hb.short⟩

theorem below (hb : schema.Bare (levels + 1) ref) (hf : field ∈ (schema ref).fields) {inner : Ref}
    (hk : field.kind = .message inner) : schema.Bare levels inner := by
  have hn := Table.mem_nested hf (hb.unhandled.here field hf) hk
  have hlaid := hb.fieldLaid hf
  have hle := hlaid.storage_le
  have hone := Field.element_le hlaid.places_pos
  have hshort := hb.short
  rw [hlaid.dataSize_of_message hk] at hle hone
  exact ⟨hb.laid.nested hn, hb.disjoint.nested hn, hb.unhandled.nested hn,
    hb.undefaulted.nested hn, hb.tidy.nested hn, by omega⟩

/-- Two fields outside of a common group have no place in common. -/
theorem not_extent (hb : schema.Bare levels ref) (hf : field ∈ (schema ref).fields)
    (ho : other ∈ (schema ref).fields) (hne : other.tag ≠ field.tag) (hg : ¬field.SameGroup other)
    (hp : other.extent place) : ¬field.extent place :=
  fun hext => ((hb.disjoint.here field hf trivial).2 other ho hne).disjoint hg hext hp

/-- No value is stored over a slot. -/
theorem not_slotPlaces (hb : schema.Bare levels ref) (hf : field ∈ (schema ref).fields)
    (ho : other ∈ (schema ref).fields) (hp : place ∈ field.storage) : ¬other.slotPlaces place :=
  not_slotPlaces_of_storage hb.laid.here.tags_ne hb.disjoint.here hf (hb.unhandled.here field hf) ho
    (hb.unhandled.here other ho) hp

/-- Zeros are initialised already. -/
theorem initialise_zeros (hb : schema.Bare levels ref) (hl : levels ≤ maxInitialDepth + 1)
    {count : Nat} (hs : (schema ref).size ≤ count) :
    (schema.initialise ref).result (Bytes.zeros count) = (.ok (), Bytes.zeros count) := by
  obtain ⟨after, hr⟩ := initialiseWithin_ok (hb.laid.mono hl)
    (show (schema ref).size ≤ (Bytes.zeros count).length by rwa [Bytes.length_zeros])
  have hzeros := (wipes_initialiseWithin (maxInitialDepth + 1) hb.undefaulted).zeros count
  rw [hr] at hzeros
  obtain rfl : after = Bytes.zeros count := hzeros
  exact hr

end Schema.Bare

namespace Schema

-- ---------------------------------------------------------------------------
-- One move
-- ---------------------------------------------------------------------------

theorem covers_overwrite (h : (schema ref).Covers block) (hb : schema.Bare levels ref)
    (hf : field ∈ (schema ref).fields) (hp : field.Place .strict block span)
    (hs : block.slice? span = some stored) (hl : content.length = stored.length) :
    (schema ref).Covers (Bytes.overwrite block span.start content) := by
  have hagree := Bytes.agreeOn_overwrite hs hl
  have hslot : ∀ other ∈ (schema ref).fields,
      other.slot (Bytes.overwrite block span.start content) = other.slot block := fun other ho =>
    Field.slot_congr (hagree.mono fun place hps hin =>
      hb.not_slotPlaces hf ho ((hb.fieldLaid hf).mem_storage hp hin) hps)
  refine h.change hagree (fun place hin _ => ?_) fun place _ other ho huse => ?_
  · exact ⟨field, hf, .inr ⟨span, hp.congr (hslot field hf), by simpa using hin⟩⟩
  · exact huse.congr (hslot other ho)

theorem covers_setSlot (h : (schema ref).Covers block) (hb : schema.Bare levels ref)
    (hf : field ∈ (schema ref).fields) (hg : field.group? = none) {value : Nat}
    (hr : (Edit.setSlot field value).result block = (.ok (), after))
    (hself : ∀ place, field.Uses block place → field.Uses after place) :
    (schema ref).Covers after := by
  have hagree := Edit.touches_setSlot.agree hr
  refine h.change hagree (fun place hin _ => ⟨field, hf, .inl hin⟩) fun place _ other ho huse => ?_
  by_cases ht : other.tag = field.tag
  · obtain rfl := Table.eq_of_tag_eq hb.laid.here.tags_ne hf ho ht
    exact hself place huse
  · refine huse.congr (Field.slot_congr (hagree.mono fun place hp hslot => ?_))
    exact hb.not_extent hf ho ht (by simp [Field.SameGroup, hg])
      (Field.extent_of_slotPlaces (hb.unhandled.here other ho) hp)
      (Field.extent_of_slotPlaces (hb.unhandled.here field hf) hslot)

/-- A flag that is set leaves the value in use. -/
theorem uses_flag (hlaid : field.Laid schema size) (hs : size ≤ block.length)
    (hm : field.multiplicity = .optional)
    (hr : (Edit.setSlot field 1).result block = (.ok (), after)) (h : field.Uses block place) :
    field.Uses after place := by
  rcases h with hslot | ⟨span, hp, hin⟩
  · exact .inl hslot
  · refine .inr ⟨span, ?_, hin⟩
    cases hp with
    | single =>
      refine .single (.inr hm) fun _ _ flag hflag => ?_
      have hone := hlaid.flag_setSlot hs hm hr
      rw [hflag, Except.ok.injEq] at hone
      omega
    | active hone => simp [hm] at hone
    | element hrep => simp [hm] at hrep

/-- An element that is claimed leaves those before it in use. -/
theorem uses_claim (hb : schema.Bare levels ref) (hf : field ∈ (schema ref).fields)
    (hs : (schema ref).size ≤ block.length) (hm : field.multiplicity = .repeated) {count : Nat}
    (hc : count < field.capacity) (hcount : field.slot block = .ok count)
    (hr : (Edit.setSlot field (count + 1)).result block = (.ok (), after))
    (h : field.Uses block place) : field.Uses after place := by
  have hlaid := hb.fieldLaid hf
  rcases h with hslot | ⟨span, hp, hin⟩
  · exact .inl hslot
  · refine .inr ⟨span, ?_, hin⟩
    cases hp with
    | single hone => simp [hm] at hone
    | active hone => simp [hm] at hone
    | @element index _ hi hu =>
      obtain ⟨held, hheld, hlt⟩ := hu rfl
      rw [hcount, Except.ok.injEq] at hheld
      have hplaces : field.places = field.capacity := by simp [Field.places, Field.isRepeated, hm]
      rw [hlaid.element_eq (by omega), Span.mem_iff] at hin
      have hcap := hlaid.capacity_lt hm (by simp only at hin; omega) hb.short
      have hafter := hlaid.word_setSlot hs (by simp [hm]) (by omega) hr
      exact .element hm hi fun _ => ⟨count + 1, hafter, by omega⟩

/-- An activation leaves nothing but zeros in its group, the active tag apart. -/
theorem byte_activate (hb : schema.Bare levels ref) (hf : field ∈ (schema ref).fields)
    (hg : field.group?.isSome)
    (hr : (schema.activate (schema ref) field).result block = (.ok (), after))
    (hp : groupPlaces (schema ref) field place) (hslot : ¬field.slotPlaces place) :
    after.byte place = 0 := by
  obtain ⟨group, cleared, filled, hgroup, hc, hfill, hset⟩ := (activate_eq_ok hg).mp hr
  obtain ⟨member, hm, hmg, span, hspan, hin⟩ := hp
  have hsame : field.SameGroup member := ⟨hg, hmg⟩
  rw [hgroup] at hmg
  obtain ⟨_, hone⟩ := Field.multiplicity_of_group (Option.isSome_of_eq_some hmg)
  rw [(hb.fieldLaid hm).spans_eq] at hspan
  rcases List.mem_cons.mp hspan with rfl | hspan
  · rw [Field.storage_eq_data (by simp [hone])] at hin
    have hwipes : (Edit.inside field field.data
        (field.fillInitial schema.initialiseNested)).Wipes :=
      Edit.wipes_inside (Field.wipes_fillInitial (hb.undefaulted.here field hf) fun inner hk =>
        wipes_initialiseWithin _
          (hb.undefaulted.nested (Table.mem_nested hf (hb.unhandled.here field hf) hk)))
    have hzero := hwipes.slice_zeros (slice_clearEach hc (mem_members hm hmg))
    rw [hfill] at hzero
    rw [← (Edit.touches_setSlot.agree hset).2 place hslot]
    exact Bytes.byte_of_slice_zeros hzero hin
  · have hshared := hsame.sizeSlot_eq (hb.laid.here.groups field hf member hm hsame)
    exact absurd ⟨span, hshared ▸ Option.mem_toList.mp hspan, hin⟩ hslot

theorem covers_activate (h : (schema ref).Covers block) (hb : schema.Bare levels ref)
    (hf : field ∈ (schema ref).fields) (hg : field.group?.isSome)
    (hr : (schema.activate (schema ref) field).result block = (.ok (), after)) :
    (schema ref).Covers after := by
  have hagree := (touches_activate hf (hb.unhandled.here field hf) hg).agree hr
  refine h.change hagree (fun place hin hne => ?_) fun place hout other ho huse => ?_
  · by_cases hslot : field.slotPlaces place
    · exact ⟨field, hf, .inl hslot⟩
    · exact absurd (byte_activate hb hf hg hr hin hslot) hne
  · have hgroup : ¬field.SameGroup other := fun hsame =>
      hout ⟨other, ho, hsame.2, huse.extent (hb.fieldLaid ho).toFits⟩
    refine huse.congr (Field.slot_congr (hagree.mono fun place hslot => ?_))
    exact not_groupPlaces hb.laid.here.tags_ne (hb.disjoint.here other ho trivial).2 ho hg hgroup
      (Field.extent_of_slotPlaces (hb.unhandled.here other ho) hslot)

/-- Initialisation leaves nothing but zeros. -/
theorem covers_initialiseWithin (h : (schema ref).Covers block) (hb : schema.Bare levels ref)
    {depth : Nat} (hr : (schema.initialiseWithin depth ref).result block = (.ok (), after)) :
    (schema ref).Covers after := by
  cases depth with
  | zero => cases hr
  | succ depth =>
    have hkeep := keepsLength_initialiseWithin schema depth
    have hwipes := wipes_initialiseWithin (depth + 1) hb.undefaulted block
    rw [hr] at hwipes
    intro place hne
    exfalso
    have hsame := (hwipes.2 place).resolve_right hne
    obtain ⟨field, hf, huse⟩ := h place (by rwa [← hsame])
    have hh := hb.unhandled.here field hf
    have hlaid := hb.fieldLaid hf
    have hfresh := Table.fresh_of_reset hb.laid.here.tags_ne hb.disjoint.here hkeep hr field hf
      trivial hh
    obtain ⟨span, hspan, hin⟩ := huse.extent hlaid.toFits
    rw [hlaid.spans_eq] at hspan
    rcases List.mem_cons.mp hspan with rfl | hspan
    · obtain ⟨content, hstored, hc⟩ := hfresh.storage
      obtain rfl := hc.eq_zeros (hb.undefaulted.here field hf) fun inner hk =>
        wipes_initialiseWithin depth (hb.undefaulted.nested (Table.mem_nested hf hh hk))
      exact hne (Bytes.byte_of_slice_zeros hstored hin)
    · exact hne (Bytes.byte_of_slice_zeros (hfresh.slot span (Option.mem_toList.mp hspan)) hin)

/-- Writing values keeps a block covered. -/
theorem covers_moves (hm : schema.Moves .strict ref block after) (hb : schema.Bare levels ref)
    (hs : (schema ref).size ≤ block.length) (h : (schema ref).Covers block) :
    (schema ref).Covers after := by
  generalize hmode : Field.Mode.strict = mode at hm
  induction hm with
  | refl => exact h
  | trans ha _ iha ihb => exact ihb hb (by rwa [ha.length_eq]) (iha hb hs h)
  | store hf hh hk hp hstored hc =>
    subst hmode
    exact covers_overwrite h hb hf hp hstored hc.1
  | inner hf hh hk hp hstored hm =>
    subst hmode
    exact covers_overwrite h hb hf hp hstored hm.length_eq
  | flag hf hh hm hv hr =>
    subst hmode
    obtain rfl := hv.resolve_right (by simp)
    exact covers_setSlot h hb hf (by simp [Field.group?, hm]) hr
      fun place => uses_flag (hb.fieldLaid hf) hs hm hr
  | claim hf hh hm hc hcount hr =>
    exact covers_setSlot h hb hf (by simp [Field.group?, hm]) hr
      fun place => uses_claim hb hf hs hm hc (hcount hmode.symm) hr
  | activate hf hh hg hr => exact covers_activate h hb hf hg hr
  | reset hl => simp [hl] at hmode
  | initialise hr => exact covers_initialiseWithin h hb hr

end Schema

-- ---------------------------------------------------------------------------
-- Clean blocks
-- ---------------------------------------------------------------------------

/-- Every value in its one form, messages without anything else in them, flags that are 0 or 1,
arrays within their capacity and active tags of members. -/
def Discipline.clean (schema : Schema Ref) : Discipline Ref where
  watches field := field.default? = none
  slot table field value :=
    Discipline.sound.slot table field value ∧ (field.multiplicity = .optional → value ≤ 1)
  value field stored := field.Canonical stored ∧
    ∀ inner levels, field.kind = .message inner → schema.Bare levels inner →
      (schema inner).Covers stored

theorem Field.canonical_zeros (hs : field.Suits schema) :
    field.Canonical (Bytes.zeros field.dataSize) := by
  cases hk : field.kind with
  | text =>
    simp only [Suits, hk] at hs
    simp only [Canonical, hk]
    exact ⟨"", by decide, field.dataSize - 1, by
      rw [Nat.sub_add_cancel hs]
      rfl⟩
  | bytes =>
    simp only [Suits, hk] at hs
    simp only [Canonical, hk]
    refine ⟨[], field.dataSize - 4, ?_⟩
    rw [List.length_nil, Bytes.littleEndian_zero, List.append_nil, Bytes.zeros, Bytes.zeros,
      Bytes.zeros, List.replicate_append_replicate, Nat.add_sub_cancel' hs]
  | bool =>
    simp only [Suits, hk, Kind.scalarWidth?, Option.some.injEq] at hs
    simp only [Canonical, hk, ← hs]
    exact .inl rfl
  | _ => simp only [Canonical, hk]

theorem Discipline.lawful_clean : (Discipline.clean schema).Lawful schema .strict := by
  have hsound : Discipline.sound.Lawful schema .loose := lawful_sound
  constructor
  case slot_zero => exact fun table field => ⟨hsound.slot_zero table field, fun _ => Nat.zero_le _⟩
  case slot_tag =>
    intro table field hf member hm hg
    obtain ⟨_, hone⟩ := Field.multiplicity_of_group hg.1
    exact ⟨hsound.slot_tag table field hf member hm hg, fun h => by simp [hone] at h⟩
  case slot_flag =>
    exact fun table field value hm hv => ⟨hsound.slot_flag table field value hm hv, fun _ => hv⟩
  case slot_count =>
    exact fun table field value hm hv =>
      ⟨hsound.slot_count table field value hm hv, fun h => by simp [hm] at h⟩
  case value_zeros =>
    exact fun field hs => ⟨Field.canonical_zeros hs, fun _ _ _ _ => Table.covers_zeros _ _⟩
  case value_default =>
    intro field value filled hw hd
    rw [show field.default? = none from hw] at hd
    cases hd
  case value_stores =>
    exact fun field stored content hk hc _ =>
      ⟨hc.2, fun inner _ hinner => absurd hinner (hk inner)⟩
  case value_moves =>
    intro field inner levels stored content hk hlaid _ hs hm h
    refine ⟨by simp only [Field.Canonical, hk], fun other depth ho hb => ?_⟩
    obtain rfl : inner = other := by simpa [hk] using ho
    exact Schema.covers_moves hm hb hs (h.2 inner depth hk hb)

structure Schema.Clean (schema : Schema Ref) (ref : Ref) (block : Bytes) : Prop where
  covers : (schema ref).Covers block
  holds : schema.Holds (.clean schema) ref block

theorem Schema.Clean.moves (h : schema.Clean ref block) (hb : schema.Bare levels ref)
    (hs : (schema ref).size ≤ block.length) (hm : schema.Moves .strict ref block after) :
    schema.Clean ref after where
  covers := covers_moves hm hb hs h.covers
  holds := h.holds.moves Discipline.lawful_clean hm hb.laid
    (hb.disjoint.mono fun _ hsep field hf _ => hsep field hf trivial) hs

/-- The blocks that come of zeros by writing values, whether all of it succeeds or not. -/
theorem clean_performAll {actions : List Action} (hb : schema.Bare levels ref)
    (hl : levels ≤ maxInitialDepth + 1) (hw : ∀ action ∈ actions, action.Writes) {count : Nat}
    (hs : (schema ref).size ≤ count) :
    schema.Clean ref ((performAll schema actions (schema ref)).result (Bytes.zeros count)).2 := by
  have hzeros : schema.Clean ref (Bytes.zeros count) :=
    ⟨Table.covers_zeros _ _, Schema.holds_zeros Discipline.lawful_clean hb.laid count⟩
  have hlen : (schema ref).size ≤ (Bytes.zeros count).length := by rwa [Bytes.length_zeros]
  exact hzeros.moves hb hlen
    ((performAll_obeys actions (hb.plain hl) hlen fun _ => hw).moves.toMoves hb.unhandled)

end BlockCodec
