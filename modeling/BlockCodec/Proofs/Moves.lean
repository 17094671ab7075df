import BlockCodec.Proofs.Initialisation

/-!
# Moves

Whatever changes a block, be it an update by tags or the decoder, does so in a few kinds of moves:
it stores a value in its place, sets a flag, claims an element, makes a member of a group the
active one, resets a field or initialises the message, and inside a message it does the same. An
invariant of blocks is proved for these moves only.
-/

namespace BlockCodec

variable {Ref : Type} {schema : Schema Ref} {size : Nat} {field : Field Ref}
  {block after stored content : Bytes}

namespace Field

/-- Storage that can be read without failure: text ends somewhere, and bytes are not longer than
their storage. -/
def Sound (field : Field Ref) (stored : Bytes) : Prop :=
  match field.kind with
  | .text => stored.byte (stored.length - 1) = 0
  | .bytes => Bytes.ofLittleEndian (stored.take 4) + 4 ≤ stored.length
  | _ => True

/-- Storage in the one form that its value has: filled up with zeros, and a truth value 0 or 1. -/
def Canonical (field : Field Ref) (stored : Bytes) : Prop :=
  match field.kind with
  | .text => ∃ text : String, 0 ∉ Bytes.ofText text ∧
      ∃ count, stored = Bytes.ofText text ++ Bytes.zeros (count + 1)
  | .bytes => ∃ payload count,
      stored = Bytes.littleEndian 4 payload.length ++ payload ++ Bytes.zeros count
  | .bool => stored = [0] ∨ stored = [1]
  | _ => True

/-- A value is stored over what its place held. -/
def Stores (mode : Mode) (field : Field Ref) (stored content : Bytes) : Prop :=
  content.length = stored.length ∧
    match mode with
    | .strict => field.Canonical content
    | .loose => field.Sound stored → field.Sound content

theorem take_prefix (number : Nat) (rest : Bytes) :
    (Bytes.littleEndian 4 number ++ rest).take 4 = Bytes.littleEndian 4 number :=
  List.take_left' (Bytes.length_littleEndian 4 number)

theorem sound_append_zeros (hk : field.kind = .text) (text : Bytes) (count : Nat) :
    field.Sound (text ++ Bytes.zeros (count + 1)) := by
  simp only [Sound, hk, Bytes.byte_append, List.length_append, Bytes.length_zeros]
  rw [if_neg (by omega), Bytes.byte_zeros]

theorem sound_prefixed (hk : field.kind = .bytes) {length : Nat} {rest : Bytes}
    (hl : length ≤ rest.length) : field.Sound (Bytes.littleEndian 4 length ++ rest) := by
  have := Nat.mod_le length (256 ^ 4)
  simp only [Sound, hk, take_prefix, Bytes.ofLittleEndian_littleEndian, List.length_append,
    Bytes.length_littleEndian]
  omega

theorem sound_zeros (hs : field.Suits schema) : field.Sound (Bytes.zeros field.dataSize) := by
  cases hk : field.kind with
  | text => simp only [Sound, hk, Bytes.byte_zeros]
  | bytes =>
    simp only [Suits, hk] at hs
    have hzeros : Bytes.zeros field.dataSize =
        Bytes.littleEndian 4 0 ++ Bytes.zeros (field.dataSize - 4) := by
      rw [Bytes.littleEndian_zero, Bytes.zeros, Bytes.zeros, Bytes.zeros,
        List.replicate_append_replicate, show 4 + (field.dataSize - 4) = field.dataSize by omega]
    rw [hzeros]
    exact sound_prefixed hk (Nat.zero_le _)
  | _ => simp only [Sound, hk]

/-- Text storage keeps its last byte unless that is overwritten with zero. -/
theorem Sound.overwrite_text (hk : field.kind = .text) (h : field.Sound stored) {start : Nat}
    (hle : start + content.length ≤ stored.length)
    (hz : start + content.length = stored.length → content.byte (content.length - 1) = 0) :
    field.Sound (Bytes.overwrite stored start content) := by
  simp only [Sound, hk] at h ⊢
  rw [Bytes.length_overwrite _ _ _ hle, Bytes.byte_overwrite hle]
  split
  · next hin =>
    rw [show stored.length - 1 - start = content.length - 1 by omega]
    exact hz (by omega)
  · exact h

/-- Bytes storage keeps its length when only the bytes behind it change. -/
theorem Sound.overwrite_bytes (hk : field.kind = .bytes) (h : field.Sound stored) {start : Nat}
    (hs : 4 ≤ start) (hle : start + content.length ≤ stored.length) :
    field.Sound (Bytes.overwrite stored start content) := by
  simp only [Sound, hk] at h ⊢
  have htake : (Bytes.overwrite stored start content).take 4 = stored.take 4 := by
    rw [Bytes.overwrite, List.append_assoc, List.take_append_of_le_length (by simp; omega),
      List.take_take, Nat.min_eq_left hs]
  rwa [htake, Bytes.length_overwrite _ _ _ hle]

theorem overwrite_prefix (number : Nat) (stored : Bytes) :
    Bytes.overwrite stored 0 (Bytes.littleEndian 4 number) =
      Bytes.littleEndian 4 number ++ stored.drop 4 := by
  simp [Bytes.overwrite, Bytes.length_littleEndian]

theorem sound_applyDefault {value : Default} {filled : Bytes} {count : Nat}
    (hd : field.applyDefault value (Bytes.zeros count) = .ok filled) : field.Sound filled := by
  cases hk : field.kind with
  | text =>
    cases value with
    | text text =>
      simp only [applyDefault, hk, Bytes.length_zeros] at hd
      split at hd
      · cases hd
      · next hlt =>
        cases hd
        have hlen : (Bytes.ofText text ++ [0]).length = (Bytes.ofText text).length + 1 := by simp
        simp only [Sound, hk]
        rw [Bytes.length_overwrite _ _ _ (by rw [hlen, Bytes.length_zeros]; omega),
          Bytes.length_zeros, Bytes.byte_overwrite (by rw [hlen, Bytes.length_zeros]; omega)]
        split
        · rw [Bytes.byte_append, if_neg (by omega)]
          exact Bytes.byte_zeros 1 _
        · exact Bytes.byte_zeros _ _
    | _ => simp [applyDefault, hk, Kind.isScalar] at hd
  | bytes =>
    cases value with
    | bytes content =>
      simp only [applyDefault, hk] at hd
      split at hd
      · cases hd
      · cases hd
        simp only [Bytes.overwrite, List.take_zero, List.nil_append, List.append_assoc]
        exact sound_prefixed hk (by rw [List.length_append]; omega)
    | _ => simp [applyDefault, hk, Kind.isScalar] at hd
  | _ => simp only [Sound, hk]

theorem Canonical.sound (h : field.Canonical content) : field.Sound content := by
  cases hk : field.kind with
  | text =>
    simp only [Canonical, hk] at h
    obtain ⟨text, -, count, rfl⟩ := h
    exact sound_append_zeros hk _ count
  | bytes =>
    simp only [Canonical, hk] at h
    obtain ⟨payload, count, rfl⟩ := h
    rw [List.append_assoc]
    exact sound_prefixed hk (by rw [List.length_append]; omega)
  | _ => simp only [Sound, hk]

theorem stores_scalar (mode : Mode) (hk : field.kind.isScalar = true) (hs : field.Suits schema)
    (hl : stored.length = field.dataSize) (value : Scalar) :
    field.Stores mode stored (field.kind.storeScalar stored value) := by
  refine ⟨length_storeScalar _ _ _, ?_⟩
  have hcanonical : field.Canonical (field.kind.storeScalar stored value) := by
    cases hkind : field.kind with
    | bool =>
      simp only [Suits, hkind, Kind.scalarWidth?, Option.some.injEq] at hs
      simp only [Canonical, hkind, Kind.storeScalar]
      rw [writeUnsigned_eq (by omega), show stored.length = 1 by omega]
      cases value.asBool
      · exact .inl rfl
      · exact .inr rfl
    | text | bytes | message => simp [hkind, Kind.isScalar] at hk
    | _ => simp only [Canonical, hkind]
  cases mode with
  | strict => exact hcanonical
  | loose => exact fun _ => hcanonical.sound

theorem Stores.loosen {mode : Mode} (h : field.Stores mode stored content) :
    field.Stores .loose stored content := by
  cases mode with
  | loose => exact h
  | strict => exact ⟨h.1, fun _ => h.2.sound⟩

end Field

/-- One block of a message may become another. -/
inductive Schema.Moves (schema : Schema Ref) (mode : Field.Mode) : Ref → Bytes → Bytes → Prop
  | refl {ref : Ref} (block : Bytes) : Moves schema mode ref block block
  | trans {ref : Ref} {a b c : Bytes} : Moves schema mode ref a b → Moves schema mode ref b c →
    Moves schema mode ref a c
  | store {ref : Ref} {field : Field Ref} {span : Span} {block stored content : Bytes}
    (hf : field ∈ (schema ref).fields) (hh : field.isHandled = false)
    (hk : ∀ inner, field.kind ≠ .message inner) (hp : field.Place mode block span)
    (hs : block.slice? span = some stored) (hc : field.Stores mode stored content) :
    Moves schema mode ref block (Bytes.overwrite block span.start content)
  | inner {ref inner : Ref} {field : Field Ref} {span : Span} {block stored content : Bytes}
    (hf : field ∈ (schema ref).fields) (hh : field.isHandled = false)
    (hk : field.kind = .message inner) (hp : field.Place mode block span)
    (hs : block.slice? span = some stored) (hm : Moves schema mode inner stored content) :
    Moves schema mode ref block (Bytes.overwrite block span.start content)
  | flag {ref : Ref} {field : Field Ref} {block after : Bytes} {value : Nat}
    (hf : field ∈ (schema ref).fields) (hh : field.isHandled = false)
    (hm : field.multiplicity = .optional) (hv : value = 1 ∨ mode = .loose ∧ value = 0)
    (hr : (Edit.setSlot field value).result block = (.ok (), after)) :
    Moves schema mode ref block after
  | claim {ref : Ref} {field : Field Ref} {block after : Bytes} {count : Nat}
    (hf : field ∈ (schema ref).fields) (hh : field.isHandled = false)
    (hm : field.multiplicity = .repeated) (hc : count < field.capacity)
    (hu : mode = .strict → field.slot block = .ok count)
    (hr : (Edit.setSlot field (count + 1)).result block = (.ok (), after)) :
    Moves schema mode ref block after
  | activate {ref : Ref} {field : Field Ref} {block after : Bytes}
    (hf : field ∈ (schema ref).fields) (hh : field.isHandled = false) (hg : field.group?.isSome)
    (hr : (schema.activate (schema ref) field).result block = (.ok (), after)) :
    Moves schema mode ref block after
  | reset {ref : Ref} {field : Field Ref} {block after : Bytes} (hl : mode = .loose)
    (hf : field ∈ (schema ref).fields) (hh : field.isHandled = false)
    (ha : field.isActive block = .ok true)
    (hr : (field.reset schema.initialiseNested).result block = (.ok (), after)) :
    Moves schema mode ref block after
  | initialise {ref : Ref} {block after : Bytes} {levels : Nat}
    (hr : (schema.initialiseWithin levels ref).result block = (.ok (), after)) :
    Moves schema mode ref block after

namespace Schema

theorem Moves.loosen {mode : Field.Mode} {ref : Ref} (h : schema.Moves mode ref block after) :
    schema.Moves .loose ref block after := by
  induction h with
  | refl block => exact .refl block
  | trans _ _ iha ihb => exact iha.trans ihb
  | store hf hh hk hp hs hc => exact .store hf hh hk hp.loosen hs hc.loosen
  | inner hf hh hk hp hs _ ih => exact .inner hf hh hk hp.loosen hs ih
  | flag hf hh hm hv hr => exact .flag hf hh hm (hv.imp id fun h => ⟨rfl, h.2⟩) hr
  | claim hf hh hm hc _ hr => exact .claim hf hh hm hc nofun hr
  | activate hf hh hg hr => exact .activate hf hh hg hr
  | reset _ hf hh ha hr => exact .reset rfl hf hh ha hr
  | initialise hr => exact .initialise hr

-- ---------------------------------------------------------------------------
-- Making a member active
-- ---------------------------------------------------------------------------

/-- The first part of an activation: every member is zeroed. -/
def clearEach (members : List (Field Ref)) : Edit Unit :=
  members.forM fun member => Edit.clear member member.data

theorem wipes_clearEach (members : List (Field Ref)) : (clearEach members).Wipes :=
  Edit.Wipes.forM fun _ _ => Edit.wipes_clear

theorem slice_clearEach {members : List (Field Ref)}
    (hr : (clearEach members).result block = (.ok (), after)) {member : Field Ref}
    (hm : member ∈ members) :
    after.slice? member.data = some (Bytes.zeros member.data.length) := by
  induction members generalizing block with
  | nil => cases hm
  | cons first rest ih =>
    rw [clearEach, List.forM, Step.result_bind_eq_ok] at hr
    obtain ⟨_, middle, hfirst, hrest⟩ := hr
    rcases List.mem_cons.mp hm with rfl | hm
    · have hwipes := (wipes_clearEach rest).slice_zeros (Edit.slice_clear hfirst)
      rwa [clearEach, hrest] at hwipes
    · exact ih hrest hm

/-- The places that an activation may change. -/
def groupPlaces (table : Table Ref) (field : Field Ref) (place : Nat) : Prop :=
  ∃ member ∈ table.fields, member.group? = field.group? ∧ member.extent place

variable {table : Table Ref}

theorem activate_eq_ok (hg : field.group?.isSome) :
    (schema.activate table field).result block = (.ok (), after) ↔
      ∃ group cleared filled, field.group? = some group ∧
        (clearEach (table.members group)).result block = (.ok (), cleared) ∧
        (Edit.inside field field.data (field.fillInitial schema.initialiseNested)).result cleared =
          (.ok (), filled) ∧
        (Edit.setSlot field field.tag).result filled = (.ok (), after) := by
  obtain ⟨group, hg⟩ := Option.isSome_iff_exists.mp hg
  simp only [activate, hg, Step.result_bind_eq_ok, Option.some.injEq, clearEach]
  constructor
  · rintro ⟨_, cleared, hc, _, filled, hf, hs⟩
    exact ⟨group, cleared, filled, rfl, hc, hf, hs⟩
  · rintro ⟨_, cleared, filled, rfl, hc, hf, hs⟩
    exact ⟨(), cleared, hc, (), filled, hf, hs⟩

theorem group_of_mem_members {group : Nat} {member : Field Ref} (hm : member ∈ table.members group) :
    member ∈ table.fields ∧ member.group? = some group := by
  simpa [Table.members] using hm

theorem mem_members {group : Nat} {member : Field Ref} (hm : member ∈ table.fields)
    (hg : member.group? = some group) : member ∈ table.members group := by
  simp [Table.members, hm, hg]

theorem groupPlaces_of_data {group : Nat} {member : Field Ref} (hg : field.group? = some group)
    (hm : member ∈ table.members group) {place : Nat} (hp : place ∈ member.data) :
    groupPlaces table field place := by
  obtain ⟨hmf, hmg⟩ := group_of_mem_members hm
  obtain ⟨_, hone⟩ := Field.multiplicity_of_group (Option.isSome_of_eq_some hmg)
  exact ⟨member, hmf, hmg.trans hg.symm, Field.extent_of_data (by simp [hone]) hp⟩

theorem touches_activate (hf : field ∈ table.fields) (hh : field.isHandled = false)
    (hg : field.group?.isSome) :
    (schema.activate table field).Touches (groupPlaces table field) := by
  obtain ⟨group, hgroup⟩ := Option.isSome_iff_exists.mp hg
  simp only [activate, hgroup]
  refine (Edit.Touches.forM fun member hm => ?_).bind fun _ => ?_
  · exact Edit.touches_clear.mono fun _ => groupPlaces_of_data hgroup hm
  · refine (Edit.Touches.mono ?_ fun _ => groupPlaces_of_data hgroup (mem_members hf hgroup)).bind fun _ => ?_
    · exact Edit.touches_inside (Field.keepsLength_fillInitial (keepsLength_initialiseWithin _ _))
    · exact Edit.touches_setSlot.mono fun place hp =>
        ⟨field, hf, rfl, Field.extent_of_slotPlaces hh hp⟩

/-- A field outside the group keeps its places when the members are apart from it. -/
theorem not_groupPlaces {other : Field Ref} (htags : table.fields.Pairwise (·.tag ≠ ·.tag))
    (hapart : ∀ member ∈ table.fields, member.tag ≠ other.tag → other.Apart member)
    (ho : other ∈ table.fields) (hg : field.group?.isSome) (hgroup : ¬field.SameGroup other)
    {place : Nat} (hp : other.extent place) : ¬groupPlaces table field place := by
  rintro ⟨member, hm, hmg, hpm⟩
  have hne : ¬other.SameGroup member := fun hsame => hgroup ⟨hg, by rw [← hmg, hsame.2]⟩
  have hmt : member.tag ≠ other.tag := fun hmt => by
    obtain rfl := Table.eq_of_tag_eq htags ho hm hmt
    exact hgroup ⟨hg, hmg⟩
  exact (hapart member hm hmt).disjoint hne hp hpm

/-- No value is stored over a slot, be it that of another member of the group. -/
theorem not_slotPlaces_of_storage {other : Field Ref} (htags : table.fields.Pairwise (·.tag ≠ ·.tag))
    (hd : table.Disjoint) (hf : field ∈ table.fields) (hh : field.isHandled = false)
    (ho : other ∈ table.fields) (hoh : other.isHandled = false) {place : Nat}
    (hp : place ∈ field.storage) : ¬other.slotPlaces place := by
  intro hslot
  obtain ⟨hself, hapart⟩ := hd field hf trivial
  by_cases ht : other.tag = field.tag
  · obtain rfl := Table.eq_of_tag_eq htags hf ho ht
    exact Field.not_slotPlaces_of_storage hh hself hp hslot
  · have hother := hapart other ho ht
    by_cases hg : field.SameGroup other
    · obtain ⟨slot, hsome, hpl⟩ := hslot
      rw [Field.Apart, if_pos hg] at hother
      exact Span.apart_iff.mp (hother.1 slot hsome) place hp hpl
    · exact hother.disjoint hg (Field.extent_of_storage hh hp) (Field.extent_of_slotPlaces hoh hslot)

theorem keepsLength_fill (schema : Schema Ref) (field : Field Ref) :
    (Edit.inside field field.data (field.fillInitial schema.initialiseNested)).KeepsLength :=
  (Edit.touches_inside
    (Field.keepsLength_fillInitial (keepsLength_initialiseWithin schema _))).keepsLength

theorem slot_activate (h : field.Laid schema size) (hs : size ≤ block.length)
    (hg : field.group?.isSome) (ht : field.tag ≤ Wire.maxFieldNumber)
    (hr : (schema.activate table field).result block = (.ok (), after)) :
    field.slot after = .ok field.tag := by
  obtain ⟨group, cleared, filled, -, hc, hf, hset⟩ := (activate_eq_ok hg).mp hr
  obtain ⟨_, hm⟩ := Field.multiplicity_of_group hg
  have hcleared := (wipes_clearEach _).keepsLength.length_eq hc
  have hfilled := (keepsLength_fill schema field).length_eq hf
  simp only [Wire.maxFieldNumber] at ht
  exact h.word_setSlot (by rwa [hfilled, hcleared]) (by simp [hm]) (by omega) hset

/-- A member that has become active holds its initial content. -/
theorem data_activate (hg : field.group?.isSome) (hf : field ∈ table.fields)
    (hh : field.isHandled = false) (hself : field.spans.Pairwise Span.Apart)
    (hr : (schema.activate table field).result block = (.ok (), after)) :
    ∃ content, after.slice? field.data = some content ∧
      (field.fillInitial schema.initialiseNested).result (Bytes.zeros field.data.length) =
        (.ok (), content) := by
  obtain ⟨group, cleared, filled, hgroup, hc, hfill, hset⟩ := (activate_eq_ok hg).mp hr
  obtain ⟨_, hm⟩ := Field.multiplicity_of_group hg
  have hzero := slice_clearEach hc (mem_members hf hgroup)
  obtain ⟨stored, content, hs, hcontent, rfl⟩ := Edit.inside_eq_ok hfill
  obtain rfl : stored = Bytes.zeros field.data.length := by
    rw [hzero, Option.some.injEq] at hs
    exact hs.symm
  have hlen : content.length = (Bytes.zeros field.data.length).length :=
    (Field.keepsLength_fillInitial (keepsLength_initialiseWithin schema _)).length_eq hcontent
  refine ⟨content, ?_, hcontent⟩
  rw [← (Edit.touches_setSlot.agree hset).slice fun place hp hslot => ?_]
  · exact Bytes.slice_overwrite_self hs hlen
  · rw [← Field.storage_eq_data (by simp [hm])] at hp
    exact Field.not_slotPlaces_of_storage hh hself hp hslot

theorem Laid.fillInitial_ok {levels : Nat} {ref : Ref} (h : schema.Laid (levels + 1) ref)
    (hl : levels ≤ maxInitialDepth) (hf : field ∈ (schema ref).fields)
    (hh : field.isHandled = false) :
    ∃ content, (field.fillInitial schema.initialiseNested).result (Bytes.zeros field.dataSize) =
      (.ok (), content) := by
  have hlaid := h.here.laid field hf hh
  refine hlaid.fillInitial_ok (Bytes.length_zeros _) fun inner hk => ?_
  refine initialiseWithin_ok ((h.nested (Table.mem_nested hf hh hk)).mono hl) ?_
  rw [Bytes.length_zeros]
  exact Nat.le_of_eq (hlaid.dataSize_of_message hk).symm

/-- An activation in laid tables succeeds. -/
theorem activate_ok {levels : Nat} {ref : Ref} (h : schema.Laid (levels + 1) ref)
    (hl : levels ≤ maxInitialDepth) (hs : (schema ref).size ≤ block.length)
    (hf : field ∈ (schema ref).fields) (hh : field.isHandled = false) :
    ∃ after, (schema.activate (schema ref) field).result block = (.ok (), after) := by
  cases hgroup : field.group? with
  | none => exact ⟨block, by simp [activate, hgroup]⟩
  | some group =>
    have hg : field.group?.isSome := by rw [hgroup]; rfl
    have hlaid := h.here.laid field hf hh
    obtain ⟨_, hm⟩ := Field.multiplicity_of_group hg
    have hclear : Step.Ends (clearEach ((schema ref).members group)) block
        (fun _ u => (schema ref).size ≤ u.length) fun _ _ => False := by
      refine Step.Ends.forM (fun member hmem u hu => ?_) hs
      obtain ⟨hmf, hmg⟩ := group_of_mem_members hmem
      have hmh : member.isHandled = false := by
        cases hmh : member.isHandled with
        | false => rfl
        | true => simp [(h.here.handled member hmf hmh).group_eq] at hmg
      obtain ⟨_, hone⟩ := Field.multiplicity_of_group (Option.isSome_of_eq_some hmg)
      have hw := (h.here.laid member hmf hmh).storage_within hu
      rw [Field.storage_eq_data (by simp [hone])] at hw
      obtain ⟨stored, hstored⟩ := Bytes.slice_isSome hw
      refine .of_ok (Edit.result_change hstored _) ?_
      rwa [Bytes.length_overwrite_slice hstored (Bytes.length_zeros _)]
    obtain ⟨_, cleared, hc, hcs⟩ := hclear.answers
    have hzero := slice_clearEach hc (mem_members hf hgroup)
    obtain ⟨content, hcontent⟩ := h.fillInitial_ok hl hf hh
    have hfill : (Edit.inside field field.data (field.fillInitial schema.initialiseNested)).result
        cleared = _ := Edit.result_inside hzero _
    rw [hlaid.length_data, hcontent] at hfill
    have hlen := (keepsLength_fill schema field).length_eq hfill
    obtain ⟨after, _, hset, -⟩ := hlaid.setSlot_ok (by rw [hlen]; exact hcs)
      (hlaid.slot_isSome (.inr hg)) field.tag
    exact ⟨after, (activate_eq_ok hg).mpr ⟨group, cleared, _, hgroup, hc, hfill, hset⟩⟩

theorem Moves.length_eq {mode : Field.Mode} {ref : Ref} (h : schema.Moves mode ref block after) :
    after.length = block.length := by
  induction h with
  | refl => rfl
  | trans _ _ iha ihb => exact ihb.trans iha
  | store _ _ _ _ hs hc => exact Bytes.length_overwrite_slice hs hc.1
  | inner _ _ _ _ hs _ ih => exact Bytes.length_overwrite_slice hs ih
  | flag _ _ _ _ hr => exact Edit.touches_setSlot.keepsLength.length_eq hr
  | claim _ _ _ _ _ hr => exact Edit.touches_setSlot.keepsLength.length_eq hr
  | activate hf hh hg hr => exact (touches_activate hf hh hg).keepsLength.length_eq hr
  | reset _ _ hh _ hr =>
    exact (Field.touches_reset hh (keepsLength_initialiseWithin schema _)).keepsLength.length_eq hr
  | initialise hr => exact (keepsLength_initialiseWithin schema _ _).length_eq hr

end Schema

-- ---------------------------------------------------------------------------
-- Updates
-- ---------------------------------------------------------------------------

/-- The places that an update of the field may change: its own, and those of its group. -/
def Table.updates (table : Table Ref) (field : Field Ref) (place : Nat) : Prop :=
  field.extent place ∨ field.group?.isSome ∧ Schema.groupPlaces table field place

/-- An update leaves the places of the fields outside its group alone. -/
theorem Table.not_updates {table : Table Ref} {other : Field Ref}
    (htags : table.fields.Pairwise (·.tag ≠ ·.tag)) (hd : table.Disjoint) (hf : field ∈ table.fields)
    (ho : other ∈ table.fields) (ht : other.tag ≠ field.tag) (hg : ¬field.SameGroup other) {place : Nat}
    (hp : other.extent place) : ¬table.updates field place := by
  have hapart := (hd other ho trivial).2
  rintro (hext | ⟨hsome, hgroup⟩)
  · exact (hapart field hf ht.symm).disjoint (fun hsame => hg hsame.symm) hp hext
  · exact Schema.not_groupPlaces htags hapart ho hsome hg hp hgroup

end BlockCodec
