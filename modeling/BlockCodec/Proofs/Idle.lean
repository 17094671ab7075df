import BlockCodec.Proofs.Exclusion
import BlockCodec.Proofs.Narrowing

/-!
# Inactive members

An inactive member of a group has storage of its own only as far as it is not shared. The accessors of
single values look whether the member is active, and answer zero or nothing for one that is not. A view
of an inactive message is opened without that look: it shows nothing when the storage of the active
member is elsewhere, and otherwise the bytes of that member. `View.idle_reads` states both,
`View.stamp_shows_seal` is a message that shows what was stored in the member next to it.
-/

namespace BlockCodec

variable {Ref : Type} {schema : Schema Ref} {ref inner last : Ref} {table : Table Ref} {levels count : Nat}
  {field member : Field Ref} {block content stored : Bytes}

-- ---------------------------------------------------------------------------
-- Zeros
-- ---------------------------------------------------------------------------

def Scalar.IsZero : Scalar → Prop
  | .bool value => value = false
  | .unsigned value => value = 0
  | .signed value => value = 0
  | .single bits => bits = 0
  | .double bits => bits = 0

theorem readSigned_zeros (count : Nat) : readSigned (Bytes.zeros count) = 0 := by
  have h : (Bytes.zeros count).take 8 = Bytes.zeros (min 8 count) := by simp [Bytes.zeros]
  rw [readSigned, h, Bytes.ofLittleEndian_zeros]
  simp

theorem Kind.loadScalar_zeros (kind : Kind Ref) (count : Nat) :
    (kind.loadScalar (Bytes.zeros count)).IsZero := by
  unfold loadScalar
  split <;> simp [Scalar.IsZero, readUnsigned_zeros, readSigned_zeros, Bytes.isZero_zeros]

namespace Field

theorem text_zeros (hk : field.kind = .text) (hs : field.Suits schema) :
    field.text (Bytes.zeros field.dataSize) = .ok "" := by
  simp only [Suits, hk] at hs
  obtain ⟨count, hcount⟩ : ∃ count, field.dataSize = count + 1 := ⟨field.dataSize - 1, by omega⟩
  rw [hcount]
  have h : field.text (Bytes.ofText "" ++ Bytes.zeros (count + 1)) = .ok "" :=
    text_ofText (by decide) count
  exact h

end Field

namespace View

/-- The view shows a message that says nothing. -/
structure Empty (view : View Ref) : Prop where
  get : ∀ field ∈ view.table.fields, field.multiplicity ≠ .repeated → field.kind.isScalar = true →
    ∃ value, view.get field.tag = .ok value ∧ value.IsZero
  getText : ∀ field ∈ view.table.fields, field.multiplicity ≠ .repeated → field.kind = .text →
    view.getText field.tag = .ok ""
  getBytes : ∀ field ∈ view.table.fields, field.multiplicity ≠ .repeated → field.kind = .bytes →
    view.getBytes field.tag = .ok []
  count : ∀ field ∈ view.table.fields, field.multiplicity = .repeated →
    view.count field.tag = .ok 0

/-- The second view is opened from the first one, through any number of messages. -/
inductive Opens (schema : Schema Ref) : View Ref → View Ref → Prop
  | refl (view : View Ref) : Opens schema view view
  | submessage {view next last : View Ref} {tag : Nat} (h : view.submessage schema tag = .ok next) :
    Opens schema next last → Opens schema view last
  | element {view next last : View Ref} {tag index : Nat}
    (h : view.element schema tag index = .ok next) : Opens schema next last → Opens schema view last

end View

-- ---------------------------------------------------------------------------
-- Messages of zeros
-- ---------------------------------------------------------------------------

namespace Field.Laid

variable {size : Nat} (h : field.Laid schema size) (hl : size ≤ count)

include h hl

theorem load_zeros : field.load field.data (Bytes.zeros count) = .ok (Bytes.zeros field.dataSize) := by
  have hw : field.data.Within count := by
    have hle := h.storage_le
    have hone := element_le h.places_pos
    rw [h.data_eq]
    constructor <;> simp only <;> omega
  rw [load, Bytes.slice_zeros hw, h.length_data]

theorem slot_zeros (ho : field.sizeOffset.isSome) : field.slot (Bytes.zeros count) = .ok 0 := by
  obtain ⟨offset, ho⟩ := Option.isSome_iff_exists.mp ho
  have hslot := h.sizeSlot_eq ho
  have hw := h.slot_within (hl.trans (Nat.le_of_eq (Bytes.length_zeros count).symm)) hslot
  rw [Bytes.length_zeros] at hw
  exact slot_of_zeros hslot (Bytes.slice_zeros hw)

theorem isActive_zeros : ∃ active, field.isActive (Bytes.zeros count) = .ok active := by
  cases hg : field.group? with
  | none => exact ⟨true, by cases hm : field.multiplicity <;> simp_all [isActive, group?]⟩
  | some group =>
    have hsome : field.group?.isSome := Option.isSome_of_eq_some hg
    exact ⟨_, isActive_of_slot hsome (h.slot_zeros hl (h.slot_isSome (.inr hsome)))⟩

theorem count_zeros (hm : field.multiplicity = .repeated) :
    field.count (Bytes.zeros count) = .ok 0 :=
  count_eq_ok.mpr ⟨h.slot_zeros hl (h.slot_isSome (.inl (by simp [isRepeated, hm]))), Nat.zero_le _⟩

end Field.Laid

namespace View

section

variable (hlaid : schema.Laid levels ref) (hl : (schema ref).size ≤ count)

include hlaid hl

/-- Zeros read as zeros where a field is active, and where it is not. -/
theorem empty_zeros (hu : schema.Throughout Table.Unhandled ref) :
    Empty ⟨schema ref, Bytes.zeros count⟩ := by
  have htags := hlaid.here.tags_ne
  refine ⟨fun field hf hm hk => ?_, fun field hf hm hk => ?_, fun field hf hm hk => ?_,
    fun field hf hm => ?_⟩
  all_goals
    have hh := hu.here field hf
    have hfield := hlaid.here.laid field hf hh
    obtain ⟨active, ha⟩ := hfield.isActive_zeros hl
  · rw [get_eq hf hh hm htags hk, ha, bind_ok]
    cases active with
    | false => exact ⟨_, rfl, field.kind.loadScalar_zeros 8⟩
    | true =>
      rw [if_pos rfl, hfield.load_zeros hl, bind_ok]
      exact ⟨_, rfl, field.kind.loadScalar_zeros field.dataSize⟩
  · rw [getText_eq hf hh hm htags hk, ha, bind_ok]
    cases active with
    | false => rfl
    | true => rw [if_pos rfl, hfield.load_zeros hl, bind_ok, Field.text_zeros hk hfield.suits]
  · rw [getBytes_eq hf hh hm htags hk, ha, bind_ok]
    cases active with
    | false => rfl
    | true => rw [if_pos rfl, hfield.load_zeros hl, bind_ok, Decode.payload_zeros hk hfield.suits]
  · have hrep : field.isRepeated = true := by simp [Field.isRepeated, hm]
    rw [View.count, Table.lookUp_of_mem htags hf, bind_ok, if_pos ⟨hrep, by simp [hh]⟩]
    exact hfield.count_zeros hl hm

theorem submessage_zeros {tag : Nat} {next : View Ref}
    (h : submessage schema ⟨schema ref, Bytes.zeros count⟩ tag = .ok next) :
    ∃ inner ∈ (schema ref).nested, next = ⟨schema inner, Bytes.zeros (schema inner).size⟩ := by
  simp only [submessage, bind_eq_ok] at h
  obtain ⟨field, hlook, _, hsingle, inner, hmessage, stored, hload, hnext⟩ := h
  obtain ⟨hf, -⟩ := Table.mem_of_lookUp hlook
  obtain ⟨hh, -⟩ := Update.single_of_expect hsingle
  have hk := Update.message_of_expect hmessage
  have hfield := hlaid.here.laid field hf hh
  rw [hfield.load_zeros hl, Except.ok.injEq, hfield.dataSize_of_message hk] at hload
  subst hload
  simp only [ofBlock, unit_bind_eq_ok, pure_eq_ok] at hnext
  exact ⟨inner, Table.mem_nested hf hh hk, hnext.2.symm⟩

theorem element_zeros {tag index : Nat} {next : View Ref} :
    element schema ⟨schema ref, Bytes.zeros count⟩ tag index ≠ .ok next := by
  intro h
  simp only [element, bind_eq_ok] at h
  obtain ⟨field, hlook, _, harray, _, _, span, hspan, -⟩ := h
  obtain ⟨hf, -⟩ := Table.mem_of_lookUp hlook
  obtain ⟨hh, hm⟩ := Update.array_of_expect harray
  obtain ⟨used, hused, hlt, -⟩ := Field.elementSpan_eq_ok.mp hspan
  rw [(hlaid.here.laid field hf hh).count_zeros hl hm, Except.ok.injEq] at hused
  omega

end

/-- All that can be opened from zeros is empty. -/
theorem empty_of_opens {view last : View Ref} (h : Opens schema view last)
    (hv : view = ⟨schema ref, Bytes.zeros count⟩) (hlaid : schema.Laid levels ref)
    (hu : schema.Throughout Table.Unhandled ref) (hl : (schema ref).size ≤ count) : last.Empty := by
  induction h generalizing ref count levels with
  | refl =>
    subst hv
    exact empty_zeros hlaid hl hu
  | submessage h _ ih =>
    subst hv
    obtain ⟨inner, hn, rfl⟩ := submessage_zeros hlaid hl h
    cases levels with
    | zero => cases hlaid
    | succ levels => exact ih rfl (hlaid.nested hn) (hu.nested hn) (Nat.le_refl _)
  | element h =>
    subst hv
    exact absurd h (element_zeros hlaid hl)

end View

-- ---------------------------------------------------------------------------
-- Inactive members
-- ---------------------------------------------------------------------------

theorem Schema.Contains.isBelow (h : schema.Contains ref block inner content) :
    schema.Below ref inner := by
  induction h with
  | here => exact .refl _
  | inside hf hh hk _ _ _ ih => exact .step (Table.mem_nested hf hh hk) ih

/-- In a block that can be reached, groups hold nothing but the values of their active members. -/
theorem exclusive_of_reached (hvalid : Table.validate schema ref = .ok ())
    (hslots : schema.Throughout Table.SlotsWithin ref) (hu : schema.Throughout Table.Unhandled ref)
    (hd : schema.Throughout Table.Disjoint ref) (h : schema.Reached ref block)
    (hc : schema.Contains ref block inner content) :
    (schema inner).size ≤ content.length ∧ (schema inner).Exclusive content := by
  have hlaid : schema.Laid (maxInitialDepth + 1) ref := Schema.laid_of_validateWithin hvalid hslots
  have hg : Decode.Guarded schema (maxInitialDepth + 1) ref :=
    ⟨hlaid, Nat.le_refl _, hd.mono fun table h => (fun field hf _ => h field hf trivial :
      table.Separate schema.Carries)⟩
  obtain ⟨start, initial, hr, hs, hm⟩ := h.moves hg hu
  have hx := Schema.exclusive_moves hm hlaid.here hd.here hs
    (hlaid.here.exclusive_initialiseWithin hd.here hr)
  obtain ⟨hsize, hholds⟩ := h.holds Discipline.lawful_exclusive hg hu hd
  exact (Schema.exclusive_of_contains hc hlaid hsize hx hholds).2

/-- A member apart from the active one has nothing in its storage. -/
theorem Field.Confined.eq_zeros (h : member.Confined table block)
    (hs : block.slice? member.data = some stored)
    (hapart : ∀ active ∈ table.fields, member.SameGroup active →
      active.slot block = .ok active.tag → active.data.Apart member.data) :
    stored = Bytes.zeros stored.length := by
  refine Bytes.ext_byte (Bytes.length_zeros _).symm fun place => ?_
  rw [Bytes.byte_zeros]
  by_cases hp : place < stored.length
  · rw [Bytes.byte_slice hs hp]
    by_contra hne
    have hin : member.data.start + place ∈ member.data := by
      have := Bytes.start_add_length_slice hs
      rw [Span.mem_iff]
      omega
    obtain ⟨active, ha, hsame, hslot, hown⟩ := h _ hin hne
    exact Span.apart_iff.mp (hapart active ha hsame hslot) _ hown hin
  · exact Bytes.byte_eq_zero_of_length_le (by omega)

namespace View

/-- An inactive member of a group reads as zero or as nothing. An inactive message shows what its
storage holds, which is nothing unless the active member has its value there too. -/
theorem idle_reads (hvalid : Table.validate schema ref = .ok ())
    (hu : schema.Throughout Table.Unhandled ref) (hc : schema.Contains ref block inner content)
    (hf : field ∈ (schema inner).fields) (ha : field.isActive content = .ok false) :
    (field.kind.isScalar = true →
      ∃ value, get ⟨schema inner, content⟩ field.tag = .ok value ∧ value.IsZero) ∧
    (field.kind = .text → getText ⟨schema inner, content⟩ field.tag = .ok "") ∧
    (field.kind = .bytes → getBytes ⟨schema inner, content⟩ field.tag = .ok []) ∧
    ∀ message, field.kind = .message message → schema.Throughout Table.SlotsWithin ref →
      schema.Throughout Table.Disjoint ref → schema.Reached ref block →
      ∃ stored, content.slice? field.data = some stored ∧
        submessage schema ⟨schema inner, content⟩ field.tag = .ok ⟨schema message, stored⟩ ∧
        ((∀ other ∈ (schema inner).fields, field.SameGroup other →
            other.isActive content = .ok true → other.data.Apart field.data) →
          ∀ next, Opens schema ⟨schema message, stored⟩ next → next.Empty) := by
  have hh := hu inner hc.isBelow field hf
  have htags := (Schema.fits_of_validate hvalid inner hc.isBelow).tags_ne
  have hg : field.group?.isSome := by
    cases hm : field.multiplicity <;> simp_all [Field.isActive, Field.group?]
  obtain ⟨group, hm⟩ := Field.multiplicity_of_group hg
  have hone : field.multiplicity ≠ .repeated := by simp [hm]
  refine ⟨fun hk => ?_, fun hk => ?_, fun hk => ?_, fun message hk hslots hd hreached => ?_⟩
  · rw [get_eq hf hh hone htags hk, ha]
    exact ⟨_, rfl, field.kind.loadScalar_zeros 8⟩
  · rw [getText_eq hf hh hone htags hk, ha]
    rfl
  · rw [getBytes_eq hf hh hone htags hk, ha]
    rfl
  · have hlaid : schema.Laid (maxInitialDepth + 1) ref :=
      Schema.laid_of_validateWithin hvalid hslots
    have hinner := hlaid.of_below hc.isBelow
    obtain ⟨hs, hx⟩ := exclusive_of_reached hvalid hslots hu hd hreached hc
    have hfield := hinner.here.laid field hf hh
    obtain ⟨stored, hstored⟩ := Bytes.slice_isSome (hfield.storage_within hs)
    rw [Field.storage_eq_data hone] at hstored
    have hlen : stored.length = (schema message).size := by
      rw [Bytes.length_slice hstored, hfield.length_data, hfield.dataSize_of_message hk]
    refine ⟨stored, hstored, ?_, fun hapart next hnext => ?_⟩
    · rw [submessage_eq hf hh hone htags hk, Field.load, hstored]
      simp only [bind_ok, ofBlock, Table.checkBlock_ok (Nat.le_of_eq hlen.symm)]
      rfl
    · have hzeros := (hx field hf hg).eq_zeros hstored fun other ho hsame hslot =>
        hapart other ho hsame (by simp [Field.isActive_of_slot hsame.symm.1 hslot])
      rw [hlen] at hzeros
      exact empty_of_opens hnext (by rw [hzeros]) (hinner.nested (Table.mem_nested hf hh hk))
        ((hu.of_below hc.isBelow).nested (Table.mem_nested hf hh hk)) (Nat.le_refl _)

/-- The stamp of a letter that has neither a seal nor a stamp. -/
theorem idle_reads_stamp :
    Table.validate letter false = .ok () ∧ letter.Throughout Table.Unhandled false ∧
    letter.Throughout Table.SlotsWithin false ∧ letter.Throughout Table.Disjoint false ∧
    letter.Reached false (Bytes.zeros 26) ∧
    ∃ field ∈ (letter false).fields, field.tag = 4 ∧ field.kind = .message true ∧
      field.isActive (Bytes.zeros 26) = .ok false ∧
      ∃ stored, submessage letter ⟨letter false, Bytes.zeros 26⟩ 4 = .ok ⟨letter true, stored⟩ ∧
        Empty ⟨letter true, stored⟩ := by
  have hvalid : Table.validate letter false = .ok () := rfl
  have hinit : (letter.initialise false).result (Bytes.zeros 26) = (.ok (), Bytes.zeros 26) := rfl
  have hreached : letter.Reached false (Bytes.zeros 26) := .initialised hinit
  have hf : (Field.ofStorage 4 "stamp" (.message true) 20 2).oneof 1 16 ∈ (letter false).fields := by
    decide
  obtain ⟨-, -, -, hmessage⟩ :=
    idle_reads hvalid (letter_unhandled false) (.here false (Bytes.zeros 26)) hf rfl
  obtain ⟨stored, -, hview, hempty⟩ :=
    hmessage true rfl (letter_slotsWithin false) (letter_disjoint false) hreached
  refine ⟨hvalid, letter_unhandled false, letter_slotsWithin false, letter_disjoint false, hreached, _,
    hf, rfl, rfl, rfl, stored, hview, hempty ?_ _ (.refl _)⟩
  decide

/-- The stamp of a sealed letter is inactive and shows the length of the seal. -/
theorem stamp_shows_seal :
    Table.validate letter false = .ok () ∧ letter.Throughout Table.Unhandled false ∧
    letter.Throughout Table.Disjoint false ∧
    ∃ block, letter.Reached false block ∧
      ∃ field ∈ (letter false).fields, field.tag = 4 ∧ field.isActive block = .ok false ∧
        ∃ view, submessage letter ⟨letter false, block⟩ 4 = .ok view ∧
          ∃ value, view.get 1 = .ok value ∧ value = .signed 1 ∧ ¬value.IsZero := by
  have hinit : (letter.initialise false).result (Bytes.zeros 26) = (.ok (), Bytes.zeros 26) := rfl
  have hf : (Field.ofStorage 4 "stamp" (.message true) 20 2).oneof 1 16 ∈ (letter false).fields := by
    decide
  exact ⟨rfl, letter_unhandled false, letter_disjoint false, _,
    .performed (.setBytes 3 [7]) (.initialised hinit), _, hf, rfl, by cbv, _, by cbv, _, by cbv, rfl,
    by simp [Scalar.IsZero]⟩

end View

end BlockCodec
