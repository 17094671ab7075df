import BlockCodec.Proofs.Ends
import BlockCodec.Proofs.Layout

/-!
# The checks are sound

`Schema.laid_of_validate`: the tables that pass the checks, their fields being made by the builders,
are laid as `Schema.Laid` says, down to the depth that the checks follow. All that the builders add is
that no required field has a slot; it is enough that such a slot lies in the block
(`Schema.laid_of_validateWithin`). What the checks say by themselves is `Schema.fits_of_validate`. Each
lemma reads the success of one check.
-/

namespace BlockCodec

variable {Ref : Type} {schema : Schema Ref}

namespace Field

variable {field : Field Ref} {size : Nat}

@[simp] theorem invalid_ne_ok {α : Type} {reason : String} {value : α} :
    (field.invalid reason : Except CodecError α) = .ok value ↔ False :=
  ⟨nofun, False.elim⟩

@[simp] theorem unless_eq_ok {c : Prop} [Decidable c] {reason : String}
    {next : Unit → Except CodecError Unit} :
    (if c then field.invalid reason >>= next else next ()) = .ok () ↔ ¬c ∧ next () = .ok () := by
  by_cases h : c <;> simp [h, bind, Except.bind, invalid]

@[simp] theorem refuse_eq_ok {c : Prop} [Decidable c] {reason : String} :
    (if c then field.invalid reason else .ok () : Except CodecError Unit) = .ok () ↔ ¬c := by
  by_cases h : c <;> simp [h]

theorem checkRange_ok {offset length : Nat} :
    field.checkRange offset length size = .ok () ↔
      offset + length ≤ maxSize ∧ offset + length ≤ size := by
  unfold checkRange
  split <;> simp_all

theorem suits_of_check (hk : field.checkKind schema = .ok ())
    (hw : field.checkScalarWidth = .ok ()) : field.Suits schema := by
  cases hkind : field.kind with
  | text =>
    simp only [checkKind, hkind, refuse_eq_ok] at hk
    simp only [Suits, hkind]
    omega
  | bytes =>
    simp only [checkKind, hkind, refuse_eq_ok] at hk
    simp only [Suits, hkind]
    omega
  | message ref =>
    simp only [checkKind, hkind, refuse_eq_ok] at hk
    simp only [Suits, hkind]
    omega
  | fixed type =>
    obtain ⟨width, signed⟩ := type
    cases width <;> simp_all [checkKind, checkScalarWidth, Suits, Kind.scalarWidth?]
  | float width =>
    cases width <;> simp_all [checkKind, checkScalarWidth, Suits, Kind.scalarWidth?]
  | _ => simp_all [checkScalarWidth, Suits, Kind.scalarWidth?]

theorem slotLaid_of_check (h : field.checkHandled size = .ok ()) : field.SlotLaid size := by
  simp only [checkHandled, unless_eq_ok, checkRange_ok] at h
  obtain ⟨hsize, hgroup, hword, hle⟩ := h
  exact ⟨by omega, by simpa using hgroup, hle, hword⟩

/-- The storage of a field lies inside the block. -/
theorem storage_of_check (h : field.checkStorage size = .ok ()) :
    0 < field.places ∧ field.dataOffset + field.dataSize * field.places ≤ maxSize ∧
      field.dataOffset + field.dataSize * field.places ≤ size := by
  cases hm : field.multiplicity with
  | required =>
    simp only [checkStorage, hm, checkRange_ok] at h
    simp_all [places, isRepeated]
  | optional =>
    cases ho : field.sizeOffset <;>
      simp only [checkStorage, hm, ho, unit_bind_eq_ok, checkRange_ok] at h <;>
      simp_all [places, isRepeated]
  | «repeated» =>
    cases ho : field.sizeOffset with
    | none => simp [checkStorage, hm, ho] at h
    | some offset =>
      simp only [checkStorage, hm, ho, unless_eq_ok, unit_bind_eq_ok, checkRange_ok] at h
      obtain ⟨hcapacity, -, hdata, -⟩ := h
      simp_all [places, isRepeated]
      omega
  | oneof group =>
    cases ho : field.sizeOffset with
    | none => simp [checkStorage, hm, ho] at h
    | some offset =>
      simp only [checkStorage, hm, ho, unit_bind_eq_ok, checkRange_ok] at h
      simp_all [places, isRepeated]

/-- So does its slot, and an array or a member of a group has one. -/
theorem slot_of_check (h : field.checkStorage size = .ok ()) (hr : field.multiplicity ≠ .required) :
    (∀ offset, field.sizeOffset = some offset →
      offset + field.slotSize ≤ maxSize ∧ offset + field.slotSize ≤ size) ∧
      (field.isRepeated ∨ field.group?.isSome → field.sizeOffset.isSome) := by
  cases hm : field.multiplicity with
  | required => exact absurd hm hr
  | optional =>
    cases ho : field.sizeOffset <;>
      simp only [checkStorage, hm, ho, unit_bind_eq_ok, checkRange_ok] at h <;>
      simp_all [slotSize, isRepeated, group?]
  | «repeated» =>
    cases ho : field.sizeOffset with
    | none => simp [checkStorage, hm, ho] at h
    | some offset =>
      simp only [checkStorage, hm, ho, unless_eq_ok, unit_bind_eq_ok, checkRange_ok] at h
      simp_all [slotSize, isRepeated]
  | oneof group =>
    cases ho : field.sizeOffset with
    | none => simp [checkStorage, hm, ho] at h
    | some offset =>
      simp only [checkStorage, hm, ho, unit_bind_eq_ok, checkRange_ok] at h
      simp_all [slotSize, isRepeated, group?]

theorem fits_of_check (h : field.checkLayout schema size = .ok ()) (hh : field.isHandled = false) :
    field.Fits schema size := by
  simp only [checkLayout, hh, Bool.false_eq_true, if_false, unit_bind_eq_ok,
    unless_eq_ok] at h
  obtain ⟨hkind, hwidth, hstorage, hpacked, hdefault⟩ := h
  obtain ⟨hplaces, hword, hle⟩ := storage_of_check hstorage
  exact {
    inBlock := hh
    suits := suits_of_check hkind hwidth
    places_pos := hplaces
    storage_le := hle
    storage_word := hword
    packed := fun hp => by simpa [hp] using hpacked
    default_fits := fun value hv => by simpa [hv, pure, Except.pure] using hdefault }

theorem laid_of_check (h : field.checkLayout schema size = .ok ()) (hh : field.isHandled = false)
    (hr : field.multiplicity = .required → ∀ offset, field.sizeOffset = some offset →
      offset + field.slotSize ≤ size ∧ offset + field.slotSize ≤ maxSize) :
    field.Laid schema size := by
  have hfits := fits_of_check h hh
  simp only [checkLayout, hh, Bool.false_eq_true, if_false, unit_bind_eq_ok] at h
  by_cases hm : field.multiplicity = .required
  · exact ⟨hfits, fun offset ho => (hr hm offset ho).1, fun offset ho => (hr hm offset ho).2,
      by simp [isRepeated, group?, hm]⟩
  · obtain ⟨hslot, hsome⟩ := slot_of_check h.2.2.1 hm
    exact ⟨hfits, fun offset ho => (hslot offset ho).2, fun offset ho => (hslot offset ho).1, hsome⟩

end Field

namespace Table

variable {table : Table Ref}

theorem layout_of_checkField {before : List (Field Ref)} {field : Field Ref}
    (h : table.checkField schema before field = .ok ()) :
    (0 < field.tag ∧ field.tag ≤ Wire.maxFieldNumber) ∧ (∀ other ∈ before, other.tag ≠ field.tag) ∧
      field.checkLayout schema table.size = .ok () ∧
      ∀ other ∈ table.fields, field.SameGroup other → other.sizeOffset = field.sizeOffset := by
  simp only [checkField, Field.unless_eq_ok, unit_bind_eq_ok] at h
  obtain ⟨htag, hbefore, hlayout, hgroup⟩ := h
  refine ⟨by omega, by simpa using hbefore, hlayout, ?_⟩
  rintro other ho ⟨hsome, hsame⟩
  cases hg : field.group? with
  | none => simp [hg] at hsome
  | some group =>
    have hm : other ∈ table.members group := by simp [members, ho, hsame, hg]
    simp only [hg] at hgroup
    split at hgroup
    · simp at hgroup
    · next hany => simpa using fun hne => hany (List.any_eq_true.mpr ⟨other, hm, hne⟩)

theorem checkFields_ok {before rest : List (Field Ref)}
    (h : table.checkFields schema before rest = .ok ()) :
    (∀ field ∈ rest, ∃ before, table.checkField schema before field = .ok ()) ∧
      rest.Pairwise (·.tag ≠ ·.tag) ∧
      ∀ other ∈ before, ∀ field ∈ rest, other.tag ≠ field.tag := by
  induction rest generalizing before with
  | nil => simp
  | cons first rest ih =>
    simp only [checkFields, unit_bind_eq_ok] at h
    obtain ⟨hfirst, hrest⟩ := h
    obtain ⟨hfields, hpairs, hbefore⟩ := ih hrest
    refine ⟨?_, List.pairwise_cons.mpr ⟨fun field hf => hbefore first (by simp) field hf, hpairs⟩, ?_⟩
    · rintro field hf
      rcases List.mem_cons.mp hf with rfl | hf
      · exact ⟨before, hfirst⟩
      · exact hfields field hf
    · rintro other ho field hf
      rcases List.mem_cons.mp hf with rfl | hf
      · exact (layout_of_checkField hfirst).2.1 other ho
      · exact hbefore other (by simp [ho]) field hf

theorem fits_of_checkFields (h : table.checkFields schema [] table.fields = .ok ()) :
    table.Fits schema := by
  obtain ⟨hfields, hpairs, -⟩ := checkFields_ok h
  have hcheck := fun field hf => layout_of_checkField (hfields field hf).choose_spec
  exact {
    tag_pos := fun field hf => (hcheck field hf).1.1
    tag_le := fun field hf => (hcheck field hf).1.2
    tags_ne := hpairs
    stored := fun field hf hh => Field.fits_of_check (hcheck field hf).2.2.1 hh
    handled := fun field hf hh => by
      have hlayout := (hcheck field hf).2.2.1
      rw [Field.checkLayout, if_pos hh] at hlayout
      exact Field.slotLaid_of_check hlayout }

/-- The checks look at the slots of all fields but the required ones. -/
theorem slotted_of_checkFields (h : table.checkFields schema [] table.fields = .ok ()) :
    table.Slotted schema := by
  intro field hf hh hr
  obtain ⟨_, hfield⟩ := (checkFields_ok h).1 field hf
  exact Field.laid_of_check (layout_of_checkField hfield).2.2.1 hh fun hm => absurd hm hr

theorem grouped_of_checkFields (h : table.checkFields schema [] table.fields = .ok ()) :
    table.Grouped := by
  intro field hf other ho
  obtain ⟨_, hfield⟩ := (checkFields_ok h).1 field hf
  exact (layout_of_checkField hfield).2.2.2 other ho

/-- With no slots but those that are used, all slots have been looked at. -/
theorem slotsWithin_of_checkFields (h : table.checkFields schema [] table.fields = .ok ())
    (hi : table.NoIdleSlots) : table.SlotsWithin := by
  intro field hf hh offset ho
  have hm : field.multiplicity ≠ .required := fun hm => by simp [hi field hf hm] at ho
  have hlaid := slotted_of_checkFields h field hf hh hm
  exact ⟨hlaid.slot_le offset ho, hlaid.slot_word offset ho⟩

theorem laid_of_checkFields (h : table.checkFields schema [] table.fields = .ok ())
    (hw : table.SlotsWithin) (hr : table.requiredCount ≤ maxRequiredFields) : table.Laid schema where
  toFits := fits_of_checkFields h
  laid field hf hh := by
    obtain ⟨_, hfield⟩ := (checkFields_ok h).1 field hf
    exact Field.laid_of_check (layout_of_checkField hfield).2.2.1 hh fun _ => hw field hf hh
  groups := grouped_of_checkFields h
  required_le := hr

end Table

namespace Schema

theorem validateWithin_eq_ok {levels : Nat} {ref : Ref}
    (h : Table.validateWithin schema (levels + 1) ref = .ok ()) :
    (schema ref).checkFields schema [] (schema ref).fields = .ok () ∧
      (schema ref).requiredCount ≤ maxRequiredFields ∧
      ∀ inner ∈ (schema ref).nested, Table.validateWithin schema levels inner = .ok () := by
  simp only [Table.validateWithin, unit_bind_eq_ok] at h
  obtain ⟨hfields, h⟩ := h
  split at h
  · cases h
  · exact ⟨hfields, by omega, forM_eq_ok.mp h⟩

/-- What every table is checked for holds throughout. -/
theorem throughout_of_validateWithin {P : Table Ref → Prop}
    (hp : ∀ table : Table Ref, table.checkFields schema [] table.fields = .ok () →
      table.requiredCount ≤ maxRequiredFields → P table)
    {levels : Nat} {ref : Ref} (h : Table.validateWithin schema levels ref = .ok ()) :
    schema.Throughout P ref := by
  intro inner hbelow
  induction hbelow generalizing levels with
  | refl ref =>
    cases levels with
    | zero => cases h
    | succ levels => exact hp _ (validateWithin_eq_ok h).1 (validateWithin_eq_ok h).2.1
  | step hn _ ih =>
    cases levels with
    | zero => cases h
    | succ levels => exact ih ((validateWithin_eq_ok h).2.2 _ hn)

/-- Tables that pass the checks fit, however they were made. -/
theorem fits_of_validate {ref : Ref} (h : Table.validate schema ref = .ok ()) :
    schema.Throughout (Table.Fits schema) ref :=
  throughout_of_validateWithin (fun _ hfields _ => Table.fits_of_checkFields hfields) h

/-- However they were made, fields of such tables are laid if they are not required. -/
theorem slotted_of_validate {ref : Ref} (h : Table.validate schema ref = .ok ()) :
    schema.Throughout (Table.Slotted schema) ref :=
  throughout_of_validateWithin (fun _ hfields _ => Table.slotted_of_checkFields hfields) h

theorem grouped_of_validate {ref : Ref} (h : Table.validate schema ref = .ok ()) :
    schema.Throughout Table.Grouped ref :=
  throughout_of_validateWithin (fun _ hfields _ => Table.grouped_of_checkFields hfields) h

theorem required_of_validate {ref : Ref} (h : Table.validate schema ref = .ok ()) :
    schema.Throughout (fun table => table.requiredCount ≤ maxRequiredFields) ref :=
  throughout_of_validateWithin (fun _ _ hrequired => hrequired) h

theorem slotsWithin_of_validate {ref : Ref} (h : Table.validate schema ref = .ok ())
    (hi : schema.Throughout Table.NoIdleSlots ref) : schema.Throughout Table.SlotsWithin ref :=
  fun inner hb => throughout_of_validateWithin (P := fun table => table.NoIdleSlots → table.SlotsWithin)
    (fun _ hfields _ => Table.slotsWithin_of_checkFields hfields) h inner hb (hi inner hb)

/-- Tables that pass the checks and have all slots in the block are laid out for as many levels as
the checks follow. -/
theorem laid_of_validateWithin {levels : Nat} {ref : Ref}
    (h : Table.validateWithin schema levels ref = .ok ())
    (hw : schema.Throughout Table.SlotsWithin ref) : schema.Laid levels ref := by
  induction levels generalizing ref with
  | zero => cases h
  | succ levels ih =>
    obtain ⟨hfields, hr, hn⟩ := validateWithin_eq_ok h
    exact .intro (Table.laid_of_checkFields hfields hw.here hr) fun inner hi =>
      ih (hn inner hi) (hw.nested hi)

/-- So are those whose fields were made by the builders. -/
theorem laid_of_validate {ref : Ref} (h : Table.validate schema ref = .ok ())
    (hb : schema.Throughout Table.Built ref) : schema.Laid (maxValidationDepth + 1) ref :=
  laid_of_validateWithin h (slotsWithin_of_validate h (hb.mono fun _ => Table.Built.noIdleSlots))

end Schema

end BlockCodec
