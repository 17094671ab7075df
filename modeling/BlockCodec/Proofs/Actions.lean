import BlockCodec.Message.Update
import BlockCodec.Proofs.Lookup
import BlockCodec.Proofs.Writing

/-!
# What views do to a block

An `Action` is one use of a view that may write, with all that is done through the views of the
messages inside. `performAll_obeys`: whether they succeed or not, actions change a block by moves of views
only, and by moves of the strict mode if all they do is to write values.
-/

namespace BlockCodec

variable {Ref α β : Type}

inductive Action
  | set (tag : Nat) (value : Scalar)
  | setText (tag : Nat) (text : String)
  | setBytes (tag : Nat) (bytes : Bytes)
  | setPresent (tag : Nat) (present : Bool)
  | push (tag : Nat) (value : Scalar)
  | pushText (tag : Nat) (text : String)
  | pushBytes (tag : Nat) (bytes : Bytes)
  | pushMessage (tag : Nat) (inner : List Action)
  | submessage (tag : Nat) (inner : List Action)
  | element (tag index : Nat) (inner : List Action)
  | bind (tag slot : Nat)
  | clear (tag : Nat)
  | init

/-- The edit, whose failure is passed over: what it did stays done. -/
def Edit.attempt (edit : Edit α) : Edit Unit := .ofRun fun block => (.ok (), (edit.result block).2)

mutual

def Action.perform (schema : Schema Ref) : Action → Table Ref → Edit Unit
  | .set tag value, table => Update.set schema table tag value
  | .setText tag text, table => Update.setText schema table tag text
  | .setBytes tag bytes, table => Update.setBytes schema table tag bytes
  | .setPresent tag present, table => Update.setPresent schema table tag present
  | .push tag value, table => Update.push table tag value
  | .pushText tag text, table => Update.pushText table tag text
  | .pushBytes tag bytes, table => Update.pushBytes table tag bytes
  | .pushMessage tag inner, table => Update.pushMessage schema table tag (performAll schema inner)
  | .submessage tag inner, table => Update.submessage schema table tag (performAll schema inner)
  | .element tag index inner, table =>
    Update.element schema table tag index (performAll schema inner)
  | .bind tag slot, table => Update.bind table tag slot
  | .clear tag, table => Update.clear schema table tag
  | .init, table => Update.init schema table

/-- One action after the other, whatever becomes of each. -/
def performAll (schema : Schema Ref) : List Action → Table Ref → Edit Unit
  | [], _ => pure ()
  | action :: rest, table => do
    (action.perform schema table).attempt
    performAll schema rest table

end

/-- The action stores values, and no text with a zero byte in it. -/
inductive Action.Writes : Action → Prop
  | set (tag : Nat) (value : Scalar) : Writes (.set tag value)
  | setText (tag : Nat) {text : String} (h : 0 ∉ Bytes.ofText text) : Writes (.setText tag text)
  | setBytes (tag : Nat) (bytes : Bytes) : Writes (.setBytes tag bytes)
  | push (tag : Nat) (value : Scalar) : Writes (.push tag value)
  | pushText (tag : Nat) {text : String} (h : 0 ∉ Bytes.ofText text) : Writes (.pushText tag text)
  | pushBytes (tag : Nat) (bytes : Bytes) : Writes (.pushBytes tag bytes)
  | pushMessage (tag : Nat) {inner : List Action} (h : ∀ action ∈ inner, Writes action) :
    Writes (.pushMessage tag inner)
  | submessage (tag : Nat) {inner : List Action} (h : ∀ action ∈ inner, Writes action) :
    Writes (.submessage tag inner)
  | element (tag index : Nat) {inner : List Action} (h : ∀ action ∈ inner, Writes action) :
    Writes (.element tag index inner)

-- ---------------------------------------------------------------------------
-- Elements in use
-- ---------------------------------------------------------------------------

variable {schema : Schema Ref} {mode : Field.Mode} {ref : Ref} {field : Field Ref}
  {block after : Bytes} {size levels : Nat}

namespace Field

theorem count_eq_ok {count : Nat} :
    field.count block = .ok count ↔ field.slot block = .ok count ∧ count ≤ field.capacity := by
  simp only [Field.count, bind_eq_ok]
  constructor
  · rintro ⟨value, hvalue, hcount⟩
    split at hcount
    · cases hcount
    · cases hcount
      exact ⟨hvalue, by omega⟩
  · rintro ⟨hslot, hle⟩
    exact ⟨count, hslot, by rw [if_neg (by omega)]; rfl⟩

theorem count_error {value : Nat} {failure : CodecError} (hs : field.slot block = .ok value)
    (h : field.count block = .error failure) : failure = .arrayFull field.name field.capacity := by
  simp only [Field.count, hs, bind_ok] at h
  split at h <;> cases h
  rfl

theorem elementSpan_eq_ok {index : Nat} {span : Span} :
    field.elementSpan index block = .ok span ↔
      ∃ count, field.count block = .ok count ∧ index < count ∧ span = field.element index := by
  simp only [elementSpan, bind_eq_ok]
  constructor
  · rintro ⟨count, hcount, hspan⟩
    split at hspan
    · cases hspan
    · cases hspan
      exact ⟨count, hcount, by omega, rfl⟩
  · rintro ⟨count, hcount, hlt, rfl⟩
    exact ⟨count, hcount, by rw [if_neg (by omega)]; rfl⟩

end Field

-- ---------------------------------------------------------------------------
-- Edits that move
-- ---------------------------------------------------------------------------

/-- The edit changes the block by moves of a view of the message; `Q` is what its success says besides. -/
def Edit.Obeys (schema : Schema Ref) (mode : Field.Mode) (ref : Ref) (edit : Edit α)
    (block : Bytes) (Q : α → Bytes → Prop) : Prop :=
  edit.Ends block (fun value after => schema.ViewMoves mode ref block after ∧ Q value after)
    fun _ after => schema.ViewMoves mode ref block after

namespace Edit

variable {Q : α → Bytes → Prop}

theorem Obeys.moves {edit : Edit α} (h : edit.Obeys schema mode ref block Q) :
    schema.ViewMoves mode ref block (edit.result block).2 :=
  Step.Ends.left (h.mono (fun _ _ h => h.1) fun _ _ h => h)

theorem Obeys.bind {edit : Edit α} {next : α → Edit β} {P : α → Bytes → Prop}
    {Q : β → Bytes → Prop} (h : edit.Obeys schema mode ref block P)
    (hn : ∀ value after, after.length = block.length → P value after →
      (next value).Obeys schema mode ref after Q) :
    (edit >>= next).Obeys schema mode ref block Q :=
  Step.Ends.bind h fun value after hp => (hn value after hp.1.length_eq hp.2).mono
    (fun _ _ h => ⟨hp.1.trans h.1, h.2⟩) fun _ _ h => hp.1.trans h

theorem obeys_pure {value : α} (h : Q value block) :
    Obeys schema mode ref (pure value : Edit α) block Q :=
  ⟨.refl _, h⟩

theorem obeys_ofExcept {outcome : Except CodecError α}
    (h : ∀ value, outcome = .ok value → Q value block) :
    Obeys schema mode ref (Step.ofExcept outcome) block Q :=
  Step.ends_ofExcept (fun value hv => ⟨.refl _, h value hv⟩) fun _ _ => .refl _

theorem obeys_ask {look : Bytes → Except CodecError α}
    (h : ∀ value, look block = .ok value → Q value block) :
    (ask look).Obeys schema mode ref block Q :=
  Step.ends_ofExcept (fun value hv => ⟨.refl _, h value hv⟩) fun _ _ => .refl _

theorem obeys_of_ok {edit : Edit α} {value : α} (hr : edit.result block = (.ok value, after))
    (hm : schema.ViewMoves mode ref block after) (h : Q value after) :
    edit.Obeys schema mode ref block Q :=
  .of_ok hr ⟨hm, h⟩

end Edit

/-- Edits that touch nothing but the own places of a handled field. -/
theorem Edit.obeys_aside {edit : Edit α} (hf : field ∈ (schema ref).fields) (hh : field.isHandled = true)
    (h : edit.Touches fun place => place ∈ field.data ∨ field.slotPlaces place) :
    edit.Obeys schema mode ref block fun _ _ => True := by
  have hmoves : schema.ViewMoves mode ref block (edit.result block).2 := .aside hf hh (h block)
  unfold Obeys Step.Ends
  split <;> simp_all

/-- Tables whose blocks may be worked on. -/
structure Schema.Plain (schema : Schema Ref) (mode : Field.Mode) (levels : Nat) (ref : Ref) :
    Prop where
  laid : schema.Laid levels ref
  levels_le : levels ≤ maxInitialDepth + 1
  short : mode = .strict → (schema ref).size < 2 ^ 32

theorem Schema.Plain.below (h : schema.Plain mode (levels + 1) ref)
    (hf : field ∈ (schema ref).fields) (hh : field.isHandled = false) {inner : Ref}
    (hk : field.kind = .message inner) : schema.Plain mode levels inner := by
  have hn := Table.mem_nested hf hh hk
  have hfits := h.laid.here.stored field hf hh
  refine ⟨h.laid.nested hn, Nat.le_of_succ_le h.levels_le, fun hm => ?_⟩
  have hshort := h.short hm
  have hle := hfits.storage_le
  have hone := Field.element_le hfits.places_pos
  rw [hfits.dataSize_of_message hk] at hle hone
  omega

/-- A reset of a field succeeds. -/
theorem Schema.Plain.reset_ok (h : schema.Plain mode (levels + 1) ref)
    (hs : (schema ref).size ≤ block.length) (hf : field ∈ (schema ref).fields)
    (hh : field.isHandled = false) :
    ∃ after, (field.reset schema.initialiseNested).result block = (.ok (), after) := by
  have hlaid := h.laid.here.laid field hf hh
  refine hlaid.reset_ok hs fun inner hk => ?_
  rw [hlaid.dataSize_of_message hk]
  exact Schema.initialiseWithin_ok
    ((h.below hf hh hk).laid.mono (Nat.le_of_succ_le_succ h.levels_le))
    (Nat.le_of_eq (Bytes.length_zeros _).symm)

namespace Update

open Edit

-- ---------------------------------------------------------------------------
-- What an update checks
-- ---------------------------------------------------------------------------

theorem single_of_expect (h : field.expectSingle = .ok ()) :
    field.isHandled = false ∧ field.multiplicity ≠ .repeated := by
  unfold Field.expectSingle at h
  split at h
  · cases h
  · next hh =>
    split at h
    · cases h
    · next hm => exact ⟨by simpa using hh, by simpa [Field.isRepeated] using hm⟩

theorem array_of_expect (h : field.expectArray = .ok ()) :
    field.isHandled = false ∧ field.multiplicity = .repeated := by
  unfold Field.expectArray at h
  split at h
  · cases h
  · next hh =>
    split at h
    · next hm => exact ⟨by simpa using hh, by simpa [Field.isRepeated] using hm⟩
    · cases h

theorem isScalar_of_expect (h : field.expectScalar = .ok ()) : field.kind.isScalar = true := by
  unfold Field.expectScalar at h
  split at h
  · assumption
  · cases h

theorem kind_of_expectText (h : field.expectText = .ok ()) : field.kind = .text := by
  unfold Field.expectText at h
  split at h
  · assumption
  · cases h

theorem kind_of_expectBytes (h : field.expectBytes = .ok ()) : field.kind = .bytes := by
  unfold Field.expectBytes at h
  split at h
  · assumption
  · cases h

theorem message_of_expect {inner : Ref} (h : field.expectMessage = .ok inner) :
    field.kind = .message inner := by
  unfold Field.expectMessage at h
  split at h
  · next hk =>
    cases h
    exact hk
  · cases h

theorem obeys_lookUp {tag : Nat} {check : Field Ref → Except CodecError α}
    {next : Field Ref × α → Edit β} {Q : β → Bytes → Prop}
    (hn : ∀ field value, field ∈ (schema ref).fields → check field = .ok value →
      (next (field, value)).Obeys schema mode ref block Q) :
    (lookUp (schema ref) tag check >>= next).Obeys schema mode ref block Q := by
  refine Obeys.bind (P := fun found after => after = block ∧
    found.1 ∈ (schema ref).fields ∧ check found.1 = .ok found.2) (obeys_ofExcept ?_) ?_
  · intro found hfound
    simp only [bind_eq_ok, pure_eq_ok] at hfound
    obtain ⟨field, hfield, value, hvalue, rfl⟩ := hfound
    exact ⟨rfl, (Table.mem_of_lookUp hfield).1, hvalue⟩
  · rintro ⟨field, value⟩ _ - ⟨rfl, hf, hv⟩
    exact hn field value hf hv

-- ---------------------------------------------------------------------------
-- Places
-- ---------------------------------------------------------------------------

/-- A field that has been marked present has its value in use. -/
theorem obeys_markPresent (h : schema.Plain mode (levels + 1) ref)
    (hs : (schema ref).size ≤ block.length) (hf : field ∈ (schema ref).fields)
    (hh : field.isHandled = false) (hm : field.multiplicity ≠ .repeated) :
    (markPresent schema (schema ref) field).Obeys schema mode ref block
      fun _ after => field.Place mode after field.data := by
  have hlaid := h.laid.here.laid field hf hh
  unfold markPresent
  cases hmult : field.multiplicity with
  | «repeated» => exact absurd hmult hm
  | required =>
    exact obeys_pure (.single (.inl hmult) fun _ hopt => by simp [hmult] at hopt)
  | optional =>
    refine Step.ends_ite (fun ho => ?_) fun ho => ?_
    · obtain ⟨after, -, hr, -⟩ := hlaid.setSlot_ok hs ho 1
      refine obeys_of_ok hr (.flag hf hh hmult (.inl rfl) hr)
        (.single (.inr hmult) fun _ _ flag hflag => ?_)
      have hone := hlaid.flag_setSlot hs hmult hr
      rw [hflag, Except.ok.injEq] at hone
      omega
    · exact obeys_pure (.single (.inr hmult) fun _ _ flag hflag =>
        absurd (Field.sizeOffset_isSome_of_slot hflag) ho)
  | oneof group =>
    have hg : field.group?.isSome := by simp [Field.group?, hmult]
    obtain ⟨_, stored, -, -, -, hslot⟩ := hlaid.slot_ok hs (hlaid.slot_isSome (.inr hg))
    have hactive := Field.isActive_of_slot hg hslot
    refine Obeys.bind (P := fun active b => block = b ∧ field.isActive block = .ok active)
      (obeys_ask fun _ h => ⟨rfl, h⟩) ?_
    rintro active _ - ⟨rfl, ha⟩
    refine Step.ends_ite (fun _ => ?_) fun hon => obeys_pure (.active hmult ?_)
    · obtain ⟨after, hr⟩ := Schema.activate_ok h.laid (Nat.le_of_succ_le_succ h.levels_le) hs hf hh
      exact obeys_of_ok hr (.activate hf hh hg hr)
        (.active hmult (Schema.slot_activate hlaid hs hg (h.laid.here.tag_le field hf) hr))
    · rw [hactive, Except.ok.injEq] at ha
      rw [← ha] at hon
      rw [hslot]
      simpa using hon

/-- An element that has been claimed is in use; only messages without storage may outnumber what
the count can say. -/
theorem obeys_append (h : schema.Plain mode (levels + 1) ref)
    (hs : (schema ref).size ≤ block.length) (hf : field ∈ (schema ref).fields)
    (hh : field.isHandled = false) (hm : field.multiplicity = .repeated) :
    (append field).Obeys schema mode ref block fun span after =>
      field.Place .loose after span ∧ (0 < field.dataSize → field.Place mode after span) := by
  have hlaid := h.laid.here.laid field hf hh
  have hrep : field.isRepeated = true := by simp [Field.isRepeated, hm]
  have hsome := hlaid.slot_isSome (.inl hrep)
  unfold append
  refine Obeys.bind (P := fun count b => block = b ∧ field.slot block = .ok count)
    (obeys_ask fun count hcount => ⟨rfl, (Field.count_eq_ok.mp hcount).1⟩) ?_
  rintro count _ - ⟨rfl, hcount⟩
  refine Step.ends_unless (fun _ => .refl _) fun hlt => ?_
  obtain ⟨after, -, hr, -⟩ := hlaid.setSlot_ok hs hsome (count + 1)
  have hclaim : schema.ViewMoves mode ref block after :=
    .claim hf hh hm (by omega) (fun _ => hcount) hr
  refine Obeys.bind (P := fun _ b => after = b) (obeys_of_ok hr hclaim rfl) ?_
  rintro _ _ - rfl
  refine obeys_pure ⟨Field.loose_element hm (by omega), fun hpos =>
    .element hm (by omega) fun hstrict => ?_⟩
  have hcap := hlaid.capacity_lt hm hpos (h.short hstrict)
  exact ⟨count + 1, hlaid.word_setSlot hs (by simp [hm]) (by omega) hr, Nat.lt_succ_self count⟩

/-- The edit stores a value in the storage of the field or leaves it as it is. -/
def Fills (mode : Field.Mode) (field : Field Ref) (write : Edit Unit) : Prop :=
  ∀ stored : Bytes, stored.length = field.dataSize →
    (write.result stored).2 = stored ∨
      field.Stores mode stored (write.result stored).2 ∧ field.Legible (write.result stored).2

theorem Fills.length_eq {write : Edit Unit} (h : Fills mode field write) {stored content : Bytes}
    (hl : stored.length = field.dataSize) (hr : write.result stored = (.ok (), content)) :
    content.length = stored.length := by
  rcases h stored hl with heq | ⟨hstores, -⟩
  · rw [← heq, hr]
  · rw [← hstores.1, hr]

theorem obeys_inside (hf : field ∈ (schema ref).fields) (hfits : field.Fits schema size)
    (hs : size ≤ block.length) (hk : ∀ inner, field.kind ≠ .message inner) {span : Span}
    (hp : field.Place mode block span) {write : Edit Unit} (hw : Fills mode field write) :
    (inside field span write).Obeys schema mode ref block fun _ _ => True := by
  obtain ⟨stored, hstored, hl⟩ := hfits.place_slice hs hp
  have hmoves : schema.ViewMoves mode ref block
      (Bytes.overwrite block span.start (write.result stored).2) := by
    rcases hw stored hl with heq | ⟨hstores, hlegible⟩
    · rw [heq, Bytes.overwrite_slice hstored]
      exact .refl _
    · exact .store hf hfits.inBlock hk hp hstored hstores hlegible
  unfold Obeys Step.Ends
  rw [result_inside hstored]
  split <;> simp_all

/-- Working on the message in a place. -/
theorem obeys_inside_message (hf : field ∈ (schema ref).fields) (hfits : field.Fits schema size)
    (hs : size ≤ block.length) {inner : Ref} (hk : field.kind = .message inner) {span : Span}
    (hl : field.Place .loose block span) (hp : 0 < field.dataSize → field.Place mode block span)
    {update : Edit α}
    (hu : ∀ stored : Bytes, (schema inner).size ≤ stored.length →
      update.Obeys schema mode inner stored fun _ _ => True) :
    (inside field span update).Obeys schema mode ref block fun _ _ => True := by
  obtain ⟨stored, hstored, hlen⟩ := hfits.place_slice hs hl
  have hinner := (hu stored (Nat.le_of_eq
    (hlen.trans (hfits.dataSize_of_message hk)).symm)).moves
  have hmoves : schema.ViewMoves mode ref block
      (Bytes.overwrite block span.start (update.result stored).2) := by
    rcases Nat.eq_zero_or_pos field.dataSize with hzero | hpos
    · -- there is nothing to change in a message without storage
      have hnil := hinner.length_eq
      rw [hlen, hzero] at hnil
      rw [List.eq_nil_of_length_eq_zero hnil, Bytes.overwrite_nil]
      exact .refl _
    · exact .inner hf hfits.inBlock hk (hp hpos) hstored hinner
  unfold Obeys Step.Ends
  rw [result_inside hstored]
  split <;> simp_all

-- ---------------------------------------------------------------------------
-- Values
-- ---------------------------------------------------------------------------

/-- Fields that pass the check hold values, and the edit stores one. -/
def Suited (schema : Schema Ref) (mode : Field.Mode) (expect : Field Ref → Except CodecError Unit)
    (write : Field Ref → Edit Unit) : Prop :=
  ∀ field, field.Suits schema → expect field = .ok () →
    (∀ inner, field.kind ≠ .message inner) ∧ Fills mode field (write field)

theorem suited_scalar (value : Scalar) :
    Suited schema mode Field.expectScalar (storeScalar · value) := by
  intro field hsuits hexpect
  have hk := isScalar_of_expect hexpect
  exact ⟨fun inner h => by simp [h, Kind.isScalar] at hk,
    fun stored hl => .inr ⟨Field.stores_scalar mode hk hsuits hl value, fun htext => by
      simp [htext, Kind.isScalar] at hk⟩⟩

/-- A text that does not fit leaves the storage as it is. -/
theorem result_storeText (field : Field Ref) (text : String) (stored : Bytes) :
    (∃ failure, (storeText field text).result stored = (.error failure, stored)) ∨
    ∃ count, stored.length = (Bytes.ofText text).length + (count + 1) ∧
      (storeText field text).result stored = (.ok (), Bytes.ofText text ++ Bytes.zeros (count + 1)) := by
  unfold storeText
  rw [Step.result_bind_ok (Step.result_get stored)]
  simp only
  split
  · exact .inl ⟨_, rfl⟩
  · next hlt =>
    obtain ⟨count, hcount⟩ : ∃ count, stored.length - (Bytes.ofText text).length = count + 1 :=
      ⟨stored.length - (Bytes.ofText text).length - 1, by omega⟩
    exact .inr ⟨count, by omega, by rw [Step.result_set, hcount]⟩

/-- Bytes that do not fit leave the storage as it is. -/
theorem result_storeBytes (field : Field Ref) (bytes stored : Bytes) :
    (∃ failure, (storeBytes field bytes).result stored = (.error failure, stored)) ∨
    ∃ count, stored.length = 4 + bytes.length + count ∧
      (storeBytes field bytes).result stored =
        (.ok (), Bytes.littleEndian 4 bytes.length ++ bytes ++ Bytes.zeros count) := by
  unfold storeBytes
  rw [Step.result_bind_ok (Step.result_get stored)]
  simp only
  split
  · exact .inl ⟨_, rfl⟩
  · split
    · exact .inl ⟨_, rfl⟩
    · exact .inr ⟨_, by omega, rfl⟩

theorem suited_text {text : String} (ht : mode = .strict → 0 ∉ Bytes.ofText text) :
    Suited schema mode Field.expectText (storeText · text) := by
  intro field hsuits hexpect
  have hk := kind_of_expectText hexpect
  refine ⟨by simp [hk], fun stored hl => ?_⟩
  rcases result_storeText field text stored with ⟨_, hr⟩ | ⟨count, hlen, hr⟩ <;> rw [hr]
  · exact .inl rfl
  · refine .inr ⟨⟨?_, ?_⟩, field.legible_append_zeros text count⟩
    · rw [List.length_append, Bytes.length_zeros, hlen]
    · cases mode with
      | strict =>
        simp only [Field.Canonical, hk]
        exact ⟨text, ht rfl, count, rfl⟩
      | loose => exact fun _ => Field.sound_append_zeros hk _ _

theorem suited_bytes (bytes : Bytes) :
    Suited schema mode Field.expectBytes (storeBytes · bytes) := by
  intro field hsuits hexpect
  have hk := kind_of_expectBytes hexpect
  refine ⟨by simp [hk], fun stored hl => ?_⟩
  rcases result_storeBytes field bytes stored with ⟨_, hr⟩ | ⟨count, hlen, hr⟩ <;> rw [hr]
  · exact .inl rfl
  · have hcanonical : field.Canonical
        (Bytes.littleEndian 4 bytes.length ++ bytes ++ Bytes.zeros count) := by
      simp only [Field.Canonical, hk]
      exact ⟨bytes, _, rfl⟩
    refine .inr ⟨⟨?_, ?_⟩, fun htext => by simp [htext] at hk⟩
    · rw [List.length_append, List.length_append, Bytes.length_littleEndian, Bytes.length_zeros, hlen]
    · cases mode with
      | strict => exact hcanonical
      | loose => exact fun _ => hcanonical.sound

variable {expect : Field Ref → Except CodecError Unit} {write : Field Ref → Edit Unit}

theorem obeys_store (h : schema.Plain mode (levels + 1) ref)
    (hs : (schema ref).size ≤ block.length) (tag : Nat) (hw : Suited schema mode expect write) :
    (store schema (schema ref) tag expect write).Obeys schema mode ref block fun _ _ => True := by
  refine obeys_lookUp fun field _ hf hcheck => ?_
  obtain ⟨hsingle, hexpect⟩ := unit_bind_eq_ok.mp hcheck
  obtain ⟨hh, hm⟩ := single_of_expect hsingle
  have hfits := h.laid.here.stored field hf hh
  obtain ⟨hk, hfills⟩ := hw field hfits.suits hexpect
  refine (obeys_markPresent h hs hf hh hm).bind fun _ after hlen hp => ?_
  exact obeys_inside hf hfits (by rwa [hlen]) hk hp hfills

theorem obeys_pushValue (h : schema.Plain mode (levels + 1) ref)
    (hs : (schema ref).size ≤ block.length) (tag : Nat) (hw : Suited schema mode expect write) :
    (pushValue (schema ref) tag expect write).Obeys schema mode ref block fun _ _ => True := by
  refine obeys_lookUp fun field _ hf hcheck => ?_
  obtain ⟨harray, hexpect⟩ := unit_bind_eq_ok.mp hcheck
  obtain ⟨hh, hm⟩ := array_of_expect harray
  have hfits := h.laid.here.stored field hf hh
  obtain ⟨hk, hfills⟩ := hw field hfits.suits hexpect
  refine (obeys_append h hs hf hh hm).bind fun span after hlen hp => ?_
  exact obeys_inside hf hfits (by rwa [hlen]) hk (hp.2 (Field.dataSize_pos hfits.suits hk)) hfills

-- ---------------------------------------------------------------------------
-- Messages
-- ---------------------------------------------------------------------------

/-- The update moves the messages of a level below. -/
def Tame (schema : Schema Ref) (mode : Field.Mode) (levels : Nat) (update : Table Ref → Edit α) :
    Prop :=
  ∀ inner (stored : Bytes), schema.Plain mode levels inner → (schema inner).size ≤ stored.length →
    (update (schema inner)).Obeys schema mode inner stored fun _ _ => True

variable {update : Table Ref → Edit α}

theorem obeys_nested (hu : Tame schema mode levels update) (h : schema.Plain mode levels ref)
    (hs : (schema ref).size ≤ block.length) :
    (nested schema ref update).Obeys schema mode ref block fun _ _ => True := by
  refine Obeys.bind (P := fun _ _ => True) (obeys_ask fun _ _ => trivial) fun _ after hlen _ => ?_
  exact hu ref after h (by rwa [hlen])

theorem obeys_initialise (h : schema.Plain mode levels ref) (hs : (schema ref).size ≤ block.length) :
    (schema.initialise ref).Obeys schema mode ref block fun _ _ => True := by
  obtain ⟨after, hr⟩ := Schema.initialiseWithin_ok (h.laid.mono h.levels_le) hs
  exact obeys_of_ok hr (.initialise hr) trivial

theorem obeys_pushMessage (h : schema.Plain mode (levels + 1) ref)
    (hs : (schema ref).size ≤ block.length) (tag : Nat) (hu : Tame schema mode levels update) :
    (pushMessage schema (schema ref) tag update).Obeys schema mode ref block fun _ _ => True := by
  refine obeys_lookUp fun field inner hf hcheck => ?_
  obtain ⟨harray, hexpect⟩ := unit_bind_eq_ok.mp hcheck
  obtain ⟨hh, hm⟩ := array_of_expect harray
  have hk := message_of_expect hexpect
  have hfits := h.laid.here.stored field hf hh
  have hbelow := h.below hf hh hk
  refine (obeys_append h hs hf hh hm).bind fun span after hlen hp => ?_
  refine obeys_inside_message hf hfits (by rwa [hlen]) hk hp.1 hp.2 fun stored hstored => ?_
  exact (obeys_initialise hbelow hstored).bind fun _ initial hinit _ =>
    hu inner initial hbelow (by rwa [hinit])

theorem obeys_submessage (h : schema.Plain mode (levels + 1) ref)
    (hs : (schema ref).size ≤ block.length) (tag : Nat) (hu : Tame schema mode levels update) :
    (submessage schema (schema ref) tag update).Obeys schema mode ref block fun _ _ => True := by
  refine obeys_lookUp fun field inner hf hcheck => ?_
  obtain ⟨hsingle, hexpect⟩ := unit_bind_eq_ok.mp hcheck
  obtain ⟨hh, hm⟩ := single_of_expect hsingle
  have hk := message_of_expect hexpect
  have hfits := h.laid.here.stored field hf hh
  refine (obeys_markPresent h hs hf hh hm).bind fun _ after hlen hp => ?_
  exact obeys_inside_message hf hfits (by rwa [hlen]) hk hp.loosen (fun _ => hp)
    fun stored hstored => obeys_nested hu (h.below hf hh hk) hstored

theorem obeys_element (h : schema.Plain mode (levels + 1) ref)
    (hs : (schema ref).size ≤ block.length) (tag index : Nat)
    (hu : Tame schema mode levels update) :
    (element schema (schema ref) tag index update).Obeys schema mode ref block fun _ _ => True := by
  refine obeys_lookUp fun field inner hf hcheck => ?_
  obtain ⟨harray, hexpect⟩ := unit_bind_eq_ok.mp hcheck
  obtain ⟨hh, hm⟩ := array_of_expect harray
  have hk := message_of_expect hexpect
  have hfits := h.laid.here.stored field hf hh
  refine Obeys.bind (P := fun span after => block = after ∧ field.Place mode block span)
    (obeys_ask fun span hspan => ⟨rfl, ?_⟩) ?_
  · obtain ⟨count, hcount, hlt, rfl⟩ := Field.elementSpan_eq_ok.mp hspan
    obtain ⟨hslot, hle⟩ := Field.count_eq_ok.mp hcount
    exact .element hm (by omega) fun _ => ⟨count, hslot, hlt⟩
  · rintro span _ - ⟨rfl, hp⟩
    exact obeys_inside_message hf hfits hs hk hp.loosen (fun _ => hp)
      fun stored hstored => obeys_nested hu (h.below hf hh hk) hstored

-- ---------------------------------------------------------------------------
-- Presence
-- ---------------------------------------------------------------------------

theorem obeys_bind (tag slot : Nat) :
    (bind (schema ref) tag slot).Obeys schema mode ref block fun _ _ => True := by
  refine obeys_lookUp fun field _ hf hcheck => ?_
  split at hcheck
  · next hh =>
    exact obeys_aside hf hh ((touches_change fun _ => length_writeUnsigned _ _).mono fun _ => .inl)
  · cases hcheck

theorem obeys_clear (h : schema.Plain .loose (levels + 1) ref)
    (hs : (schema ref).size ≤ block.length) (tag : Nat) :
    (clear schema (schema ref) tag).Obeys schema .loose ref block fun _ _ => True := by
  refine obeys_lookUp fun field _ hf _ => ?_
  refine Step.ends_ite (fun _ => obeys_bind tag 0) fun hhandled => ?_
  have hh : field.isHandled = false := by simpa using hhandled
  refine Obeys.bind (P := fun active b => block = b ∧ field.isActive block = .ok active)
    (obeys_ask fun _ h => ⟨rfl, h⟩) ?_
  rintro active _ - ⟨rfl, hactive⟩
  refine Step.ends_ite (fun hon => ?_) fun _ => obeys_pure trivial
  obtain ⟨after, hr⟩ := h.reset_ok hs hf hh
  exact obeys_of_ok hr (.reset rfl hf hh (hon ▸ hactive) hr) trivial

/-- The checks do not look at the flag of a handled field, so it may be set or fail to be. -/
theorem obeys_setFlag (h : schema.Plain .loose (levels + 1) ref)
    (hs : (schema ref).size ≤ block.length) (hf : field ∈ (schema ref).fields)
    (hm : field.multiplicity = .optional) (ho : field.sizeOffset.isSome) (present : Bool) :
    (Edit.setSlot field (if present then 1 else 0)).Obeys schema .loose ref block
      fun _ _ => True := by
  cases hh : field.isHandled with
  | true => exact obeys_aside hf hh (touches_setSlot.mono fun _ => .inr)
  | false =>
    obtain ⟨after, -, hr, -⟩ := (h.laid.here.laid field hf hh).setSlot_ok hs ho (if present then 1 else 0)
    refine obeys_of_ok hr (.flag hf hh hm ?_ hr) trivial
    cases present
    · exact .inr ⟨rfl, rfl⟩
    · exact .inl rfl

theorem obeys_setPresent (h : schema.Plain .loose (levels + 1) ref)
    (hs : (schema ref).size ≤ block.length) (tag : Nat) (present : Bool) :
    (setPresent schema (schema ref) tag present).Obeys schema .loose ref block
      fun _ _ => True := by
  refine obeys_lookUp fun field _ hf _ => ?_
  cases hm : field.multiplicity with
  | required | «repeated» =>
    simp only [hm]
    exact obeys_ofExcept fun _ _ => trivial
  | optional =>
    cases ho : field.sizeOffset with
    | none =>
      simp only [hm, ho]
      exact obeys_ofExcept fun _ _ => trivial
    | some offset =>
      simp only [hm, ho]
      exact obeys_setFlag h hs hf hm (by rw [ho]; rfl) present
  | oneof group =>
    -- no member of a group is handled
    have hh : field.isHandled = false := by
      cases hh : field.isHandled with
      | false => rfl
      | true => simpa [Field.group?, hm] using (h.laid.here.handled field hf hh).group_eq
    simp only [hm]
    refine Step.ends_ite (fun _ => ?_) fun _ => obeys_clear h hs tag
    exact (obeys_markPresent h hs hf hh (by simp [hm])).mono (fun _ _ hp => ⟨hp.1, trivial⟩)
      fun _ _ hp => hp

theorem obeys_init (h : schema.Plain mode levels ref) (hs : (schema ref).size ≤ block.length) :
    (init schema (schema ref)).Obeys schema mode ref block fun _ _ => True :=
  obeys_initialise h hs

end Update

-- ---------------------------------------------------------------------------
-- Actions
-- ---------------------------------------------------------------------------

theorem Edit.Obeys.attempt {edit : Edit α} {Q : α → Bytes → Prop}
    (h : edit.Obeys schema mode ref block Q) :
    edit.attempt.Obeys schema mode ref block fun _ _ => True :=
  ⟨h.moves, trivial⟩

mutual

theorem Action.obeys {ref : Ref} {levels : Nat} {block : Bytes} (action : Action)
    (h : schema.Plain mode levels ref) (hs : (schema ref).size ≤ block.length)
    (hw : mode = .strict → action.Writes) :
    (action.perform schema (schema ref)).Obeys schema mode ref block fun _ _ => True := by
  cases levels with
  | zero => cases h.laid
  | succ levels =>
    match action with
    | .set tag value =>
      rw [Action.perform]
      exact Update.obeys_store h hs tag (Update.suited_scalar value)
    | .setText tag text =>
      rw [Action.perform]
      refine Update.obeys_store h hs tag (Update.suited_text fun hm => ?_)
      cases hw hm
      assumption
    | .setBytes tag bytes =>
      rw [Action.perform]
      exact Update.obeys_store h hs tag (Update.suited_bytes bytes)
    | .push tag value =>
      rw [Action.perform]
      exact Update.obeys_pushValue h hs tag (Update.suited_scalar value)
    | .pushText tag text =>
      rw [Action.perform]
      refine Update.obeys_pushValue h hs tag (Update.suited_text fun hm => ?_)
      cases hw hm
      assumption
    | .pushBytes tag bytes =>
      rw [Action.perform]
      exact Update.obeys_pushValue h hs tag (Update.suited_bytes bytes)
    | .pushMessage tag inner =>
      rw [Action.perform]
      refine Update.obeys_pushMessage h hs tag fun ref stored h hs => ?_
      refine performAll_obeys inner h hs fun hm => ?_
      cases hw hm
      assumption
    | .submessage tag inner =>
      rw [Action.perform]
      refine Update.obeys_submessage h hs tag fun ref stored h hs => ?_
      refine performAll_obeys inner h hs fun hm => ?_
      cases hw hm
      assumption
    | .element tag index inner =>
      rw [Action.perform]
      refine Update.obeys_element h hs tag index fun ref stored h hs => ?_
      refine performAll_obeys inner h hs fun hm => ?_
      cases hw hm
      assumption
    | .bind tag slot =>
      rw [Action.perform]
      exact Update.obeys_bind tag slot
    | .setPresent tag present =>
      rw [Action.perform]
      cases mode with
      | strict => exact absurd (hw rfl) nofun
      | loose => exact Update.obeys_setPresent h hs tag present
    | .clear tag =>
      rw [Action.perform]
      cases mode with
      | strict => exact absurd (hw rfl) nofun
      | loose => exact Update.obeys_clear h hs tag
    | .init =>
      rw [Action.perform]
      exact Update.obeys_init h hs

/-- Whether they succeed or not, actions change a block by moves of views. -/
theorem performAll_obeys {ref : Ref} {levels : Nat} {block : Bytes} (actions : List Action)
    (h : schema.Plain mode levels ref) (hs : (schema ref).size ≤ block.length)
    (hw : mode = .strict → ∀ action ∈ actions, action.Writes) :
    (performAll schema actions (schema ref)).Obeys schema mode ref block fun _ _ => True := by
  match actions with
  | [] =>
    rw [performAll]
    exact Edit.obeys_pure trivial
  | action :: rest =>
    rw [performAll]
    refine (Action.obeys action h hs fun hm => hw hm action (by simp)).attempt.bind
      fun _ after hlen _ => ?_
    exact performAll_obeys rest h (by rwa [hlen]) fun hm other ho => hw hm other (by simp [ho])

end

end BlockCodec
