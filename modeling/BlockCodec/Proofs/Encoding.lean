import BlockCodec.Message.Encode
import BlockCodec.Proofs.Decoding

/-!
# What encoding can fail with

Whatever a block holds and whatever the output is, encoding laid tables does not blame the table:
every range is in the block, every number is of a numeric kind and every tag can be written. What
is left are failures of the output, of the block's content and of the depth allowed.
-/

namespace BlockCodec

/-- The failures that an encoder blames the table for. -/
def CodecError.BlamesTags (failure : CodecError) : Prop :=
  failure.BlamesTable ∨ ∃ number, failure = .wire (.invalidFieldNumber number)

theorem CodecError.not_blamesTags {failure : CodecError} (ht : ¬failure.BlamesTable)
    (hn : ∀ number, failure ≠ .wire (.invalidFieldNumber number)) : ¬failure.BlamesTags :=
  fun h => h.elim ht fun ⟨number, hf⟩ => hn number hf

namespace Encode

variable {κ S α β Ref : Type}

/-- The step does not blame the table, whatever the output is. -/
def Blameless (step : Encode κ S α) : Prop :=
  ∀ state, step.Ends state (fun _ _ => True) fun failure _ => ¬failure.BlamesTags

theorem Blameless.bind {step : Encode κ S α} {next : α → Encode κ S β} (h : Blameless step)
    (hn : ∀ value, Blameless (next value)) : Blameless (step >>= next) :=
  fun state => (h state).bind fun value after _ => hn value after

theorem blameless_pure (value : α) : Blameless (pure value : Encode κ S α) := fun _ => trivial

theorem blameless_throw {failure : CodecError} (h : ¬failure.BlamesTags) :
    Blameless (throw failure : Encode κ S α) := fun _ => h

theorem blameless_ite {c : Prop} [Decidable c] {yes no : Encode κ S α} (hy : c → Blameless yes)
    (hn : ¬c → Blameless no) : Blameless (if c then yes else no) := by
  split
  · next h => exact hy h
  · next h => exact hn h

theorem blameless_get : Blameless (get : Encode κ S (Encoding κ S)) := fun _ => trivial

/-- A look whose failure is no blame, and what is done with its answer. -/
theorem blameless_ofExcept {outcome : Except CodecError α} {next : α → Encode κ S β}
    (he : ∀ failure, outcome = .error failure → ¬failure.BlamesTags)
    (hn : ∀ value, outcome = .ok value → Blameless (next value)) :
    Blameless (Step.ofExcept outcome >>= next) :=
  fun state => Step.Ends.bind (P := fun value after => outcome = .ok value ∧ after = state)
    (Step.ends_ofExcept (fun _ h => ⟨h, rfl⟩) he) fun value after h => hn value h.1 after

theorem blameless_of_ok {outcome : Except CodecError α} {next : α → Encode κ S β} {value : α}
    (h : outcome = .ok value) (hn : Blameless (next value)) :
    Blameless (Step.ofExcept outcome >>= next) :=
  blameless_ofExcept (by simp [h]) fun other ho => by
    rw [h, Except.ok.injEq] at ho
    exact ho ▸ hn

theorem blameless_onOutput {step : Step (Output κ) CodecError α}
    (h : ∀ output, step.Ends output (fun _ _ => True) fun failure _ => ¬failure.BlamesTags) :
    Blameless (onOutput step : Encode κ S α) :=
  fun state => Step.ends_onPart (h state.output)

theorem ends_wire {step : Wire.Write κ α} {output : Output κ}
    (h : step.Ends output (fun _ _ => True) fun failure _ => ∃ cause, failure = .stream cause) :
    (step.mapFailure CodecError.wire).Ends output (fun _ _ => True)
      fun failure _ => ¬failure.BlamesTags := by
  refine Step.ends_mapFailure (h.mono (fun _ _ h => h) ?_)
  rintro _ _ ⟨cause, rfl⟩
  simp [CodecError.BlamesTags, CodecError.BlamesTable]

theorem ends_stream (step : Step (Output κ) StreamError α) (output : Output κ) :
    Step.Ends (step.mapFailure WireError.stream) output (fun _ _ => True)
      fun failure _ => ∃ cause, failure = .stream cause := by
  refine Step.ends_mapFailure ?_
  unfold Step.Ends
  split
  · trivial
  · exact ⟨_, rfl⟩

theorem blameless_measure {step : Encode κ S Unit} (h : Blameless step) :
    Blameless (measure step) := by
  intro state
  have hs := h { state with output := .sizing }
  unfold Step.Ends measure at *
  rw [Step.result_ofRun]
  split at hs <;> simp_all [Except.map]

theorem blameless_within {length : Nat} {step : Encode κ S α} (h : Blameless step) :
    Blameless (within length step) := by
  intro state
  unfold Step.Ends within
  rw [Step.result_ofRun]
  cases state.output.narrow length with
  | error failure => exact CodecError.not_blamesTags id nofun
  | ok output =>
    have hs := h { state with output }
    unfold Step.Ends at hs
    split at hs <;> simp_all

theorem blameless_remeasured {label : String} {length : Nat} {step : Encode κ S Unit}
    (h : Blameless step) : Blameless (remeasured label length step) := by
  intro state
  have hs := h state
  unfold Step.Ends remeasured at *
  rw [Step.result_ofRun]
  rcases hr : step.result state with ⟨outcome, after⟩
  rw [hr] at hs
  cases outcome with
  | ok => trivial
  | error failure =>
    simp only
    split
    · trivial
    · next heq =>
      split at heq
      · cases heq
      · cases heq
        exact CodecError.not_blamesTags id nofun
      · next hother =>
        cases hother
        cases heq
        exact hs

-- ---------------------------------------------------------------------------
-- Writing values
-- ---------------------------------------------------------------------------

variable [Sink κ]

theorem ends_write (bytes : Bytes) (output : Output κ) :
    Step.Ends (Wire.write bytes) output (fun _ _ => True)
      fun failure _ => ∃ cause, failure = .stream cause :=
  ends_stream _ output

theorem ends_writeVarint (value : UInt64) (output : Output κ) :
    Step.Ends (Wire.writeVarint value) output (fun _ _ => True)
      fun failure _ => ∃ cause, failure = .stream cause :=
  ends_write _ output

/-- A tag in range can be written. -/
theorem ends_writeTag {type : WireType} {tag : Nat} (hpos : 0 < tag)
    (hle : tag ≤ Wire.maxFieldNumber) (output : Output κ) :
    Step.Ends (Wire.writeTag type tag) output (fun _ _ => True)
      fun failure _ => ∃ cause, failure = .stream cause := by
  rw [Wire.writeTag, if_neg (by omega)]
  exact ends_writeVarint _ output

theorem ends_writeDelimited (bytes : Bytes) (output : Output κ) :
    Step.Ends (Wire.writeDelimited bytes) output (fun _ _ => True)
      fun failure _ => ∃ cause, failure = .stream cause :=
  (ends_writeVarint _ output).bind fun _ _ _ => ends_write _ _

omit [Sink κ] in
theorem blameless_onWire {step : Wire.Write κ α}
    (h : ∀ output, step.Ends output (fun _ _ => True)
      fun failure _ => ∃ cause, failure = .stream cause) :
    Blameless (onWire step : Encode κ S α) :=
  blameless_onOutput fun output => ends_wire (h output)

/-- A number of a scalar kind can be written. -/
theorem ends_writeScalar {field : Field Ref} (hk : field.kind.isScalar = true) (value : Scalar)
    (output : Output κ) : Step.Ends (field.writeScalar value) output (fun _ _ => True)
      fun failure _ => ¬failure.BlamesTags := by
  unfold Field.writeScalar
  split
  all_goals first
    | exact ends_wire (ends_write _ output)
    | simp_all [Kind.isScalar]

theorem blameless_sized {label : String} {message : Encode κ S Unit} (h : Blameless message) :
    Blameless (sized label message) := by
  unfold sized
  refine (blameless_measure h).bind fun size => ?_
  refine (blameless_onWire (ends_writeVarint _)).bind fun _ => ?_
  refine blameless_get.bind fun state => ?_
  refine blameless_ite (fun _ => blameless_onWire (ends_stream _)) fun _ => ?_
  refine (blameless_within (blameless_remeasured h)).bind fun written => ?_
  exact blameless_ite (fun _ => blameless_throw (CodecError.not_blamesTags id nofun)) fun _ => blameless_pure ()

variable {schema : Schema Ref} {size levels : Nat} {nested : Ref → Bytes → Encode κ S Unit}
  {field : Field Ref} {ref : Ref} {block held : Bytes}

theorem blameless_value (hfits : field.Fits schema size) (hpos : 0 < field.tag)
    (hle : field.tag ≤ Wire.maxFieldNumber) (hheld : held.length = field.dataSize)
    (hn : ∀ inner, field.kind = .message inner → Blameless (nested inner held)) :
    Blameless (value nested field held) := by
  have hsuits := hfits.suits
  unfold value
  split
  · next hk =>
    refine blameless_ofExcept (fun failure hf => ?_) fun text _ => ?_
    · unfold Field.textBytes at hf
      split at hf <;> cases hf
      exact CodecError.not_blamesTags id (by rintro _ ⟨⟩)
    · exact (blameless_onWire (ends_writeTag hpos hle)).bind fun _ =>
        blameless_onWire (ends_writeDelimited text)
  · next hk =>
    simp only [Field.Suits, hk] at hsuits
    refine blameless_ofExcept (fun failure hf => ?_) fun payload _ => ?_
    · rw [Field.payload, if_neg (by omega)] at hf
      simp only at hf
      split at hf <;> cases hf
      exact CodecError.not_blamesTags id (by rintro _ ⟨⟩)
    · exact (blameless_onWire (ends_writeTag hpos hle)).bind fun _ =>
        blameless_onWire (ends_writeDelimited payload)
  · next inner hk =>
    exact (blameless_onWire (ends_writeTag hpos hle)).bind fun _ => blameless_sized (hn inner hk)
  · next hk1 hk2 hk3 =>
    have hscalar : field.kind.isScalar = true := by
      cases hk : field.kind <;> simp_all [Kind.isScalar]
    exact (blameless_onWire (ends_writeTag hpos hle)).bind fun _ =>
      blameless_onOutput (ends_writeScalar hscalar _)

-- ---------------------------------------------------------------------------
-- Fields in the block
-- ---------------------------------------------------------------------------

omit [Sink κ] in
theorem load_place (hfits : field.Fits schema size) (hs : size ≤ block.length)
    {mode : Field.Mode} {span : Span} (hp : field.Place mode block span) :
    ∃ stored, block.slice? span = some stored ∧ stored.length = field.dataSize ∧
      field.load span block = .ok stored := by
  obtain ⟨stored, hstored, hl⟩ := hfits.place_slice hs hp
  exact ⟨stored, hstored, hl, by rw [Field.load, hstored]⟩

/-- Every value of the field can be written. -/
def Writable (nested : Ref → Bytes → Encode κ S Unit) (field : Field Ref) (block : Bytes) : Prop :=
  ∀ span held, field.Place .loose block span → block.slice? span = some held →
    Blameless (value nested field held)

theorem ends_packedElements (hfits : field.Fits schema size) (hs : size ≤ block.length)
    (hm : field.multiplicity = .repeated) (hk : field.kind.isScalar = true) {index left : Nat}
    (hle : index + left ≤ field.capacity) (output : Output κ) :
    (packedElements field block index left).Ends output (fun _ _ => True)
      fun failure _ => ¬failure.BlamesTags := by
  induction left generalizing index output with
  | zero => trivial
  | succ left ih =>
    have hp : field.Place .loose block (field.element index) :=
      Field.loose_element hm (by omega)
    obtain ⟨held, -, -, hload⟩ := load_place hfits hs hp
    unfold packedElements
    rw [hload]
    refine Step.Ends.bind (P := fun _ _ => True) (Step.ends_ofExcept (by simp) (by simp)) ?_
    intro stored _ _
    refine (ends_writeScalar hk _ _).bind fun _ after _ => ?_
    exact ih (by omega) after

theorem blameless_elements (hfits : field.Fits schema size) (hs : size ≤ block.length)
    (hm : field.multiplicity = .repeated) (hw : Writable nested field block) {index left : Nat}
    (hle : index + left ≤ field.capacity) : Blameless (elements nested field block index left) := by
  induction left generalizing index with
  | zero => exact blameless_pure ()
  | succ left ih =>
    have hp : field.Place .loose block (field.element index) :=
      Field.loose_element hm (by omega)
    obtain ⟨held, hheld, -, hload⟩ := load_place hfits hs hp
    unfold elements
    rw [hload]
    exact (hw _ held hp hheld).bind fun _ => ih (by omega)

theorem ends_writePacked (hpos : 0 < field.tag)
    (hle : field.tag ≤ Wire.maxFieldNumber) {count : Nat} {numbers : Step (Output κ) CodecError Unit}
    (hn : ∀ output, numbers.Ends output (fun _ _ => True) fun failure _ => ¬failure.BlamesTags)
    (output : Output κ) : (field.writePacked count numbers).Ends output (fun _ _ => True)
      fun failure _ => ¬failure.BlamesTags := by
  unfold Field.writePacked
  refine Step.Ends.bind (P := fun _ _ => True) ?_ fun length _ _ => ?_
  · unfold Field.packedLength
    split
    · trivial
    · have hsize := hn Output.sizing
      unfold Step.Ends Output.measure at *
      rw [Step.result_ofRun]
      split at hsize <;> simp_all [Except.map]
  · refine (ends_wire (ends_writeTag hpos hle _)).bind fun _ _ _ => ?_
    refine (ends_wire (ends_writeVarint _ _)).bind fun _ after _ => ?_
    exact hn after

theorem blameless_array (hlaid : field.Laid schema size) (hs : size ≤ block.length)
    (hm : field.multiplicity = .repeated) (hpos : 0 < field.tag)
    (hle : field.tag ≤ Wire.maxFieldNumber) (hw : Writable nested field block) :
    Blameless (array nested field block) := by
  have hrep : field.isRepeated = true := by simp [Field.isRepeated, hm]
  obtain ⟨_, stored, -, -, -, hslot⟩ := hlaid.slot_ok hs (hlaid.slot_isSome (.inl hrep))
  unfold array
  refine blameless_of_ok hslot ?_
  refine blameless_ite (fun _ => blameless_pure ()) fun _ => ?_
  refine blameless_ite (fun _ => blameless_throw (CodecError.not_blamesTags id (by rintro _ ⟨⟩))) fun hc => ?_
  refine blameless_ite (fun hp => blameless_onOutput ?_) fun _ => ?_
  · exact ends_writePacked hpos hle
      (ends_packedElements hlaid.toFits hs hm hp.2 (by omega))
  · exact blameless_elements hlaid.toFits hs hm hw (by omega)

/-- To look whether a laid field is present does not blame the table. -/
theorem isPresent_blameless (hlaid : field.Laid schema size) (hs : size ≤ block.length)
    {failure : CodecError} (he : field.isPresent block = .error failure) : ¬failure.BlamesTags := by
  have hslot : field.sizeOffset.isSome → ∃ value, field.slot block = .ok value := fun ho => by
    obtain ⟨_, _, -, -, -, hslot⟩ := hlaid.slot_ok hs ho
    exact ⟨_, hslot⟩
  cases hm : field.multiplicity with
  | required => simp [Field.isPresent, hm] at he
  | «repeated» =>
    obtain ⟨value, hv⟩ := hslot (hlaid.slot_isSome (.inl (by simp [Field.isRepeated, hm])))
    simp [Field.isPresent, hm, hv, bind, Except.bind, pure, Except.pure] at he
  | oneof group =>
    obtain ⟨value, hv⟩ := hslot (hlaid.slot_isSome (.inr (by simp [Field.group?, hm])))
    simp [Field.isPresent, Field.isActive, hm, hv, bind, Except.bind, pure, Except.pure] at he
  | optional =>
    simp only [Field.isPresent, hm] at he
    split at he
    · next ho =>
      obtain ⟨value, hv⟩ := hslot ho
      simp [hv, bind, Except.bind, pure, Except.pure] at he
    · obtain ⟨held, -, hl, hload⟩ := load_place hlaid.toFits hs
        (Field.loose_single (.inr hm) : field.Place .loose block field.data)
      have hsuits := hlaid.suits
      rw [hload, bind_ok] at he
      unfold Field.isNonzero at he
      split at he
      · next hk =>
        simp only [Field.Suits, hk] at hsuits
        rw [Field.payload, if_neg (by omega)] at he
        simp only at he
        split at he <;> cases he
        exact CodecError.not_blamesTags id (by rintro _ ⟨⟩)
      · cases he
      · cases he

theorem blameless_stored (hlaid : field.Laid schema size) (hs : size ≤ block.length)
    (hpos : 0 < field.tag) (hle : field.tag ≤ Wire.maxFieldNumber)
    (hw : Writable nested field block) : Blameless (stored nested field block) := by
  unfold stored
  split
  · next hm => exact blameless_array hlaid hs hm hpos hle hw
  · next hm =>
    refine blameless_ofExcept (fun _ => isPresent_blameless hlaid hs) fun present hpresent => ?_
    refine blameless_ite (fun hp => ?_) fun _ => blameless_pure ()
    have hplace := (Field.place_of_present hm (hpresent.trans (congrArg _ hp))).loosen
    obtain ⟨held, hheld, -, hload⟩ := load_place hlaid.toFits hs hplace
    exact blameless_of_ok hload (hw _ held hplace hheld)

-- ---------------------------------------------------------------------------
-- Messages
-- ---------------------------------------------------------------------------

variable [Handler Ref S] {config : EncodeConfig}

/-- A handled field that is not bound writes nothing. -/
theorem blameless_handled (hslot : field.handlerSlot block = .ok 0) (depth : Nat) :
    Blameless (handled config depth field block : Encode κ S Unit) := by
  unfold handled
  exact blameless_of_ok hslot (blameless_pure ())

theorem blameless_fields {fields : List (Field Ref)} (depth : Nat)
    (hh : ∀ field ∈ fields, field.isHandled = true → field.handlerSlot block = .ok 0)
    (hs : ∀ field ∈ fields, field.isHandled = false → Blameless (stored nested field block)) :
    Blameless (Encode.fields config nested depth block fields) := by
  induction fields with
  | nil => exact blameless_pure ()
  | cons field rest ih =>
    have hrest := ih (fun other ho => hh other (by simp [ho])) fun other ho => hs other (by simp [ho])
    unfold Encode.fields
    cases hhandled : field.isHandled with
    | true => exact (blameless_handled (hh field (by simp) hhandled) depth).bind fun _ => hrest
    | false => exact (hs field (by simp) hhandled).bind fun _ => hrest

/-- Whatever a block holds, encoding it for laid tables does not blame the table. -/
theorem blameless_messageWithin (hlaid : schema.Laid levels ref)
    (hu : Decode.Unbound schema ref block) (hs : (schema ref).size ≤ block.length)
    (depth : Nat) : Blameless (messageWithin schema config depth ref block : Encode κ S Unit) := by
  induction hlaid generalizing block depth with
  | @intro levels ref hl _ ih =>
    cases depth with
    | zero => exact blameless_throw (CodecError.not_blamesTags id nofun)
    | succ depth =>
      unfold messageWithin
      refine blameless_of_ok (Table.checkBlock_ok hs) ?_
      refine blameless_fields _ (fun field hf hh => ?_) fun field hf hh => ?_
      · exact Decode.handlerSlot_of_unbound hu hl hs hf hh
      · have hfield := hl.laid field hf hh
        refine blameless_stored hfield hs (hl.tag_pos field hf) (hl.tag_le field hf) ?_
        intro span held hp hheld
        have hlen := hfield.length_place hp hheld
        refine blameless_value hfield.toFits (hl.tag_pos field hf) (hl.tag_le field hf) hlen ?_
        intro inner hk
        refine ih inner (Table.mem_nested hf hh hk) (Decode.unbound_of_place hu hf hh hk hp hheld) ?_ _
        exact Nat.le_of_eq (hlen.trans (hfield.dataSize_of_message hk)).symm

end Encode

end BlockCodec
