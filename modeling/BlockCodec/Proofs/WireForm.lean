import BlockCodec.Proofs.Encoding

/-!
# The wire form of a block

`Schema.wireForm` says what the bytes of a message are, in one walk over its block and without an
output. The encoder walks every message inside another twice and yet `Emits` just this form: it
appends the whole of it when there is room and fails otherwise (`Encode.emits_messageWithin`).
-/

namespace BlockCodec

variable {Ref S ε α : Type}

-- ---------------------------------------------------------------------------
-- The form
-- ---------------------------------------------------------------------------

def Wire.headerForm (type : WireType) (tag : Nat) : Bytes :=
  Varint.encode (UInt64.ofNat (tag * 8 + type.bits))

def Wire.delimitedForm (content : Bytes) : Bytes :=
  Varint.encode (UInt64.ofNat content.length) ++ content

namespace Field

def scalarForm (field : Field Ref) (value : Scalar) : Bytes :=
  match field.kind with
  | .bool => Varint.encode (if value.asBool then 1 else 0)
  | .varint _ | .enumeration => Varint.encode value.asUInt64
  | .zigZag _ => Varint.encode (ZigZag.encode value.asInt64)
  | .fixed ⟨.w64, _⟩ => Bytes.littleEndian 8 value.asUInt64.toNat
  | .fixed _ => Bytes.littleEndian 4 value.asUInt64.toUInt32.toNat
  | .float .w64 => Bytes.littleEndian 8 value.asDouble.toNat
  | .float _ => Bytes.littleEndian 4 value.asSingle.toNat
  | .text | .bytes | .message _ => []

variable (nested : Ref → Bytes → Except CodecError Bytes)

/-- What follows the header of a value. -/
def bodyForm (field : Field Ref) (stored : Bytes) : Except CodecError Bytes :=
  match field.kind with
  | .text => (field.textBytes stored).map Wire.delimitedForm
  | .bytes => (field.payload stored).map Wire.delimitedForm
  | .message ref => (nested ref stored).map Wire.delimitedForm
  | kind => .ok (field.scalarForm (kind.loadScalar stored))

def valueForm (field : Field Ref) (stored : Bytes) : Except CodecError Bytes := do
  let body ← field.bodyForm nested stored
  pure (Wire.headerForm field.kind.wireType field.tag ++ body)

/-- The elements from `index` on, one behind the other. -/
def elementForms (form : Bytes → Except CodecError Bytes) (field : Field Ref) (block : Bytes)
    (index : Nat) : Nat → Except CodecError Bytes
  | 0 => .ok []
  | left + 1 => do
    let stored ← field.load (field.element index) block
    let first ← form stored
    let rest ← elementForms form field block (index + 1) left
    pure (first ++ rest)

def packForm (field : Field Ref) (numbers : Bytes) : Bytes :=
  Wire.headerForm .delimited field.tag ++ Wire.delimitedForm numbers

def arrayForm (field : Field Ref) (block : Bytes) : Except CodecError Bytes := do
  let count ← field.slot block
  if count = 0 then pure []
  else if field.capacity < count then throw (.arrayFull field.name field.capacity)
  else if field.packed ∧ field.kind.isScalar then do
    let numbers ← field.elementForms
      (fun stored => .ok (field.scalarForm (field.kind.loadScalar stored))) block 0 count
    pure (field.packForm numbers)
  else field.elementForms (field.valueForm nested) block 0 count

/-- Nothing for a handled field, which is taken to be unbound. -/
def wireForm (field : Field Ref) (block : Bytes) : Except CodecError Bytes :=
  if field.isHandled then .ok []
  else
    match field.multiplicity with
    | .repeated => field.arrayForm nested block
    | _ => do
      let present ← field.isPresent block
      if present then do
        let stored ← field.load field.data block
        field.valueForm nested stored
      else pure []

theorem wireForm_array {field : Field Ref} {block : Bytes} (hh : field.isHandled = false)
    (hm : field.multiplicity = .repeated) :
    field.wireForm nested block = field.arrayForm nested block := by
  simp [wireForm, hh, hm]

theorem wireForm_single {field : Field Ref} {block : Bytes} (hh : field.isHandled = false)
    (hm : field.multiplicity ≠ .repeated) :
    field.wireForm nested block = (do
      let present ← field.isPresent block
      if present then do
        let stored ← field.load field.data block
        field.valueForm nested stored
      else pure []) := by
  rw [wireForm, hh, if_neg (by simp)]
  split
  · next h => exact absurd h hm
  · rfl

theorem wireForm_of_absent {field : Field Ref} {block : Bytes} (hh : field.isHandled = false)
    (hm : field.multiplicity ≠ .repeated) (hp : field.isPresent block = .ok false) :
    field.wireForm nested block = .ok [] := by
  rw [wireForm_single nested hh hm, hp]
  rfl

/-- The form of a field that is not present is empty, whatever the forms of messages are. -/
theorem wireForm_nil_of_not_present {field : Field Ref} {block first : Bytes}
    (hh : field.isHandled = false) (hp : field.isPresent block ≠ .ok true)
    (hform : field.wireForm nested block = .ok first) (other : Ref → Bytes → Except CodecError Bytes) :
    field.wireForm other block = .ok [] := by
  by_cases hm : field.multiplicity = .repeated
  · rw [wireForm_array nested hh hm] at hform
    obtain ⟨count, hcount, -⟩ := bind_eq_ok.mp hform
    rw [isPresent_of_count hm hcount] at hp
    obtain rfl : count = 0 := by simpa using hp
    rw [wireForm_array other hh hm, arrayForm, hcount]
    rfl
  · rw [wireForm_single nested hh hm] at hform
    obtain ⟨present, hpresent, -⟩ := bind_eq_ok.mp hform
    cases present with
    | true => exact absurd hpresent hp
    | false => exact wireForm_of_absent other hh hm hpresent

/-- A field that has a form and is not present is not required. -/
theorem wireForm_of_not_present {field : Field Ref} {block first : Bytes} (hh : field.isHandled = false)
    (hp : field.isPresent block ≠ .ok true) (hform : field.wireForm nested block = .ok first) :
    first = [] ∧ field.isRequired = false := by
  have hr : field.multiplicity ≠ .required := fun hm => hp (isPresent_of_required hm)
  refine ⟨Except.ok.inj (hform.symm.trans ?_), by simpa [isRequired] using hr⟩
  exact wireForm_nil_of_not_present nested hh hp hform nested

def wireForms (block : Bytes) : List (Field Ref) → Except CodecError Bytes
  | [] => .ok []
  | field :: rest => do
    let first ← field.wireForm nested block
    let others ← wireForms block rest
    pure (first ++ others)

end Field

/-- The bytes of a message, with the given levels of nesting. -/
def Schema.wireForm (schema : Schema Ref) (config : EncodeConfig) :
    Nat → Ref → Bytes → Except CodecError Bytes
  | 0, _, _ => .error (.messageTooDeep config.maxDepth)
  | levels + 1, ref, block => do
    (schema ref).checkBlock block
    Field.wireForms (wireForm schema config levels) block (schema ref).fields

-- ---------------------------------------------------------------------------
-- Outputs
-- ---------------------------------------------------------------------------

namespace Output

/-- There is room for so many bytes. -/
def Takes {κ : Type} (output : Output κ) (count : Nat) : Prop :=
  output.sink = none ∨ count ≤ output.remaining

def put (output : Output Bytes) (content : Bytes) : Output Bytes :=
  { output with sink := output.sink.map (· ++ content) }.charge content.length

theorem put_nil (output : Output Bytes) : output.put [] = output := by
  rcases output with ⟨sink, limit, written⟩
  cases sink <;> simp [put, charge]

theorem put_put (output : Output Bytes) (a b : Bytes) :
    (output.put a).put b = output.put (a ++ b) := by
  rcases output with ⟨sink, limit, written⟩
  cases sink <;> simp [put, charge, Nat.add_assoc]

theorem takes_zero (output : Output Bytes) : output.Takes 0 := .inr (Nat.zero_le _)

theorem takes_append (output : Output Bytes) (a b : Bytes) :
    output.Takes (a ++ b).length ↔ output.Takes a.length ∧ (output.put a).Takes b.length := by
  rcases output with ⟨sink, limit, written⟩
  cases sink with
  | none => simp [Takes, put, charge]
  | some sink =>
    simp only [Takes, put, charge, remaining, List.length_append, Option.map_some, reduceCtorEq,
      false_or]
    omega

/-- The step appends these bytes, or fails if there is no room for them. -/
def Puts (step : Step (Output Bytes) ε Unit) (content : Bytes) : Prop :=
  ∀ output, step.Ends output (fun _ after => output.Takes content.length ∧ after = output.put content)
    fun _ _ => ¬output.Takes content.length

theorem puts_pure : Puts (pure () : Step (Output Bytes) ε Unit) [] :=
  fun output => ⟨output.takes_zero, output.put_nil.symm⟩

theorem Puts.seq {step : Step (Output Bytes) ε Unit} {next : Unit → Step (Output Bytes) ε Unit}
    {a b : Bytes} (ha : Puts step a) (hb : Puts (next ()) b) : Puts (step >>= next) (a ++ b) := by
  intro output
  have hroom := takes_append output a b
  refine Step.Ends.bind (P := fun _ after => output.Takes a.length ∧ after = output.put a)
    ((ha output).mono (fun _ _ h => h) fun _ _ h hab => h (hroom.mp hab).1) ?_
  rintro ⟨⟩ _ ⟨hfirst, rfl⟩
  refine (hb _).mono (fun _ after h => ?_) fun _ _ h hab => h (hroom.mp hab).2
  exact ⟨hroom.mpr ⟨hfirst, h.1⟩, h.2.trans (output.put_put a b)⟩

theorem Puts.mapFailure {ε' : Type} {step : Step (Output Bytes) ε Unit} {content : Bytes}
    (h : Puts step content) (restate : ε → ε') : Puts (step.mapFailure restate) content :=
  fun output => Step.ends_mapFailure (h output)

theorem puts_write (content : Bytes) : Puts (Output.write content) content := by
  rintro ⟨sink, limit, written⟩
  unfold Step.Ends write
  rw [Step.result_ofRun]
  cases sink with
  | none => exact ⟨.inl rfl, rfl⟩
  | some sink =>
    by_cases h : (⟨some sink, limit, written⟩ : Output Bytes).remaining < content.length
    · simp only [h, if_true]
      rintro (hnone | hle)
      · cases hnone
      · omega
    · simp only [h, if_false]
      exact ⟨.inr (by omega), rfl⟩

theorem Puts.result {step : Step (Output Bytes) ε Unit} {content : Bytes} {output : Output Bytes}
    (h : Puts step content) (htakes : output.Takes content.length) :
    step.result output = (.ok (), output.put content) := by
  obtain ⟨_, _, hr, -, rfl⟩ := Step.Ends.answers ((h output).mono (fun _ _ h => h) fun _ _ h => h htakes)
  exact hr

theorem measure_of_puts {step : Step (Output Bytes) ε Unit} {content : Bytes}
    (h : Puts step content) (output : Output Bytes) :
    (measure step).result output = (.ok content.length, output) := by
  rw [measure, Step.result_ofRun, h.result (.inl rfl)]
  simp [Except.map, put, charge, sizing]

end Output

-- ---------------------------------------------------------------------------
-- Wire values
-- ---------------------------------------------------------------------------

open Output

theorem Wire.puts_write (content : Bytes) : Puts (Wire.write content) content :=
  (Output.puts_write content).mapFailure _

theorem Wire.puts_writeTag {type : WireType} {tag : Nat} (hpos : 0 < tag)
    (hle : tag ≤ Wire.maxFieldNumber) : Puts (Wire.writeTag type tag) (Wire.headerForm type tag) := by
  rw [Wire.writeTag, if_neg (by omega)]
  exact Wire.puts_write _

theorem Wire.puts_writeDelimited (content : Bytes) :
    Puts (Wire.writeDelimited content) (Wire.delimitedForm content) :=
  (Wire.puts_write _).seq (Wire.puts_write content)

namespace Field

variable {field : Field Ref} {schema : Schema Ref} {size : Nat} {block : Bytes}

theorem puts_writeScalar (hk : field.kind.isScalar = true) (value : Scalar) :
    Puts (field.writeScalar value) (field.scalarForm value) := by
  unfold Field.writeScalar scalarForm
  generalize field.kind = kind at hk ⊢
  cases kind with
  | text | bytes | message => cases hk
  | fixed type =>
    obtain ⟨width, signed⟩ := type
    cases width <;> exact (Wire.puts_write _).mapFailure _
  | float width => cases width <;> exact (Wire.puts_write _).mapFailure _
  | _ => exact (Wire.puts_write _).mapFailure _

theorem length_scalarForm {width : Nat} (hw : field.kind.wireLength? = some width)
    (value : Scalar) : (field.scalarForm value).length = width := by
  unfold Kind.wireLength? Kind.wireType at hw
  unfold scalarForm
  split at hw
  all_goals simp_all [WireType.fixedLength?, Bytes.length_littleEndian]

end Field

-- ---------------------------------------------------------------------------
-- The encoder
-- ---------------------------------------------------------------------------

def Encoding.put (state : Encoding Bytes S) (content : Bytes) : Encoding Bytes S :=
  { state with output := state.output.put content }

namespace Encode

/-- The step appends what the form says, or fails if there is no form or no room for it. -/
def Emits (step : Encode Bytes S Unit) (form : Except CodecError Bytes) : Prop :=
  ∀ state, step.Ends state
    (fun _ after => ∃ content, form = .ok content ∧ state.output.Takes content.length ∧
      after = state.put content)
    fun _ _ => ∀ content, form = .ok content → ¬state.output.Takes content.length

variable {step message : Encode Bytes S Unit} {form : Except CodecError Bytes} {content : Bytes}

theorem emits_pure : Emits (pure () : Encode Bytes S Unit) (.ok []) := by
  intro state
  refine ⟨[], rfl, state.output.takes_zero, ?_⟩
  rw [Encoding.put, put_nil]

theorem emits_throw (failure reason : CodecError) :
    Emits (throw failure : Encode Bytes S Unit) (.error reason) :=
  fun _ => nofun

theorem emits_onOutput {step : Step (Output Bytes) CodecError Unit} (h : Puts step content) :
    Emits (onOutput step : Encode Bytes S Unit) (.ok content) := by
  refine fun state => Step.ends_onPart ((h state.output).mono (fun _ after ha => ?_) fun _ _ ha => ?_)
  · obtain ⟨hroom, rfl⟩ := ha
    exact ⟨content, rfl, hroom, rfl⟩
  · intro other hother
    cases hother
    exact ha

theorem emits_onWire {step : Wire.Write Bytes Unit} (h : Puts step content) :
    Emits (onWire step : Encode Bytes S Unit) (.ok content) :=
  emits_onOutput (h.mapFailure _)

theorem Emits.seq {next : Unit → Encode Bytes S Unit} {first rest : Except CodecError Bytes}
    (hf : Emits step first) (hr : Emits (next ()) rest) :
    Emits (step >>= next) (do
      let a ← first
      let b ← rest
      pure (a ++ b)) := by
  intro state
  refine Step.Ends.bind (P := fun _ after => ∃ a, first = .ok a ∧ state.output.Takes a.length ∧
    after = state.put a) ((hf state).mono (fun _ _ h => h) fun _ _ h content hc => ?_) ?_
  · simp only [bind_eq_ok, pure_eq_ok] at hc
    obtain ⟨a, ha, b, -, rfl⟩ := hc
    exact fun hroom => h a ha ((takes_append _ a b).mp hroom).1
  · rintro ⟨⟩ _ ⟨a, ha, hroom, rfl⟩
    refine (hr (state.put a)).mono (fun _ after h => ?_) fun _ _ h content hc => ?_
    · obtain ⟨b, hb, hroom', rfl⟩ := h
      refine ⟨a ++ b, ?_, (takes_append _ a b).mpr ⟨hroom, hroom'⟩, ?_⟩
      · rw [ha, hb]
        rfl
      · simp only [Encoding.put, put_put]
    · simp only [bind_eq_ok, pure_eq_ok] at hc
      obtain ⟨a', ha', b, hb, rfl⟩ := hc
      obtain rfl : a = a' := by simpa [ha] using ha'
      exact fun hall => h b hb ((takes_append _ a b).mp hall).2

theorem Emits.seq_ok {next : Unit → Encode Bytes S Unit} {a b : Bytes} (ha : Emits step (.ok a))
    (hb : Emits (next ()) (.ok b)) : Emits (step >>= next) (.ok (a ++ b)) :=
  ha.seq hb

theorem emits_look {outcome : Except CodecError α} {next : α → Encode Bytes S Unit}
    {form : α → Except CodecError Bytes}
    (h : ∀ value, outcome = .ok value → Emits (next value) (form value)) :
    Emits (Step.ofExcept outcome >>= next) (outcome >>= form) := by
  cases ho : outcome with
  | error failure => exact fun state => Step.Ends.of_error rfl nofun
  | ok value =>
    rw [Step.ofExcept_ok, pure_bind]
    exact h value ho

/-- To measure a message is to learn how long its form is. -/
theorem ends_measure (h : Emits message form) (state : Encoding Bytes S) :
    (measure message).Ends state
      (fun size after => ∃ content, form = .ok content ∧ size = content.length ∧ after = state)
      fun _ _ => ∀ content, form ≠ .ok content := by
  have hm := h { state with output := .sizing }
  unfold Step.Ends at hm
  unfold Step.Ends measure
  rw [Step.result_ofRun]
  split at hm
  · next value after hr =>
    obtain ⟨content, hform, -, rfl⟩ := hm
    rw [hr]
    refine ⟨content, hform, ?_, rfl⟩
    simp [Encoding.put, Output.put, charge, sizing]
  · next failure after hr =>
    rw [hr]
    exact fun content hform => hm content hform (.inl rfl)

/-- A message walked a second time fills exactly the room measured for it. -/
theorem ends_within (h : Emits message (.ok content)) (label : String) {state : Encoding Bytes S}
    (hsink : state.output.sink ≠ none) :
    (within content.length (remeasured label content.length message)).Ends state
      (fun written after => written = content.length ∧ state.output.Takes content.length ∧
        after = state.put content)
      fun _ _ => ¬state.output.Takes content.length := by
  obtain ⟨sink, hsink⟩ := Option.ne_none_iff_exists'.mp hsink
  unfold Step.Ends within
  rw [Step.result_ofRun]
  by_cases hroom : state.output.remaining < content.length
  · simp only [Output.narrow, hsink, hroom, if_true, Takes, reduceCtorEq, false_or]
    omega
  · have hinner := h { state with output := .ofSink sink content.length }
    simp only [Output.narrow, hsink, hroom, if_false, remeasured, Step.result_ofRun]
    unfold Step.Ends at hinner
    split at hinner
    · next value after hr =>
      obtain ⟨_, hc, -, rfl⟩ := hinner
      cases hc
      rw [hr]
      refine ⟨?_, .inr (by omega), ?_⟩
      · simp [Encoding.put, Output.put, charge, ofSink]
      · simp [Encoding.put, Output.put, charge, ofSink, rejoin, hsink]
    · next failure after hr =>
      refine absurd (.inr ?_) (hinner content rfl)
      simp [Output.remaining, ofSink]

/-- The length, and the second walk or the count in place of it. -/
theorem emits_rewalk (h : Emits message (.ok content)) (label : String) :
    Emits (do
      onWire (Wire.writeVarint (UInt64.ofNat content.length))
      if (← get).output.isSizing then onWire ((Output.skip content.length).mapFailure .stream)
      else
        let written ← within content.length (remeasured label content.length message)
        if written ≠ content.length then throw (.sizeMismatch label content.length written))
      (.ok (Wire.delimitedForm content)) := by
  refine Emits.seq_ok (emits_onWire (Wire.puts_write _)) fun state => ?_
  refine Step.Ends.bind (P := fun seen after => state = seen ∧ state = after) ⟨rfl, rfl⟩ ?_
  rintro _ _ ⟨rfl, rfl⟩
  refine Step.ends_ite (fun hsizing => ?_) fun hsizing => ?_
  · have hnone : state.output.sink = none := by simpa [isSizing] using hsizing
    unfold onWire onOutput
    refine Step.ends_onPart (Step.ends_mapFailure (Step.ends_mapFailure ?_))
    unfold Step.Ends Output.skip
    rw [Step.result_ofRun, hsizing, if_pos rfl]
    refine ⟨content, rfl, .inl hnone, ?_⟩
    simp [Encoding.put, Output.put, charge, hnone]
  · have hsink : state.output.sink ≠ none := by simpa [isSizing] using hsizing
    refine (Step.Ends.mono (ends_within h label hsink) (fun _ _ h => h) fun _ _ hno other ho => ?_).bind
      (P := fun written after => written = content.length ∧ state.output.Takes content.length ∧
        after = state.put content) ?_
    · cases ho
      exact hno
    · rintro written _ ⟨rfl, hroom, rfl⟩
      exact Step.ends_ite (fun hne => absurd rfl hne) fun _ => ⟨content, rfl, hroom, rfl⟩

theorem emits_sized (h : Emits message form) (label : String) :
    Emits (sized label message) (form.map Wire.delimitedForm) := by
  intro state
  unfold sized
  refine Step.Ends.bind (P := fun size after => ∃ content, form = .ok content ∧
    size = content.length ∧ state = after) ((ends_measure h state).mono ?_ ?_) ?_
  · rintro size after ⟨content, hf, hsize, rfl⟩
    exact ⟨content, hf, hsize, rfl⟩
  · intro failure _ hno content hc
    cases hf : form with
    | error failure => simp [hf, Except.map] at hc
    | ok content => exact absurd hf (hno content)
  · rintro _ _ ⟨content, rfl, rfl, rfl⟩
    exact emits_rewalk h label state

-- ---------------------------------------------------------------------------
-- Values and fields
-- ---------------------------------------------------------------------------

variable {schema : Schema Ref} {field : Field Ref} {size : Nat} {block stored : Bytes}
  {nested : Ref → Bytes → Encode Bytes S Unit} {forms : Ref → Bytes → Except CodecError Bytes}

theorem emits_value (hpos : 0 < field.tag) (hle : field.tag ≤ Wire.maxFieldNumber)
    (hn : ∀ inner, field.kind = .message inner → Emits (nested inner stored) (forms inner stored)) :
    Emits (value nested field stored) (field.valueForm forms stored) := by
  have htag : ∀ type, Emits (onWire (Wire.writeTag type field.tag) : Encode Bytes S Unit)
      (.ok (Wire.headerForm type field.tag)) := fun type =>
    emits_onWire (Wire.puts_writeTag hpos hle)
  have hlook : ∀ outcome : Except CodecError Bytes, Emits (do
      let content ← Step.ofExcept outcome
      onWire (Wire.writeTag .delimited field.tag)
      onWire (Wire.writeDelimited content) : Encode Bytes S Unit) (do
      let body ← outcome.map Wire.delimitedForm
      pure (Wire.headerForm .delimited field.tag ++ body)) := by
    intro outcome
    cases outcome with
    | error failure => exact fun state => Step.Ends.of_error rfl nofun
    | ok content => exact (htag .delimited).seq_ok (emits_onWire (Wire.puts_writeDelimited content))
  unfold value Field.valueForm Field.bodyForm
  cases hk : field.kind with
  | text => exact hlook (field.textBytes stored)
  | bytes => exact hlook (field.payload stored)
  | message inner => exact (htag .delimited).seq (emits_sized (hn inner hk) field.name)
  | _ =>
    refine (htag _).seq_ok (emits_onOutput ?_)
    exact Field.puts_writeScalar (by simp [hk, Kind.isScalar]) _

/-- The numbers of a laid array have a form, which is as long as the header in front of it says. -/
theorem puts_packedElements (hfits : field.Fits schema size) (hs : size ≤ block.length)
    (hm : field.multiplicity = .repeated) (hk : field.kind.isScalar = true) {index left : Nat}
    (hle : index + left ≤ field.capacity) :
    ∃ numbers, field.elementForms
        (fun stored => .ok (field.scalarForm (field.kind.loadScalar stored))) block index left =
          .ok numbers ∧
      Puts (packedElements field block index left) numbers ∧
      ∀ width, field.kind.wireLength? = some width → numbers.length = width * left := by
  induction left generalizing index with
  | zero => exact ⟨[], rfl, puts_pure, fun _ _ => rfl⟩
  | succ left ih =>
    have hp : field.Place .loose block (field.element index) :=
      Field.loose_element hm (by omega)
    obtain ⟨held, -, -, hload⟩ := load_place hfits hs hp
    obtain ⟨numbers, hform, hputs, hlen⟩ := ih (show index + 1 + left ≤ field.capacity by omega)
    refine ⟨field.scalarForm (field.kind.loadScalar held) ++ numbers, ?_, ?_, fun width hw => ?_⟩
    · rw [Field.elementForms, hload, bind_ok, bind_ok, hform]
      rfl
    · unfold packedElements
      rw [hload]
      exact (Field.puts_writeScalar hk _).seq hputs
    · rw [List.length_append, hlen width hw, Field.length_scalarForm hw, Nat.mul_succ, Nat.add_comm]

theorem puts_writePacked (hpos : 0 < field.tag) (hle : field.tag ≤ Wire.maxFieldNumber)
    {numbers : Step (Output Bytes) CodecError Unit} (hputs : Puts numbers content) {count : Nat}
    (hlen : ∀ width, field.kind.wireLength? = some width → content.length = width * count) :
    Puts (field.writePacked count numbers) (field.packForm content) := by
  have hlength : ∀ output : Output Bytes,
      (field.packedLength count numbers).result output = (.ok content.length, output) := by
    intro output
    unfold Field.packedLength
    split
    · next width hw =>
      rw [hlen width hw]
      rfl
    · exact measure_of_puts hputs output
  intro output
  unfold Field.writePacked Step.Ends
  rw [Step.result_bind_ok (hlength output)]
  exact Puts.seq ((Wire.puts_writeTag hpos hle).mapFailure _)
    (Puts.seq ((Wire.puts_write _).mapFailure _) hputs) output

/-- The values of the field have the forms that the forms of messages give them. -/
def Formed (nested : Ref → Bytes → Encode Bytes S Unit)
    (forms : Ref → Bytes → Except CodecError Bytes) (field : Field Ref) (block : Bytes) : Prop :=
  ∀ span stored, field.Place .loose block span → block.slice? span = some stored →
    Emits (value nested field stored) (field.valueForm forms stored)

theorem emits_elements (hfits : field.Fits schema size) (hs : size ≤ block.length)
    (hm : field.multiplicity = .repeated) (hf : Formed nested forms field block) {index left : Nat}
    (hle : index + left ≤ field.capacity) :
    Emits (elements nested field block index left)
      (field.elementForms (field.valueForm forms) block index left) := by
  induction left generalizing index with
  | zero => exact emits_pure
  | succ left ih =>
    have hp : field.Place .loose block (field.element index) :=
      Field.loose_element hm (by omega)
    obtain ⟨held, hheld, -, hload⟩ := load_place hfits hs hp
    unfold elements Field.elementForms
    rw [hload]
    exact (hf _ held hp hheld).seq (ih (by omega))

theorem emits_array (hfits : field.Fits schema size) (hs : size ≤ block.length)
    (hm : field.multiplicity = .repeated) (hpos : 0 < field.tag)
    (hle : field.tag ≤ Wire.maxFieldNumber) (hf : Formed nested forms field block) :
    Emits (array nested field block) (field.arrayForm forms block) := by
  unfold array Field.arrayForm
  refine emits_look fun count _ => ?_
  by_cases hzero : count = 0
  · simp only [hzero, if_true]
    exact emits_pure
  by_cases hfull : field.capacity < count
  · simp only [hzero, hfull, if_true, if_false]
    exact emits_throw _ _
  simp only [hzero, hfull, if_false]
  by_cases hp : field.packed ∧ field.kind.isScalar
  · obtain ⟨numbers, hform, hputs, hlen⟩ :=
      puts_packedElements hfits hs hm hp.2 (show 0 + count ≤ field.capacity by omega)
    rw [if_pos hp, if_pos hp, hform]
    exact emits_onOutput (puts_writePacked hpos hle hputs hlen)
  · rw [if_neg hp, if_neg hp]
    exact emits_elements hfits hs hm hf (by omega)

theorem emits_stored (hfits : field.Fits schema size) (hs : size ≤ block.length)
    (hpos : 0 < field.tag) (hle : field.tag ≤ Wire.maxFieldNumber)
    (hf : Formed nested forms field block) :
    Emits (Encode.stored nested field block) (field.wireForm forms block) := by
  unfold Encode.stored
  split
  · next hm =>
    rw [Field.wireForm_array forms hfits.inBlock hm]
    exact emits_array hfits hs hm hpos hle hf
  · next hm =>
    rw [Field.wireForm_single forms hfits.inBlock hm]
    refine emits_look fun present hpresent => ?_
    cases present with
    | false => exact emits_pure
    | true =>
      have hp := (Field.place_of_present hm hpresent).loosen
      obtain ⟨held, hheld, -, hload⟩ := load_place hfits hs hp
      simp only [if_true]
      rw [hload]
      exact hf _ held hp hheld

variable [Handler Ref S] {config : EncodeConfig} {ref : Ref} {levels : Nat}

theorem emits_fields {fields : List (Field Ref)} (depth : Nat)
    (hh : ∀ field ∈ fields, field.isHandled = true → field.handlerSlot block = .ok 0)
    (hs : ∀ field ∈ fields, field.isHandled = false →
      Emits (Encode.stored nested field block) (field.wireForm forms block)) :
    Emits (Encode.fields config nested depth block fields) (Field.wireForms forms block fields) := by
  induction fields with
  | nil => exact emits_pure
  | cons field rest ih =>
    have hrest := ih (fun other ho => hh other (by simp [ho])) fun other ho => hs other (by simp [ho])
    unfold Encode.fields Field.wireForms
    cases hhandled : field.isHandled with
    | true =>
      have hnone : Emits (handled config depth field block : Encode Bytes S Unit) (.ok []) := by
        unfold handled
        rw [hh field (by simp) hhandled]
        exact emits_pure
      rw [Field.wireForm, if_pos hhandled]
      exact hnone.seq hrest
    | false => exact (hs field (by simp) hhandled).seq hrest

/-- A message has the form of its block when the messages in its fields have theirs and no handled field
writes anything. -/
theorem emits_message {depth : Nat} (hfits : (schema ref).Fits schema)
    (hh : (schema ref).size ≤ block.length → ∀ field ∈ (schema ref).fields, field.isHandled = true →
      field.handlerSlot block = .ok 0)
    (hn : ∀ field ∈ (schema ref).fields, field.isHandled = false → ∀ inner, field.kind = .message inner →
      ∀ span stored, field.Place .loose block span → block.slice? span = some stored →
        Emits (messageWithin schema config depth inner stored : Encode Bytes S Unit)
          (schema.wireForm config depth inner stored)) :
    Emits (messageWithin schema config (depth + 1) ref block : Encode Bytes S Unit)
      (schema.wireForm config (depth + 1) ref block) := by
  unfold messageWithin Schema.wireForm
  refine emits_look fun _ hcheck => ?_
  have hs : (schema ref).size ≤ block.length := Table.checkBlock_le hcheck
  refine emits_fields _ (hh hs) fun field hf hin => ?_
  refine emits_stored (hfits.stored field hf hin) hs (hfits.tag_pos field hf) (hfits.tag_le field hf) ?_
  intro span stored hp hstored
  exact emits_value (hfits.tag_pos field hf) (hfits.tag_le field hf) fun inner hk =>
    hn field hf hin inner hk span stored hp hstored

/-- With no handled field bound, the encoder emits the wire form of a block. -/
theorem emits_messageWithin (hlaid : schema.Laid levels ref)
    (hu : Decode.Unbound schema ref block) (depth : Nat) :
    Emits (messageWithin schema config depth ref block : Encode Bytes S Unit)
      (schema.wireForm config depth ref block) := by
  induction hlaid generalizing block depth with
  | @intro levels ref hl _ ih =>
    cases depth with
    | zero => exact emits_throw _ _
    | succ depth =>
      refine emits_message hl.toFits (fun hs field hf hh => Decode.handlerSlot_of_unbound hu hl hs hf hh)
        fun field hf hh inner hk span stored hp hstored => ?_
      exact ih inner (Table.mem_nested hf hh hk) (Decode.unbound_of_place hu hf hh hk hp hstored) _

/-- Without handled fields it does not take more than that the storage fits. -/
theorem emits_messageWithin_of_fits (hfits : schema.Throughout (Table.Fits schema) ref)
    (hu : schema.Throughout Table.Unhandled ref) (depth : Nat) :
    Emits (messageWithin schema config depth ref block : Encode Bytes S Unit)
      (schema.wireForm config depth ref block) := by
  induction depth generalizing ref block with
  | zero => exact emits_throw _ _
  | succ depth ih =>
    refine emits_message hfits.here (fun _ field hf hh => ?_) fun field hf hh inner hk span stored _ _ => ?_
    · exact absurd hh (by simp [hu.here field hf])
    · have hinner := Table.mem_nested hf hh hk
      exact ih (hfits.nested hinner) (hu.nested hinner)

end Encode

end BlockCodec
