import BlockCodec.Proofs.Reach

/-!
# One encoding for every output

The encoder runs over outputs that only count, over byte strings that grow and over buffers of
fixed length. A step `Spells` bytes and an outcome: it appends the bytes and ends so where they fit,
and ends in the limit where they do not. Two runs of one step over different sinks `Concur` when
they spell the same. Nothing is asked of the tables, so the outcome may be any failure, in the
middle of what is spelled. One run `Curtails` the other when it spells the same, or gives up in the
middle of it for a reason of its own; encoders of which the levels differ are so related.
-/

namespace BlockCodec

variable {Ref S κ κ' s t α : Type}

/-- The limit of an output was crossed. -/
def CodecError.IsLimit (failure : CodecError) : Prop :=
  ∃ requested left, failure = .wire (.stream (.limitExceeded requested left))

-- ---------------------------------------------------------------------------
-- Sinks that know their room
-- ---------------------------------------------------------------------------

/-- A sink that takes what it has room for. -/
class Store (κ : Type) [Sink κ] where
  HasRoom : κ → Nat → Prop
  append : κ → Bytes → κ
  write_eq : ∀ {sink bytes}, HasRoom sink bytes.length → Sink.write sink bytes = (.ok (), append sink bytes)
  hasRoom_append : ∀ {sink bytes count}, HasRoom sink (bytes.length + count) →
    HasRoom (append sink bytes) count
  hasRoom_mono : ∀ {sink count more}, HasRoom sink more → count ≤ more → HasRoom sink count
  append_nil : ∀ sink, append sink [] = sink
  append_append : ∀ sink a b, append (append sink a) b = append sink (a ++ b)

instance : Store Bytes where
  HasRoom _ _ := True
  append content bytes := content ++ bytes
  write_eq _ := rfl
  hasRoom_append _ := trivial
  hasRoom_mono _ _ := trivial
  append_nil := List.append_nil
  append_append := List.append_assoc

instance : Store FixedBuffer where
  HasRoom buffer count := count ≤ buffer.room.length
  append buffer bytes := ⟨buffer.filled ++ bytes, buffer.room.drop bytes.length⟩
  write_eq h := if_neg (Nat.not_lt.mpr h)
  hasRoom_append h := by
    rw [List.length_drop]
    omega
  hasRoom_mono h hle := hle.trans h
  append_nil buffer := by simp
  append_append buffer a b := by simp

theorem FixedBuffer.content_append (content bytes : Bytes) :
    (Store.append (ofBytes content) bytes).content = bytes ++ content.drop bytes.length := rfl

namespace Output

variable [Sink κ] [Store κ] {output : Output κ} {a b : Bytes}

/-- The sink has room for all that the limit lets through. -/
def Backed (output : Output κ) : Prop :=
  ∀ sink, output.sink = some sink → Store.HasRoom sink output.remaining

def extend (output : Output κ) (content : Bytes) : Output κ :=
  { output with sink := output.sink.map (Store.append · content) }.charge content.length

omit [Sink κ] [Store κ] in
theorem not_takes {sink : κ} {count : Nat} (hs : output.sink = some sink)
    (hlt : output.remaining < count) : ¬output.Takes count := by
  rintro (hnone | hle)
  · simp [hs] at hnone
  · omega

theorem backed_sizing : (sizing : Output κ).Backed := nofun

theorem Backed.extend (h : output.Backed) (hroom : output.Takes a.length) :
    (output.extend a).Backed := by
  rcases output with ⟨_ | sink, limit, written⟩
  · exact nofun
  · have hle : a.length ≤ limit - written := hroom.resolve_left nofun
    rintro _ ⟨⟩
    refine Store.hasRoom_append (Store.hasRoom_mono (h sink rfl) ?_)
    show a.length + (limit - (written + a.length)) ≤ limit - written
    omega

theorem Backed.narrow (h : output.Backed) {sink : κ} (hs : output.sink = some sink) {length : Nat}
    (hle : length ≤ output.remaining) : (ofSink sink length).Backed := by
  rintro _ ⟨⟩
  exact Store.hasRoom_mono (h sink hs) hle

theorem extend_nil (output : Output κ) : output.extend [] = output := by
  rcases output with ⟨_ | sink, limit, written⟩ <;>
    simp [Output.extend, charge, Store.append_nil]

theorem extend_extend (output : Output κ) (a b : Bytes) :
    (output.extend a).extend b = output.extend (a ++ b) := by
  rcases output with ⟨_ | sink, limit, written⟩ <;>
    simp [Output.extend, charge, Store.append_append, Nat.add_assoc]

theorem takes_extend (output : Output κ) (a b : Bytes) :
    output.Takes (a ++ b).length ↔ output.Takes a.length ∧ (output.extend a).Takes b.length := by
  rcases output with ⟨_ | sink, limit, written⟩
  · simp [Takes, Output.extend, charge]
  · simp only [Takes, Output.extend, charge, remaining, List.length_append, Option.map_some,
      reduceCtorEq, false_or]
    omega

end Output

-- ---------------------------------------------------------------------------
-- Steps that spell
-- ---------------------------------------------------------------------------

/-- States with an output in them. -/
class Carrier (s : Type) (κ : outParam Type) where
  output : s → Output κ
  onto : Output κ → s → s
  output_onto : ∀ out state, output (onto out state) = out
  onto_output : ∀ state, onto (output state) state = state
  onto_onto : ∀ out before state, onto out (onto before state) = onto out state

instance : Carrier (Output κ) κ where
  output := id
  onto out _ := out
  output_onto _ _ := rfl
  onto_output _ := rfl
  onto_onto _ _ _ := rfl

instance : Carrier (Encoding κ S) κ where
  output := Encoding.output
  onto output state := { state with output }
  output_onto _ _ := rfl
  onto_output _ := rfl
  onto_onto _ _ _ := rfl

open Carrier (output onto)

section

variable [Carrier s κ] [Sink κ] [Store κ] {step : Step s CodecError Unit} {a b content : Bytes}
  {outcome : Except CodecError Unit} {failure : CodecError}

def extend (state : s) (content : Bytes) : s := onto ((output state).extend content) state

theorem output_extend (state : s) (content : Bytes) :
    output (extend state content) = (output state).extend content := Carrier.output_onto _ _

theorem extend_nil (state : s) : extend state [] = state := by
  rw [extend, Output.extend_nil, Carrier.onto_output]

theorem extend_extend (state : s) (a b : Bytes) :
    extend (extend state a) b = extend state (a ++ b) := by
  rw [extend, output_extend, Output.extend_extend, extend, Carrier.onto_onto, extend]

/-- The step appends these bytes and ends in this outcome, or in the limit if they do not fit. -/
structure Spells (content : Bytes) (outcome : Except CodecError Unit)
    (step : Step s CodecError Unit) : Prop where
  fits : ∀ state, (output state).Backed → (output state).Takes content.length →
    step.result state = (outcome, extend state content)
  overruns : ∀ state, (output state).Backed → ¬(output state).Takes content.length →
    step.Ends state (fun _ _ => False) fun failure _ => failure.IsLimit

theorem spells_nil (h : ∀ state, step.result state = (outcome, state)) : Spells [] outcome step where
  fits state _ _ := by rw [h, extend_nil]
  overruns state _ hno := absurd (.inr (Nat.zero_le _)) hno

theorem Spells.seq {next : Unit → Step s CodecError Unit} (ha : Spells a (.ok ()) step)
    (hb : Spells b outcome (next ())) : Spells (a ++ b) outcome (step >>= next) where
  fits state hbacked hroom := by
    obtain ⟨hra, hrb⟩ := (Output.takes_extend _ a b).mp hroom
    rw [Step.result_bind_ok (ha.fits state hbacked hra), hb.fits, extend_extend]
    · rw [output_extend]
      exact hbacked.extend hra
    · rwa [output_extend]
  overruns state hbacked hno := by
    by_cases hra : (output state).Takes a.length
    · have hrb : ¬((output state).extend a).Takes b.length := fun hrb =>
        hno ((Output.takes_extend _ a b).mpr ⟨hra, hrb⟩)
      refine (hb.overruns (extend state a) ?_ ?_).congr (Step.result_bind_ok (ha.fits state hbacked hra))
      · rw [output_extend]
        exact hbacked.extend hra
      · rwa [output_extend]
    · exact (ha.overruns state hbacked hra).bind fun _ _ h => h.elim

theorem Spells.stop {next : Unit → Step s CodecError Unit} (h : Spells a (.error failure) step) :
    Spells a (.error failure) (step >>= next) where
  fits state hbacked hroom := Step.result_bind_error (h.fits state hbacked hroom)
  overruns state hbacked hno := (h.overruns state hbacked hno).bind fun _ _ h => h.elim

theorem Spells.congr {other : Step s CodecError Unit} (h : Spells content outcome other)
    (hr : ∀ state, step.result state = other.result state) : Spells content outcome step where
  fits state hbacked hroom := (hr state).trans (h.fits state hbacked hroom)
  overruns state hbacked hno := (h.overruns state hbacked hno).congr (hr state)

/-- The step looks at something and leaves the state alone. -/
def Looks (outcome : Except CodecError α) (step : Step s CodecError α) : Prop :=
  ∀ state, step.result state = (outcome, state)

theorem looks_ofExcept (outcome : Except CodecError α) :
    Looks outcome (Step.ofExcept outcome : Step s CodecError α) := fun _ => rfl

theorem spells_write (content : Bytes) :
    Spells content (.ok ()) ((Wire.write content).mapFailure .wire : Step (Output κ) CodecError Unit) where
  fits := by
    rintro ⟨_ | sink, limit, written⟩ hbacked hroom
    · rfl
    · have hle : content.length ≤ limit - written := hroom.resolve_left nofun
      have hwrite := Store.write_eq (Store.hasRoom_mono (hbacked sink rfl) hle)
      simp only [Wire.write, Output.write, Step.result_mapFailure, Step.result_ofRun, Output.remaining,
        Nat.not_lt.mpr hle, if_false, hwrite]
      rfl
  overruns := by
    rintro ⟨_ | sink, limit, written⟩ hbacked hno
    · exact absurd (.inl rfl) hno
    · have hlt : limit - written < content.length := Nat.lt_of_not_le fun hle => hno (.inr hle)
      have hwrite : ((Wire.write content).mapFailure CodecError.wire).result ⟨some sink, limit, written⟩ =
          (.error (.stream (.limitExceeded content.length (limit - written))),
            ⟨some sink, limit, written⟩) := by
        simp only [Wire.write, Output.write, Step.result_mapFailure, Step.result_ofRun, Output.remaining,
          hlt, if_true]
        rfl
      exact .of_error hwrite ⟨content.length, limit - written, rfl⟩

theorem Output.looks_measure {step : Step (Output κ) CodecError Unit}
    (h : Spells content outcome step) :
    Looks (outcome.map fun _ => content.length) (Output.measure step) := by
  intro out
  have hr := h.fits .sizing Output.backed_sizing (.inl rfl)
  rw [measure, Step.result_ofRun, hr]
  simp [BlockCodec.extend, onto, Carrier.output, Output.extend, charge, sizing]

end

-- ---------------------------------------------------------------------------
-- Messages inside
-- ---------------------------------------------------------------------------

namespace Encode

variable [Sink κ] [Store κ] {message : Encode κ S Unit} {content : Bytes} {failure : CodecError}

theorem spells_onOutput {step : Step (Output κ) CodecError Unit} {outcome : Except CodecError Unit}
    (h : Spells content outcome step) : Spells content outcome (onOutput step : Encode κ S Unit) where
  fits state hbacked hroom := by
    rw [onOutput, Step.result_onPart, h.fits state.output hbacked hroom]
    rfl
  overruns state hbacked hno := Step.ends_onPart (h.overruns state.output hbacked hno)

/-- What is measured is what would be spelled. -/
theorem looks_measure {outcome : Except CodecError Unit} (h : Spells content outcome message) :
    Looks (outcome.map fun _ => content.length) (measure message) := by
  intro state
  have hr := h.fits { state with output := .sizing } Output.backed_sizing (.inl rfl)
  rw [measure, Step.result_ofRun, hr]
  simp [extend, onto, output, Output.extend, Output.charge, Output.sizing]

/-- The second walk, or the count in its place, spells what was measured. -/
theorem spells_rewalk (h : Spells content (.ok ()) message) (label : String) :
    Spells (Wire.delimitedForm content) (.ok ()) (do
      onWire (Wire.writeVarint (UInt64.ofNat content.length))
      if (← get).output.isSizing then onWire ((Output.skip content.length).mapFailure .stream)
      else
        let written ← within content.length (remeasured label content.length message)
        if written ≠ content.length then throw (.sizeMismatch label content.length written) :
        Encode κ S Unit) := by
  refine (spells_onOutput (spells_write _)).seq ⟨?fits, ?overruns⟩
  case fits =>
    rintro ⟨⟨_ | sink, limit, written⟩, handlers⟩ hbacked hroom
    · rfl
    have hle : content.length ≤ limit - written := hroom.resolve_left nofun
    have hinner := h.fits ⟨.ofSink sink content.length, handlers⟩ (hbacked.narrow rfl hle)
      (.inr (Nat.le_refl content.length))
    have hwithin : (within content.length (remeasured label content.length message)).result
        ⟨⟨some sink, limit, written⟩, handlers⟩ =
          (.ok content.length, extend ⟨⟨some sink, limit, written⟩, handlers⟩ content) := by
      simp only [within, remeasured, Step.result_ofRun, Output.narrow, Output.remaining,
        Nat.not_lt.mpr hle, if_false, hinner]
      simp [extend, onto, output, Output.extend, Output.charge, Output.ofSink, Output.rejoin]
    rw [Step.result_bind_ok (Step.result_get _), if_neg (by simp [Output.isSizing]),
      Step.result_bind_ok hwithin, if_neg (by simp)]
    rfl
  case overruns =>
    rintro ⟨⟨_ | sink, limit, written⟩, handlers⟩ hbacked hno
    · exact absurd (.inl rfl) hno
    have hlt : limit - written < content.length := Nat.lt_of_not_le fun hle => hno (.inr hle)
    have hwithin : (within content.length (remeasured label content.length message)).Ends
        ⟨⟨some sink, limit, written⟩, handlers⟩ (fun _ _ => False) fun failure _ => failure.IsLimit := by
      unfold Step.Ends
      simp only [within, Step.result_ofRun, Output.narrow, Output.remaining, hlt, if_true]
      exact ⟨content.length, limit - written, rfl⟩
    refine .congr ?_ (Step.result_bind_ok (Step.result_get _))
    rw [if_neg (by simp [Output.isSizing])]
    exact hwithin.bind fun _ _ h => h.elim

theorem spells_sized (h : Spells content (.ok ()) message) (label : String) :
    Spells (Wire.delimitedForm content) (.ok ()) (sized label message) := by
  exact (spells_rewalk h label).congr fun state => Step.result_bind_ok (looks_measure h state)

theorem spells_sized_error (h : Spells content (.error failure) message) (label : String) :
    Spells [] (.error failure) (sized label message) :=
  spells_nil fun state => Step.result_bind_error (looks_measure h state)

end Encode

-- ---------------------------------------------------------------------------
-- Two sinks
-- ---------------------------------------------------------------------------

/-- The steps spell the same, each on its own output. -/
def Concurs [Carrier s κ] [Sink κ] [Store κ] [Carrier t κ'] [Sink κ'] [Store κ']
    (step : Step s CodecError Unit) (other : Step t CodecError Unit) : Prop :=
  ∃ content outcome, Spells content outcome step ∧ Spells content outcome other

section

variable [Carrier s κ] [Sink κ] [Store κ] [Carrier t κ'] [Sink κ'] [Store κ']
  {step : Step s CodecError Unit} {other : Step t CodecError Unit}

theorem concurs_pure : Concurs (pure () : Step s CodecError Unit) (pure () : Step t CodecError Unit) :=
  ⟨[], .ok (), spells_nil fun _ => rfl, spells_nil fun _ => rfl⟩

theorem concurs_throw (failure : CodecError) :
    Concurs (throw failure : Step s CodecError Unit) (throw failure : Step t CodecError Unit) :=
  ⟨[], .error failure, spells_nil fun _ => rfl, spells_nil fun _ => rfl⟩

theorem Concurs.seq {next : Unit → Step s CodecError Unit} {after : Unit → Step t CodecError Unit}
    (h : Concurs step other) (hn : Concurs (next ()) (after ())) :
    Concurs (step >>= next) (other >>= after) := by
  obtain ⟨a, outcome, ha, ha'⟩ := h
  cases outcome with
  | ok =>
    obtain ⟨b, outcome, hb, hb'⟩ := hn
    exact ⟨a ++ b, outcome, ha.seq hb, ha'.seq hb'⟩
  | error failure => exact ⟨a, .error failure, ha.stop, ha'.stop⟩

theorem Concurs.look {outcome : Except CodecError α} {look : Step s CodecError α}
    {look' : Step t CodecError α} {next : α → Step s CodecError Unit}
    {after : α → Step t CodecError Unit} (h : Looks outcome look) (h' : Looks outcome look')
    (hn : ∀ value, outcome = .ok value → Concurs (next value) (after value)) :
    Concurs (look >>= next) (look' >>= after) := by
  cases outcome with
  | ok value =>
    obtain ⟨content, outcome, hc, hc'⟩ := hn value rfl
    exact ⟨content, outcome, hc.congr fun state => Step.result_bind_ok (h state),
      hc'.congr fun state => Step.result_bind_ok (h' state)⟩
  | error failure =>
    exact ⟨[], .error failure, spells_nil fun state => Step.result_bind_error (h state),
      spells_nil fun state => Step.result_bind_error (h' state)⟩

theorem concurs_look (outcome : Except CodecError α) {next : α → Step s CodecError Unit}
    {after : α → Step t CodecError Unit}
    (hn : ∀ value, outcome = .ok value → Concurs (next value) (after value)) :
    Concurs (Step.ofExcept outcome >>= next) (Step.ofExcept outcome >>= after) :=
  .look (looks_ofExcept outcome) (looks_ofExcept outcome) hn

end

-- ---------------------------------------------------------------------------
-- Steps that give up before
-- ---------------------------------------------------------------------------

/-- The other step spells what this one does, or the front of it and one of these failures. -/
def Curtails [Carrier s κ] [Sink κ] [Store κ] [Carrier t κ'] [Sink κ'] [Store κ']
    (E : CodecError → Prop) (step : Step s CodecError Unit) (other : Step t CodecError Unit) : Prop :=
  ∃ content outcome, Spells content outcome step ∧ (Spells content outcome other ∨
    ∃ part failure, part <+: content ∧ E failure ∧ Spells part (.error failure) other)

section

variable [Carrier s κ] [Sink κ] [Store κ] [Carrier t κ'] [Sink κ'] [Store κ']
  {step : Step s CodecError Unit} {other : Step t CodecError Unit} {E : CodecError → Prop}

theorem Concurs.curtails (h : Concurs step other) : Curtails E step other := by
  obtain ⟨content, outcome, hs, ho⟩ := h
  exact ⟨content, outcome, hs, .inl ho⟩

/-- Without a reason to give up, the steps concur. -/
theorem Curtails.concurs (h : Curtails (fun _ => False) step other) : Concurs step other := by
  obtain ⟨content, outcome, hs, ho | ⟨_, _, _, hfalse, _⟩⟩ := h
  · exact ⟨content, outcome, hs, ho⟩
  · exact hfalse.elim

theorem Curtails.seq {next : Unit → Step s CodecError Unit} {after : Unit → Step t CodecError Unit}
    (h : Curtails E step other) (hn : Curtails E (next ()) (after ())) :
    Curtails E (step >>= next) (other >>= after) := by
  obtain ⟨a, outcome, ha, ha'⟩ := h
  cases outcome with
  | ok =>
    obtain ⟨b, outcome, hb, hb'⟩ := hn
    refine ⟨a ++ b, outcome, ha.seq hb, ?_⟩
    rcases ha' with ha' | ⟨part, failure, hpart, he, ha'⟩
    · refine hb'.imp ha'.seq ?_
      rintro ⟨part, failure, hpart, he, hb'⟩
      exact ⟨a ++ part, failure, (List.prefix_append_right_inj a).mpr hpart, he, ha'.seq hb'⟩
    · exact .inr ⟨part, failure, hpart.trans (List.prefix_append a b), he, ha'.stop⟩
  | error reason =>
    refine ⟨a, .error reason, ha.stop, ha'.imp Spells.stop ?_⟩
    rintro ⟨part, failure, hpart, he, ha'⟩
    exact ⟨part, failure, hpart, he, ha'.stop⟩

theorem curtails_look (outcome : Except CodecError α) {next : α → Step s CodecError Unit}
    {after : α → Step t CodecError Unit}
    (hn : ∀ value, outcome = .ok value → Curtails E (next value) (after value)) :
    Curtails E (Step.ofExcept outcome >>= next) (Step.ofExcept outcome >>= after) := by
  have hlook := fun state : s => looks_ofExcept outcome state
  have hlook' := fun state : t => looks_ofExcept outcome state
  cases outcome with
  | error reason => exact (concurs_look (.error reason) nofun).curtails
  | ok value =>
    obtain ⟨content, outcome, hc, hc'⟩ := hn value rfl
    refine ⟨content, outcome, hc.congr fun state => Step.result_bind_ok (hlook state), ?_⟩
    refine hc'.imp (fun hc' => hc'.congr fun state => Step.result_bind_ok (hlook' state)) ?_
    rintro ⟨part, failure, hpart, he, hc'⟩
    exact ⟨part, failure, hpart, he, hc'.congr fun state => Step.result_bind_ok (hlook' state)⟩

theorem curtails_ite {c : Prop} [Decidable c] {step' : Step s CodecError Unit}
    {other' : Step t CodecError Unit} (hy : Curtails E step other) (hn : Curtails E step' other') :
    Curtails E (if c then step else step') (if c then other else other') := by
  split
  · exact hy
  · exact hn

end

-- ---------------------------------------------------------------------------
-- The encoder over two sinks
-- ---------------------------------------------------------------------------

section

variable [Sink κ] [Store κ] [Sink κ'] [Store κ']

theorem Wire.concurs_write (content : Bytes) :
    Concurs ((Wire.write content).mapFailure .wire : Step (Output κ) CodecError Unit)
      ((Wire.write content).mapFailure .wire : Step (Output κ') CodecError Unit) :=
  ⟨content, .ok (), spells_write content, spells_write content⟩

/-- A header that has no form fails alike. -/
theorem Wire.concurs_writeTag (type : WireType) (tag : Nat) :
    Concurs ((Wire.writeTag type tag).mapFailure .wire : Step (Output κ) CodecError Unit)
      ((Wire.writeTag type tag).mapFailure .wire : Step (Output κ') CodecError Unit) := by
  unfold Wire.writeTag
  split
  · exact concurs_throw (.wire (.invalidFieldNumber tag))
  · exact Wire.concurs_write _

theorem Wire.concurs_writeDelimited (content : Bytes) :
    Concurs ((Wire.writeDelimited content).mapFailure .wire : Step (Output κ) CodecError Unit)
      ((Wire.writeDelimited content).mapFailure .wire : Step (Output κ') CodecError Unit) := by
  unfold Wire.writeDelimited
  rw [Step.mapFailure_bind, Step.mapFailure_bind]
  exact (Wire.concurs_write _).seq (Wire.concurs_write content)

theorem Field.concurs_writeScalar (field : Field Ref) (value : Scalar) :
    Concurs (field.writeScalar value : Step (Output κ) CodecError Unit)
      (field.writeScalar value : Step (Output κ') CodecError Unit) := by
  unfold Field.writeScalar
  generalize field.kind = kind
  cases kind with
  | text | bytes | message => exact concurs_throw field.notNumeric
  | fixed type =>
    obtain ⟨width, signed⟩ := type
    cases width <;> exact Wire.concurs_write _
  | float width => cases width <;> exact Wire.concurs_write _
  | _ => exact Wire.concurs_write _

namespace Encode

variable {E : CodecError → Prop}

theorem concurs_onOutput {step : Step (Output κ) CodecError Unit}
    {other : Step (Output κ') CodecError Unit} (h : Concurs step other) :
    Concurs (onOutput step : Encode κ S Unit) (onOutput other : Encode κ' S Unit) := by
  obtain ⟨content, outcome, hs, ho⟩ := h
  exact ⟨content, outcome, spells_onOutput hs, spells_onOutput ho⟩

theorem curtails_sized {message : Encode κ S Unit} {other : Encode κ' S Unit}
    (h : Curtails E message other) (label : String) :
    Curtails E (sized label message) (sized label other) := by
  obtain ⟨content, outcome, hm, ho⟩ := h
  have hcut : (∃ part failure, part <+: content ∧ E failure ∧ Spells part (.error failure) other) →
      ∀ whole : Bytes, ∃ part failure, part <+: whole ∧ E failure ∧
        Spells part (.error failure) (sized label other) := by
    rintro ⟨part, failure, -, he, ho⟩ whole
    exact ⟨[], failure, whole.nil_prefix, he, spells_sized_error ho label⟩
  cases outcome with
  | ok => exact ⟨_, _, spells_sized hm label, ho.imp (spells_sized · label) fun h => hcut h _⟩
  | error => exact ⟨_, _, spells_sized_error hm label, ho.imp (spells_sized_error · label) fun h => hcut h _⟩

theorem concurs_sized {message : Encode κ S Unit} {other : Encode κ' S Unit}
    (h : Concurs message other) (label : String) :
    Concurs (sized label message) (sized label other) :=
  (curtails_sized h.curtails label).concurs

variable {field : Field Ref} {block : Bytes} {nested : Ref → Bytes → Encode κ S Unit}
  {nested' : Ref → Bytes → Encode κ' S Unit}

/-- The messages inside curtail each other, for the references of a table. -/
def Alike (E : CodecError → Prop) (nested : Ref → Bytes → Encode κ S Unit)
    (nested' : Ref → Bytes → Encode κ' S Unit) (field : Field Ref) : Prop :=
  ∀ inner, field.kind = .message inner → ∀ stored, Curtails E (nested inner stored) (nested' inner stored)

theorem curtails_value (hn : Alike E nested nested' field) (stored : Bytes) :
    Curtails E (value nested field stored) (value nested' field stored) := by
  have htag : ∀ type, Concurs (onWire (Wire.writeTag type field.tag) : Encode κ S Unit)
      (onWire (Wire.writeTag type field.tag) : Encode κ' S Unit) := fun type =>
    concurs_onOutput (Wire.concurs_writeTag type field.tag)
  unfold value
  cases hk : field.kind with
  | text =>
    refine curtails_look _ fun text _ => ((htag _).seq ?_).curtails
    exact concurs_onOutput (Wire.concurs_writeDelimited text)
  | bytes =>
    refine curtails_look _ fun payload _ => ((htag _).seq ?_).curtails
    exact concurs_onOutput (Wire.concurs_writeDelimited payload)
  | message inner => exact (htag _).curtails.seq (curtails_sized (hn inner hk stored) field.name)
  | _ => exact ((htag _).seq (concurs_onOutput (field.concurs_writeScalar _))).curtails

theorem concurs_packedElements (field : Field Ref) (block : Bytes) (index left : Nat) :
    Concurs (packedElements field block index left : Step (Output κ) CodecError Unit)
      (packedElements field block index left : Step (Output κ') CodecError Unit) := by
  induction left generalizing index with
  | zero => exact concurs_pure
  | succ left ih => exact concurs_look _ fun stored _ => (field.concurs_writeScalar _).seq (ih (index + 1))

/-- The length in front of packed numbers is the same by count and by measure, for whichever of the
two it is. -/
theorem concurs_writePacked {numbers : Step (Output κ) CodecError Unit}
    {numbers' : Step (Output κ') CodecError Unit} (h : Concurs numbers numbers') (count : Nat) :
    Concurs (field.writePacked count numbers) (field.writePacked count numbers') := by
  have hrest : ∀ length, Concurs (do
      (Wire.writeTag .delimited field.tag).mapFailure .wire
      (Wire.writeVarint (UInt64.ofNat length)).mapFailure .wire
      numbers) (do
      (Wire.writeTag .delimited field.tag).mapFailure .wire
      (Wire.writeVarint (UInt64.ofNat length)).mapFailure .wire
      numbers') := fun length =>
    (Wire.concurs_writeTag _ _).seq ((Wire.concurs_write _).seq h)
  obtain ⟨content, outcome, hs, ho⟩ := h
  unfold Field.writePacked Field.packedLength
  cases field.kind.wireLength? with
  | some width => exact hrest (width * count)
  | none => exact .look (Output.looks_measure hs) (Output.looks_measure ho) fun length _ => hrest length

theorem curtails_elements (hn : Alike E nested nested' field) (block : Bytes) (index left : Nat) :
    Curtails E (elements nested field block index left) (elements nested' field block index left) := by
  induction left generalizing index with
  | zero => exact concurs_pure.curtails
  | succ left ih => exact curtails_look _ fun stored _ => (curtails_value hn stored).seq (ih (index + 1))

theorem curtails_array (hn : Alike E nested nested' field) (block : Bytes) :
    Curtails E (array nested field block) (array nested' field block) := by
  refine curtails_look _ fun count _ => curtails_ite concurs_pure.curtails ?_
  refine curtails_ite (concurs_throw _).curtails (curtails_ite ?_ (curtails_elements hn block 0 count))
  have hnumbers : Concurs (packedElements field block 0 count : Step (Output κ) CodecError Unit)
      (packedElements field block 0 count : Step (Output κ') CodecError Unit) :=
    concurs_packedElements field block 0 count
  exact (concurs_onOutput (concurs_writePacked hnumbers count)).curtails

theorem curtails_stored (hn : Alike E nested nested' field) (block : Bytes) :
    Curtails E (stored nested field block) (stored nested' field block) := by
  unfold stored
  split
  · exact curtails_array hn block
  · refine curtails_look _ fun present _ => curtails_ite ?_ concurs_pure.curtails
    exact curtails_look _ fun stored _ => curtails_value hn stored

variable [Handler Ref S] {config config' : EncodeConfig} {depth depth' : Nat}

/-- Where no field is handled, neither the limits nor the depth are looked at. -/
theorem curtails_fields {fields : List (Field Ref)} (hh : ∀ field ∈ fields, field.isHandled = false)
    (hn : ∀ field ∈ fields, Alike E nested nested' field) :
    Curtails E (Encode.fields config nested depth block fields)
      (Encode.fields config' nested' depth' block fields) := by
  induction fields with
  | nil => exact concurs_pure.curtails
  | cons field rest ih =>
    unfold Encode.fields
    rw [hh field List.mem_cons_self]
    refine (curtails_stored (hn field List.mem_cons_self) block).seq (ih ?_ ?_)
    · exact fun other ho => hh other (List.mem_cons_of_mem _ ho)
    · exact fun other ho => hn other (List.mem_cons_of_mem _ ho)

variable {schema : Schema Ref}

/-- Whatever the tables are, a message without handled fields is encoded alike for all sinks. -/
theorem concurs_messageWithin (config : EncodeConfig) (levels : Nat) {ref : Ref}
    (hu : schema.Throughout Table.Unhandled ref) (block : Bytes) :
    Concurs (messageWithin schema config levels ref block : Encode κ S Unit)
      (messageWithin schema config levels ref block : Encode κ' S Unit) := by
  induction levels generalizing ref block with
  | zero => exact concurs_throw _
  | succ levels ih =>
    refine Curtails.concurs (curtails_look _ fun _ _ => curtails_fields hu.here fun field hf inner hk stored => ?_)
    exact (ih (hu.nested (Table.mem_nested hf (hu.here field hf) hk)) stored).curtails

/-- With fewer levels of nesting the encoder gives up where it comes to one that is not there, or does
the same. -/
theorem curtails_messageWithin (config config' : EncodeConfig) {levels levels' : Nat}
    (hle : levels' ≤ levels) {ref : Ref} (hu : schema.Throughout Table.Unhandled ref) (block : Bytes) :
    Curtails (· = .messageTooDeep config'.maxDepth)
      (messageWithin schema config levels ref block : Encode κ S Unit)
      (messageWithin schema config' levels' ref block : Encode κ' S Unit) := by
  induction levels' generalizing levels ref block with
  | zero =>
    obtain ⟨content, outcome, hs, -⟩ : Concurs
        (messageWithin schema config levels ref block : Encode κ S Unit)
        (messageWithin schema config levels ref block : Encode κ S Unit) :=
      concurs_messageWithin config levels hu block
    exact ⟨content, outcome, hs, .inr ⟨[], _, content.nil_prefix, rfl, spells_nil fun _ => rfl⟩⟩
  | succ levels' ih =>
    obtain ⟨levels, rfl⟩ : ∃ n, levels = n + 1 := ⟨levels - 1, by omega⟩
    refine curtails_look _ fun _ _ => curtails_fields hu.here fun field hf inner hk stored => ?_
    exact ih (by omega) (hu.nested (Table.mem_nested hf (hu.here field hf) hk)) stored

end Encode

end

-- ---------------------------------------------------------------------------
-- Counting, growing, filling
-- ---------------------------------------------------------------------------

section

variable {schema : Schema Ref} {ref : Ref}

theorem concurs_encodeMessage [Handler Ref S] [Sink κ] [Store κ] [Sink κ'] [Store κ']
    (hu : schema.Throughout Table.Unhandled ref) (config : EncodeConfig) (block : Bytes) :
    Concurs (encodeMessage schema config ref block : Encode κ S Unit)
      (encodeMessage schema config ref block : Encode κ' S Unit) :=
  Encode.concurs_messageWithin config _ hu block

section

variable {content : Bytes} {outcome : Except CodecError Unit} {block buffer : Bytes}

theorem encodedSize_of_spells [Handler Ref S] {config : EncodeConfig} {handlers : List S}
    (h : Spells content outcome (encodeMessage schema config ref block : Encode Bytes S Unit)) :
    encodedSize schema config ref block handlers = (outcome.map fun _ => content.length, handlers) := by
  rw [encodedSize, Encode.looks_measure h]

theorem encodeToBytes_of_spells
    (h : Spells content (.ok ()) (encodeMessage schema {} ref block : Encode Bytes Empty Unit))
    (hroom : content.length ≤ maxSize) : encodeToBytes schema ref block = .ok content := by
  rw [encodeToBytes, h.fits ⟨.unbounded [], []⟩ (fun _ _ => trivial) (.inr hroom)]
  rfl

theorem backed_ofBuffer (buffer : Bytes) : (Output.ofBuffer buffer).Backed := by
  rintro _ ⟨⟩
  exact Nat.le_refl buffer.length

theorem encodeToBuffer_of_spells
    (h : Spells content (.ok ()) (encodeMessage schema {} ref block : Encode FixedBuffer Empty Unit))
    (hroom : content.length ≤ buffer.length) :
    encodeToBuffer schema ref block buffer =
      (.ok content.length, content ++ buffer.drop content.length) := by
  rw [encodeToBuffer, h.fits ⟨.ofBuffer buffer, []⟩ (backed_ofBuffer buffer) (.inr hroom)]
  simp [Except.map, extend, onto, output, Output.extend, Output.charge, Output.ofBuffer, Output.ofSink,
    FixedBuffer.content_append]

theorem encodeToBuffer_overruns
    (h : Spells content (.ok ()) (encodeMessage schema {} ref block : Encode FixedBuffer Empty Unit))
    (hroom : buffer.length < content.length) :
    ∃ failure, (encodeToBuffer schema ref block buffer).1 = .error failure ∧ failure.IsLimit := by
  obtain ⟨failure, after, hr, hlimit⟩ := (h.overruns ⟨.ofBuffer buffer, []⟩ (backed_ofBuffer buffer)
    (Output.not_takes rfl hroom)).fails
  rw [encodeToBuffer, hr]
  exact ⟨failure, rfl, hlimit⟩

end

/-- Encoding without handled fields is one thing for every output. A byte string grows by what is
counted, and a count fails as the writing fails, unless it passes the largest length there is: then
the byte string crosses its limit. A buffer takes a message at its front if it is as long as the
message, and crosses its limit if it is not. -/
theorem outputs_agree [Handler Ref S] (hu : schema.Throughout Table.Unhandled ref) (block : Bytes) :
    (∀ (config : EncodeConfig) (handlers : List S) (sink : Bytes),
      let message : Encode Bytes S Unit := encodeMessage schema config ref block
      let count := (message.result ⟨.sizing, handlers⟩).2.output.written
      let written := message.result ⟨.unbounded sink, handlers⟩
      (count ≤ maxSize →
        (encodedSize schema config ref block handlers).1 = written.1.map (fun _ => count) ∧
        ∃ content, content.length = count ∧
          written.2 = ⟨⟨some (sink ++ content), maxSize, count⟩, handlers⟩) ∧
      (maxSize < count → ∃ failure, written.1 = .error failure ∧ failure.IsLimit)) ∧
    ∀ size, (encodedSize schema {} ref block ([] : List Empty)).1 = .ok size → size ≤ maxSize →
      ∃ content, encodeToBytes schema ref block = .ok content ∧ content.length = size ∧
        ∀ buffer : Bytes,
          (size ≤ buffer.length →
            encodeToBuffer schema ref block buffer = (.ok size, content ++ buffer.drop size)) ∧
          (buffer.length < size →
            ∃ failure, (encodeToBuffer schema ref block buffer).1 = .error failure ∧
              failure.IsLimit) := by
  refine ⟨fun config handlers sink => ?_, fun size hsize hmax => ?_⟩
  · obtain ⟨content, outcome, hs, -⟩ : Concurs (encodeMessage schema config ref block : Encode Bytes S Unit)
        (encodeMessage schema config ref block : Encode Bytes S Unit) :=
      concurs_encodeMessage hu config block
    have hcount := hs.fits ⟨.sizing, handlers⟩ Output.backed_sizing (.inl rfl)
    have hbacked : (Output.unbounded sink).Backed := fun _ _ => trivial
    intro message count written
    have hlen : count = content.length := by
      show (message.result ⟨.sizing, handlers⟩).2.output.written = content.length
      rw [hcount]
      exact Nat.zero_add content.length
    clear_value count
    subst hlen
    refine ⟨fun hmax => ?_, fun hmax => ?_⟩
    · have hwritten : written = _ := hs.fits ⟨.unbounded sink, handlers⟩ hbacked (.inr hmax)
      rw [encodedSize_of_spells hs, hwritten]
      refine ⟨rfl, content, rfl, ?_⟩
      simp [extend, onto, output, Output.extend, Output.charge, Output.unbounded, Output.ofSink,
        Store.append]
    · obtain ⟨failure, after, hr, hlimit⟩ := (hs.overruns ⟨.unbounded sink, handlers⟩ hbacked
        (Output.not_takes rfl hmax)).fails
      exact ⟨failure, congrArg Prod.fst hr, hlimit⟩
  · obtain ⟨content, outcome, hs, hb⟩ : Concurs (encodeMessage schema {} ref block : Encode Bytes Empty Unit)
        (encodeMessage schema {} ref block : Encode FixedBuffer Empty Unit) :=
      concurs_encodeMessage hu {} block
    rw [encodedSize_of_spells hs] at hsize
    obtain ⟨⟨⟩, rfl, rfl⟩ : ∃ done, outcome = .ok done ∧ content.length = size := by
      cases outcome with
      | ok done => exact ⟨done, rfl, Except.ok.inj hsize⟩
      | error failure => cases hsize
    refine ⟨content, encodeToBytes_of_spells hs hmax, rfl, fun buffer => ⟨fun hle => ?_, fun hlt => ?_⟩⟩
    · exact encodeToBuffer_of_spells hb hle
    · exact encodeToBuffer_overruns hb hlt

/-- Six bytes with a message in them, into a buffer that is longer and one that ends in the message. -/
theorem outputs_agree_letter :
    letter.Throughout Table.Unhandled false ∧
    ∃ block, encodeToBytes letter false block = .ok [8, 7, 34, 2, 8, 5] ∧
      encodeToBuffer letter false block (List.replicate 7 255) = (.ok 6, [8, 7, 34, 2, 8, 5, 255]) ∧
      ∃ failure, (encodeToBuffer letter false block (List.replicate 5 255)).1 = .error failure ∧
        failure.IsLimit := by
  let block : Bytes := 7 :: Bytes.zeros 15 ++ [4, 0, 0, 0, 5] ++ Bytes.zeros 5
  have hbytes : encodeToBytes letter false block = .ok [8, 7, 34, 2, 8, 5] := by cbv
  have hsize : (encodedSize letter {} false block ([] : List Empty)).1 = .ok 6 := by cbv
  obtain ⟨content, hcontent, -, hbuffer⟩ :=
    (outputs_agree (S := Empty) (letter_unhandled false) block).2 6 hsize (by decide)
  obtain rfl : [8, 7, 34, 2, 8, 5] = content := Except.ok.inj (hbytes.symm.trans hcontent)
  refine ⟨letter_unhandled false, block, hbytes, (hbuffer _).1 (by decide), (hbuffer _).2 (by decide)⟩

end

end BlockCodec
