import BlockCodec.Message.Decode
import BlockCodec.Proofs.Writing

/-!
# What decoding does to a block

Whatever the input says and wherever decoding stops, it changes the block by moves only, and it
never blames the table: `Decode.follows_messageWithin`. The slots of handled fields must be unbound and
have their places to themselves, or the input could write one. When decoding succeeds and its texts were
checked, the moves are such as views make, which keep all texts legible.
-/

namespace BlockCodec

/-- The failures that a table is blamed for. -/
def CodecError.BlamesTable : CodecError → Prop
  | .invalidDescriptor .. | .kindMismatch .. => True
  | _ => False

/-- The one block became the other by moves, and by moves of a view if texts were checked. -/
structure Schema.Merged {Ref : Type} (schema : Schema Ref) (checked : Prop) (ref : Ref)
    (before after : Bytes) : Prop where
  moves : schema.Moves .loose ref before after
  views : checked → schema.ViewMoves .loose ref before after

namespace Schema

variable {Ref : Type} {schema : Schema Ref} {checked : Prop} {ref : Ref} {before middle after : Bytes}

theorem Merged.refl (block : Bytes) : schema.Merged checked ref block block :=
  ⟨.refl _, fun _ => .refl _⟩

theorem Merged.trans (h : schema.Merged checked ref before middle)
    (h' : schema.Merged checked ref middle after) : schema.Merged checked ref before after :=
  ⟨h.moves.trans h'.moves, fun hc => (h.views hc).trans (h'.views hc)⟩

theorem Merged.length_eq (h : schema.Merged checked ref before after) : after.length = before.length :=
  h.moves.length_eq

end Schema

namespace Decode

variable {σ S α β Ref : Type}

-- ---------------------------------------------------------------------------
-- What the parts of a decoder answer
-- ---------------------------------------------------------------------------

theorem result_onWire {step : Wire.Read σ α} {state : Decoding σ S} {value : α} {input : Input σ}
    (h : step.result state.input = (.ok value, input)) :
    (onWire step : Decode σ S α).result state = (.ok value, { state with input }) := by
  rw [onWire, onInput, Step.result_onPart, Step.result_mapFailure, h]
  rfl

theorem result_onWire_error {step : Wire.Read σ α} {state : Decoding σ S} {failure : WireError}
    {input : Input σ} (h : step.result state.input = (.error failure, input)) :
    (onWire step : Decode σ S α).result state = (.error (.wire failure), { state with input }) := by
  rw [onWire, onInput, Step.result_onPart, Step.result_mapFailure, h]
  rfl

theorem result_onInput_eq_ok {step : Step (Input σ) CodecError α} {state after : Decoding σ S}
    {value : α} (h : (onInput step).result state = (.ok value, after)) :
    step.result state.input = (.ok value, after.input) := by
  obtain ⟨hvalue, rfl⟩ := Prod.mk.inj h
  exact Prod.ext hvalue rfl

theorem result_onBlock_eq_ok {edit : Edit α} {state last : Decoding σ S} {value : α} :
    (onBlock edit).result state = (.ok value, last) ↔
      edit.result state.block = (.ok value, last.block) ∧ last = { state with block := last.block } := by
  constructor
  · intro h
    obtain ⟨hvalue, rfl⟩ := Prod.mk.inj h
    exact ⟨Prod.ext hvalue rfl, rfl⟩
  · rintro ⟨hr, hlast⟩
    rw [hlast, onBlock, Step.result_onPart, hr]

theorem result_inside_eq_ok {field : Field Ref} {span : Span} {step : Decode σ S α}
    {state last : Decoding σ S} {value : α} :
    (inside field span step).result state = (.ok value, last) ↔ ∃ stored content,
      state.block.slice? span = some stored ∧
      step.result { state with block := stored } = (.ok value, { last with block := content }) ∧
      last.block = Bytes.overwrite state.block span.start content := by
  rw [inside, Step.result_ofRun]
  cases hs : state.block.slice? span with
  | none => simp
  | some stored =>
    rcases hr : step.result { state with block := stored } with ⟨outcome, next⟩
    simp only [hr]
    constructor
    · intro h
      obtain ⟨rfl, rfl⟩ := Prod.mk.inj h
      exact ⟨stored, next.block, rfl, hr, rfl⟩
    · rintro ⟨_, content, hsome, hstep, hblock⟩
      cases hsome
      obtain ⟨rfl, rfl⟩ := Prod.mk.inj (hr.symm.trans hstep)
      rw [← hblock]

-- ---------------------------------------------------------------------------
-- Contracts about the block
-- ---------------------------------------------------------------------------

/-- What a step makes of a block, for every input and whatever the handlers are. -/
def Does (step : Decode σ S α) (block : Bytes) (Q : α → Bytes → Prop)
    (E : CodecError → Bytes → Prop) : Prop :=
  ∀ state : Decoding σ S, state.block = block →
    step.Ends state (fun value after => Q value after.block) fun failure after =>
      E failure after.block

variable {block : Bytes} {Q Q' : α → Bytes → Prop} {E E' : CodecError → Bytes → Prop}

theorem Does.mono {step : Decode σ S α} (h : step.Does block Q E)
    (hq : ∀ value after, Q value after → Q' value after)
    (he : ∀ failure after, E failure after → E' failure after) : step.Does block Q' E' :=
  fun state hs => (h state hs).mono (fun _ _ => hq _ _) fun _ _ => he _ _

theorem Does.bind {step : Decode σ S α} {next : α → Decode σ S β} {P : α → Bytes → Prop}
    {Q : β → Bytes → Prop} (h : step.Does block P E)
    (hn : ∀ value after, P value after → (next value).Does after Q E) :
    (step >>= next).Does block Q E :=
  fun state hs => (h state hs).bind fun value after hp => hn value after.block hp after rfl

theorem does_pure {value : α} (h : Q value block) : Does (pure value : Decode σ S α) block Q E :=
  fun _ hs => Step.ends_pure (hs ▸ h)

theorem does_throw {failure : CodecError} (h : E failure block) :
    Does (throw failure : Decode σ S α) block Q E :=
  fun _ hs => Step.ends_throw (hs ▸ h)

theorem does_get {Q : Decoding σ S → Bytes → Prop}
    (h : ∀ state : Decoding σ S, state.block = block → Q state block) :
    Does (get : Decode σ S (Decoding σ S)) block Q E :=
  fun state hs => Step.ends_get (hs ▸ h state hs)

theorem does_ite {c : Prop} [Decidable c] {yes no : Decode σ S α}
    (hy : c → yes.Does block Q E) (hn : ¬c → no.Does block Q E) :
    Does (if c then yes else no) block Q E := by
  split
  · next h => exact hy h
  · next h => exact hn h

theorem does_unless {c : Prop} [Decidable c] {failure : CodecError} {next : Unit → Decode σ S α}
    (hc : c → E failure block) (hn : ¬c → (next ()).Does block Q E) :
    Does (if c then (throw failure : Decode σ S Unit) >>= next else next ()) block Q E :=
  does_ite (fun h => Does.bind (does_throw (hc h)) (P := fun _ _ => False) fun _ _ h => h.elim) hn

theorem does_onBlock {edit : Edit α} {value : α} {after : Bytes}
    (hr : edit.result block = (.ok value, after)) (h : Q value after) :
    Does (onBlock edit : Decode σ S α) block Q E := by
  rintro state rfl
  exact Step.ends_onPart (.of_ok hr h)

theorem does_modify {f : Bytes → Bytes} {Q : Unit → Bytes → Prop} (h : Q () (f block)) :
    Does (onBlock (modify f) : Decode σ S Unit) block Q E :=
  does_onBlock (Step.result_modify f block) h

theorem does_onInput {step : Step (Input σ) CodecError α} {blame : CodecError → Prop}
    (hstep : ∀ input, step.Ends input (fun _ _ => True) fun failure _ => blame failure)
    (hq : ∀ value, Q value block) (he : ∀ failure, blame failure → E failure block) :
    Does (onInput step : Decode σ S α) block Q E := by
  rintro state rfl
  exact Step.ends_onPart ((hstep state.input).mono (fun value _ _ => hq value) fun e _ => he e)

theorem ends_wire (step : Wire.Read σ α) (input : Input σ) :
    (step.mapFailure CodecError.wire).Ends input (fun _ _ => True)
      fun failure _ => ∃ cause, failure = .wire cause := by
  refine Step.ends_mapFailure ?_
  unfold Step.Ends
  split
  · trivial
  · exact ⟨_, rfl⟩

theorem does_onWire {step : Wire.Read σ α} (hq : ∀ value, Q value block)
    (he : ∀ failure, E (.wire failure) block) : Does (onWire step : Decode σ S α) block Q E :=
  does_onInput (ends_wire step) hq fun _ ⟨cause, h⟩ => h ▸ he cause

theorem does_within {length : Nat} {step : Decode σ S α} (h : step.Does block Q E)
    (he : ∀ failure, E (.stream failure) block) : Does (within length step) block Q E := by
  rintro state rfl
  unfold Step.Ends within
  rw [Step.result_ofRun]
  cases hn : state.input.narrow length with
  | error failure => exact he failure
  | ok input =>
    have := h { state with input } rfl
    unfold Step.Ends at this
    split at this <;> simp_all

theorem does_inside {field : Field Ref} {span : Span} {step : Decode σ S α} {stored : Bytes}
    (hs : block.slice? span = some stored)
    (h : step.Does stored (fun value content => Q value (Bytes.overwrite block span.start content))
      fun failure content => E failure (Bytes.overwrite block span.start content)) :
    Does (inside field span step) block Q E := by
  rintro state rfl
  unfold Step.Ends inside
  rw [Step.result_ofRun, hs]
  have := h { state with block := stored } rfl
  unfold Step.Ends at this
  split at this <;> simp_all

-- ---------------------------------------------------------------------------
-- Reading values
-- ---------------------------------------------------------------------------

variable [Source σ]

omit [Source σ] in
theorem ends_of_wire {step : Step (Input σ) CodecError α} {input : Input σ}
    (h : step.Ends input (fun _ _ => True) fun failure _ => ∃ cause, failure = .wire cause) :
    step.Ends input (fun _ _ => True) fun failure _ => ¬failure.BlamesTable :=
  h.mono (fun _ _ h => h) fun _ _ ⟨_, h⟩ => h ▸ id

omit [Source σ] in
/-- A number is read as its kind stands on the wire, and made a number of its kind. -/
theorem readScalar_forms (field : Field Ref) :
    (field.kind.wireType = .varint ∧ ∃ f : UInt64 → Scalar, ∀ (σ : Type) [Source σ],
      (field.readScalar : Step (Input σ) CodecError Scalar) =
        Wire.readVarint.mapFailure .wire >>= fun value => pure (f value)) ∨
    (field.kind.wireType = .varint ∧ ∃ f : Int64 → Scalar, ∀ (σ : Type) [Source σ],
      (field.readScalar : Step (Input σ) CodecError Scalar) =
        Wire.readZigZag.mapFailure .wire >>= fun value => pure (f value)) ∨
    (field.kind.wireType = .fixed32 ∧ ∃ f : UInt32 → Scalar, ∀ (σ : Type) [Source σ],
      (field.readScalar : Step (Input σ) CodecError Scalar) =
        Wire.readFixed32.mapFailure .wire >>= fun value => pure (f value)) ∨
    (field.kind.wireType = .fixed64 ∧ ∃ f : UInt64 → Scalar, ∀ (σ : Type) [Source σ],
      (field.readScalar : Step (Input σ) CodecError Scalar) =
        Wire.readFixed64.mapFailure .wire >>= fun value => pure (f value)) ∨
    (field.kind.isScalar = false ∧ ∀ (σ : Type) [Source σ],
      (field.readScalar : Step (Input σ) CodecError Scalar) = throw field.notNumeric) := by
  unfold Field.readScalar
  generalize field.kind = kind
  match kind with
  | .bool | .varint ⟨_, false⟩ | .varint ⟨_, true⟩ | .enumeration => exact .inl ⟨rfl, _, fun _ _ => rfl⟩
  | .zigZag _ => exact .inr (.inl ⟨rfl, _, fun _ _ => rfl⟩)
  | .fixed ⟨.w8, _⟩ | .fixed ⟨.w16, _⟩ | .fixed ⟨.w32, _⟩ | .float .w8 | .float .w16 | .float .w32 =>
    exact .inr (.inr (.inl ⟨rfl, _, fun _ _ => rfl⟩))
  | .fixed ⟨.w64, _⟩ | .float .w64 => exact .inr (.inr (.inr (.inl ⟨rfl, _, fun _ _ => rfl⟩)))
  | .text | .bytes | .message _ => exact .inr (.inr (.inr (.inr ⟨rfl, fun _ _ => rfl⟩)))

/-- Reading a number of a scalar kind fails only as reading the wire does. -/
theorem ends_readScalar {field : Field Ref} (hk : field.kind.isScalar = true) (input : Input σ) :
    Step.Ends field.readScalar input (fun _ _ => True) fun failure _ => ¬failure.BlamesTable := by
  have hread : ∀ {β : Type} (step : Wire.Read σ β) (f : β → Scalar),
      Step.Ends (do let value ← step.mapFailure CodecError.wire; pure (f value)) input
        (fun _ _ => True) fun failure _ => ¬failure.BlamesTable := fun step f =>
    (ends_of_wire (ends_wire step input)).bind fun _ _ _ => trivial
  obtain ⟨-, f, hf⟩ | ⟨-, f, hf⟩ | ⟨-, f, hf⟩ | ⟨-, f, hf⟩ | ⟨hno, -⟩ := readScalar_forms field
  · exact hf σ ▸ hread _ f
  · exact hf σ ▸ hread _ f
  · exact hf σ ▸ hread _ f
  · exact hf σ ▸ hread _ f
  · rw [hk] at hno
    cases hno

theorem length_gather_le (source : σ) (wanted : Nat) :
    (Input.gather source wanted).1.bytes.length ≤ wanted := by
  fun_induction Input.gather source wanted with
  | case1 | case2 | case3 => exact Nat.zero_le _
  | case4 source wanted _ byte rest source' hr delivery source'' hg ih =>
    have hread := Source.length_read_le hr
    rw [hg] at ih
    simp only [List.length_cons, List.length_append] at hread ih ⊢
    omega

theorem length_deliver_le (count : Nat) (input : Input σ) :
    (input.deliver count).1.bytes.length ≤ count := by
  unfold Input.deliver
  split
  · exact Nat.zero_le _
  · have hlen := length_gather_le input.source count
    rcases hg : Input.gather input.source count with ⟨⟨bytes, failure?⟩, source⟩
    rw [hg] at hlen
    cases failure? with
    | some failure => exact hlen
    | none =>
      simp only
      split <;> exact hlen

/-- What arrives is laid over the block, all of it or a part. -/
theorem does_fill {block : Bytes} {start count : Nat} {Q : Unit → Bytes → Prop}
    {E : CodecError → Bytes → Prop}
    (hq : ∀ bytes, bytes.length ≤ count → Q () (Bytes.overwrite block start bytes))
    (he : ∀ bytes failure, bytes.length ≤ count →
      E (.stream failure) (Bytes.overwrite block start bytes)) :
    Does (fill start count : Decode σ S Unit) block Q E := by
  rintro state rfl
  have hlen := length_deliver_le count state.input
  unfold Step.Ends fill
  rw [Step.result_ofRun]
  rcases hd : state.input.deliver count with ⟨⟨bytes, failure?⟩, input⟩
  rw [hd] at hlen
  cases failure? with
  | none => exact hq bytes hlen
  | some failure => exact he bytes failure hlen

variable {field : Field Ref} {config : DecodeConfig} {held : Bytes}

omit [Source σ] in
/-- A text that has been found well-formed is legible, whatever is behind it. -/
theorem legible_overwrite {length : Nat} {filled : Bytes} (hle : length ≤ filled.length)
    (ht : Bytes.text? ((Bytes.overwrite filled length [0]).take length) ≠ none) :
    field.Legible (Bytes.overwrite filled length [0]) := by
  have hsplit : Bytes.overwrite filled length [0] =
      filled.take length ++ 0 :: filled.drop (length + 1) := by
    simp [Bytes.overwrite]
  obtain ⟨text, htext⟩ := Option.ne_none_iff_exists'.mp ht
  rw [hsplit, List.take_left' (List.length_take_of_le hle)] at htext
  obtain ⟨front, hfront⟩ := Bytes.takeWhile_ofText text
  rw [Bytes.ofText_of_text? htext] at hfront
  exact fun _ => ⟨front, by rw [hsplit, Bytes.takeWhile_append_zero, hfront]⟩

theorem does_text (hk : field.kind = .text) :
    Does (text config field : Decode σ S Unit) held
      (fun _ content => field.Stores .loose held content ∧
        (config.validateUtf8 = true → field.Legible content))
      fun failure content => field.Stores .loose held content ∧ ¬failure.BlamesTable := by
  have hrefl : field.Stores .loose held held := ⟨rfl, id⟩
  unfold text
  refine (does_onWire (fun _ => rfl) fun _ => ⟨hrefl, id⟩).bind (P := fun _ b => held = b) ?_
  rintro length _ rfl
  refine (does_get fun _ h => ⟨rfl, h⟩).bind (P := fun s b => held = b ∧ s.block = held) ?_
  rintro state _ ⟨rfl, hstate⟩
  rw [hstate]
  refine does_unless (fun _ => ⟨hrefl, id⟩) fun hroom => ?_
  -- a text that is cut short leaves the last byte alone
  have hfill : ∀ bytes : Bytes, bytes.length ≤ length →
      field.Stores .loose held (Bytes.overwrite held 0 bytes) := fun bytes hb =>
    ⟨Bytes.length_overwrite _ _ _ (by omega), fun h => h.overwrite_text hk (by omega) (by omega)⟩
  refine (does_fill (fun bytes hb => hfill bytes hb) fun bytes _ hb => ⟨hfill bytes hb, id⟩).bind
    (P := fun _ b => field.Stores .loose held b) ?_
  intro _ filled hf
  have hle : length + ([0] : Bytes).length ≤ filled.length := by
    rw [hf.1, List.length_singleton]
    omega
  have hend : field.Stores .loose held (Bytes.overwrite filled length [0]) :=
    ⟨(Bytes.length_overwrite _ _ _ hle).trans hf.1, fun h =>
      (hf.2 h).overwrite_text hk hle fun _ => rfl⟩
  refine (does_modify rfl).bind (P := fun _ b => Bytes.overwrite filled length [0] = b) ?_
  rintro _ _ rfl
  refine (does_get fun _ h => ⟨rfl, h⟩).bind (P := fun s b => Bytes.overwrite filled length [0] = b ∧
    s.block = Bytes.overwrite filled length [0]) ?_
  rintro state _ ⟨rfl, hstate⟩
  rw [hstate]
  refine does_ite (fun _ => does_throw ⟨hend, id⟩) fun hvalid => does_pure ⟨hend, fun hchecked => ?_⟩
  exact legible_overwrite (Nat.le_of_succ_le hle) (by simpa [hchecked] using hvalid)

theorem does_payload (hk : field.kind = .bytes) (hheld : 4 ≤ held.length) :
    Does (payload field : Decode σ S Unit) held (fun _ => field.Stores .loose held)
      fun failure content => field.Stores .loose held content ∧ ¬failure.BlamesTable := by
  have hrefl : field.Stores .loose held held := ⟨rfl, id⟩
  unfold payload
  refine (does_onWire (fun _ => rfl) fun _ => ⟨hrefl, id⟩).bind (P := fun _ b => held = b) ?_
  rintro length _ rfl
  refine (does_get fun _ h => ⟨rfl, h⟩).bind (P := fun s b => held = b ∧ s.block = held) ?_
  rintro state _ ⟨rfl, hstate⟩
  rw [hstate]
  refine does_unless (fun h => absurd h (by omega)) fun _ => ?_
  refine does_unless (fun _ => ⟨hrefl, id⟩) fun hroom => ?_
  -- the length is written last, so bytes that are cut short keep the one before
  have hfill : ∀ bytes : Bytes, bytes.length ≤ length →
      field.Stores .loose held (Bytes.overwrite held 4 bytes) := fun bytes hb =>
    ⟨Bytes.length_overwrite _ _ _ (by omega), fun h => h.overwrite_bytes hk (by omega) (by omega)⟩
  refine (does_fill (fun bytes hb => hfill bytes hb) fun bytes _ hb => ⟨hfill bytes hb, id⟩).bind
    (P := fun _ b => field.Stores .loose held b) ?_
  intro _ filled hf
  refine does_modify ⟨?_, fun _ => ?_⟩
  · rw [Bytes.length_overwrite _ _ _ (by rw [Bytes.length_littleEndian, hf.1]; omega)]
    exact hf.1
  · rw [Field.overwrite_prefix]
    exact Field.sound_prefixed hk (by rw [List.length_drop, hf.1]; omega)

theorem does_number {Q : Scalar → Bytes → Prop} {block : Bytes} {E : CodecError → Bytes → Prop}
    (hk : field.kind.isScalar = true) (hq : ∀ value, Q value block)
    (he : ∀ failure, ¬failure.BlamesTable → E failure block) :
    Does (number field : Decode σ S Scalar) block Q E :=
  does_onInput (ends_readScalar hk) hq he

-- ---------------------------------------------------------------------------
-- Values in their places
-- ---------------------------------------------------------------------------

/-- The storage of a value may become this: by moves if it is a message, and a legible text if texts
were checked. -/
def Settles (schema : Schema Ref) (checked : Prop) (field : Field Ref) (held content : Bytes) : Prop :=
  match field.kind with
  | .message inner => schema.Merged checked inner held content
  | _ => field.Stores .loose held content ∧ (checked → field.Legible content)

/-- The step lays a value over its storage and does not blame the table. -/
def Fills (schema : Schema Ref) (config : DecodeConfig) (field : Field Ref) (step : Decode σ S Unit)
    (held : Bytes) : Prop :=
  step.Does held (fun _ => Settles schema (config.validateUtf8 = true) field held)
    fun failure content => Settles schema False field held content ∧ ¬failure.BlamesTable

/-- The step changes the block by moves of the message and does not blame the table. -/
def Follows (schema : Schema Ref) (config : DecodeConfig) (ref : Ref) (step : Decode σ S α)
    (block : Bytes) : Prop :=
  step.Does block (fun _ => schema.Merged (config.validateUtf8 = true) ref block) fun failure after =>
    schema.Moves .loose ref block after ∧ ¬failure.BlamesTable

variable {schema : Schema Ref} {nested : Ref → Decode σ S Unit} {size : Nat} {ref : Ref} {block : Bytes}
  {checked : Prop}

section

omit [Source σ]

theorem settles_iff (hk : ∀ inner, field.kind ≠ .message inner) {content : Bytes} :
    Settles schema checked field held content ↔
      field.Stores .loose held content ∧ (checked → field.Legible content) := by
  unfold Settles
  split
  · next inner h => exact absurd h (hk inner)
  · exact Iff.rfl

theorem settles_message {inner : Ref} (hk : field.kind = .message inner) {content : Bytes} :
    Settles schema checked field held content ↔ schema.Merged checked inner held content := by
  simp only [Settles, hk]

theorem Settles.merged {content : Bytes} {span : Span} (h : Settles schema checked field held content)
    (hf : field ∈ (schema ref).fields) (hh : field.isHandled = false)
    (hp : field.Place .loose block span) (hs : block.slice? span = some held) :
    schema.Merged checked ref block (Bytes.overwrite block span.start content) := by
  by_cases hk : ∃ inner, field.kind = .message inner
  · obtain ⟨inner, hk⟩ := hk
    have hm := (settles_message hk).mp h
    exact ⟨.inner hf hh hk hp hs hm.moves, fun hc => .inner hf hh hk hp hs (hm.views hc)⟩
  · have hk : ∀ inner, field.kind ≠ .message inner := fun inner h => hk ⟨inner, h⟩
    obtain ⟨hstores, hlegible⟩ := (settles_iff hk).mp h
    exact ⟨.store hf hh hk hp hs hstores, fun hc => .store hf hh hk hp hs hstores (hlegible hc)⟩

/-- A value that is laid over its place. -/
theorem Fills.inside {step : Decode σ S Unit} {span : Span} (h : Fills schema config field step held)
    (hf : field ∈ (schema ref).fields) (hh : field.isHandled = false)
    (hp : field.Place .loose block span) (hs : block.slice? span = some held) :
    Follows schema config ref (Decode.inside field span step) block :=
  does_inside hs (h.mono (fun _ _ h => h.merged hf hh hp hs) fun _ _ h =>
    ⟨(h.1.merged hf hh hp hs).moves, h.2⟩)

theorem Follows.bind {step : Decode σ S α} {next : α → Decode σ S β}
    (h : Follows schema config ref step block)
    (hn : ∀ value after, schema.Merged (config.validateUtf8 = true) ref block after →
      Follows schema config ref (next value) after) :
    Follows schema config ref (step >>= next) block :=
  Does.bind h fun value after hm => (hn value after hm).mono (fun _ _ h => hm.trans h)
    fun _ _ h => ⟨hm.moves.trans h.1, h.2⟩

theorem Follows.after {step : Decode σ S α} {after : Bytes}
    (hm : schema.Merged (config.validateUtf8 = true) ref block after)
    (h : Follows schema config ref step after) :
    step.Does after (fun _ => schema.Merged (config.validateUtf8 = true) ref block) fun failure last =>
      schema.Moves .loose ref block last ∧ ¬failure.BlamesTable :=
  h.mono (fun _ _ h => hm.trans h) fun _ _ h => ⟨hm.moves.trans h.1, h.2⟩

end

theorem fills_value (hfits : field.Fits schema size) (hheld : held.length = field.dataSize)
    (hn : ∀ inner, field.kind = .message inner → Follows schema config inner (nested inner) held) :
    Fills schema config field (value config nested field) held := by
  have hsuits := hfits.suits
  have hplain : (∀ inner, field.kind ≠ .message inner) → ∀ {step : Decode σ S Unit},
      step.Does held (fun _ content => field.Stores .loose held content ∧
          (config.validateUtf8 = true → field.Legible content))
        (fun failure content => field.Stores .loose held content ∧ ¬failure.BlamesTable) →
      Fills schema config field step held := fun hk _ h =>
    h.mono (fun _ _ h => (settles_iff hk).mpr h) fun _ _ h =>
      ⟨(settles_iff hk).mpr ⟨h.1, False.elim⟩, h.2⟩
  have hnumber : field.kind ≠ .text → ∀ content, field.Stores .loose held content →
      field.Stores .loose held content ∧ (config.validateUtf8 = true → field.Legible content) :=
    fun hk content h => ⟨h, fun _ htext => absurd htext hk⟩
  unfold value
  split
  · next hk => exact hplain (by simp [hk]) (does_text hk)
  · next hk =>
    simp only [Field.Suits, hk] at hsuits
    exact hplain (by simp [hk]) ((does_payload hk (by omega)).mono
      (fun _ content h => hnumber (by simp [hk]) content h) fun _ _ h => h)
  · next inner hk =>
    suffices h : Follows schema config inner (do
        let length ← onWire Wire.readLength
        within length (whole length (nested inner)) : Decode σ S Unit) held from
      h.mono (fun _ _ h => (settles_message hk).mpr h) fun _ _ h =>
        ⟨(settles_message hk).mpr ⟨h.1, False.elim⟩, h.2⟩
    refine (does_onWire (fun _ => rfl) fun _ => ⟨.refl _, id⟩).bind (P := fun _ b => held = b) ?_
    rintro length _ rfl
    refine does_within ?_ fun _ => ⟨.refl _, id⟩
    unfold whole
    refine Follows.bind (hn inner hk) fun _ content hc => ?_
    refine (does_get fun _ _ => rfl).bind (P := fun _ b => content = b) ?_
    rintro state _ rfl
    exact does_ite (fun _ => does_throw ⟨.refl _, id⟩) fun _ => does_pure (.refl _)
  · next hk1 hk2 hk3 =>
    have hscalar : field.kind.isScalar = true := by
      cases hk : field.kind <;> simp_all [Kind.isScalar]
    refine hplain (fun inner h => hk3 inner h) ?_
    refine (does_number hscalar (fun _ => rfl) fun _ he => ⟨⟨rfl, id⟩, he⟩).bind
      (P := fun _ b => held = b) ?_
    rintro scalar _ rfl
    exact does_modify (hnumber hk1 _ (Field.stores_scalar _ hscalar hsuits hheld _))

-- ---------------------------------------------------------------------------
-- Fields in the block
-- ---------------------------------------------------------------------------

omit [Source σ] in
theorem does_ask {look : Bytes → Except CodecError α} {value : α} {Q : α → Bytes → Prop}
    {E : CodecError → Bytes → Prop} (hv : look block = .ok value) (h : Q value block) :
    Does (onBlock (Edit.ask look) : Decode σ S α) block Q E :=
  does_onBlock (by rw [Edit.ask, Step.result_ofRun, hv]) h

omit [Source σ] in
/-- The next free element of an array. -/
theorem does_nextElement (hlaid : field.Laid schema size) (hs : size ≤ block.length)
    (hm : field.multiplicity = .repeated) :
    Does (nextElement field : Decode σ S Nat) block
      (fun count after => block = after ∧ count < field.capacity)
      fun failure after => block = after ∧ ¬failure.BlamesTable := by
  have hrep : field.isRepeated = true := by simp [Field.isRepeated, hm]
  obtain ⟨_, _, -, -, -, hslot⟩ := hlaid.slot_ok hs (hlaid.slot_isSome (.inl hrep))
  unfold nextElement
  refine (does_ask hslot rfl).bind (P := fun _ b => block = b) ?_
  rintro count _ rfl
  exact does_unless (fun _ => ⟨rfl, id⟩) fun hc => does_pure ⟨rfl, by omega⟩

omit [Source σ] in
/-- An element that has been stored is counted. -/
theorem follows_claim (hlaid : field.Laid schema (schema ref).size)
    (hs : (schema ref).size ≤ block.length) (hf : field ∈ (schema ref).fields)
    (hm : field.multiplicity = .repeated) {count : Nat} (hc : count < field.capacity) :
    Follows schema config ref (onBlock (Edit.setSlot field (count + 1)) : Decode σ S Unit) block := by
  have hrep : field.isRepeated = true := by simp [Field.isRepeated, hm]
  obtain ⟨after, _, hr, -⟩ := hlaid.setSlot_ok hs (hlaid.slot_isSome (.inl hrep)) (count + 1)
  exact does_onBlock hr ⟨.claim hf hlaid.inBlock hm hc (by simp) hr, fun _ =>
    .claim hf hlaid.inBlock hm hc (by simp) hr⟩

theorem follows_packedElements (hlaid : field.Laid schema (schema ref).size)
    (hs : (schema ref).size ≤ block.length) (hf : field ∈ (schema ref).fields)
    (hm : field.multiplicity = .repeated) (hk : field.kind.isScalar = true) (room : Nat) :
    Follows schema config ref (packedElements field room : Decode σ S Unit) block := by
  induction room generalizing block with
  | zero => exact does_pure (.refl _)
  | succ room ih =>
    unfold packedElements
    refine (does_get fun _ _ => rfl).bind (P := fun _ b => block = b) ?_
    rintro state _ rfl
    refine does_ite (fun _ => does_pure (.refl _)) fun _ => ?_
    refine ((does_nextElement hlaid hs hm).mono (fun _ _ h => h)
      fun _ _ h => ⟨h.1 ▸ .refl _, h.2⟩).bind ?_
    rintro count _ ⟨rfl, hc⟩
    refine (does_number hk (fun _ => rfl) fun _ he => ⟨.refl _, he⟩).bind (P := fun _ b => block = b) ?_
    rintro scalar _ rfl
    have hp : field.Place .loose block (field.element count) :=
      Field.loose_element hm hc
    obtain ⟨held, hheld, hl⟩ := hlaid.place_slice hs hp
    have hsettles : Settles schema (config.validateUtf8 = true) field held
        (field.kind.storeScalar held scalar) :=
      (settles_iff fun inner h => by simp [h, Kind.isScalar] at hk).mpr
        ⟨Field.stores_scalar _ hk hlaid.suits hl _, fun _ h => by simp [h, Kind.isScalar] at hk⟩
    refine Follows.bind (does_onBlock (Edit.result_change hheld _)
      (hsettles.merged hf hlaid.inBlock hp hheld)) fun _ after hmoves => ?_
    have hs' : (schema ref).size ≤ after.length := by rwa [hmoves.length_eq]
    exact (follows_claim hlaid hs' hf hm hc).bind fun _ last hlast =>
      ih (by rwa [hlast.length_eq])

/-- Tables that can be decoded into: laid out, and with the slots of handled fields apart. -/
structure Guarded (schema : Schema Ref) (levels : Nat) (ref : Ref) : Prop where
  laid : schema.Laid levels ref
  levels_le : levels ≤ maxInitialDepth + 1
  separate : schema.Throughout (Table.Separate schema.Carries) ref

/-- No handled field of the message is bound. -/
abbrev Unbound (schema : Schema Ref) (ref : Ref) (block : Bytes) : Prop :=
  schema.Holds (.unbound schema) ref block

/-- What the decoder of the level below does to the messages of a field. -/
def MergesInto (schema : Schema Ref) (config : DecodeConfig) (nested : Ref → Decode σ S Unit)
    (field : Field Ref) : Prop :=
  ∀ inner, field.kind = .message inner → ∀ held : Bytes, (schema inner).size ≤ held.length →
    Unbound schema inner held → Follows schema config inner (nested inner) held

variable {levels : Nat}

omit [Source σ] in
theorem Guarded.below (h : Guarded schema (levels + 1) ref) (hf : field ∈ (schema ref).fields)
    (hh : field.isHandled = false) {inner : Ref} (hk : field.kind = .message inner) :
    Guarded schema levels inner where
  laid := h.laid.nested (Table.mem_nested hf hh hk)
  levels_le := Nat.le_of_succ_le h.levels_le
  separate := h.separate.nested (Table.mem_nested hf hh hk)

omit [Source σ] in
theorem Guarded.unbound (h : Guarded schema levels ref) (hs : (schema ref).size ≤ block.length)
    (hu : Unbound schema ref block) {after : Bytes} (hm : schema.Moves .loose ref block after) :
    Unbound schema ref after :=
  hu.moves Discipline.lawful_unbound hm h.laid h.separate hs

omit [Source σ] in
theorem handlerSlot_of_unbound (h : Unbound schema ref block) (hlaid : (schema ref).Laid schema)
    (hs : (schema ref).size ≤ block.length) (hf : field ∈ (schema ref).fields)
    (hh : field.isHandled = true) : field.handlerSlot block = .ok 0 := by
  obtain ⟨held, hheld⟩ := Bytes.slice_isSome ((hlaid.handled field hf hh).data_within hs)
  have hzero := (Schema.holds_iff.mp h field hf (.handled hh)).keeps.unbound hh held hheld
  exact Field.handlerSlot_of_zeros (hheld.trans (congrArg some hzero))

omit [Source σ] in
/-- In the messages of a field nothing is bound either: a field that carries no handled field has
nothing to bind below it. -/
theorem unbound_of_place (h : Unbound schema ref block) (hf : field ∈ (schema ref).fields)
    (hh : field.isHandled = false) {inner : Ref} (hk : field.kind = .message inner) {span : Span}
    (hp : field.Place .loose block span) (hs : block.slice? span = some held) :
    Unbound schema inner held := by
  by_cases hc : schema.Carries field
  · exact (Schema.holds_iff.mp h field hf hc).nested hh inner hk span held hp hs
  · exact Schema.holds_iff.mpr fun below hb hcb => absurd (.nested hh hk hb hcb) hc

theorem follows_value (hg : Guarded schema (levels + 1) ref) (hu : Unbound schema ref block)
    (hs : (schema ref).size ≤ block.length) (hf : field ∈ (schema ref).fields)
    (hh : field.isHandled = false) (hn : MergesInto schema config nested field) {span : Span}
    (hp : field.Place .loose block span) :
    Follows schema config ref (inside field span (value config nested field)) block := by
  have hfits := hg.laid.here.stored field hf hh
  obtain ⟨held, hheld, hl⟩ := hfits.place_slice hs hp
  refine (fills_value hfits hl fun inner hk => ?_).inside hf hh hp hheld
  refine hn inner hk held ?_ (unbound_of_place hu hf hh hk hp hheld)
  exact Nat.le_of_eq ((hl.trans (hfits.dataSize_of_message hk)).symm)

theorem follows_element (hg : Guarded schema (levels + 1) ref) (hu : Unbound schema ref block)
    (hs : (schema ref).size ≤ block.length) (hf : field ∈ (schema ref).fields)
    (hh : field.isHandled = false) (hm : field.multiplicity = .repeated)
    (hn : MergesInto schema config nested field) :
    Follows schema config ref (element schema config nested field) block := by
  have hlaid := hg.laid.here.laid field hf hh
  have hvalue : ∀ start : Bytes, start.length = field.dataSize →
      (∀ inner, field.kind = .message inner → Follows schema config inner (nested inner) start) →
      Fills schema config field (value config nested field) start :=
    fun _ => fills_value hlaid.toFits
  unfold element
  -- the kind decides what stands before the value, not what the value does
  generalize value config nested field = step at hvalue ⊢
  refine ((does_nextElement hlaid hs hm).mono (fun _ _ h => h)
    fun _ _ h => ⟨h.1 ▸ .refl _, h.2⟩).bind ?_
  rintro count _ ⟨rfl, hc⟩
  have hp : field.Place .loose block (field.element count) :=
      Field.loose_element hm hc
  obtain ⟨held, hheld, hl⟩ := hlaid.place_slice hs hp
  refine Follows.bind (Fills.inside (?_ : Fills schema config field _ held) hf hh hp hheld)
    fun _ after hmoves => follows_claim hlaid (by rwa [hmoves.length_eq]) hf hm hc
  split
  · next inner hk =>
    have hsize : (schema inner).size ≤ held.length :=
      Nat.le_of_eq (hl.trans (hlaid.dataSize_of_message hk)).symm
    have hgn := hg.below hf hh hk
    obtain ⟨initial, hr⟩ := Schema.initialiseWithin_ok (hgn.laid.mono hgn.levels_le) hsize
    have hmoves : ∀ checked, schema.Merged checked inner held initial := fun _ =>
      ⟨.initialise hr, fun _ => .initialise hr⟩
    have hlen := (hmoves False).length_eq
    refine (does_onBlock hr rfl).bind (P := fun _ b => initial = b) ?_
    rintro _ _ rfl
    refine (hvalue initial (hlen.trans hl) fun inner' hk' => ?_).mono (fun _ content h => ?_)
      fun _ content h => ⟨?_, h.2⟩
    · obtain rfl : inner = inner' := by simpa [hk] using hk'
      exact hn inner hk initial (by rwa [hlen])
        (hgn.unbound hsize (unbound_of_place hu hf hh hk hp hheld) (.initialise hr))
    · exact (settles_message hk).mpr ((hmoves _).trans ((settles_message hk).mp h))
    · exact (settles_message hk).mpr ((hmoves _).trans ((settles_message hk).mp h.1))
  · next hk =>
    exact hvalue held hl fun inner hk' => absurd hk' (hk inner)

theorem follows_stored (hg : Guarded schema (levels + 1) ref) (hu : Unbound schema ref block)
    (hs : (schema ref).size ≤ block.length) (hf : field ∈ (schema ref).fields)
    (hh : field.isHandled = false) (hn : MergesInto schema config nested field) (type : WireType) :
    Follows schema config ref (stored schema config nested (schema ref) field type) block := by
  have hlaid := hg.laid.here.laid field hf hh
  unfold stored
  split
  · next hm =>
    refine does_ite (fun hp => ?_) fun _ => follows_element hg hu hs hf hh hm hn
    refine (does_onWire (fun _ => rfl) fun _ => ⟨.refl _, id⟩).bind (P := fun _ b => block = b) ?_
    rintro length _ rfl
    exact does_within (follows_packedElements hlaid hs hf hm hp.2 length) fun _ => ⟨.refl _, id⟩
  · next group hm =>
    have hgroup : field.group?.isSome := by simp [Field.group?, hm]
    obtain ⟨_, _, -, -, -, hslot⟩ := hlaid.slot_ok hs (hlaid.slot_isSome (.inr hgroup))
    refine (does_ask hslot ⟨rfl, hslot⟩).bind
      (P := fun active b => block = b ∧ field.slot block = .ok active) ?_
    rintro active _ ⟨rfl, hactive⟩
    refine does_ite (fun _ => ?_) fun heq => ?_
    · obtain ⟨after, hr⟩ :=
        Schema.activate_ok hg.laid (Nat.le_of_succ_le_succ hg.levels_le) hs hf hh
      have hmoves : schema.Merged (config.validateUtf8 = true) ref block after :=
        ⟨.activate hf hh hgroup hr, fun _ => .activate hf hh hgroup hr⟩
      have hslot' := Schema.slot_activate hlaid hs hgroup (hg.laid.here.tag_le field hf) hr
      refine (does_onBlock hr rfl).bind (P := fun _ b => after = b) ?_
      rintro _ _ rfl
      exact (follows_value hg (hg.unbound hs hu hmoves.moves) (by rwa [hmoves.length_eq]) hf hh hn
        (.active hm hslot')).after hmoves
    · rw [Decidable.not_not] at heq
      exact follows_value hg hu hs hf hh hn (.active hm (heq ▸ hactive))
  · next hm =>
    refine Follows.bind (follows_value hg hu hs hf hh hn (Field.loose_single (.inr hm)))
      fun _ after hmoves => ?_
    refine does_ite (fun ho => ?_) fun _ => does_pure (.refl _)
    obtain ⟨last, _, hr, -⟩ := hlaid.setSlot_ok (by rwa [hmoves.length_eq]) ho 1
    exact does_onBlock hr ⟨.flag hf hh hm (.inl rfl) hr, fun _ => .flag hf hh hm (.inl rfl) hr⟩
  · next hm => exact follows_value hg hu hs hf hh hn (Field.loose_single (.inl hm))

-- ---------------------------------------------------------------------------
-- Messages
-- ---------------------------------------------------------------------------

theorem follows_skipValue (number : Nat) (type : WireType) :
    Follows schema config ref (skipValue number type : Decode σ S Unit) block := by
  refine does_onInput (fun input => Step.ends_mapFailure ?_) (fun _ => .refl _)
    fun _ he => ⟨.refl _, he⟩
  unfold Step.Ends
  split
  · trivial
  · next failure _ _ => cases failure <;> exact id

variable [Handler Ref S]

/-- The value of a handled field that is not bound is skipped. -/
theorem follows_handled (hg : Guarded schema (levels + 1) ref) (hu : Unbound schema ref block)
    (hs : (schema ref).size ≤ block.length) (hf : field ∈ (schema ref).fields)
    (hh : field.isHandled = true) (depth : Nat) (type : WireType) :
    Follows schema config ref (handled config depth field type : Decode σ S Unit) block := by
  have hslot := handlerSlot_of_unbound hu hg.laid.here hs hf hh
  unfold handled
  refine (does_ask hslot ⟨rfl, rfl⟩).bind (P := fun slot b => block = b ∧ slot = 0) ?_
  rintro _ _ ⟨rfl, rfl⟩
  exact follows_skipValue _ _

omit [Source σ] [Handler Ref S] in
theorem follows_checkRequired (table : Table Ref) (seen : List Nat) :
    Follows schema config ref (checkRequired table seen : Decode σ S Unit) block := by
  unfold checkRequired
  split
  · exact does_pure (.refl _)
  · exact does_throw ⟨.refl _, id⟩

theorem follows_fields (hg : Guarded schema (levels + 1) ref) (hu : Unbound schema ref block)
    (hs : (schema ref).size ≤ block.length)
    (hn : ∀ field ∈ (schema ref).fields, field.isHandled = false → MergesInto schema config nested field)
    (depth room : Nat) (cursor : Cursor) (seen : List Nat) :
    Follows schema config ref (fields schema config nested depth (schema ref) room cursor seen) block := by
  induction room generalizing block cursor seen with
  | zero => exact follows_checkRequired _ _
  | succ room ih =>
    have hrest : ∀ (step : Decode σ S Unit) (cursor : Cursor) (seen : List Nat),
        Follows schema config ref step block → Follows schema config ref (do
          step
          fields schema config nested depth (schema ref) room cursor seen) block :=
      fun step cursor seen hstep => hstep.bind fun _ after hm =>
        ih (hg.unbound hs hu hm.moves) (by rwa [hm.length_eq]) cursor seen
    unfold fields
    refine (does_onWire (fun _ => rfl) fun _ => ⟨.refl _, id⟩).bind (P := fun _ b => block = b) ?_
    rintro header _ rfl
    match header with
    | none => exact follows_checkRequired _ _
    | some (number, type) =>
      simp only
      rcases hfind : cursor.find (schema ref) number with ⟨found, cursor'⟩
      cases found with
      | none =>
        refine does_unless (fun _ => ⟨.refl _, id⟩) fun _ => ?_
        exact hrest _ _ _ (follows_skipValue _ _)
      | some entry =>
        have hf := Cursor.mem_of_findWithin hfind
        refine does_ite (fun _ => ?_) fun _ => ?_
        · cases hh : entry.field.isHandled with
          | true => exact hrest _ _ _ (follows_handled hg hu hs hf hh depth type)
          | false => exact hrest _ _ _ (follows_stored hg hu hs hf hh (hn _ hf hh) type)
        · refine does_unless (fun _ => ⟨.refl _, id⟩) fun _ => ?_
          exact hrest _ _ _ (follows_skipValue _ _)

/-- Whatever the input says, decoding a message changes the block by moves and does not blame the
table. If it succeeds and checks texts, the moves are those of a view. -/
theorem follows_messageWithin (hg : Guarded schema levels ref) (hu : Unbound schema ref block)
    (hs : (schema ref).size ≤ block.length) (depth : Nat) :
    Follows schema config ref (messageWithin schema config depth ref : Decode σ S Unit) block := by
  induction depth generalizing levels ref block with
  | zero => exact does_throw ⟨.refl _, id⟩
  | succ depth ih =>
    cases levels with
    | zero => cases hg.laid
    | succ levels =>
      unfold messageWithin
      refine (does_ask (Table.checkBlock_ok hs) rfl).bind (P := fun _ b => block = b) ?_
      rintro _ _ rfl
      refine (does_get fun _ _ => rfl).bind (P := fun _ b => block = b) ?_
      rintro state _ rfl
      refine follows_fields hg hu hs (fun field hf hh inner hk held hsize hheld => ?_) _ _ _ _
      exact ih (hg.below hf hh hk) hheld hsize

end Decode

end BlockCodec
