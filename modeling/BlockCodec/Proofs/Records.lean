import BlockCodec.Proofs.Walking

/-!
# Messages are sequences of records

Whatever the table makes of a field, it takes from the input just what a reader without a table would
skip. So a message that is accepted is a sequence of records, and since no record begins another one,
it is so in one way only: `Wire.prefix_of_flatten`. Where one record ends and the next begins is a
matter of the bytes alone.
-/

namespace BlockCodec

namespace Wire

/-- A field header with the payload of its wire type, and nothing else. -/
def Record (bytes : Bytes) : Prop :=
  ∃ number type payload rest, readTag.result (.ofBytes bytes) = (.ok (some (number, type)), payload) ∧
    (skipField type).result payload = (.ok (), rest) ∧ rest.left = 0

/-- The first `count` bytes are whole records, and so are the others. -/
def Boundary (content : Bytes) (count : Nat) : Prop :=
  ∃ front back : List Bytes, (∀ bytes ∈ front ++ back, Record bytes) ∧
    front.flatten = content.take count ∧ back.flatten = content.drop count

section

variable {σ τ : Type} [Source σ] [Supply σ] [Source τ] [Supply τ]

omit [Supply σ] in
/-- The next record, when there is one. -/
def nextRecord : Read σ (Nat × WireType) := do
  let tag ← nextTag
  skipField tag.2
  pure tag

theorem tracks_nextRecord :
    Tracks WireError.IsShort 1 (nextRecord : Read σ (Nat × WireType))
      (nextRecord : Read τ (Nat × WireType)) :=
  tracks_nextTag.first fun tag => (tracks_skipField tag.2).then fun _ => tracks_pure tag

end

theorem result_nextTag_of_readTag {σ : Type} [Source σ] [Supply σ] {input after : Input σ}
    {content : Bytes} {left taken : Nat} {tag : Nat × WireType} (hat : input.At content left taken)
    (hr : readTag.result input = (.ok (some tag), after)) : nextTag.result input = (.ok tag, after) := by
  rcases Nat.eq_zero_or_pos (min left content.length) with hzero | hpos
  · obtain ⟨last, hend, -⟩ := result_readTag_end hat hzero
    simp [hend] at hr
  · rw [result_readTag_next hat hpos, Step.result_bind_eq_ok] at hr
    obtain ⟨next, middle, hnext, hsome⟩ := hr
    obtain ⟨rfl, rfl⟩ : next = tag ∧ middle = after := by simpa using hsome
    exact hnext

theorem result_readTag_of_nextTag {σ : Type} [Source σ] [Supply σ] {input after : Input σ}
    {content : Bytes} {left taken : Nat} {tag : Nat × WireType} (hat : input.At content left taken)
    (hr : nextTag.result input = (.ok tag, after)) : readTag.result input = (.ok (some tag), after) := by
  have htracks : Tracks WireError.IsShort 1 (nextTag : Read σ _) (nextTag : Read σ _) := tracks_nextTag
  obtain ⟨count, hone, hle, -⟩ := (htracks.advances hat).ok hr
  rw [result_readTag_next hat (Nat.lt_of_lt_of_le hone hle), Step.result_bind_ok hr]
  rfl

theorem record_iff {bytes : Bytes} : Record bytes ↔
    ∃ tag rest, nextRecord.result (.ofBytes bytes) = (.ok tag, rest) ∧ rest.left = 0 := by
  have hat := Input.at_ofBytes bytes
  constructor
  · rintro ⟨number, type, payload, rest, htag, hskip, hleft⟩
    refine ⟨(number, type), rest, ?_, hleft⟩
    rw [nextRecord, Step.result_bind_ok (result_nextTag_of_readTag hat htag), Step.result_bind_ok hskip]
    rfl
  · rintro ⟨⟨number, type⟩, rest, hr, hleft⟩
    rw [nextRecord, Step.result_bind_eq_ok] at hr
    obtain ⟨tag, payload, htag, hr⟩ := hr
    obtain ⟨_, last, hskip, hr⟩ := Step.result_bind_eq_ok.mp hr
    obtain ⟨rfl, rfl⟩ : tag = (number, type) ∧ last = rest := by simpa using hr
    exact ⟨number, type, payload, last, result_readTag_of_nextTag hat htag, hskip, hleft⟩

/-- What a record has been read from begins with it. -/
theorem record_take {σ : Type} [Source σ] [Supply σ] {input rest : Input σ} {content : Bytes}
    {left taken count : Nat} {tag : Nat × WireType} (hat : input.At content left taken)
    (hr : nextRecord.result input = (.ok tag, rest))
    (hrest : rest.At (content.drop count) (left - count) (taken + count)) :
    count ≤ min left content.length ∧ Record (content.take count) := by
  have hself : Tracks WireError.IsShort 1 (nextRecord : Read σ (Nat × WireType))
    (nextRecord : Read σ (Nat × WireType)) := tracks_nextRecord
  obtain ⟨advanced, -, hle, hadvanced⟩ := (hself.advances hat).ok hr
  obtain rfl : advanced = count := by
    have hsame : taken + advanced = taken + count :=
      hadvanced.taken_eq.symm.trans hrest.taken_eq
    omega
  have hlen : (content.take advanced).length = advanced := List.length_take_of_le (by omega)
  have htracks : Tracks WireError.IsShort 1 (nextRecord : Read Bytes (Nat × WireType))
    (nextRecord : Read σ (Nat × WireType)) := tracks_nextRecord
  have hshort : (Input.ofBytes (content.take advanced)).At (content.take advanced) advanced 0 :=
    ⟨rfl, hlen, rfl⟩
  obtain ⟨last, hlast, hleft, -⟩ := htracks.alone hat hle hshort rfl hr hrest.taken_eq
  exact ⟨hle, record_iff.mpr ⟨tag, last, hlast, hleft⟩⟩

/-- No record begins another one. -/
theorem Record.eq_of_prefix {bytes other : Bytes} (h : Record bytes) (ho : Record other)
    (hp : bytes <+: other) : bytes = other := by
  obtain ⟨more, rfl⟩ := hp
  obtain ⟨tag, rest, hr, hleft⟩ := record_iff.mp h
  obtain ⟨tag', rest', hr', hleft'⟩ := record_iff.mp ho
  have htracks : Tracks WireError.IsShort 1 (nextRecord : Read Bytes (Nat × WireType))
    (nextRecord : Read Bytes (Nat × WireType)) := tracks_nextRecord
  obtain ⟨-, last, hlast, hmore, -⟩ :=
    htracks.behind (Input.at_ofBytes bytes) (Input.at_ofBytes (bytes ++ more)) (by simp) rfl hr hleft
  obtain ⟨-, rfl⟩ := Prod.mk.inj (hr'.symm.trans hlast)
  have hend := hmore.left_eq
  rw [Reader.input_self, hleft', List.length_append, Nat.add_sub_cancel_left] at hend
  rw [List.length_eq_zero_iff.mp hend.symm, List.append_nil]

theorem Record.ne_nil {bytes : Bytes} (h : Record bytes) : bytes ≠ [] := by
  rintro rfl
  obtain ⟨number, type, payload, rest, htag, -⟩ := h
  cases htag

/-- Records are told apart from the front. -/
theorem prefix_of_flatten {front records : List Bytes} (hf : ∀ bytes ∈ front, Record bytes)
    (hr : ∀ bytes ∈ records, Record bytes) (hp : front.flatten <+: records.flatten) :
    front <+: records := by
  induction front generalizing records with
  | nil => exact List.nil_prefix
  | cons first front ih =>
    obtain ⟨hfirst, hfront⟩ := List.forall_mem_cons.mp hf
    rw [List.flatten_cons] at hp
    have hbegins : first <+: records.flatten := (List.prefix_append _ _).trans hp
    cases records with
    | nil => exact absurd (List.prefix_nil.mp hbegins) hfirst.ne_nil
    | cons next records =>
      obtain ⟨hnext, hrecords⟩ := List.forall_mem_cons.mp hr
      have heq : first = next := by
        rcases List.prefix_or_prefix_of_prefix hbegins (List.prefix_append next records.flatten) with
          h | h
        · exact hfirst.eq_of_prefix hnext h
        · exact (hnext.eq_of_prefix hfirst h).symm
      subst heq
      rw [List.flatten_cons, List.prefix_append_right_inj] at hp
      exact List.cons_prefix_cons.mpr ⟨rfl, ih hfront hrecords hp⟩

/-- Bytes are cut into records in one way. -/
theorem eq_of_flatten {records others : List Bytes} (hr : ∀ bytes ∈ records, Record bytes)
    (ho : ∀ bytes ∈ others, Record bytes) (h : records.flatten = others.flatten) : records = others := by
  have hle := prefix_of_flatten hr ho (h ▸ List.prefix_rfl)
  have hge := prefix_of_flatten ho hr (h ▸ List.prefix_rfl)
  exact hle.eq_of_length (Nat.le_antisymm hle.length_le hge.length_le)

/-- Records that are the front of others end on a boundary. -/
theorem boundary_of_records {front records : List Bytes} {content : Bytes} {count : Nat}
    (hf : ∀ bytes ∈ front, Record bytes) (hr : ∀ bytes ∈ records, Record bytes)
    (hfront : front.flatten = content.take count) (hrecords : records.flatten = content) :
    Boundary content count := by
  obtain ⟨back, rfl⟩ := prefix_of_flatten hf hr (by
    rw [hfront, hrecords]
    exact List.take_prefix _ _)
  refine ⟨front, back, hr, hfront, ?_⟩
  rw [List.flatten_append, hfront] at hrecords
  exact List.append_cancel_left (hrecords.trans (List.take_append_drop count content).symm)

end Wire

namespace Wire

variable {σ : Type} [Source σ]

-- ---------------------------------------------------------------------------
-- What is read could be skipped
-- ---------------------------------------------------------------------------

theorem skipGroups_of_readGroups {places weight sum : Nat} {input after : Input σ} {value : UInt64}
    (h : (readGroups places weight sum).result input = (.ok value, after)) :
    (skipGroups places).result input = (.ok (), after) := by
  induction places generalizing weight sum input with
  | zero => cases h
  | succ places ih =>
    obtain ⟨byte, middle, hbyte, h⟩ := Step.result_bind_eq_ok.mp h
    rw [skipGroups, Step.result_bind_ok hbyte]
    by_cases hbig : places = 0 ∧ 1 < byte
    · rw [if_pos hbig] at h
      cases h
    · rw [if_neg hbig] at h
      by_cases hlast : byte < 128
      · simp only [if_pos hlast] at h ⊢
        cases h
        rfl
      · simp only [if_neg hlast] at h ⊢
        exact ih h

theorem skipVarint_of_readVarint {input after : Input σ} {value : UInt64}
    (h : readVarint.result input = (.ok value, after)) : skipVarint.result input = (.ok (), after) := by
  obtain ⟨first, middle, hfirst, h⟩ := Step.result_bind_eq_ok.mp h
  rw [skipVarint, Step.result_bind_ok hfirst]
  unfold readVarintFrom at h
  by_cases hlast : first < 128
  · rw [if_pos hlast] at h ⊢
    cases h
    rfl
  · rw [if_neg hlast] at h ⊢
    exact skipGroups_of_readGroups h

end Wire

/-- A wire type that a field takes is that of its kind, but for packed numbers. -/
theorem Field.type_of_accepts {Ref : Type} {field : Field Ref} {type : WireType} (ha : field.accepts type)
    (hp : ¬(type = .delimited ∧ field.kind.isScalar ∧ (field.isRepeated ∨ field.isHandled))) :
    type = field.kind.wireType := by
  simp only [Field.accepts, Bool.or_eq_true, beq_iff_eq, Bool.and_eq_true] at ha
  rcases ha with h | ⟨⟨htype, hscalar⟩, hmany⟩
  · exact h
  · exact absurd ⟨htype, hscalar, hmany⟩ hp

namespace Decode

variable {σ S α β Ref : Type} [Source σ] [Supply σ] {count : Nat} {type : WireType}

-- ---------------------------------------------------------------------------
-- Steps that take a known number of bytes
-- ---------------------------------------------------------------------------

omit [Source σ] [Supply σ] in
theorem input_of_onBlock {edit : Edit α} {state after : Decoding σ S} {value : α}
    (h : (onBlock edit).result state = (.ok value, after)) : after.input = state.input := by
  obtain ⟨-, rfl⟩ := Prod.mk.inj h
  rfl

omit [Source σ] [Supply σ] in
theorem input_of_nextElement {field : Field Ref} {state after : Decoding σ S} {count : Nat}
    (h : (nextElement field).result state = (.ok count, after)) : after.input = state.input := by
  obtain ⟨_, middle, hask, h⟩ := Step.result_bind_eq_ok.mp h
  rw [← input_of_onBlock hask]
  split at h <;> cases h
  rfl

/-- A step that succeeds has taken `count` bytes. -/
def Takes (count : Nat) (step : Decode σ S α) : Prop :=
  ∀ ⦃state after : Decoding σ S⦄ ⦃value : α⦄ ⦃content : Bytes⦄ ⦃left taken : Nat⦄,
    state.input.At content left taken → step.result state = (.ok value, after) →
      count ≤ min left content.length ∧
        after.input.At (content.drop count) (left - count) (taken + count)

theorem takes_pure (value : α) : Takes 0 (pure value : Decode σ S α) := by
  intro state after _ content left taken hat hr
  cases hr
  exact ⟨Nat.zero_le _, hat⟩

theorem takes_onBlock (edit : Edit α) : Takes 0 (onBlock edit : Decode σ S α) := by
  intro state after value content left taken hat hr
  rw [input_of_onBlock hr]
  exact ⟨Nat.zero_le _, hat⟩

theorem Takes.first {next : α → Decode σ S β} {step : Decode σ S α} (h : Takes count step)
    (hn : ∀ value, Takes 0 (next value)) : Takes count (step >>= next) := by
  intro state after value content left taken hat hr
  obtain ⟨_, middle, hstep, hnext⟩ := Step.result_bind_eq_ok.mp hr
  obtain ⟨hle, hmiddle⟩ := h hat hstep
  exact ⟨hle, (hn _ hmiddle hnext).2⟩

theorem takes_get {next : Decoding σ S → Decode σ S α} (h : ∀ state, Takes count (next state)) :
    Takes count (get >>= next) :=
  fun state _ _ _ _ _ hat hr => h state hat hr

theorem takes_ite {c : Prop} [Decidable c] {yes no : Decode σ S α} (hy : Takes count yes)
    (hn : Takes count no) : Takes count (if c then yes else no) := by
  split
  · exact hy
  · exact hn

theorem takes_throw (failure : CodecError) : Takes count (throw failure : Decode σ S α) := by
  intro state after value content left taken hat hr
  cases hr

theorem takes_unless {c : Prop} [Decidable c] {failure : CodecError} {next : Unit → Decode σ S α}
    (hn : Takes count (next ())) :
    Takes count (if c then (throw failure : Decode σ S Unit) >>= next else next ()) := by
  refine takes_ite ?_ hn
  intro state after value content left taken hat hr
  cases hr

theorem takes_fill (start count : Nat) : Takes count (fill start count : Decode σ S Unit) := by
  intro state after value content left taken hat hr
  rw [fill, Step.result_ofRun] at hr
  by_cases hle : count ≤ min left content.length
  · obtain ⟨last, hd, hlast⟩ := hat.deliver hle
    rw [hd] at hr
    cases hr
    exact ⟨hle, hlast⟩
  · obtain ⟨bytes, failure, last, hd⟩ := hat.deliver_short (Nat.lt_of_not_le hle)
    rw [hd] at hr
    cases hr

theorem Exhausts.takes_count {length : Nat} {step : Decode σ S α} (h : Exhausts length step step) :
    Takes length (Decode.within length step) :=
  fun _ _ _ _ _ _ hat hr => (h.takes_within hat).ok hr

-- ---------------------------------------------------------------------------
-- Values
-- ---------------------------------------------------------------------------

/-- A step that succeeds has taken what skipping a payload would have taken. -/
def Passes (type : WireType) (step : Decode σ S α) : Prop :=
  ∀ ⦃state after : Decoding σ S⦄ ⦃value : α⦄ ⦃content : Bytes⦄ ⦃left taken : Nat⦄,
    state.input.At content left taken → step.result state = (.ok value, after) →
      ∃ count skipped, after.input.At (content.drop count) (left - count) (taken + count) ∧
        (Wire.skipField type).result state.input = (.ok (), skipped) ∧
        skipped.At (content.drop count) (left - count) (taken + count)

/-- What stands behind the value is no matter of the input. -/
theorem Passes.first {next : α → Decode σ S β} {step : Decode σ S α} (h : Passes type step)
    (hn : ∀ value, Takes 0 (next value)) : Passes type (step >>= next) := by
  intro state after value content left taken hat hr
  obtain ⟨_, middle, hstep, hnext⟩ := Step.result_bind_eq_ok.mp hr
  obtain ⟨count, skipped, hmiddle, hskip, hskipped⟩ := h hat hstep
  exact ⟨count, skipped, (hn _ hmiddle hnext).2, hskip, hskipped⟩

/-- Nor is what stands before it, if it leaves the input alone. -/
theorem Passes.after {step : Decode σ S α} {next : α → Decode σ S β}
    (hs : ∀ {state after : Decoding σ S} {value : α}, step.result state = (.ok value, after) →
      after.input = state.input)
    (h : ∀ value, Passes type (next value)) : Passes type (step >>= next) := by
  intro state after value content left taken hat hr
  obtain ⟨_, middle, hstep, hnext⟩ := Step.result_bind_eq_ok.mp hr
  have hinput := hs hstep
  rw [← hinput] at hat ⊢
  exact h _ hat hnext

theorem passes_ite {c : Prop} [Decidable c] {yes no : Decode σ S α} (hy : c → Passes type yes)
    (hn : ¬c → Passes type no) : Passes type (if c then yes else no) := by
  split
  · next h => exact hy h
  · next h => exact hn h

theorem passes_unless {c : Prop} [Decidable c] {failure : CodecError} {next : Unit → Decode σ S α}
    (hn : ¬c → Passes type (next ())) :
    Passes type (if c then (throw failure : Decode σ S Unit) >>= next else next ()) := by
  refine passes_ite (fun _ => ?_) hn
  intro state after value content left taken hat hr
  cases hr

theorem passes_inside {field : Field Ref} {span : Span} {step : Decode σ S α} (h : Passes type step) :
    Passes type (inside field span step) := by
  intro state after value content left taken hat hr
  rw [inside, Step.result_ofRun] at hr
  cases hs : Bytes.slice? state.block span with
  | none => simp [hs] at hr
  | some stored =>
    rcases hstep : step.result { state with block := stored } with ⟨outcome, inner⟩
    simp only [hs, hstep] at hr
    cases hr
    exact @h { state with block := stored } inner value content left taken hat hstep

/-- A delimited value is skipped by its length. -/
theorem passes_delimited {next : Nat → Decode σ S α} (hn : ∀ length, Takes length (next length)) :
    Passes .delimited (onWire Wire.readLength >>= next) := by
  intro state after value content left taken hat hr
  obtain ⟨length, middle, hstep, hnext⟩ := Step.result_bind_eq_ok.mp hr
  have hread := Step.result_mapFailure_eq_ok (result_onInput_eq_ok hstep)
  have hlength : Owes WireError.IsShort 0 id (Wire.readLength : Wire.Read σ Nat)
      (Wire.readLength : Wire.Read σ Nat) := Wire.owes_readLength
  obtain ⟨count, -, -, hmiddle⟩ := (hlength.advances hat).ok hread
  obtain ⟨hfits, hafter⟩ := hn length hmiddle hnext
  have hskip := Input.demands_skip length _ _ _ _ hmiddle
  rcases hs : (Input.skip length).result middle.input with ⟨outcome, skipped⟩
  cases outcome with
  | error failure =>
    have := (hskip.error hs).1
    omega
  | ok _ =>
    obtain ⟨-, -, hskipped, -⟩ := hskip.ok hs
    refine ⟨count + length, skipped, ?_, ?_, ?_⟩
    · rwa [List.drop_drop, Nat.sub_sub, Nat.add_assoc] at hafter
    · rw [Wire.skipField, Step.result_bind_ok hread, Wire.onStream, Step.result_mapFailure, hs]
      rfl
    · rwa [List.drop_drop, Nat.sub_sub, Nat.add_assoc] at hskipped

theorem passes_skipValue (number : Nat) (type : WireType) :
    Passes type (skipValue number type : Decode σ S Unit) := by
  intro state after value content left taken hat hr
  have hskip := Step.result_mapFailure_eq_ok (result_onInput_eq_ok hr)
  have htracks : Tracks WireError.IsShort 0 (Wire.skipField type : Wire.Read σ Unit)
      (Wire.skipField type : Wire.Read σ Unit) := Wire.tracks_skipField type
  obtain ⟨count, -, -, hafter⟩ := (htracks.advances hat).ok hskip
  exact ⟨count, after.input, hafter, hskip, hafter⟩

/-- A number is skipped as it is read. -/
theorem passes_read {least : Nat} {read : Wire.Read σ β} {f : β → α}
    (hread : Tracks WireError.IsShort least read read)
    (hskip : ∀ {input after : Input σ} {content : Bytes} {left taken : Nat} {value : β},
      input.At content left taken → read.result input = (.ok value, after) →
        ∃ skipped, (Wire.skipField type).result input = (.ok (), skipped) ∧
          skipped.taken = after.taken) :
    Passes type (onInput (do let value ← read.mapFailure .wire; pure (f value)) : Decode σ S α) := by
  intro state after value content left taken hat hr
  obtain ⟨number, middle, hstep, hpure⟩ := Step.result_bind_eq_ok.mp (result_onInput_eq_ok hr)
  obtain rfl : middle = after.input := congrArg Prod.snd hpure
  have hnumber := Step.result_mapFailure_eq_ok hstep
  obtain ⟨skipped, hs, htaken⟩ := hskip hat hnumber
  have hpass : Tracks WireError.IsShort 0 (Wire.skipField type : Wire.Read σ Unit)
    (Wire.skipField type : Wire.Read σ Unit) := Wire.tracks_skipField type
  obtain ⟨count, -, -, hafter⟩ := (hread.advances hat).ok hnumber
  obtain ⟨passed, -, -, hskipped⟩ := (hpass.advances hat).ok hs
  have hcount : taken + passed = taken + count :=
    (hskipped.taken_eq.symm.trans htaken).trans hafter.taken_eq
  obtain rfl : passed = count := by omega
  exact ⟨passed, skipped, hafter, hs, hskipped⟩

theorem skip_of_read {width : Nat} {input after : Input σ} {content bytes : Bytes} {left taken : Nat}
    (hat : input.At content left taken)
    (h : (Wire.onStream (Input.read width)).result input = (.ok bytes, after)) :
    ∃ skipped, (Wire.onStream (Input.skip width)).result input = (.ok (), skipped) ∧
      skipped.taken = after.taken := by
  obtain ⟨hle, -, hafter, -⟩ :=
    (Input.demands_read width _ _ _ _ hat).ok (Step.result_mapFailure_eq_ok h)
  have hskip := Input.demands_skip width _ _ _ _ hat
  rcases hs : (Input.skip width).result input with ⟨outcome, skipped⟩
  cases outcome with
  | error failure =>
    have := (hskip.error hs).1
    omega
  | ok _ =>
    obtain ⟨-, -, hskipped, -⟩ := hskip.ok hs
    refine ⟨skipped, ?_, hskipped.taken_eq.trans hafter.taken_eq.symm⟩
    rw [Wire.onStream, Step.result_mapFailure, hs]
    rfl

theorem passes_number {field : Field Ref} (hk : field.kind.isScalar = true) :
    Passes field.kind.wireType (number field : Decode σ S Scalar) := by
  have hvarint : ∀ f : UInt64 → Scalar, Passes .varint
      (onInput (do let value ← Wire.readVarint.mapFailure .wire; pure (f value)) :
        Decode σ S Scalar) :=
    fun _ => passes_read Wire.tracks_readVarint fun _ hr => by
      exact ⟨_, Wire.skipVarint_of_readVarint hr, rfl⟩
  have hzigzag : ∀ f : Int64 → Scalar, Passes .varint
      (onInput (do let value ← Wire.readZigZag.mapFailure .wire; pure (f value)) :
        Decode σ S Scalar) :=
    fun _ => passes_read Wire.tracks_readZigZag fun _ hr => by
      obtain ⟨_, middle, hr, hpure⟩ := Step.result_bind_eq_ok.mp hr
      cases hpure
      exact ⟨_, Wire.skipVarint_of_readVarint hr, rfl⟩
  have hfixed32 : ∀ f : UInt32 → Scalar, Passes .fixed32
      (onInput (do let value ← Wire.readFixed32.mapFailure .wire; pure (f value)) :
        Decode σ S Scalar) :=
    fun _ => passes_read Wire.tracks_readFixed32 fun hat hr => by
      obtain ⟨_, middle, hr, hpure⟩ := Step.result_bind_eq_ok.mp hr
      cases hpure
      exact skip_of_read hat hr
  have hfixed64 : ∀ f : UInt64 → Scalar, Passes .fixed64
      (onInput (do let value ← Wire.readFixed64.mapFailure .wire; pure (f value)) :
        Decode σ S Scalar) :=
    fun _ => passes_read Wire.tracks_readFixed64 fun hat hr => by
      obtain ⟨_, middle, hr, hpure⟩ := Step.result_bind_eq_ok.mp hr
      cases hpure
      exact skip_of_read hat hr
  rw [number]
  obtain ⟨hw, f, hf⟩ | ⟨hw, f, hf⟩ | ⟨hw, f, hf⟩ | ⟨hw, f, hf⟩ | ⟨hno, -⟩ := readScalar_forms field
  · rw [hw, hf σ]
    exact hvarint f
  · rw [hw, hf σ]
    exact hzigzag f
  · rw [hw, hf σ]
    exact hfixed32 f
  · rw [hw, hf σ]
    exact hfixed64 f
  · rw [hk] at hno
    cases hno

variable {schema : Schema Ref} {config : DecodeConfig} {nested : Ref → Decode σ S Unit}
  {table : Table Ref} {field : Field Ref}

theorem passes_text (config : DecodeConfig) (field : Field Ref) :
    Passes .delimited (text config field : Decode σ S Unit) := by
  refine passes_delimited fun length => takes_get fun state => takes_unless ?_
  refine (takes_fill 0 length).first fun _ => (takes_onBlock _).first fun _ => takes_get fun state => ?_
  exact takes_ite (takes_throw _) (takes_pure ())

theorem passes_payload (field : Field Ref) :
    Passes .delimited (payload field : Decode σ S Unit) := by
  refine passes_delimited fun length => takes_get fun state => takes_unless (takes_unless ?_)
  exact (takes_fill 4 length).first fun _ => takes_onBlock _

theorem passes_value (hn : NestsAlike nested nested field) :
    Passes field.kind.wireType (value config nested field) := by
  unfold value
  split
  · next hk => rw [hk]; exact passes_text config field
  · next hk => rw [hk]; exact passes_payload field
  · next inner hk =>
    rw [hk]
    exact passes_delimited fun length => ((hn inner hk).whole length).takes_count
  · next ht hb hm =>
    refine (passes_number ?_).first fun _ => takes_onBlock _
    cases hk : field.kind <;> simp_all [Kind.isScalar]

theorem passes_element (hn : NestsAlike nested nested field) :
    Passes field.kind.wireType (element schema config nested field) := by
  have hvalue : Passes field.kind.wireType (value config nested field) := passes_value hn
  unfold element
  generalize value config nested field = step at hvalue
  refine Passes.after input_of_nextElement fun count => ?_
  refine (passes_inside ?_).first fun _ => takes_onBlock _
  split
  · exact Passes.after input_of_onBlock fun _ => hvalue
  · exact hvalue

theorem passes_stored (hn : NestsAlike nested nested field) (ha : field.accepts type)
    (hh : field.isHandled = false) : Passes type (stored schema config nested table field type) := by
  have hsame : ¬(type = .delimited ∧ field.kind.isScalar ∧ field.isRepeated) → type = field.kind.wireType :=
    fun hno => Field.type_of_accepts ha fun ⟨hd, hs, hmany⟩ => hno ⟨hd, hs, by simpa [hh] using hmany⟩
  have hinside : type = field.kind.wireType →
      Passes type (inside field field.data (value config nested field)) := by
    rintro rfl
    exact passes_inside (passes_value hn)
  unfold stored
  split
  · next hm =>
    refine passes_ite (fun hpacked => ?_) fun hpacked => ?_
    · rw [hpacked.1]
      exact passes_delimited fun length => (exhausts_packedElements field length).takes_count
    · obtain rfl := hsame fun ⟨htype, hscalar, _⟩ => hpacked ⟨htype, hscalar⟩
      exact passes_element hn
  · next group hm =>
    have htype := hsame fun ⟨_, _, hrepeated⟩ => by simp [Field.isRepeated, hm] at hrepeated
    refine Passes.after input_of_onBlock fun active => passes_ite (fun _ => ?_) fun _ => hinside htype
    exact Passes.after input_of_onBlock fun _ => hinside htype
  · next hm =>
    have htype := hsame fun ⟨_, _, hrepeated⟩ => by simp [Field.isRepeated, hm] at hrepeated
    exact (hinside htype).first fun _ => takes_ite (takes_onBlock _) (takes_pure ())
  · next hm =>
    exact hinside (hsame fun ⟨_, _, hrepeated⟩ => by simp [Field.isRepeated, hm] at hrepeated)

variable [Handler Ref S] {depth : Nat}

theorem passes_record {number : Nat} {found : Option (Entry Ref)}
    (hu : ∀ entry, found = some entry → entry.field.isHandled = false)
    (hn : ∀ entry, found = some entry → NestsAlike nested nested entry.field) :
    Passes type (record schema config nested depth table type number found) := by
  have hskip : Passes type (do skipValue number type; pure none : Decode σ S (Option Nat)) :=
    (passes_skipValue number type).first fun _ => takes_pure none
  unfold record
  split
  · exact passes_unless fun _ => hskip
  · next entry =>
    refine passes_ite (fun ha => ?_) fun _ => passes_unless fun _ => hskip
    simp only [hu entry rfl, Bool.false_eq_true, if_false]
    exact (passes_stored (hn entry rfl) ha (hu entry rfl)).first fun _ => takes_pure _

-- ---------------------------------------------------------------------------
-- Messages
-- ---------------------------------------------------------------------------

/-- A field that has been read is a record. -/
theorem record_of_nextField (hp : table.Plain)
    (hn : ∀ field ∈ table.fields, NestsAlike nested nested field) {state after : Decoding σ S}
    {lap : (Nat × WireType) × Option Nat} {content : Bytes} {left taken : Nat}
    (hat : state.input.At content left taken)
    (hr : (nextField schema config nested depth table).result state = (.ok lap, after)) :
    ∃ count, 0 < count ∧ count ≤ min left content.length ∧ Wire.Record (content.take count) ∧
      after.input.At (content.drop count) (left - count) (taken + count) := by
  obtain ⟨tag, middle, htag, hr⟩ := Step.result_bind_eq_ok.mp hr
  obtain ⟨mark, last, hrecord, hpure⟩ := Step.result_bind_eq_ok.mp hr
  obtain rfl : last = after := congrArg Prod.snd hpure
  have hheader := Step.result_mapFailure_eq_ok (result_onInput_eq_ok htag)
  have hnext : Tracks WireError.IsShort 1 (Wire.nextTag : Wire.Read σ _)
      (Wire.nextTag : Wire.Read σ _) := Wire.tracks_nextTag
  obtain ⟨header, hone, hle, hmiddle⟩ := (hnext.advances hat).ok hheader
  obtain ⟨rest, skipped, hlast, hskip, hskipped⟩ := passes_record
    (fun entry hentry => hp.unhandled _ (Cursor.mem_of_entryOf? hentry))
    (fun entry hentry => hn _ (Cursor.mem_of_entryOf? hentry)) hmiddle hrecord
  rw [List.drop_drop, Nat.sub_sub, Nat.add_assoc] at hlast hskipped
  have hwhole : Wire.nextRecord.result state.input = (.ok tag, skipped) := by
    rw [Wire.nextRecord, Step.result_bind_ok hheader, Step.result_bind_ok hskip]
    rfl
  obtain ⟨hcount, hrecord⟩ := Wire.record_take hat hwhole hskipped
  exact ⟨header + rest, by omega, hcount, hrecord, hlast⟩

end Decode

end BlockCodec
