import BlockCodec.Proofs.Restoring
import BlockCodec.Proofs.Writing

/-!
# Steps that accept bytes

Over storage that holds something else the form of a value does not restore what it was made of, but
it is accepted: the decoder `Accepts` bytes when it takes just these and goes on, unless it gives up
for one of the reasons it is granted.
-/

namespace BlockCodec

variable {Ref S α : Type} {schema : Schema Ref} {field : Field Ref}
  {block content a b before middle after held stored : Bytes} {span : Span}

namespace Field

/-- Storage that shows the same value as the other; of messages `same` says so. -/
def Repeats (same : Ref → Bytes → Bytes → Prop) (field : Field Ref) (stored after : Bytes) : Prop :=
  match field.kind with
  | .text => field.textBytes after = field.textBytes stored
  | .bytes => field.payload after = field.payload stored
  | .message inner => same inner stored after
  | kind => kind.loadScalar after = kind.loadScalar stored ∧ Bytes.isZero after = Bytes.isZero stored

variable {same : Ref → Bytes → Bytes → Prop}

theorem repeats_iff_scalar (hk : field.kind.isScalar = true) : field.Repeats same stored after ↔
    field.kind.loadScalar after = field.kind.loadScalar stored ∧
      Bytes.isZero after = Bytes.isZero stored := by
  cases hkind : field.kind <;> simp_all [Repeats, Kind.isScalar]

/-- Storage of a number takes at most eight bytes. -/
theorem dataSize_le_of_scalar (hk : field.kind.isScalar = true) (hs : field.Suits schema) :
    field.dataSize ≤ 8 := by
  have hwidth : ∀ width : Width, width.bytes ≤ 8 := fun width => by cases width <;> decide
  cases hkind : field.kind with
  | text | bytes | message => simp [hkind, Kind.isScalar] at hk
  | fixed type =>
    obtain ⟨width, signed⟩ := type
    cases width <;> simp_all [Suits, Kind.scalarWidth?, Width.bytes]
    all_goals omega
  | float width =>
    cases width <;> simp_all [Suits, Kind.scalarWidth?, Width.bytes]
    all_goals omega
  | _ =>
    simp only [Suits, hkind, Kind.scalarWidth?, Option.some.injEq] at hs
    rw [← hs]
    first | exact hwidth _ | decide

theorem length_payload {payload : Bytes} (h : field.payload stored = .ok payload) :
    payload.length + 4 ≤ stored.length := by
  unfold Field.payload at h
  split at h
  · cases h
  · simp only at h
    split at h
    · cases h
    · cases h
      rw [List.length_take, List.length_drop]
      omega

end Field

namespace Decode

-- ---------------------------------------------------------------------------
-- Steps
-- ---------------------------------------------------------------------------

/-- From any input that begins with these bytes the step takes them and leaves a block as `Q` says, or
it fails as `E` says. If `last`, the input need only be one that ends behind them. -/
def Accepts (E : CodecError → Prop) (last : Prop) (step : Decode Bytes S Unit) (content before : Bytes)
    (Q : Bytes → Prop) : Prop :=
  ∀ (rest : Bytes) (left taken : Nat) (bounded : Bool) (handlers : List S), content.length ≤ left →
    (last → left = content.length) →
    step.Ends ⟨⟨content ++ rest, left, taken, bounded⟩, before, handlers⟩
      (fun _ state => ∃ after, Q after ∧ state =
        ⟨⟨rest, left - content.length, taken + content.length, bounded⟩, after, handlers⟩)
      fun failure _ => E failure

variable {E E' : CodecError → Prop} {last : Prop} {P Q : Bytes → Prop} {step : Decode Bytes S Unit}

theorem Restores.accepts (h : Restores last step content before () after) (hq : Q after) :
    Accepts E last step content before Q :=
  fun rest left taken bounded handlers hle hlast =>
    .of_ok (h rest left taken bounded handlers hle hlast) ⟨after, hq, rfl⟩

/-- A step that may not give up. -/
theorem Accepts.restores (h : Accepts (fun _ => False) last step content before (· = after)) :
    Restores last step content before () after := by
  intro rest left taken bounded handlers hle hlast
  obtain ⟨_, _, hr, _, rfl, rfl⟩ := (h rest left taken bounded handlers hle hlast).answers
  exact hr

theorem accepts_throw {failure : CodecError} (h : E failure) :
    Accepts E last (throw failure : Decode Bytes S Unit) content before Q :=
  fun _ _ _ _ _ _ _ => h

theorem Accepts.mono (h : Accepts E last step content before P) (hq : ∀ after, P after → Q after)
    (he : ∀ failure, E failure → E' failure) : Accepts E' last step content before Q :=
  fun rest left taken bounded handlers hle hlast =>
    (h rest left taken bounded handlers hle hlast).mono
      (fun _ _ ⟨after, hp, hstate⟩ => ⟨after, hq after hp, hstate⟩) fun failure _ => he failure

/-- Of two steps the one takes what the other leaves. -/
theorem Accepts.seq {next : Unit → Decode Bytes S Unit} (h : Accepts E False step a before P)
    (hn : ∀ middle, P middle → Accepts E last (next ()) b middle Q) :
    Accepts E last (step >>= next) (a ++ b) before Q := by
  intro rest left taken bounded handlers hle hlast
  rw [List.length_append] at hle hlast
  rw [List.append_assoc]
  refine Step.Ends.bind (h _ _ _ _ _ (by omega) False.elim) ?_
  rintro _ _ ⟨middle, hp, rfl⟩
  refine (hn middle hp _ _ _ _ _ (by omega) fun h => by have := hlast h; omega).mono ?_ fun _ _ h => h
  rintro _ _ ⟨after, hq, rfl⟩
  exact ⟨after, hq, by rw [List.length_append, Nat.sub_sub, Nat.add_assoc]⟩

/-- What a step makes for certain, another one goes on from. -/
theorem Restores.seq {step : Decode Bytes S α} {next : α → Decode Bytes S Unit} {value : α}
    (h : Restores False step a before value middle)
    (hn : Accepts E last (next value) b middle Q) : Accepts E last (step >>= next) (a ++ b) before Q := by
  intro rest left taken bounded handlers hle hlast
  rw [List.length_append] at hle hlast
  rw [List.append_assoc]
  refine Step.Ends.bind (P := fun answer state => answer = value ∧ state = _)
    (.of_ok (h _ _ _ _ _ (by omega) False.elim) ⟨rfl, rfl⟩) ?_
  rintro _ _ ⟨rfl, rfl⟩
  refine (hn _ _ _ _ _ (by omega) fun h => by have := hlast h; omega).mono ?_ fun _ _ h => h
  rintro _ _ ⟨after, hq, rfl⟩
  exact ⟨after, hq, by rw [List.length_append, Nat.sub_sub, Nat.add_assoc]⟩

/-- A step that reads nothing in front of one that does. -/
theorem Accepts.behind {step : Decode Bytes S α} {next : α → Decode Bytes S Unit} {value : α}
    (h : Restores False step [] before value middle) (hn : Accepts E last (next value) content middle Q) :
    Accepts E last (step >>= next) content before Q :=
  h.seq hn

/-- An edit behind a step. -/
theorem Accepts.thenEdit {edit : Edit Unit} (h : Accepts E False step content before P)
    (he : ∀ middle, P middle → ∃ after, edit.result middle = (.ok (), after) ∧ Q after) :
    Accepts E last (step >>= fun _ => onBlock edit) content before Q := by
  rw [← List.append_nil content]
  refine h.seq fun middle hp => ?_
  obtain ⟨after, hr, hq⟩ := he middle hp
  exact (restores_onBlock hr).accepts hq

theorem accepts_get {next : Decoding Bytes S → Decode Bytes S Unit}
    (h : ∀ state, state.block = before → content.length ≤ state.input.left →
      (last → state.input.left = content.length) →
      Accepts E last (next state) content before Q) :
    Accepts E last (get >>= next) content before Q :=
  fun rest left taken bounded handlers hle hlast =>
    Step.Ends.bind (P := fun state after => state = after ∧ after = _)
      (Step.ends_get ⟨rfl, rfl⟩) fun _ _ ⟨hstate, hafter⟩ => by
        subst hafter hstate
        exact h _ rfl hle hlast rest left taken bounded handlers hle hlast

theorem Accepts.inside (hs : before.slice? span = some held) (h : Accepts E last step content held P)
    (hq : ∀ stored, P stored → Q (Bytes.overwrite before span.start stored)) :
    Accepts E last (inside field span step) content before Q := by
  intro rest left taken bounded handlers hle hlast
  have hends := h rest left taken bounded handlers hle hlast
  rcases hr : step.result ⟨⟨content ++ rest, left, taken, bounded⟩, held, handlers⟩ with
    ⟨outcome, state⟩
  have hresult : (Decode.inside field span step).result
      ⟨⟨content ++ rest, left, taken, bounded⟩, before, handlers⟩ =
        (outcome, { state with block := Bytes.overwrite before span.start state.block }) := by
    simp only [Decode.inside, Step.result_ofRun, hs, hr]
  cases outcome with
  | error failure => exact .of_error hresult (hends.error hr)
  | ok =>
    obtain ⟨after, hp, rfl⟩ := hends.ok hr
    exact .of_ok hresult ⟨_, hq after hp, rfl⟩

/-- A payload is accepted by a step of which the input ends behind it. -/
theorem Accepts.within (h : Accepts E True step content before Q) :
    Accepts E last (within content.length step) content before Q := by
  intro rest left taken bounded handlers hle _
  have hends := h rest content.length 0 true handlers (Nat.le_refl _) fun _ => rfl
  rcases hr : step.result ⟨⟨content ++ rest, content.length, 0, true⟩, before, handlers⟩ with
    ⟨outcome, state⟩
  have hresult : (Decode.within content.length step).result
      ⟨⟨content ++ rest, left, taken, bounded⟩, before, handlers⟩ =
        (outcome, { state with input := Input.rejoin ⟨content ++ rest, left, taken, bounded⟩ state.input }) := by
    rw [Decode.within, Step.result_ofRun, Input.narrow, if_neg (by simp only; omega)]
    simp only [Input.ofSource, hr]
  cases outcome with
  | error failure => exact .of_error hresult (hends.error hr)
  | ok =>
    obtain ⟨after, hq, rfl⟩ := hends.ok hr
    refine .of_ok hresult ⟨after, hq, ?_⟩
    simp only [Input.rejoin, Input.charge, Nat.zero_add]

theorem Accepts.whole {message : Decode Bytes S Unit} (h : Accepts E True message content before Q) :
    Accepts E True (whole content.length message) content before Q := by
  intro rest left taken bounded handlers hle hlast
  refine Step.Ends.bind (h rest left taken bounded handlers hle hlast) ?_
  rintro ⟨⟩ _ ⟨after, hq, rfl⟩
  rw [Step.Ends, Step.result_bind_ok (Step.result_get _),
    if_neg (by simp [Input.isExhausted, hlast trivial])]
  exact ⟨after, hq, rfl⟩

/-- What stands behind its length. -/
theorem accepts_length {next : Nat → Decode Bytes S Unit} (hl : content.length < 2 ^ 32)
    (hn : Accepts E last (next content.length) content before Q) :
    Accepts E last (onWire Wire.readLength >>= next) (Wire.delimitedForm content) before Q := by
  intro rest left taken bounded handlers hle hlast
  have hlen : (Wire.delimitedForm content).length =
      (Varint.encode (UInt64.ofNat content.length)).length + content.length := List.length_append
  refine Step.Ends.bind (P := fun length state => length = content.length ∧ state = _)
    (.of_ok (result_onWire (Wire.readLength_append hl hle)) ⟨rfl, rfl⟩) ?_
  rintro _ _ ⟨rfl, rfl⟩
  refine (hn _ _ _ _ _ (by omega) fun h => by have := hlast h; omega).mono ?_ fun _ _ h => h
  rintro _ _ ⟨after, hq, rfl⟩
  exact ⟨after, hq, by rw [hlen, Nat.sub_sub, Nat.add_assoc]⟩

-- ---------------------------------------------------------------------------
-- Values
-- ---------------------------------------------------------------------------

variable {config : DecodeConfig} {forms : Ref → Bytes → Except CodecError Bytes}
  {nested : Ref → Decode Bytes S Unit}

theorem accepts_text {text : String} (hz : 0 ∉ Bytes.ofText text)
    (hl : (Bytes.ofText text).length < 2 ^ 32) (hroom : (Bytes.ofText text).length < held.length) :
    Accepts E last (Decode.text config field : Decode Bytes S Unit)
      (Wire.delimitedForm (Bytes.ofText text)) held fun after =>
        after.length = held.length ∧ field.textBytes after = .ok (Bytes.ofText text) := by
  generalize hbytes : Bytes.ofText text = bytes at *
  refine accepts_length hl (accepts_get fun state hstate _ _ => ?_)
  have hfilled : (Bytes.overwrite held 0 bytes).length = held.length :=
    Bytes.length_overwrite _ _ _ (by omega)
  have hended : (Bytes.overwrite (Bytes.overwrite held 0 bytes) bytes.length [0]).length = held.length := by
    rw [Bytes.length_overwrite _ _ _ (by rw [hfilled, List.length_singleton]; omega), hfilled]
  have hcontent : Bytes.overwrite (Bytes.overwrite held 0 bytes) bytes.length [0] =
      bytes ++ 0 :: held.drop (bytes.length + 1) := by
    simp [Bytes.overwrite, List.drop_append]
  have htake : (Bytes.overwrite (Bytes.overwrite held 0 bytes) bytes.length [0]).take bytes.length =
      bytes := by
    rw [hcontent, List.take_left]
  rw [hstate]
  refine Restores.accepts (restores_unless (by omega) (Restores.thenEdit (restores_fill 0 bytes) ?_))
    ⟨hended, hcontent ▸ textBytes_terminated hz _⟩
  refine Restores.afterEdit (restores_modify _) (restores_get fun state hstate _ _ => ?_)
  simp only [hstate, htake]
  rw [← hbytes, Bytes.text?_ofText, if_neg (by simp)]
  exact restores_pure () _

theorem accepts_payload (hl : content.length < 2 ^ 32) (hroom : content.length + 4 ≤ held.length) :
    Accepts E last (Decode.payload field : Decode Bytes S Unit) (Wire.delimitedForm content) held
      fun after => after.length = held.length ∧ field.payload after = .ok content := by
  refine accepts_length hl (accepts_get fun state hstate _ _ => ?_)
  have hfilled : (Bytes.overwrite held 4 content).length = held.length :=
    Bytes.length_overwrite _ _ _ (by omega)
  have hcontent : Bytes.overwrite (Bytes.overwrite held 4 content) 0
      (Bytes.littleEndian 4 content.length) =
        Bytes.littleEndian 4 content.length ++ content ++ held.drop (4 + content.length) := by
    rw [Field.overwrite_prefix, Bytes.overwrite, List.append_assoc, List.append_assoc]
    congr 1
    rw [List.drop_left' (by rw [List.length_take]; omega)]
  rw [hstate]
  refine (restores_unless (by omega) (restores_unless (by omega)
    (Restores.thenEdit (restores_fill 4 content) (restores_modify _)))).accepts
      ⟨?_, hcontent ▸ payload_append hl _⟩
  rw [Bytes.length_overwrite _ _ _ (by rw [hfilled, Bytes.length_littleEndian]; omega), hfilled]

/-- The form of a number is read, whatever its storage looks like, and stored as it was. -/
theorem reads_scalarForm (hk : field.kind.isScalar = true) (hs : field.Suits schema)
    (hl : stored.length = field.dataSize) :
    ∃ value, Input.Reads field.readScalar (field.scalarForm (field.kind.loadScalar stored)) value ∧
      ∀ held : Bytes, held.length = field.dataSize →
        field.kind.loadScalar (field.kind.storeScalar held value) = field.kind.loadScalar stored ∧
          Bytes.isZero (field.kind.storeScalar held value) = Bytes.isZero stored := by
  -- a truth value is as good as the one form of it
  have hcanonical : ∃ single : Bytes, single.length = field.dataSize ∧ field.Canonical single ∧
      field.kind.loadScalar single = field.kind.loadScalar stored ∧
        Bytes.isZero single = Bytes.isZero stored := by
    by_cases hbool : field.kind = .bool
    · have hone : field.dataSize = 1 := by
        simpa [Field.Suits, hbool, Kind.scalarWidth?, eq_comm] using hs
      simp only [hone, Field.Canonical, hbool, Kind.loadScalar]
      cases Bytes.isZero stored
      · exact ⟨[1], rfl, .inr rfl, rfl, rfl⟩
      · exact ⟨[0], rfl, .inl rfl, rfl, rfl⟩
    · refine ⟨stored, hl, ?_, rfl, rfl⟩
      cases hkind : field.kind <;> simp_all [Field.Canonical, Kind.isScalar]
  obtain ⟨single, hlen, hone, hload, hzero⟩ := hcanonical
  obtain ⟨value, hread, hstore⟩ := Field.reads_readScalar hk hs hlen hone
  rw [hload] at hread
  refine ⟨value, hread, fun held hheld => ?_⟩
  have hcongr : field.kind.storeScalar held value =
      field.kind.storeScalar (Bytes.zeros field.dataSize) value := by
    refine Field.storeScalar_congr field.kind (hheld.trans (Bytes.length_zeros _).symm) ?_ value
    rw [Bytes.length_zeros]
    exact Field.dataSize_le_of_scalar hk hs
  rw [hcongr, hstore]
  exact ⟨hload, hzero⟩

theorem accepts_number (hk : field.kind.isScalar = true) (hs : field.Suits schema)
    (hl : stored.length = field.dataSize) (hheld : held.length = field.dataSize) :
    Accepts E last (do
        let scalar ← number field
        onBlock (modify fun block => field.kind.storeScalar block scalar) : Decode Bytes S Unit)
      (field.scalarForm (field.kind.loadScalar stored)) held fun after =>
        after.length = held.length ∧ field.kind.loadScalar after = field.kind.loadScalar stored ∧
          Bytes.isZero after = Bytes.isZero stored := by
  obtain ⟨value, hread, hback⟩ := reads_scalarForm hk hs hl
  refine ((restores_onInput hread).thenEdit (restores_modify _)).accepts ⟨?_, hback held hheld⟩
  exact Field.length_storeScalar _ _ _

/-- What follows the header of a value is accepted over other storage of the field, which then shows
the value. -/
theorem accepts_value {same : Ref → Bytes → Bytes → Prop} (hs : field.Suits schema)
    (hsize : stored.length = field.dataSize) (hl : held.length = field.dataSize)
    (hlegible : field.Legible stored) (hform : field.bodyForm forms stored = .ok content)
    (hshort : content.length < 2 ^ 32)
    (hn : ∀ inner payload, field.kind = .message inner → forms inner stored = .ok payload →
      payload.length < 2 ^ 32 → Accepts E True (nested inner) payload held fun after =>
        after.length = held.length ∧ same inner stored after) :
    Accepts E last (value config nested field) content held fun after =>
      after.length = held.length ∧ field.Repeats same stored after := by
  unfold Decode.value
  split
  · next hk =>
    obtain ⟨text, htext⟩ := hlegible hk
    simp only [Field.bodyForm, hk, Field.textBytes] at hform
    split at hform
    · next hzero =>
      have hbytes : field.textBytes stored = .ok (Bytes.ofText text) := by
        rw [Field.textBytes, if_pos hzero, htext]
      have hz : 0 ∉ Bytes.ofText text := fun hmem => by
        rw [← htext] at hmem
        simpa using List.mem_takeWhile_imp hmem
      rw [htext] at hform
      simp only [Except.map, Except.ok.injEq] at hform
      have hlen : (Bytes.ofText text).length < held.length := by
        rw [← htext, hl, ← hsize]
        refine Nat.lt_of_le_of_ne (List.takeWhile_prefix _).length_le fun heq => ?_
        have hall := (List.takeWhile_prefix (· != 0)).eq_of_length heq
        simpa using List.takeWhile_eq_self_iff.mp hall 0 hzero
      rw [← hform, Wire.delimitedForm, List.length_append] at hshort
      rw [← hform]
      refine (accepts_text hz (by omega) hlen).mono (fun after hafter => ⟨hafter.1, ?_⟩) fun _ h => h
      simp only [Field.Repeats, hk, hafter.2, hbytes]
    · cases hform
  · next hk =>
    simp only [Field.Suits, hk] at hs
    cases hpayload : field.payload stored with
    | error failure => simp [Field.bodyForm, hk, hpayload, Except.map] at hform
    | ok payload =>
      simp only [Field.bodyForm, hk, hpayload, Except.map, Except.ok.injEq] at hform
      have hroom : payload.length + 4 ≤ held.length := by
        have hle := Field.length_payload hpayload
        omega
      rw [← hform, Wire.delimitedForm, List.length_append] at hshort
      rw [← hform]
      refine (accepts_payload (by omega) hroom).mono (fun after hafter => ⟨hafter.1, ?_⟩) fun _ h => h
      simp only [Field.Repeats, hk, hafter.2, hpayload]
  · next inner hk =>
    cases hinner : forms inner stored with
    | error failure => simp [Field.bodyForm, hk, hinner, Except.map] at hform
    | ok payload =>
      simp only [Field.bodyForm, hk, hinner, Except.map, Except.ok.injEq] at hform
      rw [← hform, Wire.delimitedForm, List.length_append] at hshort
      have hlen : payload.length < 2 ^ 32 := by omega
      rw [← hform]
      refine (accepts_length hlen (hn inner payload hk hinner hlen).whole.within).mono
        (fun after hafter => ⟨hafter.1, ?_⟩) fun _ h => h
      simpa only [Field.Repeats, hk] using hafter.2
  · next hne hnb hnm =>
    have hk : field.kind.isScalar = true := by
      cases hkind : field.kind <;> simp_all [Kind.isScalar]
    rw [bodyForm_scalar hk, Except.ok.injEq] at hform
    rw [← hform]
    refine (accepts_number hk hs hsize hl).mono
      (fun after hafter => ⟨hafter.1, (Field.repeats_iff_scalar hk).mpr hafter.2⟩) fun _ h => h

end Decode

end BlockCodec
