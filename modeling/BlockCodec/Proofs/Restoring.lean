import BlockCodec.Proofs.Clean
import BlockCodec.Proofs.Decoding
import BlockCodec.Proofs.Reading

/-!
# Restoring values

A step `Turns` one block and its handlers into another when it takes just the bytes it is said to, and it
`Restores` a block from them when the handlers stay as they are. Values come first: their form, read over
zeros, leaves the storage that it was made of.
-/

namespace BlockCodec

variable {Ref S α β : Type}

theorem Bytes.overwrite_zeros (count : Nat) (content : Bytes) :
    overwrite (zeros (content.length + count)) 0 content = content ++ zeros count := by
  simp [overwrite, zeros]

theorem Bytes.text?_ofText (text : String) : text? (ofText text) = some text := by
  have hbytes : (⟨(ofText text).toArray⟩ : ByteArray) = text.toUTF8 := by
    simp [ofText]
  rw [text?, hbytes, String.fromUTF8?, String.toUTF8_eq_toByteArray, dif_pos text.isValidUTF8]
  rfl

namespace Decode

-- ---------------------------------------------------------------------------
-- Steps that take just their bytes
-- ---------------------------------------------------------------------------

/-- From any input that begins with these bytes the step takes them, and it makes the second block and
handlers of the first. If `last`, the input need only be one that ends behind them. -/
def Turns (last : Prop) (step : Decode Bytes S α) (content : Bytes) (before : Bytes × List S) (value : α)
    (after : Bytes × List S) : Prop :=
  ∀ (rest : Bytes) (left taken : Nat) (bounded : Bool), content.length ≤ left →
    (last → left = content.length) →
    step.result ⟨⟨content ++ rest, left, taken, bounded⟩, before.1, before.2⟩ =
      (.ok value, ⟨⟨rest, left - content.length, taken + content.length, bounded⟩, after.1, after.2⟩)

section

variable {last : Prop} {content a b : Bytes} {before middle after : Bytes × List S}

theorem turns_pure (value : α) (rest : Bytes × List S) :
    Turns last (pure value : Decode Bytes S α) [] rest value rest :=
  fun _ _ _ _ _ _ => rfl

theorem Turns.bind {step : Decode Bytes S α} {next : α → Decode Bytes S β} {value : α} {final : β}
    (h : Turns False step a before value middle) (hn : Turns last (next value) b middle final after) :
    Turns last (step >>= next) (a ++ b) before final after := by
  intro rest left taken bounded hle hlast
  rw [List.length_append] at hle hlast
  rw [List.append_assoc, Step.result_bind_ok (h _ _ _ _ (by omega) False.elim),
    hn _ _ _ _ (by omega) fun h => by rw [hlast h, Nat.add_sub_cancel_left],
    List.length_append, Nat.sub_sub, Nat.add_assoc]

theorem turns_get {next : Decoding Bytes S → Decode Bytes S β} {final : β}
    (h : ∀ state, (state.block, state.handlers) = before → content.length ≤ state.input.left →
      (last → state.input.left = content.length) → Turns last (next state) content before final after) :
    Turns last (get >>= next) content before final after := by
  intro rest left taken bounded hle hlast
  rw [Step.result_bind_ok (Step.result_get _)]
  exact h _ rfl hle hlast _ _ _ _ hle hlast

theorem turns_onInput {step : Step (Input Bytes) CodecError α} {value : α}
    (h : Input.Reads step content value) :
    Turns last (onInput step : Decode Bytes S α) content before value before := by
  intro rest left taken bounded hle _
  rw [onInput, Step.result_onPart, h rest left taken bounded hle]

theorem turns_onBlock {edit : Edit α} {value : α} {block block' : Bytes} {handlers : List S}
    (h : edit.result block = (.ok value, block')) :
    Turns last (onBlock edit : Decode Bytes S α) [] (block, handlers) value (block', handlers) := by
  intro rest left taken bounded _ _
  rw [onBlock, Step.result_onPart, h]
  rfl

/-- A payload is read by a step of which the input ends behind it. -/
theorem Turns.within {step : Decode Bytes S α} {value : α} (h : Turns True step content before value after) :
    Turns last (within content.length step) content before value after := by
  intro rest left taken bounded hle _
  have hinner := h rest content.length 0 true (Nat.le_refl _) fun _ => rfl
  rw [Decode.within, Step.result_ofRun, Input.narrow, if_neg (by simp only; omega)]
  simp only [Input.ofSource, hinner, Input.rejoin, Input.charge, Nat.zero_add]

/-- What stands behind its length. -/
theorem turns_length {next : Nat → Decode Bytes S α} {value : α} (hl : content.length < 2 ^ 32)
    (hn : Turns last (next content.length) content before value after) :
    Turns last (onWire Wire.readLength >>= next) (Wire.delimitedForm content) before value after := by
  intro rest left taken bounded hle hlast
  have hlen : (Wire.delimitedForm content).length =
      (Varint.encode (UInt64.ofNat content.length)).length + content.length := List.length_append
  rw [Step.result_bind_ok (result_onWire (Wire.readLength_append hl hle))]
  refine (hn _ _ _ _ (by omega) fun h => by have := hlast h; omega).trans ?_
  rw [hlen, Nat.sub_sub, Nat.add_assoc]

end

-- ---------------------------------------------------------------------------
-- Steps that restore
-- ---------------------------------------------------------------------------

/-- From any input that begins with these bytes the step takes them and makes `after` of the block
`before`. If `last`, the input need only be one that ends behind them. -/
def Restores (last : Prop) (step : Decode Bytes S α) (content before : Bytes) (value : α)
    (after : Bytes) : Prop :=
  ∀ (rest : Bytes) (left taken : Nat) (bounded : Bool) (handlers : List S), content.length ≤ left →
    (last → left = content.length) →
    step.result ⟨⟨content ++ rest, left, taken, bounded⟩, before, handlers⟩ =
      (.ok value, ⟨⟨rest, left - content.length, taken + content.length, bounded⟩, after, handlers⟩)

variable {last : Prop} {content a b before middle after stored : Bytes}

/-- To restore is to leave the handlers as they are, whatever they are. -/
theorem restores_iff {step : Decode Bytes S α} {value : α} :
    Restores last step content before value after ↔
      ∀ handlers, Turns last step content (before, handlers) value (after, handlers) :=
  ⟨fun h handlers rest left taken bounded => h rest left taken bounded handlers,
    fun h rest left taken bounded handlers => h handlers rest left taken bounded⟩

theorem restores_pure (value : α) (block : Bytes) :
    Restores last (pure value : Decode Bytes S α) [] block value block :=
  restores_iff.mpr fun _ => turns_pure value _

theorem Restores.bind {step : Decode Bytes S α} {next : α → Decode Bytes S β} {value : α} {final : β}
    (h : Restores False step a before value middle)
    (hn : Restores last (next value) b middle final after) :
    Restores last (step >>= next) (a ++ b) before final after :=
  restores_iff.mpr fun handlers => (restores_iff.mp h handlers).bind (restores_iff.mp hn handlers)

/-- A step that reads nothing in front of one that does. -/
theorem Restores.afterEdit {step : Decode Bytes S α} {next : α → Decode Bytes S β} {value : α} {final : β}
    (h : Restores False step [] before value middle)
    (hn : Restores last (next value) content middle final after) :
    Restores last (step >>= next) content before final after :=
  h.bind hn

/-- A step that reads nothing behind one that does. -/
theorem Restores.thenEdit {step : Decode Bytes S α} {next : α → Decode Bytes S β} {value : α} {final : β}
    (h : Restores False step content before value middle)
    (hn : Restores last (next value) [] middle final after) :
    Restores last (step >>= next) content before final after := by
  simpa using h.bind hn

theorem restores_get {next : Decoding Bytes S → Decode Bytes S β} {final : β}
    (h : ∀ state, state.block = before → content.length ≤ state.input.left →
      (last → state.input.left = content.length) →
      Restores last (next state) content before final after) :
    Restores last (get >>= next) content before final after :=
  restores_iff.mpr fun handlers => turns_get fun state hstate hle hlast =>
    restores_iff.mp (h state (Prod.mk.inj hstate).1 hle hlast) handlers

theorem restores_unless {c : Prop} [Decidable c] {failure : CodecError}
    {next : Unit → Decode Bytes S α} {value : α} (hc : ¬c)
    (h : Restores last (next ()) content before value after) :
    Restores last (if c then (throw failure : Decode Bytes S Unit) >>= next else next ()) content
      before value after := by
  rwa [if_neg hc]

theorem restores_onInput {step : Step (Input Bytes) CodecError α} {value : α}
    (h : Input.Reads step content value) :
    Restores last (onInput step : Decode Bytes S α) content before value before :=
  restores_iff.mpr fun _ => turns_onInput h

theorem restores_onBlock {edit : Edit α} {value : α} (h : edit.result before = (.ok value, after)) :
    Restores last (onBlock edit : Decode Bytes S α) [] before value after :=
  restores_iff.mpr fun _ => turns_onBlock h

theorem restores_ask {look : Bytes → Except CodecError α} {value : α} (h : look before = .ok value) :
    Restores last (onBlock (Edit.ask look) : Decode Bytes S α) [] before value before :=
  restores_onBlock (by rw [Edit.ask, Step.result_ofRun, h])

theorem restores_modify (f : Bytes → Bytes) :
    Restores last (onBlock (modify f) : Decode Bytes S Unit) [] before () (f before) :=
  restores_onBlock (Step.result_modify f before)

theorem restores_fill (start : Nat) (content : Bytes) :
    Restores last (fill start content.length : Decode Bytes S Unit) content before ()
      (Bytes.overwrite before start content) := by
  intro rest left taken bounded handlers hle _
  rw [fill, Step.result_ofRun]
  simp only [Input.deliver_append hle]

theorem Restores.inside {field : Field Ref} {span : Span} {step : Decode Bytes S α} {value : α}
    {held : Bytes} (hs : before.slice? span = some held)
    (h : Restores last step content held value stored) :
    Restores last (inside field span step) content before value
      (Bytes.overwrite before span.start stored) := by
  intro rest left taken bounded handlers hle hlast
  simp only [Decode.inside, Step.result_ofRun, hs, h rest left taken bounded handlers hle hlast]

theorem Restores.within {step : Decode Bytes S α} {value : α}
    (h : Restores True step content before value after) :
    Restores last (within content.length step) content before value after :=
  restores_iff.mpr fun handlers => (restores_iff.mp h handlers).within

theorem Restores.whole {message : Decode Bytes S Unit}
    (h : Restores True message content before () after) :
    Restores True (whole content.length message) content before () after := by
  intro rest left taken bounded handlers hle hlast
  rw [Decode.whole, Step.result_bind_ok (h rest left taken bounded handlers hle hlast),
    Step.result_bind_ok (Step.result_get _), if_neg]
  · rfl
  · simp [Input.isExhausted, hlast trivial]

theorem restores_length {next : Nat → Decode Bytes S α} {value : α} (hl : content.length < 2 ^ 32)
    (hn : Restores last (next content.length) content before value after) :
    Restores last (onWire Wire.readLength >>= next) (Wire.delimitedForm content) before value after :=
  restores_iff.mpr fun handlers => turns_length hl (restores_iff.mp hn handlers)

-- ---------------------------------------------------------------------------
-- Values
-- ---------------------------------------------------------------------------

variable {field : Field Ref} {schema : Schema Ref} {config : DecodeConfig}

theorem restores_text (text : String) (hl : (Bytes.ofText text).length < 2 ^ 32) (count : Nat) :
    Restores last (Decode.text config field : Decode Bytes S Unit)
      (Wire.delimitedForm (Bytes.ofText text))
      (Bytes.zeros ((Bytes.ofText text).length + (count + 1))) ()
      (Bytes.ofText text ++ Bytes.zeros (count + 1)) := by
  generalize hbytes : Bytes.ofText text = bytes at *
  refine restores_length hl (restores_get fun state hstate _ _ => ?_)
  rw [hstate, Bytes.length_zeros]
  refine restores_unless (by omega) (Restores.thenEdit (restores_fill 0 bytes) ?_)
  rw [Bytes.overwrite_zeros]
  -- the terminator is there already
  have hend : Bytes.overwrite (bytes ++ Bytes.zeros (count + 1)) bytes.length [0] =
      bytes ++ Bytes.zeros (count + 1) := by
    simp [Bytes.overwrite, Bytes.zeros, List.replicate_succ]
  refine Restores.afterEdit (restores_modify _) (restores_get fun state hstate _ _ => ?_)
  rw [hend] at hstate ⊢
  simp only [hstate, List.take_left]
  rw [← hbytes, Bytes.text?_ofText, if_neg (by simp)]
  exact restores_pure () _

theorem restores_payload (payload : Bytes) (hl : payload.length < 2 ^ 32) (count : Nat) :
    Restores last (Decode.payload field : Decode Bytes S Unit) (Wire.delimitedForm payload)
      (Bytes.zeros (4 + payload.length + count)) ()
      (Bytes.littleEndian 4 payload.length ++ payload ++ Bytes.zeros count) := by
  refine restores_length hl (restores_get fun state hstate _ _ => ?_)
  rw [hstate, Bytes.length_zeros]
  refine restores_unless (by omega) (restores_unless (by omega) ?_)
  have hfill : Bytes.overwrite (Bytes.zeros (4 + payload.length + count)) 4 payload =
      Bytes.zeros 4 ++ (payload ++ Bytes.zeros count) := by
    simp [Bytes.overwrite, Bytes.zeros, show min 4 (4 + payload.length + count) = 4 by omega,
      List.replicate_succ]
  have hlength : Bytes.overwrite (Bytes.zeros 4 ++ (payload ++ Bytes.zeros count)) 0
      (Bytes.littleEndian 4 payload.length) =
      Bytes.littleEndian 4 payload.length ++ payload ++ Bytes.zeros count := by
    rw [Field.overwrite_prefix, List.append_assoc]
    rfl
  refine Restores.thenEdit (restores_fill 4 payload) ?_
  rw [hfill, ← hlength]
  exact restores_modify _

theorem restores_number (hk : field.kind.isScalar = true) (hs : field.Suits schema)
    (hl : stored.length = field.dataSize) (hc : field.Canonical stored) :
    Restores last (do
        let scalar ← number field
        onBlock (modify fun block => field.kind.storeScalar block scalar) : Decode Bytes S Unit)
      (field.scalarForm (field.kind.loadScalar stored)) (Bytes.zeros field.dataSize) () stored := by
  obtain ⟨value, hread, hstore⟩ := Field.reads_readScalar hk hs hl hc
  refine (restores_onInput hread).thenEdit (restores_onBlock ?_)
  rw [Step.result_modify, hstore]

/-- Text ends at the first zero byte, whatever is behind it. -/
theorem textBytes_terminated {text : Bytes} (h : 0 ∉ text) (rest : Bytes) :
    field.textBytes (text ++ 0 :: rest) = .ok text := by
  have hall : ∀ byte ∈ text, (byte != 0) = true := fun byte hb => by
    simpa using fun hz : byte = 0 => h (hz ▸ hb)
  rw [Field.textBytes, if_pos (by simp), List.takeWhile_append_of_pos hall]
  simp

theorem textBytes_append {text : Bytes} (h : 0 ∉ text) (count : Nat) :
    field.textBytes (text ++ Bytes.zeros (count + 1)) = .ok text :=
  textBytes_terminated h (Bytes.zeros count)

/-- A byte string ends where the length in front of it says. -/
theorem payload_append {payload : Bytes} (h : payload.length < 2 ^ 32) (rest : Bytes) :
    field.payload (Bytes.littleEndian 4 payload.length ++ payload ++ rest) = .ok payload := by
  have hdrop : (Bytes.littleEndian 4 payload.length ++ (payload ++ rest)).drop 4 = payload ++ rest :=
    List.drop_left' (Bytes.length_littleEndian 4 _)
  rw [List.append_assoc, Field.payload, if_neg, Field.take_prefix, hdrop,
    Bytes.ofLittleEndian_littleEndian, Nat.mod_eq_of_lt (by omega)]
  · simp
  · simp only [List.length_append, Bytes.length_littleEndian]
    omega

theorem payload_zeros (hk : field.kind = .bytes) (hs : field.Suits schema) :
    field.payload (Bytes.zeros field.dataSize) = .ok [] := by
  simp only [Field.Suits, hk] at hs
  have h : field.payload (Bytes.littleEndian 4 ([] : Bytes).length ++ [] ++
      Bytes.zeros (field.dataSize - 4)) = .ok [] := payload_append (by simp) _
  rwa [List.length_nil, Bytes.littleEndian_zero, List.append_nil, Bytes.zeros, Bytes.zeros,
    List.replicate_append_replicate, show 4 + (field.dataSize - 4) = field.dataSize by omega] at h

variable {forms : Ref → Bytes → Except CodecError Bytes} {nested : Ref → Decode Bytes S Unit}

theorem bodyForm_scalar (hk : field.kind.isScalar = true) :
    field.bodyForm forms stored = .ok (field.scalarForm (field.kind.loadScalar stored)) := by
  unfold Field.bodyForm
  split
  · next h => simp [h, Kind.isScalar] at hk
  · next h => simp [h, Kind.isScalar] at hk
  · next h => simp [h, Kind.isScalar] at hk
  · rfl

/-- What follows the header of a value restores its storage. -/
theorem restores_value (hs : field.Suits schema) (hsize : field.dataSize < 2 ^ 32)
    (hl : stored.length = field.dataSize) (hc : field.Canonical stored)
    (hform : field.bodyForm forms stored = .ok content) (hshort : content.length < 2 ^ 32)
    (hn : ∀ inner payload, field.kind = .message inner → forms inner stored = .ok payload →
      payload.length < 2 ^ 32 →
      Restores True (nested inner) payload (Bytes.zeros field.dataSize) () stored) :
    Restores last (value config nested field) content (Bytes.zeros field.dataSize) () stored := by
  unfold Decode.value
  split
  · next hk =>
    simp only [Field.Canonical, hk] at hc
    obtain ⟨text, hnul, count, rfl⟩ := hc
    simp only [Field.bodyForm, hk, textBytes_append hnul, Except.map, Except.ok.injEq] at hform
    simp only [List.length_append, Bytes.length_zeros] at hl
    rw [← hform, ← hl]
    exact restores_text text (by omega) count
  · next hk =>
    simp only [Field.Canonical, hk] at hc
    obtain ⟨payload, count, rfl⟩ := hc
    simp only [List.length_append, Bytes.length_littleEndian, Bytes.length_zeros] at hl
    have hlen : payload.length < 2 ^ 32 := by omega
    simp only [Field.bodyForm, hk, payload_append hlen, Except.map, Except.ok.injEq] at hform
    rw [← hform, ← hl]
    exact restores_payload payload hlen count
  · next inner hk =>
    cases hinner : forms inner stored with
    | error failure => simp [Field.bodyForm, hk, hinner, Except.map] at hform
    | ok payload =>
      simp only [Field.bodyForm, hk, hinner, Except.map, Except.ok.injEq] at hform
      rw [← hform, Wire.delimitedForm, List.length_append] at hshort
      have hlen : payload.length < 2 ^ 32 := by omega
      rw [← hform]
      exact restores_length hlen (hn inner payload hk hinner hlen).whole.within
  · next hne hnb hnm =>
    have hk : field.kind.isScalar = true := by
      cases hkind : field.kind <;> simp_all [Kind.isScalar]
    rw [bodyForm_scalar hk, Except.ok.injEq] at hform
    rw [← hform]
    exact restores_number hk hs hl hc

end Decode

end BlockCodec
