import BlockCodec.Proofs.Collectors
import BlockCodec.Proofs.Preparation

/-!
# Steps that are enacted

What a decoding step does to the block and the handlers when its bytes are in front of it can be told as a
step of its own that knows nothing of the input, and the decoding step `Enacts` it: it takes its bytes if
that step succeeds, and fails where that step fails. A run of numbers enacts what each of them enacts, one
after the other, whether it is appended to an array (`enacts_packedElements`) or given to a handler
(`enacts_handledElements`).
-/

namespace BlockCodec

variable {Ref S α β ι : Type}

/-- An edit of the block; the handlers beside it stay as they are. -/
def onBytes (edit : Edit α) : Step (Bytes × List S) CodecError α :=
  edit.onPart Prod.fst fun block rest => (block, rest.2)

/-- A step of the handler at a slot of the list; the block stays as it is. -/
def onHandler (field : Field Ref) (slot : Nat) (step : Step S CodecError α) :
    Step (Bytes × List S) CodecError α :=
  .ofRun fun rest =>
    match rest.2[slot - 1]? with
    | none => (.error (.invalidDescriptor field.name "callback slot not provided"), rest)
    | some handler =>
      let (outcome, handler) := step.result handler
      (outcome, (rest.1, rest.2.set (slot - 1) handler))

theorem onBytes_bind (edit : Edit α) (next : α → Edit β) :
    (onBytes (edit >>= next) : Step (Bytes × List S) CodecError β) =
      onBytes edit >>= fun value => onBytes (next value) := by
  unfold onBytes
  exact Step.onPart_bind (by intros; rfl) (by intros; rfl) edit next

/-- What appending a number does to the block of an array. -/
def Field.takeNumber (field : Field Ref) (value : Scalar) : Edit Unit := do
  let count ← Edit.ask field.slot
  if field.capacity ≤ count then throw (.arrayFull field.name field.capacity)
  Edit.change field (field.element count) fun stored => field.kind.storeScalar stored value
  Edit.setSlot field (count + 1)

namespace Decode

variable {last : Prop} {content a b : Bytes} {before middle after : Bytes × List S} {failure : CodecError}

/-- From any input that begins with these bytes the step fails, and it leaves the second block and handlers
of the first. If `last`, the input need only be one that ends behind them. -/
def Stops (last : Prop) (step : Decode Bytes S α) (content : Bytes) (before : Bytes × List S)
    (failure : CodecError) (after : Bytes × List S) : Prop :=
  ∀ (rest : Bytes) (left taken : Nat) (bounded : Bool), content.length ≤ left →
    (last → left = content.length) → ∃ input,
      step.result ⟨⟨content ++ rest, left, taken, bounded⟩, before.1, before.2⟩ =
        (.error failure, ⟨input, after.1, after.2⟩)

/-- With these bytes in front of it the step does to the block and the handlers what `act` does, and takes
them if that succeeds. -/
def Enacts (last : Prop) (step : Decode Bytes S α) (content : Bytes) (act : Step (Bytes × List S) CodecError α)
    (before : Bytes × List S) : Prop :=
  act.Ends before (fun value after => Turns last step content before value after)
    fun failure after => Stops last step content before failure after

-- ---------------------------------------------------------------------------
-- Steps one after the other
-- ---------------------------------------------------------------------------

section

variable {step : Decode Bytes S α} {next : α → Decode Bytes S β} {value : α}
  {act : Step (Bytes × List S) CodecError α} {more : α → Step (Bytes × List S) CodecError β}

theorem Stops.bind (h : Stops False step a before failure after) :
    Stops last (step >>= next) (a ++ b) before failure after := by
  intro rest left taken bounded hle _
  rw [List.length_append] at hle
  obtain ⟨input, hr⟩ := h (b ++ rest) left taken bounded (by omega) False.elim
  exact ⟨input, by rw [List.append_assoc, Step.result_bind_error hr]⟩

theorem Turns.stops (h : Turns False step a before value middle)
    (hn : Stops last (next value) b middle failure after) :
    Stops last (step >>= next) (a ++ b) before failure after := by
  intro rest left taken bounded hle hlast
  rw [List.length_append] at hle hlast
  rw [List.append_assoc, Step.result_bind_ok (h _ _ _ _ (by omega) False.elim)]
  exact hn rest _ _ bounded (by omega) fun h => by rw [hlast h, Nat.add_sub_cancel_left]

theorem Enacts.bind (h : Enacts False step a act before)
    (hn : ∀ value middle, act.result before = (.ok value, middle) →
      Enacts last (next value) b (more value) middle) :
    Enacts last (step >>= next) (a ++ b) (act >>= more) before := by
  rcases hr : act.result before with ⟨failure | value, middle⟩
  · exact .of_error (Step.result_bind_error hr) (h.error hr).bind
  · have hturn := h.ok hr
    exact ((hn value middle hr).mono (fun _ _ => hturn.bind) fun _ _ => hturn.stops).congr
      (Step.result_bind_ok hr)

/-- A step that does the same from here enacts the same. -/
theorem Enacts.congr {other : Decode Bytes S α} (h : Enacts last other content act before)
    (hr : ∀ input, step.result ⟨input, before.1, before.2⟩ = other.result ⟨input, before.1, before.2⟩) :
    Enacts last step content act before := by
  refine h.mono (fun value after hturn rest left taken bounded hle hlast => ?_)
    fun failure after hstop rest left taken bounded hle hlast => ?_
  · rw [hr]
    exact hturn rest left taken bounded hle hlast
  · rw [hr]
    exact hstop rest left taken bounded hle hlast

theorem enacts_pure (value : α) : Enacts last (pure value : Decode Bytes S α) [] (pure value) before :=
  .of_ok rfl (turns_pure value before)

theorem enacts_onBlock (edit : Edit α) : Enacts last (onBlock edit) [] (onBytes edit) before := by
  rcases hr : edit.result before.1 with ⟨failure | value, block⟩
  · have hact : (onBytes edit).result before = (.error failure, (block, before.2)) := by
      rw [onBytes, Step.result_onPart, hr]
    exact .of_error hact fun _ _ _ _ _ _ => ⟨_, by rw [onBlock, Step.result_onPart, hr]⟩
  · have hact : (onBytes edit).result before = (.ok value, (block, before.2)) := by
      rw [onBytes, Step.result_onPart, hr]
    exact .of_ok hact (turns_onBlock hr)

/-- What is read has no part in what is done. -/
theorem enacts_read {read : Step (Input Bytes) CodecError α} (h : Input.Reads read a value)
    {act : Step (Bytes × List S) CodecError β} (hn : Enacts last (next value) b act before) :
    Enacts last (onInput read >>= next) (a ++ b) act before :=
  have hturn : Turns False (onInput read : Decode Bytes S α) a before value before := turns_onInput h
  hn.mono (fun _ _ => hturn.bind) fun _ _ => hturn.stops

theorem Enacts.within (h : Enacts True step content act before) :
    Enacts last (within content.length step) content act before := by
  refine h.mono (fun _ _ => Turns.within) fun failure after hstop rest left taken bounded hle _ => ?_
  obtain ⟨input, hinner⟩ := hstop rest content.length 0 true (Nat.le_refl _) fun _ => rfl
  rw [Decode.within, Step.result_ofRun, Input.narrow, if_neg (by simp only; omega)]
  simp only [Input.ofSource, hinner]
  exact ⟨_, rfl⟩

/-- What stands behind its length. -/
theorem enacts_length {next : Nat → Decode Bytes S α} (hl : content.length < 2 ^ 32)
    (hn : Enacts last (next content.length) content act before) :
    Enacts last (onWire Wire.readLength >>= next) (Wire.delimitedForm content) act before := by
  refine hn.mono (fun _ _ => turns_length hl) fun failure after hstop rest left taken bounded hle hlast => ?_
  have hlen : (Wire.delimitedForm content).length =
      (Varint.encode (UInt64.ofNat content.length)).length + content.length := List.length_append
  rw [Step.result_bind_ok (result_onWire (Wire.readLength_append hl hle))]
  exact hstop _ _ _ _ (by omega) fun h => by have := hlast h; omega

end

-- ---------------------------------------------------------------------------
-- Loops up to the end of the input
-- ---------------------------------------------------------------------------

section

variable {step : Decode Bytes S Unit} {act : Step (Bytes × List S) CodecError Unit}

/-- With bytes in front of it a loop goes on. -/
theorem enacts_more (hne : content ≠ []) (h : Enacts last step content act before) :
    Enacts last (get >>= fun state => if state.input.isExhausted then pure () else step) content act before := by
  have hlen := List.length_pos_iff.mpr hne
  have hgo : ∀ (rest : Bytes) (left taken : Nat) (bounded : Bool), content.length ≤ left →
      (get >>= fun state => if state.input.isExhausted then pure () else step :
          Decode Bytes S Unit).result ⟨⟨content ++ rest, left, taken, bounded⟩, before.1, before.2⟩ =
        step.result ⟨⟨content ++ rest, left, taken, bounded⟩, before.1, before.2⟩ := by
    intro rest left taken bounded hle
    rw [Step.result_bind_ok (Step.result_get _), if_neg]
    simp only [Input.isExhausted, beq_iff_eq]
    omega
  exact h.mono (fun value after hturn rest left taken bounded hle hlast =>
      (hgo rest left taken bounded hle).trans (hturn rest left taken bounded hle hlast))
    fun failure after hstop rest left taken bounded hle hlast => by
      rw [hgo rest left taken bounded hle]
      exact hstop rest left taken bounded hle hlast

/-- At the end of its bytes a loop is done. -/
theorem enacts_done : Enacts True (get >>= fun state => if state.input.isExhausted then pure () else step) []
    (pure ()) before := by
  refine .of_ok rfl (turns_get fun state _ _ hlast => ?_)
  rw [if_pos (by simp [Input.isExhausted, hlast trivial])]
  exact turns_pure () _

/-- A loop over numbers enacts what each of them enacts. -/
theorem enacts_loop {field : Field Ref} {loop : Nat → Decode Bytes S Unit}
    {act : Scalar → Step (Bytes × List S) CodecError Unit} (hzero : loop 0 = pure ())
    (hsucc : ∀ room, loop (room + 1) = get >>= fun state =>
      if state.input.isExhausted then pure () else step >>= fun _ => loop room)
    (hstep : ∀ {form value before}, Input.Reads field.readScalar form value →
      Enacts False step form (act value) before) {items : List ι} {form : ι → Bytes} {value : ι → Scalar}
    (hread : ∀ item ∈ items, form item ≠ [] ∧ Input.Reads field.readScalar (form item) (value item))
    {room : Nat} (hroom : (items.flatMap form).length ≤ room) :
    Enacts True (loop room) (items.flatMap form) (items.forM fun item => act (value item)) before := by
  induction items generalizing room before with
  | nil =>
    cases room with
    | zero => exact hzero ▸ enacts_pure ()
    | succ room => exact hsucc room ▸ enacts_done
  | cons item items ih =>
    obtain ⟨⟨hne, hform⟩, hitems⟩ := List.forall_mem_cons.mp hread
    have hpos := List.length_pos_iff.mpr hne
    rw [List.flatMap_cons, List.length_append] at hroom
    obtain ⟨room, rfl⟩ : ∃ n, room = n + 1 := ⟨room - 1, by omega⟩
    rw [hsucc, List.flatMap_cons]
    exact enacts_more (by simp [hne]) ((hstep hform).bind fun _ _ _ => ih hitems (by omega))

end

-- ---------------------------------------------------------------------------
-- Numbers of an array
-- ---------------------------------------------------------------------------

section

variable {field : Field Ref} {value : Scalar} {form : Bytes}

/-- The next element is claimed for a number, which is stored there before it is counted. -/
theorem enacts_nextElement {body : Nat → Decode Bytes S Unit}
    (h : ∀ count, Enacts last (body count) form (onBytes (do
      Edit.change field (field.element count) fun stored => field.kind.storeScalar stored value
      Edit.setSlot field (count + 1))) before) :
    Enacts last (nextElement field >>= body) form (onBytes (field.takeNumber value)) before := by
  rw [nextElement, bind_assoc, Field.takeNumber, onBytes_bind]
  refine (enacts_onBlock (Edit.ask field.slot)).bind fun count rest hask => ?_
  obtain rfl : before = rest := congrArg Prod.snd hask
  by_cases hfull : field.capacity ≤ count
  · rw [if_pos hfull, if_pos hfull]
    exact .of_error rfl fun _ _ _ _ _ _ => ⟨_, rfl⟩
  · rw [if_neg hfull, if_neg hfull, pure_bind]
    exact h count

/-- What is done over the bytes of a span is put back there. -/
theorem enacts_change {span : Span} {step : Decode Bytes S Unit} {f : Bytes → Bytes}
    (h : ∀ stored, Turns last step content (stored, before.2) () (f stored, before.2)) :
    Enacts last (inside field span step) content (onBytes (Edit.change field span f)) before := by
  cases hs : before.1.slice? span with
  | none =>
    have hact : (onBytes (Edit.change field span f)).result before = (.error field.outside, before) := by
      simp only [onBytes, Edit.change, Edit.inside, Step.result_onPart, Step.result_ofRun, hs]
    refine .of_error hact fun rest left taken bounded _ _ => ⟨⟨content ++ rest, left, taken, bounded⟩, ?_⟩
    simp only [inside, Step.result_ofRun, hs]
  | some stored =>
    have hact : (onBytes (Edit.change field span f)).result before =
        (.ok (), (before.1.overwrite span.start (f stored), before.2)) := by
      simp only [onBytes, Step.result_onPart, Edit.result_change hs]
    refine .of_ok hact fun rest left taken bounded hle hlast => ?_
    simp only [inside, Step.result_ofRun, hs]
    rw [h stored rest left taken bounded hle hlast]

/-- A number is decoded by reading it and storing what has been read. -/
theorem turns_value {config : DecodeConfig} {nested : Ref → Decode Bytes S Unit} {handlers : List S}
    {stored : Bytes} (hk : field.kind.isScalar = true) (hread : Input.Reads field.readScalar form value) :
    Turns last (Decode.value config nested field) form (stored, handlers) ()
      (field.kind.storeScalar stored value, handlers) := by
  have hstore : Turns last (do
      let scalar ← number field
      onBlock (modify fun block => field.kind.storeScalar block scalar) : Decode Bytes S Unit) form
        (stored, handlers) () (field.kind.storeScalar stored value, handlers) := by
    rw [← List.append_nil form]
    exact (turns_onInput hread).bind (turns_onBlock (Step.result_modify _ stored))
  unfold Decode.value
  split
  · next h => simp [h, Kind.isScalar] at hk
  · next h => simp [h, Kind.isScalar] at hk
  · next h => simp [h, Kind.isScalar] at hk
  · exact hstore

/-- A number on its own is appended. -/
theorem enacts_element {schema : Schema Ref} {config : DecodeConfig} {nested : Ref → Decode Bytes S Unit}
    (hk : field.kind.isScalar = true) (hread : Input.Reads field.readScalar form value) :
    Enacts last (element schema config nested field) form (onBytes (field.takeNumber value)) before := by
  refine enacts_nextElement fun count => ?_
  rw [onBytes_bind, ← List.append_nil form]
  refine (enacts_change fun stored => ?_).bind fun _ _ _ => enacts_onBlock _
  split
  · next h => simp [h, Kind.isScalar] at hk
  · exact turns_value hk hread

/-- Numbers up to the end of the input are appended one after the other. -/
theorem enacts_packedElements {items : List ι} {form : ι → Bytes} {value : ι → Scalar}
    (hread : ∀ item ∈ items, form item ≠ [] ∧ Input.Reads field.readScalar (form item) (value item))
    {room : Nat} (hroom : (items.flatMap form).length ≤ room) :
    Enacts True (packedElements field room : Decode Bytes S Unit) (items.flatMap form)
      (items.forM fun item => onBytes (field.takeNumber (value item))) before := by
  let one : Decode Bytes S Unit := nextElement field >>= fun count => number field >>= fun scalar => do
    onBlock (Edit.change field (field.element count) fun block => field.kind.storeScalar block scalar)
    onBlock (Edit.setSlot field (count + 1))
  have hone : ∀ {form value before}, Input.Reads field.readScalar form value →
      Enacts False one form (onBytes (field.takeNumber value)) before := by
    intro form value before hform
    refine enacts_nextElement fun count => ?_
    rw [← List.append_nil form]
    refine enacts_read hform ?_
    rw [← onBlock_bind]
    exact enacts_onBlock _
  refine enacts_loop rfl (fun room => ?_) hone hread hroom
  simp only [one, packedElements, bind_assoc]

end

-- ---------------------------------------------------------------------------
-- Numbers of a handler
-- ---------------------------------------------------------------------------

section

variable [Handler Ref S] {field : Field Ref} {value : Scalar} {form : Bytes}

omit [Handler Ref S] in
theorem enacts_withHandler (field : Field Ref) (slot : Nat) (step : Step S CodecError α) :
    Enacts last (withHandler field slot (step.onPart (·.2) fun handler state => (state.1, handler)) :
      Decode Bytes S α) [] (onHandler field slot step) before := by
  cases hh : before.2[slot - 1]? with
  | none =>
    have hact : (onHandler field slot step).result before =
        (.error (.invalidDescriptor field.name "callback slot not provided"), before) := by
      simp only [onHandler, Step.result_ofRun, hh]
    refine .of_error hact fun rest left taken bounded _ _ => ⟨⟨rest, left, taken, bounded⟩, ?_⟩
    simp only [withHandler, Step.result_ofRun, hh]
    rfl
  | some handler =>
    rcases hr : step.result handler with ⟨failure | value, handler'⟩
    · have hact : (onHandler field slot step).result before =
          (.error failure, (before.1, before.2.set (slot - 1) handler')) := by
        simp only [onHandler, Step.result_ofRun, hh, hr]
      refine .of_error hact fun rest left taken bounded _ _ => ⟨⟨rest, left, taken, bounded⟩, ?_⟩
      simp only [withHandler, Step.result_ofRun, hh, Step.result_onPart, hr]
      rfl
    · have hact : (onHandler field slot step).result before =
          (.ok value, (before.1, before.2.set (slot - 1) handler')) := by
        simp only [onHandler, Step.result_ofRun, hh, hr]
      refine .of_ok hact fun rest left taken bounded _ _ => ?_
      simp only [withHandler, Step.result_ofRun, hh, Step.result_onPart, hr]
      rfl

/-- A number on its own is given to the handler. -/
theorem enacts_handledNumber (slot : Nat) (hread : Input.Reads field.readScalar form value) :
    Enacts last (handledNumber field slot : Decode Bytes S Unit) form
      (onHandler field slot (Handler.takeScalar field value)) before := by
  rw [← List.append_nil form]
  exact enacts_read hread (enacts_withHandler field slot _)

/-- Numbers up to the end of the input are given to the handler one after the other. -/
theorem enacts_handledElements (slot : Nat) {items : List ι} {form : ι → Bytes} {value : ι → Scalar}
    (hread : ∀ item ∈ items, form item ≠ [] ∧ Input.Reads field.readScalar (form item) (value item))
    {room : Nat} (hroom : (items.flatMap form).length ≤ room) :
    Enacts True (handledElements field slot room : Decode Bytes S Unit) (items.flatMap form)
      (items.forM fun item => onHandler field slot (Handler.takeScalar field (value item))) before :=
  enacts_loop rfl (fun _ => rfl) (enacts_handledNumber slot) hread hroom

end

end Decode

end BlockCodec
