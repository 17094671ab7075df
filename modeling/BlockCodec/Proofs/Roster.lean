import BlockCodec.Proofs.Decoding
import BlockCodec.Proofs.Walking

/-!
# The list of handlers

Decoding gives values to the handlers at the slots of a list, and what they have become is put back at the
same slots. So it leaves as many handlers as it finds, whether it succeeds or fails
(`Decode.sameCount_messageWithin`), and a slot that has a handler keeps having one.
-/

namespace BlockCodec.Decode

variable {σ S α β Ref : Type}

/-- The step leaves as many handlers as there were. -/
def SameCount (step : Decode σ S α) : Prop :=
  ∀ state, (step.result state).2.handlers.length = state.handlers.length

-- ---------------------------------------------------------------------------
-- Combinators
-- ---------------------------------------------------------------------------

theorem SameCount.bind {step : Decode σ S α} {next : α → Decode σ S β} (h : SameCount step)
    (hn : ∀ value, SameCount (next value)) : SameCount (step >>= next) := by
  intro state
  have hfirst := h state
  rcases hr : step.result state with ⟨failure | value, after⟩ <;> rw [hr] at hfirst
  · rwa [Step.result_bind_error hr]
  · rw [Step.result_bind_ok hr, hn value after]
    exact hfirst

theorem sameCount_pure (value : α) : SameCount (pure value : Decode σ S α) := fun _ => rfl

theorem sameCount_throw (failure : CodecError) : SameCount (throw failure : Decode σ S α) := fun _ => rfl

theorem sameCount_get : SameCount (get : Decode σ S (Decoding σ S)) := fun _ => rfl

theorem sameCount_ite {c : Prop} [Decidable c] {yes no : Decode σ S α} (hy : SameCount yes)
    (hn : SameCount no) : SameCount (if c then yes else no) := by
  split <;> assumption

theorem sameCount_unless {c : Prop} [Decidable c] {failure : CodecError} {next : Unit → Decode σ S α}
    (h : SameCount (next ())) :
    SameCount (if c then (throw failure : Decode σ S Unit) >>= next else next ()) :=
  sameCount_ite ((sameCount_throw _).bind fun _ => h) h

theorem sameCount_onInput (step : Step (Input σ) CodecError α) : SameCount (onInput step : Decode σ S α) :=
  fun _ => rfl

theorem sameCount_onBlock (edit : Edit α) : SameCount (onBlock edit : Decode σ S α) := fun _ => rfl

theorem SameCount.within {step : Decode σ S α} (h : SameCount step) (length : Nat) :
    SameCount (within length step) := by
  intro state
  simp only [Decode.within, Step.result_ofRun]
  split
  · rfl
  · exact h { state with input := _ }

theorem SameCount.inside {step : Decode σ S α} (h : SameCount step) (field : Field Ref) (span : Span) :
    SameCount (inside field span step) := by
  intro state
  simp only [Decode.inside, Step.result_ofRun]
  split
  · rfl
  · exact h { state with block := _ }

theorem sameCount_withHandler (field : Field Ref) (slot : Nat) (step : Receive σ S α) :
    SameCount (withHandler field slot step) := by
  intro state
  simp only [withHandler, Step.result_ofRun]
  split
  · rfl
  · exact List.length_set

-- ---------------------------------------------------------------------------
-- Values
-- ---------------------------------------------------------------------------

section

variable [Source σ] {schema : Schema Ref} {config : DecodeConfig} {nested : Ref → Decode σ S Unit}
  {table : Table Ref}

theorem sameCount_fill (start count : Nat) : SameCount (fill start count : Decode σ S Unit) := by
  intro state
  simp only [fill, Step.result_ofRun]
  split <;> rfl

theorem sameCount_value (hn : ∀ inner, SameCount (nested inner)) (field : Field Ref) :
    SameCount (value config nested field) := by
  unfold value
  split
  · refine (sameCount_onInput _).bind fun length => sameCount_get.bind fun _ => sameCount_unless ?_
    refine (sameCount_fill _ _).bind fun _ => (sameCount_onBlock _).bind fun _ => sameCount_get.bind fun _ => ?_
    exact sameCount_ite (sameCount_throw _) (sameCount_pure _)
  · refine (sameCount_onInput _).bind fun length => sameCount_get.bind fun _ => ?_
    exact sameCount_unless (sameCount_unless ((sameCount_fill _ _).bind fun _ => sameCount_onBlock _))
  · refine (sameCount_onInput _).bind fun length => SameCount.within ((hn _).bind fun _ => ?_) length
    exact sameCount_get.bind fun _ => sameCount_ite (sameCount_throw _) (sameCount_pure _)
  · exact (sameCount_onInput _).bind fun _ => sameCount_onBlock _

omit [Source σ] in
theorem sameCount_nextElement (field : Field Ref) : SameCount (nextElement field : Decode σ S Nat) :=
  (sameCount_onBlock _).bind fun _ => sameCount_unless (sameCount_pure _)

theorem sameCount_packedElements (field : Field Ref) (room : Nat) :
    SameCount (packedElements field room : Decode σ S Unit) := by
  induction room with
  | zero => exact sameCount_pure ()
  | succ room ih =>
    refine sameCount_get.bind fun _ => sameCount_ite (sameCount_pure ()) ?_
    refine (sameCount_nextElement field).bind fun _ => (sameCount_onInput _).bind fun _ => ?_
    exact (sameCount_onBlock _).bind fun _ => (sameCount_onBlock _).bind fun _ => ih

theorem sameCount_element (hn : ∀ inner, SameCount (nested inner)) (field : Field Ref) :
    SameCount (element schema config nested field) := by
  refine (sameCount_nextElement field).bind fun count => SameCount.bind ?_ fun _ => sameCount_onBlock _
  refine SameCount.inside ?_ field _
  split
  · exact (sameCount_onBlock _).bind fun _ => sameCount_value hn field
  · exact sameCount_value hn field

theorem sameCount_stored (hn : ∀ inner, SameCount (nested inner)) (field : Field Ref) (type : WireType) :
    SameCount (stored schema config nested table field type) := by
  have hvalue : SameCount (inside field field.data (value config nested field)) :=
    (sameCount_value hn field).inside field field.data
  unfold stored
  split
  · refine sameCount_ite ?_ (sameCount_element hn field)
    exact (sameCount_onInput _).bind fun length => (sameCount_packedElements field length).within length
  · refine (sameCount_onBlock _).bind fun _ => sameCount_ite ?_ hvalue
    exact (sameCount_onBlock _).bind fun _ => hvalue
  · exact hvalue.bind fun _ => sameCount_ite (sameCount_onBlock _) (sameCount_pure _)
  · exact hvalue

end

-- ---------------------------------------------------------------------------
-- Messages
-- ---------------------------------------------------------------------------

section

variable [Source σ] [Handler Ref S] {schema : Schema Ref} {config : DecodeConfig}
  {nested : Ref → Decode σ S Unit} {depth : Nat} {table : Table Ref}

theorem sameCount_handledNumber (field : Field Ref) (slot : Nat) :
    SameCount (handledNumber field slot : Decode σ S Unit) :=
  (sameCount_onInput _).bind fun _ => sameCount_withHandler field slot _

theorem sameCount_handledElements (field : Field Ref) (slot room : Nat) :
    SameCount (handledElements field slot room : Decode σ S Unit) := by
  induction room with
  | zero => exact sameCount_pure ()
  | succ room ih =>
    refine sameCount_get.bind fun _ => sameCount_ite (sameCount_pure ()) ?_
    exact (sameCount_handledNumber field slot).bind fun _ => ih

theorem sameCount_handled (field : Field Ref) (type : WireType) :
    SameCount (handled config depth field type : Decode σ S Unit) := by
  have hpayload : ∀ slot, SameCount (handledPayload config depth field slot : Decode σ S Unit) := fun slot =>
    (sameCount_withHandler field slot _).bind fun _ => sameCount_get.bind fun _ => sameCount_onInput _
  refine (sameCount_onBlock _).bind fun slot => sameCount_ite (sameCount_onInput _) ?_
  refine (sameCount_get.bind fun _ => sameCount_ite (sameCount_throw _) (sameCount_pure _)).bind fun _ => ?_
  refine sameCount_ite ?_ (sameCount_handledNumber field slot)
  refine (sameCount_onInput _).bind fun length => SameCount.within ?_ length
  exact sameCount_ite (sameCount_handledElements field slot length) (hpayload slot)

theorem sameCount_record (hn : ∀ inner, SameCount (nested inner)) (type : WireType) (number : Nat)
    (found : Option (Entry Ref)) :
    SameCount (record schema config nested depth table type number found) := by
  have hskip : SameCount (skipValue number type >>= fun _ => pure none : Decode σ S (Option Nat)) :=
    (sameCount_onInput _).bind fun _ => sameCount_pure _
  unfold record
  split
  · exact sameCount_unless hskip
  · refine sameCount_ite ?_ (sameCount_unless hskip)
    exact sameCount_ite ((sameCount_handled _ _).bind fun _ => sameCount_pure _)
      ((sameCount_stored hn _ _).bind fun _ => sameCount_pure _)

theorem sameCount_nextField (hn : ∀ inner, SameCount (nested inner)) :
    SameCount (nextField schema config nested depth table) :=
  (sameCount_onInput _).bind fun _ => (sameCount_record hn _ _ _).bind fun _ => sameCount_pure _

theorem sameCount_walk (hn : ∀ inner, SameCount (nested inner)) (room : Nat) (cursor : Cursor) (seen : List Nat) :
    SameCount (walk schema config nested depth table room cursor seen) := by
  induction room generalizing cursor seen with
  | zero => exact sameCount_pure seen
  | succ room ih =>
    refine (sameCount_onInput _).bind fun header => ?_
    split
    · exact sameCount_pure seen
    · exact (sameCount_record hn _ _ _).bind fun _ => ih _ _

/-- A message leaves as many handlers as it finds. -/
theorem sameCount_messageWithin (schema : Schema Ref) (config : DecodeConfig) (levels : Nat) (ref : Ref) :
    SameCount (messageWithin schema config levels ref : Decode σ S Unit) := by
  induction levels generalizing ref with
  | zero => exact sameCount_throw _
  | succ levels ih =>
    refine (sameCount_onBlock _).bind fun _ => sameCount_get.bind fun _ => ?_
    rw [fields_eq_walk]
    refine (sameCount_walk ih _ _ _).bind fun seen => ?_
    unfold checkRequired
    split
    · exact sameCount_pure ()
    · exact sameCount_throw _

end

end BlockCodec.Decode
