import BlockCodec.Proofs.Frames
import BlockCodec.Proofs.Sizing
import BlockCodec.Proofs.Transparency

/-!
# Messages behind their length

A message behind its length is a frame. Frames are taken off a buffer in one way and decoded from an
input in another, and for whoever gets the block there is no difference: `Decode.delimited_eq_whole`.
The input differs, though, where a message is refused: it is left somewhere in the frame, so only up to
there are messages read in turn what frames are.
-/

namespace BlockCodec

-- ---------------------------------------------------------------------------
-- The length in front
-- ---------------------------------------------------------------------------

open Input

/-- A number at the front of a byte string is read off an input too. -/
theorem Wire.reads_of_read {count : Nat} {bytes : Bytes} {value : UInt64}
    (h : Varint.read bytes = .complete value count) :
    ∃ front rest, bytes = front ++ rest ∧ count = front.length ∧ Reads readVarint front value := by
  obtain ⟨front, rest, rfl, rfl, hle, hspells⟩ := Varint.read_eq_complete_iff.mp h
  exact ⟨front, rest, rfl, rfl, reads_of_spells hspells hle⟩

theorem Wire.readLength_of_reads {front rest : Bytes} {length left taken : Nat} {bounded : Bool}
    (h : Reads readVarint32 front length) (hle : front.length + length ≤ left) :
    readLength.result ⟨front ++ rest, left, taken, bounded⟩ =
      (.ok length, ⟨rest, left - front.length, taken + front.length, bounded⟩) := by
  rw [readLength, Step.result_bind_ok (h rest left taken bounded (by omega)),
    Step.result_bind_ok (Step.result_get _), if_neg (by simp only; omega)]
  rfl

/-- A frame at the front of a buffer is a length that an input can read, and the payload. -/
theorem Frame.take_inv {max : Nat} {buffer payload rest : Bytes}
    (h : take max buffer = .ok (some (payload, rest))) (hshort : payload.length < 2 ^ 32) :
    ∃ front, buffer = front ++ (payload ++ rest) ∧ Reads Wire.readVarint32 front payload.length := by
  unfold take at h
  split at h
  · cases h
  · cases h
  · next declared lead hread =>
    obtain ⟨front, behind, rfl, rfl, hreads⟩ := Wire.reads_of_read hread
    rw [List.drop_left] at h
    simp only at h
    split at h
    · cases h
    split at h
    · cases h
    · next hall =>
      obtain ⟨rfl, rfl⟩ : behind.take declared.toNat = payload ∧ behind.drop declared.toNat = rest := by
        simpa using h
      have hlength : (behind.take declared.toNat).length = declared.toNat :=
        Nat.le_antisymm (List.length_take_le _ _) (Nat.not_lt.mp hall)
      rw [hlength] at hshort ⊢
      exact ⟨front, by rw [List.take_append_drop], hreads.map (if_pos hshort)⟩

-- ---------------------------------------------------------------------------
-- Messages that end with their payload
-- ---------------------------------------------------------------------------

namespace Decode

variable {S Ref α : Type} {schema : Schema Ref} {config : DecodeConfig} {content payload rest block : Bytes}
  {left taken : Nat} {state : Decoding Bytes S} {handlers : List S}

/-- A step that cannot tell what is behind its bytes keeps to them. -/
theorem ends_of_twins {step : Decode Bytes S α} (h : Twins step step)
    (hat : state.input.At content content.length taken) :
    step.Ends state (fun _ after => ∃ count ≤ content.length,
      after.input.At (content.drop count) (content.drop count).length (taken + count)) fun _ _ => True := by
  let pair : Pair := ⟨True, content, [], [], 0, 0, taken, taken⟩
  have hself : Abreast pair state state := by
    refine ⟨?_, ?_, rfl, fun _ => ⟨rfl, rfl, rfl, rfl⟩⟩ <;>
    simpa [pair] using hat
  rcases h hself (.inl trivial) with ⟨value, after, _, count, hr, -, -, hle, hnext⟩ | ⟨failure, after, _, hr, -⟩
  · exact .of_ok hr ⟨count, hle, by simpa [pair, Pair.drop] using hnext.one_at⟩
  · exact .of_error hr trivial

/-- A header is at the front as long as there are bytes left. -/
theorem ends_readTag (hat : state.input.At content content.length taken) (hne : content ≠ []) :
    (onWire Wire.readTag : Decode Bytes S _).Ends state (fun header after => header.isSome ∧
      ∃ count, 0 < count ∧ count ≤ content.length ∧
        after.input.At (content.drop count) (content.drop count).length (taken + count)) fun _ _ => True := by
  have hpos : 0 < min content.length content.length := by
    simpa using List.length_pos_iff.mpr hne
  have hself : Tracks WireError.IsShort 1 (Wire.nextTag : Wire.Read Bytes _)
    (Wire.nextTag : Wire.Read Bytes _) := Wire.tracks_nextTag
  have hread : (Wire.readTag : Wire.Read Bytes _).Ends state.input (fun header after => header.isSome ∧
      ∃ count, 0 < count ∧ count ≤ content.length ∧
        after.At (content.drop count) (content.drop count).length (taken + count)) fun _ _ => True := by
    refine .congr ?_ (Wire.result_readTag_next hat hpos)
    refine (hself.advances hat).bind fun tag after ⟨count, hone, hle, hafter⟩ => ?_
    rw [Nat.min_self] at hle
    rw [← List.length_drop] at hafter
    exact Step.ends_pure ⟨rfl, count, hone, hle, hafter⟩
  unfold onWire onInput
  exact Step.ends_onPart (Step.ends_mapFailure hread)

variable [Handler Ref S] {nested : Ref → Decode Bytes S Unit} {table : Table Ref} {depth : Nat}

/-- With room for as many fields as there are bytes, fields are read to the end. -/
theorem ends_walk (h : Handler.Modest Ref Bytes Bytes S)
    (hn : ∀ field ∈ table.fields, NestsTwins nested nested field) (room : Nat) (cursor : Cursor)
    (seen : List Nat) (hat : state.input.At content content.length taken) (hroom : content.length ≤ room) :
    (walk schema config nested depth table room cursor seen).Ends state
      (fun _ after => after.input.left = 0) fun _ _ => True := by
  induction room generalizing cursor seen state content taken with
  | zero =>
    refine Step.ends_pure ?_
    rw [hat.left_eq]
    exact Nat.le_zero.mp hroom
  | succ room ih =>
    by_cases hnil : content = []
    · subst hnil
      obtain ⟨after, hr, hafter⟩ := walk_end schema config nested depth table hat rfl (room + 1) cursor seen
      exact .of_ok hr hafter.left_eq
    · refine (ends_readTag hat hnil).bind fun header middle ⟨hsome, count, hpos, hle, hmiddle⟩ => ?_
      cases header with
      | none => cases hsome
      | some tag =>
        have hrecord : Twins (record schema config nested depth table tag.2 tag.1 (cursor.find table tag.1).1)
            (record schema config nested depth table tag.2 tag.1 (cursor.find table tag.1).1) :=
          (beside_record h fun entry hentry => hn _ (Cursor.mem_of_findWithin (Prod.ext hentry rfl))).twins
        refine (ends_of_twins hrecord hmiddle).bind fun mark after ⟨passed, hfits, hafter⟩ => ?_
        refine ih _ _ hafter ?_
        rw [List.length_drop, List.length_drop]
        omega

theorem ends_messageWithin (h : Handler.Modest Ref Bytes Bytes S) (levels : Nat) (ref : Ref)
    (hat : state.input.At content content.length taken) :
    (messageWithin schema config levels ref).Ends state (fun _ after => after.input.left = 0)
      fun _ _ => True := by
  cases levels with
  | zero => exact Step.ends_throw trivial
  | succ levels =>
    cases hc : (schema ref).checkBlock state.block with
    | error failure => exact .of_error (messageWithin_of_error hc) trivial
    | ok _ =>
      refine .congr ?_ (messageWithin_of_ok hc)
      rw [fields_eq_walk, hat.left_eq]
      refine (ends_walk h (fun field _ inner _ => twins_messageWithin h levels inner) _ _ _ hat
        (Nat.le_refl _)).bind fun seen after hleft => ?_
      unfold checkRequired
      split
      · exact Step.ends_pure hleft
      · exact Step.ends_throw trivial

omit [Handler Ref S] in
/-- A payload is decoded as it would be by itself, if what is accepted is read to its end. -/
theorem result_within_whole {message : Decode Bytes S Unit} (htwins : Twins message message)
    (hends : Step.Ends message { state with input := .ofBytes payload }
      (fun _ after => after.input.left = 0) fun _ _ => True)
    (hsource : state.input.source = payload ++ rest) (hle : payload.length ≤ state.input.left) :
    let inside := message.result { state with input := .ofBytes payload }
    let around := (within payload.length (whole payload.length message)).result state
    around.1 = inside.1 ∧ around.2.block = inside.2.block ∧ around.2.handlers = inside.2.handlers ∧
      (inside.1 = .ok () → around.2.input = ⟨rest, state.input.left - payload.length,
        state.input.taken + payload.length, state.input.bounded⟩) := by
  let pair : Pair := ⟨True, payload, [], rest, 0, 0, 0, 0⟩
  have habreast : Abreast pair { state with input := .ofBytes payload }
      { state with input := .ofSource state.input.source payload.length } := by
    refine ⟨?_, ⟨hsource, rfl, rfl⟩, rfl, fun _ => ⟨rfl, rfl, rfl, rfl⟩⟩
    simpa [pair] using Input.at_ofBytes payload
  rw [result_within _ _ hle]
  rcases htwins habreast (.inl trivial) with
    ⟨_, x, y, count, hx, hy, -, hcount, hnext⟩ | ⟨failure, x, y, hx, hy, hrest⟩
  · have hleft : x.input.left = (payload.drop count).length := hnext.one_at.left_eq
    rw [hends.ok hx, List.length_drop] at hleft
    obtain rfl : count = payload.length := by
      have hfits : count ≤ payload.length := hcount
      omega
    have hafter : y.input.At ([] ++ rest) 0 payload.length := by
      simpa [pair, Pair.drop] using hnext.other_at
    have hwhole : (whole payload.length message).result
        { state with input := .ofSource state.input.source payload.length } = (.ok (), y) := by
      rw [whole, Step.result_bind_ok hy, Step.result_bind_ok (Step.result_get y)]
      simp [Input.isExhausted, hafter.left_eq]
    have hbehind : y.input.source = rest := hafter.holds
    obtain ⟨hblock, hhandlers⟩ := Prod.mk.inj hnext.rest_eq
    simp only [hx, hwhole, true_and]
    refine ⟨hblock.symm, hhandlers.symm, fun _ => ?_⟩
    simp [Input.rejoin, Input.charge, hbehind, hafter.taken_eq]
  · obtain ⟨hblock, hhandlers⟩ := Prod.mk.inj hrest
    have hwhole : (whole payload.length message).result
        { state with input := .ofSource state.input.source payload.length } = (.error failure, y) := by
      rw [whole, Step.result_bind_error hy]
    simp only [hx, hwhole, true_and]
    exact ⟨hblock.symm, hhandlers.symm, by rintro ⟨⟩⟩

variable (schema config handlers rest block) in
/-- A message behind its length is decoded as its payload by itself, and where it is accepted the
input is left behind it. -/
theorem delimited_eq_whole (h : Handler.Modest Ref Bytes Bytes S) (ref : Ref) (taken : Nat) (bounded : Bool)
    {front : Bytes} (hfront : Reads Wire.readVarint32 front payload.length) (hle : front.length + payload.length ≤ left) :
    let alone := (decodeMessage schema config ref).result ⟨.ofBytes payload, block, handlers⟩
    let framed := (decodeDelimited schema config ref).result
      ⟨⟨front ++ (payload ++ rest), left, taken, bounded⟩, block, handlers⟩
    framed.1 = alone.1 ∧ framed.2.block = alone.2.block ∧ framed.2.handlers = alone.2.handlers ∧
      (alone.1 = .ok () → framed.2.input = ⟨rest, left - (front.length + payload.length),
        taken + (front.length + payload.length), bounded⟩) := by
  let behind : Input Bytes := ⟨payload ++ rest, left - front.length, taken + front.length, bounded⟩
  have hlength : (onWire Wire.readLength).result
      ⟨⟨front ++ (payload ++ rest), left, taken, bounded⟩, block, handlers⟩ =
        (.ok payload.length, ⟨behind, block, handlers⟩) :=
    result_onWire (Wire.readLength_of_reads hfront hle)
  have hinit : ∀ input : Input Bytes, (onBlock (schema.initialise ref)).result ⟨input, block, handlers⟩ =
      (((schema.initialise ref).result block).1,
        ⟨input, ((schema.initialise ref).result block).2, handlers⟩) := fun _ => rfl
  rw [decodeDelimited, Step.result_bind_ok hlength, decodeMessage]
  rcases hr : (schema.initialise ref).result block with ⟨outcome, fresh⟩
  rw [hr] at hinit
  cases outcome with
  | error failure =>
    rw [Step.result_bind_error (hinit _), Step.result_bind_error (hinit _)]
    exact ⟨rfl, rfl, rfl, by rintro ⟨⟩⟩
  | ok _ =>
    rw [Step.result_bind_ok (hinit _), Step.result_bind_ok (hinit _)]
    have htwins : Twins (mergeMessage schema config ref : Decode Bytes S Unit)
      (mergeMessage schema config ref : Decode Bytes S Unit) := twins_messageWithin h _ ref
    have hends : Step.Ends (mergeMessage schema config ref) ⟨.ofBytes payload, fresh, handlers⟩
        (fun _ after => after.input.left = 0) fun _ _ => True :=
      ends_messageWithin h _ ref (Input.at_ofBytes payload)
    have hroom : payload.length ≤ (⟨behind, fresh, handlers⟩ : Decoding Bytes S).input.left :=
      Nat.le_sub_of_add_le' hle
    obtain ⟨houtcome, hblock, hhandlers, hinput⟩ := result_within_whole htwins hends rfl hroom
    refine ⟨houtcome, hblock, hhandlers, fun hok => (hinput hok).trans ?_⟩
    rw [Nat.sub_sub, Nat.add_assoc]

end Decode

-- ---------------------------------------------------------------------------
-- Written as frames
-- ---------------------------------------------------------------------------

section

variable {Ref : Type} {schema : Schema Ref} {ref : Ref} {block payload : Bytes} {failure : CodecError}

/-- Encoding by itself gives what encoding spells, or it ends in the limit. -/
theorem encodeToBytes_spelled (hu : schema.Throughout Table.Unhandled ref) (block : Bytes) :
    (∃ failure, encodeToBytes schema ref block = .error failure ∧ failure.IsLimit) ∨
    ∃ content outcome, encodeToBytes schema ref block = outcome.map (fun _ => content) ∧
      Spells content outcome (encodeMessage schema {} ref block : Encode Bytes Empty Unit) := by
  obtain ⟨content, outcome, hs, -⟩ : Concurs (encodeMessage schema {} ref block : Encode Bytes Empty Unit)
      (encodeMessage schema {} ref block : Encode Bytes Empty Unit) := concurs_encodeMessage hu {} block
  have hbacked : (Output.unbounded ([] : Bytes)).Backed := fun _ _ => trivial
  rw [encodeToBytes]
  by_cases hfits : (Output.unbounded ([] : Bytes)).Takes content.length
  · rw [hs.fits ⟨.unbounded [], []⟩ hbacked hfits]
    exact .inr ⟨content, outcome, rfl, hs⟩
  · obtain ⟨failure, after, hr, hlimit⟩ := (hs.overruns ⟨.unbounded [], []⟩ hbacked hfits).fails
    rw [hr]
    exact .inl ⟨failure, rfl, hlimit⟩

theorem spells_of_encodeToBytes (hu : schema.Throughout Table.Unhandled ref)
    (h : encodeToBytes schema ref block = .ok payload) :
    Spells payload (.ok ()) (encodeMessage schema {} ref block : Encode Bytes Empty Unit) := by
  obtain ⟨failure, hfails, -⟩ | ⟨content, outcome, hgives, hs⟩ := encodeToBytes_spelled hu block
  · rw [h] at hfails
    cases hfails
  · rw [h] at hgives
    cases outcome <;> cases hgives
    exact hs

/-- A message that cannot be encoded leaves nothing behind its length either. -/
theorem encodeDelimited_of_error (hu : schema.Throughout Table.Unhandled ref)
    (h : encodeToBytes schema ref block = .error failure) (hlimit : ¬failure.IsLimit)
    (state : Encoding Bytes Empty) :
    (encodeDelimited schema {} ref block).result state = (.error failure, state) := by
  obtain ⟨_, hfails, hother⟩ | ⟨content, outcome, hgives, hs⟩ := encodeToBytes_spelled hu block
  · rw [h] at hfails
    cases hfails
    exact absurd hother hlimit
  · rw [h] at hgives
    cases outcome <;> cases hgives
    exact Step.result_bind_error (Encode.looks_measure hs state)

/-- Messages behind their lengths are a stream of frames. -/
theorem spells_stream {blocks payloads : List Bytes} (hu : schema.Throughout Table.Unhandled ref)
    (h : List.Forall₂ (fun block payload => encodeToBytes schema ref block = .ok payload) blocks payloads) :
    Spells (Frame.stream payloads) (.ok ())
      (blocks.forM (encodeDelimited schema {} ref) : Encode Bytes Empty Unit) := by
  induction h with
  | nil => exact spells_nil fun _ => rfl
  | cons hfirst _ ih => exact (Encode.spells_sized (spells_of_encodeToBytes hu hfirst) _).seq ih

end

-- ---------------------------------------------------------------------------
-- Messages one behind the other
-- ---------------------------------------------------------------------------

section

variable {Ref : Type} {schema : Schema Ref} {ref : Ref}

/-- Messages behind their lengths, decoded from one input each into a block of its own. A message
that is refused does not end the series. -/
def decodeInTurn (schema : Schema Ref) (ref : Ref) :
    List Bytes → Input Bytes → List (Except CodecError Unit × Bytes)
  | [], _ => []
  | block :: blocks, input =>
    let step : Decode Bytes Empty Unit := decodeDelimited schema {} ref
    let (outcome, after) := step.result { input, block, handlers := [] }
    (outcome, after.block) :: decodeInTurn schema ref blocks after.input

/-- Up to the first message that is refused, a series is decoded as its payloads are. -/
theorem decodeInTurn_stream (rest : Bytes) (taken : Nat) (bounded : Bool) {payloads blocks : List Bytes}
    {left : Nat} (hshort : ∀ payload ∈ payloads, payload.length < 2 ^ 32) (hlength : blocks.length = payloads.length)
    (hle : (Frame.stream payloads).length ≤ left) (count : Nat)
    (hok : ∀ result ∈ (payloads.zipWith (decodeBytes schema ref) blocks).take count, result.1 = .ok ()) :
    (decodeInTurn schema ref blocks ⟨Frame.stream payloads ++ rest, left, taken, bounded⟩).take (count + 1) =
      (payloads.zipWith (decodeBytes schema ref) blocks).take (count + 1) := by
  induction payloads generalizing blocks left taken count with
  | nil =>
    cases blocks with
    | nil => rfl
    | cons => cases hlength
  | cons payload payloads ih =>
    cases blocks with
    | nil => cases hlength
    | cons block blocks =>
      obtain ⟨hfirst, hothers⟩ := List.forall_mem_cons.mp hshort
      have hstream : Frame.stream (payload :: payloads) ++ rest =
          Varint.encode (UInt64.ofNat payload.length) ++ (payload ++ (Frame.stream payloads ++ rest)) := by
        simp [Frame.stream, Frame.encode]
      have hroom : (Varint.encode (UInt64.ofNat payload.length)).length + payload.length +
          (Frame.stream payloads).length ≤ left := by
        simpa [Frame.stream, Frame.encode, Nat.add_assoc] using hle
      obtain ⟨houtcome, hblock, -, hinput⟩ := Decode.delimited_eq_whole schema {}
        (Frame.stream payloads ++ rest) block [] Handler.modest_empty ref taken bounded
        (Wire.reads_readVarint32 hfirst) (Nat.le_of_add_right_le hroom)
      rw [← hstream] at houtcome hblock hinput
      have hhead : (_, _) = decodeBytes schema ref payload block := Prod.ext houtcome hblock
      rw [decodeInTurn, List.zipWith_cons_cons, List.take_succ_cons, List.take_succ_cons, hhead]
      refine congrArg _ ?_
      cases count with
      | zero => rfl
      | succ count =>
        rw [List.zipWith_cons_cons, List.take_succ_cons] at hok
        obtain ⟨haccepted, hbehind⟩ := List.forall_mem_cons.mp hok
        rw [hinput haccepted]
        exact ih _ hothers (by simpa using hlength) (by omega) count hbehind

end

-- ---------------------------------------------------------------------------
-- Both framings
-- ---------------------------------------------------------------------------

section

variable {Ref : Type} {schema : Schema Ref} {ref : Ref} {payloads : List Bytes}

/-- What is taken off a buffer as a frame is what is decoded behind a length. -/
theorem decodeDelimited_of_take {max : Nat} {buffer payload rest block : Bytes}
    (htake : Frame.take max buffer = .ok (some (payload, rest))) (hshort : payload.length < 2 ^ 32) :
    let framed := (decodeDelimited schema {} ref : Decode Bytes Empty Unit).result
      { input := .ofBytes buffer, block, handlers := [] }
    (framed.1, framed.2.block) = decodeBytes schema ref payload block ∧
      (framed.1 = .ok () →
        framed.2.input.source = rest ∧ framed.2.input.taken + rest.length = buffer.length) := by
  intro framed
  obtain ⟨front, rfl, hfront⟩ := Frame.take_inv htake hshort
  have hroom : front.length + payload.length ≤ (front ++ (payload ++ rest)).length := by
    simp [← Nat.add_assoc]
  obtain ⟨houtcome, hblock, -, hinput⟩ :=
    Decode.delimited_eq_whole schema {} rest block [] Handler.modest_empty ref 0 true hfront hroom
  refine ⟨Prod.ext houtcome hblock, fun hok => ?_⟩
  have hbehind : framed.2.input = _ := hinput (houtcome.symm.trans hok)
  rw [hbehind]
  exact ⟨rfl, by simp [Nat.add_assoc]⟩

/-- What is written behind lengths is a stream of frames, as far as there are sizes for it. -/
theorem written_stream {blocks : List Bytes} (hu : schema.Throughout Table.Unhandled ref)
    (h : List.Forall₂ (fun block payload => encodeToBytes schema ref block = .ok payload) blocks payloads)
    (sink : Bytes) :
    let size := (Frame.stream payloads).length
    let written := (blocks.forM (encodeDelimited schema {} ref) : Encode Bytes Empty Unit).result
      { output := .unbounded sink, handlers := [] }
    (size ≤ maxSize → written = (.ok (), ⟨⟨some (sink ++ Frame.stream payloads), maxSize, size⟩, []⟩)) ∧
      (maxSize < size → ∃ failure, written.1 = .error failure ∧ failure.IsLimit) := by
  have hs := spells_stream hu h
  have hbacked : (Output.unbounded sink).Backed := fun _ _ => trivial
  refine ⟨fun hfits => ?_, fun hover => ?_⟩
  · refine (hs.fits ⟨.unbounded sink, []⟩ hbacked (.inr hfits)).trans ?_
    simp [extend, Carrier.onto, Carrier.output, Output.extend, Output.charge, Output.unbounded,
      Output.ofSink, Store.append]
  · obtain ⟨failure, after, hr, hlimit⟩ := (hs.overruns ⟨.unbounded sink, []⟩ hbacked
      (Output.not_takes rfl hover)).fails
    exact ⟨failure, congrArg Prod.fst hr, hlimit⟩

theorem Frame.Reader.calls_stream {feed : Feed} {max : Nat} (hfilled : feed.Filled)
    (hquiet : feed.faults = []) (hcontent : feed.content = stream payloads)
    (hshort : ∀ payload ∈ payloads, payload.length < 2 ^ 32) (hle : ∀ payload ∈ payloads, payload.length ≤ max)
    (more : Nat) :
    (calls (payloads.length + more) (.ofFeed feed max)).1 =
      payloads.map (.ok ∘ some) ++ List.replicate more (.ok none) := by
  have hawaits : (ofFeed feed max).Awaits payloads [] := by
    refine ⟨fun payload hp => .of_short (hle payload hp) ((hshort payload hp).trans (by decide)), .inl rfl,
      hfilled, ?_⟩
    rw [List.append_nil]
    exact hcontent
  exact hawaits.calls_eq hquiet more

/-- A frame taken off a buffer and decoded is the same as the buffer decoded behind a length, and what
encoding behind a length writes is frames. A series of messages comes to the same in both ways up to
the first one that is refused, since the input is then left inside its frame. -/
theorem framings_agree (schema : Schema Ref) (ref : Ref) :
    (∀ (max : Nat) (buffer payload rest block : Bytes),
      Frame.take max buffer = .ok (some (payload, rest)) → payload.length < 2 ^ 32 →
      let framed := (decodeDelimited schema {} ref : Decode Bytes Empty Unit).result
        { input := .ofBytes buffer, block, handlers := [] }
      (framed.1, framed.2.block) = decodeBytes schema ref payload block ∧
        (framed.1 = .ok () →
          framed.2.input.source = rest ∧ framed.2.input.taken + rest.length = buffer.length)) ∧
    (schema.Throughout Table.Unhandled ref →
      (∀ (block : Bytes) (failure : CodecError) (output : Output Bytes),
        encodeToBytes schema ref block = .error failure → ¬failure.IsLimit →
        (encodeDelimited schema {} ref block : Encode Bytes Empty Unit).result ⟨output, []⟩ =
          (.error failure, ⟨output, []⟩)) ∧
      ∀ blocks payloads : List Bytes,
        List.Forall₂ (fun block payload => encodeToBytes schema ref block = .ok payload) blocks payloads →
        ∀ sink : Bytes,
          let size := (Frame.stream payloads).length
          let written := (blocks.forM (encodeDelimited schema {} ref) : Encode Bytes Empty Unit).result
            { output := .unbounded sink, handlers := [] }
          (size ≤ maxSize → written = (.ok (), ⟨⟨some (sink ++ Frame.stream payloads), maxSize, size⟩, []⟩)) ∧
          (maxSize < size → ∃ failure, written.1 = .error failure ∧ failure.IsLimit)) ∧
    ∀ payloads : List Bytes, (∀ payload ∈ payloads, payload.length < 2 ^ 32) →
      (∀ blocks : List Bytes, blocks.length = payloads.length → ∀ count,
        let framed := payloads.zipWith (decodeBytes schema ref) blocks
        (∀ result ∈ framed.take count, result.1 = .ok ()) →
          (decodeInTurn schema ref blocks (.ofBytes (Frame.stream payloads))).take (count + 1) =
            framed.take (count + 1)) ∧
      ∀ (feed : Feed) (max more : Nat), feed.Filled → feed.faults = [] →
        feed.content = Frame.stream payloads → (∀ payload ∈ payloads, payload.length ≤ max) →
        (Frame.Reader.calls (payloads.length + more) (.ofFeed feed max)).1 =
          payloads.map (.ok ∘ some) ++ List.replicate more (.ok none) := by
  refine ⟨fun max buffer payload rest block => decodeDelimited_of_take, fun hu => ⟨?refused, ?written⟩,
    fun payloads hshort => ⟨?decoded, ?read⟩⟩
  case refused => exact fun block failure output hfails hlimit => encodeDelimited_of_error hu hfails hlimit _
  case written => exact fun blocks payloads => written_stream hu
  case decoded =>
    intro blocks hlength count _ hok
    have h := decodeInTurn_stream [] 0 true hshort hlength (Nat.le_refl _) count hok
    rwa [List.append_nil] at h
  case read =>
    exact fun feed max more hfilled hquiet hcontent hle =>
      Frame.Reader.calls_stream hfilled hquiet hcontent hshort hle more

/-- Two letters, the second one with a line that is no text, and a third behind it that is lost. -/
theorem framings_agree_letter :
    letter.Throughout Table.Unhandled false ∧
    ∃ blocks payloads : List Bytes,
      List.Forall₂ (fun block payload => encodeToBytes letter false block = .ok payload) blocks payloads ∧
      (∀ payload ∈ payloads, payload.length < 2 ^ 32) ∧
      Frame.take 16 (Frame.stream payloads) = .ok (some ([8, 7], [8, 8, 0, 18, 1, 255, 18, 1, 97, 2, 8, 0])) ∧
      ((decodeDelimited letter {} false : Decode Bytes Empty Unit).result
        { input := .ofBytes (Frame.stream payloads), block := Bytes.zeros 26, handlers := [] }).1 = .ok () ∧
      ((blocks.forM (encodeDelimited letter {} false) : Encode Bytes Empty Unit).result
        { output := .unbounded [], handlers := [] }).1 = .ok () ∧
      (decodeInTurn letter false (List.replicate 3 (Bytes.zeros 26)) (.ofBytes (Frame.stream payloads))).take 2 =
        (payloads.zipWith (decodeBytes letter false) (List.replicate 3 (Bytes.zeros 26))).take 2 ∧
      (Frame.Reader.calls 4 (.ofFeed [.chunk [2, 8], .chunk ((Frame.stream payloads).drop 2)] 16)).1 =
        payloads.map (.ok ∘ some) ++ [.ok none] := by
  let torn : Bytes := [0, 0, 0, 0, 2, 0, 0, 0, 255, 0, 0, 0, 97] ++ Bytes.zeros 13
  let payloads : List Bytes := [[8, 7], [8, 0, 18, 1, 255, 18, 1, 97], [8, 0]]
  obtain ⟨htake, hencode, hread⟩ := framings_agree letter false
  have hencoded : List.Forall₂ (fun block payload => encodeToBytes letter false block = .ok payload)
      [7 :: Bytes.zeros 25, torn, Bytes.zeros 26] payloads :=
    .cons (by cbv) (.cons (by cbv) (.cons (by cbv) .nil))
  have hshort : ∀ payload ∈ payloads, payload.length < 2 ^ 32 := by decide
  have hfront : Frame.take 16 (Frame.stream payloads) = .ok (some ([8, 7], _)) := rfl
  have hfirst : decodeBytes letter false [8, 7] (Bytes.zeros 26) = (.ok (), 7 :: Bytes.zeros 25) := by cbv
  obtain ⟨hseries, hframes⟩ := hread payloads hshort
  refine ⟨letter_unhandled false, _, payloads, hencoded, hshort, hfront, ?_, ?_, ?_, ?_⟩
  · obtain ⟨hsame, -⟩ := htake 16 _ _ _ (Bytes.zeros 26) hfront (by decide)
    exact congrArg Prod.fst (hsame.trans hfirst)
  · exact congrArg Prod.fst (((hencode (letter_unhandled false)).2 _ _ hencoded []).1 (by decide))
  · refine hseries (List.replicate 3 (Bytes.zeros 26)) rfl 1 fun result hresult => ?_
    rw [List.mem_singleton.mp hresult, hfirst]
  · exact hframes [.chunk [2, 8], .chunk ((Frame.stream payloads).drop 2)] 16 1 (by decide) rfl rfl (by decide)

/-- Of two letters the first one is no text: the second one is then looked for inside its frame. -/
theorem framings_part_letter :
    Table.validate letter false = .ok () ∧ letter.Throughout Table.Unhandled false ∧
    ∃ blocks payloads : List Bytes,
      List.Forall₂ (fun block payload => encodeToBytes letter false block = .ok payload) blocks payloads ∧
      (∀ payload ∈ payloads, payload.length < 2 ^ 32) ∧
      (decodeInTurn letter false [Bytes.zeros 26, Bytes.zeros 26] (.ofBytes (Frame.stream payloads))).map
        Prod.fst = [.error (.invalidUtf8 "lines"), .error (.wire (.lengthMismatch 18 5))] ∧
      (payloads.zipWith (decodeBytes letter false) [Bytes.zeros 26, Bytes.zeros 26]).map Prod.fst =
        [.error (.invalidUtf8 "lines"), .ok ()] := by
  refine ⟨rfl, letter_unhandled false,
    [[0, 0, 0, 0, 2, 0, 0, 0, 255, 0, 0, 0, 97] ++ Bytes.zeros 13, Bytes.zeros 26],
    [[8, 0, 18, 1, 255, 18, 1, 97], [8, 0]], .cons (by cbv) (.cons (by cbv) .nil), by decide, ?_, ?_⟩
  · cbv
  · cbv

end

end BlockCodec
