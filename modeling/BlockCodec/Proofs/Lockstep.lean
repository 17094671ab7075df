import BlockCodec.Message.Decode
import BlockCodec.Proofs.Decoding
import BlockCodec.Proofs.Lookup
import BlockCodec.Proofs.Tracking

/-!
# Two decoders side by side

A message is decoded twice, from a short input and from a long one. Values are tracked as all steps
are. What is special about a message is that it ends with its input, so the long run goes on where the
short one ends: `Decode.walk_lockstep`.
-/

namespace BlockCodec

instance {σ S : Type} : Reader (Decoding σ S) σ (Bytes × List S) :=
  ⟨(·.input), fun state => (state.block, state.handlers)⟩

@[simp] theorem Reader.input_decoding {σ S : Type} (state : Decoding σ S) :
    Reader.input state = state.input := rfl

section

variable {σ : Type} [Source σ] [Supply σ] {outer inner : Input σ} {content rest : Bytes}
  {left taken more count : Nat}

theorem Input.At.narrow (h : outer.At content left taken) (length : Nat) :
    (Input.ofSource outer.source length).At content length 0 :=
  ⟨h.holds, rfl, rfl⟩

theorem Input.At.rejoin (h : outer.At content left taken) (hi : inner.At rest more count) :
    (outer.rejoin inner).At rest (left - count) (taken + count) where
  holds := hi.holds
  left_eq := by simp [Input.rejoin, Input.charge, h.left_eq, hi.taken_eq]
  taken_eq := by simp [Input.rejoin, Input.charge, h.taken_eq, hi.taken_eq]

end

namespace Decode

variable {σ τ S α β Ref : Type} [Source σ] [Supply σ] [Source τ] [Supply τ]
  {least : Nat} {debt : α → Nat} {cut : Cut} {short : Decoding σ S} {long : Decoding τ S}

-- ---------------------------------------------------------------------------
-- Parts of the state
-- ---------------------------------------------------------------------------

theorem owes_onInput {shorts : CodecError → Prop} {a : Step (Input σ) CodecError α}
    {b : Step (Input τ) CodecError α} (h : Owes shorts least debt a b) :
    Owes shorts least debt (onInput a : Decode σ S α) (onInput b : Decode τ S α) where
  advances hat := Step.ends_onPart (h.advances hat)
  mirrors {cut short long} hrel := by
    have hinput : Related cut short.input long.input := ⟨hrel.short_at, hrel.long_at, rfl⟩
    refine Step.ends_onPart ((h.mirrors hinput).mono (fun value after hb => ?_) fun failure _ hb => ?_)
    · refine Step.ends_onPart (hb.mono ?_ fun _ _ h => h)
      rintro _ last ⟨rfl, count, hle, hnext⟩
      exact ⟨rfl, count, hle, hnext.short_at, hnext.long_at, hrel.rest_eq⟩
    · exact Step.ends_onPart hb

theorem owes_onWire {a : Wire.Read σ α} {b : Wire.Read τ α} (h : Owes WireError.IsShort least debt a b) :
    Owes CodecError.IsShort least debt (onWire a : Decode σ S α) (onWire b : Decode τ S α) :=
  owes_onInput (h.mapFailure fun _ hshort => hshort)

theorem tracks_onBlock (edit : Edit α) :
    Tracks CodecError.IsShort 0 (onBlock edit : Decode σ S α) (onBlock edit : Decode τ S α) where
  advances hat := Step.ends_onPart (by
    unfold Step.Ends
    split
    · exact ⟨0, Nat.le_refl 0, Nat.zero_le _, hat⟩
    · trivial)
  mirrors {cut short long} hrel := by
    obtain ⟨hblock, hhandlers⟩ := Prod.mk.inj hrel.rest_eq
    unfold Mirrors Step.Ends onBlock
    rw [Step.result_onPart, Step.result_onPart, show short.block = long.block from hblock]
    rcases edit.result long.block with ⟨outcome, block⟩
    cases outcome with
    | error failure => exact trivial
    | ok value => exact ⟨rfl, 0, Nat.zero_le _, hrel.short_at, hrel.long_at, by
        simp only [Reader.rest, Prod.mk.injEq, true_and]; exact hhandlers⟩

/-- A look at the state, of which only the input can differ. -/
theorem owes_get [Nonempty σ] {next : Decoding σ S → Decode σ S α} {next' : Decoding τ S → Decode τ S α}
    (h : ∀ state other, state.block = other.block →
      Owes CodecError.IsShort least debt (next state) (next' other)) :
    Owes CodecError.IsShort least debt (get >>= next) (get >>= next') where
  advances {state content left taken} hat := by
    obtain ⟨source⟩ := ‹Nonempty σ›
    exact (h ⟨⟨source, 0, 0, true⟩, state.block, []⟩ state rfl).advances hat
  mirrors {cut short long} hrel :=
    (h short long (Prod.mk.inj hrel.rest_eq).1).mirrors hrel

omit [Source σ] [Supply σ] in
theorem ends_inside {field : Field Ref} {span : Span} {step : Decode σ S α} {state : Decoding σ S}
    {Q : α → Decoding σ S → Prop} {E : CodecError → Decoding σ S → Prop}
    (hnone : Bytes.slice? state.block span = none → E field.outside state)
    (hsome : ∀ stored, Bytes.slice? state.block span = some stored →
      step.Ends { state with block := stored }
        (fun value inner => Q value { inner with
          block := Bytes.overwrite state.block span.start inner.block })
        fun failure inner => E failure { inner with
          block := Bytes.overwrite state.block span.start inner.block }) :
    (inside field span step).Ends state Q E := by
  unfold Step.Ends inside
  rw [Step.result_ofRun]
  cases hs : Bytes.slice? state.block span with
  | none => exact hnone hs
  | some stored =>
    have := hsome stored hs
    unfold Step.Ends at this
    split at this <;> simp_all

theorem tracks_inside (field : Field Ref) (span : Span) {a : Decode σ S α} {b : Decode τ S α}
    (h : Tracks CodecError.IsShort least a b) :
    Tracks CodecError.IsShort least (inside field span a) (inside field span b) where
  advances hat := ends_inside (fun _ => trivial) fun _ _ => h.advances hat
  mirrors {cut short long} hrel := by
    have hblock : short.block = long.block := (Prod.mk.inj hrel.rest_eq).1
    have hinner : ∀ stored, Related cut { short with block := stored } { long with block := stored } :=
      fun stored => ⟨hrel.short_at, hrel.long_at,
        Prod.ext rfl (Prod.mk.inj hrel.rest_eq).2⟩
    refine ends_inside (fun hnone => ?_) fun stored hsome => ?_
    · refine ends_inside (fun _ => trivial) fun stored hsome => ?_
      simp [hblock, hsome] at hnone
    · refine (h.mirrors (hinner stored)).mono (fun value after hb => ?_) fun failure _ hb => ?_
      · refine ends_inside (fun hnone => by simp [← hblock, hsome] at hnone) fun other hother => ?_
        obtain rfl : other = stored := by simpa [← hblock, hsome] using hother.symm
        refine hb.mono ?_ fun _ _ h => h
        rintro _ last ⟨rfl, count, hle, hnext⟩
        refine ⟨rfl, count, hle, hnext.short_at, hnext.long_at, ?_⟩
        obtain ⟨hinside, hhandlers⟩ := Prod.mk.inj hnext.rest_eq
        exact Prod.ext (by simp only [Reader.rest, hblock, hinside]) hhandlers
      · refine ends_inside (fun _ => trivial) fun other hother => ?_
        obtain rfl : other = stored := by simpa [← hblock, hsome] using hother.symm
        exact hb

/-- Reading bytes over those of the block. -/
theorem demands_fill (start count : Nat) :
    Demands CodecError.IsShort count (fun _ => ())
      (fun bytes rest => (Bytes.overwrite rest.1 start bytes, rest.2))
      (fill start count : Decode σ S Unit) := by
  intro state content left taken hat
  change state.input.At content left taken at hat
  by_cases hle : count ≤ min left content.length
  · obtain ⟨after, hr, hafter⟩ := hat.deliver hle
    exact .of_ok (by rw [fill, Step.result_ofRun, hr]) ⟨hle, rfl, hafter, rfl⟩
  · obtain ⟨bytes, failure, after, hr⟩ := hat.deliver_short (Nat.lt_of_not_le hle)
    exact .of_error (by rw [fill, Step.result_ofRun, hr])
      ⟨Nat.lt_of_not_le hle, by simp [CodecError.IsShort, CodecError.stream, CodecError.errorClass]⟩

theorem tracks_fill (start count : Nat) :
    Tracks CodecError.IsShort count (fill start count : Decode σ S Unit)
      (fill start count : Decode τ S Unit) :=
  tracks_of_demands (demands_fill start count) (demands_fill start count)

-- ---------------------------------------------------------------------------
-- Inputs of a known length
-- ---------------------------------------------------------------------------

/-- Over an input of `length` bytes the step takes them all, and the long run mirrors the short one. -/
structure Exhausts (length : Nat) (a : Decode σ S α) (b : Decode τ S α) : Prop where
  takes : ∀ {state : Decoding τ S} {content : Bytes} {taken : Nat},
    state.input.At content length taken → b.Ends state (fun _ after => length ≤ content.length ∧
      after.input.At (content.drop length) 0 (taken + length)) fun _ _ => True
  mirrors : ∀ {cut : Cut} {short : Decoding σ S} {long : Decoding τ S}, cut.left = length →
    cut.extra = 0 → Related cut short long →
      Mirrors CodecError.IsShort (fun _ => 0) cut a b short long

omit [Source σ] [Supply σ] in
theorem ends_within {length : Nat} {step : Decode σ S α} {state : Decoding σ S}
    {Q : α → Decoding σ S → Prop} {E : CodecError → Decoding σ S → Prop}
    (hshort : state.input.left < length → ∀ failure, E (.stream failure) state)
    (hfits : length ≤ state.input.left →
      step.Ends { state with input := .ofSource state.input.source length }
        (fun value inner => Q value { inner with input := state.input.rejoin inner.input })
        fun failure inner => E failure { inner with input := state.input.rejoin inner.input }) :
    (within length step).Ends state Q E := by
  unfold Step.Ends within
  rw [Step.result_ofRun, Input.narrow]
  by_cases hlt : state.input.left < length
  · rw [if_pos hlt]
    exact hshort hlt _
  · rw [if_neg hlt]
    have := hfits (Nat.le_of_not_lt hlt)
    unfold Step.Ends at this
    split at this <;> simp_all

theorem isShort_stream (failure : StreamError) : (CodecError.stream failure).IsShort := by
  simp [CodecError.IsShort, CodecError.stream, CodecError.errorClass]

variable {length : Nat} {a : Decode σ S α} {b : Decode τ S α}

theorem Exhausts.takes_within (h : Exhausts length a b) {state : Decoding τ S} {content : Bytes}
    {left taken : Nat} (hat : state.input.At content left taken) :
    (Decode.within length b).Ends state (fun _ after => length ≤ min left content.length ∧
      after.input.At (content.drop length) (left - length) (taken + length)) fun _ _ => True := by
  refine ends_within (fun _ _ => trivial) fun hle => ?_
  refine (h.takes (hat.narrow length)).mono ?_ fun _ _ h => h
  rintro _ inner ⟨hlen, hinner⟩
  rw [Nat.zero_add] at hinner
  exact ⟨Nat.le_min.mpr ⟨hat.left_eq ▸ hle, hlen⟩, hat.rejoin hinner⟩

theorem Exhausts.within (h : Exhausts length a b) :
    Tracks CodecError.IsShort length (within length a) (within length b) where
  advances hat := (h.takes_within hat).mono
    (fun _ _ ⟨hle, hafter⟩ => ⟨length, Nat.le_refl _, hle, hafter⟩) fun _ _ h => h
  mirrors {cut short long} hrel := by
    have hshort : short.input.At cut.content cut.left cut.taken := hrel.short_at
    have hlong : long.input.At (cut.content ++ cut.more) (cut.left + cut.extra)
      (cut.taken + cut.ahead) := hrel.long_at
    refine ends_within (fun hlt failure => ?_) fun hle => ?_
    · rw [hshort.left_eq] at hlt
      refine (h.takes_within hlong).mono ?_ fun _ _ _ => trivial
      rintro _ last ⟨-, hlast⟩
      have htaken : (Reader.input last).taken = cut.taken + cut.ahead + length := hlast.taken_eq
      exact ⟨isShort_stream _, by simp only [Cut.reach]; omega⟩
    · rw [hshort.left_eq] at hle
      let inner : Cut := ⟨cut.content, cut.more, length, 0, 0, 0⟩
      have hinner : Related inner { short with input := .ofSource short.input.source length }
          { long with input := .ofSource long.input.source length } :=
        ⟨hshort.narrow length, hlong.narrow length, hrel.rest_eq⟩
      have hfits : ¬long.input.left < length := by rw [hlong.left_eq]; omega
      refine (h.mirrors rfl rfl hinner).mono (fun value after hb => ?_) fun failure after hb => ?_
      · refine ends_within (fun hlt => absurd hlt hfits) fun _ => hb.mono ?_ fun _ _ h => h
        rintro _ last ⟨rfl, count, hcount, hnext⟩
        have hreach : inner.reach ≤ cut.reach := by simp only [inner, Cut.reach]; omega
        refine ⟨rfl, count, by omega, ?_, ?_, hnext.rest_eq⟩
        · simpa [inner, Cut.drop] using hshort.rejoin hnext.short_at
        · have hbudget : cut.left + cut.extra - count = cut.left - count + cut.extra := by
            simp only [inner, Cut.reach] at hcount
            omega
          simpa [inner, Cut.drop, hbudget, Nat.add_right_comm] using hlong.rejoin hnext.long_at
      · refine ends_within (fun _ _ => trivial) fun _ => ?_
        refine (hb.and (h.takes (hlong.narrow length))).mono ?_ fun _ _ _ => trivial
        rintro _ last ⟨⟨hfailure, hlt⟩, -, hlast⟩
        have htaken := (hlong.rejoin hlast).taken_eq
        simp only [Reader.input_decoding, hlast.taken_eq, inner, Cut.reach] at hlt htaken ⊢
        exact ⟨hfailure, by omega⟩

/-- The step ends with its input. Where the long run can take no more than the short one it ends in
the same state; otherwise the short run may fail because it ended too early. -/
structure Drains (a : Decode σ S Unit) (b : Decode τ S Unit) : Prop where
  takes : ∀ {state : Decoding τ S} {content : Bytes} {left taken : Nat},
    state.input.At content left taken → b.Ends state
      (fun _ after => after.input.At (content.drop (min left content.length))
        (left - min left content.length) (taken + min left content.length)) fun _ _ => True
  mirrors : ∀ {cut : Cut} {short : Decoding σ S} {long : Decoding τ S}, Related cut short long →
    a.Ends short
      (fun _ after => ∃ last, Related (cut.drop cut.reach) after last ∧
        (cut.reach = cut.far → b.result long = (.ok (), last)))
      fun failure _ => b.Ends long (fun _ _ => failure.IsShort ∧ cut.reach < cut.far) fun _ _ => True

omit [Source σ] [Supply σ] in
theorem ends_whole {message : Decode σ S Unit} {state : Decoding σ S} {Q : Unit → Decoding σ S → Prop}
    {E : CodecError → Decoding σ S → Prop}
    (h : message.Ends state (fun _ after => (after.input.left = 0 → Q () after) ∧
      (0 < after.input.left → ∀ failure, E (.stream failure) after)) E) :
    (whole length message).Ends state Q E := by
  refine h.bind ?_
  rintro _ after ⟨hend, hrest⟩
  refine Step.Ends.bind (P := fun found last => found = after ∧ last = after)
    (Step.ends_get ⟨rfl, rfl⟩) ?_
  rintro _ _ ⟨rfl, rfl⟩
  refine Step.ends_ite (fun hleft => Step.ends_throw (hrest ?_ _)) fun hleft => Step.ends_pure (hend ?_)
  · simpa [Input.isExhausted, Nat.pos_iff_ne_zero] using hleft
  · simpa [Input.isExhausted] using hleft

/-- A message that must take the whole of its payload. -/
theorem Drains.whole {a : Decode σ S Unit} {b : Decode τ S Unit} (h : Drains a b) (length : Nat) :
    Exhausts length (whole length a) (whole length b) where
  takes {state content taken} hat := by
    refine ends_whole ((h.takes hat).mono (fun _ after hafter => ⟨fun hzero => ?_, fun _ _ => trivial⟩)
      fun _ _ h => h)
    have hleft := hafter.left_eq
    have hlen : min length content.length = length := by omega
    rw [hlen, Nat.sub_self] at hafter
    exact ⟨by omega, hafter⟩
  mirrors {cut short long} hleft hextra hrel := by
    have htakes := h.takes hrel.long_at
    have hfar : cut.far = min (cut.left + cut.extra) (cut.content ++ cut.more).length := rfl
    rw [← hfar] at htakes
    refine ends_whole ((h.mirrors hrel).mono ?_ ?_)
    · rintro _ after ⟨last, hnext, hsame⟩
      have hshort : after.input.left = cut.left - cut.reach := hnext.short_at.left_eq
      have hlong : last.input.left = cut.left - cut.reach + cut.extra := hnext.long_at.left_eq
      refine ⟨fun hzero => ?_, fun hpos failure => ?_⟩
      · have hreach : cut.reach = cut.far :=
          Nat.le_antisymm cut.reach_le_far (by omega)
        refine ends_whole (.of_ok (hsame hreach) ⟨fun _ => ?_, fun hpos => ?_⟩)
        · exact ⟨rfl, cut.reach, Nat.le_refl _, hnext⟩
        · omega
      · refine ends_whole (htakes.mono (fun _ last hlast => ⟨fun hzero => ?_, fun _ _ => trivial⟩)
          fun _ _ h => h)
        have hrest := hlast.left_eq
        have htaken : (Reader.input last).taken = cut.taken + cut.ahead + cut.far := hlast.taken_eq
        exact ⟨isShort_stream _, by omega⟩
    · rintro failure _ hb
      refine ends_whole ((hb.and htakes).mono ?_ fun _ _ _ => trivial)
      rintro _ last ⟨⟨hfailure, hlt⟩, hlast⟩
      have htaken : (Reader.input last).taken = cut.taken + cut.ahead + cut.far := hlast.taken_eq
      exact ⟨fun _ => ⟨hfailure, by omega⟩, fun _ _ => trivial⟩

-- ---------------------------------------------------------------------------
-- Values
-- ---------------------------------------------------------------------------

variable {schema : Schema Ref} {config : DecodeConfig} {nested : Ref → Decode σ S Unit}
  {nested' : Ref → Decode τ S Unit} {table : Table Ref} {field : Field Ref} {type : WireType}

theorem tracks_skipValue (number : Nat) (type : WireType) :
    Tracks CodecError.IsShort 0 (skipValue number type : Decode σ S Unit)
      (skipValue number type : Decode τ S Unit) := by
  refine owes_onInput ((Wire.tracks_skipField type).mapFailure fun failure hshort => ?_)
  cases failure <;> exact hshort

theorem tracks_text [Nonempty σ] (config : DecodeConfig) (field : Field Ref) :
    Tracks CodecError.IsShort 0 (text config field : Decode σ S Unit)
      (text config field : Decode τ S Unit) := by
  unfold text
  refine (owes_onWire Wire.owes_readLength).pay fun length => ?_
  refine owes_get fun state other hblock => ?_
  simp only [hblock]
  refine owes_unless fun _ => (tracks_fill 0 length).first fun _ => ?_
  refine Owes.then (tracks_onBlock _) fun _ => owes_get fun state other hblock => ?_
  simp only [hblock]
  exact owes_ite (fun _ => owes_throw _ _) fun _ => tracks_pure ()

theorem tracks_payload [Nonempty σ] (field : Field Ref) :
    Tracks CodecError.IsShort 0 (payload field : Decode σ S Unit)
      (payload field : Decode τ S Unit) := by
  unfold payload
  refine (owes_onWire Wire.owes_readLength).pay fun length => ?_
  refine owes_get fun state other hblock => ?_
  simp only [hblock]
  refine owes_unless fun _ => owes_unless fun _ => ?_
  exact (tracks_fill 4 length).first fun _ => tracks_onBlock _

theorem tracks_number (field : Field Ref) :
    Tracks CodecError.IsShort 1 (number field : Decode σ S Scalar)
      (number field : Decode τ S Scalar) := by
  refine owes_onInput ?_
  have hread : ∀ {β : Type} {least : Nat} {a : Wire.Read σ β} {b : Wire.Read τ β} (f : β → Scalar),
      1 ≤ least → Tracks WireError.IsShort least a b → Tracks CodecError.IsShort 1
        (do let value ← a.mapFailure CodecError.wire; pure (f value))
        (do let value ← b.mapFailure CodecError.wire; pure (f value)) := by
    intro β least a b f hle h
    have hwire : Tracks CodecError.IsShort least (a.mapFailure .wire) (b.mapFailure .wire) :=
      h.mapFailure fun _ hshort => hshort
    exact (hwire.weaken hle).first fun _ => tracks_pure _
  obtain ⟨-, f, hf⟩ | ⟨-, f, hf⟩ | ⟨-, f, hf⟩ | ⟨-, f, hf⟩ | ⟨-, hf⟩ := readScalar_forms field <;>
    rw [hf σ, hf τ]
  · exact hread f (by decide) Wire.tracks_readVarint
  · exact hread f (by decide) Wire.tracks_readZigZag
  · exact hread f (by decide) Wire.tracks_readFixed32
  · exact hread f (by decide) Wire.tracks_readFixed64
  · exact owes_throw _ _

/-- What the decoders of the messages of a field do on payloads of every length. -/
def NestsAlike (nested : Ref → Decode σ S Unit) (nested' : Ref → Decode τ S Unit) (field : Field Ref) :
    Prop :=
  ∀ inner, field.kind = .message inner → Drains (nested inner) (nested' inner)

theorem tracks_value [Nonempty σ] (hn : NestsAlike nested nested' field) :
    Tracks CodecError.IsShort 0 (value config nested field) (value config nested' field) := by
  unfold value
  split
  · exact tracks_text config field
  · exact tracks_payload field
  · next inner hk =>
    exact (owes_onWire Wire.owes_readLength).pay fun length => ((hn inner hk).whole length).within
  · exact (tracks_number field).then fun _ => tracks_onBlock _

theorem tracks_nextElement (field : Field Ref) :
    Tracks CodecError.IsShort 0 (nextElement field : Decode σ S Nat)
      (nextElement field : Decode τ S Nat) :=
  Owes.then (tracks_onBlock _) fun count => owes_unless fun _ => tracks_pure count

/-- One number of a packed value, appended to its array. -/
def packedElement (field : Field Ref) : Decode σ S Unit := do
  let count ← nextElement field
  let scalar ← number field
  onBlock (Edit.change field (field.element count) fun block =>
    field.kind.storeScalar block scalar)
  onBlock (Edit.setSlot field (count + 1))

theorem tracks_packedElement (field : Field Ref) :
    Tracks CodecError.IsShort 1 (packedElement field : Decode σ S Unit)
      (packedElement field : Decode τ S Unit) :=
  (tracks_nextElement field).then fun _ => (tracks_number field).first fun _ =>
    Owes.then (tracks_onBlock _) fun _ => tracks_onBlock _

omit [Supply σ] in
theorem packedElements_end {room : Nat} {state : Decoding σ S} (h : state.input.left = 0) :
    (packedElements field room).result state = (.ok (), state) := by
  cases room with
  | zero => rfl
  | succ room =>
    rw [packedElements, Step.result_bind_ok (Step.result_get state),
      if_pos (by simp [Input.isExhausted, h])]
    rfl

omit [Supply σ] in
theorem packedElements_next {room : Nat} {state : Decoding σ S} (h : state.input.left ≠ 0) :
    (packedElements field (room + 1)).result state =
      (packedElement field >>= fun _ => packedElements field room).result state := by
  rw [packedElements, Step.result_bind_ok (Step.result_get state),
    if_neg (by simpa [Input.isExhausted] using h)]
  simp only [packedElement, bind_assoc]

theorem takes_packedElements {room : Nat} {state : Decoding τ S} {content : Bytes} {left taken : Nat}
    (hat : state.input.At content left taken) (hroom : left ≤ room) :
    (packedElements field room).Ends state (fun _ after => left ≤ content.length ∧
      after.input.At (content.drop left) 0 (taken + left)) fun _ _ => True := by
  induction room generalizing state content left taken with
  | zero =>
    obtain rfl : left = 0 := by omega
    exact .of_ok rfl ⟨Nat.zero_le _, hat⟩
  | succ room ih =>
    by_cases hzero : left = 0
    · subst hzero
      exact .of_ok (packedElements_end hat.left_eq) ⟨Nat.zero_le _, hat⟩
    · have hone : Tracks CodecError.IsShort 1 (packedElement field : Decode τ S Unit)
        (packedElement field : Decode τ S Unit) := tracks_packedElement field
      have hleft : state.input.left ≠ 0 := by rwa [hat.left_eq]
      refine Step.Ends.congr ?_ (packedElements_next hleft)
      refine (hone.advances hat).bind ?_
      rintro _ middle ⟨count, hpos, hle, hmiddle⟩
      refine (ih hmiddle (by omega)).mono ?_ fun _ _ h => h
      rintro _ after ⟨hrest, hafter⟩
      rw [List.length_drop] at hrest
      refine ⟨by omega, ?_⟩
      rwa [List.drop_drop, Nat.add_assoc, Nat.add_sub_cancel' (by omega)] at hafter

theorem exhausts_packedElements (field : Field Ref) (length : Nat) :
    Exhausts length (packedElements field length : Decode σ S Unit)
      (packedElements field length : Decode τ S Unit) where
  takes hat := takes_packedElements hat (Nat.le_refl _)
  mirrors := by
    suffices hroom : ∀ (room : Nat) (cut : Cut) (short : Decoding σ S) (long : Decoding τ S),
        cut.left ≤ room → cut.extra = 0 → Related cut short long →
          Mirrors CodecError.IsShort (fun _ => 0) cut (packedElements field room)
            (packedElements field room) short long from
      fun {_ _ _} hleft => hroom length _ _ _ (Nat.le_of_eq hleft)
    intro room
    induction room with
    | zero =>
      intro cut short long _ _ hrel
      exact .of_ok rfl (.of_ok rfl ⟨rfl, 0, Nat.zero_le _, hrel⟩)
    | succ room ih =>
      intro cut short long hleft hextra hrel
      have hshort : short.input.left = cut.left := hrel.short_at.left_eq
      have hlong : long.input.left = cut.left + cut.extra := hrel.long_at.left_eq
      rw [hextra, Nat.add_zero] at hlong
      by_cases hzero : cut.left = 0
      · refine .of_ok (packedElements_end (by rwa [hshort])) ?_
        exact .of_ok (packedElements_end (by rwa [hlong])) ⟨rfl, 0, Nat.zero_le _, hrel⟩
      · have hboth : Mirrors CodecError.IsShort (fun _ => 0) cut
            (packedElement field >>= fun _ => packedElements field room)
            (packedElement field >>= fun _ => packedElements field room) short long := by
          refine (tracks_packedElement field).mirrors_bind hrel ?_ ?_
          · intro _ count after last hpos _ hnext
            exact ih _ _ _ (by simp only [Cut.drop]; omega) hextra hnext
          · intro _ count last hpos hat
            refine (takes_packedElements hat (by omega)).mono ?_ fun _ _ h => h
            rintro _ after ⟨-, hafter⟩
            rw [Reader.input_decoding, hafter.taken_eq]
            omega
        refine (hboth.congr (packedElements_next (by rwa [hshort]))).mono (fun _ _ h => ?_)
          fun _ _ h => ?_ <;>
          exact h.congr (packedElements_next (by rwa [hlong]))

theorem tracks_element [Nonempty σ] (hn : NestsAlike nested nested' field) :
    Tracks CodecError.IsShort 0 (element schema config nested field)
      (element schema config nested' field) := by
  have hvalue : Tracks CodecError.IsShort 0 (value config nested field) (value config nested' field) :=
    tracks_value hn
  unfold element
  generalize value config nested field = step, value config nested' field = step' at hvalue
  refine Owes.then (tracks_nextElement field) fun count => ?_
  refine Owes.then (tracks_inside field _ (show Tracks CodecError.IsShort 0 _ _ from ?_)) fun _ =>
    tracks_onBlock _
  split
  · exact Owes.then (tracks_onBlock _) fun _ => hvalue
  · exact hvalue

theorem tracks_stored [Nonempty σ] (hn : NestsAlike nested nested' field) :
    Tracks CodecError.IsShort 0 (stored schema config nested table field type)
      (stored schema config nested' table field type) := by
  unfold stored
  split
  · refine owes_ite (fun _ => ?_) fun _ => tracks_element hn
    exact (owes_onWire Wire.owes_readLength).pay fun length =>
      (exhausts_packedElements field length).within
  · refine Owes.then (tracks_onBlock _) fun active => ?_
    refine owes_ite (fun _ => ?_) fun _ => tracks_inside field _ (tracks_value hn)
    exact Owes.then (tracks_onBlock _) fun _ => tracks_inside field _ (tracks_value hn)
  · refine Owes.then (tracks_inside field _ (tracks_value hn)) fun _ => ?_
    exact owes_ite (fun _ => tracks_onBlock _) fun _ => tracks_pure ()
  · exact tracks_inside field _ (tracks_value hn)

end Decode

end BlockCodec
