import BlockCodec.Proofs.Skipping
import BlockCodec.Proofs.Twins

/-!
# Two decoders over the same payload

Two decoders that agree on their blocks read the payload of a record. What stands behind it makes no
difference to them, if the record is whole: they answer alike, or they fail alike and have left the same
in their blocks by then (`Decode.beside_record`). Messages inside a record end with it, so they are
read as `Twins`.
-/

namespace BlockCodec

section

variable {s t u v σ τ ρ ρ' ε α : Type} [Source σ] [Supply σ] [Source τ] [Supply τ]
  [Reader s σ ρ] [Reader t τ ρ] [Reader u Bytes ρ] {pair : Pair} {x : s} {y : t}
  {need : Bytes → Prop} {counts : α → Nat → Prop} {shorts : ε → Prop} {least : Nat} {debt : α → Nat}
  {a : Step s ε α} {b : Step t ε α} {exact : Step u ε α} {alone after : u} {value : α}

/-- Where the bytes alone are enough, both runs do what is done with these. -/
theorem Meet.of_alone (ha : Owes shorts least debt exact a) (hb : Owes shorts least debt exact b)
    (h : Abreast pair x y) (ht : ¬pair.tight)
    (halone : (Reader.input alone).At pair.bytes pair.bytes.length 0)
    (hrest : Reader.rest alone = Reader.rest x) (hr : exact.result alone = (.ok value, after)) :
    Meet pair (fun other count => other = value ∧ count + (Reader.input after).left = pair.bytes.length)
      a b x y := by
  let one : Cut := ⟨pair.bytes, pair.more, pair.bytes.length, pair.extra, 0, pair.taken⟩
  let other : Cut := ⟨pair.bytes, pair.more', pair.bytes.length, pair.extra', 0, pair.taken'⟩
  have hone : Related one alone x := ⟨halone, by simpa [one] using h.one_at, hrest⟩
  have hother : Related other alone y := ⟨halone, by simpa [other] using h.other_at, hrest.trans h.rest_eq⟩
  obtain ⟨x', count, hx, -, hle, hx'⟩ := (ha.follow hone).ok hr
  obtain ⟨y', count', hy, -, hle', hy'⟩ := (hb.follow hother).ok hr
  have hleft : (Reader.input after).left = pair.bytes.length - count := hx'.short_at.left_eq
  have hleft' : (Reader.input after).left = pair.bytes.length - count' := hy'.short_at.left_eq
  simp only [one, other, Cut.reach, Nat.min_self] at hle hle'
  obtain rfl : count' = count := by omega
  refine .inl ⟨value, x', y', count', hx, hy, ⟨rfl, by omega⟩, hle, ⟨?_, ?_, ?_, fun h => absurd h ht⟩⟩
  · simpa [one, Cut.drop, Pair.drop, Nat.add_comm] using hx'.long_at
  · simpa [other, Cut.drop, Pair.drop, Nat.add_comm] using hy'.long_at
  · exact hx'.rest_eq.symm.trans hy'.rest_eq

/-- Runs that meet on a part of their states meet. -/
theorem Meet.part {s' t' : Type} [Reader s' σ ρ'] [Reader t' τ ρ'] {a' : Step s' ε α} {b' : Step t' ε α}
    {x' : s'} {y' : t'} (put : s' → s) (put' : t' → t) (h : Meet pair counts a' b' x' y')
    (hx : a.result x = ((a'.result x').1, put (a'.result x').2))
    (hy : b.result y = ((b'.result y').1, put' (b'.result y').2))
    (hrest : ∀ z w, Reader.rest z = Reader.rest w → Reader.rest (put z) = Reader.rest (put' w))
    (hinput : ∀ z, Reader.input (put z) = Reader.input z)
    (hinput' : ∀ w, Reader.input (put' w) = Reader.input w) : Meet pair counts a b x y := by
  rcases h with ⟨value, z, w, count, ha, hb, hcount, hle, habreast⟩ | ⟨failure, z, w, ha, hb, halike⟩
  · rw [ha] at hx
    rw [hb] at hy
    refine .inl ⟨value, put z, put' w, count, hx, hy, hcount, hle, ?_, ?_, hrest _ _ habreast.rest_eq, ?_⟩
    · rw [hinput]
      exact habreast.one_at
    · rw [hinput']
      exact habreast.other_at
    · rw [hinput, hinput']
      exact habreast.closed
  · rw [ha] at hx
    rw [hb] at hy
    exact .inr ⟨failure, put z, put' w, hx, hy, hrest _ _ halike⟩

/-- A look at the state, of which only the input can differ. -/
theorem beside_get {next : s → Step s ε α} {next' : t → Step t ε α}
    (h : ∀ x y, Reader.rest x = Reader.rest y → Beside need (next x) (next' y)) :
    Beside need (get >>= next) (get >>= next') :=
  fun _ x y habreast hmode => h x y habreast.rest_eq habreast hmode

theorem still_get {next : s → Step s ε α} {next' : t → Step t ε α}
    (h : ∀ x y, Reader.rest x = Reader.rest y → Still (next x) (next' y)) :
    Still (get >>= next) (get >>= next') :=
  fun _ x y habreast => h x y habreast.rest_eq habreast

end

-- ---------------------------------------------------------------------------
-- Payloads
-- ---------------------------------------------------------------------------

namespace Wire

/-- The bytes are what skipping a payload takes. -/
def Whole (type : WireType) (bytes : Bytes) : Prop :=
  ∃ rest, (skipField type).result (.ofBytes bytes) = (.ok (), rest) ∧ rest.left = 0

variable {σ τ : Type} [Source σ] [Supply σ] [Source τ] [Supply τ] {pair : Pair} {x : Input σ} {y : Input τ}
  {bytes : Bytes} {type : WireType}

theorem length_of_skip {width : Nat} {rest : Input Bytes}
    (h : (onStream (Input.skip width)).result (.ofBytes bytes) = (.ok (), rest)) (hleft : rest.left = 0) :
    bytes.length = width := by
  obtain ⟨hle, -, hafter, -⟩ :=
    (Input.demands_skip width _ _ _ _ (Input.at_ofBytes bytes)).ok (Step.result_mapFailure_eq_ok h)
  have hrest : rest.left = bytes.length - width := hafter.left_eq
  omega

theorem Whole.length_fixed32 : Whole .fixed32 bytes → bytes.length = 4 := fun ⟨_, hr, hleft⟩ =>
  length_of_skip hr hleft

theorem Whole.length_fixed64 : Whole .fixed64 bytes → bytes.length = 8 := fun ⟨_, hr, hleft⟩ =>
  length_of_skip hr hleft

theorem beside_skipField (type : WireType) :
    Beside (Whole type) (skipField type : Read σ Unit) (skipField type : Read τ Unit) := by
  refine .of_twins (twins_skipField type) fun pair x y h ht ⟨rest, hr, hleft⟩ => ?_
  refine (Meet.of_alone (tracks_skipField type) (tracks_skipField type) h ht (Input.at_ofBytes _) rfl hr).mono ?_
  rintro _ count ⟨-, hcount⟩
  rwa [Reader.input_self, hleft] at hcount

/-- The payload of a record is whole, read from an input of its own. -/
theorem whole_of_skip {tag : Nat × WireType} {payload rest : Input Bytes}
    (htag : nextTag.result (.ofBytes bytes) = (.ok tag, payload))
    (hskip : (skipField type).result payload = (.ok (), rest)) (hleft : rest.left = 0) :
    ∃ header ≤ bytes.length, payload.left = bytes.length - header ∧ Whole type (bytes.drop header) := by
  have hself : Tracks WireError.IsShort 1 (nextTag : Read Bytes _) (nextTag : Read Bytes _) := tracks_nextTag
  have hfield : Tracks WireError.IsShort 0 (skipField type : Read Bytes Unit) (skipField type : Read Bytes Unit) :=
    tracks_skipField type
  obtain ⟨header, -, hle, hpayload⟩ := (hself.advances (Input.at_ofBytes bytes)).ok htag
  obtain ⟨passed, -, hfits, hrest⟩ := (hfield.advances hpayload).ok hskip
  have hmore : payload.left = bytes.length - header := hpayload.left_eq
  have hend : rest.left = bytes.length - header - passed := hrest.left_eq
  rw [List.length_drop, Nat.min_self] at hfits
  obtain rfl : passed = bytes.length - header := by omega
  have hall : (bytes.drop header).take (bytes.length - header) = bytes.drop header :=
    List.take_of_length_le (Nat.le_of_eq List.length_drop)
  have hfresh : (Reader.input (Input.ofBytes (bytes.drop header))).At
      ((bytes.drop header).take (bytes.length - header)) (bytes.length - header) 0 := by
    rw [hall, ← List.length_drop]
    exact Input.at_ofBytes _
  obtain ⟨after, hafter, hdone, -⟩ :=
    hfield.alone hpayload (by simp) hfresh rfl hskip hrest.taken_eq
  exact ⟨header, by omega, hmore, after, hafter, hdone⟩

/-- Behind the header of a record is a whole payload. -/
theorem meet_nextTag (h : Abreast pair x y) (hmode : pair.tight ∨ Record pair.bytes) :
    Meet pair (fun tag count => pair.tight ∨ Whole tag.2 (pair.bytes.drop count)) nextTag nextTag x y := by
  by_cases ht : pair.tight
  · exact (twins_nextTag h (.inl ht)).mono fun _ _ _ => .inl ht
  · obtain ⟨tag, rest, hr, hleft⟩ := record_iff.mp (hmode.resolve_left ht)
    obtain ⟨tag', payload, htag, hr⟩ := Step.result_bind_eq_ok.mp hr
    obtain ⟨⟨⟩, last, hskip, hpure⟩ := Step.result_bind_eq_ok.mp hr
    obtain ⟨rfl, rfl⟩ : tag' = tag ∧ last = rest := by simpa using hpure
    obtain ⟨header, hle, hpayload, hwhole⟩ := whole_of_skip htag hskip hleft
    refine (Meet.of_alone tracks_nextTag tracks_nextTag h ht (Input.at_ofBytes _) rfl htag).mono ?_
    rintro _ count ⟨rfl, hcount⟩
    rw [Reader.input_self, hpayload] at hcount
    obtain rfl : count = header := by omega
    exact .inr hwhole

/-- A number with too many bits fails for both. -/
theorem beside_readVarint :
    Beside (Whole .varint) (readVarint : Read σ UInt64) (readVarint : Read τ UInt64) := by
  refine .of_twins twins_readVarint fun pair x y h ht ⟨rest, hr, hleft⟩ => ?_
  rcases readVarint_of_skipVarint (Input.at_ofBytes _) hr with ⟨value, hv⟩ | ⟨hfull, -⟩
  · refine (Meet.of_alone tracks_readVarint tracks_readVarint h ht (Input.at_ofBytes _) rfl hv).mono ?_
    rintro _ count ⟨-, hcount⟩
    rwa [Reader.input_self, hleft] at hcount
  · rw [List.take_length] at hfull
    have hbehind : ∀ (more : Bytes) (extra : Nat),
        Overfull Varint.maxLength ((pair.bytes ++ more).take (pair.bytes.length + extra)) := by
      intro more extra
      rw [List.take_length_add_append]
      exact (overfull_append hfull.length_le).mpr hfull
    obtain ⟨x', hx⟩ := (skipVarint_of_overfull h.one_at (hbehind _ _)).2
    obtain ⟨y', hy⟩ := (skipVarint_of_overfull h.other_at (hbehind _ _)).2
    exact .inr ⟨_, x', y', hx, hy, rfl⟩

theorem beside_readZigZag :
    Beside (Whole .varint) (readZigZag : Read σ Int64) (readZigZag : Read τ Int64) :=
  beside_readVarint.then fun _ => still_pure _

/-- A length is that of the rest of the payload. -/
theorem meet_readLength (h : Abreast pair x y) (hmode : pair.tight ∨ Whole .delimited pair.bytes) :
    Meet pair (fun length count => pair.tight ∨ count + length = pair.bytes.length) readLength readLength x y := by
  by_cases ht : pair.tight
  · exact (twins_readLength h (.inl ht)).mono fun _ _ _ => .inl ht
  · obtain ⟨rest, hr, hleft⟩ := hmode.resolve_left ht
    obtain ⟨length, middle, hlength, hskip⟩ := Step.result_bind_eq_ok.mp hr
    have howes : Owes WireError.IsShort 0 id (readLength : Read Bytes Nat) (readLength : Read Bytes Nat) :=
      owes_readLength
    obtain ⟨count, -, hle, hmiddle⟩ := (howes.advances (Input.at_ofBytes pair.bytes)).ok hlength
    -- the payload ends with what is skipped
    have hmore : middle.left = length := by
      obtain ⟨hfits, -, hafter, -⟩ :=
        (Input.demands_skip length _ _ _ _ hmiddle).ok (Step.result_mapFailure_eq_ok hskip)
      have hmiddle : middle.left = pair.bytes.length - count := hmiddle.left_eq
      have hrest : rest.left = pair.bytes.length - count - length := hafter.left_eq
      omega
    refine (Meet.of_alone owes_readLength owes_readLength h ht (Input.at_ofBytes _) rfl hlength).mono ?_
    rintro _ count ⟨rfl, hcount⟩
    exact .inr (by rwa [Reader.input_self, hmore] at hcount)

end Wire

-- ---------------------------------------------------------------------------
-- Decoders
-- ---------------------------------------------------------------------------

/-- A handler works on an input and a state of its own. -/
instance {σ S : Type} : Reader (Input σ × S) σ S := ⟨Prod.fst, Prod.snd⟩

/-- What a handler makes of a payload hangs on nothing but its bytes. -/
def Handler.Modest (Ref σ τ S : Type) [Source σ] [Supply σ] [Source τ] [Supply τ] [Handler Ref S] : Prop :=
  ∀ (field : Field Ref) (payload : Payload), Twins (Handler.takePayload field payload : Receive σ S Unit)
    (Handler.takePayload field payload : Receive τ S Unit)

section

variable {σ τ S : Type} [Source σ] [Supply σ] [Source τ] [Supply τ] {pair : Pair} {x : Decoding σ S}
  {y : Decoding τ S}

theorem Abreast.onInput (h : Abreast pair x y) : Abreast pair x.input y.input :=
  ⟨h.one_at, h.other_at, rfl, h.closed⟩

theorem Abreast.narrow (h : Abreast pair x y) {length : Nat} (hle : length ≤ pair.bytes.length) :
    Abreast (pair.narrow length) { x with input := .ofSource x.input.source length }
      { y with input := .ofSource y.input.source length } := by
  have hlen : (pair.bytes.take length).length + 0 = length := List.length_take_of_le hle
  have hsplit : ∀ more : Bytes, pair.bytes.take length ++ (pair.bytes.drop length ++ more) =
      pair.bytes ++ more := by
    intro more
    rw [← List.append_assoc, List.take_append_drop]
  refine ⟨?_, ?_, h.rest_eq, fun _ => ⟨rfl, rfl, rfl, rfl⟩⟩
  · simp only [Pair.narrow, hlen, hsplit]
    exact h.one_at.narrow length
  · simp only [Pair.narrow, hlen, hsplit]
    exact h.other_at.narrow length

/-- What was taken of the next bytes is charged to both. -/
theorem Abreast.rejoin (h : Abreast pair x y) {length : Nat} (hle : length ≤ pair.bytes.length)
    {x' : Decoding σ S} {y' : Decoding τ S} (hnext : Abreast ((pair.narrow length).drop length) x' y') :
    Abreast (pair.drop length) { x' with input := x.input.rejoin x'.input }
      { y' with input := y.input.rejoin y'.input } := by
  have hbytes : (pair.bytes.take length).drop length = [] :=
    List.drop_eq_nil_of_le (List.length_take_le _ _)
  have hbudget : ∀ extra, pair.bytes.length + extra - length = (pair.bytes.drop length).length + extra := by
    intro extra
    rw [List.length_drop]
    omega
  have hone := h.one_at.rejoin hnext.one_at
  have hother := h.other_at.rejoin hnext.other_at
  simp only [Pair.narrow, Pair.drop, hbytes, List.nil_append, Nat.zero_add, hbudget] at hone hother
  refine ⟨hone, hother, hnext.rest_eq, fun ht => ?_⟩
  obtain ⟨hextra, hextra', htaken, hbounded⟩ := h.closed ht
  exact ⟨hextra, hextra', congrArg (· + length) htaken, hbounded⟩

end

namespace Decode

variable {σ τ S α β Ref : Type} [Source σ] [Supply σ] [Source τ] [Supply τ] {need : Bytes → Prop} {pair : Pair}
  {counts : α → Nat → Prop} {x : Decoding σ S} {y : Decoding τ S}

theorem meet_onInput {a : Step (Input σ) CodecError α} {b : Step (Input τ) CodecError α}
    (h : Meet pair counts a b x.input y.input) (hrest : Reader.rest x = Reader.rest y) :
    Meet pair counts (onInput a : Decode σ S α) (onInput b : Decode τ S α) x y :=
  h.part (fun input => { x with input }) (fun input => { y with input }) rfl rfl (fun _ _ _ => hrest)
    (fun _ => rfl) fun _ => rfl

theorem beside_onInput {a : Step (Input σ) CodecError α} {b : Step (Input τ) CodecError α}
    (h : Beside need a b) : Beside need (onInput a : Decode σ S α) (onInput b : Decode τ S α) :=
  fun _ _ _ habreast hmode => meet_onInput (h habreast.onInput hmode) habreast.rest_eq

theorem beside_onWire {a : Wire.Read σ α} {b : Wire.Read τ α} (h : Beside need a b) :
    Beside need (onWire a : Decode σ S α) (onWire b : Decode τ S α) :=
  beside_onInput (h.mapFailure _)

theorem still_onBlock (edit : Edit α) :
    Still (onBlock edit : Decode σ S α) (onBlock edit : Decode τ S α) := by
  intro pair x y h
  obtain ⟨hblock, hhandlers⟩ := Prod.mk.inj h.rest_eq
  unfold Meet onBlock
  rw [Step.result_onPart, Step.result_onPart, show x.block = y.block from hblock]
  rcases edit.result y.block with ⟨outcome, block⟩
  cases outcome with
  | error failure => exact .inr ⟨failure, _, _, rfl, rfl, Prod.ext rfl hhandlers⟩
  | ok value =>
    exact .inl ⟨value, _, _, 0, rfl, rfl, rfl, Nat.zero_le _, h.one_at, h.other_at, Prod.ext rfl hhandlers,
      h.closed⟩

theorem beside_inside (field : Field Ref) (span : Span) {a : Decode σ S α} {b : Decode τ S α}
    (h : Beside need a b) : Beside need (inside field span a) (inside field span b) := by
  intro pair x y habreast hmode
  obtain ⟨hblock, hhandlers⟩ := Prod.mk.inj habreast.rest_eq
  change x.block = y.block at hblock
  cases hs : Bytes.slice? x.block span with
  | none =>
    refine .inr ⟨field.outside, x, y, ?_, ?_, habreast.rest_eq⟩
    · rw [inside, Step.result_ofRun, hs]
    · rw [inside, Step.result_ofRun, ← hblock, hs]
  | some stored =>
    have hmeet := @h pair { x with block := stored } { y with block := stored }
      ⟨habreast.one_at, habreast.other_at, Prod.ext rfl hhandlers, habreast.closed⟩ hmode
    refine hmeet.part (fun inner => { inner with block := Bytes.overwrite x.block span.start inner.block })
      (fun inner => { inner with block := Bytes.overwrite y.block span.start inner.block }) ?_ ?_ ?_
      (fun _ => rfl) fun _ => rfl
    · rw [inside, Step.result_ofRun, hs]
    · rw [inside, Step.result_ofRun, ← hblock, hs]
    · intro z w hrest
      obtain ⟨hinner, hhandlers⟩ := Prod.mk.inj hrest
      refine Prod.ext ?_ hhandlers
      show Bytes.overwrite x.block span.start z.block = Bytes.overwrite y.block span.start w.block
      rw [hblock, show z.block = w.block from hinner]

/-- Reading bytes over those of the block. -/
theorem beside_fill (start count : Nat) :
    Beside (fun bytes => bytes.length = count) (fill start count : Decode σ S Unit)
      (fill start count : Decode τ S Unit) := by
  have hrefuses : ∀ {σ : Type} [Source σ],
      Refuses count (fun bytes rest => (Bytes.overwrite rest.1 start bytes, rest.2))
        (fun left => .stream (.limitExceeded count left)) (fill start count : Decode σ S Unit) := by
    intro σ _ state
    simp only [fill, Step.result_ofRun, Reader.input_decoding]
    refine ⟨?_, fun hlt => ?_⟩
    · rw [← Input.bounded_deliver count state.input]
      rcases state.input.deliver count with ⟨⟨bytes, _ | failure⟩, after⟩ <;> rfl
    · rw [Input.deliver, if_pos hlt]
      exact ⟨_, rfl, rfl⟩
  exact beside_of_demands (demands_fill start count) (demands_fill start count) hrefuses hrefuses

-- ---------------------------------------------------------------------------
-- Payloads of a known length
-- ---------------------------------------------------------------------------

/-- The step is done with an input of `length` bytes when it succeeds. -/
def Finishes (length : Nat) (step : Decode σ S α) : Prop :=
  ∀ ⦃state : Decoding σ S⦄ ⦃content : Bytes⦄ ⦃taken : Nat⦄, state.input.At content length taken →
    step.Ends state (fun _ after => after.input.left = 0) fun _ _ => True

omit [Source σ] [Supply σ] in
theorem result_within {length : Nat} (step : Decode σ S α) (state : Decoding σ S)
    (hle : length ≤ state.input.left) :
    (within length step).result state =
      let inner := step.result { state with input := .ofSource state.input.source length }
      (inner.1, { inner.2 with input := state.input.rejoin inner.2.input }) := by
  rw [within, Step.result_ofRun, Input.narrow, if_neg (Nat.not_lt.mpr hle)]

omit [Source σ] [Supply σ] in
theorem result_within_refused {length : Nat} (step : Decode σ S α) (state : Decoding σ S)
    (hlt : state.input.left < length) :
    (within length step).result state = (.error (.stream (.limitExceeded length state.input.left)), state) := by
  rw [within, Step.result_ofRun, Input.narrow, if_pos hlt]

/-- A payload of its own is all that is read. -/
theorem beside_within {length : Nat} {a : Decode σ S α} {b : Decode τ S α} (h : Twins a b)
    (hends : Finishes length a) :
    Beside (fun bytes => bytes.length = length) (within length a) (within length b) := by
  intro pair x y habreast hmode
  have hleft : x.input.left = pair.bytes.length + pair.extra := habreast.one_at.left_eq
  have hleft' : y.input.left = pair.bytes.length + pair.extra' := habreast.other_at.left_eq
  by_cases hle : length ≤ pair.bytes.length
  · have hx := result_within a x (show length ≤ x.input.left by omega)
    have hy := result_within b y (show length ≤ y.input.left by omega)
    rcases h (habreast.narrow hle) (.inl trivial) with
      ⟨value, x', y', count, ha, hb, -, hcount, hnext⟩ | ⟨failure, x', y', ha, hb, hrest⟩
    · rw [ha] at hx
      rw [hb] at hy
      have hdone : x'.input.left = 0 := (hends (habreast.one_at.narrow length)).ok ha
      have hrest : x'.input.left = ((pair.bytes.take length).drop count).length + 0 := hnext.one_at.left_eq
      simp only [Pair.narrow, List.length_take] at hcount
      simp only [List.length_drop, List.length_take] at hrest
      obtain rfl : count = length := by omega
      exact .inl ⟨value, _, _, count, hx, hy, hmode.imp id Eq.symm, hle, habreast.rejoin hle hnext⟩
    · rw [ha] at hx
      rw [hb] at hy
      exact .inr ⟨failure, _, _, hx, hy, hrest⟩
  · obtain ⟨hextra, hextra', -⟩ := habreast.closed (hmode.resolve_right (by omega))
    have hx := result_within_refused a x (show x.input.left < length by omega)
    have hy := result_within_refused b y (show y.input.left < length by omega)
    rw [show y.input.left = x.input.left by omega] at hy
    exact .inr ⟨_, _, _, hx, hy, habreast.rest_eq⟩

/-- A delimited value. -/
theorem beside_delimited {next : Nat → Decode σ S α} {next' : Nat → Decode τ S α}
    (hn : ∀ length, Beside (fun bytes => bytes.length = length) (next length) (next' length)) :
    Beside (Wire.Whole .delimited) (onWire Wire.readLength >>= next) (onWire Wire.readLength >>= next') := by
  intro pair x y h hmode
  have hlength := meet_onInput ((Wire.meet_readLength h.onInput hmode).mapFailure CodecError.wire) h.rest_eq
  refine hlength.bind fun length x' y' count hcount hle hnext => ?_
  refine (hn length hnext ?_).mono fun _ next => ?_
  · refine hcount.imp id fun hall => ?_
    simp only [Pair.drop, List.length_drop]
    omega
  · refine Or.imp id fun hall => ?_
    simp only [Pair.drop, List.length_drop] at hall
    omega

-- ---------------------------------------------------------------------------
-- Values
-- ---------------------------------------------------------------------------

variable {schema : Schema Ref} {config : DecodeConfig} {nested : Ref → Decode σ S Unit}
  {nested' : Ref → Decode τ S Unit} {table : Table Ref} {field : Field Ref} {type : WireType}

theorem beside_skipValue (number : Nat) (type : WireType) :
    Beside (Wire.Whole type) (skipValue number type : Decode σ S Unit) (skipValue number type : Decode τ S Unit) :=
  beside_onInput ((Wire.beside_skipField type).mapFailure _)

theorem beside_text (config : DecodeConfig) (field : Field Ref) :
    Beside (Wire.Whole .delimited) (text config field : Decode σ S Unit) (text config field : Decode τ S Unit) := by
  refine beside_delimited fun length => beside_get fun x y hrest => ?_
  rw [show x.block = y.block from (Prod.mk.inj hrest).1]
  refine beside_unless fun _ => (beside_fill 0 length).then fun _ => (still_onBlock _).then fun _ => ?_
  refine still_get fun x y hrest => ?_
  rw [show x.block = y.block from (Prod.mk.inj hrest).1]
  exact still_ite (still_throw _) (still_pure ())

theorem beside_payload (field : Field Ref) :
    Beside (Wire.Whole .delimited) (payload field : Decode σ S Unit) (payload field : Decode τ S Unit) := by
  refine beside_delimited fun length => beside_get fun x y hrest => ?_
  rw [show x.block = y.block from (Prod.mk.inj hrest).1]
  refine beside_unless fun _ => beside_unless fun _ => ?_
  exact (beside_fill 4 length).then fun _ => still_onBlock _

theorem twins_whole {a : Decode σ S Unit} {b : Decode τ S Unit} (h : Twins a b) (length : Nat) :
    Twins (whole length a) (whole length b) := by
  refine h.bind fun _ => twins_left fun x y hleft _ => ?_
  rw [Reader.input_decoding, Reader.input_decoding] at hleft
  simp only [Input.isExhausted, hleft]
  exact (still_ite (still_throw _) (still_pure ())).beside.twins

theorem finishes_whole (length : Nat) (message : Decode σ S Unit) :
    Finishes length (whole length message) := by
  intro state content taken hat
  have hany : message.Ends state (fun _ after => True) fun _ _ => True := ends_const trivial
  exact ends_whole (hany.mono (fun _ _ _ => ⟨id, fun _ _ => trivial⟩) fun _ _ h => h)

theorem beside_number (field : Field Ref) :
    Beside (Wire.Whole field.kind.wireType) (number field : Decode σ S Scalar)
      (number field : Decode τ S Scalar) := by
  have hread : ∀ {β : Type} {type : WireType} {a : Wire.Read σ β} {b : Wire.Read τ β} (f : β → Scalar),
      Beside (Wire.Whole type) a b → Beside (Wire.Whole type)
        (onInput (do let value ← a.mapFailure .wire; pure (f value)) : Decode σ S Scalar)
        (onInput (do let value ← b.mapFailure .wire; pure (f value)) : Decode τ S Scalar) :=
    fun f h => beside_onInput ((h.mapFailure _).then fun _ => still_pure _)
  obtain ⟨hw, f, hf⟩ | ⟨hw, f, hf⟩ | ⟨hw, f, hf⟩ | ⟨hw, f, hf⟩ | ⟨-, hf⟩ := readScalar_forms field <;>
    rw [number, number, hf σ, hf τ]
  · exact hw ▸ hread f Wire.beside_readVarint
  · exact hw ▸ hread f Wire.beside_readZigZag
  · exact hw ▸ hread f (Wire.beside_readFixed32.weaken fun _ h => Wire.Whole.length_fixed32 h)
  · exact hw ▸ hread f (Wire.beside_readFixed64.weaken fun _ h => Wire.Whole.length_fixed64 h)
  · exact beside_onInput (fails_alike _)

/-- The messages of a field are read alike when they are read to their ends. -/
def NestsTwins (nested : Ref → Decode σ S Unit) (nested' : Ref → Decode τ S Unit) (field : Field Ref) : Prop :=
  ∀ inner, field.kind = .message inner → Twins (nested inner) (nested' inner)

theorem beside_value (hn : NestsTwins nested nested' field) :
    Beside (Wire.Whole field.kind.wireType) (value config nested field) (value config nested' field) := by
  unfold value
  split
  · next hk => rw [hk]; exact beside_text config field
  · next hk => rw [hk]; exact beside_payload field
  · next inner hk =>
    rw [hk]
    exact beside_delimited fun length =>
      beside_within (twins_whole (hn inner hk) length) (finishes_whole length _)
  · exact (beside_number field).then fun _ => still_onBlock _

theorem still_nextElement (field : Field Ref) :
    Still (nextElement field : Decode σ S Nat) (nextElement field : Decode τ S Nat) :=
  (still_onBlock _).then fun _ => still_ite (still_throw _) (still_pure _)

theorem twins_packedElements (field : Field Ref) (room : Nat) :
    Twins (packedElements field room : Decode σ S Unit) (packedElements field room : Decode τ S Unit) := by
  induction room with
  | zero => exact (still_pure ()).beside.twins
  | succ room ih =>
    refine twins_left fun x y hleft _ => ?_
    rw [Reader.input_decoding, Reader.input_decoding] at hleft
    simp only [Input.isExhausted, hleft]
    refine beside_ite (fun _ => (still_pure ()).beside.twins) fun _ => ?_
    refine (still_nextElement field).bind fun count => (beside_number field).twins.bind fun scalar => ?_
    exact (still_onBlock _).bind fun _ => (still_onBlock _).bind fun _ => ih

theorem finishes_packedElements (field : Field Ref) (length : Nat) :
    Finishes length (packedElements field length : Decode σ S Unit) :=
  fun _ _ _ hat => (takes_packedElements hat (Nat.le_refl _)).mono (fun _ _ ⟨_, h⟩ => h.left_eq) fun _ _ h => h

theorem beside_element (hn : NestsTwins nested nested' field) :
    Beside (Wire.Whole field.kind.wireType) (element schema config nested field)
      (element schema config nested' field) := by
  have hvalue : Beside (Wire.Whole field.kind.wireType) (value config nested field)
    (value config nested' field) := beside_value hn
  unfold element
  generalize value config nested field = step, value config nested' field = step' at hvalue
  refine (still_nextElement field).bind fun count => ?_
  refine Beside.then (beside_inside field _ (show Beside (Wire.Whole field.kind.wireType) _ _ from ?_)) fun _ =>
    still_onBlock _
  split
  · exact (still_onBlock _).bind fun _ => hvalue
  · exact hvalue

theorem beside_stored (hn : NestsTwins nested nested' field) (ha : field.accepts type)
    (hh : field.isHandled = false) :
    Beside (Wire.Whole type) (stored schema config nested table field type)
      (stored schema config nested' table field type) := by
  have htype : ¬(type = .delimited ∧ field.kind.isScalar ∧ field.isRepeated) → type = field.kind.wireType :=
    fun hno => Field.type_of_accepts ha fun ⟨hd, hs, hmany⟩ => hno ⟨hd, hs, by simpa [hh] using hmany⟩
  have hinside : type = field.kind.wireType → Beside (Wire.Whole type)
      (inside field field.data (value config nested field))
      (inside field field.data (value config nested' field)) := by
    rintro rfl
    exact beside_inside field _ (beside_value hn)
  unfold stored
  split
  · refine beside_ite (fun hpacked => ?_) fun hpacked => ?_
    · rw [hpacked.1]
      exact beside_delimited fun length =>
        beside_within (twins_packedElements field length) (finishes_packedElements field length)
    · obtain rfl := htype fun ⟨hd, hs, _⟩ => hpacked ⟨hd, hs⟩
      exact beside_element hn
  · next group hm =>
    have hsingle := hinside (htype fun ⟨_, _, hmany⟩ => by simp [Field.isRepeated, hm] at hmany)
    refine (still_onBlock _).bind fun active => beside_ite (fun _ => ?_) fun _ => hsingle
    exact (still_onBlock _).bind fun _ => hsingle
  · next hm =>
    have hsingle := hinside (htype fun ⟨_, _, hmany⟩ => by simp [Field.isRepeated, hm] at hmany)
    exact hsingle.then fun _ => still_ite (still_onBlock _) (still_pure ())
  · next hm => exact hinside (htype fun ⟨_, _, hmany⟩ => by simp [Field.isRepeated, hm] at hmany)

-- ---------------------------------------------------------------------------
-- Handlers
-- ---------------------------------------------------------------------------

theorem still_requireHandler (field : Field Ref) (slot : Nat) :
    Still (requireHandler field slot : Decode σ S Unit) (requireHandler field slot : Decode τ S Unit) := by
  refine still_get fun x y hrest => ?_
  rw [show x.handlers = y.handlers from (Prod.mk.inj hrest).2]
  exact still_ite (still_throw _) (still_pure ())

theorem meet_withHandler {a : Receive σ S α} {b : Receive τ S α} (field : Field Ref) (slot : Nat)
    (h : ∀ handler, Meet pair counts a b (x.input, handler) (y.input, handler))
    (hrest : Reader.rest x = Reader.rest y) :
    Meet pair counts (withHandler field slot a) (withHandler field slot b) x y := by
  obtain ⟨hblock, hhandlers⟩ := Prod.mk.inj hrest
  change x.handlers = y.handlers at hhandlers
  cases hs : x.handlers[slot - 1]? with
  | none =>
    refine .inr ⟨.invalidDescriptor field.name "callback slot not provided", x, y, ?_, ?_, hrest⟩
    · rw [withHandler, Step.result_ofRun, hs]
    · rw [withHandler, Step.result_ofRun, ← hhandlers, hs]
  | some handler =>
    refine (h handler).part
      (fun z => { x with input := z.1, handlers := x.handlers.set (slot - 1) z.2 })
      (fun w => { y with input := w.1, handlers := y.handlers.set (slot - 1) w.2 }) ?_ ?_ ?_
      (fun _ => rfl) fun _ => rfl
    · rw [withHandler, Step.result_ofRun, hs]
    · rw [withHandler, Step.result_ofRun, ← hhandlers, hs]
    · intro z w hrest
      refine Prod.ext hblock ?_
      show x.handlers.set (slot - 1) z.2 = y.handlers.set (slot - 1) w.2
      rw [hhandlers, show z.2 = w.2 from hrest]

theorem still_withHandler {a : Receive σ S α} {b : Receive τ S α} (field : Field Ref) (slot : Nat)
    (h : Still a b) : Still (withHandler field slot a) (withHandler field slot b) :=
  fun _ x y habreast => meet_withHandler field slot
    (fun handler => @h _ (x.input, handler) (y.input, handler)
      ⟨habreast.one_at, habreast.other_at, rfl, habreast.closed⟩) habreast.rest_eq

theorem beside_withHandler {a : Receive σ S α} {b : Receive τ S α} (field : Field Ref) (slot : Nat)
    (h : Beside need a b) : Beside need (withHandler field slot a) (withHandler field slot b) :=
  fun _ x y habreast hmode => meet_withHandler field slot
    (fun handler => @h _ (x.input, handler) (y.input, handler)
      ⟨habreast.one_at, habreast.other_at, rfl, habreast.closed⟩ hmode) habreast.rest_eq

/-- A step of the handler alone. -/
theorem still_onHandler (step : Step S CodecError α) :
    Still (step.onPart (·.2) fun handler state => (state.1, handler) : Receive σ S α)
      (step.onPart (·.2) fun handler state => (state.1, handler) : Receive τ S α) := by
  rintro pair ⟨x, handler⟩ ⟨y, other⟩ h
  obtain rfl : handler = other := h.rest_eq
  unfold Meet
  rw [Step.result_onPart, Step.result_onPart]
  rcases step.result handler with ⟨outcome, after⟩
  cases outcome with
  | error failure => exact .inr ⟨failure, _, _, rfl, rfl, rfl⟩
  | ok value =>
    exact .inl ⟨value, _, _, 0, rfl, rfl, rfl, Nat.zero_le _, h.one_at, h.other_at, rfl, h.closed⟩

omit [Source σ] [Supply σ] in
theorem ends_onHandler (field : Field Ref) (slot : Nat) (step : Step S CodecError Unit) (state : Decoding σ S) :
    (withHandler field slot (step.onPart (·.2) fun handler state => (state.1, handler))).Ends state
      (fun _ after => after.input = state.input) fun _ _ => True := by
  unfold Step.Ends withHandler
  rw [Step.result_ofRun]
  cases state.handlers[slot - 1]? with
  | none => trivial
  | some handler =>
    simp only [Step.result_onPart]
    rcases step.result handler with ⟨_ | _, after⟩
    · trivial
    · rfl

variable [Handler Ref S]

theorem beside_handledNumber (field : Field Ref) (slot : Nat) :
    Beside (Wire.Whole field.kind.wireType) (handledNumber field slot : Decode σ S Unit)
      (handledNumber field slot : Decode τ S Unit) :=
  (beside_number field).then fun _ => still_withHandler field slot (still_onHandler _)

theorem twins_handledElements (field : Field Ref) (slot room : Nat) :
    Twins (handledElements field slot room : Decode σ S Unit)
      (handledElements field slot room : Decode τ S Unit) := by
  induction room with
  | zero => exact (still_pure ()).beside.twins
  | succ room ih =>
    refine twins_left fun x y hleft _ => ?_
    rw [Reader.input_decoding, Reader.input_decoding] at hleft
    simp only [Input.isExhausted, hleft]
    refine beside_ite (fun _ => (still_pure ()).beside.twins) fun _ => ?_
    exact (beside_handledNumber field slot).twins.bind fun _ => ih

theorem finishes_handledElements (field : Field Ref) (slot length : Nat) :
    Finishes length (handledElements field slot length : Decode σ S Unit) := by
  suffices hroom : ∀ (room : Nat) (state : Decoding σ S) (content : Bytes) (left taken : Nat), left ≤ room →
      state.input.At content left taken → (handledElements field slot room).Ends state
        (fun _ after => after.input.left = 0) fun _ _ => True from
    fun _ _ _ hat => hroom length _ _ _ _ (Nat.le_refl _) hat
  intro room
  induction room with
  | zero =>
    intro state content left taken hle hat
    exact .of_ok rfl (hat.left_eq.trans (Nat.le_zero.mp hle))
  | succ room ih =>
    intro state content left taken hle hat
    refine Step.Ends.bind (P := fun found last => found = state ∧ last = state) (Step.ends_get ⟨rfl, rfl⟩) ?_
    rintro _ _ ⟨rfl, rfl⟩
    refine Step.ends_ite (fun hzero => Step.ends_pure (by simpa [Input.isExhausted] using hzero)) fun _ => ?_
    have hnumber : Tracks CodecError.IsShort 1 (number field : Decode σ S Scalar)
      (number field : Decode σ S Scalar) := tracks_number field
    rw [handledNumber, bind_assoc]
    refine (hnumber.advances hat).bind ?_
    rintro scalar middle ⟨count, hone, -, hmiddle⟩
    refine Step.Ends.bind (ends_onHandler field slot (Handler.takeScalar field scalar) middle) ?_
    rintro _ last hlast
    rw [Reader.input_decoding, ← hlast] at hmiddle
    exact ih _ _ _ _ (by omega) hmiddle

theorem twins_handledPayload {depth : Nat} (field : Field Ref) (slot : Nat)
    (h : ∀ payload, Twins (Handler.takePayload field payload : Receive σ S Unit)
      (Handler.takePayload field payload : Receive τ S Unit)) :
    Twins (handledPayload config depth field slot : Decode σ S Unit)
      (handledPayload config depth field slot : Decode τ S Unit) := by
  refine (beside_withHandler field slot (h _)).bind (fun _ => twins_left fun x y hleft _ => ?_) fun _ h => h
  rw [Reader.input_decoding, Reader.input_decoding] at hleft
  rw [hleft]
  exact (beside_onWire ((Input.beside_skip _).mapFailure _)).twins

omit [Supply σ] in
/-- What is left is skipped. -/
theorem ends_skip_left (state : Decoding σ S) :
    (onWire (Wire.onStream (Input.skip state.input.left)) : Decode σ S Unit).Ends state
      (fun _ after => after.input.left = 0) fun _ _ => True := by
  unfold onWire onInput Wire.onStream
  refine Step.ends_onPart (Step.ends_mapFailure (Step.ends_mapFailure ?_))
  unfold Step.Ends
  rw [Input.skip, Step.result_ofRun, if_neg (Nat.lt_irrefl _)]
  rcases Source.skip state.input.source state.input.left with ⟨_ | skipped, after⟩
  · trivial
  · by_cases hlt : skipped < state.input.left
    · simp only [if_pos hlt]
    · simp only [if_neg hlt, Input.charge]
      omega

theorem finishes_handledPayload {depth : Nat} (field : Field Ref) (slot length : Nat) :
    Finishes length (handledPayload config depth field slot : Decode σ S Unit) := by
  intro state content taken _
  refine Step.Ends.bind (ends_const trivial) ?_
  rintro _ middle -
  refine Step.Ends.bind (P := fun found after => found = middle ∧ after = middle) (Step.ends_get ⟨rfl, rfl⟩) ?_
  rintro _ _ ⟨rfl, rfl⟩
  exact ends_skip_left _

theorem beside_handled {depth : Nat} (h : Handler.Modest Ref σ τ S) (ha : field.accepts type) :
    Beside (Wire.Whole type) (handled config depth field type : Decode σ S Unit)
      (handled config depth field type : Decode τ S Unit) := by
  refine (still_onBlock _).bind fun slot => beside_ite (fun _ => beside_skipValue _ _) fun _ => ?_
  refine (still_requireHandler field slot).bind fun _ => beside_ite (fun hd => ?_) fun hd => ?_
  · rw [hd]
    refine beside_delimited fun length => ?_
    split
    · exact beside_within (twins_handledElements field slot length) (finishes_handledElements field slot length)
    · exact beside_within (twins_handledPayload field slot (h field)) (finishes_handledPayload field slot length)
  · rw [Field.type_of_accepts ha fun ⟨hdelimited, _⟩ => hd hdelimited]
    exact beside_handledNumber field slot

-- ---------------------------------------------------------------------------
-- Messages
-- ---------------------------------------------------------------------------

theorem beside_record {depth number : Nat} {found : Option (Entry Ref)} (h : Handler.Modest Ref σ τ S)
    (hn : ∀ entry, found = some entry → NestsTwins nested nested' entry.field) :
    Beside (Wire.Whole type) (record schema config nested depth table type number found)
      (record schema config nested' depth table type number found) := by
  have hskip : Beside (Wire.Whole type)
      (do skipValue number type; pure none : Decode σ S (Option Nat))
      (do skipValue number type; pure none : Decode τ S (Option Nat)) :=
    (beside_skipValue number type).then fun _ => still_pure none
  unfold record
  split
  · exact beside_unless fun _ => hskip
  · next entry =>
    refine beside_ite (fun ha => ?_) fun _ => beside_unless fun _ => hskip
    cases hh : entry.field.isHandled with
    | true => exact (beside_handled h ha).then fun _ => still_pure _
    | false => exact (beside_stored (hn entry rfl) ha hh).then fun _ => still_pure _

theorem beside_nextField {depth : Nat} (h : Handler.Modest Ref σ τ S)
    (hn : ∀ field ∈ table.fields, NestsTwins nested nested' field) :
    Beside Wire.Record (nextField schema config nested depth table)
      (nextField schema config nested' depth table) := by
  intro pair x y habreast hmode
  have htag := meet_onInput ((Wire.meet_nextTag habreast.onInput hmode).mapFailure CodecError.wire)
    habreast.rest_eq
  refine htag.bind fun tag x' y' count hcount hle hnext => ?_
  have hrecord : Beside (Wire.Whole tag.2)
      (do let mark ← record schema config nested depth table tag.2 tag.1 (table.entryOf? tag.1); pure (tag, mark))
      (do let mark ← record schema config nested' depth table tag.2 tag.1 (table.entryOf? tag.1); pure (tag, mark)) :=
    (beside_record h fun entry hentry => hn _ (Cursor.mem_of_entryOf? hentry)).then fun _ => still_pure _
  refine (hrecord hnext hcount).mono fun _ next => Or.imp id fun hall => ?_
  simp only [Pair.drop, List.length_drop] at hall
  omega

theorem twins_walk {depth : Nat} (h : Handler.Modest Ref σ τ S)
    (hn : ∀ field ∈ table.fields, NestsTwins nested nested' field) (room : Nat) (cursor : Cursor)
    (seen : List Nat) :
    Twins (walk schema config nested depth table room cursor seen)
      (walk schema config nested' depth table room cursor seen) := by
  induction room generalizing cursor seen with
  | zero => exact (still_pure seen).beside.twins
  | succ room ih =>
    refine Twins.bind (beside_onWire Wire.twins_readTag) fun header => ?_
    match header with
    | none => exact (still_pure seen).beside.twins
    | some (number, type) =>
      refine Twins.bind (beside_record h fun entry hentry => ?_).twins fun mark => ih _ _
      exact hn _ (Cursor.mem_of_findWithin (Prod.ext hentry rfl))

theorem twins_messageWithin (h : Handler.Modest Ref σ τ S) (levels : Nat) (ref : Ref) :
    Twins (messageWithin schema config levels ref : Decode σ S Unit)
      (messageWithin schema config levels ref : Decode τ S Unit) := by
  induction levels generalizing ref with
  | zero => exact fails_alike _
  | succ levels ih =>
    refine (still_onBlock _).bind fun _ => twins_left fun x y hleft _ => ?_
    rw [Reader.input_decoding, Reader.input_decoding] at hleft
    rw [hleft, fields_eq_walk, fields_eq_walk]
    refine (twins_walk h (fun field _ inner _ => ih inner) _ _ _).then fun seen => ?_
    unfold checkRequired
    split
    · exact still_pure ()
    · exact still_throw _

end Decode

end BlockCodec
