import BlockCodec.Proofs.Alongside
import BlockCodec.Proofs.Reach

/-!
# Sources that fail

A device that fails is compared with one that hands out the same bytes and then ends. A step does the
same with both until it comes to that place, and there it `Stops`: over the device that fails it reports
the fault, and over the one that ends it fails in a way of its own, or finds itself at the end of a
message. The one thing that is not reported is a fault within a number: as the end of the bytes would do,
it makes the number malformed. The main statement is `faults_told`.
-/

namespace BlockCodec

variable {s t ρ ε ε' α β : Type}

/-- How the fault of a device is told, and which failures are those of numbers that are cut off. -/
class Telling (ε : Type) where
  told : Fault → ε
  cut : ε → Prop

instance : Telling StreamError := ⟨.device, fun _ => False⟩

instance : Telling WireError := ⟨fun fault => .stream (.device fault), (· = .malformedVarint)⟩

instance : Telling CodecError := ⟨fun fault => .stream (.device fault), (· = .wire .malformedVarint)⟩

open Telling (told cut)

theorem cut_wire (failure : WireError) : cut (CodecError.wire failure) ↔ cut failure := by
  simp [cut]

/-- A stream that has ended too early is not taken for a number that is cut off. -/
theorem not_cut_stream (failure : StreamError) : ¬cut (CodecError.stream failure) := by
  intro h
  cases h

/-- The first device fails where the other ends, and will go on with these answers. -/
def Patient.Verges (fault : Fault) (behind : Feed) (x y : Patient) : Prop :=
  ∃ front : Feed, x = ⟨front ++ .fault fault :: behind⟩ ∧ y = ⟨front⟩

/-- The states agree, but that the device of the first fails where that of the other ends. -/
structure Verges [Reader s Patient ρ] (fault : Fault) (behind : Feed) (x y : s) : Prop where
  source : (Reader.input x).source.Verges fault behind (Reader.input y).source
  left_eq : (Reader.input x).left = (Reader.input y).left
  taken_eq : (Reader.input x).taken = (Reader.input y).taken
  rest_eq : Reader.rest x = Reader.rest y

/-- Both runs end alike, or the first comes to the fault. Then it tells the fault, and the other fails or
has got over its work with budget to spare; or both fail as a number does that is cut off. -/
def Stops [Reader s Patient ρ] [Telling ε] (fault : Fault) (behind : Feed) (spares : α → Prop)
    (step : Step s ε α) : Prop :=
  ∀ ⦃x y : s⦄, Verges fault behind x y →
    (∃ outcome x' y', step.result x = (outcome, x') ∧ step.result y = (outcome, y') ∧
      Verges fault behind x' y') ∨
    ∃ failure x', step.result x = (.error failure, x') ∧ (Reader.input x').source.feed = behind ∧
      (failure = told fault ∧ step.Ends y (fun value after => spares value ∧ 0 < (Reader.input after).left)
          (fun other _ => ¬cut other) ∨
        cut failure ∧ (step.result y).1 = .error failure)

/-- The other run fails too. -/
abbrev Breaks [Reader s Patient ρ] [Telling ε] (fault : Fault) (behind : Feed) (step : Step s ε α) : Prop :=
  Stops fault behind (fun _ => False) step

section

variable [Reader s Patient ρ] [Reader t Patient ρ] [Telling ε] [Telling ε'] {fault : Fault} {behind : Feed}
  {spares : α → Prop} {later : β → Prop} {step : Step s ε α} {next : α → Step s ε β}

-- ---------------------------------------------------------------------------
-- Composition
-- ---------------------------------------------------------------------------

theorem Stops.then (h : Stops fault behind spares step) (hn : ∀ value, Stops fault behind later (next value))
    (hspares : ∀ value y, spares value → 0 < (Reader.input y).left → (next value).Ends y
      (fun value after => later value ∧ 0 < (Reader.input after).left) fun other _ => ¬cut other) :
    Stops fault behind later (step >>= next) := by
  intro x y hv
  obtain ⟨outcome, x', y', hx, hy, hv'⟩ | ⟨failure, x', hx, hfeed, hother⟩ := h hv
  · cases outcome with
    | error failure =>
      exact .inl ⟨.error failure, x', y', Step.result_bind_error hx, Step.result_bind_error hy, hv'⟩
    | ok value =>
      obtain ⟨outcome, x', y', hx', hy', hv'⟩ | ⟨failure, last, hx', hfeed, hother⟩ := hn value hv'
      · exact .inl ⟨outcome, x', y', (Step.result_bind_ok hx).trans hx', (Step.result_bind_ok hy).trans hy', hv'⟩
      · refine .inr ⟨failure, last, (Step.result_bind_ok hx).trans hx', hfeed, ?_⟩
        rw [Step.result_bind_ok hy]
        exact hother.imp (And.imp id fun hends => hends.congr (Step.result_bind_ok hy)) id
  · refine .inr ⟨failure, x', Step.result_bind_error hx, hfeed, ?_⟩
    rcases hother with ⟨htold, hends⟩ | ⟨hcut, hy⟩
    · exact .inl ⟨htold, hends.bind fun value after ⟨hvalue, hleft⟩ => hspares value after hvalue hleft⟩
    · exact .inr ⟨hcut, by rw [Step.result_bind_error (Prod.ext hy rfl)]⟩

theorem Stops.bind (h : Breaks fault behind step) (hn : ∀ value, Stops fault behind later (next value)) :
    Stops fault behind later (step >>= next) :=
  h.then hn fun _ _ => False.elim

theorem stops_pure (value : α) : Stops fault behind spares (pure value : Step s ε α) :=
  fun _ _ hv => .inl ⟨.ok value, _, _, rfl, rfl, hv⟩

theorem stops_throw (failure : ε) : Stops fault behind spares (throw failure : Step s ε α) :=
  fun _ _ hv => .inl ⟨.error failure, _, _, rfl, rfl, hv⟩

theorem stops_ofExcept (outcome : Except ε α) : Stops fault behind spares (.ofExcept outcome : Step s ε α) :=
  fun _ _ hv => .inl ⟨outcome, _, _, rfl, rfl, hv⟩

theorem stops_ite {c : Prop} [Decidable c] {no : Step s ε α} (hy : c → Stops fault behind spares step)
    (hn : ¬c → Stops fault behind spares no) : Stops fault behind spares (if c then step else no) := by
  split
  · next h => exact hy h
  · next h => exact hn h

theorem stops_unless {c : Prop} [Decidable c] {failure : ε} {go : Unit → Step s ε α}
    (hn : Stops fault behind spares (go ())) :
    Stops fault behind spares (if c then (throw failure : Step s ε Unit) >>= go else go ()) :=
  stops_ite (fun _ _ _ hv => .inl ⟨.error failure, _, _, rfl, rfl, hv⟩) fun _ => hn

/-- What is looked up is the same for both, unless it is the source. -/
theorem stops_get {look : s → Step s ε α} (h : ∀ x, Stops fault behind spares (look x))
    (heq : ∀ x y : s, (Reader.input x).left = (Reader.input y).left → Reader.rest x = Reader.rest y →
      look x = look y) : Stops fault behind spares (get >>= look) := by
  intro x y hv
  have hsame := h x hv
  rw [show (get >>= look).result x = (look x).result x from rfl]
  unfold Step.Ends at *
  rw [show (get >>= look).result y = (look y).result y from rfl, ← heq x y hv.left_eq hv.rest_eq]
  exact hsame

theorem Stops.mapFailure {restate : ε → ε'} (h : Stops fault behind spares step)
    (htold : restate (told fault) = told fault) (hcut : ∀ failure, cut (restate failure) ↔ cut failure) :
    Stops fault behind spares (step.mapFailure restate) := by
  intro x y hv
  obtain ⟨outcome, x', y', hx, hy, hv'⟩ | ⟨failure, x', hx, hfeed, hother⟩ := h hv
  · exact .inl ⟨outcome.mapError restate, x', y', by rw [Step.result_mapFailure, hx],
      by rw [Step.result_mapFailure, hy], hv'⟩
  · refine .inr ⟨restate failure, x', by rw [Step.result_mapFailure, hx]; rfl, hfeed, ?_⟩
    rcases hother with ⟨rfl, hends⟩ | ⟨hfailure, hy⟩
    · exact .inl ⟨htold, Step.ends_mapFailure (hends.mono (fun _ _ => id) fun other _ => (hcut other).not.mpr)⟩
    · exact .inr ⟨(hcut failure).mpr hfailure, by rw [Step.result_mapFailure, hy]; rfl⟩

/-- Where all failures are told as the same one, the fault cannot be told from the end. -/
theorem Breaks.mapFailure_const {failure : ε'} (h : Breaks fault behind step) (hcut : cut failure) :
    Breaks fault behind (step.mapFailure fun _ => failure) := by
  intro x y hv
  obtain ⟨outcome, x', y', hx, hy, hv'⟩ | ⟨_, x', hx, hfeed, hother⟩ := h hv
  · exact .inl ⟨outcome.mapError _, x', y', by rw [Step.result_mapFailure, hx],
      by rw [Step.result_mapFailure, hy], hv'⟩
  · refine .inr ⟨failure, x', by rw [Step.result_mapFailure, hx]; rfl, hfeed, .inr ⟨hcut, ?_⟩⟩
    have hy : ∃ other, (step.result y).1 = .error other := by
      rcases hother with ⟨-, hends⟩ | ⟨-, hy⟩
      · obtain ⟨other, after, hy, -⟩ := (hends.mono (fun _ _ => And.left) fun _ _ => id).fails
        exact ⟨other, by rw [hy]⟩
      · exact ⟨_, hy⟩
    obtain ⟨other, hy⟩ := hy
    rw [Step.result_mapFailure, hy]
    rfl

end

-- ---------------------------------------------------------------------------
-- Sources
-- ---------------------------------------------------------------------------

/-- A feed with a fault behind it is read as it would be by itself, unless it is read to its end. -/
theorem Feed.readRetrying_append {fault : Fault} (hf : fault ≠ .interrupted) (front behind : Feed) (wanted : Nat) :
    (∃ answer rest, (front ++ .fault fault :: behind).readRetrying wanted = (answer, rest ++ .fault fault :: behind) ∧
      front.readRetrying wanted = (answer, rest)) ∨
    (front ++ .fault fault :: behind).readRetrying wanted = (.error fault, behind) ∧
      ∃ rest, front.readRetrying wanted = (.ok [], rest) := by
  induction front with
  | nil =>
    refine .inr ⟨?_, [], rfl⟩
    rw [List.nil_append, readRetrying, read]
    exact fun _ h => hf (Arrival.fault.inj (List.cons.inj h).1)
  | cons arrival front ih =>
    cases arrival with
    | chunk bytes =>
      have hchunk : ∀ rest : Feed,
          readRetrying (.chunk bytes :: rest) wanted = read (.chunk bytes :: rest) wanted := by
        intro rest
        rw [readRetrying]
        intro _ h
        cases h
      rw [List.cons_append, hchunk, hchunk, read, read]
      rcases bytes.drop wanted with _ | ⟨byte, left⟩
      · exact .inl ⟨_, front, rfl, rfl⟩
      · exact .inl ⟨_, .chunk (byte :: left) :: front, rfl, rfl⟩
    | fault first =>
      by_cases hfirst : first = .interrupted
      · subst hfirst
        exact ih
      · have halone : ∀ rest : Feed, readRetrying (.fault first :: rest) wanted = (.error first, rest) := by
          intro rest
          rw [readRetrying, read]
          exact fun _ h => hfirst (Arrival.fault.inj (List.cons.inj h).1)
        exact .inl ⟨.error first, front, halone _, halone _⟩

namespace Patient

variable {fault : Fault} {behind : Feed} {x y : Patient}

theorem Verges.pull (h : x.Verges fault behind y) (hf : fault ≠ .interrupted) (wanted : Nat) :
    (∃ answer x' y', Source.read x wanted = (answer, x') ∧ Source.read y wanted = (answer, y') ∧
      x'.Verges fault behind y') ∨
    Source.read x wanted = (.error (.device fault), ⟨behind⟩) ∧ ∃ y', Source.read y wanted = (.ok [], y') := by
  obtain ⟨front, rfl, rfl⟩ := h
  have hpull : ∀ (feed : Feed) {answer rest}, feed.readRetrying wanted = (answer, rest) →
      Source.read (⟨feed⟩ : Patient) wanted = (answer.mapError .device, ⟨rest⟩) := by
    intro feed answer rest hr
    show Patient.pull ⟨feed⟩ wanted = _
    rw [Patient.pull, hr]
    rfl
  refine (Feed.readRetrying_append hf front behind wanted).imp ?_ ?_
  · rintro ⟨answer, rest, hx, hy⟩
    exact ⟨_, _, _, hpull _ hx, hpull _ hy, rest, rfl, rfl⟩
  · rintro ⟨hx, rest, hy⟩
    exact ⟨hpull _ hx, _, hpull _ hy⟩

theorem Verges.gather (h : x.Verges fault behind y) (hf : fault ≠ .interrupted) (wanted : Nat) :
    (∃ delivery x' y', Input.gather x wanted = (delivery, x') ∧ Input.gather y wanted = (delivery, y') ∧
      x'.Verges fault behind y') ∨
    ∃ bytes y', Input.gather x wanted = (⟨bytes, some (.device fault)⟩, ⟨behind⟩) ∧
      Input.gather y wanted = (⟨bytes, none⟩, y') ∧ bytes.length < wanted := by
  induction wanted using Nat.strong_induction_on generalizing x y with
  | h wanted ih =>
    rw [Input.gather, Input.gather.eq_def y]
    by_cases hzero : wanted = 0
    · rw [if_pos hzero, if_pos hzero]
      exact .inl ⟨_, x, y, rfl, rfl, h⟩
    · rw [if_neg hzero, if_neg hzero]
      obtain ⟨answer, x', y', hx, hy, h'⟩ | ⟨hx, y', hy⟩ := h.pull hf wanted
      · rw [hx, hy]
        rcases answer with failure | _ | ⟨byte, rest⟩
        · exact .inl ⟨_, x', y', rfl, rfl, h'⟩
        · exact .inl ⟨_, x', y', rfl, rfl, h'⟩
        · have hlength : rest.length + 1 ≤ wanted := Source.length_read_le hx
          obtain ⟨delivery, x'', y'', hx', hy', h''⟩ | ⟨bytes, y'', hx', hy', hlt⟩ :=
            ih (wanted - (rest.length + 1)) (by omega) h'
          · simp only [hx', hy']
            exact .inl ⟨_, x'', y'', rfl, rfl, h''⟩
          · simp only [hx', hy']
            refine .inr ⟨_, y'', rfl, rfl, ?_⟩
            rw [List.length_append, List.length_cons]
            omega
      · rw [hx, hy]
        exact .inr ⟨[], y', rfl, rfl, Nat.pos_of_ne_zero hzero⟩

theorem Verges.skip (h : x.Verges fault behind y) (hf : fault ≠ .interrupted) (count : Nat) :
    (∃ answer x' y', Source.skip x count = (answer, x') ∧ Source.skip y count = (answer, y') ∧
      x'.Verges fault behind y') ∨
    Source.skip x count = (.error (.device fault), ⟨behind⟩) ∧
      ∃ skipped y', Source.skip y count = (.ok skipped, y') ∧ skipped < count := by
  show (∃ answer x' y', Source.skipByReading Source.read x count = _ ∧
      Source.skipByReading Source.read y count = _ ∧ _) ∨
    Source.skipByReading Source.read x count = _ ∧ ∃ skipped y', Source.skipByReading Source.read y count = _ ∧ _
  induction count using Nat.strong_induction_on generalizing x y with
  | h count ih =>
    rw [Source.skipByReading, Source.skipByReading.eq_def _ y]
    by_cases hzero : count = 0
    · rw [if_pos hzero, if_pos hzero]
      exact .inl ⟨_, x, y, rfl, rfl, h⟩
    · rw [if_neg hzero, if_neg hzero]
      obtain ⟨answer, x', y', hx, hy, h'⟩ | ⟨hx, y', hy⟩ := h.pull hf (min count Source.skipChunk)
      · rw [hx, hy]
        rcases answer with failure | _ | ⟨byte, rest⟩
        · exact .inl ⟨_, x', y', rfl, rfl, h'⟩
        · exact .inl ⟨_, x', y', rfl, rfl, h'⟩
        · have hlength : rest.length + 1 ≤ min count Source.skipChunk := Source.length_read_le hx
          obtain ⟨answer, x'', y'', hx', hy', h''⟩ | ⟨hx', skipped, y'', hy', hlt⟩ :=
            ih (count - (rest.length + 1)) (by omega) h'
          · simp only [hx', hy']
            rcases answer with failure | skipped <;> exact .inl ⟨_, x'', y'', rfl, rfl, h''⟩
          · simp only [hx', hy']
            refine .inr ⟨trivial, _, y'', rfl, ?_⟩
            rw [List.length_cons]
            omega
      · rw [hx, hy]
        exact .inr ⟨rfl, 0, y', rfl, Nat.pos_of_ne_zero hzero⟩

end Patient

-- ---------------------------------------------------------------------------
-- Inputs
-- ---------------------------------------------------------------------------

namespace Input

variable {fault : Fault} {behind : Feed} {x y : Input Patient}

theorem verges_charge (h : BlockCodec.Verges fault behind x y) {source source' : Patient}
    (hs : source.Verges fault behind source') (count : Nat) :
    BlockCodec.Verges fault behind ({ x with source }.charge count) ({ y with source := source' }.charge count) where
  source := hs
  left_eq := congrArg (· - count) h.left_eq
  taken_eq := congrArg (· + count) h.taken_eq
  rest_eq := rfl

/-- Of the bytes asked for, both runs get the same; where the first meets the fault, the other lacks bytes. -/
theorem verges_deliver (h : BlockCodec.Verges fault behind x y) (hf : fault ≠ .interrupted) (count : Nat) :
    (∃ delivery x' y', deliver count x = (delivery, x') ∧ deliver count y = (delivery, y') ∧
      BlockCodec.Verges fault behind x' y') ∨
    ∃ bytes x' y', deliver count x = (⟨bytes, some (.device fault)⟩, x') ∧ x'.source.feed = behind ∧
      deliver count y = (⟨bytes, some (.endOfStream count bytes.length)⟩, y') := by
  rcases x with ⟨source, left, taken, bounded⟩
  obtain rfl : left = y.left := h.left_eq
  rw [deliver, deliver]
  by_cases hlt : y.left < count
  · rw [if_pos hlt, if_pos hlt]
    exact .inl ⟨_, _, y, rfl, rfl, h⟩
  · rw [if_neg hlt, if_neg hlt]
    obtain ⟨delivery, source, source', hx, hy, hs⟩ | ⟨bytes, source', hx, hy, hshort⟩ := h.source.gather hf count
    · rw [Reader.input_self] at hx hy
      simp only [hx, hy]
      rcases delivery with ⟨bytes, _ | failure⟩
      · exact .inl ⟨_, _, _, rfl, rfl, verges_charge h hs bytes.length⟩
      · exact .inl ⟨_, _, _, rfl, rfl, hs, rfl, h.taken_eq, rfl⟩
    · rw [Reader.input_self] at hx hy
      simp only [hx, hy, if_pos hshort]
      exact .inr ⟨bytes, _, _, rfl, rfl, rfl⟩

theorem breaks_read (hf : fault ≠ .interrupted) (count : Nat) :
    Breaks fault behind (read count : Step (Input Patient) StreamError Bytes) := by
  intro x y h
  unfold Step.Ends
  rw [read, Step.result_ofRun, Step.result_ofRun]
  obtain ⟨delivery, x', y', hx, hy, h'⟩ | ⟨bytes, x', y', hx, hfeed, hy⟩ := verges_deliver h hf count
  · rw [hx, hy]
    rcases delivery with ⟨bytes, _ | failure⟩ <;> exact .inl ⟨_, x', y', rfl, rfl, h'⟩
  · rw [hx, hy]
    exact .inr ⟨_, x', rfl, hfeed, .inl ⟨rfl, id⟩⟩

theorem breaks_readByte (hf : fault ≠ .interrupted) :
    Breaks fault behind (readByte : Step (Input Patient) StreamError UInt8) :=
  (breaks_read hf 1).bind fun _ => stops_pure _

/-- The end of the bytes is no failure here. -/
theorem stops_readByte? (hf : fault ≠ .interrupted) :
    Stops fault behind (· = none) (readByte? : Step (Input Patient) StreamError (Option UInt8)) := by
  intro x y h
  unfold Step.Ends
  rw [readByte?, Step.result_ofRun, Step.result_ofRun]
  have hleft : x.left = y.left := h.left_eq
  by_cases hzero : y.left = 0
  · rw [if_pos (hleft.trans hzero), if_pos hzero]
    exact .inl ⟨_, x, y, rfl, rfl, h⟩
  · rw [if_neg (hleft ▸ hzero), if_neg hzero]
    obtain ⟨answer, source, source', hx, hy, hs⟩ | ⟨hx, source', hy⟩ := h.source.pull hf 1
    · rw [Reader.input_self] at hx hy
      rw [hx, hy]
      rcases answer with failure | _ | ⟨byte, _⟩
      · exact .inl ⟨_, _, _, rfl, rfl, hs, hleft, h.taken_eq, rfl⟩
      · exact .inl ⟨_, _, _, rfl, rfl, hs, hleft, h.taken_eq, rfl⟩
      · exact .inl ⟨_, _, _, rfl, rfl, verges_charge h hs 1⟩
    · rw [Reader.input_self] at hx hy
      rw [hx, hy]
      exact .inr ⟨_, _, rfl, rfl, .inl ⟨rfl, rfl, Nat.pos_of_ne_zero hzero⟩⟩

theorem breaks_skip (hf : fault ≠ .interrupted) (count : Nat) :
    Breaks fault behind (skip count : Step (Input Patient) StreamError Unit) := by
  intro x y h
  unfold Step.Ends
  rw [skip, Step.result_ofRun, Step.result_ofRun]
  rcases x with ⟨source, left, taken, bounded⟩
  obtain rfl : left = y.left := h.left_eq
  by_cases hlt : y.left < count
  · rw [if_pos hlt, if_pos hlt]
    exact .inl ⟨_, _, y, rfl, rfl, h⟩
  · rw [if_neg hlt, if_neg hlt]
    obtain ⟨answer, source, source', hx, hy, hs⟩ | ⟨hx, skipped, source', hy, hshort⟩ := h.source.skip hf count
    · rw [Reader.input_self] at hx hy
      rw [hx, hy]
      rcases answer with failure | skipped
      · exact .inl ⟨_, _, _, rfl, rfl, hs, rfl, h.taken_eq, rfl⟩
      · exact .inl ⟨_, _, _, rfl, rfl, verges_charge h hs skipped⟩
    · rw [Reader.input_self] at hx hy
      rw [hx, hy]
      simp only [if_pos hshort]
      exact .inr ⟨_, _, rfl, rfl, .inl ⟨rfl, id⟩⟩

end Input

-- ---------------------------------------------------------------------------
-- Wire values
-- ---------------------------------------------------------------------------

namespace Wire

variable {fault : Fault} {behind : Feed} {α : Type} {spares : α → Prop}

theorem stops_onStream {step : Step (Input Patient) StreamError α} (h : Stops fault behind spares step) :
    Stops fault behind spares (onStream step) :=
  h.mapFailure rfl fun _ => ⟨nofun, False.elim⟩

/-- Within a number the fault is not told. -/
theorem breaks_nextGroup (hf : fault ≠ .interrupted) : Breaks fault behind (nextGroup : Read Patient UInt8) :=
  (Input.breaks_readByte hf).mapFailure_const rfl

theorem breaks_readGroups (hf : fault ≠ .interrupted) (places weight sum : Nat) :
    Breaks fault behind (readGroups places weight sum : Read Patient UInt64) := by
  induction places generalizing weight sum with
  | zero => exact stops_throw _
  | succ places ih =>
    refine (breaks_nextGroup hf).bind fun byte => stops_unless ?_
    exact stops_ite (fun _ => stops_pure _) fun _ => ih _ _

theorem breaks_readVarintFrom (hf : fault ≠ .interrupted) (first : UInt8) :
    Breaks fault behind (readVarintFrom first : Read Patient UInt64) :=
  stops_ite (fun _ => stops_pure _) fun _ => breaks_readGroups hf _ _ _

theorem breaks_readVarint (hf : fault ≠ .interrupted) : Breaks fault behind (readVarint : Read Patient UInt64) :=
  (stops_onStream (Input.breaks_readByte hf)).bind (breaks_readVarintFrom hf)

theorem breaks_readVarint32 (hf : fault ≠ .interrupted) : Breaks fault behind (readVarint32 : Read Patient Nat) :=
  (breaks_readVarint hf).bind fun _ => stops_ite (fun _ => stops_pure _) fun _ => stops_throw _

theorem breaks_readZigZag (hf : fault ≠ .interrupted) : Breaks fault behind (readZigZag : Read Patient Int64) :=
  (breaks_readVarint hf).bind fun _ => stops_pure _

theorem breaks_readFixed32 (hf : fault ≠ .interrupted) : Breaks fault behind (readFixed32 : Read Patient UInt32) :=
  (stops_onStream (Input.breaks_read hf 4)).bind fun _ => stops_pure _

theorem breaks_readFixed64 (hf : fault ≠ .interrupted) : Breaks fault behind (readFixed64 : Read Patient UInt64) :=
  (stops_onStream (Input.breaks_read hf 8)).bind fun _ => stops_pure _

theorem breaks_skipGroups (hf : fault ≠ .interrupted) (places : Nat) :
    Breaks fault behind (skipGroups places : Read Patient Unit) := by
  induction places with
  | zero => exact stops_throw _
  | succ places ih => exact (breaks_nextGroup hf).bind fun _ => stops_ite (fun _ => stops_pure _) fun _ => ih

theorem breaks_skipVarint (hf : fault ≠ .interrupted) : Breaks fault behind (skipVarint : Read Patient Unit) :=
  (stops_onStream (Input.breaks_readByte hf)).bind fun _ =>
    stops_ite (fun _ => stops_pure _) fun _ => breaks_skipGroups hf _

theorem breaks_readLength (hf : fault ≠ .interrupted) : Breaks fault behind (readLength : Read Patient Nat) := by
  refine (breaks_readVarint32 hf).bind fun declared => stops_get (fun _ => stops_unless (stops_pure _)) ?_
  intro x y hleft _
  rw [Reader.input_self, Reader.input_self] at hleft
  rw [hleft]

theorem breaks_skipField (hf : fault ≠ .interrupted) (type : WireType) :
    Breaks fault behind (skipField type : Read Patient Unit) := by
  unfold skipField
  cases type with
  | varint => exact breaks_skipVarint hf
  | fixed32 => exact stops_onStream (Input.breaks_skip hf 4)
  | fixed64 => exact stops_onStream (Input.breaks_skip hf 8)
  | delimited => exact (breaks_readLength hf).bind fun length => stops_onStream (Input.breaks_skip hf length)
  | startGroup | endGroup => exact stops_throw _

/-- Where a header is missing, the message may end. -/
theorem stops_readTag (hf : fault ≠ .interrupted) :
    Stops fault behind (· = none) (readTag : Read Patient (Option (Nat × WireType))) := by
  refine (stops_onStream (Input.stops_readByte? hf)).then (fun first? => ?_) ?_
  · cases first? with
    | none => exact stops_pure none
    | some first =>
      refine (breaks_readVarintFrom hf first).bind fun header => ?_
      exact stops_ite (fun _ => (stops_ofExcept _).bind fun _ => stops_pure _) fun _ => stops_throw _
  · rintro _ y rfl hleft
    exact Step.ends_pure ⟨rfl, hleft⟩

end Wire

-- ---------------------------------------------------------------------------
-- Decoders
-- ---------------------------------------------------------------------------

namespace Decode

variable {fault : Fault} {behind : Feed} {S α Ref : Type} {spares : α → Prop} {x y : Decoding Patient S}

theorem stops_onInput {step : Step (Input Patient) CodecError α} (h : Stops fault behind spares step) :
    Stops fault behind spares (onInput step : Decode Patient S α) := by
  intro x y hv
  unfold Step.Ends onInput
  rw [Step.result_onPart, Step.result_onPart]
  obtain ⟨outcome, x', y', hx, hy, hv'⟩ | ⟨failure, x', hx, hfeed, hother⟩ :=
    h (x := x.input) (y := y.input) ⟨hv.source, hv.left_eq, hv.taken_eq, rfl⟩
  · rw [hx, hy]
    exact .inl ⟨outcome, _, _, rfl, rfl, hv'.source, hv'.left_eq, hv'.taken_eq, hv.rest_eq⟩
  · rw [hx]
    refine .inr ⟨failure, _, rfl, hfeed, hother.imp (And.imp id fun hends => ?_) id⟩
    rw [Step.Ends] at hends
    rcases hy : step.result y.input with ⟨_ | _, _⟩ <;> rw [hy] at hends <;> exact hends

theorem stops_onWire {step : Wire.Read Patient α} (h : Stops fault behind spares step) :
    Stops fault behind spares (onWire step : Decode Patient S α) :=
  stops_onInput (h.mapFailure rfl cut_wire)

theorem stops_onBlock (edit : Edit α) : Stops fault behind spares (onBlock edit : Decode Patient S α) := by
  intro x y hv
  obtain ⟨hblock, hhandlers⟩ := Prod.mk.inj hv.rest_eq
  change x.block = y.block at hblock
  refine .inl ⟨(edit.result y.block).1, { x with block := (edit.result y.block).2 }, _, ?_, rfl, hv.source,
    hv.left_eq, hv.taken_eq, Prod.ext rfl hhandlers⟩
  rw [onBlock, Step.result_onPart, hblock]

theorem breaks_skipValue (hf : fault ≠ .interrupted) (number : Nat) (type : WireType) :
    Breaks fault behind (skipValue number type : Decode Patient S Unit) := by
  refine stops_onInput ((Wire.breaks_skipField hf type).mapFailure rfl fun failure => ?_)
  cases failure <;> simp [Telling.cut]

theorem breaks_inside (field : Field Ref) (span : Span) {step : Decode Patient S α} (h : Breaks fault behind step) :
    Breaks fault behind (inside field span step) := by
  intro x y hv
  unfold Step.Ends
  obtain ⟨hblock, hhandlers⟩ := Prod.mk.inj hv.rest_eq
  change x.block = y.block at hblock
  rw [inside, Step.result_ofRun, Step.result_ofRun, hblock]
  cases hs : Bytes.slice? y.block span with
  | none => exact .inl ⟨_, x, y, rfl, rfl, hv⟩
  | some stored =>
    obtain ⟨outcome, x', y', hx, hy, hv'⟩ | ⟨failure, x', hx, hfeed, hother⟩ :=
      h (x := { x with block := stored }) (y := { y with block := stored })
        ⟨hv.source, hv.left_eq, hv.taken_eq, Prod.ext rfl hhandlers⟩
    · obtain ⟨hinner, hhandlers⟩ := Prod.mk.inj hv'.rest_eq
      change x'.block = y'.block at hinner
      simp only [hx, hy]
      refine .inl ⟨outcome, _, _, rfl, rfl, hv'.source, hv'.left_eq, hv'.taken_eq, Prod.ext ?_ hhandlers⟩
      exact congrArg (Bytes.overwrite y.block span.start) hinner
    · simp only [hx]
      refine .inr ⟨failure, _, rfl, hfeed, hother.imp (And.imp id fun hends => ?_) id⟩
      rw [Step.Ends] at hends
      rcases hy : step.result { y with block := stored } with ⟨_ | _, _⟩ <;> rw [hy] at hends <;> exact hends

theorem breaks_within (length : Nat) {step : Decode Patient S α} (h : Breaks fault behind step) :
    Breaks fault behind (within length step) := by
  intro x y hv
  have hleft : x.input.left = y.input.left := hv.left_eq
  unfold Step.Ends
  by_cases hle : length ≤ y.input.left
  · rw [result_within step x (hleft ▸ hle), result_within step y hle]
    obtain ⟨outcome, x', y', hx, hy, hv'⟩ | ⟨failure, x', hx, hfeed, hother⟩ :=
      h (x := { x with input := .ofSource x.input.source length })
        (y := { y with input := .ofSource y.input.source length }) ⟨hv.source, rfl, rfl, hv.rest_eq⟩
    · have hcharged := Input.verges_charge (x := x.input) (y := y.input)
        ⟨hv.source, hv.left_eq, hv.taken_eq, rfl⟩ hv'.source x'.input.taken
      have htaken : x'.input.taken = y'.input.taken := hv'.taken_eq
      simp only [hx, hy]
      refine .inl ⟨outcome, _, _, rfl, rfl, hv'.source, hcharged.left_eq.trans ?_, hcharged.taken_eq.trans ?_,
        hv'.rest_eq⟩
      · exact congrArg (y.input.left - ·) htaken
      · exact congrArg (y.input.taken + ·) htaken
    · simp only [hx]
      refine .inr ⟨failure, _, rfl, hfeed, hother.imp (And.imp id fun hends => ?_) id⟩
      rw [Step.Ends] at hends
      rcases hy : step.result { y with input := .ofSource y.input.source length } with ⟨_ | _, _⟩ <;>
        rw [hy] at hends <;> first | exact hends | exact hends.1.elim
  · have hlt := Nat.lt_of_not_le hle
    rw [result_within_refused step x (hleft ▸ hlt), result_within_refused step y hlt, hleft]
    exact .inl ⟨_, x, y, rfl, rfl, hv⟩

theorem breaks_fill (hf : fault ≠ .interrupted) (start count : Nat) :
    Breaks fault behind (fill start count : Decode Patient S Unit) := by
  intro x y hv
  unfold Step.Ends
  obtain ⟨hblock, hhandlers⟩ := Prod.mk.inj hv.rest_eq
  change x.block = y.block at hblock
  rw [fill, Step.result_ofRun, Step.result_ofRun, hblock]
  obtain ⟨delivery, x', y', hx, hy, hv'⟩ | ⟨bytes, x', y', hx, hfeed, hy⟩ :=
    Input.verges_deliver (x := x.input) (y := y.input) ⟨hv.source, hv.left_eq, hv.taken_eq, rfl⟩ hf count
  · simp only [hx, hy]
    rcases delivery with ⟨bytes, _ | failure⟩ <;>
      exact .inl ⟨_, _, _, rfl, rfl, hv'.source, hv'.left_eq, hv'.taken_eq, Prod.ext rfl hhandlers⟩
  · simp only [hx, hy]
    exact .inr ⟨_, _, rfl, hfeed, .inl ⟨rfl, not_cut_stream _⟩⟩

-- ---------------------------------------------------------------------------
-- Values
-- ---------------------------------------------------------------------------

theorem breaks_text (hf : fault ≠ .interrupted) (config : DecodeConfig) (field : Field Ref) :
    Breaks fault behind (text config field : Decode Patient S Unit) := by
  refine (stops_onWire (Wire.breaks_readLength hf)).bind fun length => stops_get (fun x => ?_) ?_
  · refine stops_unless ((breaks_fill hf 0 length).bind fun _ => (stops_onBlock _).bind fun _ => ?_)
    refine stops_get (fun _ => stops_ite (fun _ => stops_throw _) fun _ => stops_pure ()) fun x y _ hrest => ?_
    rw [show x.block = y.block from (Prod.mk.inj hrest).1]
  · intro x y _ hrest
    rw [show x.block = y.block from (Prod.mk.inj hrest).1]

theorem breaks_payload (hf : fault ≠ .interrupted) (field : Field Ref) :
    Breaks fault behind (payload field : Decode Patient S Unit) := by
  refine (stops_onWire (Wire.breaks_readLength hf)).bind fun length => stops_get (fun x => ?_) ?_
  · refine stops_unless (stops_unless ?_)
    exact (breaks_fill hf 4 length).bind fun _ => stops_onBlock _
  · intro x y _ hrest
    rw [show x.block = y.block from (Prod.mk.inj hrest).1]

/-- A message that has ended too early is one that was not read to its end. -/
theorem breaks_whole {message : Decode Patient S Unit} (h : Stops fault behind (fun _ => True) message) (length : Nat) :
    Breaks fault behind (whole length message) := by
  refine h.then (fun _ => stops_get (fun x => stops_ite (fun _ => stops_throw _) fun _ => stops_pure ()) ?_) ?_
  · intro x y hleft _
    rw [Reader.input_decoding, Reader.input_decoding] at hleft
    dsimp only
    rw [show x.input.isExhausted = y.input.isExhausted from congrArg (· == 0) hleft, hleft]
  · intro _ y _ hleft
    have hmore : (!y.input.isExhausted) = true := by simpa [Input.isExhausted] using Nat.ne_of_gt hleft
    refine Step.Ends.bind (P := fun found last => found = y ∧ last = y) (Step.ends_get ⟨rfl, rfl⟩) ?_
    rintro _ _ ⟨rfl, rfl⟩
    rw [if_pos hmore]
    exact Step.ends_throw (not_cut_stream _)

theorem breaks_number (hf : fault ≠ .interrupted) (field : Field Ref) :
    Breaks fault behind (number field : Decode Patient S Scalar) := by
  have hread : ∀ {β : Type} {a : Wire.Read Patient β} (f : β → Scalar), Breaks fault behind a →
      Breaks fault behind (onInput (do let value ← a.mapFailure .wire; pure (f value)) : Decode Patient S Scalar) :=
    fun f h => stops_onInput ((h.mapFailure rfl cut_wire).bind fun _ => stops_pure _)
  obtain ⟨-, f, hform⟩ | ⟨-, f, hform⟩ | ⟨-, f, hform⟩ | ⟨-, f, hform⟩ | ⟨-, hform⟩ := readScalar_forms field <;>
    rw [number, hform Patient]
  · exact hread f (Wire.breaks_readVarint hf)
  · exact hread f (Wire.breaks_readZigZag hf)
  · exact hread f (Wire.breaks_readFixed32 hf)
  · exact hread f (Wire.breaks_readFixed64 hf)
  · exact stops_onInput (stops_throw _)

variable {schema : Schema Ref} {config : DecodeConfig} {nested : Ref → Decode Patient S Unit} {table : Table Ref}
  {field : Field Ref} {ref : Ref}

/-- The messages of a field stop at the fault. -/
def NestsStop (fault : Fault) (behind : Feed) (nested : Ref → Decode Patient S Unit) (field : Field Ref) : Prop :=
  ∀ inner, field.kind = .message inner → Stops fault behind (fun _ => True) (nested inner)

theorem breaks_value (hf : fault ≠ .interrupted) (hn : NestsStop fault behind nested field) :
    Breaks fault behind (value config nested field) := by
  unfold value
  split
  · exact breaks_text hf config field
  · exact breaks_payload hf field
  · next inner hk =>
    exact (stops_onWire (Wire.breaks_readLength hf)).bind fun length =>
      breaks_within length (breaks_whole (hn inner hk) length)
  · exact (breaks_number hf field).bind fun _ => stops_onBlock _

theorem breaks_nextElement (field : Field Ref) : Breaks fault behind (nextElement field : Decode Patient S Nat) :=
  (stops_onBlock _).bind fun _ => stops_unless (stops_pure _)

theorem breaks_packedElements (hf : fault ≠ .interrupted) (field : Field Ref) (room : Nat) :
    Breaks fault behind (packedElements field room : Decode Patient S Unit) := by
  induction room with
  | zero => exact stops_pure ()
  | succ room ih =>
    refine stops_get (fun x => stops_ite (fun _ => stops_pure ()) fun _ => ?_) ?_
    · refine (breaks_nextElement field).bind fun count => (breaks_number hf field).bind fun scalar => ?_
      exact (stops_onBlock _).bind fun _ => (stops_onBlock _).bind fun _ => ih
    · intro x y hleft _
      rw [show x.input.isExhausted = y.input.isExhausted from congrArg (· == 0) hleft]

theorem breaks_element (hf : fault ≠ .interrupted) (hn : NestsStop fault behind nested field) :
    Breaks fault behind (element schema config nested field) := by
  have hvalue : Breaks fault behind (value config nested field) := breaks_value hf hn
  unfold element
  generalize value config nested field = step at hvalue
  refine (breaks_nextElement field).bind fun count => Stops.bind (breaks_inside field _ ?_) fun _ => stops_onBlock _
  split
  · exact (stops_onBlock _).bind fun _ => hvalue
  · exact hvalue

theorem breaks_stored (hf : fault ≠ .interrupted) (hn : NestsStop fault behind nested field) (type : WireType) :
    Breaks fault behind (stored schema config nested table field type) := by
  have hinside : Breaks fault behind (inside field field.data (value config nested field)) :=
    breaks_inside field _ (breaks_value hf hn)
  unfold stored
  split
  · refine stops_ite (fun _ => ?_) fun _ => breaks_element hf hn
    exact (stops_onWire (Wire.breaks_readLength hf)).bind fun length =>
      breaks_within length (breaks_packedElements hf field length)
  · refine (stops_onBlock _).bind fun active => stops_ite (fun _ => ?_) fun _ => hinside
    exact (stops_onBlock _).bind fun _ => hinside
  · exact hinside.bind fun _ => stops_ite (fun _ => stops_onBlock _) fun _ => stops_pure ()
  · exact hinside

-- ---------------------------------------------------------------------------
-- Messages
-- ---------------------------------------------------------------------------

variable [Handler Ref S] {depth : Nat}

theorem breaks_record (hf : fault ≠ .interrupted) {number : Nat} {found : Option (Entry Ref)} (type : WireType)
    (hn : ∀ entry, found = some entry → entry.field.isHandled = false ∧ NestsStop fault behind nested entry.field) :
    Breaks fault behind (record schema config nested depth table type number found) := by
  have hskip : Breaks fault behind (do skipValue number type; pure none : Decode Patient S (Option Nat)) :=
    (breaks_skipValue hf number type).bind fun _ => stops_pure none
  unfold record
  split
  · exact stops_unless hskip
  · next entry =>
    obtain ⟨hhandled, hnests⟩ := hn entry rfl
    refine stops_ite (fun _ => ?_) fun _ => stops_unless hskip
    simp only [hhandled, Bool.false_eq_true, if_false]
    exact (breaks_stored hf hnests type).bind fun _ => stops_pure _

theorem stops_walk (hf : fault ≠ .interrupted) (hu : table.Unhandled)
    (hn : ∀ field ∈ table.fields, NestsStop fault behind nested field) (room : Nat) (cursor : Cursor)
    (seen : List Nat) :
    Stops fault behind (fun _ => True) (walk schema config nested depth table room cursor seen) := by
  induction room generalizing cursor seen with
  | zero => exact stops_pure seen
  | succ room ih =>
    refine (stops_onWire (Wire.stops_readTag hf)).then (fun header => ?_) ?_
    · match header with
      | none => exact stops_pure seen
      | some (number, type) =>
        refine (breaks_record hf type fun entry hentry => ?_).bind fun mark => ih _ _
        have hmem := Cursor.mem_of_findWithin (Prod.ext hentry rfl)
        exact ⟨hu _ hmem, hn _ hmem⟩
    · rintro _ y rfl hleft
      exact Step.ends_pure ⟨trivial, hleft⟩

theorem stops_messageWithin (hf : fault ≠ .interrupted) (levels : Nat) {ref : Ref}
    (hu : schema.Throughout Table.Unhandled ref) :
    Stops fault behind (fun _ => True) (messageWithin schema config levels ref : Decode Patient S Unit) := by
  induction levels generalizing ref with
  | zero => exact stops_throw _
  | succ levels ih =>
    refine (stops_onBlock _).bind fun _ => stops_get (fun x => ?_) ?_
    · rw [fields_eq_walk]
      refine (stops_walk hf hu.here ?_ _ _ _).then (fun seen => ?_) ?_
      · exact fun field hfield inner hk => ih (hu.nested (Table.mem_nested hfield (hu.here field hfield) hk))
      · unfold checkRequired
        split
        · exact stops_pure ()
        · exact stops_throw _
      · intro seen y _ hleft
        unfold checkRequired
        split
        · exact Step.ends_pure ⟨trivial, hleft⟩
        · exact Step.ends_throw fun h => by cases h
    · intro x y hleft _
      rw [Reader.input_decoding, Reader.input_decoding] at hleft
      simp only [hleft]

theorem stops_decodeMessage (hf : fault ≠ .interrupted) (hu : schema.Throughout Table.Unhandled ref) :
    Stops fault behind (fun _ => True) (decodeMessage schema config ref : Decode Patient S Unit) :=
  (stops_onBlock _).bind fun _ => stops_messageWithin hf _ hu

end Decode

variable {S Ref : Type} [Handler Ref S] {schema : Schema Ref} {ref : Ref}

/-- Decoding that comes to a fault of the device ends with it, and tells it, unless it stands within a
number: a number that would be cut off were the device to end there is called malformed. Decoding that does
not come to the fault ends as it would without it. -/
theorem faults_told (hu : schema.Throughout Table.Unhandled ref) (config : DecodeConfig) (block : Bytes)
    (handlers : List S) {fault : Fault} (hf : fault ≠ .interrupted) (front behind : Feed) :
    let decode : Decode Patient S Unit := decodeMessage schema config ref
    let faulty := decode.result ⟨.unbounded ⟨front ++ .fault fault :: behind⟩, block, handlers⟩
    let ended := decode.result ⟨.unbounded ⟨front⟩, block, handlers⟩
    (faulty.2.input.source.feed = behind ∧ ∃ failure, faulty.1 = .error failure ∧
      (failure = .wire .malformedVarint ∧ ended.1 = .error (.wire .malformedVarint) ∨
        failure = .wire (.stream (.device fault)) ∧ failure.errorClass = .io ∧
          ended.1 ≠ .error (.wire .malformedVarint))) ∨
    ∃ rest, faulty.2.input.source.feed = rest ++ .fault fault :: behind ∧ faulty.1 = ended.1 ∧
      faulty.2.block = ended.2.block := by
  intro decode faulty ended
  have hv : Verges fault behind (⟨.unbounded ⟨front ++ .fault fault :: behind⟩, block, handlers⟩ : Decoding Patient S)
      ⟨.unbounded ⟨front⟩, block, handlers⟩ := ⟨⟨front, rfl, rfl⟩, rfl, rfl, rfl⟩
  have hstops : Stops fault behind (fun _ => True) decode := Decode.stops_decodeMessage hf hu
  obtain ⟨outcome, x', y', hx, hy, hv'⟩ | ⟨failure, x', hx, hfeed, hother⟩ := hstops hv
  · obtain ⟨rest, hrest, -⟩ := hv'.source
    rw [Reader.input_decoding] at hrest
    simp only [faulty, ended, hx, hy]
    exact .inr ⟨rest, by rw [hrest], trivial, (Prod.mk.inj hv'.rest_eq).1⟩
  · simp only [faulty, ended, hx]
    refine .inl ⟨hfeed, failure, rfl, ?_⟩
    rcases hother with ⟨rfl, hends⟩ | ⟨rfl, hy⟩
    · exact .inr ⟨rfl, rfl, fun hcut => hends.error (Prod.ext hcut rfl) rfl⟩
    · exact .inl ⟨rfl, hy⟩

/-- A letter over a device that fails behind the header of its stamp. -/
theorem faults_told_letter :
    let decode : Decode Patient Empty Unit := decodeMessage letter {} false
    let faulty := decode.result ⟨.unbounded ⟨[.chunk [0x08, 0x05, 0x22], .fault .other, .chunk [0x00]]⟩,
      Bytes.zeros 26, []⟩
    letter.Throughout Table.Unhandled false ∧ Fault.other ≠ .interrupted ∧
      faulty.2.input.source.feed = [.chunk [0x00]] ∧
      faulty.1 = .error (.wire (.stream (.device .other))) ∧
      CodecError.errorClass (.wire (.stream (.device .other))) = .io := by
  have hfault : Fault.other ≠ .interrupted := by decide
  have hended : ((decodeMessage letter {} false : Decode Patient Empty Unit).result
      ⟨.unbounded ⟨[.chunk [0x08, 0x05, 0x22]]⟩, Bytes.zeros 26, []⟩).1 =
        .error (.wire (.stream (.endOfStream 1 0))) := by cbv
  obtain ⟨hfeed, failure, hfailure, hcut | ⟨rfl, hclass, -⟩⟩ | ⟨rest, -, hsame, -⟩ :=
    faults_told (letter_unhandled false) {} (Bytes.zeros 26) ([] : List Empty) hfault
      [.chunk [0x08, 0x05, 0x22]] [.chunk [0x00]]
  · rw [hended] at hcut
    cases hcut.2
  · exact ⟨letter_unhandled false, hfault, hfeed, hfailure, hclass⟩
  · rw [hended] at hsame
    have hfaulty : ((decodeMessage letter {} false : Decode Patient Empty Unit).result
        ⟨.unbounded ⟨[.chunk [0x08, 0x05, 0x22], .fault .other, .chunk [0x00]]⟩, Bytes.zeros 26, []⟩).1 =
          .error (.wire (.stream (.device .other))) := by cbv
    cases hfaulty.symm.trans hsame

/-- Behind the first byte of a number the fault is lost: decoding ends with it and calls the number
malformed. -/
theorem fault_lost_in_number :
    let decode : Decode Patient Empty Unit := decodeMessage letter {} false
    let faulty := decode.result ⟨.unbounded ⟨[.chunk [0x08, 0x80], .fault .other]⟩, Bytes.zeros 26, []⟩
    letter.Throughout Table.Unhandled false ∧ faulty.2.input.source.feed = [] ∧
      faulty.1 = .error (.wire .malformedVarint) ∧
      CodecError.errorClass (.wire .malformedVarint) ≠ .io ∧
      faulty.1 ≠ .error (.wire (.stream (.device .other))) := by
  have hfaulty : (decodeMessage letter {} false : Decode Patient Empty Unit).result
      ⟨.unbounded ⟨[.chunk [0x08, 0x80], .fault .other]⟩, Bytes.zeros 26, []⟩ =
        (.error (.wire .malformedVarint), ⟨⟨⟨[]⟩, maxSize - 2, 2, false⟩, Bytes.zeros 26, []⟩) := by cbv
  simp only [hfaulty]
  exact ⟨letter_unhandled false, trivial, trivial, by decide, fun h => by cases h⟩

end BlockCodec
