import BlockCodec.Proofs.Pieces
import BlockCodec.Proofs.Sizing

/-!
# Two passes over a message

A message behind its length is encoded twice: once to learn the length, once into an output of just that
length. Between the passes a handler may change its mind. `Pass.Within` are the passes that a run is made
of, and what becomes of one of them becomes of the whole run. So whatever handlers do, a length that has
been written is that of the bytes behind it, or the run ends in a mismatch: `prefixes_hold`.
-/

namespace BlockCodec

variable {κ S Ref α s ε : Type}

-- ---------------------------------------------------------------------------
-- Steps in a row
-- ---------------------------------------------------------------------------

namespace Step

variable {f : α → Step s ε Unit} {before rest list : List α} {a : α} {state here after : s} {failure : ε}

theorem result_forM_append (h : (forM before f).result state = (.ok (), here)) (rest : List α) :
    (forM (before ++ rest) f).result state = (forM rest f).result here := by
  rw [List.forM_append, result_bind_ok h]

theorem result_forM_cons_error (h : (f a).result here = (.error failure, after)) (rest : List α) :
    (forM (a :: rest) f).result here = (.error failure, after) := by
  rw [List.forM_cons, result_bind_error h]

/-- What fails in a row is one of its steps, and those before it have gone well. -/
theorem forM_eq_error (h : (forM list f).result state = (.error failure, after)) :
    ∃ before a rest here, list = before ++ a :: rest ∧ (forM before f).result state = (.ok (), here) ∧
      (f a).result here = (.error failure, after) := by
  induction list generalizing state with
  | nil => cases h
  | cons a list ih =>
    rw [List.forM_cons] at h
    rcases hr : (f a).result state with ⟨outcome, middle⟩
    cases outcome with
    | error other =>
      rw [result_bind_error hr] at h
      cases h
      exact ⟨[], a, list, state, rfl, rfl, hr⟩
    | ok _ =>
      rw [result_bind_ok hr] at h
      obtain ⟨before, b, rest, here, rfl, hbefore, hb⟩ := ih h
      refine ⟨a :: before, b, rest, here, rfl, ?_, hb⟩
      rw [List.forM_cons, result_bind_ok hr, hbefore]

end Step

-- ---------------------------------------------------------------------------
-- A message behind its length
-- ---------------------------------------------------------------------------

namespace Output

theorem isSizing_write [Sink κ] (content : Bytes) (output : Output κ) :
    ((write content).result output).2.isSizing = output.isSizing := by
  rcases output with ⟨_ | sink, limit, written⟩
  · rfl
  · simp only [write, Step.result_ofRun]
    split
    · rfl
    · rcases Sink.write sink content with ⟨_ | _, _⟩ <;> rfl

variable {output inner : Output κ} {size : Nat} {sink : κ} {failure : StreamError}

theorem narrow_of_le (hs : output.sink = some sink) (hle : size ≤ output.remaining) :
    output.narrow size = .ok (.ofSink sink size) := by
  simp only [narrow, hs, Nat.not_lt.mpr hle, if_false]

theorem narrow_of_lt (hs : output.sink = some sink) (hlt : output.remaining < size) :
    output.narrow size = .error (.limitExceeded size output.remaining) := by
  simp only [narrow, hs, hlt, if_true]

theorem narrow_eq_ok (h : output.narrow size = .ok inner) (hs : output.isSizing = false) :
    ∃ sink, output.sink = some sink ∧ size ≤ output.remaining ∧ inner = .ofSink sink size := by
  obtain ⟨sink, hsome⟩ := Option.isSome_iff_exists.mp (Option.isNone_eq_false_iff.mp hs)
  rcases Nat.lt_or_ge output.remaining size with hlt | hle
  · rw [narrow_of_lt hsome hlt] at h
    cases h
  · rw [narrow_of_le hsome hle] at h
    cases h
    exact ⟨sink, hsome, hle, rfl⟩

/-- What does not fit is refused. -/
theorem narrow_eq_error (h : output.narrow size = .error failure) :
    output.remaining < size ∧ failure = .limitExceeded size output.remaining := by
  cases hs : output.sink with
  | none => simp [narrow, hs] at h
  | some sink =>
    rcases Nat.lt_or_ge output.remaining size with hlt | hle
    · rw [narrow_of_lt hs hlt] at h
      cases h
      exact ⟨hlt, rfl⟩
    · rw [narrow_of_le hs hle] at h
      cases h

end Output

namespace Encode

/-- What the end of a second pass means for the message: it is as long as measured, or that is a
mismatch, and so is crossing the limit. -/
def closing (label : String) (size : Nat) (outcome : Except CodecError Unit) (written : Nat) :
    Except CodecError Unit :=
  match outcome with
  | .ok () => if written = size then .ok () else .error (.sizeMismatch label size written)
  | .error (.wire (.stream (.limitExceeded requested _))) =>
    .error (.sizeMismatch label size (written + requested))
  | .error failure => .error failure

section

variable {label : String} {size written : Nat} {outcome : Except CodecError Unit} {failure : CodecError}

theorem closing_eq_ok (h : closing label size outcome written = .ok ()) : outcome = .ok () ∧ written = size := by
  unfold closing at h
  split at h
  · split at h
    · next heq => exact ⟨rfl, heq⟩
    · cases h
  · cases h
  · cases h

/-- The end of a second pass is never told as a limit that was crossed. -/
theorem not_isLimit_of_closing (h : closing label size outcome written = .error failure) :
    ¬failure.IsLimit := by
  rintro ⟨requested, left, rfl⟩
  unfold closing at h
  split at h
  · split at h <;> cases h
  · cases h
  · next hne =>
    cases h
    exact hne requested left rfl

theorem closing_of_error (hlimit : ¬failure.IsLimit) :
    closing label size (.error failure) written = .error failure := by
  unfold closing
  split
  · next h => cases h
  · next requested left h =>
    cases h
    exact absurd ⟨requested, left, rfl⟩ hlimit
  · next h =>
    cases h
    rfl

end

theorem result_bytes [Sink κ] (content : Bytes) (state : Encoding κ S) :
    (onOutput (Chunk.bytes content).perform).result state =
      let write := (Output.write content).result state.output
      ((write.1.mapError .stream).mapError .wire, { state with output := write.2 }) := rfl

variable {here : Encoding κ S} {label : String} {size : Nat} {message : Encode κ S Unit}

theorem result_rewalk {output : Output κ} (hn : here.output.narrow size = .ok output) :
    Step.result (do
      let written ← within size (remeasured label size message)
      if written ≠ size then throw (CodecError.sizeMismatch label size written)) here =
        let second := message.result { here with output }
        (closing label size second.1 second.2.output.written,
          { second.2 with output := here.output.rejoin second.2.output }) := by
  have hwithin : (within size (remeasured label size message)).result here =
      let second := (remeasured label size message).result { here with output }
      (second.1, { second.2 with output := here.output.rejoin second.2.output }) := by
    rw [within, Step.result_ofRun, hn]
  rw [Step.result_bind, hwithin, remeasured, Step.result_ofRun]
  rcases message.result { here with output } with ⟨outcome, after⟩
  unfold closing
  cases outcome with
  | ok _ => by_cases hsize : after.output.written = size <;> simp [hsize]
  | error failure =>
    -- only a limit that was crossed is told otherwise
    cases failure with
    | wire failure =>
      cases failure with
      | stream failure => cases failure <;> rfl
      | _ => rfl
    | _ => rfl

variable [Sink κ]

theorem result_writeVarint (value : UInt64) (state : Encoding κ S) :
    (onWire (Wire.writeVarint value)).result state =
      let written := (Output.write (Varint.encode value)).result state.output
      (written.1.mapError .stream, { state with output := written.2 }) := by
  simp only [onWire, onOutput, Wire.writeVarint, Wire.write, Step.result_onPart, Step.result_mapFailure]
  cases ((Output.write (Varint.encode value)).result state.output).1 <;> rfl

/-- How a message behind its length goes, first pass and second pass. -/
theorem result_sized :
    (sized label message).result here =
      let first := message.result { here with output := .sizing }
      match first.1 with
      | .error failure => (.error failure, { first.2 with output := here.output })
      | .ok () =>
        let size := first.2.output.written
        match (Output.write (Varint.encode (UInt64.ofNat size))).result here.output with
        | (.error failure, output) => (.error (.stream failure), { first.2 with output })
        | (.ok (), output) =>
          if output.isSizing then (.ok (), { first.2 with output := output.charge size })
          else
            match output.narrow size with
            | .error failure => (.error (.stream failure), { first.2 with output })
            | .ok inner =>
              let second := message.result { first.2 with output := inner }
              (closing label size second.1 second.2.output.written,
                { second.2 with output := output.rejoin second.2.output }) := by
  have hmeasure : (measure message).result here =
      let first := message.result { here with output := .sizing }
      (first.1.map fun _ => first.2.output.written, { first.2 with output := here.output }) := rfl
  rw [sized]
  rcases hfirst : message.result { here with output := .sizing } with ⟨_ | _, last⟩
  · rw [hfirst] at hmeasure
    exact Step.result_bind_error hmeasure
  rw [hfirst] at hmeasure
  rw [Step.result_bind_ok hmeasure]
  have hlength := result_writeVarint (UInt64.ofNat last.output.written) { last with output := here.output }
  rcases hwrite : (Output.write (Varint.encode (UInt64.ofNat last.output.written))).result here.output with
    ⟨_ | _, output⟩
  · rw [hwrite] at hlength
    simp only [hwrite]
    exact Step.result_bind_error hlength
  rw [hwrite] at hlength
  simp only [hwrite]
  rw [Step.result_bind_ok hlength, Step.result_bind_ok (Step.result_get _)]
  cases hs : output.isSizing with
  | true => simp [onWire, onOutput, Output.skip, hs, Except.mapError]
  | false =>
    simp only [Bool.false_eq_true, if_false]
    cases hn : output.narrow last.output.written with
    | error failure =>
      refine Step.result_bind_error ?_
      rw [within, Step.result_ofRun, hn]
    | ok inner => exact result_rewalk hn

/-- A message that is accepted was measured, and then counted, or written just so long. -/
theorem sized_ok {after : Encoding κ S} (h : (sized label message).result here = (.ok (), after)) :
    ∃ last output, message.result { here with output := .sizing } = (.ok (), last) ∧
      (Output.write (Varint.encode (UInt64.ofNat last.output.written))).result here.output = (.ok (), output) ∧
      (output.isSizing = true ∧ after.output = output.charge last.output.written ∨
        output.isSizing = false ∧ ∃ inner exit, output.narrow last.output.written = .ok inner ∧
          message.result { last with output := inner } = (.ok (), exit) ∧
          exit.output.written = last.output.written ∧ after.output = output.rejoin exit.output) := by
  rw [result_sized] at h
  rcases hfirst : message.result { here with output := .sizing } with ⟨_ | _, last⟩
  · rw [hfirst] at h
    cases h
  rw [hfirst] at h
  rcases hwrite : (Output.write (Varint.encode (UInt64.ofNat last.output.written))).result here.output with
    ⟨_ | _, output⟩
  · simp [hwrite] at h
  refine ⟨last, output, rfl, hwrite, ?_⟩
  simp only [hwrite] at h
  cases hs : output.isSizing with
  | true =>
    rw [hs, if_pos rfl] at h
    cases h
    exact .inl ⟨rfl, rfl⟩
  | false =>
    refine .inr ⟨rfl, ?_⟩
    cases hn : output.narrow last.output.written with
    | error failure => simp [hs, hn] at h
    | ok inner =>
      rcases hsecond : message.result { last with output := inner } with ⟨outcome, exit⟩
      simp only [hs, hn, Bool.false_eq_true, if_false, hsecond] at h
      obtain ⟨hclosing, rfl⟩ := Prod.mk.inj h
      obtain ⟨rfl, hsize⟩ := closing_eq_ok hclosing
      exact ⟨inner, exit, rfl, hsecond, hsize, rfl⟩

end Encode

-- ---------------------------------------------------------------------------
-- Passes
-- ---------------------------------------------------------------------------

/-- A pass over pieces, from a state. -/
structure Pass (κ S Ref : Type) where
  levels : Nat
  pieces : List (Piece Ref)
  start : Encoding κ S

/-- How the message of a call is put: as it is, or behind its length. -/
inductive Framing
  | bare
  | delimited
deriving Repr, DecidableEq

def Framing.encode [Sink κ] [Handler Ref S] (schema : Schema Ref) (config : EncodeConfig) (ref : Ref)
    (block : Bytes) : Framing → Encode κ S Unit
  | .bare => encodeMessage schema config ref block
  | .delimited => encodeDelimited schema config ref block

namespace Pass

section

variable (schema : Schema Ref) (config : EncodeConfig)

/-- A pass over a message. -/
def ofMessage (levels : Nat) (ref : Ref) (block : Bytes) (start : Encoding κ S) : Pass κ S Ref :=
  ⟨levels - 1, schema.pieces config levels ref block, start⟩

/-- A pass that only counts, from where a message is to be written. -/
def measuring (levels : Nat) (ref : Ref) (block : Bytes) (here : Encoding κ S) : Pass κ S Ref :=
  ofMessage schema config levels ref block { here with output := .sizing }

/-- The pass that a call makes. -/
def call (framing : Framing) (ref : Ref) (block : Bytes) (start : Encoding κ S) : Pass κ S Ref :=
  match framing with
  | .bare => ofMessage schema config (config.maxDepth + 1) ref block start
  | .delimited => ⟨config.maxDepth + 1, [.message (schema ref).name ref block], start⟩

variable [Sink κ] [Handler Ref S]

def result (pass : Pass κ S Ref) : Except CodecError Unit × Encoding κ S :=
  Step.result (forM pass.pieces (Piece.perform schema config pass.levels)) pass.start

/-- The pass does these pieces, and `here` is where it stands then. -/
def Does (pass : Pass κ S Ref) (pieces : List (Piece Ref)) (here : Encoding κ S) : Prop :=
  Step.result (forM pieces (Piece.perform schema config pass.levels)) pass.start = (.ok (), here)

/-- The pass gets as far as this piece. -/
def ComesTo (pass : Pass κ S Ref) (piece : Piece Ref) (here : Encoding κ S) : Prop :=
  ∃ before rest, pass.pieces = before ++ piece :: rest ∧ pass.Does schema config before here

/-- A message is measured and its length is written, and `entry` is where the second pass begins. -/
def Enters (levels : Nat) (ref : Ref) (block : Bytes) (here : Encoding κ S) (size : Nat)
    (entry : Encoding κ S) : Prop :=
  ∃ last output, (measuring schema config levels ref block here).result schema config =
      (.ok (), last) ∧
    last.output.written = size ∧
    (Output.write (Varint.encode (UInt64.ofNat size))).result here.output = (.ok (), output) ∧
    output.isSizing = false ∧ output.narrow size = .ok entry.output ∧ entry.handlers = last.handlers

/-- The second pass does not come to what was measured: it ends with another count, or in a limit. -/
def Strays (levels : Nat) (ref : Ref) (block : Bytes) (size : Nat) (entry : Encoding κ S) : Prop :=
  let second := (ofMessage schema config levels ref block entry).result schema config
  second.1 = .ok () ∧ second.2.output.written ≠ size ∨
    ∃ failure, second.1 = .error failure ∧ failure.IsLimit

/-- The passes over messages in a run, at any depth. -/
inductive Within (root : Pass κ S Ref) : Pass κ S Ref → Prop
  | root : Within root root
  | sizing {pass : Pass κ S Ref} {label : String} {ref : Ref} {block : Bytes} {here : Encoding κ S} :
    Within root pass → pass.ComesTo schema config (.message label ref block) here →
      Within root (measuring schema config pass.levels ref block here)
  | writing {pass : Pass κ S Ref} {label : String} {ref : Ref} {block : Bytes}
    {here entry : Encoding κ S} {size : Nat} :
    Within root pass → pass.ComesTo schema config (.message label ref block) here →
      Enters schema config pass.levels ref block here size entry →
      Within root (ofMessage schema config pass.levels ref block entry)

end

variable [Sink κ] [Handler Ref S] {schema : Schema Ref} {config : EncodeConfig} {levels : Nat} {ref : Ref}
  {block : Bytes} {label : String} {here entry start : Encoding κ S} {root pass : Pass κ S Ref}

theorem result_ofMessage (levels : Nat) (ref : Ref) (block : Bytes) (start : Encoding κ S) :
    (ofMessage schema config levels ref block start).result schema config =
      (Encode.messageWithin schema config levels ref block).result start := by
  rw [Encode.messageWithin_eq]
  rfl

/-- How a message behind its length goes, first pass and second pass. -/
theorem result_message :
    (Piece.perform schema config levels (.message label ref block)).result here =
      let first := (measuring schema config levels ref block here).result schema config
      match first.1 with
      | .error failure => (.error failure, { first.2 with output := here.output })
      | .ok () =>
        let size := first.2.output.written
        match (Output.write (Varint.encode (UInt64.ofNat size))).result here.output with
        | (.error failure, output) => (.error (.stream failure), { first.2 with output })
        | (.ok (), output) =>
          if output.isSizing then (.ok (), { first.2 with output := output.charge size })
          else
            match output.narrow size with
            | .error failure => (.error (.stream failure), { first.2 with output })
            | .ok inner =>
              let entry := { first.2 with output := inner }
              let second := (ofMessage schema config levels ref block entry).result schema config
              (Encode.closing label size second.1 second.2.output.written,
                { second.2 with output := output.rejoin second.2.output }) := by
  simp only [measuring, result_ofMessage]
  exact Encode.result_sized

/-- The pass of a call is the call. -/
theorem result_call (framing : Framing) (ref : Ref) (block : Bytes) (start : Encoding κ S) :
    (call schema config framing ref block start).result schema config =
      (framing.encode schema config ref block).result start := by
  cases framing with
  | bare => exact result_ofMessage ..
  | delimited =>
    rw [result, call, List.forM_cons, List.forM_nil, bind_pure]
    rfl

variable {piece : Piece Ref} {size : Nat} {failure : CodecError} {after last exit : Encoding κ S}
  {outcome : Except CodecError Unit}

/-- The second pass is on an output of just the size. -/
theorem Enters.entry_output (h : Enters schema config levels ref block here size entry) :
    ∃ sink, entry.output = .ofSink sink size := by
  obtain ⟨last, output, -, -, -, hs, hn, -⟩ := h
  obtain ⟨sink, -, -, hentry⟩ := Output.narrow_eq_ok hn hs
  exact ⟨sink, hentry⟩

/-- A message that is entered ends as its second pass does. -/
theorem Enters.result (h : Enters schema config levels ref block here size entry) (label : String) :
    let second := (ofMessage schema config levels ref block entry).result schema config
    ∃ output, (Output.write (Varint.encode (UInt64.ofNat size))).result here.output = (.ok (), output) ∧
      output.narrow size = .ok entry.output ∧
      (Piece.perform schema config levels (.message label ref block)).result here =
        (Encode.closing label size second.1 second.2.output.written,
          { second.2 with output := output.rejoin second.2.output }) := by
  obtain ⟨last, output, hfirst, rfl, hwrite, hs, hn, hhandlers⟩ := h
  have hentry : { last with output := entry.output } = entry := by rw [← hhandlers]
  refine ⟨output, hwrite, hn, ?_⟩
  rw [result_message, hfirst]
  simp only [hwrite, hs, hn, Bool.false_eq_true, if_false, hentry]

theorem Strays.closing (h : Strays schema config levels ref block size entry) (label : String) :
    let second := (ofMessage schema config levels ref block entry).result schema config
    ∃ actual, Encode.closing label size second.1 second.2.output.written =
      .error (.sizeMismatch label size actual) := by
  obtain ⟨hok, hne⟩ | ⟨failure, herror, requested, left, rfl⟩ := h
  · exact ⟨_, by rw [hok, Encode.closing, if_neg hne]⟩
  · exact ⟨_, by rw [herror, Encode.closing]⟩

/-- A message that is written and accepted has been entered. -/
theorem message_ok (h : (Piece.perform schema config levels (.message label ref block)).result here =
    (.ok (), after)) (hs : here.output.isSizing = false) :
    ∃ size entry, Enters schema config levels ref block here size entry := by
  obtain ⟨last, output, hfirst, hwrite, ⟨hsizing, -⟩ | ⟨-, inner, exit, hn, -⟩⟩ := Encode.sized_ok h
  all_goals
    have hsame := Output.isSizing_write (Varint.encode (UInt64.ofNat last.output.written)) here.output
    rw [hwrite, hs] at hsame
  · cases hsizing.symm.trans hsame
  · rw [← result_ofMessage] at hfirst
    exact ⟨_, { last with output := inner }, last, output, hfirst, rfl, hwrite, hsame, hn, rfl⟩

/-- A message fails in its first pass, in front of its second pass, or as this ends. -/
theorem message_error (h : (Piece.perform schema config levels (.message label ref block)).result here =
    (.error failure, after)) :
    ((measuring schema config levels ref block here).result schema config).1 = .error failure ∨
    (∃ last, (measuring schema config levels ref block here).result schema config = (.ok (), last) ∧
      ∃ refusal, failure = .stream refusal ∧
        ((Output.write (Varint.encode (UInt64.ofNat last.output.written))).result here.output =
            (.error refusal, after.output) ∨
          (Output.write (Varint.encode (UInt64.ofNat last.output.written))).result here.output =
              (.ok (), after.output) ∧ after.output.isSizing = false ∧
            after.output.narrow last.output.written = .error refusal)) ∨
    ∃ size entry outcome exit, Enters schema config levels ref block here size entry ∧
      (ofMessage schema config levels ref block entry).result schema config = (outcome, exit) ∧
      Encode.closing label size outcome exit.output.written = .error failure := by
  rw [result_message] at h
  rcases hfirst : (measuring schema config levels ref block here).result schema config with ⟨_ | _, last⟩
  · rw [hfirst] at h
    cases h
    exact .inl rfl
  rw [hfirst] at h
  rcases hwrite : (Output.write (Varint.encode (UInt64.ofNat last.output.written))).result here.output with
    ⟨refusal | _, output⟩
  · simp only [hwrite] at h
    cases h
    exact .inr (.inl ⟨last, rfl, refusal, rfl, .inl hwrite⟩)
  simp only [hwrite] at h
  cases hs : output.isSizing with
  | true => simp [hs] at h
  | false =>
    cases hn : output.narrow last.output.written with
    | error refusal =>
      simp only [hs, hn, Bool.false_eq_true, if_false] at h
      cases h
      exact .inr (.inl ⟨last, rfl, refusal, rfl, .inr ⟨hwrite, hs, hn⟩⟩)
    | ok inner =>
      simp only [hs, hn, Bool.false_eq_true, if_false] at h
      exact .inr (.inr ⟨_, { last with output := inner }, _, _,
        ⟨last, output, hfirst, rfl, hwrite, hs, hn, rfl⟩, rfl, (Prod.mk.inj h).1⟩)

-- ---------------------------------------------------------------------------
-- From a pass to the run
-- ---------------------------------------------------------------------------

theorem ComesTo.fails (h : pass.ComesTo schema config piece here)
    (hr : (Piece.perform schema config pass.levels piece).result here = (.error failure, after)) :
    pass.result schema config = (.error failure, after) := by
  obtain ⟨before, rest, hpieces, hbefore⟩ := h
  rw [result, hpieces, Step.result_forM_append hbefore]
  exact Step.result_forM_cons_error hr rest

/-- A pass that is done has done every piece that it came to. -/
theorem ComesTo.goes (h : pass.ComesTo schema config piece here)
    (hr : pass.result schema config = (.ok (), last)) :
    ∃ (next : Encoding κ S) (rest : List (Piece Ref)),
      (Piece.perform schema config pass.levels piece).result here = (.ok (), next) ∧
      Step.result (forM rest (Piece.perform schema config pass.levels)) next = (.ok (), last) := by
  obtain ⟨before, rest, hpieces, hbefore⟩ := h
  rw [result, hpieces, Step.result_forM_append hbefore, List.forM_cons] at hr
  obtain ⟨_, next, hpiece, hrest⟩ := Step.result_bind_eq_ok.mp hr
  exact ⟨next, rest, hpiece, hrest⟩

/-- A pass that is done has come to every piece. -/
theorem comesTo_of_ok {before rest : List (Piece Ref)} (hpieces : pass.pieces = before ++ piece :: rest)
    (hr : pass.result schema config = (.ok (), last)) : ∃ here, pass.Does schema config before here := by
  rw [result, hpieces, List.forM_append] at hr
  obtain ⟨_, here, hbefore, -⟩ := Step.result_bind_eq_ok.mp hr
  exact ⟨here, hbefore⟩

/-- What goes wrong in a first pass goes wrong with the message. -/
theorem message_of_measuring (label : String)
    (h : ((measuring schema config levels ref block here).result schema config).1 = .error failure) :
    ∃ after, (Piece.perform schema config levels (.message label ref block)).result here =
      (.error failure, after) := by
  simp only [result_message, h]
  exact ⟨_, rfl⟩

/-- Whatever goes wrong in a pass ends the run, unless it is a limit that was crossed. -/
theorem Within.fails (h : Within schema config root pass) (hr : (pass.result schema config).1 = .error failure)
    (hlimit : ¬failure.IsLimit) : (root.result schema config).1 = .error failure := by
  induction h with
  | root => exact hr
  | sizing _ hcomes ih =>
    obtain ⟨after, hmessage⟩ := message_of_measuring _ hr
    exact ih (congrArg Prod.fst (hcomes.fails hmessage))
  | @writing _ label _ _ _ _ _ _ hcomes henters ih =>
    obtain ⟨output, -, -, hmessage⟩ := henters.result label
    rw [hr, Encode.closing_of_error hlimit] at hmessage
    exact ih (congrArg Prod.fst (hcomes.fails hmessage))

/-- A second pass that strays from what was measured ends the run in a mismatch. -/
theorem Within.mismatches (h : Within schema config root pass)
    (hcomes : pass.ComesTo schema config (.message label ref block) here)
    (henters : Enters schema config pass.levels ref block here size entry)
    (hstrays : Strays schema config pass.levels ref block size entry) :
    ∃ actual, (root.result schema config).1 = .error (.sizeMismatch label size actual) := by
  obtain ⟨output, -, -, hmessage⟩ := henters.result label
  obtain ⟨actual, hclosing⟩ := hstrays.closing label
  rw [hclosing] at hmessage
  refine ⟨actual, h.fails (congrArg Prod.fst (hcomes.fails hmessage)) ?_⟩
  exact Encode.not_isLimit_of_closing hclosing

/-- In a run that goes well, every pass does. -/
theorem Within.goes (h : Within schema config root pass) (hr : (root.result schema config).1 = .ok ()) :
    (pass.result schema config).1 = .ok () := by
  induction h with
  | root => exact hr
  | @sizing pass label ref block here _ hcomes ih =>
    obtain ⟨next, rest, hmessage, -⟩ := hcomes.goes (Prod.ext ih rfl)
    cases hfirst : ((measuring schema config pass.levels ref block here).result schema config).1 with
    | ok _ => rfl
    | error failure =>
      obtain ⟨after, hfails⟩ := message_of_measuring label hfirst
      rw [hmessage] at hfails
      cases hfails
  | @writing pass label ref block here entry size _ hcomes henters ih =>
    obtain ⟨next, rest, hmessage, -⟩ := hcomes.goes (Prod.ext ih rfl)
    obtain ⟨output, -, -, hsecond⟩ := henters.result label
    rw [hmessage] at hsecond
    exact (Encode.closing_eq_ok (Prod.mk.inj hsecond).1.symm).1

end Pass

end BlockCodec
