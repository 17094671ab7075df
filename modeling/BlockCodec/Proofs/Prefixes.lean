import BlockCodec.Message.Elements
import BlockCodec.Proofs.Bindings
import BlockCodec.Proofs.Passes

/-!
# Lengths that hold

Handlers may write something else in every pass. As long as they write and do nothing else to the output,
a call that is done has put each length in front of just so many bytes, those of the second pass; and a
second pass that comes out otherwise than the first one makes the call fail: `prefixes_hold`.
-/

namespace BlockCodec

variable {S Ref : Type}

/-- The output with another limit. -/
def Output.widen {κ : Type} (more : Nat) (output : Output κ) : Output κ := { output with limit := more }

@[simp] theorem Output.isSizing_widen {κ : Type} (more : Nat) (output : Output κ) :
    (output.widen more).isSizing = output.isSizing := rfl

def Encoding.widen {κ : Type} (more : Nat) (state : Encoding κ S) : Encoding κ S :=
  { state with output := state.output.widen more }

@[simp] theorem Encoding.output_widen {κ : Type} (more : Nat) (state : Encoding κ S) :
    (state.widen more).output = state.output.widen more := rfl

@[simp] theorem Encoding.handlers_widen {κ : Type} (more : Nat) (state : Encoding κ S) :
    (state.widen more).handlers = state.handlers := rfl

-- ---------------------------------------------------------------------------
-- Handlers
-- ---------------------------------------------------------------------------

namespace Handler

/-- What handlers do to an output is write to it. -/
def Appends (Ref S : Type) [Handler Ref S] : Prop :=
  ∀ (writer : ElementWriter Ref) (output : Output Bytes) (state : S), ∃ content,
    ((writeElements writer : Emit Bytes S Unit).result (output, state)).2.1 = output.put content

/-- Handlers hand on that a limit was crossed: a call that did not end so does the same with more room. -/
def Propagates (Ref S : Type) [Handler Ref S] : Prop :=
  ∀ (writer : ElementWriter Ref) (output : Output Bytes) (state : S) (more : Nat), output.limit ≤ more →
    let call := (writeElements writer : Emit Bytes S Unit).result (output, state)
    (∀ failure, call.1 = .error failure → ¬failure.IsLimit) →
      (writeElements writer : Emit Bytes S Unit).result (output.widen more, state) =
        (call.1, (call.2.1.widen more, call.2.2))

end Handler

-- ---------------------------------------------------------------------------
-- Outputs
-- ---------------------------------------------------------------------------

namespace Output

variable {output inner : Output Bytes} {size : Nat} {sink content : Bytes} {failure : StreamError}

/-- A byte string takes what the limit lets through. -/
theorem write_cases (content : Bytes) (output : Output Bytes) :
    output.Takes content.length ∧ (write content).result output = (.ok (), output.put content) ∨
      ¬output.Takes content.length ∧
        (write content).result output = (.error (.limitExceeded content.length output.remaining), output) := by
  rcases output with ⟨_ | sink, limit, written⟩
  · exact .inl ⟨.inl rfl, rfl⟩
  · by_cases hlt : (⟨some sink, limit, written⟩ : Output Bytes).remaining < content.length
    · refine .inr ⟨not_takes rfl hlt, ?_⟩
      simp only [write, Step.result_ofRun, hlt, if_true]
    · refine .inl ⟨.inr (Nat.not_lt.mp hlt), ?_⟩
      simp only [write, Step.result_ofRun, hlt, if_false]
      rfl

theorem write_widen {more : Nat} (hle : output.limit ≤ more) (h : output.Takes content.length) :
    (write content).result (output.widen more) = (.ok (), (output.put content).widen more) := by
  rcases write_cases content (output.widen more) with ⟨-, hr⟩ | ⟨hnot, -⟩
  · exact hr
  · refine absurd (h.imp_right fun hroom => hroom.trans ?_) hnot
    exact Nat.sub_le_sub_right hle _

theorem narrow_widen {more : Nat} (hle : output.limit ≤ more) (hs : output.isSizing = false)
    (h : output.narrow size = .ok inner) : (output.widen more).narrow size = .ok inner := by
  obtain ⟨sink, hsome, hroom, rfl⟩ := narrow_eq_ok h hs
  exact narrow_of_le hsome (hroom.trans (Nat.sub_le_sub_right hle _))

theorem rejoin_put (hs : output.sink = some sink) (content : Bytes) :
    output.rejoin ((ofSink sink size).put content) = output.put content := by
  simp [rejoin, put, charge, ofSink, hs]

theorem put_of_sizing (hs : output.isSizing = true) (content : Bytes) :
    output.put content = output.charge content.length := by
  rcases output with ⟨_ | sink, limit, written⟩
  · rfl
  · cases hs

end Output

-- ---------------------------------------------------------------------------
-- Steps that append
-- ---------------------------------------------------------------------------

namespace Encode

/-- All that the step does to the output is write to it. -/
def Appends (step : Encode Bytes S Unit) : Prop :=
  ∀ state, ∃ content, (step.result state).2.output = state.output.put content

variable {step message : Encode Bytes S Unit}

theorem appends_of_still (h : ∀ state, (step.result state).2.output = state.output) : Appends step :=
  fun state => ⟨[], by rw [h, Output.put_nil]⟩

theorem Appends.forM {α : Type} {f : α → Encode Bytes S Unit} (h : ∀ a, Appends (f a)) (list : List α) :
    Appends (forM list f) := by
  induction list with
  | nil => exact appends_of_still fun _ => rfl
  | cons a list ih =>
    intro state
    obtain ⟨first, hfirst⟩ := h a state
    rw [List.forM_cons, Step.result_bind]
    rcases hr : (f a).result state with ⟨_ | _, middle⟩
    · rw [hr] at hfirst
      exact ⟨first, hfirst⟩
    · rw [hr] at hfirst
      obtain ⟨rest, hrest⟩ := ih middle
      exact ⟨first ++ rest, by rw [hrest, hfirst, Output.put_put]⟩

theorem appends_chunk (chunk : Chunk) : Appends (onOutput chunk.perform : Encode Bytes S Unit) := by
  intro state
  cases chunk with
  | failure reason => exact ⟨[], (Output.put_nil _).symm⟩
  | bytes content =>
    rw [result_bytes]
    rcases Output.write_cases content state.output with ⟨-, hr⟩ | ⟨-, hr⟩ <;> rw [hr]
    · exact ⟨content, rfl⟩
    · exact ⟨[], (Output.put_nil _).symm⟩

theorem appends_sized (h : Appends message) (label : String) : Appends (sized label message) := by
  intro state
  have hstill : ∃ content, state.output = state.output.put content := ⟨[], (Output.put_nil _).symm⟩
  rw [result_sized]
  rcases message.result { state with output := .sizing } with ⟨_ | _, last⟩
  · exact hstill
  simp only
  generalize hlead : Varint.encode (UInt64.ofNat last.output.written) = lead
  rcases Output.write_cases lead state.output with ⟨-, hwrite⟩ | ⟨-, hwrite⟩
  · simp only [hwrite]
    cases hs : (state.output.put lead).isSizing with
    | true =>
      refine ⟨lead ++ Bytes.zeros last.output.written, ?_⟩
      simp only [if_true]
      rw [← Output.put_put, Output.put_of_sizing hs, Bytes.length_zeros]
    | false =>
      simp only [Bool.false_eq_true, if_false]
      cases hn : (state.output.put lead).narrow last.output.written with
      | error refusal => exact ⟨lead, rfl⟩
      | ok inner =>
        obtain ⟨sink, hsome, -, rfl⟩ := Output.narrow_eq_ok hn hs
        obtain ⟨content, hcontent⟩ := h { last with output := .ofSink sink last.output.written }
        refine ⟨lead ++ content, ?_⟩
        simp only [hcontent]
        rw [Output.rejoin_put hsome, Output.put_put]
  · simp only [hwrite]
    exact hstill

variable [Handler Ref S] {schema : Schema Ref} {config : EncodeConfig}

theorem appends_withHandler (happends : Handler.Appends Ref S) (field : Field Ref) (slot : Nat)
    (writer : ElementWriter Ref) :
    Appends (withHandler field slot (Handler.writeElements writer) : Encode Bytes S Unit) := by
  intro state
  simp only [withHandler, Step.result_ofRun]
  cases state.handlers[slot - 1]? with
  | none => exact ⟨[], (Output.put_nil _).symm⟩
  | some handler => exact happends writer state.output handler

theorem appends_piece (happends : Handler.Appends Ref S) {levels : Nat}
    (hnested : ∀ ref block, Appends (messageWithin schema config levels ref block : Encode Bytes S Unit))
    (piece : Piece Ref) : Appends (piece.perform schema config levels : Encode Bytes S Unit) := by
  cases piece with
  | chunk part => exact appends_chunk part
  | message label ref block => exact appends_sized (hnested ref block) label
  | handler field slot => exact appends_withHandler happends field slot _

theorem appends_messageWithin (happends : Handler.Appends Ref S) (levels : Nat) (ref : Ref) (block : Bytes) :
    Appends (messageWithin schema config levels ref block : Encode Bytes S Unit) := by
  induction levels generalizing ref block with
  | zero => exact appends_of_still fun _ => rfl
  | succ levels ih =>
    rw [messageWithin_eq]
    exact Appends.forM (appends_piece happends ih) _

variable (schema config) in
theorem appends_pieces (happends : Handler.Appends Ref S) (levels : Nat) (pieces : List (Piece Ref)) :
    Appends (forM pieces (Piece.perform schema config levels) : Encode Bytes S Unit) :=
  Appends.forM (appends_piece happends (appends_messageWithin happends levels)) pieces

end Encode

-- ---------------------------------------------------------------------------
-- Steps with more room
-- ---------------------------------------------------------------------------

namespace Encode

/-- A step that did not end in the limit does the same with more room. -/
def Propagates (step : Encode Bytes S Unit) : Prop :=
  ∀ (state : Encoding Bytes S) (more : Nat), state.output.limit ≤ more →
    (∀ failure, (step.result state).1 = .error failure → ¬failure.IsLimit) →
      step.result (state.widen more) = ((step.result state).1, (step.result state).2.widen more)

variable {step message : Encode Bytes S Unit}

theorem Propagates.forM {α : Type} {f : α → Encode Bytes S Unit} (happends : ∀ a, Appends (f a))
    (h : ∀ a, Propagates (f a)) (list : List α) : Propagates (forM list f) := by
  induction list with
  | nil => exact fun state more _ _ => rfl
  | cons a list ih =>
    intro state more hle hlimit
    rw [List.forM_cons, Step.result_bind] at hlimit ⊢
    rw [Step.result_bind]
    have ha := h a state more hle
    obtain ⟨content, hcontent⟩ := happends a state
    rcases hr : (f a).result state with ⟨failure | _, middle⟩
    · rw [hr] at ha hlimit
      rw [ha hlimit]
    · rw [hr] at ha hlimit hcontent
      rw [ha nofun]
      refine ih middle more ?_ hlimit
      rwa [show middle.output = _ from hcontent]

theorem propagates_chunk (chunk : Chunk) : Propagates (onOutput chunk.perform : Encode Bytes S Unit) := by
  intro state more hle hlimit
  cases chunk with
  | failure reason => rfl
  | bytes content =>
    rcases Output.write_cases content state.output with ⟨htakes, hr⟩ | ⟨-, hr⟩
    · rw [result_bytes, result_bytes, hr, Encoding.output_widen, Output.write_widen hle htakes]
      rfl
    · rw [result_bytes, hr] at hlimit
      exact absurd ⟨_, _, rfl⟩ (hlimit _ rfl)

theorem propagates_withHandler [Handler Ref S] (h : Handler.Propagates Ref S) (field : Field Ref) (slot : Nat)
    (writer : ElementWriter Ref) :
    Propagates (withHandler field slot (Handler.writeElements writer) : Encode Bytes S Unit) := by
  intro state more hle hlimit
  simp only [withHandler, Step.result_ofRun, Encoding.output_widen, Encoding.handlers_widen] at hlimit ⊢
  cases hs : state.handlers[slot - 1]? with
  | none => rfl
  | some handler =>
    rw [hs] at hlimit
    simp only [h writer state.output handler more hle hlimit]
    rfl

/-- The second pass has just its own length in any case. -/
theorem propagates_sized (message : Encode Bytes S Unit) (label : String) : Propagates (sized label message) := by
  intro state more hle
  rw [result_sized, result_sized]
  simp only [Encoding.output_widen, Encoding.handlers_widen]
  rcases message.result { state with output := .sizing } with ⟨_ | _, last⟩
  · exact fun _ => rfl
  simp only
  generalize Varint.encode (UInt64.ofNat last.output.written) = lead
  rcases Output.write_cases lead state.output with ⟨htakes, hwrite⟩ | ⟨-, hwrite⟩
  · simp only [hwrite, Output.write_widen hle htakes]
    rw [Output.isSizing_widen]
    split
    · exact fun _ => rfl
    · next hs =>
      cases hn : (state.output.put lead).narrow last.output.written with
      | error refusal =>
        obtain ⟨-, rfl⟩ := Output.narrow_eq_error hn
        exact fun hlimit => absurd ⟨_, _, rfl⟩ (hlimit _ rfl)
      | ok inner =>
        have hput : (state.output.put lead).limit ≤ more := hle
        rw [Output.narrow_widen hput (eq_false_of_ne_true hs) hn]
        exact fun _ => rfl
  · simp only [hwrite]
    exact fun hlimit => absurd ⟨_, _, rfl⟩ (hlimit _ rfl)

theorem propagates_pieces [Handler Ref S] (happends : Handler.Appends Ref S) (h : Handler.Propagates Ref S)
    (schema : Schema Ref) (config : EncodeConfig) (levels : Nat) (pieces : List (Piece Ref)) :
    Propagates (forM pieces (Piece.perform schema config levels) : Encode Bytes S Unit) := by
  refine Propagates.forM (appends_piece happends (appends_messageWithin happends levels)) (fun piece => ?_) pieces
  cases piece with
  | chunk part => exact propagates_chunk part
  | message label ref block => exact propagates_sized _ label
  | handler field slot => exact propagates_withHandler h field slot _

end Encode

-- ---------------------------------------------------------------------------
-- Passes that append
-- ---------------------------------------------------------------------------

namespace Pass

variable [Handler Ref S] {schema : Schema Ref} {config : EncodeConfig} {pass root : Pass Bytes S Ref}
  {piece : Piece Ref} {before : List (Piece Ref)} {label : String} {ref : Ref} {block : Bytes}
  {here entry last : Encoding Bytes S} {levels size : Nat}

variable (schema config) in
/-- The message is in the final output: its length, and just so many bytes, which its second pass wrote. -/
def Stands (levels : Nat) (ref : Ref) (block : Bytes) (here last : Encoding Bytes S) : Prop :=
  ∃ sink entry content exit rest, here.output.sink = some sink ∧ content.length ≤ maxSize ∧
    Enters schema config levels ref block here content.length entry ∧
    (ofMessage schema config levels ref block entry).result schema config = (.ok (), exit) ∧
    exit.output = entry.output.put content ∧
    last.output.sink = some (sink ++ (Varint.encode (UInt64.ofNat content.length) ++ content) ++ rest)

variable (schema config) in
/-- With more room, the second pass would end well, and with another count. -/
def Wanders (levels : Nat) (ref : Ref) (block : Bytes) (size : Nat) (entry : Encoding Bytes S) : Prop :=
  ∃ more, size ≤ more ∧
    let second := (ofMessage schema config levels ref block (entry.widen more)).result schema config
    second.1 = .ok () ∧ second.2.output.written ≠ size

theorem Does.output (happends : Handler.Appends Ref S) (h : pass.Does schema config before here) :
    ∃ content, here.output = pass.start.output.put content := by
  obtain ⟨content, hcontent⟩ := Encode.appends_pieces schema config happends pass.levels before pass.start
  rw [show _ = _ from h] at hcontent
  exact ⟨content, hcontent⟩

theorem result_output (happends : Handler.Appends Ref S) (schema : Schema Ref) (config : EncodeConfig)
    (pass : Pass Bytes S Ref) :
    ∃ content, (pass.result schema config).2.output = pass.start.output.put content :=
  Encode.appends_pieces schema config happends pass.levels pass.pieces pass.start

/-- The second pass stands behind the length, on an output of just that length. -/
theorem Enters.output (h : Enters schema config levels ref block here size entry) :
    ∃ sink, here.output.sink = some sink ∧ size ≤ here.output.remaining ∧
      entry.output = .ofSink (sink ++ Varint.encode (UInt64.ofNat size)) size := by
  obtain ⟨last, output, -, -, hwrite, hs, hn, -⟩ := h
  rcases Output.write_cases (Varint.encode (UInt64.ofNat size)) here.output with ⟨-, hr⟩ | ⟨-, hr⟩
  · rw [hr] at hwrite
    cases hwrite
    obtain ⟨sink, hsome, hle, hentry⟩ := Output.narrow_eq_ok hn hs
    obtain ⟨before, hbefore, rfl⟩ := Option.map_eq_some_iff.mp hsome
    refine ⟨before, hbefore, hle.trans ?_, hentry⟩
    simp only [Output.remaining, Output.put, Output.charge]
    omega
  · rw [hr] at hwrite
    cases hwrite

theorem Enters.le_limit (happends : Handler.Appends Ref S) (hdoes : pass.Does schema config before here)
    (h : Enters schema config levels ref block here size entry) : size ≤ pass.start.output.limit := by
  obtain ⟨content, hhere⟩ := hdoes.output happends
  obtain ⟨sink, -, hle, -⟩ := h.output
  rw [hhere] at hle
  exact hle.trans (Nat.sub_le _ _)

theorem Within.limit_le (happends : Handler.Appends Ref S) (h : Within schema config root pass)
    (hlimit : root.start.output.limit ≤ maxSize) : pass.start.output.limit ≤ maxSize := by
  induction h with
  | root => exact hlimit
  | sizing => exact Nat.le_refl _
  | @writing pass _ _ _ here entry size _ hcomes henters ih =>
    obtain ⟨before, rest, -, hdoes⟩ := hcomes
    obtain ⟨sink, hentry⟩ := henters.entry_output
    show entry.output.limit ≤ maxSize
    rw [hentry]
    exact (henters.le_limit happends hdoes).trans ih

/-- What a pass has written stays where it is until the end of the run. -/
theorem Within.lands (happends : Handler.Appends Ref S) (h : Within schema config root pass)
    (hr : root.result schema config = (.ok (), last)) {sink : Bytes}
    (hp : (pass.result schema config).2.output.sink = some sink) :
    ∃ rest, last.output.sink = some (sink ++ rest) := by
  induction h generalizing sink with
  | root =>
    rw [hr] at hp
    exact ⟨[], by rw [hp, List.append_nil]⟩
  | @sizing pass _ ref block here _ _ _ =>
    -- an output without a sink gets none
    obtain ⟨content, hcontent⟩ :=
      result_output happends schema config (measuring schema config pass.levels ref block here)
    rw [hcontent] at hp
    cases hp
  | @writing pass label ref block here entry size hwithin hcomes henters ih =>
    obtain ⟨next, rest, hmessage, hrest⟩ := hcomes.goes (Prod.ext (hwithin.goes (congrArg Prod.fst hr)) rfl)
    obtain ⟨output, -, -, hsecond⟩ := henters.result label
    rw [hmessage] at hsecond
    obtain ⟨behind, hbehind⟩ := Encode.appends_pieces schema config happends pass.levels rest next
    rw [hrest, (Prod.mk.inj hsecond).2] at hbehind
    have hsink : (pass.result schema config).2.output.sink = some (sink ++ behind) := by
      rw [hbehind]
      simp only [Output.put, Output.rejoin, Output.charge, hp, Option.map_some]
    obtain ⟨last, hlast⟩ := ih hsink
    exact ⟨behind ++ last, by rw [hlast, List.append_assoc]⟩

/-- In a run that is done, every message that was written stands. -/
theorem Within.stands (happends : Handler.Appends Ref S) (h : Within schema config root pass)
    (hr : root.result schema config = (.ok (), last)) (hs : pass.start.output.isSizing = false)
    (hlimit : root.start.output.limit ≤ maxSize) {rest : List (Piece Ref)}
    (hpieces : pass.pieces = before ++ .message label ref block :: rest)
    (hdoes : pass.Does schema config before here) : Stands schema config pass.levels ref block here last := by
  have hcomes : pass.ComesTo schema config (.message label ref block) here := ⟨before, rest, hpieces, hdoes⟩
  have hhere : here.output.isSizing = false := by
    obtain ⟨content, hcontent⟩ := hdoes.output happends
    rw [hcontent]
    simpa [Output.put, Output.charge, Output.isSizing] using hs
  obtain ⟨next, -, hmessage, -⟩ := hcomes.goes (Prod.ext (h.goes (congrArg Prod.fst hr)) rfl)
  obtain ⟨size, entry, henters⟩ := message_ok hmessage hhere
  obtain ⟨sink, hsink, -, hentry⟩ := henters.output
  obtain ⟨output, -, -, hsecond⟩ := henters.result label
  obtain ⟨content, hcontent⟩ :=
    result_output happends schema config (ofMessage schema config pass.levels ref block entry)
  rcases hexit : (ofMessage schema config pass.levels ref block entry).result schema config with ⟨outcome, exit⟩
  rw [hexit] at hsecond hcontent
  rw [hmessage] at hsecond
  obtain ⟨rfl, hsize⟩ := Encode.closing_eq_ok (Prod.mk.inj hsecond).1.symm
  replace hcontent : exit.output = entry.output.put content := hcontent
  have hlength : content.length = size := by
    rw [← hsize, hcontent, hentry]
    exact (Nat.zero_add _).symm
  subst hlength
  have hout : exit.output.sink = some (sink ++ (Varint.encode (UInt64.ofNat content.length) ++ content)) := by
    rw [hcontent, hentry, ← List.append_assoc]
    rfl
  obtain ⟨rest, hrest⟩ := (h.writing hcomes henters).lands happends hr (by rw [hexit]; exact hout)
  have hle := (henters.le_limit happends hdoes).trans (h.limit_le happends hlimit)
  exact ⟨sink, entry, content, exit, rest, hsink, hle, henters, hexit, hcontent, hrest⟩

/-- What wanders with more room strays with the room there is. -/
theorem Wanders.strays (happends : Handler.Appends Ref S) (hpropagates : Handler.Propagates Ref S)
    (henters : Enters schema config levels ref block here size entry)
    (h : Wanders schema config levels ref block size entry) :
    Strays schema config levels ref block size entry := by
  obtain ⟨more, hle, hok, hne⟩ := h
  obtain ⟨sink, -, -, hentry⟩ := henters.output
  have hlimit : entry.output.limit ≤ more := by rwa [hentry]
  have hwide := Encode.propagates_pieces happends hpropagates schema config (levels - 1)
    (schema.pieces config levels ref block) entry more hlimit
  by_cases hcrossed : ∃ failure, ((ofMessage schema config levels ref block entry).result schema config).1 =
      .error failure ∧ failure.IsLimit
  · exact .inr hcrossed
  · have hsame : (ofMessage schema config levels ref block (entry.widen more)).result schema config =
        let second := (ofMessage schema config levels ref block entry).result schema config
        (second.1, second.2.widen more) :=
      hwide fun failure hfails hlimited => hcrossed ⟨failure, hfails, hlimited⟩
    rw [hsame] at hok hne
    exact .inl ⟨hok, hne⟩

end Pass

/-- A handler that writes another line every time it is called. -/
structure Prompter where
  lines : List Bytes
deriving Repr, DecidableEq

instance : Handler Ref Prompter where
  writeElements _ := do
    let (_, prompter) ← get
    modify fun (output, _) => (output, ⟨prompter.lines.tail⟩)
    (ElementWriter.writeRaw (prompter.lines.headD [])).onPart (·.1) fun output state => (output, state.2)

theorem Prompter.result {κ : Type} [Sink κ] (writer : ElementWriter Ref) (output : Output κ)
    (prompter : Prompter) :
    (Handler.writeElements writer : Emit κ Prompter Unit).result (output, prompter) =
      let write := (Output.write (prompter.lines.headD [])).result output
      (write.1.mapError .stream, (write.2, ⟨prompter.lines.tail⟩)) := rfl

theorem appends_prompter : Handler.Appends Ref Prompter := by
  intro writer output prompter
  rw [Prompter.result]
  rcases Output.write_cases (prompter.lines.headD []) output with ⟨-, hr⟩ | ⟨-, hr⟩ <;> rw [hr]
  · exact ⟨_, rfl⟩
  · exact ⟨[], output.put_nil.symm⟩

theorem propagates_prompter : Handler.Propagates Ref Prompter := by
  intro writer output prompter more hle
  rw [Prompter.result, Prompter.result]
  rcases Output.write_cases (prompter.lines.headD []) output with ⟨htakes, hr⟩ | ⟨-, hr⟩
  · rw [hr, Output.write_widen hle htakes]
    exact fun _ => rfl
  · rw [hr]
    exact fun hlimit => absurd ⟨_, _, rfl⟩ (hlimit _ rfl)

/-- A message with a handler in it, into a byte string. -/
def prompted (lines : List Bytes) : Encoding Bytes Prompter := ⟨.unbounded [], [⟨lines⟩]⟩

end BlockCodec
