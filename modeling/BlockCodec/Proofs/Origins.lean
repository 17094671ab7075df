import BlockCodec.Proofs.Weights

/-!
# Where a failure comes from

A limit may be crossed at any depth, and a mismatch is said of any message. `Pass.limit_origin` and
`Pass.mismatch_origin` say what it was: a piece that is too long, a sink that refused, a handler, or a second pass
that did not come to what was measured.
-/

namespace BlockCodec

variable {κ S Ref : Type}

theorem CodecError.OfData.not_isLimit {failure : CodecError} (h : failure.OfData) : ¬failure.IsLimit := by
  rintro ⟨requested, left, rfl⟩
  exact h.1 rfl

namespace Encode

/-- A second pass ends otherwise than expected: with another count, or in a limit at which it asked for more. -/
def EndsAt (expected actual : Nat) (outcome : Except CodecError Unit) (written : Nat) : Prop :=
  outcome = .ok () ∧ written = actual ∧ actual ≠ expected ∨
    ∃ requested left, outcome = .error (.stream (.limitExceeded requested left)) ∧ actual = written + requested

theorem closing_eq_mismatch {label name : String} {size expected actual written : Nat}
    {outcome : Except CodecError Unit}
    (h : closing name size outcome written = .error (.sizeMismatch label expected actual)) :
    outcome = .error (.sizeMismatch label expected actual) ∨
      name = label ∧ size = expected ∧ EndsAt expected actual outcome written := by
  unfold closing at h
  split at h
  · split at h
    · cases h
    · next hne =>
      cases h
      exact .inr ⟨rfl, rfl, .inl ⟨rfl, rfl, hne⟩⟩
  · cases h
    exact .inr ⟨rfl, rfl, .inr ⟨_, _, rfl, rfl⟩⟩
  · exact .inl h

end Encode

-- ---------------------------------------------------------------------------
-- Where a pass stops
-- ---------------------------------------------------------------------------

namespace Pass

section

variable [Sink κ] [Handler Ref S] (schema : Schema Ref) (config : EncodeConfig)

def In (messages : Ref → Prop) (pass : Pass κ S Ref) : Prop :=
  ∀ piece ∈ pass.pieces, piece.In schema messages

/-- A handler fails, in this pass or in one inside. -/
def HandlerFails (pass : Pass κ S Ref) (failure : CodecError) : Prop :=
  ∃ (inner : Pass κ S Ref) (field : Field Ref) (slot : Nat) (here : Encoding κ S),
    Within schema config pass inner ∧ inner.ComesTo schema config (.handler field slot) here ∧
    (((Piece.handler field slot).perform schema config inner.levels : Encode κ S Unit).result here).1 =
      .error failure

/-- The second pass over a message ends otherwise than expected, in this pass or in one inside. -/
def Misses (pass : Pass κ S Ref) (label : String) (expected actual : Nat) : Prop :=
  ∃ (inner : Pass κ S Ref) (ref : Ref) (block : Bytes) (here entry : Encoding κ S),
    Within schema config pass inner ∧ inner.ComesTo schema config (.message label ref block) here ∧
    Enters schema config inner.levels ref block here expected entry ∧
    let second := (ofMessage schema config inner.levels ref block entry).result schema config
    Encode.EndsAt expected actual second.1 second.2.output.written

/-- The bytes that a piece hands to the output itself: all of them, or the length of a message. -/
def Offers (levels : Nat) (here : Encoding κ S) (content : Bytes) : Piece Ref → Prop
  | .chunk part => part = .bytes content
  | .message _ ref block => ∃ last, (measuring schema config levels ref block here).result schema config =
      (.ok (), last) ∧ content = Varint.encode (UInt64.ofNat last.output.written)
  | .handler .. => False

/-- The piece, measured from here, is longer than what is left. -/
def TooLong (levels : Nat) (here : Encoding κ S) (piece : Piece Ref) : Prop :=
  here.output.isSizing = false ∧ ∃ next,
    (piece.perform schema config levels : Encode κ S Unit).result { here with output := .sizing } =
      (.ok (), next) ∧
    here.output.remaining < next.output.written

/-- The sink refuses bytes of the piece that the limit lets through, and says that a limit was crossed. -/
def Refuses (levels : Nat) (here : Encoding κ S) (piece : Piece Ref) (requested left : Nat) : Prop :=
  ∃ content sink taken, Offers schema config levels here content piece ∧ here.output.sink = some sink ∧
    content.length ≤ here.output.remaining ∧
    Sink.write sink content = (.error (.limitExceeded requested left), taken)

/-- The pass comes to a piece that is longer than what is left. -/
def Overruns (pass : Pass κ S Ref) : Prop :=
  ∃ piece here, pass.ComesTo schema config piece here ∧ TooLong schema config pass.levels here piece

/-- The pass comes to a piece that the sink refuses, with so many bytes written. -/
def Refused (pass : Pass κ S Ref) (requested left written : Nat) : Prop :=
  ∃ piece here, pass.ComesTo schema config piece here ∧
    Refuses schema config pass.levels here piece requested left ∧ here.output.written = written

end

variable [Sink κ] [Handler Ref S] {schema : Schema Ref} {config : EncodeConfig} {messages : Ref → Prop}
  {pass root inner : Pass κ S Ref} {piece : Piece Ref} {levels : Nat} {label : String} {ref : Ref} {block : Bytes}
  {here after entry : Encoding κ S}

omit [Sink κ] [Handler Ref S] in
/-- A pass by the passes over the messages in it. -/
theorem induction {P : Pass κ S Ref → Prop}
    (step : ∀ pass, (∀ label ref block, .message label ref block ∈ pass.pieces →
      ∀ start, P (ofMessage schema config pass.levels ref block start)) → P pass) (pass : Pass κ S Ref) :
    P pass := by
  have hmessage (levels : Nat) (ref : Ref) (block : Bytes) (start : Encoding κ S) :
      P (ofMessage schema config levels ref block start) := by
    induction levels generalizing ref block start with
    | zero => exact step _ fun label ref block hp => nomatch List.mem_singleton.mp hp
    | succ levels ih => exact step _ fun label ref block _ => ih ref block
  exact step pass fun label ref block _ => hmessage pass.levels ref block

theorem Within.trans (h : Within schema config root pass) (hi : Within schema config pass inner) :
    Within schema config root inner := by
  induction hi with
  | root => exact h
  | sizing _ hcomes ih => exact ih.sizing hcomes
  | writing _ hcomes henters ih => exact ih.writing hcomes henters

theorem ComesTo.mem (h : pass.ComesTo schema config piece here) : piece ∈ pass.pieces := by
  obtain ⟨before, rest, hpieces, -⟩ := h
  rw [hpieces]
  exact List.mem_append_right _ List.mem_cons_self

theorem in_ofMessage (hcalm : schema.Calm κ S messages) (config : EncodeConfig) (levels : Nat) {ref : Ref}
    (h : messages ref) (block : Bytes) (start : Encoding κ S) :
    (ofMessage schema config levels ref block start).In schema messages :=
  hcalm.pieces_in config levels h block

theorem Within.stays_in (hcalm : schema.Calm κ S messages) (h : Within schema config root pass)
    (hin : root.In schema messages) : pass.In schema messages := by
  induction h with
  | root => exact hin
  | sizing _ hcomes ih => exact in_ofMessage hcalm config _ (ih _ hcomes.mem) _ _
  | writing _ hcomes _ ih => exact in_ofMessage hcalm config _ (ih _ hcomes.mem) _ _

theorem HandlerFails.trans {failure : CodecError} (h : Within schema config pass inner)
    (hf : inner.HandlerFails schema config failure) : pass.HandlerFails schema config failure := by
  obtain ⟨last, field, slot, here, hwithin, hcomes, hfails⟩ := hf
  exact ⟨last, field, slot, here, h.trans hwithin, hcomes, hfails⟩

theorem Misses.trans {expected actual : Nat} (h : Within schema config pass inner)
    (hm : inner.Misses schema config label expected actual) : pass.Misses schema config label expected actual := by
  obtain ⟨last, ref, block, here, entry, hwithin, hrest⟩ := hm
  exact ⟨last, ref, block, here, entry, h.trans hwithin, hrest⟩

theorem ComesTo.keeps (hcalm : schema.Calm κ S messages) (hin : pass.In schema messages)
    (h : pass.ComesTo schema config piece here) :
    here.output.limit = pass.start.output.limit ∧ here.output.isSizing = pass.start.output.isSizing := by
  obtain ⟨before, rest, hpieces, hdoes⟩ := h
  refine Encode.Keeps.forM (fun piece hp => ?_) _ _ hdoes
  refine Encode.keeps_piece hcalm (Encode.keeps_messageWithin hcalm _) (hin piece ?_)
  rw [hpieces]
  exact List.mem_append_left _ hp

/-- What stops a pass is the failure of one of its pieces. -/
theorem result_error {failure : CodecError} (hr : pass.result schema config = (.error failure, after)) :
    ∃ piece here, pass.ComesTo schema config piece here ∧
      Step.result (Piece.perform schema config pass.levels piece) here = (.error failure, after) := by
  obtain ⟨before, piece, rest, here, hpieces, hdoes, hpiece⟩ := Step.forM_eq_error hr
  exact ⟨piece, here, ⟨before, rest, hpieces, hdoes⟩, hpiece⟩

/-- Where nothing is kept, a message comes to its length and what was measured. -/
theorem message_sizing {last : Encoding κ S}
    (h : (measuring schema config levels ref block here).result schema config = (.ok (), last)) (label : String) :
    ((Piece.message label ref block).perform schema config levels : Encode κ S Unit).result
        { here with output := .sizing } =
      let lead := Varint.encode (UInt64.ofNat last.output.written)
      (.ok (), { last with output := (Output.sizing.charge lead.length).charge last.output.written }) := by
  have hsame : measuring schema config levels ref block { here with output := .sizing } =
      measuring schema config levels ref block here := rfl
  rw [result_message, hsame, h]
  rfl

/-- What is written ends in a limit because it is too long, or because the sink refuses it. -/
theorem chunk_limit {part : Chunk} {requested left : Nat} (hin : (Piece.chunk part).In schema messages)
    (hr : ((Piece.chunk part : Piece Ref).perform schema config levels : Encode κ S Unit).result here =
      (.error (.stream (.limitExceeded requested left)), after)) :
    (TooLong schema config levels here (.chunk part) ∧ here.output.limit < after.output.written + requested) ∨
      Refuses schema config levels here (.chunk part) requested left ∧
        here.output.written = after.output.written := by
  obtain rfl | ⟨content, refusal, rfl, hrefusal, hwrite⟩ := Encode.chunk_error hr
  · exact absurd ⟨_, _, rfl⟩ (CodecError.OfData.not_isLimit hin)
  cases hrefusal
  obtain ⟨sink, hsink, ⟨hlt, hlimit, hafter⟩ | ⟨hle, taken, htaken, hafter⟩⟩ := Output.write_error hwrite
  · cases hlimit
    refine .inl ⟨⟨by rw [Output.isSizing, hsink]; rfl, _, rfl, ?_⟩, ?_⟩
    · exact hlt.trans_eq (Nat.zero_add _).symm
    · rw [hafter]
      simp only [Output.remaining] at hlt
      omega
  · refine .inr ⟨⟨content, sink, taken, rfl, hsink, hle, htaken⟩, ?_⟩
    rw [hafter]

/-- And so does a message, or the first pass over it ends so. -/
theorem message_limit {requested left : Nat}
    (hr : ((Piece.message label ref block).perform schema config levels : Encode κ S Unit).result here =
      (.error (.stream (.limitExceeded requested left)), after)) :
    (TooLong schema config levels here (.message label ref block) ∧
        here.output.limit < after.output.written + requested) ∨
      (Refuses schema config levels here (.message label ref block) requested left ∧
        here.output.written = after.output.written) ∨
      ∃ last, (measuring schema config levels ref block here).result schema config =
        (.error (.stream (.limitExceeded requested left)), last) := by
  obtain hfirst | ⟨last, hlast, refusal, hrefusal, hwrite⟩ | ⟨size, entry, outcome, exit, -, -, hclosing⟩ :=
    message_error hr
  · exact .inr (.inr ⟨_, Prod.ext hfirst rfl⟩)
  · cases hrefusal
    have hcount := message_sizing hlast label
    obtain hrefused | ⟨hwritten, hs, hn⟩ := hwrite
    · obtain ⟨sink, hsink, ⟨hlt, hlimit, hafter⟩ | ⟨hle, taken, htaken, hafter⟩⟩ := Output.write_error hrefused
      · cases hlimit
        refine .inl ⟨⟨by rw [Output.isSizing, hsink]; rfl, _, hcount, ?_⟩, ?_⟩
        · simp only [Output.charge, Output.sizing]
          omega
        · rw [hafter]
          simp only [Output.remaining] at hlt
          omega
      · refine .inr (.inl ⟨⟨_, sink, taken, ⟨last, hlast, rfl⟩, hsink, hle, htaken⟩, ?_⟩)
        rw [hafter]
    · obtain ⟨hlt, hlimit⟩ := Output.narrow_eq_error hn
      cases hlimit
      obtain ⟨hcharged, hsame, hsizing⟩ := Output.write_ok hwritten
      simp only [Output.remaining] at hlt
      refine .inl ⟨⟨hsizing ▸ hs, _, hcount, ?_⟩, by omega⟩
      simp only [Output.charge, Output.sizing, Output.remaining]
      omega
  · exact absurd ⟨_, _, rfl⟩ (Encode.not_isLimit_of_closing hclosing)

theorem Refused.not_sizing {requested left written : Nat} (hcalm : schema.Calm κ S messages)
    (hin : pass.In schema messages) (h : pass.Refused schema config requested left written) :
    pass.start.output.isSizing = false := by
  obtain ⟨piece, here, hcomes, ⟨content, sink, taken, -, hsink, -⟩, -⟩ := h
  rw [← (hcomes.keeps hcalm hin).2, Output.isSizing, hsink]
  rfl

theorem Overruns.not_sizing (hcalm : schema.Calm κ S messages) (hin : pass.In schema messages)
    (h : pass.Overruns schema config) : pass.start.output.isSizing = false := by
  obtain ⟨piece, here, hcomes, hs, -⟩ := h
  rw [← (hcomes.keeps hcalm hin).2, hs]

/-- A pass ends in a limit because a piece is longer than what is left, because the sink refused, or because a
handler said so. -/
theorem limit_origin {requested left : Nat} (hcalm : schema.Calm κ S messages) (pass : Pass κ S Ref)
    (hin : pass.In schema messages) {after : Encoding κ S}
    (hr : pass.result schema config = (.error (.stream (.limitExceeded requested left)), after)) :
    (pass.Overruns schema config ∧ pass.start.output.limit < after.output.written + requested) ∨
      pass.Refused schema config requested left after.output.written ∨
      pass.HandlerFails schema config (.stream (.limitExceeded requested left)) := by
  induction pass using induction generalizing after with
  | step pass ih =>
    obtain ⟨piece, here, hcomes, hpiece⟩ := result_error hr
    have hmem := hcomes.mem
    have hlimit := (hcomes.keeps hcalm hin).1
    cases piece with
    | chunk part =>
      obtain ⟨hlong, hover⟩ | ⟨hrefuses, hwritten⟩ := chunk_limit (hin _ hmem) hpiece
      · exact .inl ⟨⟨_, here, hcomes, hlong⟩, hlimit ▸ hover⟩
      · exact .inr (.inl ⟨_, here, hcomes, hrefuses, hwritten⟩)
    | handler field slot => exact .inr (.inr ⟨pass, field, slot, here, .root, hcomes, congrArg Prod.fst hpiece⟩)
    | message label ref block =>
      obtain ⟨hlong, hover⟩ | ⟨hrefuses, hwritten⟩ | ⟨last, hfirst⟩ := message_limit hpiece
      · exact .inl ⟨⟨_, here, hcomes, hlong⟩, hlimit ▸ hover⟩
      · exact .inr (.inl ⟨_, here, hcomes, hrefuses, hwritten⟩)
      · -- a pass that only counts has no limit and no sink
        have hbelow : (measuring schema config pass.levels ref block here).In schema messages :=
          in_ofMessage hcalm config _ (hin _ hmem) _ _
        obtain ⟨hover, -⟩ | hrefused | hfails := ih label ref block hmem _ hbelow hfirst
        · cases hover.not_sizing hcalm hbelow
        · cases hrefused.not_sizing hcalm hbelow
        · exact .inr (.inr (hfails.trans (Within.root.sizing hcomes)))

/-- A mismatch comes from a handler, or from the second pass over the very message that it names. -/
theorem mismatch_origin {label : String} {expected actual : Nat} (hcalm : schema.Calm κ S messages)
    (pass : Pass κ S Ref) (hin : pass.In schema messages)
    (hr : (pass.result schema config).1 = .error (.sizeMismatch label expected actual)) :
    pass.HandlerFails schema config (.sizeMismatch label expected actual) ∨
      pass.Misses schema config label expected actual := by
  induction pass using induction with
  | step pass ih =>
    obtain ⟨piece, here, hcomes, hpiece⟩ := result_error (Prod.ext hr rfl)
    have hmem := hcomes.mem
    cases piece with
    | chunk part =>
      obtain rfl | ⟨content, refusal, -, hrefusal, -⟩ := Encode.chunk_error hpiece
      · exact absurd rfl ((show CodecError.OfData _ from hin _ hmem).ne_mismatch label expected actual)
      · cases hrefusal
    | handler field slot => exact .inl ⟨pass, field, slot, here, .root, hcomes, congrArg Prod.fst hpiece⟩
    | message name ref block =>
      have hbelow (start : Encoding κ S) :
          (ofMessage schema config pass.levels ref block start).In schema messages :=
        in_ofMessage hcalm config _ (hin _ hmem) _ _
      obtain hfirst | ⟨last, -, refusal, hrefusal, -⟩ | ⟨size, entry, outcome, exit, henters, hexit, hclosing⟩ :=
        message_error hpiece
      · have hwithin := Within.root.sizing hcomes
        exact (ih name ref block hmem _ (hbelow _) hfirst).imp (.trans hwithin) (.trans hwithin)
      · cases hrefusal
      · obtain hsecond | ⟨rfl, rfl, hends⟩ := Encode.closing_eq_mismatch hclosing
        · have hwithin := Within.root.writing hcomes henters
          refine (ih name ref block hmem _ (hbelow _) ?_).imp (.trans hwithin) (.trans hwithin)
          rw [hexit, hsecond]
        · refine .inr ⟨pass, ref, block, here, entry, .root, hcomes, henters, ?_⟩
          rw [hexit]
          exact hends

/-- A refusal ends the pass. -/
theorem Refused.result {requested left written : Nat} (h : pass.Refused schema config requested left written) :
    ∃ after, pass.result schema config = (.error (.stream (.limitExceeded requested left)), after) ∧
      after.output.written = written := by
  obtain ⟨piece, here, hcomes, ⟨content, sink, taken, hoffers, hsink, hle, htaken⟩, rfl⟩ := h
  have hwrite := Output.write_refused hsink hle htaken
  cases piece with
  | handler field slot => exact hoffers.elim
  | chunk part =>
    obtain rfl : part = .bytes content := hoffers
    have hperform := Encode.result_bytes content here
    rw [hwrite] at hperform
    exact ⟨_, hcomes.fails hperform, rfl⟩
  | message label ref block =>
    obtain ⟨last, hlast, rfl⟩ := hoffers
    have hperform : ((Piece.message label ref block).perform schema config pass.levels :
        Encode κ S Unit).result here =
        (.error (.stream (.limitExceeded requested left)),
          { last with output := { here.output with sink := some taken } }) := by
      rw [result_message, hlast]
      simp only [hwrite]
    exact ⟨_, hcomes.fails hperform, rfl⟩

end Pass

end BlockCodec
