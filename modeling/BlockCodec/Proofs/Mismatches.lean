import BlockCodec.Proofs.Devices
import BlockCodec.Proofs.Origins

/-!
# What a mismatch means

A mismatch says that the second pass over a message came to another length than the first. Any limit that is
crossed under the message is taken for that, so a sink that has less room than the limit lets through is blamed on
the message: `mismatch_blames_stamp`. `mismatch_means` says what there is to a mismatch; without handlers it is
this and nothing else.
-/

namespace BlockCodec

variable {κ S Ref : Type}

namespace Pass

variable [Sink κ] [Handler Ref S] {schema : Schema Ref} {config : EncodeConfig} {messages : Ref → Prop}
  {pass root : Pass κ S Ref} {levels : Nat} {label : String} {ref : Ref} {block : Bytes}
  {here after entry : Encoding κ S}

-- ---------------------------------------------------------------------------
-- Without handlers
-- ---------------------------------------------------------------------------

section

variable (hin : pass.In schema (schema.Throughout Table.Unhandled))
include hin

theorem not_handlerFails (failure : CodecError) : ¬pass.HandlerFails schema config failure := by
  rintro ⟨inner, field, slot, here, hwithin, hcomes, -⟩
  obtain ⟨ref, hu, hf, hh⟩ := hwithin.stays_in schema.calm_of_unhandled hin _ hcomes.mem
  simp [hu.here field hf] at hh

end

/-- Without handlers the second pass comes to what was measured, if it comes to its end. -/
theorem Enters.written_eq {size : Nat} (hu : schema.Throughout Table.Unhandled ref)
    (h : Enters schema config levels ref block here size entry)
    (hr : (ofMessage schema config levels ref block entry).result schema config = (.ok (), after)) :
    after.output.written = size := by
  obtain ⟨sink, hentry⟩ := h.entry_output
  obtain ⟨last, output, hlast, rfl, -⟩ := h
  rw [measuring, result_ofMessage] at hlast
  rw [result_ofMessage] at hr
  obtain ⟨weight, hweighs⟩ := Encode.weighs_messageWithin (κ := κ) (S := S) config levels ref block hu
  rw [hweighs _ _ hr, hweighs _ _ hlast, hentry]
  rfl

/-- And no piece is longer than what is left. -/
theorem Enters.not_overruns {size : Nat} (hu : schema.Throughout Table.Unhandled ref)
    (h : Enters schema config levels ref block here size entry) :
    ¬(ofMessage schema config levels ref block entry).Overruns schema config := by
  rintro ⟨piece, stop, hcomes, -, next, hnext, hlt⟩
  have hcalm := schema.calm_of_unhandled (κ := κ) (S := S)
  have hin := in_ofMessage hcalm config levels hu block entry
  have hlimit : stop.output.limit = entry.output.limit := (hcomes.keeps hcalm hin).1
  obtain ⟨sink, hentry⟩ := h.entry_output
  obtain ⟨last, output, hlast, hsize, -⟩ := h
  obtain ⟨before, rest, hpieces, hdoes⟩ := hcomes
  replace hpieces : schema.pieces config levels ref block = before ++ piece :: rest := hpieces
  have hmem := hcalm.pieces_in config levels hu block
  rw [hpieces, List.forall_mem_append, List.forall_mem_cons] at hmem
  obtain ⟨hbefore, hpiece, hrest⟩ := hmem
  -- the first pass goes through the same pieces, each as long as it is in the second
  have hfirst : (forM (before ++ piece :: rest) (Piece.perform schema config (levels - 1)) :
      Encode κ S Unit).result { here with output := .sizing } = (.ok (), last) := hpieces ▸ hlast
  rw [List.forM_append, List.forM_cons] at hfirst
  obtain ⟨_, one, hone, hfirst⟩ := Step.result_bind_eq_ok.mp hfirst
  obtain ⟨_, two, htwo, hfirst⟩ := Step.result_bind_eq_ok.mp hfirst
  obtain ⟨front, hfront⟩ := Encode.weighs_pieces (κ := κ) (S := S) config (levels - 1) hbefore
  obtain ⟨middle, hmiddle⟩ := Encode.weighs_piece (κ := κ) (S := S) config
    (Encode.weighs_messageWithin config (levels - 1)) hpiece
  obtain ⟨back, hback⟩ := Encode.weighs_pieces (κ := κ) (S := S) config (levels - 1) hrest
  have hstop := hfront _ _ hdoes
  have hnext := hmiddle _ _ hnext
  have hone := hfront _ _ hone
  have htwo := hmiddle _ _ htwo
  have hthree := hback _ _ hfirst
  simp only [ofMessage, hentry, Output.remaining, Output.ofSink, Output.sizing] at *
  omega

theorem in_call (hcalm : schema.Calm κ S messages) (config : EncodeConfig) (framing : Framing) {ref : Ref}
    (h : messages ref) (block : Bytes) (start : Encoding κ S) :
    (call schema config framing ref block start).In schema messages := by
  cases framing with
  | bare => exact in_ofMessage hcalm config _ h block start
  | delimited =>
    intro piece hp
    cases List.mem_singleton.mp hp
    exact h

variable (schema config) in
/-- While the message is being written, the sink refuses what the limit lets through, and says that a limit was
crossed. -/
def Cut (pass : Pass κ S Ref) (label : String) (expected actual : Nat) : Prop :=
  ∃ (inner : Pass κ S Ref) (ref : Ref) (block : Bytes) (here entry : Encoding κ S) (requested left written : Nat),
    Within schema config pass inner ∧ inner.ComesTo schema config (.message label ref block) here ∧
    Enters schema config inner.levels ref block here expected entry ∧
    (ofMessage schema config inner.levels ref block entry).Refused schema config requested left written ∧
    actual = written + requested

theorem Cut.mismatch {expected actual : Nat} (h : root.Cut schema config label expected actual) :
    (root.result schema config).1 = .error (.sizeMismatch label expected actual) := by
  obtain ⟨inner, ref, block, here, entry, requested, left, written, hwithin, hcomes, henters, hrefused, rfl⟩ := h
  obtain ⟨after, hafter, rfl⟩ := hrefused.result
  obtain ⟨output, -, -, hmessage⟩ := henters.result label
  rw [hafter] at hmessage
  exact hwithin.fails (congrArg Prod.fst (hcomes.fails hmessage)) nofun

/-- Without handlers, a mismatch means that the sink refused. -/
theorem mismatch_iff_cut {expected actual : Nat} (hin : root.In schema (schema.Throughout Table.Unhandled)) :
    (root.result schema config).1 = .error (.sizeMismatch label expected actual) ↔
      root.Cut schema config label expected actual := by
  refine ⟨fun hr => ?_, Cut.mismatch⟩
  have hcalm := schema.calm_of_unhandled (κ := κ) (S := S)
  obtain hfails | ⟨inner, ref, block, here, entry, hwithin, hcomes, henters, hends⟩ :=
    mismatch_origin hcalm root hin hr
  · exact absurd hfails (not_handlerFails hin _)
  have hu : schema.Throughout Table.Unhandled ref := hwithin.stays_in hcalm hin _ hcomes.mem
  have hsecond := in_ofMessage hcalm config inner.levels hu block entry
  obtain ⟨hok, rfl, hne⟩ | ⟨requested, left, herror, rfl⟩ := hends
  · exact absurd (henters.written_eq hu (Prod.ext hok rfl)) hne
  obtain ⟨hover, -⟩ | hrefused | hfails := limit_origin hcalm _ hsecond (Prod.ext herror rfl)
  · exact absurd hover (henters.not_overruns hu)
  · exact ⟨inner, ref, block, here, entry, requested, left, _, hwithin, hcomes, henters, hrefused, rfl⟩
  · exact absurd hfails (not_handlerFails hsecond _)

/-- With handlers, a mismatch that none of them says comes from a second pass that ended with another count, that
was longer than measured, that the sink cut short, or in which a handler said that a limit was crossed. -/
theorem mismatch_cases {expected actual : Nat} (hkeeps : Handler.Keeps κ Ref S)
    (hin : root.In schema fun _ => True)
    (hr : (root.result schema config).1 = .error (.sizeMismatch label expected actual)) :
    root.HandlerFails schema config (.sizeMismatch label expected actual) ∨
      ∃ inner ref block here entry, Within schema config root inner ∧
        inner.ComesTo schema config (.message label ref block) here ∧
        Enters schema config inner.levels ref block here expected entry ∧
        let second := ofMessage schema config inner.levels ref block entry
        let ended := second.result schema config
        (ended.1 = .ok () ∧ ended.2.output.written = actual ∧ actual ≠ expected) ∨
          ∃ requested left, ended.1 = .error (.stream (.limitExceeded requested left)) ∧
            actual = ended.2.output.written + requested ∧
            (second.Overruns schema config ∧ expected < actual ∨
              second.Refused schema config requested left ended.2.output.written ∨
              second.HandlerFails schema config (.stream (.limitExceeded requested left))) := by
  have hcalm := schema.calm_of_keeps hkeeps
  refine (mismatch_origin hcalm root hin hr).imp_right ?_
  rintro ⟨inner, ref, block, here, entry, hwithin, hcomes, henters, hends⟩
  refine ⟨inner, ref, block, here, entry, hwithin, hcomes, henters, hends.imp_right ?_⟩
  rintro ⟨requested, left, herror, hactual⟩
  refine ⟨requested, left, herror, hactual, ?_⟩
  have hsecond : (ofMessage schema config inner.levels ref block entry).In schema fun _ => True :=
    in_ofMessage hcalm config inner.levels trivial block entry
  refine (limit_origin hcalm _ hsecond (Prod.ext herror rfl)).imp_left ?_
  rintro ⟨hover, hlimit⟩
  obtain ⟨sink, hentry⟩ := henters.entry_output
  refine ⟨hover, ?_⟩
  rw [hactual]
  rwa [show (ofMessage schema config inner.levels ref block entry).start.output.limit = expected from
    congrArg Output.limit hentry] at hlimit

end Pass

-- ---------------------------------------------------------------------------
-- Sinks that do not refuse
-- ---------------------------------------------------------------------------

/-- The sink never says that a limit was crossed. -/
def Sink.Plain (κ : Type) [Sink κ] : Prop :=
  ∀ (sink : κ) (content : Bytes) (requested left : Nat),
    (Sink.write sink content).1 ≠ .error (.limitExceeded requested left)

theorem plain_bytes : Sink.Plain Bytes := by
  intro sink content requested left
  rw [show Sink.write sink content = (.ok (), sink ++ content) from rfl]
  exact nofun

theorem plain_gate : Sink.Plain Gate := by
  intro gate content requested left
  show (gate.write content).1 ≠ _
  unfold Gate.write
  split <;> exact nofun

theorem plain_drain : Sink.Plain Drain := by
  intro drain content requested left h
  obtain h | ⟨fault, h⟩ := Drain.offer_error h <;> cases h

section

variable [Handler Ref S] {schema : Schema Ref} {config : EncodeConfig} {framing : Framing} {ref : Ref}
  {block : Bytes}

theorem concurs_framing [Sink κ] [Store κ] {κ' : Type} [Sink κ'] [Store κ']
    (hu : schema.Throughout Table.Unhandled ref) (config : EncodeConfig) (framing : Framing) (block : Bytes) :
    Concurs (framing.encode schema config ref block : Encode κ S Unit)
      (framing.encode schema config ref block : Encode κ' S Unit) := by
  cases framing with
  | bare => exact concurs_encodeMessage hu config block
  | delimited => exact Encode.concurs_sized (concurs_encodeMessage hu config block) _

/-- A sink that never says that a limit was crossed is no reason for a mismatch. -/
theorem not_mismatch_of_plain [Sink κ] (hu : schema.Throughout Table.Unhandled ref)
    (hsink : Sink.Plain κ) (start : Encoding κ S) (label : String) (expected actual : Nat) :
    ((framing.encode schema config ref block).result start).1 ≠ .error (.sizeMismatch label expected actual) := by
  intro hr
  rw [← Pass.result_call] at hr
  have hin := Pass.in_call (schema.calm_of_unhandled (κ := κ) (S := S)) config framing hu block start
  obtain ⟨_, _, _, _, _, requested, left, _, -, -, -, hrefused, -⟩ := (Pass.mismatch_iff_cut hin).mp hr
  obtain ⟨_, _, -, ⟨content, sink, taken, -, -, -, hwrite⟩, -⟩ := hrefused
  exact hsink sink content requested left (congrArg Prod.fst hwrite)

/-- Nor is a sink that has room for all that the limit lets through. -/
theorem not_mismatch_of_backed [Sink κ] [Store κ] (hu : schema.Throughout Table.Unhandled ref)
    (start : Encoding κ S) (hbacked : start.output.Backed) (label : String) (expected actual : Nat) :
    ((framing.encode schema config ref block).result start).1 ≠ .error (.sizeMismatch label expected actual) := by
  intro hr
  obtain ⟨content, outcome, hhere, hthere⟩ : Concurs (framing.encode schema config ref block : Encode κ S Unit)
      (framing.encode schema config ref block : Encode Bytes S Unit) := concurs_framing hu config framing block
  by_cases htakes : start.output.Takes content.length
  · rw [hhere.fits start hbacked htakes] at hr
    -- a byte string with just enough room comes to the same
    have hbytes := hthere.fits ⟨.ofSink [] content.length, start.handlers⟩ (fun _ _ => trivial)
      (.inr (Nat.le_refl content.length))
    exact not_mismatch_of_plain hu plain_bytes _ label expected actual ((congrArg Prod.fst hbytes).trans hr)
  · obtain ⟨failure, after, hfails, requested, left, rfl⟩ := (hhere.overruns start hbacked htakes).fails
    rw [hfails] at hr
    cases hr

open Pass in
/-- What a mismatch means, for any sink and any limit. As long as handlers leave the limit alone, one of them says
it, or the second pass over the message that it names ended otherwise than the first: with another count, with a
piece that is longer than what was left, with a handler that said that a limit was crossed, or because the sink
said so of bytes that the limit let through. Without handlers it is always the sink, though both passes are of one
length. So it is never said over a sink that has room for all that the limit lets through, or that says no such
thing. -/
theorem mismatch_means [Sink κ] (schema : Schema Ref) (config : EncodeConfig) (framing : Framing) (ref : Ref)
    (block : Bytes) (start : Encoding κ S) (label : String) (expected actual : Nat) :
    let root := call schema config framing ref block start
    let ended := ((framing.encode schema config ref block).result start).1
    (Handler.Keeps κ Ref S → ended = .error (.sizeMismatch label expected actual) →
      root.HandlerFails schema config (.sizeMismatch label expected actual) ∨
        ∃ pass ref block here entry, Within schema config root pass ∧
          pass.ComesTo schema config (.message label ref block) here ∧
          Enters schema config pass.levels ref block here expected entry ∧
          let second := ofMessage schema config pass.levels ref block entry
          let ended := second.result schema config
          (ended.1 = .ok () ∧ ended.2.output.written = actual ∧ actual ≠ expected) ∨
            ∃ requested left, ended.1 = .error (.stream (.limitExceeded requested left)) ∧
              actual = ended.2.output.written + requested ∧
              (second.Overruns schema config ∧ expected < actual ∨
                second.Refused schema config requested left ended.2.output.written ∨
                second.HandlerFails schema config (.stream (.limitExceeded requested left)))) ∧
    (schema.Throughout Table.Unhandled ref →
      (ended = .error (.sizeMismatch label expected actual) ↔ root.Cut schema config label expected actual) ∧
      (Sink.Plain κ → ended ≠ .error (.sizeMismatch label expected actual)) ∧
      ∀ [Store κ], start.output.Backed → ended ≠ .error (.sizeMismatch label expected actual)) := by
  intro root ended
  have hended : (root.result schema config).1 = ended := congrArg Prod.fst (result_call framing ref block start)
  refine ⟨fun hkeeps hr => ?_, fun hu => ⟨?_, fun hsink => ?_, fun hbacked => ?_⟩⟩
  · exact mismatch_cases hkeeps (in_call (schema.calm_of_keeps hkeeps) config framing trivial block start)
      (hended.trans hr)
  · rw [← hended]
    exact mismatch_iff_cut (in_call schema.calm_of_unhandled config framing hu block start)
  · exact not_mismatch_of_plain hu hsink start label expected actual
  · exact not_mismatch_of_backed hu start hbacked label expected actual

/-- A letter of six bytes, with a stamp of two at its end, into a buffer of five. -/
def cramped (limit : Nat) : Encoding FixedBuffer Empty := ⟨.ofSink (.ofBytes (Bytes.zeros 5)) limit, []⟩

/-- Where the limit is longer than the buffer it is said to be the stamp, by the sink; where it is not, it is the
limit. -/
theorem mismatch_means_letter :
    letter.Throughout Table.Unhandled false ∧ Handler.Keeps FixedBuffer Bool Empty ∧ (cramped 5).output.Backed ∧
    ∃ block, (Pass.call letter {} .bare false block (cramped 100)).Cut letter {} "stamp" 2 2 ∧
      (∀ expected actual, ((encodeMessage letter {} false block).result (cramped 5)).1 ≠
        .error (.sizeMismatch "stamp" expected actual)) := by
  let block : Bytes := 7 :: Bytes.zeros 15 ++ [4, 0, 0, 0, 5] ++ Bytes.zeros 5
  have hkeeps : Handler.Keeps FixedBuffer Bool Empty := fun _ _ _ => ⟨rfl, rfl⟩
  have hbacked : (cramped 5).output.Backed := backed_ofBuffer (Bytes.zeros 5)
  have hmismatch : ((encodeMessage letter {} false block).result (cramped 100)).1 =
      .error (.sizeMismatch "stamp" 2 2) := by cbv
  refine ⟨letter_unhandled false, hkeeps, hbacked, block, ?_, fun expected actual => ?_⟩
  · exact ((mismatch_means letter {} .bare false block (cramped 100) "stamp" 2 2).2
      (letter_unhandled false)).1.mp hmismatch
  · exact ((mismatch_means letter {} .bare false block (cramped 5) "stamp" expected actual).2
      (letter_unhandled false)).2.2 hbacked

/-- The stamp is two bytes long in every pass, and the buffer ends after the first. -/
theorem mismatch_blames_stamp :
    Table.validate letter false = .ok () ∧ letter.Throughout Table.Unhandled false ∧
    ∃ block, encodeToBytes letter true [5, 0] = .ok [8, 5] ∧
      encodeToBytes letter false block = .ok [8, 7, 34, 2, 8, 5] ∧
      ((encodeMessage letter {} false block).result (cramped 100)).1 = .error (.sizeMismatch "stamp" 2 2) := by
  refine ⟨rfl, letter_unhandled false, 7 :: Bytes.zeros 15 ++ [4, 0, 0, 0, 5] ++ Bytes.zeros 5, ?_, ?_, ?_⟩
  · cbv
  · cbv
  · cbv

end

end BlockCodec
