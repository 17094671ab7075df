import BlockCodec.Proofs.Passes

/-!
# What a step keeps and what it weighs

A step that goes well leaves the limit of its output as it is, as long as handlers do. Where nothing is handled
it also writes as many bytes in one pass as in another, whatever the sink is: `Encode.weighs_messageWithin`.
-/

namespace BlockCodec

variable {κ S Ref α : Type}

-- ---------------------------------------------------------------------------
-- Writing to any sink
-- ---------------------------------------------------------------------------

namespace Output

variable [Sink κ] {output after : Output κ} {content : Bytes} {failure : StreamError}

theorem write_ok (h : (write content).result output = (.ok (), after)) :
    after.written = output.written + content.length ∧ after.limit = output.limit ∧
      after.isSizing = output.isSizing := by
  rcases output with ⟨_ | sink, limit, written⟩
  · cases h
    exact ⟨rfl, rfl, rfl⟩
  · simp only [write, Step.result_ofRun] at h
    split at h
    · cases h
    · rcases hw : Sink.write sink content with ⟨_ | _, taken⟩ <;> rw [hw] at h <;> cases h
      exact ⟨rfl, rfl, rfl⟩

/-- A write fails in front of the sink, for the limit, or in the sink. -/
theorem write_error (h : (write content).result output = (.error failure, after)) :
    ∃ sink, output.sink = some sink ∧
      (output.remaining < content.length ∧ failure = .limitExceeded content.length output.remaining ∧
          after = output ∨
        content.length ≤ output.remaining ∧ ∃ taken, Sink.write sink content = (.error failure, taken) ∧
          after = { output with sink := some taken }) := by
  rcases output with ⟨_ | sink, limit, written⟩
  · cases h
  · refine ⟨sink, rfl, ?_⟩
    simp only [write, Step.result_ofRun] at h
    split at h
    · next hlt =>
      cases h
      exact .inl ⟨hlt, rfl, rfl⟩
    · next hle =>
      rcases hw : Sink.write sink content with ⟨_ | _, taken⟩ <;> rw [hw] at h <;> cases h
      exact .inr ⟨Nat.not_lt.mp hle, taken, rfl, rfl⟩

theorem write_refused {sink taken : κ} (hs : output.sink = some sink) (hle : content.length ≤ output.remaining)
    (hw : Sink.write sink content = (.error failure, taken)) :
    (write content).result output = (.error failure, { output with sink := some taken }) := by
  simp only [write, Step.result_ofRun, hs, Nat.not_lt.mpr hle, if_false, hw]

end Output

namespace Encode

variable [Sink κ] {label : String} {message : Encode κ S Unit} {state after : Encoding κ S}

/-- A step that goes well leaves the limit as it is, and counts only if it did before. -/
def Keeps (step : Encode κ S Unit) : Prop :=
  ∀ state after, step.result state = (.ok (), after) →
    after.output.limit = state.output.limit ∧ after.output.isSizing = state.output.isSizing

/-- A step that goes well writes so many bytes, from wherever it begins. -/
def Weighs (size : Nat) (step : Encode κ S Unit) : Prop :=
  ∀ state after, step.result state = (.ok (), after) → after.output.written = state.output.written + size

omit [Sink κ] in
theorem Keeps.forM {f : α → Encode κ S Unit} {list : List α} (h : ∀ a ∈ list, Keeps (f a)) :
    Keeps (forM list f) := by
  induction list with
  | nil =>
    rintro state _ ⟨⟩
    exact ⟨rfl, rfl⟩
  | cons a list ih =>
    intro state after hr
    rw [List.forM_cons] at hr
    obtain ⟨_, middle, ha, hlist⟩ := Step.result_bind_eq_ok.mp hr
    obtain ⟨hlimit, hsizing⟩ := h a List.mem_cons_self state middle ha
    rw [← hlimit, ← hsizing]
    exact ih (fun b hb => h b (List.mem_cons_of_mem _ hb)) middle after hlist

omit [Sink κ] in
theorem Weighs.forM {f : α → Encode κ S Unit} {list : List α} (h : ∀ a ∈ list, ∃ size, Weighs size (f a)) :
    ∃ size, Weighs size (forM list f) := by
  induction list with
  | nil =>
    refine ⟨0, ?_⟩
    rintro state _ ⟨⟩
    rfl
  | cons a list ih =>
    obtain ⟨first, hfirst⟩ := h a List.mem_cons_self
    obtain ⟨rest, hrest⟩ := ih fun b hb => h b (List.mem_cons_of_mem _ hb)
    refine ⟨first + rest, fun state after hr => ?_⟩
    rw [List.forM_cons] at hr
    obtain ⟨_, middle, ha, hlist⟩ := Step.result_bind_eq_ok.mp hr
    rw [hrest middle after hlist, hfirst state middle ha, Nat.add_assoc]

theorem chunk_ok {chunk : Chunk} (h : (onOutput chunk.perform).result state = (.ok (), after)) :
    ∃ content, chunk = .bytes content ∧ (Output.write content).result state.output = (.ok (), after.output) := by
  cases chunk with
  | failure reason => cases h
  | bytes content =>
    rw [result_bytes] at h
    rcases hwrite : (Output.write content).result state.output with ⟨_ | _, output⟩ <;> rw [hwrite] at h <;>
      cases h
    exact ⟨content, rfl, hwrite⟩

theorem chunk_error {chunk : Chunk} {failure : CodecError}
    (h : (onOutput chunk.perform).result state = (.error failure, after)) :
    chunk = .failure failure ∨ ∃ content refusal, chunk = .bytes content ∧ failure = .stream refusal ∧
      (Output.write content).result state.output = (.error refusal, after.output) := by
  cases chunk with
  | failure reason =>
    cases h
    exact .inl rfl
  | bytes content =>
    rw [result_bytes] at h
    rcases hwrite : (Output.write content).result state.output with ⟨_ | _, output⟩ <;> rw [hwrite] at h <;>
      cases h
    exact .inr ⟨content, _, rfl, rfl, hwrite⟩

theorem keeps_chunk (chunk : Chunk) : Keeps (onOutput chunk.perform : Encode κ S Unit) := by
  intro state after hr
  obtain ⟨content, rfl, hwrite⟩ := chunk_ok hr
  exact (Output.write_ok hwrite).2

theorem weighs_bytes (content : Bytes) :
    Weighs content.length (onOutput (Chunk.bytes content).perform : Encode κ S Unit) := by
  intro state after hr
  obtain ⟨_, ⟨⟩, hwrite⟩ := chunk_ok hr
  exact (Output.write_ok hwrite).1

theorem keeps_sized (h : Keeps message) (label : String) : Keeps (sized label message) := by
  intro state after hr
  obtain ⟨last, output, -, hwrite, hrest⟩ := sized_ok hr
  obtain ⟨-, hlimit, hsizing⟩ := Output.write_ok hwrite
  obtain ⟨hs, hafter⟩ | ⟨hs, inner, exit, hn, hexit, -, hafter⟩ := hrest <;> rw [hafter]
  · exact ⟨hlimit, hsizing⟩
  · refine ⟨hlimit, ?_⟩
    rw [← hsizing, hs]
    obtain ⟨sink, -, -, rfl⟩ := Output.narrow_eq_ok hn hs
    exact (h _ _ hexit).2

theorem weighs_sized {size : Nat} (h : Weighs size message) (label : String) :
    Weighs ((Varint.encode (UInt64.ofNat size)).length + size) (sized label message) := by
  intro state after hr
  obtain ⟨last, output, hlast, hwrite, hrest⟩ := sized_ok hr
  obtain rfl : last.output.written = size := (h _ _ hlast).trans (Nat.zero_add size)
  have hwritten := (Output.write_ok hwrite).1
  obtain ⟨-, hafter⟩ | ⟨-, inner, exit, -, -, hexit, hafter⟩ := hrest <;> rw [hafter]
  · simp only [Output.charge]
    omega
  · simp only [Output.rejoin, Output.charge]
    omega

end Encode

-- ---------------------------------------------------------------------------
-- Families of messages
-- ---------------------------------------------------------------------------

/-- Handlers leave the limit of an output as it is, and put no sink in and take none out. -/
def Handler.Keeps (κ Ref S : Type) [Sink κ] [Handler Ref S] : Prop :=
  ∀ (writer : ElementWriter Ref) (output : Output κ) (state : S),
    let after := ((writeElements writer : Emit κ S Unit).result (output, state)).2.1
    after.limit = output.limit ∧ after.isSizing = output.isSizing

/-- A family of messages is closed under nesting, and its handlers keep to the output. -/
structure Schema.Calm (schema : Schema Ref) (κ S : Type) [Sink κ] [Handler Ref S] (messages : Ref → Prop) :
    Prop where
  nested : ∀ {ref inner}, messages ref → inner ∈ (schema ref).nested → messages inner
  keeps : ∀ {ref field}, messages ref → field ∈ (schema ref).fields → field.isHandled = true →
    Handler.Keeps κ Ref S

/-- What a piece of a message of a family can be. -/
def Piece.In (schema : Schema Ref) (messages : Ref → Prop) : Piece Ref → Prop
  | .chunk (.bytes _) => True
  | .chunk (.failure reason) => reason.OfData
  | .message _ ref _ => messages ref
  | .handler field _ => ∃ ref, messages ref ∧ field ∈ (schema ref).fields ∧ field.isHandled = true

section

variable [Sink κ] [Handler Ref S] {schema : Schema Ref} {config : EncodeConfig} {messages : Ref → Prop}

theorem Schema.calm_of_keeps (schema : Schema Ref) (h : Handler.Keeps κ Ref S) :
    schema.Calm κ S fun _ => True where
  nested _ _ := trivial
  keeps _ _ _ := h

/-- Where nothing is handled, handlers have no say. -/
theorem Schema.calm_of_unhandled (schema : Schema Ref) : schema.Calm κ S (schema.Throughout Table.Unhandled) where
  nested hu hn := hu.nested hn
  keeps hu hf hh := by simp [hu.here _ hf] at hh

theorem Schema.Calm.pieces_in (hcalm : schema.Calm κ S messages) (config : EncodeConfig) (levels : Nat) {ref : Ref}
    (h : messages ref) (block : Bytes) :
    ∀ piece ∈ schema.pieces config levels ref block, piece.In schema messages := by
  intro piece hp
  cases schema.of_pieces config levels ref block piece hp with
  | bytes => trivial
  | failure hreason => exact hreason
  | message _ hf hh hk => exact hcalm.nested h (Table.mem_nested hf hh hk)
  | handler _ hf hh => exact ⟨ref, h, hf, hh⟩

namespace Encode

theorem keeps_withHandler (h : Handler.Keeps κ Ref S) (field : Field Ref) (slot : Nat)
    (writer : ElementWriter Ref) :
    Keeps (withHandler field slot (Handler.writeElements writer) : Encode κ S Unit) := by
  intro state after hr
  simp only [withHandler, Step.result_ofRun] at hr
  split at hr
  · cases hr
  · next handler _ =>
    rw [← (Prod.mk.inj hr).2]
    exact h writer state.output handler

theorem keeps_piece (hcalm : schema.Calm κ S messages) {levels : Nat}
    (hnested : ∀ ref block, messages ref → Keeps (messageWithin schema config levels ref block : Encode κ S Unit))
    {piece : Piece Ref} (hin : piece.In schema messages) :
    Keeps (piece.perform schema config levels : Encode κ S Unit) := by
  cases piece with
  | chunk part => exact keeps_chunk part
  | message label ref block => exact keeps_sized (hnested ref block hin) label
  | handler field slot =>
    obtain ⟨ref, hm, hf, hh⟩ := hin
    exact keeps_withHandler (hcalm.keeps hm hf hh) field slot _

theorem keeps_messageWithin (hcalm : schema.Calm κ S messages) (levels : Nat) (ref : Ref) (block : Bytes)
    (h : messages ref) : Keeps (messageWithin schema config levels ref block : Encode κ S Unit) := by
  induction levels generalizing ref block with
  | zero => exact nofun
  | succ levels ih =>
    rw [messageWithin_eq]
    exact Keeps.forM fun piece hp => keeps_piece hcalm ih (hcalm.pieces_in config _ h block piece hp)

variable (config) in
theorem weighs_piece {levels : Nat} (hnested : ∀ ref block, schema.Throughout Table.Unhandled ref →
      ∃ size, Weighs size (messageWithin schema config levels ref block : Encode κ S Unit))
    {piece : Piece Ref} (hin : piece.In schema (schema.Throughout Table.Unhandled)) :
    ∃ size, Weighs size (piece.perform schema config levels : Encode κ S Unit) := by
  cases piece with
  | chunk part =>
    cases part with
    | bytes content => exact ⟨_, weighs_bytes content⟩
    | failure reason => exact ⟨0, nofun⟩
  | message label ref block =>
    obtain ⟨size, hsize⟩ := hnested ref block hin
    exact ⟨_, weighs_sized hsize label⟩
  | handler field slot =>
    obtain ⟨ref, hu, hf, hh⟩ := hin
    simp [hu.here field hf] at hh

variable (config) in
/-- Without handlers a message is as long in one pass as in another. -/
theorem weighs_messageWithin (levels : Nat) (ref : Ref) (block : Bytes)
    (hu : schema.Throughout Table.Unhandled ref) :
    ∃ size, Weighs size (messageWithin schema config levels ref block : Encode κ S Unit) := by
  induction levels generalizing ref block with
  | zero => exact ⟨0, nofun⟩
  | succ levels ih =>
    rw [messageWithin_eq]
    exact Weighs.forM fun piece hp =>
      weighs_piece config ih ((schema.calm_of_unhandled (κ := κ) (S := S)).pieces_in config _ hu block piece hp)

variable (config) in
theorem weighs_pieces (levels : Nat) {pieces : List (Piece Ref)}
    (hin : ∀ piece ∈ pieces, piece.In schema (schema.Throughout Table.Unhandled)) :
    ∃ size, Weighs size (forM pieces (Piece.perform schema config levels) : Encode κ S Unit) :=
  Weighs.forM fun piece hp => weighs_piece config (weighs_messageWithin config levels) (hin piece hp)

end Encode

end

end BlockCodec
