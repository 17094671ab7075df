import BlockCodec.Proofs.Actions
import BlockCodec.Proofs.Soundness
import BlockCodec.Proofs.WireForm

/-!
# Blocks that can be reached

A block that has been initialised and then decoded into and worked on through views, by whatever
succeeded and whatever failed, is `Coherent`: all that is in use can be read. So it can be encoded,
too: `coherent_of_reached`.
-/

namespace BlockCodec

variable {Ref : Type} {schema : Schema Ref} {ref : Ref} {field : Field Ref} {size levels : Nat}
  {block stored : Bytes}

-- ---------------------------------------------------------------------------
-- Coherent blocks
-- ---------------------------------------------------------------------------

/-- What is in use in a field can be read: its array is not longer than its capacity, the active
tag of its group is that of a member, its texts end and its bytes stay inside their storage. -/
structure Field.Coherent (table : Table Ref) (block : Bytes) (field : Field Ref) : Prop where
  count_le : field.multiplicity = .repeated →
    ∃ count, field.slot block = .ok count ∧ count ≤ field.capacity
  active : ∀ group, field.multiplicity = .oneof group → ∃ active, field.slot block = .ok active ∧
    (active = 0 ∨ ∃ member ∈ table.members group, member.tag = active)
  text : field.kind = .text → ∀ span stored, field.Place .loose block span →
    block.slice? span = some stored → 0 ∈ stored
  bytes : field.kind = .bytes → ∀ span stored, field.Place .loose block span →
    block.slice? span = some stored → Bytes.ofLittleEndian (stored.take 4) ≤ field.dataSize - 4

/-- Every field is coherent, in the messages inside the block too. -/
inductive Schema.Coherent (schema : Schema Ref) : Ref → Bytes → Prop
  | intro {ref : Ref} {block : Bytes} :
    (∀ field ∈ (schema ref).fields, field.Coherent (schema ref) block) →
    (∀ field ∈ (schema ref).fields, ∀ inner, field.kind = .message inner → ∀ span stored,
      field.Place .loose block span → block.slice? span = some stored →
        Coherent schema inner stored) →
    Coherent schema ref block

theorem Field.coherent_of_keeps (hlaid : field.Laid schema size) (hs : size ≤ block.length)
    {table : Table Ref} (h : field.Keeps .sound table block) : field.Coherent table block := by
  have hh := hlaid.inBlock
  have hslot : field.sizeOffset.isSome → ∃ value, field.slot block = .ok value := fun ho => by
    obtain ⟨_, _, -, -, -, hslot⟩ := hlaid.slot_ok hs ho
    exact ⟨_, hslot⟩
  refine ⟨fun hm => ?_, fun group hm => ?_, fun hk span stored hp hst => ?_,
    fun hk span stored hp hst => ?_⟩
  · obtain ⟨count, hcount⟩ := hslot (hlaid.slot_isSome (.inl (by simp [isRepeated, hm])))
    have hle := h.slot hh count hcount
    simp only [Discipline.sound, hm] at hle
    exact ⟨count, hcount, hle⟩
  · obtain ⟨active, hactive⟩ := hslot (hlaid.slot_isSome (.inr (by simp [group?, hm])))
    have hmember := h.slot hh active hactive
    simp only [Discipline.sound, hm] at hmember
    refine ⟨active, hactive, hmember.imp id ?_⟩
    rintro ⟨member, hmem, hg, ht⟩
    refine ⟨member, Schema.mem_members hmem (hg.2.trans ?_), ht⟩
    simp [group?, hm]
  · have hsound := h.value hh span stored hp hst
    have hl := hlaid.length_place hp hst
    have hpos := dataSize_pos hlaid.suits (by simp [hk])
    simp only [Discipline.sound, Sound, hk] at hsound
    rw [Bytes.byte_eq_getElem (by omega)] at hsound
    exact hsound ▸ List.getElem_mem _
  · have hsound := h.value hh span stored hp hst
    have hl := hlaid.length_place hp hst
    simp only [Discipline.sound, Sound, hk] at hsound
    omega

theorem Schema.coherent_of_holds (hlaid : schema.Laid levels ref)
    (hu : schema.Throughout Table.Unhandled ref) (hs : (schema ref).size ≤ block.length)
    (h : schema.Holds .sound ref block) : schema.Coherent ref block := by
  induction hlaid generalizing block with
  | @intro levels ref hl _ ih =>
    have hat := fun field hf => holds_iff.mp h field hf trivial
    refine .intro (fun field hf => ?_) fun field hf inner hk span stored hp hst => ?_
    · exact Field.coherent_of_keeps (hl.laid field hf (hu.here field hf)) hs (hat field hf).keeps
    · have hh := hu.here field hf
      have hn := Table.mem_nested hf hh hk
      have hfits := hl.stored field hf hh
      have hlen := hfits.length_place hp hst
      refine ih inner hn (hu.nested hn) ?_ ((hat field hf).nested hh inner hk span _ hp hst)
      exact Nat.le_of_eq (hlen.trans (hfits.dataSize_of_message hk)).symm

-- ---------------------------------------------------------------------------
-- Coherent blocks have a wire form
-- ---------------------------------------------------------------------------

section

variable {forms : Ref → Bytes → Except CodecError Bytes} {table : Table Ref}

theorem Field.Coherent.payload_ok (h : field.Coherent table block) (hfits : field.Fits schema size)
    (hk : field.kind = .bytes) {span : Span}
    (hp : field.Place .loose block span) (hst : block.slice? span = some stored) :
    ∃ payload, field.payload stored = .ok payload := by
  have hle := h.bytes hk span stored hp hst
  have hsuits := hfits.suits
  have hl := hfits.length_place hp hst
  simp only [Suits, hk] at hsuits
  rw [payload, if_neg (by omega)]
  simp only [List.length_drop]
  rw [if_neg (by omega)]
  exact ⟨_, rfl⟩

theorem Field.Coherent.isPresent_ok (h : field.Coherent table block) (hlaid : field.Laid schema size)
    (hs : size ≤ block.length) (hm : field.multiplicity ≠ .repeated) :
    ∃ present, field.isPresent block = .ok present := by
  unfold isPresent
  cases hmult : field.multiplicity with
  | required => exact ⟨true, rfl⟩
  | «repeated» => exact absurd hmult hm
  | oneof group =>
    obtain ⟨active, hactive, -⟩ := h.active group hmult
    simp only [isActive, hmult, hactive]
    exact ⟨_, rfl⟩
  | optional =>
    simp only
    split
    · next ho =>
      obtain ⟨_, _, -, -, -, hslot⟩ := hlaid.slot_ok hs ho
      rw [hslot]
      exact ⟨_, rfl⟩
    · have hp : field.Place .loose block field.data := loose_single (.inr hmult)
      obtain ⟨held, hheld, -, hload⟩ := Encode.load_place hlaid.toFits hs hp
      rw [hload, bind_ok]
      unfold isNonzero
      split
      · next hk =>
        obtain ⟨payload, hpayload⟩ := h.payload_ok hlaid.toFits hk hp hheld
        rw [hpayload]
        exact ⟨_, rfl⟩
      · exact ⟨_, rfl⟩
      · exact ⟨_, rfl⟩

theorem Field.Coherent.valueForm_ok (h : field.Coherent table block) (hfits : field.Fits schema size)
    {span : Span} (hp : field.Place .loose block span) (hst : block.slice? span = some stored)
    (hn : ∀ inner, field.kind = .message inner → ∃ content, forms inner stored = .ok content) :
    ∃ content, field.valueForm forms stored = .ok content := by
  have hbody : ∃ body, field.bodyForm forms stored = .ok body := by
    unfold bodyForm
    split
    · next hk =>
      rw [textBytes, if_pos (h.text hk span stored hp hst)]
      exact ⟨_, rfl⟩
    · next hk =>
      obtain ⟨payload, hpayload⟩ := h.payload_ok hfits hk hp hst
      rw [hpayload]
      exact ⟨_, rfl⟩
    · next inner hk =>
      obtain ⟨content, hcontent⟩ := hn inner hk
      rw [hcontent]
      exact ⟨_, rfl⟩
    · exact ⟨_, rfl⟩
  obtain ⟨body, hbody⟩ := hbody
  rw [valueForm, hbody]
  exact ⟨_, rfl⟩

theorem Field.elementForms_ok {form : Bytes → Except CodecError Bytes} (hfits : field.Fits schema size)
    (hs : size ≤ block.length) (hm : field.multiplicity = .repeated)
    (hform : ∀ span stored, field.Place .loose block span → block.slice? span = some stored →
      ∃ content, form stored = .ok content)
    {index left : Nat} (hle : index + left ≤ field.capacity) :
    ∃ content, field.elementForms form block index left = .ok content := by
  induction left generalizing index with
  | zero => exact ⟨[], rfl⟩
  | succ left ih =>
    have hp : field.Place .loose block (field.element index) := loose_element hm (by omega)
    obtain ⟨held, hheld, -, hload⟩ := Encode.load_place hfits hs hp
    obtain ⟨first, hfirst⟩ := hform _ held hp hheld
    obtain ⟨rest, hrest⟩ := ih (show index + 1 + left ≤ field.capacity by omega)
    rw [elementForms, hload, bind_ok, hfirst, bind_ok, hrest]
    exact ⟨_, rfl⟩

theorem Field.Coherent.wireForm_ok (h : field.Coherent table block) (hlaid : field.Laid schema size)
    (hs : size ≤ block.length)
    (hn : ∀ inner, field.kind = .message inner → ∀ span stored, field.Place .loose block span →
      block.slice? span = some stored → ∃ content, forms inner stored = .ok content) :
    ∃ content, field.wireForm forms block = .ok content := by
  have hvalue : ∀ span stored, field.Place .loose block span → block.slice? span = some stored →
      ∃ content, field.valueForm forms stored = .ok content := fun span stored hp hst =>
    h.valueForm_ok hlaid.toFits hp hst fun inner hk => hn inner hk span stored hp hst
  by_cases hm : field.multiplicity = .repeated
  · obtain ⟨count, hcount, hle⟩ := h.count_le hm
    rw [wireForm_array forms hlaid.inBlock hm, arrayForm, hcount, bind_ok]
    split
    · exact ⟨_, rfl⟩
    · rw [if_neg (by omega)]
      split
      · have hnumber : ∀ span stored, field.Place .loose block span →
            block.slice? span = some stored → ∃ content,
              (.ok (field.scalarForm (field.kind.loadScalar stored)) : Except CodecError Bytes) =
                .ok content := fun _ _ _ _ => ⟨_, rfl⟩
        obtain ⟨numbers, hnumbers⟩ :=
          elementForms_ok hlaid.toFits hs hm hnumber (show 0 + count ≤ field.capacity by omega)
        rw [hnumbers]
        exact ⟨_, rfl⟩
      · exact elementForms_ok hlaid.toFits hs hm hvalue (by omega)
  · obtain ⟨present, hpresent⟩ := h.isPresent_ok hlaid hs hm
    rw [wireForm_single forms hlaid.inBlock hm, hpresent, bind_ok]
    cases present with
    | false => exact ⟨[], rfl⟩
    | true =>
      have hp := (Field.place_of_present hm hpresent).loosen
      obtain ⟨held, hheld, -, hload⟩ := Encode.load_place hlaid.toFits hs hp
      rw [if_pos rfl, hload]
      exact hvalue _ held hp hheld

theorem Field.wireForms_ok {fields : List (Field Ref)}
    (h : ∀ field ∈ fields, ∃ content, field.wireForm forms block = .ok content) :
    ∃ content, wireForms forms block fields = .ok content := by
  induction fields with
  | nil => exact ⟨[], rfl⟩
  | cons field rest ih =>
    obtain ⟨first, hfirst⟩ := h field (by simp)
    obtain ⟨others, hothers⟩ := ih fun other ho => h other (by simp [ho])
    rw [wireForms, hfirst, bind_ok, hothers]
    exact ⟨_, rfl⟩

end

theorem Schema.Coherent.wireForm_ok (h : schema.Coherent ref block) (hlaid : schema.Laid levels ref)
    (hu : schema.Throughout Table.Unhandled ref) (hs : (schema ref).size ≤ block.length)
    (config : EncodeConfig) {depth : Nat} (hd : levels ≤ depth) :
    ∃ content, schema.wireForm config depth ref block = .ok content := by
  induction hlaid generalizing block depth with
  | @intro levels ref hl _ ih =>
    obtain ⟨hfields, hnested⟩ := h
    obtain ⟨depth, rfl⟩ : ∃ d, depth = d + 1 := ⟨depth - 1, by omega⟩
    rw [Schema.wireForm, Table.checkBlock_ok hs]
    refine Field.wireForms_ok fun field hf => ?_
    have hh := hu.here field hf
    have hfield := hl.laid field hf hh
    refine (hfields field hf).wireForm_ok hfield hs fun inner hk span stored hp hst => ?_
    have hn := Table.mem_nested hf hh hk
    have hlen := hfield.length_place hp hst
    refine ih inner hn (hnested field hf inner hk span _ hp hst) (hu.nested hn) ?_ (by omega)
    exact Nat.le_of_eq (hlen.trans (hfield.dataSize_of_message hk)).symm

-- ---------------------------------------------------------------------------
-- Reached blocks
-- ---------------------------------------------------------------------------

/-- The blocks that come of an initialised one by decoding and by actions, failed ones too. -/
inductive Schema.Reached (schema : Schema Ref) (ref : Ref) : Bytes → Prop
  | initialised {block after : Bytes} :
    (schema.initialise ref).result block = (.ok (), after) → Reached schema ref after
  | performed {block : Bytes} (action : Action) : Reached schema ref block →
    Reached schema ref ((action.perform schema (schema ref)).result block).2
  | decoded {σ S : Type} [Source σ] [Handler Ref S] (config : DecodeConfig)
    (state : Decoding σ S) : Reached schema ref state.block →
    Reached schema ref ((decodeMessage schema config ref).result state).2.block
  | merged {σ S : Type} [Source σ] [Handler Ref S] (config : DecodeConfig)
    (state : Decoding σ S) : Reached schema ref state.block →
    Reached schema ref ((mergeMessage schema config ref).result state).2.block

namespace Schema

theorem not_carries_of_unhandled (h : schema.Throughout Table.Unhandled ref)
    (hf : field ∈ (schema ref).fields) : ¬schema.Carries field := by
  intro hc
  induction hc generalizing ref with
  | handled hh => simp [h.here _ hf] at hh
  | nested hh hk hin _ ih => exact ih (h.nested (Table.mem_nested hf hh hk)) hin

theorem unbound_of_unhandled (h : schema.Throughout Table.Unhandled ref) (block : Bytes) :
    Decode.Unbound schema ref block :=
  holds_iff.mpr fun _ hf hc => absurd hc (not_carries_of_unhandled h hf)

theorem moves_of_follows {σ S α : Type} {step : Decode σ S α} {state : Decoding σ S}
    {config : DecodeConfig} (h : Decode.Follows schema config ref step state.block) :
    schema.Moves .loose ref state.block (step.result state).2.block := by
  exact Step.Ends.left (P := fun after : Decoding σ S =>
    schema.Moves .loose ref state.block after.block)
    ((h state rfl).mono (fun _ _ h => h.moves) fun _ _ h => h.1)

/-- A block that can be reached comes of an initialised one by moves. -/
theorem Reached.moves (hg : Decode.Guarded schema (maxInitialDepth + 1) ref)
    (hu : schema.Throughout Table.Unhandled ref) (h : schema.Reached ref block) :
    ∃ start initial, (schema.initialise ref).result start = (.ok (), initial) ∧
      (schema ref).size ≤ initial.length ∧ schema.Moves .loose ref initial block := by
  have hplain : schema.Plain .loose (maxInitialDepth + 1) ref :=
    ⟨hg.laid, Nat.le_refl _, nofun⟩
  have hmove : ∀ {block after : Bytes},
      ((schema ref).size ≤ block.length → schema.Moves .loose ref block after) →
      (∃ start initial, (schema.initialise ref).result start = (.ok (), initial) ∧
        (schema ref).size ≤ initial.length ∧ schema.Moves .loose ref initial block) →
      ∃ start initial, (schema.initialise ref).result start = (.ok (), initial) ∧
        (schema ref).size ≤ initial.length ∧ schema.Moves .loose ref initial after := by
    rintro block after hm ⟨start, initial, hr, hs, hi⟩
    exact ⟨start, initial, hr, hs, hi.trans (hm (by rwa [hi.length_eq]))⟩
  induction h with
  | @initialised start initial hr =>
    exact ⟨start, initial, hr, size_le_of_initialise hr, .refl _⟩
  | performed action _ ih =>
    exact hmove (fun hs => (action.obeys hplain hs nofun).moves.toMoves hu) ih
  | decoded config state _ ih =>
    exact hmove (fun hs => moves_of_follows
      (Decode.follows_decodeMessage hg (unbound_of_unhandled hu _) hs)) ih
  | merged config state _ ih =>
    exact hmove (fun hs => moves_of_follows
      (Decode.follows_mergeMessage hg (unbound_of_unhandled hu _) hs)) ih

/-- Whatever is done to a block keeps to what all moves keep to. -/
theorem Reached.holds {discipline : Discipline Ref} (hlaw : discipline.Lawful schema .loose)
    (hg : Decode.Guarded schema (maxInitialDepth + 1) ref) (hu : schema.Throughout Table.Unhandled ref)
    (hsep : schema.Throughout (Table.Separate discipline.watches) ref) (h : schema.Reached ref block) :
    (schema ref).size ≤ block.length ∧ schema.Holds discipline ref block := by
  obtain ⟨start, initial, hr, hs, hm⟩ := h.moves hg hu
  refine ⟨by rwa [hm.length_eq], .moves hlaw hm hg.laid hsep hs ?_⟩
  exact holds_initialiseWithin hlaw hg.laid hsep (fun field hf _ hh => by simp [hu.here field hf] at hh) hr

end Schema

-- ---------------------------------------------------------------------------
-- Encoding
-- ---------------------------------------------------------------------------

section

variable {S : Type} [Handler Ref S] {form : Except CodecError Bytes} {content : Bytes}
  {config : EncodeConfig} {handlers : List S}

theorem encodedSize_of_emits
    (h : Encode.Emits (encodeMessage schema config ref block : Encode Bytes S Unit) (.ok content)) :
    encodedSize schema config ref block handlers = (.ok content.length, handlers) := by
  obtain ⟨_, _, hr, _, hc, rfl, rfl⟩ := Step.Ends.answers
    ((Encode.ends_measure h ⟨.sizing, handlers⟩).mono (fun _ _ h => h) fun _ _ h => h _ rfl)
  cases hc
  rw [encodedSize, hr]

theorem encode_of_emits
    (h : Encode.Emits (encodeMessage schema config ref block : Encode Bytes S Unit) (.ok content))
    {state : Encoding Bytes S} (hroom : state.output.Takes content.length) :
    (encodeMessage schema config ref block).result state = (.ok (), state.put content) := by
  obtain ⟨⟨⟩, _, hr, _, hc, -, rfl⟩ := Step.Ends.answers
    ((h state).mono (fun _ _ h => h) fun _ _ h => h _ rfl hroom)
  cases hc
  exact hr

end

/-- Whatever was done to a block since it was initialised, it is coherent, and it can be encoded
with as many levels as the checks follow: there is a size, and with room for it, as there is in a
byte string of any length a machine word can hold, so many bytes are appended. -/
theorem coherent_of_reached (hvalid : Table.validate schema ref = .ok ())
    (hbuilt : schema.Throughout Table.Built ref) (hu : schema.Throughout Table.Unhandled ref)
    (hsep : schema.Throughout Table.Disjoint ref) (h : schema.Reached ref block) :
    schema.Coherent ref block ∧
    ∀ (S : Type) [Handler Ref S] (config : EncodeConfig), maxValidationDepth ≤ config.maxDepth →
      ∃ content, ∀ handlers : List S,
        encodedSize schema config ref block handlers = (.ok content.length, handlers) ∧
        ∀ sink : Bytes, content.length ≤ maxSize →
          (encodeMessage schema config ref block).result ⟨.unbounded sink, handlers⟩ =
            (.ok (), ⟨⟨some (sink ++ content), maxSize, content.length⟩, handlers⟩) := by
  have hlaid := Schema.laid_of_validate hvalid hbuilt
  have hcarries := hsep.mono fun table h => (fun field hf _ => h field hf trivial :
    table.Separate schema.Carries)
  obtain ⟨hs, hholds⟩ :=
    h.holds Discipline.lawful_sound (guarded_of_validate hvalid hbuilt hcarries) hu hsep
  have hcoherent := Schema.coherent_of_holds hlaid hu hs hholds
  refine ⟨hcoherent, fun S _ config hdepth => ?_⟩
  obtain ⟨content, hform⟩ := hcoherent.wireForm_ok hlaid hu hs config
    (show maxValidationDepth + 1 ≤ config.maxDepth + 1 - 0 by omega)
  have hemits : Encode.Emits (encodeMessage schema config ref block : Encode Bytes S Unit)
      (schema.wireForm config (config.maxDepth + 1 - 0) ref block) :=
    Encode.emits_messageWithin hlaid (Schema.unbound_of_unhandled hu block) _
  rw [hform] at hemits
  refine ⟨content, fun handlers => ⟨encodedSize_of_emits hemits, fun sink hroom => ?_⟩⟩
  refine (encode_of_emits hemits (.inr ?_)).trans ?_
  · exact hroom
  · simp [Encoding.put, Output.put, Output.charge, Output.unbounded, Output.ofSink]

/-- Lines of text, sealed by bytes or by a stamp. -/
def letter : Schema Bool
  | false => ⟨"Letter", [.ofStorage 1 "number" (.varint ⟨.w32, false⟩) 0 4,
    (Field.ofStorage 2 "lines" .text 8 4).repeated 4 2,
    (Field.ofStorage 3 "seal" .bytes 20 6).oneof 1 16,
    (Field.ofStorage 4 "stamp" (.message true) 20 2).oneof 1 16], 26⟩
  | true => ⟨"Stamp", [(Field.ofStorage 1 "value" (.varint ⟨.w16, true⟩) 0 2).implicit], 2⟩

theorem letter_built (ref : Bool) : letter.Throughout Table.Built ref := by
  refine Schema.throughout_of_forall (fun ref field hf => ?_) ref
  cases ref with
  | false =>
    simp only [letter, List.mem_cons, List.not_mem_nil, or_false] at hf
    rcases hf with rfl | rfl | rfl | rfl
    · exact .ofStorage ..
    · exact .repeated _ _ (.ofStorage ..)
    · exact .oneof _ _ (.ofStorage ..)
    · exact .oneof _ _ (.ofStorage ..)
  | true =>
    cases List.mem_singleton.mp hf
    exact .implicit (.ofStorage ..)

theorem letter_unhandled (ref : Bool) : letter.Throughout Table.Unhandled ref :=
  Schema.throughout_of_forall (by decide) ref

theorem letter_disjoint (ref : Bool) : letter.Throughout Table.Disjoint ref :=
  Schema.throughout_of_forall (by decide) ref

/-- A line that fits and one that does not, after a stamp from the wire. -/
theorem coherent_of_reached_letter :
    Table.validate letter false = .ok () ∧ letter.Throughout Table.Built false ∧
    letter.Throughout Table.Unhandled false ∧ letter.Throughout Table.Disjoint false ∧
    ∃ block, letter.Reached false block ∧ letter.Coherent false block ∧
      block.take 16 = [0, 0, 0, 0, 2, 0, 0, 0, 97, 98, 0, 0, 0, 0, 0, 0] := by
  have hvalid : Table.validate letter false = .ok () := rfl
  have hinit : (letter.initialise false).result (Bytes.zeros 26) = (.ok (), Bytes.zeros 26) := rfl
  have hreached : letter.Reached false _ :=
    .performed (.pushText 2 "abcde") (.performed (.pushText 2 "ab")
      (.decoded (S := Unit) {} ⟨.ofBytes [0x22, 0x02, 0x08, 0x05], Bytes.zeros 26, []⟩
        (.initialised hinit)))
  have h := coherent_of_reached hvalid (letter_built false) (letter_unhandled false)
    (letter_disjoint false) hreached
  exact ⟨hvalid, letter_built false, letter_unhandled false, letter_disjoint false, _, hreached, h.1,
    by cbv⟩

end BlockCodec
