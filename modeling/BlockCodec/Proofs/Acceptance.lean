import BlockCodec.Proofs.Mirroring
import BlockCodec.Proofs.RoundTrip
import BlockCodec.Proofs.Lookup

/-!
# What is encoded is decoded

Whatever the encoder makes of a block whose texts are legible, the decoder accepts it over a block that
is ready for it, field by field in table order, and mirrors the block: `Decode.mirrors_messageWithin`.
Handled fields that are unbound are not on the wire, so a required one among them is what a message may
still be refused for.
-/

namespace BlockCodec

variable {Ref S : Type} {schema : Schema Ref} {config : DecodeConfig}
  {nested : Ref → Decode Bytes S Unit} {depth levels : Nat} {table : Table Ref} {field : Field Ref}
  {ref : Ref} {front rest : List (Field Ref)} {seen more : List Nat} {E : CodecError → Prop}
  {last : Prop} {P Q : Bytes → Prop} {ready : Ref → Bytes → Prop}
  {block start before middle after stored held content body first others : Bytes}

namespace Decode

-- ---------------------------------------------------------------------------
-- Values in their places
-- ---------------------------------------------------------------------------

variable {forms : Ref → Bytes → Except CodecError Bytes}
  {same : Ref → Bytes → Bytes → Prop}

/-- The value in this place goes on the wire. -/
structure Sends (field : Field Ref) (block : Bytes) (span : Span) : Prop where
  present : field.isPresent block = .ok true
  place : field.Place .strict block span

/-- A block that is offered to a decoder: its tables are laid out well, and its texts are legible. -/
structure Offered (schema : Schema Ref) (levels : Nat) (ref : Ref) (block : Bytes) : Prop where
  laid : schema.Laid levels ref
  levels_le : levels ≤ maxInitialDepth + 1
  disjoint : schema.Throughout Table.Disjoint ref
  legible : schema.Holds .legible ref block
  size_le : (schema ref).size ≤ block.length

/-- So are the messages inside it. -/
theorem Offered.inside {inner : Ref} {span : Span} (h : Offered schema (levels + 1) ref block)
    (hf : field ∈ (schema ref).fields) (hh : field.isHandled = false) (hk : field.kind = .message inner)
    (hp : field.Place .loose block span) (hst : block.slice? span = some stored) :
    Offered schema levels inner stored := by
  have hn := Table.mem_nested hf hh hk
  have hfield := h.laid.here.laid field hf hh
  refine ⟨h.laid.nested hn, Nat.le_of_succ_le h.levels_le, h.disjoint.nested hn, ?_, Nat.le_of_eq ?_⟩
  · exact (Schema.holds_iff.mp h.legible field hf hh).nested hh inner hk span stored hp hst
  · exact ((hfield.length_place hp hst).trans (hfield.dataSize_of_message hk)).symm

/-- A block whose form is to be accepted over one that is ready for it, given that this is so of the
messages inside it, of which `same` says what is made of them. -/
structure Acceptable (schema : Schema Ref) (E : CodecError → Prop) (ready : Ref → Bytes → Prop)
    (same : Ref → Bytes → Bytes → Prop) (forms : Ref → Bytes → Except CodecError Bytes)
    (nested : Ref → Decode Bytes S Unit) (levels : Nat) (ref : Ref) (block : Bytes) : Prop
    extends Offered schema (levels + 1) ref block where
  receptive : schema.Receptive ready
  inner : ∀ field ∈ (schema ref).fields, field.isHandled = false → ∀ inner, field.kind = .message inner →
    ∀ span stored payload held, Sends field block span → block.slice? span = some stored →
      forms inner stored = .ok payload → payload.length < 2 ^ 32 → held.length = stored.length →
      ready inner held → Accepts E True (nested inner) payload held fun after =>
        after.length = held.length ∧ same inner stored after

/-- The form of a field has been read: nothing but the field and its group has changed. -/
structure Recorded (schema : Schema Ref) (same : Ref → Bytes → Bytes → Prop) (ref : Ref)
    (field : Field Ref) (block before after : Bytes) : Prop where
  kept : Bytes.AgreeOn (fun place => ¬(schema ref).updates field place) before after
  echoes : field.Echoes same block after

/-- A value is stored in the place of a single field that is ready, and its flag is set. -/
theorem recorded_single (hlaid : field.Laid schema (schema ref).size)
    (hself : field.spans.Pairwise Span.Apart) (hm : field.multiplicity ≠ .repeated)
    (hp : field.isPresent block = .ok true) (hst : block.slice? field.data = some stored)
    (hs : (schema ref).size ≤ before.length)
    (hkept : Bytes.AgreeOn (fun place => ¬(schema ref).updates field place) before middle)
    (hactive : field.group?.isSome → field.slot middle = .ok field.tag)
    (hheld : middle.slice? field.data = some held) (hl : content.length = held.length)
    (hrepeats : field.Repeats same stored content) :
    ∃ after, (conclude field).result (Bytes.overwrite middle field.data.start content) = (.ok (), after) ∧
      Recorded schema same ref field block before after := by
  have hfilled := Bytes.agreeOn_overwrite hheld hl
  have hdata : ∀ place ∈ field.data, ¬field.slotPlaces place := fun place hin => by
    rw [← Field.storage_eq_data hm] at hin
    exact Field.not_slotPlaces_of_storage hlaid.inBlock hself hin
  have hsize : (schema ref).size ≤ (Bytes.overwrite middle field.data.start content).length := by
    rwa [← hfilled.1, ← hkept.1]
  obtain ⟨after, hr, hrest, hsettled, hflag⟩ := conclude_ok hlaid hsize
  refine ⟨after, hr, ?_, Field.echoes_single hm hp hst ?_ hrepeats (fun hg => ?_) hflag⟩
  · refine hkept.trans ((hfilled.mono fun place hp hin => hp (.inl ?_)).trans
      (hrest.mono fun place hp hin => hp (.inl (Field.extent_of_slotPlaces hlaid.inBlock hin))))
    exact Field.extent_of_data hm hin
  · rw [← hrest.slice hdata]
    exact Bytes.slice_overwrite_self hheld hl
  · rw [hsettled hg, Field.slot_congr (hfilled.mono fun place hp hin => hdata place hin hp)]
    exact hactive hg

section

variable (h : Acceptable schema E ready same forms nested levels ref block)
  (hf : field ∈ (schema ref).fields) (hh : field.isHandled = false)

include h hf hh

theorem Acceptable.value {span : Span} (hp : Sends field block span)
    (hst : block.slice? span = some stored) (hform : field.bodyForm forms stored = .ok content)
    (hshort : content.length < 2 ^ 32) (hl : held.length = field.dataSize)
    (hready : ∀ inner, field.kind = .message inner → ready inner held) :
    Accepts E last (value config nested field) content held fun after =>
      after.length = held.length ∧ field.Repeats same stored after := by
  have hlaid := h.laid.here.laid field hf hh
  have hlen := hlaid.length_place hp.place hst
  have hlegible :=
    (Schema.holds_iff.mp h.legible field hf hh).keeps.value hh span stored hp.place.loosen hst
  refine accepts_value hlaid.suits hlen hl hlegible hform hshort fun inner payload hk hinner hlt => ?_
  exact h.inner field hf hh inner hk span stored payload held hp hst hinner hlt (hl.trans hlen.symm)
    (hready inner hk)

/-- The form of a single field is accepted where the field awaits a value. -/
theorem Acceptable.single (hm : field.multiplicity ≠ .repeated)
    (hp : field.isPresent block = .ok true) (hst : block.slice? field.data = some stored)
    (hform : field.bodyForm forms stored = .ok content) (hshort : content.length < 2 ^ 32)
    (hs : (schema ref).size ≤ before.length) (ha : field.Awaits ready before) (type : WireType) :
    Accepts E False (Decode.stored schema config nested (schema ref) field type) content before
      (Recorded schema same ref field block before) := by
  have hlaid := h.laid.here.laid field hf hh
  have hself := (h.disjoint.here field hf trivial).1
  obtain ⟨middle, hprepare, hkept, hactive, hready⟩ :=
    prepare_ok h.receptive h.laid (Nat.le_of_succ_le_succ h.levels_le) h.disjoint hs hf hh hm ha
  obtain ⟨held, hheld⟩ : ∃ held, middle.slice? field.data = some held := by
    refine Bytes.slice_isSome ?_
    have hwithin := hlaid.storage_within (hkept.1 ▸ hs)
    rwa [Field.storage_eq_data hm] at hwithin
  have hlen : held.length = field.dataSize := (Bytes.length_slice hheld).trans hlaid.length_data
  have hvalue : Accepts E False (Decode.value config nested field) content held fun after =>
      after.length = held.length ∧ field.Repeats same stored after :=
    h.value hf hh ⟨hp, Field.place_of_present hm hp⟩ hst hform hshort hlen
      fun inner hk => hready inner hk held hheld
  have hinside : Accepts E False (Decode.inside field field.data (Decode.value config nested field))
      content middle fun filled => ∃ after, filled = Bytes.overwrite middle field.data.start after ∧
        after.length = held.length ∧ field.Repeats same stored after :=
    hvalue.inside hheld fun after hafter => ⟨after, rfl, hafter⟩
  rw [stored_single hm]
  refine Accepts.behind (restores_onBlock hprepare) (hinside.thenEdit ?_)
  rintro _ ⟨after, rfl, hl, hrepeats⟩
  exact recorded_single hlaid hself hm hp hst hs hkept hactive hheld hl hrepeats

end

-- ---------------------------------------------------------------------------
-- Elements
-- ---------------------------------------------------------------------------

variable {count total : Nat}

/-- An array that has so many elements, the first ones of `block`, where all else is as it was. -/
structure Grown (same : Ref → Bytes → Bytes → Prop) (field : Field Ref) (block before : Bytes)
    (count : Nat) (after : Bytes) : Prop where
  slot : field.slot after = .ok count
  kept : Bytes.AgreeOn (fun place => ¬field.extent place) before after
  values : ∀ index < count, ∀ stored, block.slice? (field.element index) = some stored →
    ∃ content, after.slice? (field.element index) = some content ∧ field.Repeats same stored content

/-- An element that has been written is counted. -/
theorem Grown.claim (hg : Grown same field block before count middle)
    (hlaid : field.Laid schema (schema ref).size) (hself : field.spans.Pairwise Span.Apart)
    (hm : field.multiplicity = .repeated) (hs : (schema ref).size ≤ before.length)
    (hc : count < field.capacity) (hword : count + 1 < 2 ^ 32)
    (hheld : middle.slice? (field.element count) = some held) (hl : content.length = held.length)
    (hst : block.slice? (field.element count) = some stored)
    (hrepeats : field.Repeats same stored content) :
    ∃ final, (Edit.setSlot field (count + 1)).result
        (Bytes.overwrite middle (field.element count).start content) = (.ok (), final) ∧
      Grown same field block before (count + 1) final := by
  obtain ⟨final, hr, hslot, hkept, hlast, hothers⟩ :=
    hlaid.count_element hself hm (hg.kept.1 ▸ hs) hc hword hheld hl
  refine ⟨final, hr, hslot, hg.kept.trans hkept, fun index hi held' hst' => ?_⟩
  rcases Nat.lt_succ_iff_lt_or_eq.mp hi with hlt | rfl
  · obtain ⟨value, hvalue, hsame⟩ := hg.values index hlt held' hst'
    exact ⟨value, (hothers index (by omega) (Nat.ne_of_lt hlt)).trans hvalue, hsame⟩
  · obtain rfl : stored = held' := Option.some.inj (hst.symm.trans hst')
    exact ⟨content, hlast, hrepeats⟩

/-- All elements of an array have been read. -/
theorem Grown.recorded (hg : Grown same field block before total after)
    (hm : field.multiplicity = .repeated) (htotal : field.slot block = .ok total) :
    Recorded schema same ref field block before after where
  kept := hg.kept.mono fun _ hp hin => hp (.inl hin)
  echoes := by
    refine ⟨fun _ => hg.slot.trans htotal.symm, fun h => by simp [hm] at h, ?_⟩
    intro span stored hp hst
    cases hp with
    | single h => simp [hm] at h
    | active h => simp [hm] at h
    | element _ _ hu =>
      obtain ⟨count, hcount, hi⟩ := hu rfl
      rw [htotal, Except.ok.injEq] at hcount
      exact hg.values _ (hcount ▸ hi) stored hst

/-- The numbers of a packed array. -/
theorem accepts_packedElements (hlaid : field.Laid schema (schema ref).size)
    (hself : field.spans.Pairwise Span.Apart) (hm : field.multiplicity = .repeated)
    (hk : field.kind.isScalar = true) (hs : (schema ref).size ≤ before.length)
    (hle : total ≤ field.capacity) (hword : total < 2 ^ 32) {left room : Nat}
    (hform : field.elementForms (fun stored =>
      .ok (field.scalarForm (field.kind.loadScalar stored))) block count left = .ok content)
    (hsum : count + left = total) (hroom : content.length ≤ room)
    (hg : Grown same field block before count middle) :
    Accepts E True (Decode.packedElements field room : Decode Bytes S Unit) content middle
      (Grown same field block before total) := by
  induction left generalizing count room content middle with
  | zero =>
    simp only [Field.elementForms, Except.ok.injEq] at hform
    obtain rfl := hform
    obtain rfl : count = total := by omega
    refine Restores.accepts ?_ hg
    cases room with
    | zero => exact restores_pure () middle
    | succ room =>
      refine restores_get fun state _ _ hlast => ?_
      rw [if_pos (by simpa [Input.isExhausted] using hlast trivial)]
      exact restores_pure () middle
  | succ left ih =>
    simp only [Field.elementForms, bind_eq_ok, pure_eq_ok, Except.ok.injEq] at hform
    obtain ⟨stored, hload, first, hfirst, others, hothers, rfl⟩ := hform
    have hcap : count < field.capacity := by omega
    have hst := Field.slice_of_load hload
    have hplace : ∀ block, field.Place .loose block (field.element count) := fun _ =>
      Field.loose_element hm hcap
    obtain ⟨held, hheld, hlen⟩ := hlaid.place_slice (hg.kept.1 ▸ hs) (hplace middle)
    obtain ⟨value, hread, hback⟩ := reads_scalarForm hk hlaid.suits (hlaid.length_place (hplace block) hst)
    have hwrite : (Edit.change field (field.element count)
        fun stored => field.kind.storeScalar stored value).result middle = _ := Edit.result_change hheld _
    obtain ⟨final, hset, hnext⟩ := hg.claim hlaid hself hm hs hcap (by omega) hheld
      (Field.length_storeScalar field.kind held value) hst
      ((Field.repeats_iff_scalar hk).mpr (hback held hlen))
    have hpos := length_scalarForm_pos hk (field.kind.loadScalar stored)
    rw [hfirst] at hpos hread
    rw [List.length_append] at hroom
    obtain ⟨room, rfl⟩ : ∃ n, room = n + 1 := ⟨room - 1, by omega⟩
    refine accepts_get fun state _ hleft _ => ?_
    rw [List.length_append] at hleft
    rw [if_neg (by simp [Input.isExhausted]; omega)]
    refine Accepts.behind (restores_nextElement hg.slot hcap) ((restores_onInput hread).seq ?_)
    refine Accepts.behind (restores_onBlock hwrite) (Accepts.behind (restores_onBlock hset) ?_)
    exact ih hothers (by omega) (by omega) hnext

section

variable (h : Acceptable schema E ready same forms nested levels ref block)
  (hs : (schema ref).size ≤ before.length)

include h hs

/-- An element that is not packed. -/
theorem Acceptable.element (hf : field ∈ (schema ref).fields) (hh : field.isHandled = false)
    (hm : field.multiplicity = .repeated) (htotal : field.slot block = .ok total)
    (hle : total ≤ field.capacity) (hword : total < 2 ^ 32) (hc : count < total)
    (hst : block.slice? (field.element count) = some stored)
    (hform : field.bodyForm forms stored = .ok content) (hshort : content.length < 2 ^ 32)
    (hg : Grown same field block before count middle) :
    Accepts E last (Decode.element schema config nested field) content middle
      (Grown same field block before (count + 1)) := by
  have hlaid := h.laid.here.laid field hf hh
  have hself := (h.disjoint.here field hf trivial).1
  have hcap : count < field.capacity := by omega
  have hsends : Sends field block (field.element count) := by
    refine ⟨?_, .element hm hcap fun _ => ⟨total, htotal, hc⟩⟩
    simpa [Field.isPresent_of_count hm htotal] using Nat.zero_lt_of_lt hc
  have hplace : field.Place .loose middle (field.element count) := Field.loose_element hm hcap
  obtain ⟨held, hheld, hlen⟩ := hlaid.place_slice (hg.kept.1 ▸ hs) hplace
  have hvalue : ∀ start : Bytes, start.length = held.length →
      (∀ inner, field.kind = .message inner → ready inner start) →
      Accepts E False (Decode.value config nested field) content start fun after =>
        after.length = held.length ∧ field.Repeats same stored after :=
    fun start hstart hready => hstart ▸
      h.value hf hh hsends hst hform hshort (hstart.trans hlen) hready
  have hinside : ∀ step : Decode Bytes S Unit,
      Accepts E False step content held (fun after =>
        after.length = held.length ∧ field.Repeats same stored after) →
      Accepts E False (Decode.inside field (field.element count) step) content middle fun filled =>
        ∃ after, filled = Bytes.overwrite middle (field.element count).start after ∧
          after.length = held.length ∧ field.Repeats same stored after :=
    fun step hstep => hstep.inside hheld fun after hafter => ⟨after, rfl, hafter⟩
  refine Accepts.behind (restores_nextElement hg.slot hcap) ((hinside _ ?_).thenEdit ?_)
  · generalize Decode.value config nested field = step at hvalue ⊢
    split
    · next inner hk =>
      have hn := Table.mem_nested hf hh hk
      have hbelow := h.laid.nested hn
      obtain ⟨fresh, hr⟩ := Schema.initialiseWithin_ok (hbelow.mono (Nat.le_of_succ_le h.levels_le))
        (Nat.le_of_eq (hlen.trans (hlaid.dataSize_of_message hk)).symm)
      refine Accepts.behind (restores_onBlock hr) (hvalue fresh ?_ fun inner' hk' => ?_)
      · exact (Schema.keepsLength_initialiseWithin schema _ inner).length_eq hr
      · obtain rfl : inner = inner' := by simpa [hk] using hk'
        exact h.receptive.initialised hbelow (h.disjoint.nested hn) hr
    · next hk => exact hvalue held rfl fun inner hk' => absurd hk' (hk inner)
  · rintro _ ⟨after, rfl, hl, hrepeats⟩
    exact hg.claim hlaid hself hm hs hcap (by omega) hheld hl hst hrepeats

end

-- ---------------------------------------------------------------------------
-- One field
-- ---------------------------------------------------------------------------

section

variable [Handler Ref S] (h : Acceptable schema E ready same forms nested levels ref block)
  (ht : (schema ref).fields = front ++ field :: rest) (hs : (schema ref).size ≤ before.length)

include h ht hs

/-- The elements of an array, each with its header. -/
theorem Acceptable.elements (hh : field.isHandled = false) (hm : field.multiplicity = .repeated)
    (htotal : field.slot block = .ok total) (hle : total ≤ field.capacity) (hword : total < 2 ^ 32) {left : Nat}
    (hform : field.elementForms (field.valueForm forms) block count left = .ok content)
    (hsum : count + left = total) (hshort : content.length < 2 ^ 32)
    (hg : Grown same field block before count middle)
    (hn : ∀ after, Grown same field block before total after →
      Continues schema config nested depth (schema ref) E front others after Q) :
    Continues schema config nested depth (schema ref) E front (content ++ others) middle Q := by
  have hf : field ∈ (schema ref).fields := by simp [ht]
  induction left generalizing count content middle with
  | zero =>
    simp only [Field.elementForms, Except.ok.injEq] at hform
    obtain rfl := hform
    obtain rfl : count = total := by omega
    exact hn middle hg
  | succ left ih =>
    simp only [Field.elementForms, Field.valueForm, bind_eq_ok, pure_eq_ok] at hform
    obtain ⟨stored, hload, _, ⟨body, hbody, rfl⟩, more, hmore, rfl⟩ := hform
    simp only [List.length_append] at hshort
    have helement : Accepts E False (Decode.element schema config nested field) body middle
        (Grown same field block before (count + 1)) :=
      h.element hs hf hh hm htotal hle hword (by omega) (Field.slice_of_load hload) hbody (by omega) hg
    have hstored : Accepts E False
        (Decode.stored schema config nested (schema ref) field field.kind.wireType) body middle
        (Grown same field block before (count + 1)) := by
      rwa [stored_repeated hm]
      rintro ⟨hd, hk⟩
      exact Kind.wireType_ne_delimited hk hd
    rw [List.append_assoc]
    exact Continues.again h.laid.here.toFits ht hh field.accepts_wireType hstored fun next hnext =>
      ih hmore (by omega) (by omega) hnext

/-- The form of an array that is not empty. -/
theorem Acceptable.array (hh : field.isHandled = false) (hm : field.multiplicity = .repeated)
    (htotal : field.slot block = .ok total) (hpos : 0 < total)
    (hform : field.arrayForm forms block = .ok first) (hshort : first.length < 2 ^ 32)
    (ha : field.Awaits ready before) (hn : ∀ after, Recorded schema same ref field block before after →
      Continues schema config nested depth (schema ref) E (front ++ [field]) others after Q) :
    Continues schema config nested depth (schema ref) E front (first ++ others) before Q := by
  have hf : field ∈ (schema ref).fields := by simp [ht]
  have hlaid := h.laid.here.laid field hf hh
  have hempty : Grown same field block before 0 before :=
    ⟨ha.count hm, .refl _ _, fun _ hi => absurd hi (Nat.not_lt_zero _)⟩
  have hword := hlaid.slot_lt h.size_le htotal
  simp only [Field.slotSize, hm, reduceCtorEq, if_false] at hword
  simp only [Field.arrayForm, htotal, bind_ok, if_neg (Nat.ne_of_gt hpos)] at hform
  split at hform
  · cases hform
  · next hle =>
    split at hform
    · next hp =>
      simp only [bind_eq_ok, pure_eq_ok] at hform
      obtain ⟨numbers, hnumbers, rfl⟩ := hform
      simp only [Field.packForm, Wire.delimitedForm, List.length_append] at hshort
      have hpacked : Accepts E True (Decode.packedElements field numbers.length : Decode Bytes S Unit)
          numbers before (Grown same field block before total) :=
        accepts_packedElements hlaid (h.disjoint.here field hf trivial).1 hm hp.2 hs (by omega)
          (by omega) hnumbers (Nat.zero_add total) (Nat.le_refl _) hempty
      have hstored : Accepts E False
          (Decode.stored schema config nested (schema ref) field .delimited) (Wire.delimitedForm numbers)
          before (Grown same field block before total) := by
        simp only [Decode.stored, hm, hp.2, and_self, if_true]
        exact accepts_length (by omega) hpacked.within
      exact Continues.record h.laid.here.toFits ht hh (Field.accepts_packed hm hp.2) hstored
        fun after hg => hn after (hg.recorded hm htotal)
    · refine h.elements ht hs hh hm htotal (by omega) (by omega) hform (Nat.zero_add total) hshort
        hempty fun after hg => (hn after (hg.recorded hm htotal)).skip fun _ => ?_
      simp [Field.isRequired, hm]

/-- The form of a field is accepted where the field awaits a value, if it has one. -/
theorem Acceptable.oneField (hform : field.wireForm forms block = .ok first)
    (hshort : first.length < 2 ^ 32) (ha : field.Sent block → field.Awaits ready before)
    (habsent : ¬field.Sent block →
      Continues schema config nested depth (schema ref) E (front ++ [field]) others before Q)
    (hn : field.Sent block → ∀ after, Recorded schema same ref field block before after →
      Continues schema config nested depth (schema ref) E (front ++ [field]) others after Q) :
    Continues schema config nested depth (schema ref) E front (first ++ others) before Q := by
  have hf : field ∈ (schema ref).fields := by simp [ht]
  by_cases hsent : field.Sent block
  · have hh := hsent.inBlock
    by_cases hm : field.multiplicity = .repeated
    · rw [Field.wireForm_array forms hh hm] at hform
      obtain ⟨total, htotal, hpos⟩ := Field.count_of_present hm hsent.present
      exact h.array ht hs hh hm htotal hpos hform hshort (ha hsent) (hn hsent)
    · rw [Field.wireForm_single forms hh hm, hsent.present, bind_ok, if_pos rfl] at hform
      simp only [Field.valueForm, bind_eq_ok, pure_eq_ok] at hform
      obtain ⟨stored, hload, body, hbody, rfl⟩ := hform
      simp only [List.length_append] at hshort
      exact Continues.record h.laid.here.toFits ht hh field.accepts_wireType
        (h.single hf hh hm hsent.present (Field.slice_of_load hload) hbody (by omega) hs (ha hsent) _)
        (hn hsent)
  · obtain ⟨rfl, hr⟩ := Field.wireForm_of_not_sent hsent hform
    exact (habsent hsent).skip hr

end

-- ---------------------------------------------------------------------------
-- Messages
-- ---------------------------------------------------------------------------

/-- The fields that are still to be read, behind those that have been reread. -/
theorem Acceptable.walk [Handler Ref S] (h : Acceptable schema E ready same forms nested levels ref block)
    (hstart : ready ref start) (hs : (schema ref).size ≤ start.length)
    (ht : (schema ref).fields = front ++ rest)
    (hform : Field.wireForms forms block rest = .ok content) (hshort : content.length < 2 ^ 32)
    (hreread : (schema ref).Rereads same front block start before)
    (he : ∀ field ∈ (schema ref).fields, field.isRequired = true → field.isHandled = true →
      E (.missingRequiredField (schema ref).name field.name)) :
    Continues schema config nested depth (schema ref) E front content before
      fun after => after.length = start.length ∧ (schema ref).Rereads same (schema ref).fields block start after := by
  induction rest generalizing front content before with
  | nil =>
    simp only [Field.wireForms, Except.ok.injEq] at hform
    obtain rfl := hform
    obtain rfl : (schema ref).fields = front := by simpa using ht
    exact continues_end ⟨hreread.idle.1.symm, hreread⟩ he
  | cons field rest ih =>
    simp only [Field.wireForms, bind_eq_ok, pure_eq_ok] at hform
    obtain ⟨first, hfirst, others, hothers, rfl⟩ := hform
    rw [List.length_append] at hshort
    have hf : field ∈ (schema ref).fields := by simp [ht]
    have hsub : ∀ other ∈ front, other ∈ (schema ref).fields := fun other ho => by simp [ht, ho]
    have hne : ∀ other ∈ front, other.tag ≠ field.tag := by
      have htags := h.laid.here.tags_ne
      rw [ht, List.pairwise_append] at htags
      exact fun other ho => htags.2.2 other ho field List.mem_cons_self
    have hnext : ∀ after, (schema ref).Rereads same (front ++ [field]) block start after →
        Continues schema config nested depth (schema ref) E (front ++ [field]) others after fun after =>
          after.length = start.length ∧ (schema ref).Rereads same (schema ref).fields block start after :=
      fun after hafter => ih (by simp [ht]) hothers (by omega) hafter
    refine h.oneField ht (hreread.idle.1 ▸ hs) hfirst (by omega) (fun hsent => ?_)
      (fun habsent => hnext before (hreread.skip habsent)) fun hsent after hafter => hnext after ?_
    · exact (h.receptive.awaits h.laid h.disjoint hstart field hf hsent.inBlock).congr hsent.inBlock
        (hreread.untouched h.laid.here h.disjoint.here hsub hf hne hsent)
    · exact hreread.record h.laid.here h.disjoint.here hsub hf hne hsent hafter.kept hafter.echoes

/-- A message is accepted, given that those inside it are. -/
theorem Acceptable.message [Handler Ref S]
    (h : Acceptable schema E ready same forms
      (messageWithin schema config depth : Ref → Decode Bytes S Unit) levels ref block)
    (hstart : ready ref start) (hs : (schema ref).size ≤ start.length)
    (hform : Field.wireForms forms block (schema ref).fields = .ok content) (hshort : content.length < 2 ^ 32)
    (he : ∀ field ∈ (schema ref).fields, field.isRequired = true → field.isHandled = true →
      E (.missingRequiredField (schema ref).name field.name)) :
    Accepts E True (messageWithin schema config (depth + 1) ref : Decode Bytes S Unit) content start
      fun after => after.length = start.length ∧
        (schema ref).Rereads same (schema ref).fields block start after := by
  have hwalk : Continues schema config (messageWithin schema config depth) (config.maxDepth - depth)
      (schema ref) E [] content start fun after => after.length = start.length ∧
        (schema ref).Rereads same (schema ref).fields block start after :=
    h.walk hstart hs (List.nil_append _).symm hform hshort (Table.rereads_nil _ _ _ _) he
  unfold messageWithin
  refine Accepts.behind (restores_ask (Table.checkBlock_ok hs)) (accepts_get fun state _ hle _ => ?_)
  exact hwalk .start [] _ Cursor.placed_start noted_nil hle

end Decode

/-- A required field goes through a handler, in the table of the block or of a message inside it that
goes on the wire. -/
inductive Schema.Misses (schema : Schema Ref) : Ref → Bytes → CodecError → Prop
  | here {ref : Ref} {block : Bytes} {field : Field Ref} (hf : field ∈ (schema ref).fields)
    (hr : field.isRequired = true) (hh : field.isHandled = true) :
    Misses schema ref block (.missingRequiredField (schema ref).name field.name)
  | inside {ref inner : Ref} {block stored : Bytes} {field : Field Ref} {span : Span}
    {failure : CodecError} (hf : field ∈ (schema ref).fields) (hh : field.isHandled = false)
    (hk : field.kind = .message inner) (hp : Decode.Sends field block span)
    (hs : block.slice? span = some stored) (h : Misses schema inner stored failure) :
    Misses schema ref block failure

/-- Without handled fields nothing is missed. -/
theorem Schema.not_misses (hu : schema.Throughout Table.Unhandled ref) {failure : CodecError} :
    ¬schema.Misses ref block failure := by
  intro h
  induction h with
  | here hf _ hh => simp [hu.here _ hf] at hh
  | inside hf hh hk _ _ _ ih => exact ih (hu.nested (Table.mem_nested hf hh hk))

namespace Decode

/-- The form of a block is accepted over every block that is ready for it and long enough, which then
mirrors the block. -/
theorem mirrors_messageWithin [Handler Ref S] {encoding : EncodeConfig}
    (hready : schema.Receptive ready) (h : Offered schema levels ref block)
    (hform : schema.wireForm encoding depth ref block = .ok content) (hshort : content.length < 2 ^ 32)
    (hheld : (schema ref).size ≤ held.length) (hstart : ready ref held) :
    Accepts (schema.Misses ref block) True (messageWithin schema config depth ref : Decode Bytes S Unit)
      content held fun after => after.length = held.length ∧ schema.Mirrors ready ref block after := by
  induction depth generalizing levels ref block content held with
  | zero => cases hform
  | succ depth ih =>
    cases levels with
    | zero => cases h.laid
    | succ levels =>
      obtain ⟨-, -, hform⟩ := bind_eq_ok.mp hform
      have hmessages : Acceptable schema (schema.Misses ref block) ready (schema.Mirrors ready)
          (schema.wireForm encoding depth) (messageWithin schema config depth : Ref → Decode Bytes S Unit)
          levels ref block := by
        refine ⟨h, hready, fun field hf hh inner hk span stored payload held hp hst hinner hlt hlen hstart => ?_⟩
        have hinside := h.inside hf hh hk hp.place.loosen hst
        exact (ih hinside hinner hlt (hlen ▸ hinside.size_le) hstart).mono (fun _ h => h)
          fun _ h => .inside hf hh hk hp hst h
      refine (hmessages.message hstart hheld hform hshort fun field hf hr hh => .here hf hr hh).mono ?_
        fun _ h => h
      exact fun after hafter => ⟨hafter.1, Schema.mirrors_iff.mpr ⟨held, hstart, hafter.2⟩⟩

/-- The form of a block is accepted over every vacant block that is long enough. -/
theorem accepts_messageWithin [Handler Ref S] {encoding : EncodeConfig} (hlaid : schema.Laid levels ref)
    (hl : levels ≤ maxInitialDepth + 1) (hd : schema.Throughout Table.Disjoint ref)
    (hlegible : schema.Holds .legible ref block) (hs : (schema ref).size ≤ block.length)
    (hform : schema.wireForm encoding depth ref block = .ok content) (hshort : content.length < 2 ^ 32)
    (hheld : (schema ref).size ≤ held.length) (hv : schema.Vacant ref held) :
    Accepts (schema.Misses ref block) True (messageWithin schema config depth ref : Decode Bytes S Unit)
      content held fun after => after.length = held.length :=
  (mirrors_messageWithin (Schema.receptive_vacant schema) ⟨hlaid, hl, hd, hlegible, hs⟩ hform hshort hheld
    hv).mono (fun _ h => h.1) fun _ h => h

end Decode

-- ---------------------------------------------------------------------------
-- What is encoded is decoded
-- ---------------------------------------------------------------------------

/-- What a decoder makes of all of a byte string that it accepts over an initialised block. -/
theorem decodeMessage_ends [Handler Ref S] {wire initial : Bytes}
    (hinit : (schema.initialise ref).result before = (.ok (), initial))
    (h : Decode.Accepts E True (mergeMessage schema config ref : Decode Bytes S Unit) wire initial Q)
    (handlers : List S) :
    (decodeMessage schema config ref : Decode Bytes S Unit).Ends ⟨.ofBytes wire, before, handlers⟩
      (fun _ state => Q state.block) fun failure _ => E failure := by
  have hwhole : Decode.Accepts E True (decodeMessage schema config ref : Decode Bytes S Unit) wire
      before Q := Decode.Accepts.behind (Decode.restores_onBlock hinit) h
  have hends := hwhole [] wire.length 0 true handlers (Nat.le_refl _) fun _ => rfl
  rw [List.append_nil] at hends
  rw [Input.ofBytes, Input.ofSource]
  refine hends.mono ?_ fun _ _ h => h
  rintro _ _ ⟨after, hq, rfl⟩
  exact hq

theorem decodeBytes_ends {wire initial : Bytes}
    (hinit : (schema.initialise ref).result before = (.ok (), initial))
    (h : Decode.Accepts E True (mergeMessage schema {} ref : Decode Bytes Empty Unit) wire initial Q) :
    (∃ after, decodeBytes schema ref wire before = (.ok (), after) ∧ Q after) ∨
      ∃ failure, (decodeBytes schema ref wire before).1 = .error failure ∧ E failure := by
  have hends := decodeMessage_ends hinit h []
  rw [decodeBytes]
  rcases hr : (decodeMessage schema {} ref : Decode Bytes Empty Unit).result
    ⟨.ofBytes wire, before, []⟩ with ⟨outcome, state⟩
  cases outcome with
  | ok value => exact .inl ⟨state.block, rfl, hends.ok hr⟩
  | error failure => exact .inr ⟨failure, rfl, hends.error hr⟩

theorem decodeBytes_of_accepts {wire initial : Bytes}
    (hinit : (schema.initialise ref).result before = (.ok (), initial))
    (h : Decode.Accepts E True (mergeMessage schema {} ref : Decode Bytes Empty Unit) wire initial Q) :
    (decodeBytes schema ref wire before).1 = .ok () ∨
      ∃ failure, (decodeBytes schema ref wire before).1 = .error failure ∧ E failure :=
  (decodeBytes_ends hinit h).imp_left fun ⟨_, hr, _⟩ => congrArg Prod.fst hr

/-- What was done to an initialised block as through views leaves its texts legible. -/
theorem Schema.ViewMoves.legible_of_initialise {initial : Bytes}
    (h : schema.ViewMoves .loose ref initial block) (hlaid : schema.Laid (maxInitialDepth + 1) ref)
    (hd : schema.Throughout Table.Disjoint ref) (hu : schema.Throughout Table.Unhandled ref)
    (hinit : (schema.initialise ref).result start = (.ok (), initial)) :
    schema.Holds .legible ref block := by
  have hflags : schema.Throughout Table.FlagsApart ref :=
    hu.mono fun _ h field hf hh => by simp [h field hf] at hh
  have hlegible : schema.Holds .legible ref initial :=
    Schema.holds_initialiseWithin Discipline.lawful_legible hlaid
      (hd.mono fun _ h field hf _ => h field hf trivial)
      (fun field _ (hw : field.isHandled = false) hh => by simp [hw] at hh) hinit
  exact h.legible hlaid hd hflags (Schema.size_le_of_initialise hinit) hlegible

/-- What is encoded of a block without handled fields is decoded to one that mirrors it. -/
theorem decodeBytes_mirrors (hlaid : schema.Laid (maxInitialDepth + 1) ref)
    (hd : schema.Throughout Table.Disjoint ref) (hu : schema.Throughout Table.Unhandled ref)
    (hs : (schema ref).size ≤ block.length) (hlegible : schema.Holds .legible ref block)
    {wire : Bytes} (hwire : encodeToBytes schema ref block = .ok wire) (hlen : wire.length < 2 ^ 32)
    {target : Bytes} (htarget : (schema ref).size ≤ target.length) :
    ∃ after, decodeBytes schema ref wire target = (.ok (), after) ∧
      schema.Mirrors schema.Initialised ref block after := by
  have hemits : Encode.Emits (encodeMessage schema {} ref block : Encode Bytes Empty Unit)
      (schema.wireForm {} (({} : EncodeConfig).maxDepth + 1 - 0) ref block) :=
    Encode.emits_messageWithin hlaid (Schema.unbound_of_unhandled hu block) _
  have hform := form_of_encodeToBytes hemits hwire
  obtain ⟨initial, hinit⟩ := Schema.initialiseWithin_ok hlaid htarget
  have hinitial : schema.Initialised ref initial := ⟨_, _, hinit⟩
  have haccepts : Decode.Accepts (schema.Misses ref block) True
      (mergeMessage schema {} ref : Decode Bytes Empty Unit) wire initial fun after =>
        after.length = initial.length ∧ schema.Mirrors schema.Initialised ref block after :=
    Decode.mirrors_messageWithin (Schema.receptive_initialised schema)
      ⟨hlaid, Nat.le_refl _, hd, hlegible, hs⟩ hform hlen hinitial.size_le hinitial
  rcases decodeBytes_ends hinit haccepts with ⟨after, hafter, -, hmirrors⟩ | ⟨_, _, hmisses⟩
  · exact ⟨after, hafter, hmirrors⟩
  · exact absurd hmisses (Schema.not_misses hu)

/-- What the encoder makes of a block that was initialised and worked on through views is decoded into
every block that is long enough, unless a required field goes through a handler: unbound, it is not on
the wire, and may be missed. -/
theorem decodeBytes_accepts_encoded (hvalid : Table.validate schema ref = .ok ())
    (hbuilt : schema.Throughout Table.Built ref) (hd : schema.Throughout Table.Disjoint ref)
    (hflags : schema.Throughout Table.FlagsApart ref) {start initial : Bytes} {actions : List Action}
    (hinit : (schema.initialise ref).result start = (.ok (), initial))
    (hblock : ((performAll schema actions (schema ref)).result initial).2 = block)
    (hu : Decode.Unbound schema ref block) {wire : Bytes}
    (hwire : encodeToBytes schema ref block = .ok wire) (hlen : wire.length < 2 ^ 32) {target : Bytes}
    (htarget : (schema ref).size ≤ target.length) :
    (decodeBytes schema ref wire target).1 = .ok () ∨
      ∃ failure, (decodeBytes schema ref wire target).1 = .error failure ∧
        schema.Misses ref block failure := by
  have hlaid := Schema.laid_of_validate hvalid hbuilt
  have hseparate : schema.Throughout (Table.Separate Discipline.legible.watches) ref :=
    hd.mono fun _ hsep field hf _ => hsep field hf trivial
  have hsize := Schema.size_le_of_initialise hinit
  have hstart : schema.Holds .legible ref initial :=
    Schema.holds_initialiseWithin Discipline.lawful_legible hlaid hseparate
      (fun field _ (hw : field.isHandled = false) hh => by simp [hw] at hh) hinit
  have hplain : schema.Plain .loose (maxInitialDepth + 1) ref := ⟨hlaid, Nat.le_refl _, nofun⟩
  have hmoves := (performAll_obeys actions hplain hsize nofun).moves
  rw [hblock] at hmoves
  have hlegible := hmoves.legible hlaid hd hflags hsize hstart
  have hs : (schema ref).size ≤ block.length := by rwa [hmoves.length_eq]
  have hemits : Encode.Emits (encodeMessage schema {} ref block : Encode Bytes Empty Unit)
      (schema.wireForm {} (({} : EncodeConfig).maxDepth + 1 - 0) ref block) :=
    Encode.emits_messageWithin hlaid hu _
  have hform := form_of_encodeToBytes hemits hwire
  obtain ⟨fresh, hfresh⟩ := Schema.initialiseWithin_ok hlaid htarget
  have hheld : (schema ref).size ≤ fresh.length := by
    rwa [(Schema.keepsLength_initialiseWithin schema _ ref).length_eq hfresh]
  exact decodeBytes_of_accepts hfresh (Decode.accepts_messageWithin hlaid (Nat.le_refl _) hd hlegible hs
    hform hlen hheld (Schema.vacant_initialiseWithin hlaid hd hfresh))

/-- Lines of text, and a handled field that is marked by a flag. -/
def placard : Schema Unit := fun _ =>
  ⟨"Placard", [(Field.ofStorage 1 "lines" .text 4 4).repeated 0 2,
    ((Field.ofStorage 2 "hook" (.varint ⟨.w32, false⟩) 12 2).optional 14).handled], 15⟩

theorem placard_built : placard.Throughout Table.Built () := by
  refine Schema.throughout_of_forall (fun _ field hf => ?_) ()
  rcases List.mem_cons.mp hf with rfl | hf
  · exact .repeated _ _ (.ofStorage ..)
  · rw [List.mem_singleton.mp hf]
    exact .handled (.optional _ (.ofStorage ..))

/-- A text with a zero byte in it, under a flag that is set, and a text that does not fit. -/
theorem decodeBytes_accepts_encoded_placard :
    Table.validate placard () = .ok () ∧ placard.Throughout Table.Built () ∧
    placard.Throughout Table.Disjoint () ∧ placard.Throughout Table.FlagsApart () ∧
    ∃ (actions : List Action) (block wire : Bytes),
      (placard.initialise ()).result (Bytes.zeros 15) = (.ok (), Bytes.zeros 15) ∧
      ((performAll placard actions (placard ())).result (Bytes.zeros 15)).2 = block ∧
      Decode.Unbound placard () block ∧ encodeToBytes placard () block = .ok wire ∧ wire.length = 5 ∧
      ((decodeBytes placard () wire (Bytes.zeros 15)).1 = .ok () ∨
        ∃ failure, (decodeBytes placard () wire (Bytes.zeros 15)).1 = .error failure ∧
          placard.Misses () block failure) := by
  have hvalid : Table.validate placard () = .ok () := rfl
  have hd : placard.Throughout Table.Disjoint () := Schema.throughout_of_forall (fun () => by decide) ()
  have hflags : placard.Throughout Table.FlagsApart () :=
    Schema.throughout_of_forall (fun () => by decide) ()
  let actions : List Action := [.pushText 1 "a\x00b", .setPresent 2 true, .pushText 1 "abcd"]
  let block : Bytes := [2, 0, 0, 0, 97, 0, 98, 0, 0, 0, 0, 0, 0, 0, 1]
  have hinit : (placard.initialise ()).result (Bytes.zeros 15) = (.ok (), Bytes.zeros 15) := rfl
  have hblock : ((performAll placard actions (placard ())).result (Bytes.zeros 15)).2 = block := by cbv
  have hwire : encodeToBytes placard () block = .ok [10, 1, 97, 10, 0] := by cbv
  have hfields : ∀ field ∈ (placard ()).fields, field.kind ≠ .message () ∧
      (field.isHandled = true → block.slice? field.data = some [0, 0]) := by decide
  have hu : Decode.Unbound placard () block := by
    refine .intro (fun field hf _ => ⟨fun hh stored hs => ?_, fun _ _ _ => trivial, fun _ _ _ _ _ => trivial⟩)
      fun field hf _ _ inner hk => absurd hk (hfields field hf).1
    obtain rfl : [0, 0] = stored := Option.some.inj (((hfields field hf).2 hh).symm.trans hs)
    rfl
  exact ⟨hvalid, placard_built, hd, hflags, actions, block, [10, 1, 97, 10, 0], hinit, hblock, hu, hwire, rfl,
    decodeBytes_accepts_encoded hvalid placard_built hd hflags hinit hblock hu hwire
      (show 5 < 2 ^ 32 by omega) (Nat.le_of_eq (Bytes.length_zeros 15).symm)⟩

/-- A required handled field that is unbound is missing on the wire. -/
theorem decodeBytes_misses_hook :
    Table.validate hooked true = .ok () ∧ hooked.Throughout Table.Built true ∧
    hooked.Throughout Table.Disjoint true ∧ hooked.Throughout Table.FlagsApart true ∧
    (hooked.initialise true).result [0, 0] = (.ok (), [0, 0]) ∧ Decode.Unbound hooked true [0, 0] ∧
    encodeToBytes hooked true [0, 0] = .ok [] ∧
    (decodeBytes hooked true [] [0, 0]).1 = .error (.missingRequiredField "Inner" "hook") :=
  ⟨rfl, hooked_built true, hooked_disjoint true, Schema.throughout_of_forall (by decide) true, rfl,
    unbound_zeros rfl (hooked_built true) 2, by cbv, by cbv⟩

end BlockCodec
