import BlockCodec.Proofs.Returning
import BlockCodec.Proofs.Sizing

/-!
# Limits of nesting

The encoder and the decoder count levels each for itself, the encoder in every walk over a message. Both
come to the same messages: those of which the storage goes on the wire. So a block `HasForm` with so many
levels if the messages that it sends have one with one level less (`Schema.hasForm_succ_iff`), and what was
encoded with more levels is accepted by the decoder with fewer just when there is a form with as many
(`Decode.accepts_hasForm`). `depth_limits_agree` says so of whole byte strings: where the limit is too low
it is all that the two complain of.
-/

namespace BlockCodec

variable {Ref S T : Type} {schema : Schema Ref} {field : Field Ref} {ref : Ref}
  {block stored content body first start held : Bytes} {levels depth deep index left : Nat}
  {forms shallow : Ref → Bytes → Except CodecError Bytes} {ready : Ref → Bytes → Prop}

-- ---------------------------------------------------------------------------
-- Fields
-- ---------------------------------------------------------------------------

namespace Field

variable (shallow)

/-- A value that has a form has one for other forms of messages if it is a message that has. -/
theorem bodyForm_ok_iff (hform : field.bodyForm forms stored = .ok body) :
    (∃ body, field.bodyForm shallow stored = .ok body) ↔
      ∀ inner, field.kind = .message inner → ∃ content, shallow inner stored = .ok content := by
  by_cases hk : ∃ inner, field.kind = .message inner
  · obtain ⟨inner, hk⟩ := hk
    simp only [bodyForm, hk, Kind.message.injEq, forall_eq']
    cases shallow inner stored <;> simp [Except.map]
  · have hsame : field.bodyForm shallow stored = field.bodyForm forms stored := by
      unfold bodyForm
      split
      · rfl
      · rfl
      · next inner hinner => exact absurd ⟨inner, hinner⟩ hk
      · rfl
    exact iff_of_true ⟨body, hsame.trans hform⟩ fun inner hinner => absurd ⟨inner, hinner⟩ hk

theorem valueForm_ok_iff (hform : field.valueForm forms stored = .ok first) :
    (∃ content, field.valueForm shallow stored = .ok content) ↔
      ∀ inner, field.kind = .message inner → ∃ content, shallow inner stored = .ok content := by
  obtain ⟨body, hbody, -⟩ := bind_eq_ok.mp hform
  rw [← bodyForm_ok_iff shallow hbody]
  constructor
  · rintro ⟨_, h⟩
    obtain ⟨body, hbody, -⟩ := bind_eq_ok.mp h
    exact ⟨body, hbody⟩
  · rintro ⟨body, hbody⟩
    exact ⟨_, bind_eq_ok.mpr ⟨body, hbody, rfl⟩⟩

/-- Elements that can be loaded have forms together if each of them has one. -/
theorem elementForms_ok_iff {form other : Bytes → Except CodecError Bytes}
    (hform : field.elementForms form block index left = .ok first) :
    (∃ content, field.elementForms other block index left = .ok content) ↔
      ∀ place, index ≤ place → place < index + left → ∀ stored,
        block.slice? (field.element place) = some stored → ∃ piece, other stored = .ok piece := by
  induction left generalizing index first with
  | zero => exact iff_of_true ⟨[], rfl⟩ fun place hle hlt => by omega
  | succ left ih =>
    simp only [elementForms, bind_eq_ok, pure_eq_ok] at hform
    obtain ⟨held, hload, _, -, others, hothers, -⟩ := hform
    have hhere := slice_of_load hload
    simp only [elementForms, hload, bind_ok, bind_eq_ok, pure_eq_ok]
    constructor
    · rintro ⟨_, piece, hpiece, rest, hrest, -⟩ place hle hlt stored hst
      rcases Nat.eq_or_lt_of_le hle with rfl | hgt
      · obtain rfl : held = stored := Option.some.inj (hhere.symm.trans hst)
        exact ⟨piece, hpiece⟩
      · exact (ih hothers).mp ⟨rest, hrest⟩ place hgt (by omega) stored hst
    · intro h
      obtain ⟨piece, hpiece⟩ := h index (Nat.le_refl _) (by omega) held hhere
      obtain ⟨rest, hrest⟩ := (ih hothers).mpr fun place hle hlt => h place (by omega) (by omega)
      exact ⟨_, piece, hpiece, rest, hrest, rfl⟩

/-- The places of an array from which elements are sent. -/
theorem sends_element_iff {count : Nat} {span : Span} (hm : field.multiplicity = .repeated)
    (hcount : field.slot block = .ok count) (hle : count ≤ field.capacity) :
    Decode.Sends field block span ↔ ∃ place < count, span = field.element place := by
  constructor
  · rintro ⟨-, hp⟩
    cases hp with
    | single h => simp [hm] at h
    | active h => simp [hm] at h
    | element _ _ hu =>
      obtain ⟨count', hcount', hlt⟩ := hu rfl
      obtain rfl : count = count' := by simpa [hcount] using hcount'
      exact ⟨_, hlt, rfl⟩
  · rintro ⟨place, hlt, rfl⟩
    refine ⟨?_, .element hm (by omega) fun _ => ⟨count, hcount, hlt⟩⟩
    rw [isPresent_of_count hm hcount]
    simp
    omega

/-- The place of a single field from which its value is sent. -/
theorem sends_single_iff {span : Span} (hm : field.multiplicity ≠ .repeated)
    (hp : field.isPresent block = .ok true) : Decode.Sends field block span ↔ span = field.data := by
  constructor
  · rintro ⟨-, hplace⟩
    cases hplace with
    | single | active => rfl
    | element h => exact absurd h hm
  · rintro rfl
    exact ⟨hp, place_of_present hm hp⟩

/-- An array that is not empty. -/
theorem arrayForm_ok_iff (hm : field.multiplicity = .repeated) (hp : field.isPresent block = .ok true)
    (hform : field.arrayForm forms block = .ok first) :
    (∃ content, field.arrayForm shallow block = .ok content) ↔
      ∀ inner, field.kind = .message inner → ∀ span stored, Decode.Sends field block span →
        block.slice? span = some stored → ∃ content, shallow inner stored = .ok content := by
  obtain ⟨count, hcount, hpos⟩ := count_of_present hm hp
  simp only [arrayForm, hcount, bind_ok, if_neg (Nat.ne_of_gt hpos)] at hform ⊢
  by_cases hfull : field.capacity < count
  · rw [if_pos hfull] at hform
    cases hform
  have hsends : ∀ span, Decode.Sends field block span ↔ ∃ place < count, span = field.element place :=
    fun span => sends_element_iff hm hcount (Nat.le_of_not_lt hfull)
  rw [if_neg hfull] at hform ⊢
  by_cases hpacked : field.packed ∧ field.kind.isScalar
  · rw [if_pos hpacked] at hform ⊢
    exact iff_of_true ⟨first, hform⟩ fun inner hk => by simp [hk, Kind.isScalar] at hpacked
  rw [if_neg hpacked] at hform ⊢
  have heach := fun place hlt stored hst =>
    (elementForms_ok_iff hform).mp ⟨first, hform⟩ place (Nat.zero_le place) hlt stored hst
  rw [elementForms_ok_iff hform]
  constructor
  · rintro h inner hk span stored hs hst
    obtain ⟨place, hlt, rfl⟩ := (hsends span).mp hs
    have hplace : place < 0 + count := by omega
    obtain ⟨piece, hpiece⟩ := heach place hplace stored hst
    exact (valueForm_ok_iff shallow hpiece).mp (h place (Nat.zero_le place) hplace stored hst) inner hk
  · intro h place _ hlt stored hst
    obtain ⟨piece, hpiece⟩ := heach place hlt stored hst
    refine (valueForm_ok_iff shallow hpiece).mpr fun inner hk => h inner hk _ stored ?_ hst
    exact (hsends _).mpr ⟨place, by omega, rfl⟩

/-- A field that has a form has one for other forms of messages if the messages that it sends have. -/
theorem wireForm_ok_iff (hform : field.wireForm forms block = .ok first) :
    (∃ content, field.wireForm shallow block = .ok content) ↔
      (field.isHandled = false → ∀ inner, field.kind = .message inner → ∀ span stored,
        Decode.Sends field block span → block.slice? span = some stored →
          ∃ content, shallow inner stored = .ok content) := by
  by_cases hh : field.isHandled
  · exact iff_of_true ⟨[], by rw [wireForm, if_pos hh]⟩ fun h => by simp [hh] at h
  rw [Bool.not_eq_true] at hh
  rw [forall_prop_of_true hh]
  by_cases hp : field.isPresent block = .ok true
  · by_cases hm : field.multiplicity = .repeated
    · rw [wireForm_array _ hh hm] at hform ⊢
      exact arrayForm_ok_iff shallow hm hp hform
    · rw [wireForm_single _ hh hm, hp, bind_ok, if_pos rfl] at hform ⊢
      obtain ⟨held, hload, hform⟩ := bind_eq_ok.mp hform
      rw [hload, bind_ok, valueForm_ok_iff shallow hform]
      constructor
      · rintro h inner hk span stored hs hst
        obtain rfl := (sends_single_iff hm hp).mp hs
        obtain rfl : held = stored := Option.some.inj ((slice_of_load hload).symm.trans hst)
        exact h inner hk
      · exact fun h inner hk =>
          h inner hk _ held ((sends_single_iff hm hp).mpr rfl) (slice_of_load hload)
  · exact iff_of_true ⟨[], wireForm_nil_of_not_present forms hh hp hform shallow⟩
      fun inner _ span stored hs => absurd hs.present hp

theorem wireForms_ok_iff {fields : List (Field Ref)} :
    (∃ content, wireForms shallow block fields = .ok content) ↔
      ∀ field ∈ fields, ∃ content, field.wireForm shallow block = .ok content := by
  refine ⟨fun h => ?_, wireForms_ok⟩
  induction fields with
  | nil => simp
  | cons field rest ih =>
    obtain ⟨_, h⟩ := h
    simp only [wireForms, bind_eq_ok, pure_eq_ok] at h
    obtain ⟨first, hfirst, others, hothers, -⟩ := h
    exact List.forall_mem_cons.mpr ⟨⟨first, hfirst⟩, ih ⟨others, hothers⟩⟩

end Field

-- ---------------------------------------------------------------------------
-- Messages
-- ---------------------------------------------------------------------------

namespace Schema

/-- The block has a form with so many levels of nesting. -/
def HasForm (schema : Schema Ref) (config : EncodeConfig) (levels : Nat) (ref : Ref) (block : Bytes) :
    Prop :=
  ∃ content, schema.wireForm config levels ref block = .ok content

variable {config limits : EncodeConfig}

theorem not_hasForm_zero : ¬schema.HasForm config 0 ref block := nofun

variable (levels limits)

/-- A block that has a form has one with other levels if the messages that it sends have one with one
level less. -/
theorem hasForm_succ_iff (hform : schema.wireForm config (deep + 1) ref block = .ok content) :
    schema.HasForm limits (levels + 1) ref block ↔
      ∀ field ∈ (schema ref).fields, field.isHandled = false → ∀ inner, field.kind = .message inner →
        ∀ span stored, Decode.Sends field block span → block.slice? span = some stored →
          schema.HasForm limits levels inner stored := by
  obtain ⟨⟨⟩, hcheck, hforms⟩ := bind_eq_ok.mp hform
  have heach := (Field.wireForms_ok_iff _).mp ⟨content, hforms⟩
  rw [HasForm, wireForm, hcheck, bind_ok, Field.wireForms_ok_iff]
  refine forall₂_congr fun field hf => ?_
  obtain ⟨first, hfirst⟩ := heach field hf
  exact Field.wireForm_ok_iff _ hfirst

end Schema

namespace Decode

variable {config : DecodeConfig} {encoding limits : EncodeConfig}

/-- What was encoded with other levels is accepted with these if the block has a form with as many; else it
is too deep. -/
theorem accepts_hasForm [Handler Ref S] (hready : schema.Receptive ready)
    (hu : schema.Throughout Table.Unhandled ref) (h : Offered schema levels ref block)
    (hform : schema.wireForm encoding deep ref block = .ok content) (hshort : content.length < 2 ^ 32)
    (hheld : (schema ref).size ≤ held.length) (hstart : ready ref held) :
    Accepts (fun failure => failure = .messageTooDeep config.maxDepth ∧ ¬schema.HasForm limits depth ref block)
      True (messageWithin schema config depth ref : Decode Bytes S Unit) content held fun after =>
        after.length = held.length ∧ schema.HasForm limits depth ref block := by
  induction depth generalizing deep levels ref block content held with
  | zero => exact accepts_throw ⟨rfl, Schema.not_hasForm_zero⟩
  | succ depth ih =>
    cases deep with
    | zero => cases hform
    | succ deep =>
    cases levels with
    | zero => cases h.laid
    | succ levels =>
      have hlevel := Schema.hasForm_succ_iff depth limits hform
      obtain ⟨-, -, hforms⟩ := bind_eq_ok.mp hform
      have hmessages : Acceptable schema (fun failure => failure = .messageTooDeep config.maxDepth ∧
          ¬schema.HasForm limits (depth + 1) ref block) ready
          (fun inner stored _ => schema.HasForm limits depth inner stored) (schema.wireForm encoding deep)
          (messageWithin schema config depth : Ref → Decode Bytes S Unit) levels ref block := by
        refine ⟨h, hready, fun field hf hh inner hk span stored payload held hp hst hinner hlt hlen hstart => ?_⟩
        have hinside := h.inside hf hh hk hp.place.loosen hst
        refine (ih (hu.nested (Table.mem_nested hf hh hk)) hinside hinner hlt (hlen ▸ hinside.size_le)
          hstart).mono (fun _ h => h) fun _ hno => ⟨hno.1, fun hdeep => hno.2 ?_⟩
        exact hlevel.mp hdeep field hf hh inner hk span stored hp hst
      refine (hmessages.message hstart hheld hforms hshort fun field hf _ hh => ?_).mono
        (fun after hafter => ⟨hafter.1, hlevel.mpr ?_⟩) fun _ h => h
      · simp [hu.here field hf] at hh
      · intro field hf hh inner hk span stored hp hst
        obtain ⟨_, -, hsame⟩ := (hafter.2.echoes field hf ⟨hh, hp.present⟩).value span stored hp.place hst
        simpa only [Field.Repeats, hk] using hsame

end Decode

-- ---------------------------------------------------------------------------
-- The encoder
-- ---------------------------------------------------------------------------

/-- What is spelled to its end has a form. -/
theorem Encode.Emits.isOk_iff {step : Encode Bytes S Unit} {form : Except CodecError Bytes}
    {outcome : Except CodecError Unit} (h : Encode.Emits step form) (hs : Spells content outcome step) :
    (∃ content, form = .ok content) ↔ outcome = .ok () := by
  have hends := h ⟨.sizing, []⟩
  have hr := hs.fits ⟨.sizing, []⟩ Output.backed_sizing (.inl rfl)
  cases outcome with
  | ok =>
    obtain ⟨content, hform, -⟩ := hends.ok hr
    exact iff_of_true ⟨content, hform⟩ rfl
  | error failure =>
    exact iff_of_false (fun ⟨content, hform⟩ => hends.error hr content hform (.inl rfl)) nofun

section

variable [Handler Ref S] {handlers : List S} {wire : Bytes} {outcome : Except CodecError Unit}
  {limit : Nat}

/-- The bytes of a block of which the messages inside may be so deep. -/
def encodeToDepth (schema : Schema Ref) (limit : Nat) (ref : Ref) (block : Bytes) (handlers : List S) :
    Except CodecError Bytes :=
  let step : Encode Bytes S Unit := encodeMessage schema { maxDepth := limit } ref block
  let (outcome, state) := step.result { output := .unbounded [], handlers }
  outcome.map fun _ => state.output.sink.getD []

theorem encodeToDepth_of_spells
    (h : Spells content outcome (encodeMessage schema ⟨limit⟩ ref block : Encode Bytes S Unit))
    (hroom : content.length ≤ maxSize) :
    encodeToDepth schema limit ref block handlers = outcome.map fun _ => content := by
  rw [encodeToDepth, h.fits ⟨.unbounded [], handlers⟩ (fun _ _ => trivial) (.inr hroom)]
  rfl

/-- What has been encoded was spelled. -/
theorem spells_of_encodeToDepth
    (h : Spells content outcome (encodeMessage schema ⟨limit⟩ ref block : Encode Bytes S Unit))
    (hwire : encodeToDepth schema limit ref block handlers = .ok wire) : content = wire ∧ outcome = .ok () := by
  by_cases hroom : content.length ≤ maxSize
  · rw [encodeToDepth_of_spells h hroom] at hwire
    cases outcome with
    | ok => exact ⟨Except.ok.inj hwire, rfl⟩
    | error failure => cases hwire
  · obtain ⟨failure, after, hr, -⟩ := (h.overruns ⟨.unbounded [], handlers⟩ (fun _ _ => trivial)
      (Output.not_takes rfl (Nat.lt_of_not_le hroom))).fails
    rw [encodeToDepth, hr] at hwire
    cases hwire

/-- With another limit the encoder does the same, or gives up at a message that is too deep. -/
theorem spells_within (hu : schema.Throughout Table.Unhandled ref)
    (hwire : encodeToDepth schema deep ref block handlers = .ok wire) (limit : Nat) :
    let step : Encode Bytes S Unit := encodeMessage schema ⟨limit⟩ ref block
    Spells wire (.ok ()) step ∨
      ∃ part, part <+: wire ∧ Spells part (.error (.messageTooDeep limit)) step := by
  have hcurtails : ∀ less more, less ≤ more → Curtails (· = .messageTooDeep less)
      (encodeMessage schema ⟨more⟩ ref block : Encode Bytes S Unit)
      (encodeMessage schema ⟨less⟩ ref block : Encode Bytes S Unit) := fun less more hle =>
    Encode.curtails_messageWithin ⟨more⟩ ⟨less⟩ (show less + 1 - 0 ≤ more + 1 - 0 by omega) hu block
  rcases Nat.le_total limit deep with hle | hle
  · obtain ⟨content, outcome, hs, ho⟩ := hcurtails limit deep hle
    obtain ⟨rfl, rfl⟩ := spells_of_encodeToDepth hs hwire
    refine ho.imp_right ?_
    rintro ⟨part, _, hpart, rfl, ho⟩
    exact ⟨part, hpart, ho⟩
  · obtain ⟨content, outcome, hs, ho | ⟨part, failure, -, -, ho⟩⟩ := hcurtails deep limit hle
    · obtain ⟨rfl, rfl⟩ := spells_of_encodeToDepth ho hwire
      exact .inl hs
    · cases (spells_of_encodeToDepth ho hwire).2

/-- With another limit the encoder gives the same bytes if the block has a form with as many levels. -/
theorem encodeToDepth_hasForm (hlaid : schema.Laid levels ref) (hu : schema.Throughout Table.Unhandled ref)
    (hwire : encodeToDepth schema deep ref block handlers = .ok wire) (hlen : wire.length ≤ maxSize)
    (limit : Nat) :
    (encodeToDepth schema limit ref block handlers = .ok wire ∧
        schema.HasForm ⟨limit⟩ (limit + 1) ref block) ∨
      (encodeToDepth schema limit ref block handlers = .error (.messageTooDeep limit) ∧
        ¬schema.HasForm ⟨limit⟩ (limit + 1) ref block) := by
  have hemits : Encode.Emits (encodeMessage schema ⟨limit⟩ ref block : Encode Bytes S Unit)
      (schema.wireForm ⟨limit⟩ (limit + 1) ref block) :=
    Encode.emits_messageWithin hlaid (Schema.unbound_of_unhandled hu block) _
  refine (spells_within hu hwire limit).imp (fun hs => ?_) fun ⟨part, hpart, hs⟩ => ?_
  · exact ⟨encodeToDepth_of_spells hs hlen, (hemits.isOk_iff hs).mpr rfl⟩
  · refine ⟨encodeToDepth_of_spells hs (hpart.length_le.trans hlen), fun h => ?_⟩
    cases (hemits.isOk_iff hs).mp h

end

-- ---------------------------------------------------------------------------
-- Whole byte strings
-- ---------------------------------------------------------------------------

/-- The encoder and the decoder agree on how deep a block is. With any limit, the bytes that were encoded
with one are encoded again if and only if they are decoded, whatever the decoder makes of unknown fields,
of fields with a wrong wire type and of text; and if they are not, both name this limit. -/
theorem depth_limits_agree [Handler Ref S] [Handler Ref T] (hvalid : Table.validate schema ref = .ok ())
    (hbuilt : schema.Throughout Table.Built ref) (hu : schema.Throughout Table.Unhandled ref)
    (hd : schema.Throughout Table.Disjoint ref) {initial : Bytes} {actions : List Action}
    (hinit : (schema.initialise ref).result start = (.ok (), initial))
    (hblock : ((performAll schema actions (schema ref)).result initial).2 = block)
    {handlers : List S} {wire : Bytes} (hwire : encodeToDepth schema deep ref block handlers = .ok wire)
    (hlen : wire.length < 2 ^ 32) (limit : Nat) (config : DecodeConfig) {target : Bytes}
    (htarget : (schema ref).size ≤ target.length) (receivers : List T) :
    let encoded := encodeToDepth schema limit ref block handlers
    let decoder : Decode Bytes T Unit := decodeMessage schema { config with maxDepth := limit } ref
    let decoded := (decoder.result ⟨.ofBytes wire, target, receivers⟩).1
    (encoded = .ok wire ↔ decoded = .ok ()) ∧
      (encoded ≠ .ok wire →
        encoded = .error (.messageTooDeep limit) ∧ decoded = .error (.messageTooDeep limit)) := by
  intro encoded decoder decoded
  have hlaid := Schema.laid_of_validate hvalid hbuilt
  obtain ⟨hs, hlegible⟩ := legible_of_performed hlaid hd hu hinit hblock
  have hemits : Encode.Emits (encodeMessage schema ⟨deep⟩ ref block : Encode Bytes S Unit)
      (schema.wireForm ⟨deep⟩ (deep + 1) ref block) :=
    Encode.emits_messageWithin hlaid (Schema.unbound_of_unhandled hu block) _
  obtain ⟨fresh, hfresh⟩ := Schema.initialiseWithin_ok hlaid htarget
  have hready : schema.Initialised ref fresh := ⟨_, _, hfresh⟩
  have haccepts : Decode.Accepts (fun failure => failure = .messageTooDeep limit ∧
      ¬schema.HasForm ⟨limit⟩ (limit + 1) ref block) True
      (mergeMessage schema { config with maxDepth := limit } ref : Decode Bytes T Unit) wire fresh
      fun after => after.length = fresh.length ∧ schema.HasForm ⟨limit⟩ (limit + 1) ref block :=
    Decode.accepts_hasForm (Schema.receptive_initialised schema) hu ⟨hlaid, Nat.le_refl _, hd, hlegible, hs⟩
      (hemits.form_of_result hwire) hlen hready.size_le hready
  have hends := decodeMessage_ends hfresh haccepts receivers
  have hroom : wire.length ≤ maxSize := by
    have : maxSize = 2 ^ 64 - 1 := rfl
    omega
  have hdecoded : decoded = .ok () ∧ schema.HasForm ⟨limit⟩ (limit + 1) ref block ∨
      decoded = .error (.messageTooDeep limit) ∧ ¬schema.HasForm ⟨limit⟩ (limit + 1) ref block := by
    rcases hr : decoder.result ⟨.ofBytes wire, target, receivers⟩ with ⟨outcome, after⟩
    have hout : decoded = outcome := congrArg Prod.fst hr
    cases outcome with
    | ok => exact .inl ⟨hout, (hends.ok hr).2⟩
    | error failure =>
      obtain ⟨rfl, hno⟩ := hends.error hr
      exact .inr ⟨hout, hno⟩
  rcases encodeToDepth_hasForm hlaid hu hwire hroom limit with ⟨hencoded, hform⟩ | ⟨hencoded, hform⟩
  · obtain ⟨hdecoded, -⟩ := hdecoded.resolve_right fun h => h.2 hform
    exact ⟨iff_of_true hencoded hdecoded, fun hne => absurd hencoded hne⟩
  · obtain ⟨hdecoded, -⟩ := hdecoded.resolve_left fun h => hform h.2
    have hdiffer : ¬encoded = .ok wire ∧ ¬decoded = .ok () := ⟨by simp [encoded, hencoded], by simp [hdecoded]⟩
    exact ⟨iff_of_false hdiffer.1 hdiffer.2, fun _ => ⟨hencoded, hdecoded⟩⟩

/-- A letter with a stamp in it, which is at depth 1. -/
theorem depth_limits_agree_letter :
    Table.validate letter false = .ok () ∧ letter.Throughout Table.Built false ∧
    letter.Throughout Table.Unhandled false ∧ letter.Throughout Table.Disjoint false ∧
    ∃ (actions : List Action) (block wire : Bytes),
      (letter.initialise false).result (Bytes.zeros 26) = (.ok (), Bytes.zeros 26) ∧
      ((performAll letter actions (letter false)).result (Bytes.zeros 26)).2 = block ∧
      encodeToDepth letter 64 false block ([] : List Empty) = .ok wire ∧ wire.length = 6 ∧
      ∀ (config : DecodeConfig) (limit : Nat),
        let decoder : Decode Bytes Empty Unit := decodeMessage letter { config with maxDepth := limit } false
        let decoded := (decoder.result ⟨.ofBytes wire, Bytes.zeros 26, []⟩).1
        (limit = 1 → decoded = .ok ()) ∧ (limit = 0 → decoded = .error (.messageTooDeep 0)) := by
  have hvalid : Table.validate letter false = .ok () := rfl
  let actions : List Action := [.set 1 (.unsigned 7), .submessage 4 [.set 1 (.signed 5)]]
  let block : Bytes := 7 :: Bytes.zeros 15 ++ [4, 0, 0, 0, 5] ++ Bytes.zeros 5
  have hinit : (letter.initialise false).result (Bytes.zeros 26) = (.ok (), Bytes.zeros 26) := by cbv
  have hblock : ((performAll letter actions (letter false)).result (Bytes.zeros 26)).2 = block := by cbv
  have hwire : encodeToDepth letter 64 false block ([] : List Empty) = .ok [8, 7, 34, 2, 8, 5] := by cbv
  have hdeep : encodeToDepth letter 1 false block ([] : List Empty) = .ok [8, 7, 34, 2, 8, 5] := by cbv
  have hshallow : encodeToDepth letter 0 false block ([] : List Empty) = .error (.messageTooDeep 0) := by cbv
  have hagree := fun limit config => depth_limits_agree (S := Empty) (T := Empty) hvalid (letter_built false)
    (letter_unhandled false) (letter_disjoint false) hinit hblock hwire (show 6 < 2 ^ 32 by omega) limit
    config (Nat.le_of_eq (Bytes.length_zeros 26).symm) []
  refine ⟨hvalid, letter_built false, letter_unhandled false, letter_disjoint false, actions, block, _, hinit,
    hblock, hwire, rfl, fun config limit => ⟨?_, ?_⟩⟩
  · rintro rfl
    exact (hagree 1 config).1.mp hdeep
  · rintro rfl
    exact ((hagree 0 config).2 (by simp [hshallow])).2

end BlockCodec
