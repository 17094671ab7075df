import BlockCodec.Proofs.Checks
import BlockCodec.Proofs.Footprints
import BlockCodec.Proofs.Reach

/-!
# What initialisation forgets

Two blocks of one length, whatever they hold, are the same in every field that has been initialised
(`Schema.forgets_initialiseWithin`). Decoding reads no other places of a table without handled fields, so
what was in a block before decides neither the outcome of decoding into it nor what its fields hold then
(`earlier_content_forgotten`).
-/

namespace BlockCodec

open Bytes (AgreeOn)

variable {Ref α β : Type} {places : Nat → Prop}

namespace Edit

/-- An edit that does the same to all blocks of one length and leaves them the same at the places. -/
def Forgets (places : Nat → Prop) (edit : Edit α) : Prop :=
  ∀ agreed block other, AgreeOn agreed block other →
    (edit.result block).1 = (edit.result other).1 ∧
      ∀ value, (edit.result block).1 = .ok value →
        AgreeOn (fun place => agreed place ∨ places place) (edit.result block).2 (edit.result other).2

variable {edit : Edit α} {next : α → Edit β}

theorem Forgets.mono (h : edit.Forgets places) {fewer : Nat → Prop} (hm : ∀ place, fewer place → places place) :
    edit.Forgets fewer := by
  intro agreed block other hagree
  obtain ⟨hout, hafter⟩ := h agreed block other hagree
  exact ⟨hout, fun value hv => (hafter value hv).mono fun place => Or.imp_right (hm place)⟩

/-- An edit that changes nothing forgets nothing. -/
theorem forgets_of_snd (hout : ∀ {block other : Bytes}, block.length = other.length →
      (edit.result block).1 = (edit.result other).1)
    (h : ∀ block, (edit.result block).2 = block) : edit.Forgets fun _ => False := by
  intro agreed block other hagree
  rw [h block, h other]
  exact ⟨hout hagree.1, fun _ _ => hagree.mono fun _ hp => hp.resolve_right id⟩

theorem forgets_pure (value : α) : (pure value : Edit α).Forgets fun _ => False :=
  forgets_of_snd (fun _ => rfl) fun _ => rfl

theorem Forgets.bind {more : Nat → Prop} (h : edit.Forgets places) (hn : ∀ value, (next value).Forgets more) :
    (edit >>= next).Forgets fun place => places place ∨ more place := by
  intro agreed block other hagree
  obtain ⟨hout, hafter⟩ := h agreed block other hagree
  rw [Step.result_bind, Step.result_bind]
  rcases hb : edit.result block with ⟨outcome, block'⟩
  rcases ho : edit.result other with ⟨outcome', other'⟩
  rw [hb, ho] at hout hafter
  obtain rfl : outcome = outcome' := hout
  cases outcome with
  | error failure => exact ⟨rfl, fun _ hv => by cases hv⟩
  | ok value =>
    obtain ⟨hout', hafter'⟩ := hn value _ _ _ (hafter value rfl)
    exact ⟨hout', fun last hv => (hafter' last hv).mono fun _ => or_assoc.mpr⟩

theorem Forgets.forM {ι : Type} {f : ι → Edit PUnit} {list : List ι} {each : ι → Nat → Prop}
    (h : ∀ i ∈ list, (f i).Forgets (each i)) :
    Forgets (fun place => ∃ i ∈ list, each i place) (list.forM f) := by
  induction list with
  | nil => exact (forgets_pure _).mono fun place hp => by simp at hp
  | cons i rest ih =>
    refine ((h i (by simp)).bind fun _ => ih fun j hj => h j (by simp [hj])).mono fun place hp => ?_
    simpa using hp

/-- What is written over a span no matter what it holds is the same in both. -/
theorem forgets_inside {field : Field Ref} {span : Span} (hkeep : edit.KeepsLength)
    (h : ∀ {stored held : Bytes}, stored.length = held.length → edit.result stored = edit.result held) :
    (inside field span edit).Forgets (· ∈ span) := by
  intro agreed block other hagree
  by_cases hw : span.Within block.length
  · obtain ⟨stored, hb⟩ := Bytes.slice_isSome hw
    obtain ⟨held, ho⟩ := Bytes.slice_isSome (hagree.1 ▸ hw)
    have hsame : edit.result stored = edit.result held :=
      h ((Bytes.length_slice hb).trans (Bytes.length_slice ho).symm)
    rw [result_inside hb, result_inside ho, ← hsame]
    have hlen : (edit.result stored).2.length = held.length := by
      rw [hkeep stored, Bytes.length_slice hb, Bytes.length_slice ho]
    refine ⟨rfl, fun _ _ => ⟨?_, fun place hp => ?_⟩⟩
    · exact (Bytes.length_overwrite_slice hb (hkeep stored)).trans
        (hagree.1.trans (Bytes.length_overwrite_slice ho hlen).symm)
    · rw [Bytes.byte_overwrite_slice hb (hkeep stored), Bytes.byte_overwrite_slice ho hlen]
      split
      · rfl
      · next hout => exact hagree.2 place (hp.resolve_right hout)
  · have hb : block.slice? span = none := if_neg hw
    have ho : other.slice? span = none := if_neg (hagree.1 ▸ hw)
    rw [result_inside_none hb, result_inside_none ho]
    exact ⟨rfl, fun _ hv => by cases hv⟩

theorem forgets_clear {field : Field Ref} {span : Span} : (clear field span).Forgets (· ∈ span) :=
  forgets_inside (fun _ => Bytes.length_zeros _) fun {stored held} hlen => by
    rw [Step.result_modify _ stored, Step.result_modify _ held, hlen]

end Edit

open Edit

section

variable {schema : Schema Ref} {table : Table Ref} {field : Field Ref} {nested : Ref → Edit Unit}

namespace Field

theorem forgets_resetSlot : field.resetSlot.Forgets field.slotPlaces := by
  unfold resetSlot
  split
  · next slot hs => exact forgets_clear.mono fun _ => (slotPlaces_iff hs).mp
  · next hs => exact (forgets_pure ()).mono fun _ hp => by simp [slotPlaces, hs] at hp

theorem forgets_resetStorage (hh : field.isHandled = false) (h : ∀ ref, (nested ref).KeepsLength) :
    (field.resetStorage nested).Forgets (· ∈ field.storage) := by
  cases hm : field.multiplicity with
  | «repeated» =>
    rw [storage_eq_array hh hm]
    simp only [resetStorage, hm]
    exact forgets_clear
  | oneof group =>
    rw [storage_eq_data (by simp [hm])]
    simp only [resetStorage, hm]
    exact forgets_clear
  | required | optional =>
    rw [storage_eq_data (by simp [hm])]
    simp only [resetStorage, hm]
    -- the initial content is laid over zeros, so the storage counts by its length only
    refine forgets_inside (keepsLength_refill h) fun {stored held} hlen => ?_
    rw [Step.result_bind_ok (Step.result_modify _ stored), Step.result_bind_ok (Step.result_modify _ held), hlen]

theorem forgets_reset (hh : field.isHandled = false) (h : ∀ ref, (nested ref).KeepsLength) :
    (field.reset nested).Forgets field.extent := by
  rw [reset_eq]
  exact (forgets_resetSlot.bind fun _ => forgets_resetStorage hh h).mono fun _ hp => (extent_cases hh hp).symm

end Field

theorem Table.forgets_reset (h : ∀ ref, (nested ref).KeepsLength) :
    (table.reset nested).Forgets table.inBlock := by
  have hcheck : (ask table.checkBlock).Forgets fun _ => False :=
    forgets_of_snd (fun hlen => by simp only [ask, Step.result_ofRun, checkBlock, hlen]) fun _ => rfl
  have heach : ∀ field ∈ table.fields,
      Forgets (fun place => field.isHandled = false ∧ field.extent place)
        (if field.isHandled then pure () else field.reset nested) := fun field _ => by
    split
    · next hh => exact (forgets_pure ()).mono fun _ hp => by simp [hh] at hp
    · next hh => exact (Field.forgets_reset (by simpa using hh) h).mono fun _ => And.right
  exact (hcheck.bind fun _ => Forgets.forM heach).mono fun _ => .inr

/-- Initialisation makes blocks of one length the same in all fields that lie in them. -/
theorem Schema.forgets_initialiseWithin (schema : Schema Ref) (levels : Nat) (ref : Ref) :
    (schema.initialiseWithin levels ref).Forgets (schema ref).inBlock := by
  cases levels with
  | zero => exact fun _ _ _ _ => ⟨rfl, fun _ hv => by cases hv⟩
  | succ levels => exact Table.forgets_reset (keepsLength_initialiseWithin schema levels)

theorem Table.Unhandled.inBlock_of_claims (hu : table.Unhandled) {place : Nat} (h : table.claims place) :
    table.inBlock place := by
  obtain ⟨field, hf, hp⟩ := h
  exact ⟨field, hf, hu field hf, hp⟩

end

variable {σ S : Type} [Source σ] [Handler Ref S] {schema : Schema Ref} {ref : Ref}

/-- Where a block is initialised without a failure, so is every other of its length, and no field of the two
is different after decoding. -/
theorem decodeMessage_forgets (hu : (schema ref).Unhandled) (config : DecodeConfig) (input : Input σ)
    (handlers : List S) {block other start : Bytes} (hlen : block.length = other.length)
    (hstart : (schema.initialise ref).result block = (.ok (), start)) :
    let first := (decodeMessage schema config ref).result { input, block, handlers }
    let second := (decodeMessage schema config ref).result { input, block := other, handlers }
    first.1 = second.1 ∧ first.2.input = second.2.input ∧
      ∀ field ∈ (schema ref).fields, AgreeOn field.extent first.2.block second.2.block := by
  have hblocks : AgreeOn (fun _ => False) block other := ⟨hlen, fun _ hp => hp.elim⟩
  obtain ⟨hsame, hforgotten⟩ := schema.forgets_initialiseWithin (maxInitialDepth + 1) ref _ _ _ hblocks
  obtain ⟨start', hstart'⟩ : ∃ start, (schema.initialise ref).result other = (.ok (), start) :=
    ⟨_, Prod.ext (hsame.symm.trans (congrArg (·.1) hstart)) rfl⟩
  have hagree : AgreeOn (schema ref).claims start start' := by
    have hafter := hforgotten () (congrArg (·.1) hstart)
    rw [← Schema.initialise, hstart, hstart'] at hafter
    exact hafter.mono fun _ hp => .inr (hu.inBlock_of_claims hp)
  -- from here on only places of the fields are read
  have hlocal : Step.Local (schema ref).claims (schema ref).declares
      (mergeMessage schema config ref : Decode σ S Unit) := Decode.local_messageWithin _ _ _ _
  obtain ⟨hout, hafter⟩ := hlocal.alike (x := ⟨input, start, handlers⟩) (y := ⟨input, start', handlers⟩)
    ⟨rfl, hagree⟩
  intro first second
  have hfirst : first = (mergeMessage schema config ref).result ⟨input, start, handlers⟩ :=
    Step.result_bind_ok (Decode.result_onBlock_eq_ok.mpr ⟨hstart, rfl⟩)
  have hsecond : second = (mergeMessage schema config ref).result ⟨input, start', handlers⟩ :=
    Step.result_bind_ok (Decode.result_onBlock_eq_ok.mpr ⟨hstart', rfl⟩)
  rw [hfirst, hsecond]
  exact ⟨hout, (Prod.mk.inj hafter.aside_eq).1, fun field hf => hafter.agree.mono fun place hp => ⟨field, hf, hp⟩⟩

/-- What a block held before says nothing about decoding into it: neither about its outcome, nor about how
much input it takes, nor about what is in the fields afterwards. -/
theorem earlier_content_forgotten (hvalid : Table.validate schema ref = .ok ())
    (hbuilt : schema.Throughout Table.Built ref) (hu : schema.Throughout Table.Unhandled ref)
    (config : DecodeConfig) (input : Input σ) (handlers : List S) {block other : Bytes}
    (hlen : block.length = other.length) (hs : (schema ref).size ≤ block.length) :
    let first := (decodeMessage schema config ref).result { input, block, handlers }
    let second := (decodeMessage schema config ref).result { input, block := other, handlers }
    first.1 = second.1 ∧ first.2.input = second.2.input ∧
      ∀ field ∈ (schema ref).fields, AgreeOn field.extent first.2.block second.2.block := by
  obtain ⟨start, hstart⟩ : ∃ start, (schema.initialise ref).result block = (.ok (), start) :=
    Schema.initialiseWithin_ok (Schema.laid_of_validate hvalid hbuilt) hs
  exact decodeMessage_forgets hu.here config input handlers hlen hstart

/-- A line and the beginning of a stamp, decoded over zeros and over bytes left from something else. -/
theorem earlier_content_forgotten_letter :
    Table.validate letter false = .ok () ∧ letter.Throughout Table.Built false ∧
    letter.Throughout Table.Unhandled false ∧
    let wire : Bytes := [0x12, 2, 97, 98, 0x22, 2, 8]
    let decode (block : Bytes) : Except CodecError Unit × Decoding Bytes Empty :=
      (decodeMessage letter {} false).result { input := .ofBytes wire, block, handlers := [] }
    let rest := List.replicate 26 (255 : UInt8)
    (decode (Bytes.zeros 26)).1.isOk = false ∧ (decode (Bytes.zeros 26)).1 = (decode rest).1 ∧
      ∀ field ∈ (letter false).fields,
        AgreeOn field.extent (decode (Bytes.zeros 26)).2.block (decode rest).2.block := by
  have hvalid : Table.validate letter false = .ok () := rfl
  refine ⟨hvalid, letter_built false, letter_unhandled false, by cbv, ?_⟩
  have hlen : (Bytes.zeros 26).length = (List.replicate 26 (255 : UInt8)).length := rfl
  obtain ⟨hout, -, hblocks⟩ := earlier_content_forgotten hvalid (letter_built false) (letter_unhandled false) {}
    (.ofBytes [0x12, 2, 97, 98, 0x22, 2, 8]) ([] : List Empty) hlen (by decide)
  exact ⟨hout, hblocks⟩

end BlockCodec
