import BlockCodec.Proofs.Bindings
import BlockCodec.Proofs.Decoding
import BlockCodec.Proofs.Walking

/-!
# Where decoding reads and writes

A step that works on a block is `Local` when only some of its places decide what happens, and only some
are changed, whether the step succeeds or fails. Decoding reads the places that the fields of its table
claim and writes those that the table declares for values: `Decode.local_messageWithin`. Nothing is asked
of the table, so ranges may overlap, lie outside the block or end past the largest size.
-/

namespace BlockCodec

open Bytes (AgreeOn)

variable {s ρ ε α β : Type}

/-- States with a block, and with something beside it. -/
class HasBlock (s : Type) (ρ : outParam Type) where
  block : s → Bytes
  aside : s → ρ

instance : HasBlock Bytes Unit := ⟨id, fun _ => ()⟩

instance {σ S : Type} : HasBlock (Decoding σ S) (Input σ × List S) :=
  ⟨Decoding.block, fun state => (state.input, state.handlers)⟩

namespace Step

open HasBlock

variable [HasBlock s ρ] {reads writes : Nat → Prop} {x y state : s}

/-- The states differ in their blocks at most, and these agree on the places. -/
structure Same (places : Nat → Prop) (x y : s) : Prop where
  aside_eq : aside x = aside y
  agree : AgreeOn places (block x) (block y)

/-- Blocks that agree on the places that are read are worked on alike, and what is not written stays as
it is. -/
structure Local (reads writes : Nat → Prop) (step : Step s ε α) : Prop where
  alike : ∀ {x y}, Same reads x y →
    (step.result x).1 = (step.result y).1 ∧ Same reads (step.result x).2 (step.result y).2
  keeps : ∀ state, AgreeOn (fun place => ¬writes place) (block state) (block (step.result state).2)

variable {step : Step s ε α} {next : α → Step s ε β}

theorem Local.mono (h : Local reads writes step) {reads' writes' : Nat → Prop}
    (hr : ∀ place, reads place → reads' place) (hw : ∀ place, writes place → writes' place)
    (hsub : ∀ place, writes place → reads place) : Local reads' writes' step where
  alike {x y} hsame := by
    obtain ⟨hout, hafter⟩ := h.alike ⟨hsame.aside_eq, hsame.agree.mono hr⟩
    refine ⟨hout, hafter.aside_eq, hafter.agree.1, fun place hp => ?_⟩
    by_cases hread : reads place
    · exact hafter.agree.2 place hread
    · -- what is not even read is as it was, in both
      have hkeep : ¬writes place := fun hwrite => hread (hsub place hwrite)
      rw [← (h.keeps x).2 place hkeep, ← (h.keeps y).2 place hkeep]
      exact hsame.agree.2 place hp
  keeps state := (h.keeps state).mono fun place hn hp => hn (hw place hp)

/-- A step of which the block is no part. -/
theorem local_of_aside (hout : ∀ {x y : s}, aside x = aside y → (step.result x).1 = (step.result y).1 ∧
      aside (step.result x).2 = aside (step.result y).2)
    (hblock : ∀ state, block (step.result state).2 = block state) : Local reads writes step where
  alike {x y} hsame := by
    refine ⟨(hout hsame.aside_eq).1, (hout hsame.aside_eq).2, ?_⟩
    rw [hblock, hblock]
    exact hsame.agree
  keeps state := by
    rw [hblock]
    exact AgreeOn.refl _ _

theorem local_pure (value : α) : Local reads writes (pure value : Step s ε α) :=
  local_of_aside (fun h => ⟨rfl, h⟩) fun _ => rfl

theorem local_throw (failure : ε) : Local reads writes (throw failure : Step s ε α) :=
  local_of_aside (fun h => ⟨rfl, h⟩) fun _ => rfl

theorem agreeOn_bind {places : Nat → Prop}
    (h : ∀ state, AgreeOn places (block state) (block (step.result state).2))
    (hn : ∀ value state, AgreeOn places (block state) (block ((next value).result state).2)) (state : s) :
    AgreeOn places (block state) (block ((step >>= next).result state).2) := by
  have hfirst := h state
  rw [result_bind]
  rcases hr : step.result state with ⟨outcome, after⟩
  rw [hr] at hfirst
  cases outcome with
  | ok value => exact hfirst.trans (hn value after)
  | error failure => exact hfirst

theorem Local.bind (h : Local reads writes step) (hn : ∀ value, Local reads writes (next value)) :
    Local reads writes (step >>= next) where
  alike {x y} hsame := by
    obtain ⟨hout, hafter⟩ := h.alike hsame
    rw [result_bind, result_bind]
    rcases hx : step.result x with ⟨outcome, x'⟩
    rcases hy : step.result y with ⟨other, y'⟩
    rw [hx, hy] at hout hafter
    obtain rfl : outcome = other := hout
    cases outcome with
    | ok value => exact (hn value).alike hafter
    | error failure => exact ⟨rfl, hafter⟩
  keeps := agreeOn_bind h.keeps fun value => (hn value).keeps

theorem Local.forM {ι : Type} {f : ι → Step s ε PUnit} {list : List ι}
    (h : ∀ i ∈ list, Local reads writes (f i)) : Local reads writes (list.forM f) := by
  induction list with
  | nil => exact local_pure _
  | cons i rest ih => exact (h i (by simp)).bind fun _ => ih fun j hj => h j (by simp [hj])

theorem local_ite {c : Prop} [Decidable c] {yes no : Step s ε α} (hy : c → Local reads writes yes)
    (hn : ¬c → Local reads writes no) : Local reads writes (if c then yes else no) := by
  split
  · next h => exact hy h
  · next h => exact hn h

theorem local_unless {c : Prop} [Decidable c] {failure : ε} {next : Unit → Step s ε α}
    (hn : ¬c → Local reads writes (next ())) :
    Local reads writes (if c then (throw failure : Step s ε Unit) >>= next else next ()) :=
  local_ite (fun _ => local_throw failure) hn

/-- What is beside the block may be looked at. -/
theorem local_get {next : s → Step s ε α} (h : ∀ state, Local reads writes (next state))
    (haside : ∀ {x y : s}, aside x = aside y → next x = next y) :
    Local reads writes (get >>= next) where
  alike {x y} hsame := by
    rw [result_bind_ok (result_get x), result_bind_ok (result_get y), haside hsame.aside_eq]
    exact (h y).alike hsame
  keeps state := by
    rw [result_bind_ok (result_get state)]
    exact (h state).keeps state

end Step

-- ---------------------------------------------------------------------------
-- Edits
-- ---------------------------------------------------------------------------

namespace Edit

open Step

variable {Ref : Type} {reads writes : Nat → Prop} {field : Field Ref} {span : Span} {edit : Edit α}

theorem local_ask {look : Bytes → Except CodecError α}
    (h : ∀ block other, AgreeOn reads block other → look other = look block) :
    Local reads writes (ask look) where
  alike hsame := ⟨(h _ _ hsame.agree).symm, hsame⟩
  keeps _ := AgreeOn.refl _ _

/-- Whatever is done to the bytes of a span, they decide about it and nothing else is changed. -/
theorem local_inside (h : edit.KeepsLength) : Local (· ∈ span) (· ∈ span) (inside field span edit) where
  alike {x y} hsame := by
    have hslice : x.slice? span = y.slice? span := hsame.agree.slice fun _ hp => hp
    cases hx : x.slice? span with
    | none =>
      rw [result_inside_none hx, result_inside_none (hslice.symm.trans hx)]
      exact ⟨rfl, hsame⟩
    | some stored =>
      have hy := hslice.symm.trans hx
      rw [result_inside hx, result_inside hy]
      refine ⟨rfl, rfl, ?_, fun place hp => ?_⟩
      · exact (Bytes.length_overwrite_slice hx (h stored)).trans
          (hsame.agree.1.trans (Bytes.length_overwrite_slice hy (h stored)).symm)
      · exact (Bytes.byte_overwrite_slice hx (h stored) place).trans
          ((if_pos hp).trans ((if_pos hp).symm.trans (Bytes.byte_overwrite_slice hy (h stored) place).symm))
  keeps state := touches_inside h state

theorem local_change {f : Bytes → Bytes} (h : ∀ stored, (f stored).length = stored.length) :
    Local (· ∈ span) (· ∈ span) (change field span f) :=
  local_inside h

theorem local_clear : Local (· ∈ span) (· ∈ span) (clear field span) :=
  local_change fun _ => Bytes.length_zeros _

theorem local_setSlot {value : Nat} : Local field.slotPlaces field.slotPlaces (setSlot field value) := by
  unfold setSlot Field.sizeSlot
  cases hs : field.sizeSlot? with
  | none => exact local_throw _
  | some slot =>
    have hplaces : ∀ place, place ∈ slot → field.slotPlaces place :=
      fun _ hp => (Field.slotPlaces_iff hs).mpr hp
    exact (local_change fun _ => length_writeUnsigned _ _).mono hplaces hplaces fun _ hp => hp

end Edit

-- ---------------------------------------------------------------------------
-- Places of a table
-- ---------------------------------------------------------------------------

section

variable {Ref : Type} {schema : Schema Ref} {table : Table Ref} {field : Field Ref}

/-- The places that some field lays claim to. -/
def Table.claims (table : Table Ref) (place : Nat) : Prop := ∃ field ∈ table.fields, field.extent place

/-- The places for values: the storage and the slots of the fields in the block, and the storage of all
members of groups. -/
def Table.declares (table : Table Ref) (place : Nat) : Prop :=
  ∃ field ∈ table.fields, (field.isHandled = false ∨ field.group?.isSome) ∧ field.extent place

theorem Table.claims_of_declares {place : Nat} (h : table.declares place) : table.claims place := by
  obtain ⟨field, hf, -, hp⟩ := h
  exact ⟨field, hf, hp⟩

theorem Table.declares_of_inBlock {place : Nat} (h : table.inBlock place) : table.declares place := by
  obtain ⟨field, hf, hh, hp⟩ := h
  exact ⟨field, hf, .inl hh, hp⟩

theorem Table.declares_of_groupPlaces (hg : field.group?.isSome) {place : Nat}
    (h : Schema.groupPlaces table field place) : table.declares place := by
  obtain ⟨member, hm, hgroup, hp⟩ := h
  exact ⟨member, hm, .inr (hgroup ▸ hg), hp⟩

/-- An element lies in its array even where both are cut off at the largest size. -/
theorem Field.mem_array_of_element {index place : Nat} (hi : index < field.capacity)
    (hp : place ∈ field.element index) : place ∈ field.array := by
  have hnext : (index + 1) * field.dataSize ≤ field.dataSize * field.capacity := by
    rw [Nat.mul_comm]
    exact Nat.mul_le_mul_left _ hi
  rw [Nat.succ_mul] at hnext
  simp only [element, array, Span.mem_iff, Span.ofLength, clampSize] at hp ⊢
  omega

theorem Field.extent_of_element (hh : field.isHandled = false) (hm : field.multiplicity = .repeated)
    {index place : Nat} (hi : index < field.capacity) (hp : place ∈ field.element index) :
    field.extent place := by
  refine extent_of_storage hh ?_
  rw [storage_eq_array hh hm]
  exact mem_array_of_element hi hp

/-- An activation keeps to the places of the group. -/
theorem Schema.local_activate (hf : field ∈ table.fields) (hh : field.isHandled = false)
    (hg : field.group?.isSome) :
    Step.Local (groupPlaces table field) (groupPlaces table field) (schema.activate table field) := by
  obtain ⟨group, hgroup⟩ := Option.isSome_iff_exists.mp hg
  have hdata : ∀ member ∈ table.members group, ∀ place, place ∈ member.data → groupPlaces table field place :=
    fun _ hm _ => groupPlaces_of_data hgroup hm
  have hslot : ∀ place, field.slotPlaces place → groupPlaces table field place :=
    fun place hp => ⟨field, hf, rfl, Field.extent_of_slotPlaces hh hp⟩
  simp only [activate, hgroup]
  refine (Step.Local.forM fun member hm => ?_).bind fun _ => Step.Local.bind ?_ fun _ => ?_
  · exact Edit.local_clear.mono (hdata member hm) (hdata member hm) fun _ hp => hp
  · have hown := hdata field (mem_members hf hgroup)
    exact (Edit.local_inside (Field.keepsLength_fillInitial (keepsLength_initialiseWithin schema _))).mono
      hown hown fun _ hp => hp
  · exact Edit.local_setSlot.mono hslot hslot fun _ hp => hp

end

-- ---------------------------------------------------------------------------
-- Decoding steps
-- ---------------------------------------------------------------------------

namespace Decode

open Step

variable {σ S Ref : Type} {reads writes : Nat → Prop} {field : Field Ref} {span : Span}
  {step : Decode σ S α}

/-- All places, for steps that may do anything to their block but change its length. -/
def everywhere : Nat → Prop := fun _ => True

theorem Step.Same.eq_of_everywhere {x y : Decoding σ S} (h : Same everywhere x y) : x = y := by
  obtain ⟨input, held, handlers⟩ := x
  obtain ⟨input', held', handlers'⟩ := y
  obtain ⟨haside, hagree⟩ := h
  obtain ⟨rfl, rfl⟩ := Prod.mk.inj haside
  obtain rfl : held = held' := Bytes.ext_byte hagree.1 fun place => hagree.2 place trivial
  rfl

theorem local_everywhere (h : ∀ state : Decoding σ S, (step.result state).2.block.length = state.block.length) :
    Local everywhere everywhere step where
  alike {x y} hsame := by
    obtain rfl := Step.Same.eq_of_everywhere hsame
    exact ⟨rfl, rfl, AgreeOn.refl _ _⟩
  keeps state := ⟨(h state).symm, fun _ hn => absurd trivial hn⟩

/-- The step changes the block no further than its length allows, whatever it says of the outcome. -/
theorem local_of_does {step : Decode σ S α} (h : ∀ block, step.Does block
    (fun _ after => after.length = block.length) fun _ after => after.length = block.length) :
    Local everywhere everywhere step :=
  local_everywhere fun state =>
    Ends.left (P := fun after : Decoding σ S => after.block.length = state.block.length) (h state.block state rfl)

/-- The step leaves the block as long as it was, if it succeeds. -/
def KeepsLength (step : Decode σ S α) : Prop :=
  ∀ block, step.Does block (fun _ after => after.length = block.length) fun _ _ => True

theorem keepsLength_of_local (h : Local reads writes step) : step.KeepsLength := by
  rintro block state rfl
  rcases hr : step.result state with ⟨outcome, last⟩
  have hkeeps := h.keeps state
  rw [hr] at hkeeps
  cases outcome with
  | ok value => exact .of_ok hr hkeeps.1.symm
  | error failure => exact .of_error hr trivial

theorem local_onInput (step : Step (Input σ) CodecError α) :
    Local reads writes (onInput step : Decode σ S α) := by
  refine local_of_aside (fun {x y} h => ?_) fun _ => rfl
  obtain ⟨hinput, hhandlers⟩ := Prod.mk.inj h
  refine ⟨?_, Prod.ext ?_ hhandlers⟩
  · exact congrArg (fun input => (step.result input).1) hinput
  · exact congrArg (fun input => (step.result input).2) hinput

theorem local_onBlock {edit : Edit α} (h : Local reads writes edit) :
    Local reads writes (onBlock edit : Decode σ S α) where
  alike {x y} hsame := by
    obtain ⟨hout, hafter⟩ := h.alike (x := x.block) (y := y.block) ⟨rfl, hsame.agree⟩
    exact ⟨hout, hsame.aside_eq, hafter.agree⟩
  keeps state := h.keeps state.block

theorem Local.within (h : Local reads writes step) (length : Nat) :
    Local reads writes (within length step) where
  alike {x y} hsame := by
    obtain ⟨input, held, handlers⟩ := x
    obtain ⟨input', held', handlers'⟩ := y
    obtain ⟨rfl, rfl⟩ := Prod.mk.inj hsame.aside_eq
    simp only [Decode.within, result_ofRun]
    cases input.narrow length with
    | error failure => exact ⟨rfl, hsame⟩
    | ok inner =>
      obtain ⟨hout, hafter⟩ := h.alike (x := ⟨inner, held, handlers⟩) (y := ⟨inner, held', handlers⟩)
        ⟨rfl, hsame.agree⟩
      obtain ⟨hlast, hothers⟩ := Prod.mk.inj hafter.aside_eq
      exact ⟨hout, Prod.ext (congrArg input.rejoin hlast) hothers, hafter.agree⟩
  keeps state := by
    simp only [Decode.within, result_ofRun]
    cases state.input.narrow length with
    | error failure => exact AgreeOn.refl _ _
    | ok inner => exact h.keeps { state with input := inner }

/-- Whatever is decoded over the bytes of a span, they decide about it and nothing else is changed. -/
theorem local_inside (h : Local everywhere everywhere step) :
    Local (· ∈ span) (· ∈ span) (inside field span step) where
  alike {x y} hsame := by
    obtain ⟨input, held, handlers⟩ := x
    obtain ⟨input', held', handlers'⟩ := y
    obtain ⟨rfl, rfl⟩ := Prod.mk.inj hsame.aside_eq
    have hslice : held.slice? span = held'.slice? span := hsame.agree.slice fun _ hp => hp
    simp only [Decode.inside, result_ofRun]
    rw [hslice]
    cases hs : held'.slice? span with
    | none => exact ⟨rfl, hsame⟩
    | some stored =>
      have hlen := ((h.keeps ⟨input, stored, handlers⟩).1).symm
      refine ⟨rfl, rfl, ?_, fun place hp => ?_⟩
      · exact (Bytes.length_overwrite_slice (hslice.trans hs) hlen).trans
          (hsame.agree.1.trans (Bytes.length_overwrite_slice hs hlen).symm)
      · exact (Bytes.byte_overwrite_slice (hslice.trans hs) hlen place).trans
          ((if_pos hp).trans ((if_pos hp).symm.trans (Bytes.byte_overwrite_slice hs hlen place).symm))
  keeps state := by
    simp only [Decode.inside, result_ofRun]
    cases hs : state.block.slice? span with
    | none => exact AgreeOn.refl _ _
    | some stored => exact Bytes.agreeOn_overwrite hs (h.keeps { state with block := stored }).1.symm

theorem local_withHandler (field : Field Ref) (slot : Nat) (step : Receive σ S α) :
    Local reads writes (withHandler field slot step) := by
  refine local_of_aside (fun {x y} h => ?_) fun state => ?_
  · obtain ⟨input, held, handlers⟩ := x
    obtain ⟨input', held', handlers'⟩ := y
    obtain ⟨rfl, rfl⟩ := Prod.mk.inj h
    simp only [withHandler, result_ofRun]
    cases handlers[slot - 1]? with
    | none => exact ⟨rfl, rfl⟩
    | some handler => exact ⟨rfl, rfl⟩
  · simp only [withHandler, result_ofRun]
    cases state.handlers[slot - 1]? with
    | none => rfl
    | some handler => rfl

variable [Source σ] {schema : Schema Ref} {config : DecodeConfig} {nested : Ref → Decode σ S Unit}
  {table : Table Ref} {type : WireType}

theorem local_text (hk : field.kind = .text) :
    Local everywhere everywhere (text config field : Decode σ S Unit) :=
  local_of_does fun _ => (does_text hk).mono (fun _ _ hstores => hstores.1.1) fun _ _ hstores => hstores.1.1

theorem local_payload (hk : field.kind = .bytes) :
    Local everywhere everywhere (payload field : Decode σ S Unit) := by
  refine local_of_does fun block => ?_
  by_cases hroom : 4 ≤ block.length
  · exact (does_payload hk hroom).mono (fun _ _ hstores => hstores.1) fun _ _ hstores => hstores.1.1
  · unfold payload
    refine (does_onWire (fun _ => rfl) fun _ => rfl).bind (P := fun _ held => block = held) ?_
    rintro length _ rfl
    refine (does_get fun _ hstate => ⟨hstate, rfl⟩).bind
      (P := fun state held => state.block = block ∧ block = held) ?_
    rintro state _ ⟨hstate, rfl⟩
    exact does_unless (fun _ => rfl) fun hprefix => absurd (hstate ▸ hprefix) (by omega)

/-- A value is laid over the storage that is the current block. -/
theorem local_value (hn : ∀ inner, field.kind = .message inner → Local everywhere everywhere (nested inner)) :
    Local everywhere everywhere (value config nested field) := by
  unfold value
  split
  · next hk => exact local_text hk
  · next hk => exact local_payload hk
  · next inner hk =>
    refine (local_onInput _).bind fun length => Local.within ((hn inner hk).bind fun _ => ?_) length
    exact local_get (fun _ => local_ite (fun _ => local_throw _) fun _ => local_pure _)
      fun h => by rw [(Prod.mk.inj h).1]
  · refine (local_onInput _).bind fun scalar => local_everywhere fun state => ?_
    exact Field.length_storeScalar _ _ _

section

variable (hown : ∀ place, field.extent place → writes place) (hsub : ∀ place, writes place → reads place)

include hown hsub

omit [Source σ] in
theorem local_setSlot (hh : field.isHandled = false) (value : Nat) :
    Local reads writes (onBlock (Edit.setSlot field value) : Decode σ S Unit) :=
  have hslot : ∀ place, field.slotPlaces place → writes place :=
    fun place hp => hown place (Field.extent_of_slotPlaces hh hp)
  local_onBlock (Edit.local_setSlot.mono (fun place hp => hsub place (hslot place hp)) hslot fun _ hp => hp)

omit [Source σ] in
theorem local_slot (hh : field.isHandled = false) :
    Local reads writes (onBlock (Edit.ask field.slot) : Decode σ S Nat) :=
  local_onBlock (Edit.local_ask fun _ _ hagree => Field.slot_congr
    (hagree.mono fun place hp => hsub place (hown place (Field.extent_of_slotPlaces hh hp))))

omit [Source σ] in
/-- What is done to the next free element is done to one of the array. -/
theorem local_nextElement (hh : field.isHandled = false) {next : Nat → Decode σ S α}
    (hn : ∀ count < field.capacity, Local reads writes (next count)) :
    Local reads writes (nextElement field >>= next) := by
  rw [nextElement, bind_assoc]
  refine (local_slot hown hsub hh).bind fun count => ?_
  by_cases hfull : field.capacity ≤ count
  · rw [if_pos hfull]
    exact local_throw _
  · rw [if_neg hfull, pure_bind]
    exact hn count (by omega)

omit [Source σ] in
/-- Over the bytes of a span of the field anything may be done. -/
theorem Local.insideOf (h : Local everywhere everywhere step) (hspan : ∀ place, place ∈ span → field.extent place) :
    Local reads writes (inside field span step) :=
  (local_inside h).mono (fun place hp => hsub place (hown place (hspan place hp)))
    (fun place hp => hown place (hspan place hp)) fun _ hp => hp

theorem local_packedElements (hh : field.isHandled = false) (hm : field.multiplicity = .repeated)
    (room : Nat) : Local reads writes (packedElements field room : Decode σ S Unit) := by
  induction room with
  | zero => exact local_pure ()
  | succ room ih =>
    refine local_get (fun state => local_ite (fun _ => local_pure ()) fun _ => ?_)
      fun h => by rw [(Prod.mk.inj h).1]
    refine local_nextElement hown hsub hh fun count hcount => (local_onInput _).bind fun scalar => ?_
    have helement : ∀ place, place ∈ field.element count → writes place :=
      fun place hp => hown place (Field.extent_of_element hh hm hcount hp)
    refine (local_onBlock ?_).bind fun _ => (local_setSlot hown hsub hh _).bind fun _ => ih
    exact (Edit.local_change fun _ => Field.length_storeScalar _ _ _).mono
      (fun place hp => hsub place (helement place hp)) helement fun _ hp => hp

theorem local_element (hh : field.isHandled = false) (hm : field.multiplicity = .repeated)
    (hn : ∀ inner, field.kind = .message inner → Local everywhere everywhere (nested inner)) :
    Local reads writes (element schema config nested field) := by
  have hvalue : Local everywhere everywhere (value config nested field) := local_value hn
  refine local_nextElement hown hsub hh fun count hcount => Local.bind ?_ fun _ => local_setSlot hown hsub hh _
  refine Local.insideOf hown hsub ?_ fun place => Field.extent_of_element hh hm hcount
  split
  · next inner hk =>
    refine Local.bind (local_everywhere fun state => ?_) fun _ => hvalue
    exact Schema.keepsLength_initialiseWithin schema (maxInitialDepth + 1) inner state.block
  · exact hvalue

/-- A field in the block is decoded in its own places, a member of a group in those of the group. -/
theorem local_stored (hf : field ∈ table.fields) (hh : field.isHandled = false)
    (hgroup : field.group?.isSome → ∀ place, Schema.groupPlaces table field place → writes place)
    (hn : ∀ inner, field.kind = .message inner → Local everywhere everywhere (nested inner)) :
    Local reads writes (stored schema config nested table field type) := by
  have hvalue : field.multiplicity ≠ .repeated →
      Local reads writes (inside field field.data (value config nested field)) := fun hm =>
    Local.insideOf hown hsub (local_value hn) fun _ => Field.extent_of_data hm
  unfold stored
  split
  · next hm =>
    refine local_ite (fun _ => (local_onInput _).bind fun length => ?_) fun _ => ?_
    · exact Local.within (local_packedElements hown hsub hh hm length) length
    · exact local_element hown hsub hh hm hn
  · next group hm =>
    have hg : field.group?.isSome := by simp [Field.group?, hm]
    have hinside := hvalue (by simp [hm])
    refine (local_slot hown hsub hh).bind fun active => local_ite (fun _ => ?_) fun _ => hinside
    have hactivate := (Schema.local_activate hf hh hg : Step.Local _ _ (schema.activate table field)).mono
      (fun place hp => hsub place (hgroup hg place hp)) (hgroup hg) fun _ hp => hp
    exact (local_onBlock hactivate).bind fun _ => hinside
  · next hm =>
    refine (hvalue (by simp [hm])).bind fun _ => local_ite (fun _ => ?_) fun _ => local_pure ()
    exact local_setSlot hown hsub hh 1
  · next hm => exact hvalue (by simp [hm])

end

variable [Handler Ref S] {depth : Nat}

theorem local_handledElements (field : Field Ref) (slot room : Nat) :
    Local reads writes (handledElements field slot room : Decode σ S Unit) := by
  induction room with
  | zero => exact local_pure ()
  | succ room ih =>
    refine local_get (fun state => local_ite (fun _ => local_pure ()) fun _ => ?_)
      fun h => by rw [(Prod.mk.inj h).1]
    exact ((local_onInput _).bind fun scalar => local_withHandler field slot _).bind fun _ => ih

/-- A handled field reads its slot and writes nothing. -/
theorem local_handled (hslot : ∀ place, place ∈ field.data → reads place) :
    Local reads writes (handled config depth field type : Decode σ S Unit) := by
  have hask : Local reads writes (onBlock (Edit.ask field.handlerSlot) : Decode σ S Nat) :=
    local_onBlock (Edit.local_ask fun _ _ hagree => Field.handlerSlot_congr (hagree.slice hslot))
  refine hask.bind fun slot => local_ite (fun _ => local_onInput _) fun _ => ?_
  refine Local.bind (local_get (fun _ => local_ite (fun _ => local_throw _) fun _ => local_pure ()) fun h => ?_)
    fun _ => local_ite (fun _ => (local_onInput _).bind fun length => Local.within ?_ length) fun _ => ?_
  · rw [(Prod.mk.inj h).2]
  · refine local_ite (fun _ => local_handledElements field slot length) fun _ => ?_
    refine (local_withHandler field slot _).bind fun _ => local_get (fun _ => local_onInput _) fun h => ?_
    rw [(Prod.mk.inj h).1]
  · exact (local_onInput _).bind fun scalar => local_withHandler field slot _

/-- What stands under a number on the wire is decoded from the places that the table claims into those
that it declares. -/
theorem local_record {number : Nat} {found : Option (Entry Ref)}
    (hf : ∀ entry, found = some entry → entry.field ∈ table.fields)
    (hn : ∀ inner, Local everywhere everywhere (nested inner)) :
    Local table.claims table.declares (record schema config nested depth table type number found) := by
  have hskip : Local table.claims table.declares
      (do skipValue number type; pure none : Decode σ S (Option Nat)) :=
    (local_onInput _).bind fun _ => local_pure none
  unfold record
  cases found with
  | none => exact local_unless fun _ => hskip
  | some entry =>
    have hfield := hf entry rfl
    refine local_ite (fun _ => local_ite (fun hh => ?_) fun hh => ?_) fun _ => local_unless fun _ => hskip
    · have hslot : ∀ place, place ∈ entry.field.data → table.claims place := fun place hp =>
        ⟨entry.field, hfield, entry.field.data, by simp [Field.spans, hh], hp⟩
      exact (local_handled hslot).bind fun _ => local_pure _
    · have hinBlock : entry.field.isHandled = false := by simpa using hh
      have hown : ∀ place, entry.field.extent place → table.declares place := fun place hp =>
        ⟨entry.field, hfield, .inl hinBlock, hp⟩
      exact (local_stored hown (fun _ => Table.claims_of_declares) hfield hinBlock
        (fun hg _ => Table.declares_of_groupPlaces hg) fun inner _ => hn inner).bind fun _ => local_pure _

theorem local_walk (hn : ∀ inner, Local everywhere everywhere (nested inner)) (room : Nat)
    (cursor : Cursor) (seen : List Nat) :
    Local table.claims table.declares (walk schema config nested depth table room cursor seen) := by
  induction room generalizing cursor seen with
  | zero => exact local_pure _
  | succ room ih =>
    refine (local_onInput _).bind fun tag? => ?_
    split
    · exact local_pure _
    · next number type =>
      refine Local.bind (local_record (fun entry he => ?_) hn) fun mark => ih _ _
      exact Cursor.mem_of_findWithin (Prod.ext he rfl)

/-- A message is decoded from the places that its table claims into those that it declares. -/
theorem local_messageWithin (schema : Schema Ref) (config : DecodeConfig) (levels : Nat) (ref : Ref) :
    Local (schema ref).claims (schema ref).declares
      (messageWithin schema config levels ref : Decode σ S Unit) := by
  induction levels generalizing ref with
  | zero => exact local_throw _
  | succ levels ih =>
    have hn : ∀ inner, Local everywhere everywhere (messageWithin schema config levels inner : Decode σ S Unit) :=
      fun inner => (ih inner).mono (fun _ _ => trivial) (fun _ _ => trivial) fun _ => Table.claims_of_declares
    refine Local.bind (local_onBlock (Edit.local_ask fun block other hagree => ?_)) fun _ =>
      local_get (fun state => ?_) fun h => by rw [(Prod.mk.inj h).1]
    · rw [Table.checkBlock, Table.checkBlock, hagree.1]
    · rw [fields_eq_walk]
      refine (local_walk hn _ _ _).bind fun seen => ?_
      unfold checkRequired
      split
      · exact local_pure ()
      · exact local_throw _

theorem local_messageWithin_everywhere (schema : Schema Ref) (config : DecodeConfig) (levels : Nat) (ref : Ref) :
    Local everywhere everywhere (messageWithin schema config levels ref : Decode σ S Unit) :=
  (local_messageWithin schema config levels ref).mono (fun _ _ => trivial) (fun _ _ => trivial)
    fun _ => Table.claims_of_declares

theorem local_nextField (hn : ∀ inner, Local everywhere everywhere (nested inner)) :
    Local table.claims table.declares (nextField schema config nested depth table) :=
  (local_onInput _).bind fun _ =>
    (local_record (fun _ he => Cursor.mem_of_entryOf? he) hn).bind fun _ => local_pure _

end Decode

/-- Initialising a block, decoding into it and merging into it, whether they succeed or fail, leave alone
what no field declares as a place for its values. -/
theorem undeclared_places_kept {σ S Ref : Type} [Source σ] [Handler Ref S] (schema : Schema Ref) (ref : Ref)
    (config : DecodeConfig) (input : Input σ) (block : Bytes) (handlers : List S) :
    let keeps (after : Bytes) := AgreeOn (fun place => ¬(schema ref).declares place) block after
    let state : Decoding σ S := { input, block, handlers }
    keeps ((schema.initialise ref).result block).2 ∧
      keeps ((decodeMessage schema config ref).result state).2.block ∧
      keeps ((mergeMessage schema config ref).result state).2.block := by
  intro keeps state
  have hinit : (schema.initialise ref).Touches (schema ref).declares :=
    (Schema.touches_initialiseWithin schema _ ref).mono fun _ => Table.declares_of_inBlock
  have hmerge : ∀ state, AgreeOn (fun place => ¬(schema ref).declares place) state.block
      ((mergeMessage schema config ref).result state : _ × Decoding σ S).2.block :=
    (Decode.local_messageWithin schema config _ ref).keeps
  refine ⟨hinit block, ?_, hmerge state⟩
  exact Step.agreeOn_bind (s := Decoding σ S) (fun state => hinit state.block) (fun _ => hmerge) state

end BlockCodec
