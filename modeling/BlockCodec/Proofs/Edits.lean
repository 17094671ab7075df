import BlockCodec.Block.Initial
import BlockCodec.Proofs.Ends
import BlockCodec.Proofs.Layout
import BlockCodec.Proofs.LittleEndian

/-!
# What edits touch

An edit `Touches` only some places when every block it leaves, on success or failure, is as long
as before and the same elsewhere. Edits of a span touch the span, whatever they do inside.
-/

namespace BlockCodec

variable {Ref α β : Type} {places more : Nat → Prop}

namespace Edit

def Touches (edit : Edit α) (places : Nat → Prop) : Prop :=
  ∀ block, Bytes.AgreeOn (fun place => ¬places place) block (edit.result block).2

/-- An edit that leaves the length of the block as it is. -/
def KeepsLength (edit : Edit α) : Prop := ∀ block, (edit.result block).2.length = block.length

theorem Touches.keepsLength {edit : Edit α} (h : edit.Touches places) : edit.KeepsLength :=
  fun block => (h block).1.symm

theorem Touches.agree {edit : Edit α} (h : edit.Touches places) {block after : Bytes}
    {outcome : Except CodecError α} (hr : edit.result block = (outcome, after)) :
    Bytes.AgreeOn (fun place => ¬places place) block after := by
  have hb := h block
  rwa [hr] at hb

theorem KeepsLength.length_eq {edit : Edit α} (h : edit.KeepsLength) {block after : Bytes}
    {outcome : Except CodecError α} (hr : edit.result block = (outcome, after)) :
    after.length = block.length := by
  have hb := h block
  rwa [hr] at hb

theorem Touches.mono {edit : Edit α} (h : edit.Touches places)
    (hm : ∀ place, places place → more place) : edit.Touches more :=
  fun block => (h block).mono fun place hp h => hp (hm place h)

theorem touches_of_snd {edit : Edit α} (h : ∀ block, (edit.result block).2 = block) :
    edit.Touches places :=
  fun block => by rw [h]; exact .refl _ _

theorem touches_pure (value : α) : (pure value : Edit α).Touches places :=
  touches_of_snd fun _ => rfl

theorem touches_throw (failure : CodecError) : (throw failure : Edit α).Touches places :=
  touches_of_snd fun _ => rfl

theorem touches_ask (look : Bytes → Except CodecError α) : (ask look).Touches places :=
  touches_of_snd fun _ => rfl

theorem Touches.bind {edit : Edit α} {next : α → Edit β} (h : edit.Touches places)
    (hn : ∀ value, (next value).Touches places) : (edit >>= next).Touches places := by
  intro block
  have hb := h block
  rcases hr : edit.result block with ⟨outcome, after⟩
  rw [hr] at hb
  cases outcome with
  | ok value =>
    rw [Step.result_bind_ok hr]
    exact hb.trans (hn value after)
  | error failure =>
    rw [Step.result_bind_error hr]
    exact hb

theorem Touches.forM {f : α → Edit PUnit} {list : List α}
    (h : ∀ a ∈ list, (f a).Touches places) : (list.forM f).Touches places := by
  induction list with
  | nil => exact touches_pure _
  | cons a rest ih =>
    rw [List.forM]
    exact (h a (by simp)).bind fun _ => ih fun b hb => h b (by simp [hb])

-- ---------------------------------------------------------------------------
-- Edits of a span
-- ---------------------------------------------------------------------------

theorem result_inside {field : Field Ref} {span : Span} {block stored : Bytes}
    (h : block.slice? span = some stored) (edit : Edit α) :
    (inside field span edit).result block =
      ((edit.result stored).1, Bytes.overwrite block span.start (edit.result stored).2) := by
  simp only [inside, Step.result_ofRun, h]

theorem result_inside_none {field : Field Ref} {span : Span} {block : Bytes}
    (h : block.slice? span = none) (edit : Edit α) :
    (inside field span edit).result block = (.error field.outside, block) := by
  simp only [inside, Step.result_ofRun, h]

theorem inside_eq_ok {field : Field Ref} {span : Span} {edit : Edit α} {block after : Bytes}
    {value : α} (hr : (inside field span edit).result block = (.ok value, after)) :
    ∃ stored content, block.slice? span = some stored ∧ edit.result stored = (.ok value, content) ∧
      after = Bytes.overwrite block span.start content := by
  cases hs : block.slice? span with
  | none =>
    rw [result_inside_none hs] at hr
    cases hr
  | some stored =>
    rw [result_inside hs, Prod.mk.injEq] at hr
    exact ⟨stored, _, rfl, Prod.ext hr.1 rfl, hr.2.symm⟩

theorem touches_inside {field : Field Ref} {span : Span} {edit : Edit α} (h : edit.KeepsLength) :
    (inside field span edit).Touches (· ∈ span) := by
  intro block
  cases hs : block.slice? span with
  | none =>
    rw [result_inside_none hs]
    exact .refl _ _
  | some stored =>
    rw [result_inside hs]
    exact Bytes.agreeOn_overwrite hs (h stored)

theorem result_change {field : Field Ref} {span : Span} {block stored : Bytes}
    (h : block.slice? span = some stored) (f : Bytes → Bytes) :
    (change field span f).result block = (.ok (), Bytes.overwrite block span.start (f stored)) :=
  result_inside h _

theorem touches_change {field : Field Ref} {span : Span} {f : Bytes → Bytes}
    (h : ∀ stored, (f stored).length = stored.length) :
    (change field span f).Touches (· ∈ span) :=
  touches_inside h

theorem slice_clear {field : Field Ref} {span : Span} {block after : Bytes}
    (hr : (clear field span).result block = (.ok (), after)) :
    after.slice? span = some (Bytes.zeros span.length) := by
  rw [clear, change] at hr
  obtain ⟨stored, content, hs, hc, rfl⟩ := inside_eq_ok hr
  cases hc
  rw [← Bytes.length_slice hs]
  exact Bytes.slice_overwrite_self hs (Bytes.length_zeros _)

theorem touches_clear {field : Field Ref} {span : Span} : (clear field span).Touches (· ∈ span) :=
  touches_change fun _ => Bytes.length_zeros _

theorem result_setSlot {field : Field Ref} {span : Span} {block stored : Bytes} (value : Nat)
    (hs : field.sizeSlot? = some span) (h : block.slice? span = some stored) :
    (setSlot field value).result block =
      (.ok (), Bytes.overwrite block span.start (writeUnsigned stored (UInt64.ofNat value))) := by
  have hslot : (Step.ofExcept field.sizeSlot : Edit Span).result block = (.ok span, block) := by
    simp [Field.sizeSlot, hs]
  rw [setSlot, Step.result_bind_ok hslot, result_change h]

theorem touches_setSlot {field : Field Ref} {value : Nat} :
    (setSlot field value).Touches field.slotPlaces := by
  intro block
  cases hs : field.sizeSlot? with
  | none =>
    have hslot : (Step.ofExcept field.sizeSlot : Edit Span).result block =
        (.error (.invalidDescriptor field.name "field has no size offset"), block) := by
      simp [Field.sizeSlot, hs]
    rw [setSlot, Step.result_bind_error hslot]
    exact .refl _ _
  | some span =>
    have hslot : (Step.ofExcept field.sizeSlot : Edit Span).result block = (.ok span, block) := by
      simp [Field.sizeSlot, hs]
    rw [setSlot, Step.result_bind_ok hslot]
    exact (touches_change fun stored => length_writeUnsigned _ _).mono
      (fun place hp => ⟨span, hs, hp⟩) block

-- ---------------------------------------------------------------------------
-- Edits that only wipe
-- ---------------------------------------------------------------------------

/-- Every byte that the edit changes, it changes to zero. -/
def Wipes (edit : Edit α) : Prop :=
  ∀ block, (edit.result block).2.length = block.length ∧
    ∀ place, (edit.result block).2.byte place = block.byte place ∨
      (edit.result block).2.byte place = 0

theorem Wipes.keepsLength {edit : Edit α} (h : edit.Wipes) : edit.KeepsLength :=
  fun block => (h block).1

theorem wipes_of_snd {edit : Edit α} (h : ∀ block, (edit.result block).2 = block) : edit.Wipes :=
  fun block => by
    rw [h]
    exact ⟨rfl, fun _ => .inl rfl⟩

theorem Wipes.bind {edit : Edit α} {next : α → Edit β} (h : edit.Wipes)
    (hn : ∀ value, (next value).Wipes) : (edit >>= next).Wipes := by
  intro block
  have hb := h block
  rcases hr : edit.result block with ⟨outcome, after⟩
  rw [hr] at hb
  cases outcome with
  | error failure =>
    rw [Step.result_bind_error hr]
    exact hb
  | ok value =>
    rw [Step.result_bind_ok hr]
    refine ⟨(hn value after).1.trans hb.1, fun place => ?_⟩
    rcases (hn value after).2 place with heq | hzero
    · rw [heq]
      exact hb.2 place
    · exact .inr hzero

theorem Wipes.forM {f : α → Edit PUnit} {list : List α} (h : ∀ a ∈ list, (f a).Wipes) :
    Wipes (list.forM f) := by
  induction list with
  | nil => exact wipes_of_snd fun _ => rfl
  | cons a rest ih =>
    rw [List.forM]
    exact (h a (by simp)).bind fun _ => ih fun b hb => h b (by simp [hb])

theorem wipes_inside {field : Field Ref} {span : Span} {edit : Edit α} (h : edit.Wipes) :
    (inside field span edit).Wipes := by
  intro block
  refine ⟨(touches_inside h.keepsLength).keepsLength block, fun place => ?_⟩
  cases hs : block.slice? span with
  | none =>
    rw [result_inside_none hs]
    exact .inl rfl
  | some stored =>
    rw [result_inside hs, Bytes.byte_overwrite_slice hs (h stored).1]
    split
    · next hp =>
      have hstop := Bytes.start_add_length_slice hs
      rw [Span.mem_iff] at hp
      have hplace : span.start + (place - span.start) = place := by omega
      have hb : stored.byte (place - span.start) = block.byte (span.start + (place - span.start)) :=
        Bytes.byte_slice hs (by omega)
      rw [hplace] at hb
      rw [← hb]
      exact (h stored).2 _
    · exact .inl rfl

theorem wipes_zeros : Wipes (modify fun stored => Bytes.zeros stored.length) :=
  fun _ => ⟨Bytes.length_zeros _, fun _ => .inr (Bytes.byte_zeros _ _)⟩

theorem wipes_clear {field : Field Ref} {span : Span} : (clear field span).Wipes :=
  wipes_inside wipes_zeros

/-- Places that are zero already stay so. -/
theorem Wipes.slice_zeros {edit : Edit α} (h : edit.Wipes) {block : Bytes} {span : Span}
    (hs : block.slice? span = some (Bytes.zeros span.length)) :
    (edit.result block).2.slice? span = some (Bytes.zeros span.length) := by
  rw [Bytes.slice_eq_some_iff] at hs ⊢
  obtain ⟨hw, hl, hb⟩ := hs
  rw [(h block).1]
  refine ⟨hw, hl, fun place hp => ?_⟩
  have hzero := hb place hp
  rw [Bytes.byte_zeros] at hzero ⊢
  rcases (h block).2 (span.start + place) with heq | heq
  · rw [heq, ← hzero]
  · exact heq.symm

/-- There is nothing to wipe in zeros. -/
theorem Wipes.zeros {edit : Edit α} (h : edit.Wipes) (count : Nat) :
    (edit.result (Bytes.zeros count)).2 = Bytes.zeros count := by
  obtain ⟨hlen, hbyte⟩ := h (Bytes.zeros count)
  apply Bytes.ext_byte hlen
  intro place
  have := hbyte place
  rw [Bytes.byte_zeros] at this ⊢
  exact this.elim id id

end Edit

end BlockCodec
