import BlockCodec.Message.Decode
import BlockCodec.Proofs.Moves

/-!
# Before and behind a value

Decoding a single field is decoding its value with an edit of the block on either side: `prepare` makes
a member of a group the active one, `conclude` sets a flag. `Decode.stored_single` takes it apart.
-/

namespace BlockCodec

namespace Decode

section

variable {σ S α β Ref : Type} [Source σ] {schema : Schema Ref} {config : DecodeConfig}
  {nested : Ref → Decode σ S Unit} {table : Table Ref} {field : Field Ref} {type : WireType}

/-- What comes before the value of a single field: a member of a group becomes the active one. -/
def prepare (schema : Schema Ref) (table : Table Ref) (field : Field Ref) : Edit Unit :=
  match field.multiplicity with
  | .oneof _ => do
    let active ← Edit.ask field.slot
    if active ≠ field.tag then schema.activate table field
  | _ => pure ()

/-- What comes behind it: the flag is set. -/
def conclude (field : Field Ref) : Edit Unit :=
  match field.multiplicity with
  | .optional => if field.sizeOffset.isSome then Edit.setSlot field 1 else pure ()
  | _ => pure ()

omit [Source σ] in
theorem onBlock_bind (edit : Edit α) (next : α → Edit β) :
    (onBlock (edit >>= next) : Decode σ S β) = onBlock edit >>= fun value => onBlock (next value) := by
  unfold onBlock
  exact Step.onPart_bind (by intros; rfl) (by intros; rfl) edit next

/-- A value of a single field, with what comes before and behind it. -/
theorem stored_single (hm : field.multiplicity ≠ .repeated) :
    stored schema config nested table field type = (do
      onBlock (prepare schema table field)
      inside field field.data (value config nested field)
      onBlock (conclude field) : Decode σ S Unit) := by
  have hpure : (onBlock (pure ()) : Decode σ S Unit) = pure () := rfl
  unfold stored prepare conclude
  cases hmult : field.multiplicity with
  | required => simp [hpure]
  | «repeated» => exact absurd hmult hm
  | optional =>
    simp only [hpure, pure_bind]
    split <;> simp_all
  | oneof group =>
    simp only [onBlock_bind, hpure, bind_assoc, bind_pure_unit]
    congr 1
    funext active
    split <;> simp_all

end

variable {Ref : Type} {schema : Schema Ref} {table : Table Ref} {field : Field Ref} {size : Nat}
  {block ready : Bytes}

theorem conclude_cases (field : Field Ref) : conclude field = pure () ∨
    field.multiplicity = .optional ∧ field.sizeOffset.isSome ∧ conclude field = Edit.setSlot field 1 := by
  unfold conclude
  split
  · next hm =>
    split
    · next ho => exact .inr ⟨hm, ho, rfl⟩
    · exact .inl rfl
  · exact .inl rfl

theorem touches_conclude (field : Field Ref) : (conclude field).Touches field.slotPlaces := by
  rcases conclude_cases field with h | ⟨-, -, h⟩ <;> rw [h]
  · exact Edit.touches_pure ()
  · exact Edit.touches_setSlot

theorem slot_prepare (hlaid : field.Laid schema size) (hs : size ≤ block.length)
    (ht : field.tag ≤ Wire.maxFieldNumber) (hg : field.group?.isSome)
    (hr : (prepare schema table field).result block = (.ok (), ready)) :
    field.slot ready = .ok field.tag := by
  obtain ⟨group, hm⟩ := Field.multiplicity_of_group hg
  simp only [prepare, hm] at hr
  obtain ⟨active, middle, hask, hr⟩ := Step.result_bind_eq_ok.mp hr
  obtain ⟨hactive, rfl⟩ := Prod.mk.inj hask
  split at hr
  · exact Schema.slot_activate hlaid hs hg ht hr
  · next heq =>
    cases hr
    rw [hactive, not_not.mp heq]

/-- A field that is ready already is left alone. -/
theorem prepare_ready (h : field.group?.isSome → field.slot block = .ok field.tag) :
    (prepare schema table field).result block = (.ok (), block) := by
  unfold prepare
  split
  · next group hm =>
    have hslot := h (by simp [Field.group?, hm])
    have hask : (Edit.ask field.slot).result block = (.ok field.tag, block) := by
      rw [Edit.ask, Step.result_ofRun, hslot]
    rw [Step.result_bind_ok hask]
    simp
  · rfl

end Decode

end BlockCodec
