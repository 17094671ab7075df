import BlockCodec.Proofs.Checks
import BlockCodec.Proofs.Narrowing

/-!
# Two ways to cut a number

A number is cut to its kind by storage, which holds only so many bytes of it, and by whoever reads it off
the wire, which may carry more of them. In a table that passes the checks both ways give the same number,
and give it again when it goes either way once more. The only exceptions are handled fields of fixed numbers
of one or two bytes, which the checks do not look for: the wire carries four bytes of these, and all four
are read. `casts_agree` says all this.
-/

namespace BlockCodec

variable {Ref : Type} {schema : Schema Ref} {ref : Ref} {field : Field Ref} {stored : Bytes} {value : Scalar}

/-- What storage gives back of a number. -/
def Kind.throughStorage (kind : Kind Ref) (stored : Bytes) (value : Scalar) : Scalar :=
  kind.loadScalar (kind.storeScalar stored value)

/-- What is read of a number from the bytes that are written for it, and the bytes that are left. -/
def Field.throughWire (field : Field Ref) (value : Scalar) : Except CodecError (Scalar × Bytes) :=
  match (field.writeScalar value : Step (Output Bytes) CodecError Unit).result (.unbounded []) with
  | (.error failure, _) => .error failure
  | (.ok (), output) =>
    let (outcome, input) := field.readScalar.result (.ofBytes (output.sink.getD []))
    outcome.map (·, input.source)

/-- A floating point number is of the width of the kind. There are none of less than four bytes. -/
def Scalar.Meets (value : Scalar) (kind : Kind Ref) : Prop :=
  match kind, value with
  | .float .w32, .single _ | .float .w64, .double _ => True
  | .float _, _ => False
  | _, _ => True

theorem Scalar.Meets.float_ne {kind : Kind Ref} (h : value.Meets kind) :
    kind ≠ .float .w8 ∧ kind ≠ .float .w16 := by
  constructor <;>
  · rintro rfl
    exact h

/-- A floating point number of the right width is not cut at all. -/
theorem Scalar.Meets.narrow_eq {width : Width} (h : value.Meets (.float width : Kind Ref)) :
    (.float width : Kind Ref).narrow value = value := by
  cases width with
  | w8 | w16 => exact h.elim
  | w32 =>
    cases value with
    | single => rfl
    | _ => exact h.elim
  | w64 =>
    cases value with
    | double => rfl
    | _ => exact h.elim

theorem Kind.throughStorage_eq {kind : Kind Ref} (hw : kind.scalarWidth? = some stored.length)
    (hmeets : value.Meets kind) (other : Scalar) : kind.throughStorage stored other = kind.narrow other :=
  loadScalar_storeScalar hw hmeets.float_ne other

namespace Field

theorem length_scalarForm_le (value : Scalar) : (field.scalarForm value).length ≤ Varint.maxLength := by
  have hfixed : ∀ width number, width ≤ Varint.maxLength →
      (Bytes.littleEndian width number).length ≤ Varint.maxLength := fun width number hle => by
    rwa [Bytes.length_littleEndian]
  unfold scalarForm
  split <;> first | exact Varint.length_encode_le _ | exact hfixed _ _ (by decide) | exact Nat.zero_le _

theorem throughWire_eq (hk : field.kind.isScalar = true) (value : Scalar) :
    field.throughWire value = .ok (field.kind.carry value, []) := by
  have hroom : (Output.unbounded ([] : Bytes)).Takes (field.scalarForm value).length :=
    .inr (Nat.le_trans (length_scalarForm_le value) (by decide))
  have hread := reads_carry hk value [] (field.scalarForm value).length 0 true (Nat.le_refl _)
  rw [List.append_nil] at hread
  rw [throughWire, (puts_writeScalar hk value).result hroom]
  simp only [Output.put, Output.unbounded, Output.ofSink, Output.charge, Option.map_some, List.nil_append,
    Option.getD_some, Input.ofBytes, Input.ofSource, hread]
  rfl

end Field

/-- For every number and every kind in a table that passes the checks, what the wire gives and what storage
gives do not change when they go through again, and storage makes no difference between them. They are the
same, but for handled fields of fixed numbers of one or two bytes, of which the wire gives what storage of
four bytes would. -/
theorem casts_agree (hvalid : Table.validate schema ref = .ok ()) :
    schema.Throughout (fun table => ∀ field ∈ table.fields, field.kind.isScalar = true →
      ∀ value : Scalar, value.Meets field.kind → ∃ came kept,
        field.throughWire value = .ok (came, []) ∧ field.throughWire came = .ok (came, []) ∧
        (∀ stored : Bytes, field.kind.scalarWidth? = some stored.length →
          field.kind.throughStorage stored value = kept ∧ field.kind.throughStorage stored kept = kept ∧
          field.kind.throughStorage stored came = kept) ∧
        ((∃ width, field.kind = .float width) → kept = value) ∧
        (field.isHandled = false → came = kept) ∧
        ((∀ signed, field.kind ≠ .fixed ⟨.w8, signed⟩ ∧ field.kind ≠ .fixed ⟨.w16, signed⟩) → came = kept) ∧
        ∀ signed, field.kind = .fixed ⟨.w8, signed⟩ ∨ field.kind = .fixed ⟨.w16, signed⟩ →
          ∀ wide : Bytes, wide.length = 4 →
            came = (.fixed ⟨.w32, signed⟩ : Kind Ref).throughStorage wide value) ref := by
  refine (Schema.fits_of_validate hvalid).mono fun table hfits field hf hk value hmeets => ?_
  refine ⟨field.kind.carry value, field.kind.narrow value, Field.throughWire_eq hk value, ?_,
    fun stored hw => ⟨?_, ?_, ?_⟩, ?_, fun hh => ?_, fun hwide => ?_, ?_⟩
  · rw [Field.throughWire_eq hk, Kind.carry_carry]
  · rw [Kind.throughStorage_eq hw hmeets]
  · rw [Kind.throughStorage_eq hw hmeets, Kind.narrow_narrow]
  · rw [Kind.throughStorage_eq hw hmeets, Kind.narrow_carry]
  · rintro ⟨width, hkind⟩
    rw [hkind] at hmeets ⊢
    exact hmeets.narrow_eq
  · exact Kind.carry_eq_narrow (hfits.stored field hf hh).suits.fixed_ne value
  · exact Kind.carry_eq_narrow hwide value
  · intro signed hshort wide hwide
    have hstored : (.fixed ⟨.w32, signed⟩ : Kind Ref).scalarWidth? = some wide.length := congrArg some hwide.symm
    have hmeets : value.Meets (.fixed ⟨.w32, signed⟩ : Kind Ref) := trivial
    rw [Kind.throughStorage_eq hstored hmeets]
    rcases hshort with hkind | hkind <;> rw [hkind] <;> rfl

/-- A number that one byte holds. -/
def notch : Field Unit := .ofStorage 1 "notch" (.zigZag .w8) 0 1

/-- Fixed numbers that are meant for two bytes. -/
def drift : Field Unit := (Field.ofStorage 2 "drift" (.fixed ⟨.w16, true⟩) 2 2).implicit.handled

def panel : Schema Unit := fun _ => ⟨"Panel", [notch, drift], 4⟩

theorem casts_agree_notch :
    Table.validate panel () = .ok () ∧ notch.throughWire (.unsigned 300) = .ok (.signed 44, []) ∧
      notch.throughWire (.signed 44) = .ok (.signed 44, []) ∧
      notch.kind.throughStorage [9] (.unsigned 300) = .signed 44 ∧
      notch.kind.throughStorage [9] (.signed 44) = .signed 44 := by
  have hvalid : Table.validate panel () = .ok () := by cbv
  have hwire : notch.throughWire (.unsigned 300) = .ok (.signed 44, []) := Field.throughWire_eq rfl _
  obtain ⟨came, kept, hcame, hagain, hkept, -, hsame, -⟩ :=
    casts_agree hvalid () (.refl ()) notch (by simp [panel]) rfl (.unsigned 300) trivial
  obtain rfl : .signed 44 = came := by simpa [hwire] using hcame
  obtain rfl := hsame rfl
  obtain ⟨hstored, hthrough, -⟩ := hkept [9] rfl
  exact ⟨hvalid, hwire, hagain, hstored, hthrough⟩

/-- A fixed number that is meant for two bytes is cut to two bytes by storage, but not on the wire. -/
theorem drift_keeps_four_bytes :
    Table.validate panel () = .ok () ∧ drift ∈ (panel ()).fields ∧ drift.kind.isScalar = true ∧
      drift.kind.scalarWidth? = some 2 ∧ (Scalar.signed 40000).Meets drift.kind ∧
      drift.kind.throughStorage [0, 0] (.signed 40000) = .signed (-25536) ∧
      drift.throughWire (.signed 40000) = .ok (.signed 40000, []) :=
  ⟨by cbv, by simp [panel], rfl, rfl, trivial, by cbv, by cbv⟩

end BlockCodec
