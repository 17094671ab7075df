import BlockCodec.Proofs.Restoring

/-!
# Values read back

What a value becomes when it is stored and read again. A number is cut to the width of its kind, and
the cut does not depend on what the storage held before; a text without a zero byte and a byte string
come back as they are. A number that is sent and read is cut likewise, but for fixed numbers of less than
four bytes, which the wire does not have.
-/

namespace BlockCodec

variable {Ref : Type} {schema : Schema Ref} {field : Field Ref} {stored : Bytes}

namespace Kind

/-- A number as storage of the kind holds it. -/
def narrow (kind : Kind Ref) (value : Scalar) : Scalar :=
  match kind with
  | .bool => .bool value.asBool
  | .varint ⟨width, true⟩ | .fixed ⟨width, true⟩ | .zigZag width =>
    .signed (width.truncateSigned value.asInt64)
  | .enumeration => .signed (Width.w32.truncateSigned value.asInt64)
  | .varint ⟨width, false⟩ | .fixed ⟨width, false⟩ =>
    .unsigned (width.truncateUnsigned value.asUInt64)
  | .float .w64 => .double value.asDouble
  | .float _ => .single value.asSingle
  | .text | .bytes | .message _ => .unsigned 0

/-- A number as the wire carries it: cut to the kind, except that a fixed number never takes less than four
bytes there. -/
def carry (kind : Kind Ref) (value : Scalar) : Scalar :=
  match kind with
  | .fixed ⟨.w8, signed⟩ | .fixed ⟨.w16, signed⟩ => narrow (.fixed ⟨.w32, signed⟩ : Kind Ref) value
  | kind => kind.narrow value

theorem carry_eq_narrow {kind : Kind Ref}
    (h : ∀ signed, kind ≠ .fixed ⟨.w8, signed⟩ ∧ kind ≠ .fixed ⟨.w16, signed⟩) (value : Scalar) :
    kind.carry value = kind.narrow value := by
  unfold carry
  split
  · next signed => exact absurd rfl (h signed).1
  · next signed => exact absurd rfl (h signed).2
  · rfl

end Kind

-- ---------------------------------------------------------------------------
-- Numbers
-- ---------------------------------------------------------------------------

theorem Scalar.asUInt64_eq (value : Scalar) : value.asUInt64 = value.asInt64.toUInt64 := by
  cases value <;> simp [asUInt64, asInt64]

theorem Scalar.toInt64_asUInt64 (value : Scalar) : value.asUInt64.toInt64 = value.asInt64 := by
  rw [asUInt64_eq, UInt64.toInt64, Int64.toUInt64]

theorem Width.bytes_le (width : Width) : width.bytes ≤ 8 := by cases width <;> decide

theorem readUnsigned_write {width : Width} (hl : stored.length = width.bytes) (value : UInt64) :
    readUnsigned (writeUnsigned stored value) = width.truncateUnsigned value := by
  have hle : stored.length ≤ 8 := hl ▸ width.bytes_le
  have hlt : value.toNat % 256 ^ width.bytes < 2 ^ 64 :=
    Nat.lt_of_le_of_lt (Nat.mod_le _ _) value.toNat_lt
  rw [← UInt64.toNat_inj, readUnsigned_writeUnsigned hle, hl, Width.truncateUnsigned,
    one_shiftLeft_bits, UInt64.toNat_ofNat', Nat.mod_eq_of_lt hlt]

theorem readSigned_write {width : Width} (hl : stored.length = width.bytes) (value : Int64) :
    readSigned (writeUnsigned stored value.toUInt64) = width.truncateSigned value := by
  have hle : stored.length ≤ 8 := hl ▸ width.bytes_le
  have hmod : ((value.toUInt64.toNat % 256 ^ width.bytes : Nat) : Int).bmod (256 ^ width.bytes) =
      value.toInt.bmod (256 ^ width.bytes) := by
    rw [Int.natCast_emod, toNat_toUInt64_emod (pow_dvd_word width.bytes_le), Int.emod_bmod]
  rw [readSigned, writeUnsigned_eq hle, hl,
    List.take_of_length_le (by rw [Bytes.length_littleEndian]; exact width.bytes_le),
    Bytes.length_littleEndian, Bytes.ofLittleEndian_littleEndian, one_shiftLeft_bits, hmod,
    Width.truncateSigned, one_shiftLeft_bits]

theorem readUnsigned_double (hl : stored.length = 8) (bits : UInt64) :
    readUnsigned (writeUnsigned stored bits) = bits := by
  rw [← UInt64.toNat_inj, readUnsigned_writeUnsigned (by omega), hl]
  exact Nat.mod_eq_of_lt bits.toNat_lt

theorem readUnsigned_single (hl : stored.length = 4) (bits : UInt32) :
    (readUnsigned (writeUnsigned stored bits.toUInt64)).toUInt32 = bits := by
  have hlt := bits.toNat_lt
  rw [← UInt32.toNat_inj, UInt64.toNat_toUInt32, readUnsigned_writeUnsigned (by omega), hl,
    UInt32.toNat_toUInt64]
  omega

theorem isZero_writeUnsigned_bool (hl : stored.length = 1) (value : Bool) :
    Bytes.isZero (writeUnsigned stored (if value then 1 else 0)) = !value := by
  rw [writeUnsigned_eq (by omega), hl]
  cases value <;> rfl

/-- A number that is read where it was stored has been cut to the kind. There are no floating point numbers
of less than four bytes. -/
theorem Kind.loadScalar_storeScalar {kind : Kind Ref} (hw : kind.scalarWidth? = some stored.length)
    (hfloat : kind ≠ .float .w8 ∧ kind ≠ .float .w16) (value : Scalar) :
    kind.loadScalar (kind.storeScalar stored value) = kind.narrow value := by
  cases kind with
  | text | bytes | message => cases hw
  | bool =>
    have hlen : stored.length = 1 := (Option.some.inj hw).symm
    simp only [loadScalar, storeScalar, narrow]
    rw [isZero_writeUnsigned_bool hlen, Bool.not_not]
  | enumeration =>
    have hlen : stored.length = Width.w32.bytes := (Option.some.inj hw).symm
    simp only [loadScalar, storeScalar, narrow]
    rw [Scalar.asUInt64_eq, readSigned_write hlen]
  | zigZag width =>
    have hlen : stored.length = width.bytes := (Option.some.inj hw).symm
    simp only [loadScalar, storeScalar, narrow]
    rw [Scalar.asUInt64_eq, readSigned_write hlen]
  | varint type | fixed type =>
    obtain ⟨width, signed⟩ := type
    have hlen : stored.length = width.bytes := (Option.some.inj hw).symm
    cases signed <;> simp only [loadScalar, storeScalar, narrow]
    · rw [readUnsigned_write hlen]
    · rw [Scalar.asUInt64_eq, readSigned_write hlen]
  | float width =>
    have hlen : stored.length = width.bytes := (Option.some.inj hw).symm
    cases width with
    | w8 => exact absurd rfl hfloat.1
    | w16 => exact absurd rfl hfloat.2
    | w32 =>
      simp only [loadScalar, storeScalar, narrow]
      rw [readUnsigned_single hlen]
    | w64 =>
      simp only [loadScalar, storeScalar, narrow]
      rw [readUnsigned_double hlen]

namespace Field.Suits

theorem fixed_ne (hs : field.Suits schema) (signed : Bool) :
    field.kind ≠ .fixed ⟨.w8, signed⟩ ∧ field.kind ≠ .fixed ⟨.w16, signed⟩ := by
  constructor <;>
  · intro hkind
    simp [Suits, hkind] at hs

theorem float_ne (hs : field.Suits schema) : field.kind ≠ .float .w8 ∧ field.kind ≠ .float .w16 := by
  constructor <;>
  · intro hkind
    simp [Suits, hkind] at hs

theorem scalarWidth?_eq (hs : field.Suits schema) (hk : field.kind.isScalar = true) :
    field.kind.scalarWidth? = some field.dataSize := by
  unfold Suits at hs
  split at hs
  · next hkind => simp [hkind, Kind.isScalar] at hk
  · next hkind => simp [hkind, Kind.isScalar] at hk
  · next hkind => simp [hkind, Kind.isScalar] at hk
  all_goals first | exact hs.elim | exact hs

end Field.Suits

theorem Field.loadScalar_storeScalar (hk : field.kind.isScalar = true) (hs : field.Suits schema)
    (hl : stored.length = field.dataSize) (value : Scalar) :
    field.kind.loadScalar (field.kind.storeScalar stored value) = field.kind.narrow value :=
  Kind.loadScalar_storeScalar ((hs.scalarWidth?_eq hk).trans (congrArg some hl.symm)) hs.float_ne value

-- ---------------------------------------------------------------------------
-- Numbers on the wire
-- ---------------------------------------------------------------------------

theorem Width.truncateUnsigned_word (value : UInt64) : Width.w64.truncateUnsigned value = value := by
  rw [← UInt64.toNat_inj, truncateUnsigned, one_shiftLeft_bits, UInt64.toNat_ofNat']
  have := value.toNat_lt
  simp only [bytes]
  omega

theorem Width.toInt_truncateSigned (width : Width) (value : Int64) :
    (width.truncateSigned value).toInt = value.toInt.bmod (256 ^ width.bytes) := by
  have hpos : 0 < 256 ^ width.bytes := Nat.pow_pos (by decide)
  have hle : 256 ^ width.bytes ≤ 2 ^ 64 := Nat.le_of_dvd (by decide) (pow_dvd_word width.bytes_le)
  have hlow := Int.le_bmod (x := value.toInt) hpos
  have hhigh := Int.bmod_lt (x := value.toInt) hpos
  rw [truncateSigned, one_shiftLeft_bits]
  exact Int64.toInt_ofInt_of_le (by omega) (by omega)

theorem Width.truncateSigned_word (value : Int64) : Width.w64.truncateSigned value = value := by
  have hlow := value.le_toInt
  have hhigh := value.toInt_lt
  rw [← Int64.toInt_inj, toInt_truncateSigned]
  exact Int.bmod_eq_of_le (by simp only [bytes]; omega) (by simp only [bytes]; omega)

theorem Width.truncateUnsigned_half (value : UInt64) :
    Width.w32.truncateUnsigned value = value.toUInt32.toUInt64 := by
  rw [← UInt64.toNat_inj, truncateUnsigned, one_shiftLeft_bits, UInt64.toNat_ofNat', UInt32.toNat_toUInt64,
    UInt64.toNat_toUInt32]
  simp only [bytes]
  omega

theorem Width.truncateSigned_half (value : Int64) :
    Width.w32.truncateSigned value = value.toUInt64.toUInt32.toInt32.toInt64 := by
  have hbits : value.toUInt64.toUInt32.toInt32.toInt = (value.toUInt64.toUInt32.toNat : Int).bmod (2 ^ 32) := by
    rw [← UInt32.toNat_toBitVec, ← BitVec.toInt_eq_toNat_bmod]
    rfl
  have hhalf : ((value.toUInt64.toNat % 2 ^ 32 : Nat) : Int) = value.toInt % (2 ^ 32 : Nat) := by
    rw [Int.natCast_emod, toNat_toUInt64_emod (by decide)]
  rw [← Int64.toInt_inj, toInt_truncateSigned, Int32.toInt_toInt64, hbits, UInt64.toNat_toUInt32, hhalf,
    Int.emod_bmod]
  rfl

/-- Of two cuts the narrower one counts. -/
theorem Width.truncateUnsigned_truncateUnsigned {width wider : Width} (h : width.bytes ≤ wider.bytes)
    (value : UInt64) :
    width.truncateUnsigned (wider.truncateUnsigned value) = width.truncateUnsigned value := by
  have hlt : value.toNat % 256 ^ wider.bytes < 2 ^ 64 :=
    Nat.lt_of_le_of_lt (Nat.mod_le _ _) value.toNat_lt
  simp only [truncateUnsigned, one_shiftLeft_bits, UInt64.toNat_ofNat', Nat.mod_eq_of_lt hlt,
    Nat.mod_mod_of_dvd _ (Nat.pow_dvd_pow 256 h)]

theorem Width.truncateSigned_truncateSigned {width wider : Width} (h : width.bytes ≤ wider.bytes)
    (value : Int64) :
    width.truncateSigned (wider.truncateSigned value) = width.truncateSigned value := by
  simp only [← Int64.toInt_inj, toInt_truncateSigned, Int.bmod_bmod_of_dvd (Nat.pow_dvd_pow 256 h)]

/-- A number that has been cut is cut no further. -/
theorem Kind.narrow_narrow (kind : Kind Ref) (value : Scalar) :
    kind.narrow (kind.narrow value) = kind.narrow value := by
  cases kind with
  | bool | text | bytes | message => rfl
  | enumeration | zigZag =>
    exact congrArg Scalar.signed (Width.truncateSigned_truncateSigned (Nat.le_refl _) _)
  | varint type | fixed type =>
    obtain ⟨width, signed⟩ := type
    cases signed with
    | false => exact congrArg Scalar.unsigned (Width.truncateUnsigned_truncateUnsigned (Nat.le_refl _) _)
    | true => exact congrArg Scalar.signed (Width.truncateSigned_truncateSigned (Nat.le_refl _) _)
  | float width => cases width <;> rfl

/-- Storage holds what a number was, whether it came over the wire or not. -/
theorem Kind.narrow_carry (kind : Kind Ref) (value : Scalar) :
    kind.narrow (kind.carry value) = kind.narrow value := by
  cases kind with
  | fixed type =>
    obtain ⟨width, signed⟩ := type
    -- the wire never takes less of a number than storage
    cases signed with
    | false =>
      cases width <;> exact congrArg Scalar.unsigned (Width.truncateUnsigned_truncateUnsigned (by decide) _)
    | true => cases width <;> exact congrArg Scalar.signed (Width.truncateSigned_truncateSigned (by decide) _)
  | _ => exact narrow_narrow _ _

theorem Kind.carry_carry (kind : Kind Ref) (value : Scalar) :
    kind.carry (kind.carry value) = kind.carry value := by
  cases kind with
  | fixed type =>
    obtain ⟨width, signed⟩ := type
    cases width <;> exact narrow_narrow _ _
  | _ => simp only [carry, narrow_narrow]

/-- What is read of a number is the number as the wire carries it. -/
theorem Field.reads_carry (hk : field.kind.isScalar = true) (value : Scalar) :
    Input.Reads field.readScalar (field.scalarForm value) (field.kind.carry value) := by
  unfold Field.readScalar scalarForm
  generalize field.kind = kind at hk
  cases kind with
  | text | bytes | message => cases hk
  | bool =>
    refine ((Wire.reads_readVarint _).mapFailure _).map ?_
    cases h : value.asBool <;> simp [Kind.carry, Kind.narrow, h]
  | varint type =>
    obtain ⟨width, signed⟩ := type
    cases signed with
    | false => exact ((Wire.reads_readVarint _).mapFailure _).map rfl
    | true =>
      refine ((Wire.reads_readVarint _).mapFailure _).map ?_
      rw [Scalar.toInt64_asUInt64]
      rfl
  | zigZag width => exact ((Wire.reads_readZigZag _).mapFailure _).map rfl
  | enumeration =>
    refine ((Wire.reads_readVarint _).mapFailure _).map ?_
    rw [Scalar.toInt64_asUInt64]
    rfl
  | fixed type =>
    have hshort : ∀ signed : Bool, (if signed then Scalar.signed value.asUInt64.toUInt32.toInt32.toInt64
        else .unsigned value.asUInt64.toUInt32.toUInt64) =
          Kind.narrow (.fixed ⟨.w32, signed⟩ : Kind Ref) value := by
      intro signed
      cases signed with
      | false => simp [Kind.narrow, Width.truncateUnsigned_half]
      | true => simp [Kind.narrow, Width.truncateSigned_half, Scalar.asUInt64_eq]
    obtain ⟨width, signed⟩ := type
    cases width with
    | w8 | w16 | w32 => exact ((Wire.reads_readFixed32 _).mapFailure _).map (congrArg pure (hshort signed))
    | w64 =>
      refine ((Wire.reads_readFixed64 _).mapFailure _).map ?_
      cases signed with
      | false => simp [Kind.carry, Kind.narrow, Width.truncateUnsigned_word]
      | true => simp [Kind.carry, Kind.narrow, Width.truncateSigned_word, Scalar.toInt64_asUInt64]
  | float width =>
    cases width with
    | w64 => exact ((Wire.reads_readFixed64 _).mapFailure _).map rfl
    | w8 | w16 | w32 => exact ((Wire.reads_readFixed32 _).mapFailure _).map rfl

-- ---------------------------------------------------------------------------
-- Texts and byte strings
-- ---------------------------------------------------------------------------

theorem Bytes.isZero_append (a b : Bytes) : isZero (a ++ b) = (isZero a && isZero b) :=
  List.all_append

theorem Bytes.isZero_zeros (count : Nat) : isZero (zeros count) = true :=
  isZero_iff.mpr (byte_zeros count)

namespace Field

theorem text_ofText {text : String} (hz : 0 ∉ Bytes.ofText text) (count : Nat) :
    field.text (Bytes.ofText text ++ Bytes.zeros (count + 1)) = .ok text := by
  rw [Field.text, Decode.textBytes_append hz, bind_ok, Bytes.text?_ofText]
  rfl

/-- Storage of bytes without any is the only one that is zero. -/
theorem isZero_littleEndian {bytes : Bytes} (hl : bytes.length < 2 ^ 32) (count : Nat) :
    Bytes.isZero (Bytes.littleEndian 4 bytes.length ++ bytes ++ Bytes.zeros count) = bytes.isEmpty := by
  cases bytes with
  | nil => simp [Bytes.littleEndian_zero, Bytes.isZero_append, Bytes.isZero_zeros]
  | cons byte bytes =>
    have hne : Bytes.isZero (Bytes.littleEndian 4 (byte :: bytes).length) = false := by
      rw [Bool.eq_false_iff]
      intro hz
      have hzero := Bytes.ofLittleEndian_littleEndian 4 (byte :: bytes).length
      rw [Bytes.isZero_iff_eq_zeros.mp hz, Bytes.ofLittleEndian_zeros,
        Nat.mod_eq_of_lt (by omega)] at hzero
      simp at hzero
    rw [Bytes.isZero_append, Bytes.isZero_append, hne]
    rfl

/-- Storage of text is zero when it begins with zero, as long as there is no zero byte in the text. -/
theorem isZero_ofText {text : String} (hz : 0 ∉ Bytes.ofText text) (count : Nat) :
    ((Bytes.ofText text ++ Bytes.zeros (count + 1)).headD 0 != 0) =
      !Bytes.isZero (Bytes.ofText text ++ Bytes.zeros (count + 1)) := by
  rw [Bytes.isZero_append, Bytes.isZero_zeros, Bool.and_true]
  cases htext : Bytes.ofText text with
  | nil => rfl
  | cons byte bytes =>
    have hne : byte ≠ 0 := fun h => hz (by simp [htext, h])
    simp [Bytes.isZero, bne, beq_eq_false_iff_ne.mpr hne]

end Field

end BlockCodec
