import BlockCodec.Message.Number
import BlockCodec.Proofs.Spellings
import BlockCodec.Proofs.WireForm

/-!
# Reading back what was written

A step `Reads` some bytes as a value when it takes just these from any input that begins with them,
whatever stands behind them. This composes along `++`, so what holds of the forms of numbers, headers
and lengths is put together without a word about positions.
-/

namespace BlockCodec

variable {Ref ε ε' α β : Type} {content a b rest : Bytes} {left taken : Nat} {bounded : Bool}

namespace Input

def Reads (step : Step (Input Bytes) ε α) (content : Bytes) (value : α) : Prop :=
  ∀ (rest : Bytes) (left taken : Nat) (bounded : Bool), content.length ≤ left →
    step.result ⟨content ++ rest, left, taken, bounded⟩ =
      (.ok value, ⟨rest, left - content.length, taken + content.length, bounded⟩)

theorem reads_pure (value : α) : Reads (pure value : Step (Input Bytes) ε α) [] value :=
  fun _ _ _ _ _ => rfl

theorem Reads.bind {step : Step (Input Bytes) ε α} {next : α → Step (Input Bytes) ε β} {value : α}
    {last : β} (h : Reads step a value) (hn : Reads (next value) b last) :
    Reads (step >>= next) (a ++ b) last := by
  intro rest left taken bounded hle
  rw [List.length_append] at hle
  rw [List.append_assoc, Step.result_bind_ok (h _ _ _ _ (by omega)), hn _ _ _ _ (by omega),
    List.length_append, Nat.sub_sub, Nat.add_assoc]

/-- A step of which the last value is made. -/
theorem Reads.map {step : Step (Input Bytes) ε α} {next : α → Step (Input Bytes) ε β} {value : α}
    {last : β} (h : Reads step content value) (hn : next value = pure last) :
    Reads (step >>= next) content last := by
  have hlast : Reads (next value) [] last := by rw [hn]; exact reads_pure last
  simpa using h.bind hlast

theorem Reads.mapFailure {step : Step (Input Bytes) ε α} {value : α} (h : Reads step content value)
    (restate : ε → ε') : Reads (step.mapFailure restate) content value := by
  intro rest left taken bounded hle
  rw [Step.result_mapFailure, h rest left taken bounded hle]
  rfl

-- ---------------------------------------------------------------------------
-- Bytes
-- ---------------------------------------------------------------------------

theorem gather_append (content rest : Bytes) :
    gather (content ++ rest) content.length = (⟨content, none⟩, rest) := by
  cases content with
  | nil => rw [gather, if_pos (by simp)]; rfl
  | cons byte tail =>
    rw [gather, if_neg (by simp)]
    have hread : Source.read ((byte :: tail) ++ rest) (byte :: tail).length =
        (.ok (byte :: tail), rest) := by
      simp [Source.read]
    rw [hread]
    simp only
    rw [gather, if_pos (by simp)]
    simp

theorem deliver_append (hle : content.length ≤ left) :
    deliver content.length ⟨content ++ rest, left, taken, bounded⟩ =
      (⟨content, none⟩, ⟨rest, left - content.length, taken + content.length, bounded⟩) := by
  rw [deliver, if_neg (by simp only; omega)]
  simp only [gather_append]
  simp [charge]

theorem reads_read (content : Bytes) : Reads (read content.length) content content := by
  intro rest left taken bounded hle
  rw [read, Step.result_ofRun, deliver_append hle]

theorem reads_readByte (byte : UInt8) : Reads readByte [byte] byte :=
  Reads.map (reads_read [byte]) rfl

theorem reads_readByte? (byte : UInt8) : Reads readByte? [byte] (some byte) := by
  intro rest left taken bounded hle
  rw [List.length_singleton] at hle
  rw [readByte?, Step.result_ofRun, if_neg (by simp only; omega)]
  rfl

end Input

open Input

-- ---------------------------------------------------------------------------
-- Numbers in groups of seven bits
-- ---------------------------------------------------------------------------

namespace Wire

open Varint (Spells)

/-- The groups of a number from a place on. -/
theorem reads_readGroups {front : Bytes} {number place sum : Nat} (h : Spells front number)
    (hle : place + front.length ≤ Varint.maxLength) (hn : number < Varint.room place) :
    Reads (readGroups (Varint.maxLength - place) (128 ^ place) sum) front
      (UInt64.ofNat (sum + number * 128 ^ place)) := by
  induction h generalizing place sum with
  | @last byte hlow =>
    rw [List.length_singleton] at hle
    obtain ⟨places, hplaces⟩ : ∃ places, Varint.maxLength - place = places + 1 :=
      ⟨Varint.maxLength - place - 1, by omega⟩
    have hsmall : byte.toNat % 128 = byte.toNat := Nat.mod_eq_of_lt (UInt8.lt_iff_toNat_lt.mp hlow)
    have hlast : ¬(places = 0 ∧ 1 < byte) := fun ⟨hend, hbig⟩ => Varint.not_lt_of_room hn (by omega) hbig
    rw [hplaces]
    refine Reads.map ((reads_readByte byte).mapFailure _) ?_
    rw [if_neg hlast, if_pos hlow, hsmall]
  | @group byte front number hhigh hspells ih =>
    rw [List.length_cons] at hle
    have hpos := hspells.length_pos
    obtain ⟨places, hplaces⟩ : ∃ places, Varint.maxLength - place = places + 1 :=
      ⟨Varint.maxLength - place - 1, by omega⟩
    have hroom := Varint.room_succ (show place + 1 < Varint.maxLength by omega)
    rw [hplaces]
    refine Reads.bind (a := [byte]) ((reads_readByte byte).mapFailure _) ?_
    rw [if_neg (by omega), if_neg (UInt8.not_lt.mpr hhigh), ← Nat.pow_succ, ← Varint.group_add_mul,
      ← Nat.add_assoc, show places = Varint.maxLength - (place + 1) by omega]
    exact ih (by omega) (by omega)

/-- A number whose first byte has been read. -/
theorem reads_tail_of_spells {value : UInt64} {first : UInt8} (h : Spells (first :: b) value.toNat)
    (hle : b.length + 1 ≤ Varint.maxLength) : Reads (readVarintFrom first) b value := by
  have hword := value.toNat_lt
  generalize hnumber : value.toNat = number at h hword
  obtain rfl : UInt64.ofNat number = value := by rw [← hnumber, UInt64.ofNat_toNat]
  cases h with
  | last hlow =>
    rw [readVarintFrom, if_pos hlow]
    exact reads_pure _
  | @group _ _ number hhigh hspells =>
    have hroom : number < Varint.room 1 := by
      rw [Varint.room_one]
      omega
    rw [readVarintFrom, if_neg (UInt8.not_lt.mpr hhigh), Nat.mul_comm, ← Nat.pow_one 128]
    exact reads_readGroups hspells (by omega) hroom

theorem reads_of_spells {front : Bytes} {value : UInt64} (h : Spells front value.toNat)
    (hle : front.length ≤ Varint.maxLength) : Reads readVarint front value := by
  obtain ⟨first, tail, rfl⟩ := List.exists_cons_of_length_pos h.length_pos
  exact Reads.bind (a := [first]) ((reads_readByte first).mapFailure _) (reads_tail_of_spells h hle)

theorem encode_eq_cons (value : UInt64) : ∃ first tail, Varint.encode value = first :: tail :=
  List.exists_cons_of_length_pos (Varint.spells_encode value).length_pos

theorem reads_readVarintFrom {value : UInt64} {first : UInt8} (h : Varint.encode value = first :: b) :
    Reads (readVarintFrom first) b value :=
  reads_tail_of_spells (h ▸ Varint.spells_encode value) (by simpa [h] using Varint.length_encode_le value)

theorem reads_readVarint (value : UInt64) : Reads readVarint (Varint.encode value) value :=
  reads_of_spells (Varint.spells_encode value) (Varint.length_encode_le value)

theorem toNat_ofNat_short {number : Nat} (h : number < 2 ^ 32) :
    (UInt64.ofNat number).toNat = number := by
  rw [UInt64.toNat_ofNat']
  omega

theorem reads_readVarint32 {number : Nat} (h : number < 2 ^ 32) :
    Reads readVarint32 (Varint.encode (UInt64.ofNat number)) number := by
  have hword : number < 0x100000000 := h
  refine Reads.map (reads_readVarint _) ?_
  rw [toNat_ofNat_short h, if_pos hword]

theorem reads_readFixed32 (value : UInt32) :
    Reads readFixed32 (Bytes.littleEndian 4 value.toNat) value := by
  have h := (reads_read (Bytes.littleEndian 4 value.toNat)).mapFailure WireError.stream
  rw [Bytes.length_littleEndian] at h
  have hword : value.toNat % 256 ^ 4 = value.toNat := Nat.mod_eq_of_lt value.toNat_lt
  refine h.map ?_
  rw [Bytes.ofLittleEndian_littleEndian, hword, UInt32.ofNat_toNat]

theorem reads_readFixed64 (value : UInt64) :
    Reads readFixed64 (Bytes.littleEndian 8 value.toNat) value := by
  have h := (reads_read (Bytes.littleEndian 8 value.toNat)).mapFailure WireError.stream
  rw [Bytes.length_littleEndian] at h
  have hword : value.toNat % 256 ^ 8 = value.toNat := Nat.mod_eq_of_lt value.toNat_lt
  refine h.map ?_
  rw [Bytes.ofLittleEndian_littleEndian, hword, UInt64.ofNat_toNat]

-- ---------------------------------------------------------------------------
-- Headers and lengths
-- ---------------------------------------------------------------------------

theorem splitTag_header {type : WireType} {tag : Nat} (hpos : 0 < tag) :
    splitTag (tag * 8 + type.bits) = .ok (tag, type) := by
  have hbits : type.bits < 8 := by cases type <;> decide
  have htype : WireType.ofBits? ((tag * 8 + type.bits) % 8) = some type := by
    rw [WireType.ofBits?_eq_some_iff]
    omega
  rw [splitTag, htype, show (tag * 8 + type.bits) / 8 = tag by omega]
  simp only
  rw [if_neg (by omega)]

theorem reads_readTag {type : WireType} {tag : Nat} (hpos : 0 < tag) (hle : tag ≤ maxFieldNumber) :
    Reads readTag (headerForm type tag) (some (tag, type)) := by
  have hbits : type.bits < 8 := by cases type <;> decide
  have hshort : tag * 8 + type.bits < 0x100000000 := by
    simp only [maxFieldNumber] at hle
    omega
  obtain ⟨first, tail, h⟩ := encode_eq_cons (UInt64.ofNat (tag * 8 + type.bits))
  rw [headerForm, h]
  refine Reads.bind (a := [first]) ((reads_readByte? first).mapFailure _) ?_
  refine Reads.map (reads_readVarintFrom h) ?_
  rw [toNat_ofNat_short hshort, if_pos hshort, splitTag_header hpos]
  rfl

theorem readTag_end {source : Bytes} :
    readTag.result ⟨source, 0, taken, bounded⟩ = (.ok none, ⟨source, 0, taken, bounded⟩) := rfl

/-- A length whose content is there. -/
theorem readLength_append (hl : content.length < 2 ^ 32)
    (hle : (delimitedForm content).length ≤ left) :
    readLength.result ⟨delimitedForm content ++ rest, left, taken, bounded⟩ =
      (.ok content.length, ⟨content ++ rest,
        left - (Varint.encode (UInt64.ofNat content.length)).length,
        taken + (Varint.encode (UInt64.ofNat content.length)).length, bounded⟩) := by
  rw [delimitedForm, List.length_append] at hle
  rw [readLength, delimitedForm, List.append_assoc,
    Step.result_bind_ok (reads_readVarint32 hl _ _ _ _ (by omega)),
    Step.result_bind_ok (Step.result_get _), if_neg (by simp only; omega)]
  rfl

end Wire

-- ---------------------------------------------------------------------------
-- Numbers of a field
-- ---------------------------------------------------------------------------

theorem ZigZag.decode_encode (value : Int64) : decode (encode value) = value := by
  have hlt : ofInt value.toInt < 2 ^ 64 := by
    have := value.toInt_lt
    have := value.le_toInt
    unfold ofInt
    split <;> omega
  rw [decode, encode, UInt64.toNat_ofNat', Nat.mod_eq_of_lt hlt, toInt_ofInt, Int64.ofInt_toInt]

theorem Wire.reads_readZigZag (value : Int64) :
    Reads readZigZag (Varint.encode (ZigZag.encode value)) value := by
  refine (reads_readVarint _).map ?_
  rw [ZigZag.decode_encode]

/-- A number in storage is read back as one that leaves the same in fresh storage. -/
theorem Field.reads_readScalar {field : Field Ref} {schema : Schema Ref} {stored : Bytes}
    (hk : field.kind.isScalar = true) (hs : field.Suits schema)
    (hl : stored.length = field.dataSize) (hc : field.Canonical stored) :
    ∃ value, Reads field.readScalar (field.scalarForm (field.kind.loadScalar stored)) value ∧
      field.kind.storeScalar (Bytes.zeros field.dataSize) value = stored := by
  rw [← hl]
  unfold Field.readScalar scalarForm
  unfold Suits at hs
  unfold Canonical at hc
  generalize field.kind = kind at *
  cases kind with
  | text | bytes | message => cases hk
  | bool =>
    refine ⟨.bool (!Bytes.isZero stored), ((Wire.reads_readVarint _).mapFailure _).map ?_, ?_⟩
    · cases h : Bytes.isZero stored <;> simp [Kind.loadScalar, Scalar.asBool, h]
    · rcases hc with rfl | rfl <;> rfl
  | varint type =>
    obtain ⟨width, signed⟩ := type
    simp only [Kind.scalarWidth?, Option.some.injEq] at hs
    cases signed with
    | false =>
      exact ⟨_, ((Wire.reads_readVarint _).mapFailure _).map rfl,
        write_truncateUnsigned (hl.trans hs.symm)⟩
    | true =>
      exact ⟨_, ((Wire.reads_readVarint _).mapFailure _).map rfl,
        write_truncateSigned (hl.trans hs.symm)⟩
  | zigZag width =>
    simp only [Kind.scalarWidth?, Option.some.injEq] at hs
    exact ⟨_, ((Wire.reads_readZigZag _).mapFailure _).map rfl,
      write_truncateSigned (hl.trans hs.symm)⟩
  | enumeration =>
    simp only [Kind.scalarWidth?, Option.some.injEq] at hs
    have hw : stored.length = Width.w32.bytes := hl.trans hs.symm
    exact ⟨_, ((Wire.reads_readVarint _).mapFailure _).map rfl, write_truncateSigned hw⟩
  | fixed type =>
    obtain ⟨width, signed⟩ := type
    cases width with
    | w8 | w16 => exact hs.elim
    | w32 =>
      simp only [Kind.scalarWidth?, Width.bytes, Option.some.injEq] at hs
      have hw : stored.length = 4 := by omega
      have hle : stored.length ≤ 8 := by omega
      cases signed with
      | false =>
        exact ⟨_, ((Wire.reads_readFixed32 _).mapFailure _).map rfl,
          write_word hw (toNat_readUnsigned_mod hle)⟩
      | true =>
        exact ⟨_, ((Wire.reads_readFixed32 _).mapFailure _).map rfl,
          write_signedWord hw (toNat_readSigned hle)⟩
    | w64 =>
      simp only [Kind.scalarWidth?, Width.bytes, Option.some.injEq] at hs
      have hw : stored.length ≤ 8 := by omega
      cases signed with
      | false =>
        exact ⟨_, ((Wire.reads_readFixed64 _).mapFailure _).map rfl, write_readUnsigned hw⟩
      | true =>
        exact ⟨_, ((Wire.reads_readFixed64 _).mapFailure _).map rfl,
          writeUnsigned_zeros hw (toNat_readSigned hw)⟩
  | float width =>
    cases width with
    | w8 | w16 => exact hs.elim
    | w32 =>
      simp only [Kind.scalarWidth?, Width.bytes, Option.some.injEq] at hs
      have hw : stored.length = 4 := by omega
      have hle : stored.length ≤ 8 := by omega
      exact ⟨_, ((Wire.reads_readFixed32 _).mapFailure _).map rfl,
        write_word hw (toNat_readUnsigned_mod hle)⟩
    | w64 =>
      simp only [Kind.scalarWidth?, Width.bytes, Option.some.injEq] at hs
      have hw : stored.length ≤ 8 := by omega
      exact ⟨_, ((Wire.reads_readFixed64 _).mapFailure _).map rfl, write_readUnsigned hw⟩

end BlockCodec
