import BlockCodec.Block.Storage
import BlockCodec.Proofs.Spans

/-!
# Numbers in bytes

As many bytes as a number is given hold it modulo a power of 256, and bytes are the number they
hold. Slots and scalar storage are at most eight bytes long, where nothing else is at work.
-/

namespace BlockCodec

namespace Bytes

theorem ofLittleEndian_lt (bytes : Bytes) : ofLittleEndian bytes < 256 ^ bytes.length := by
  induction bytes with
  | nil => decide
  | cons byte rest ih =>
    have := byte.toNat_lt
    simp only [ofLittleEndian, List.length_cons, Nat.pow_succ]
    omega

theorem ofLittleEndian_littleEndian (width number : Nat) :
    ofLittleEndian (littleEndian width number) = number % 256 ^ width := by
  induction width generalizing number with
  | zero => simp [littleEndian, ofLittleEndian, Nat.mod_one]
  | succ width ih =>
    have hp : 256 ^ (width + 1) = 256 * 256 ^ width := Nat.pow_succ'
    rw [hp, Nat.mod_mul, ← ih, littleEndian, ofLittleEndian, UInt8.toNat_ofNat']

theorem littleEndian_ofLittleEndian (bytes : Bytes) :
    littleEndian bytes.length (ofLittleEndian bytes) = bytes := by
  induction bytes with
  | nil => rfl
  | cons byte rest ih =>
    have hb := byte.toNat_lt
    have hm : (byte.toNat + 256 * ofLittleEndian rest) % 256 = byte.toNat := by omega
    have hd : (byte.toNat + 256 * ofLittleEndian rest) / 256 = ofLittleEndian rest := by omega
    simp only [ofLittleEndian, List.length_cons, littleEndian, hd, ih, List.cons.injEq, and_true]
    rw [← UInt8.toNat_inj, UInt8.toNat_ofNat']
    exact hm

theorem littleEndian_mod (width number : Nat) :
    littleEndian width (number % 256 ^ width) = littleEndian width number := by
  have h := littleEndian_ofLittleEndian (littleEndian width number)
  rwa [length_littleEndian, ofLittleEndian_littleEndian] at h

theorem littleEndian_zero (width : Nat) : littleEndian width 0 = zeros width := by
  induction width with
  | zero => rfl
  | succ width ih => simp [littleEndian, ih, zeros, List.replicate_succ]

theorem ofLittleEndian_zeros (count : Nat) : ofLittleEndian (zeros count) = 0 := by
  rw [← littleEndian_zero, ofLittleEndian_littleEndian, Nat.zero_mod]

end Bytes

open Bytes

theorem toNat_readUnsigned {bytes : Bytes} (h : bytes.length ≤ 8) :
    (readUnsigned bytes).toNat = ofLittleEndian bytes := by
  have hlt := ofLittleEndian_lt bytes
  have hle : (256 : Nat) ^ bytes.length ≤ 256 ^ 8 := Nat.pow_le_pow_right (by decide) h
  rw [readUnsigned, List.take_of_length_le h, UInt64.toNat_ofNat']
  exact Nat.mod_eq_of_lt (by omega)

theorem writeUnsigned_eq {bytes : Bytes} (h : bytes.length ≤ 8) (value : UInt64) :
    writeUnsigned bytes value = littleEndian bytes.length value.toNat := by
  rw [writeUnsigned, List.drop_of_length_le h, List.append_nil, Nat.min_eq_right h]

@[simp] theorem length_writeUnsigned (bytes : Bytes) (value : UInt64) :
    (writeUnsigned bytes value).length = bytes.length := by
  simp only [writeUnsigned, List.length_append, length_littleEndian, List.length_drop]
  omega

theorem readUnsigned_writeUnsigned {bytes : Bytes} (h : bytes.length ≤ 8) (value : UInt64) :
    (readUnsigned (writeUnsigned bytes value)).toNat = value.toNat % 256 ^ bytes.length := by
  rw [toNat_readUnsigned (by rwa [length_writeUnsigned]), writeUnsigned_eq h,
    ofLittleEndian_littleEndian]

theorem readUnsigned_zeros (count : Nat) : readUnsigned (zeros count) = 0 := by
  have h : (zeros count).take 8 = zeros (min 8 count) := by simp [zeros]
  rw [readUnsigned, h, ofLittleEndian_zeros]
  rfl

-- ---------------------------------------------------------------------------
-- Numbers written into zeros
-- ---------------------------------------------------------------------------

variable {stored : Bytes}

theorem bmod_emod_of_dvd {number : Int} {modulus more : Nat} (hd : modulus ∣ more) :
    number.bmod more % modulus = number % modulus := by
  have hdvd : (modulus : Int) ∣ more := Int.natCast_dvd_natCast.mpr hd
  rw [← Int.emod_emod_of_dvd _ hdvd, Int.bmod_emod, Int.emod_emod_of_dvd _ hdvd]

theorem toNat_toUInt64_emod {value : Int64} {modulus : Nat} (hd : modulus ∣ 2 ^ 64) :
    (value.toUInt64.toNat : Int) % modulus = value.toInt % modulus := by
  have hbits : (value.toUInt64.toNat : Int).bmod (2 ^ 64) = value.toInt := by
    rw [← Int64.toNat_toBitVec, ← BitVec.toInt_eq_toNat_bmod]
    rfl
  rw [← hbits, bmod_emod_of_dvd hd]

theorem toInt_ofInt_emod {number : Int} {modulus : Nat} (hd : modulus ∣ 2 ^ 64) :
    (Int64.ofInt number).toInt % modulus = number % modulus := by
  rw [Int64.toInt_ofInt]
  exact bmod_emod_of_dvd hd

/-- Storage is what is written there of a number that says the same in so many bytes. -/
theorem writeUnsigned_zeros {value : UInt64} (hl : stored.length ≤ 8)
    (h : value.toNat % 256 ^ stored.length = ofLittleEndian stored) :
    writeUnsigned (zeros stored.length) value = stored := by
  rw [writeUnsigned_eq (by rwa [length_zeros]), length_zeros, ← littleEndian_mod,
    h, littleEndian_ofLittleEndian]

theorem pow_dvd_word {width : Nat} (h : width ≤ 8) : 256 ^ width ∣ 2 ^ 64 := by
  rw [show (2 : Nat) ^ 64 = 256 ^ 8 by decide]
  exact Nat.pow_dvd_pow 256 h

theorem one_shiftLeft_bits (width : Nat) : 1 <<< (8 * width) = 256 ^ width := by
  rw [Nat.one_shiftLeft, Nat.pow_mul]

theorem toNat_readSigned (hl : stored.length ≤ 8) :
    (readSigned stored).toUInt64.toNat % 256 ^ stored.length = ofLittleEndian stored := by
  have hlt := ofLittleEndian_lt stored
  rw [← Int.natCast_inj, Int.natCast_emod, readSigned, List.take_of_length_le hl, one_shiftLeft_bits,
    toNat_toUInt64_emod (pow_dvd_word hl), toInt_ofInt_emod (pow_dvd_word hl), Int.bmod_emod]
  exact Int.emod_eq_of_lt (by omega) (by exact_mod_cast hlt)

theorem toNat_readUnsigned_mod (hl : stored.length ≤ 8) :
    (readUnsigned stored).toNat % 256 ^ stored.length = ofLittleEndian stored := by
  rw [toNat_readUnsigned hl, Nat.mod_eq_of_lt (ofLittleEndian_lt stored)]

theorem write_readUnsigned (hl : stored.length ≤ 8) :
    writeUnsigned (zeros stored.length) (readUnsigned stored) = stored :=
  writeUnsigned_zeros hl (toNat_readUnsigned_mod hl)

theorem write_truncateUnsigned {width : Width} (hl : stored.length = width.bytes) :
    writeUnsigned (zeros stored.length) (width.truncateUnsigned (readUnsigned stored)) =
      stored := by
  have hle : stored.length ≤ 8 := by rw [hl]; cases width <;> decide
  have hlt := ofLittleEndian_lt stored
  refine writeUnsigned_zeros hle ?_
  rw [Width.truncateUnsigned, ← hl, toNat_readUnsigned hle, one_shiftLeft_bits, UInt64.toNat_ofNat',
    Nat.mod_mod_of_dvd _ (pow_dvd_word hle), Nat.mod_mod, Nat.mod_eq_of_lt hlt]

theorem toNat_truncateSigned (width : Width) (value : Int64) :
    (width.truncateSigned value).toUInt64.toNat % 256 ^ width.bytes =
      value.toUInt64.toNat % 256 ^ width.bytes := by
  have hd : 256 ^ width.bytes ∣ 2 ^ 64 := pow_dvd_word (by cases width <;> decide)
  rw [← Int.natCast_inj, Int.natCast_emod, Int.natCast_emod, toNat_toUInt64_emod hd,
    toNat_toUInt64_emod hd, Width.truncateSigned, toInt_ofInt_emod hd, one_shiftLeft_bits, Int.bmod_emod]

theorem write_truncateSigned {width : Width} (hl : stored.length = width.bytes) :
    writeUnsigned (zeros stored.length) (width.truncateSigned (readSigned stored)).toUInt64 =
      stored := by
  have hle : stored.length ≤ 8 := by rw [hl]; cases width <;> decide
  refine writeUnsigned_zeros hle ?_
  rw [hl, toNat_truncateSigned, ← hl, toNat_readSigned hle]

/-- Four bytes of a number that was read as a signed one. -/
theorem toNat_toInt64_toInt32 (value : UInt32) :
    value.toInt32.toInt64.toUInt64.toNat % 256 ^ 4 = value.toNat := by
  have hd : 2 ^ 32 ∣ 2 ^ 64 := by decide
  have hlt := value.toNat_lt
  have hbits : (value.toNat : Int).bmod (2 ^ 32) = value.toInt32.toInt := by
    rw [← UInt32.toNat_toBitVec, ← BitVec.toInt_eq_toNat_bmod]
    rfl
  have h : (value.toInt32.toInt64.toUInt64.toNat : Int) % (2 ^ 32 : Nat) = value.toNat := by
    rw [toNat_toUInt64_emod hd, Int32.toInt_toInt64, ← hbits, Int.bmod_emod]
    exact Int.emod_eq_of_lt (by omega) (by exact_mod_cast hlt)
  rw [show (256 : Nat) ^ 4 = 2 ^ 32 by decide, ← Int.natCast_inj, Int.natCast_emod, h]

theorem write_word (hl : stored.length = 4) {value : UInt64}
    (h : value.toNat % 256 ^ stored.length = ofLittleEndian stored) :
    writeUnsigned (zeros stored.length) value.toUInt32.toUInt64 = stored := by
  refine writeUnsigned_zeros (by omega) ?_
  rw [← h, hl, UInt32.toNat_toUInt64, UInt64.toNat_toUInt32]
  exact Nat.mod_mod _ _

theorem write_signedWord (hl : stored.length = 4) {value : UInt64}
    (h : value.toNat % 256 ^ stored.length = ofLittleEndian stored) :
    writeUnsigned (zeros stored.length) value.toUInt32.toInt32.toInt64.toUInt64 = stored := by
  refine writeUnsigned_zeros (by omega) ?_
  rw [hl] at h ⊢
  rw [toNat_toInt64_toInt32, UInt64.toNat_toUInt32]
  exact h

end BlockCodec
