import Mathlib
import BlockCodec.Varint

/-!
# Spellings of numbers

Which bytes are a spelling of a number is said without reading them, by `Varint.Spells`: groups of
seven bits, all of which but the last announce another one. Of every length from the shortest on a
number has just one spelling (`Spells.eq_groups`), and `encode` is the shortest. Whatever the bytes, a
spelling stands in front of them, or they may become one, or they run beyond 64 bits (`fronts`), and
reading says which (`read_eq_complete_iff`, `read_eq_unfinished_iff`, `read_eq_malformed_iff`). So what is
encoded is a prefix code, and reading accepts it and its longer spellings: `minimal_prefix_code`.
-/

namespace BlockCodec.Varint

variable {bytes front rest more : Bytes} {byte : UInt8} {value : UInt64} {count number place places sum : Nat}

-- ---------------------------------------------------------------------------
-- Spellings
-- ---------------------------------------------------------------------------

/-- The bytes are groups of the number, least significant group first, and no others. -/
inductive Spells : Bytes → Nat → Prop
  | last {byte : UInt8} : byte < 128 → Spells [byte] byte.toNat
  | group {byte : UInt8} {bytes : Bytes} {number : Nat} :
      128 ≤ byte → Spells bytes number → Spells (byte :: bytes) (byte.toNat % 128 + 128 * number)

theorem Spells.length_pos (h : Spells bytes number) : 0 < bytes.length := by
  cases h <;> exact Nat.succ_pos _

theorem Spells.lt_pow (h : Spells bytes number) : number < 128 ^ bytes.length := by
  induction h with
  | last hlow => exact UInt8.lt_iff_toNat_lt.mp hlow
  | group _ _ ih =>
    rw [List.length_cons, Nat.pow_succ]
    omega

/-- A spelling is told by its length and its number. -/
theorem Spells.eq_groups (h : Spells bytes number) : bytes = groups bytes.length number := by
  induction h with
  | @last byte hlow =>
    have hsmall : byte.toNat % 128 = byte.toNat := Nat.mod_eq_of_lt (UInt8.lt_iff_toNat_lt.mp hlow)
    rw [List.length_singleton, groups, hsmall, UInt8.ofNat_toNat]
  | @group byte bytes number hhigh hrest ih =>
    have hlow := byte.toNat_lt
    have hhigh : 128 ≤ byte.toNat := UInt8.le_iff_toNat_le.mp hhigh
    obtain ⟨count, hcount⟩ : ∃ count, bytes.length = count + 1 :=
      ⟨bytes.length - 1, by have := hrest.length_pos; omega⟩
    rw [hcount] at ih
    rw [List.length_cons, hcount, groups,
      show (byte.toNat % 128 + 128 * number) % 128 + 128 = byte.toNat by omega,
      show (byte.toNat % 128 + 128 * number) / 128 = number by omega, UInt8.ofNat_toNat, ← ih]

theorem spells_groups (hpos : 0 < count) (hn : number < 128 ^ count) :
    Spells (groups count number) number := by
  fun_induction groups count number with
  | case1 => omega
  | case2 number =>
    have hsmall : number % 128 = number := Nat.mod_eq_of_lt (by simpa using hn)
    have hbyte : (UInt8.ofNat number).toNat = number := by
      rw [UInt8.toNat_ofNat']
      omega
    rw [hsmall]
    have hlast : Spells [UInt8.ofNat number] (UInt8.ofNat number).toNat := by
      refine .last ?_
      rw [UInt8.lt_iff_toNat_lt, hbyte]
      exact hsmall ▸ Nat.mod_lt _ (by decide)
    rwa [hbyte] at hlast
  | case3 count number ih =>
    have hbyte : (UInt8.ofNat (number % 128 + 128)).toNat = number % 128 + 128 := by
      rw [UInt8.toNat_ofNat']
      omega
    have hrest := ih (Nat.succ_pos _) (by rw [Nat.pow_succ] at hn; omega)
    have hhigh : 128 ≤ UInt8.ofNat (number % 128 + 128) := by
      rw [UInt8.le_iff_toNat_le, hbyte]
      exact Nat.le_add_left _ _
    have hmore := Spells.group hhigh hrest
    rwa [hbyte, show (number % 128 + 128) % 128 + 128 * (number / 128) = number by omega] at hmore

/-- All bytes of a spelling but the last announce another one. -/
theorem Spells.high_of_mem_take (h : Spells bytes number) (hb : byte ∈ bytes.take (bytes.length - 1)) :
    128 ≤ byte := by
  induction h with
  | last => simp at hb
  | @group first bytes number hhigh hrest ih =>
    obtain ⟨count, hcount⟩ : ∃ count, bytes.length = count + 1 :=
      ⟨bytes.length - 1, by have := hrest.length_pos; omega⟩
    rw [List.length_cons, hcount, Nat.add_sub_cancel, List.take_succ_cons, List.mem_cons] at hb
    rcases hb with rfl | hb
    · exact hhigh
    · exact ih (by rwa [hcount])

-- ---------------------------------------------------------------------------
-- The shortest spelling
-- ---------------------------------------------------------------------------

theorem length_pos (value : UInt64) : 0 < length value := Nat.succ_pos _

theorem log2_lt_word (value : UInt64) : value.toNat.log2 < 64 := by
  rcases Nat.eq_zero_or_pos value.toNat with hz | hp
  · rw [hz]
    decide
  · exact (Nat.log2_lt (by omega)).mpr value.toNat_lt

theorem length_le (value : UInt64) : length value ≤ maxLength := by
  have hlog := log2_lt_word value
  rw [length, maxLength]
  omega

theorem length_encode_le (value : UInt64) : (encode value).length ≤ maxLength := by
  rw [length_encode]
  exact length_le value

theorem pow_eq_two_pow (count : Nat) : 128 ^ count = 2 ^ (7 * count) := by
  rw [show (128 : Nat) = 2 ^ 7 by decide, ← Nat.pow_mul]

theorem lt_pow_length (value : UInt64) : value.toNat < 128 ^ length value := by
  have hlog : value.toNat < 2 ^ (value.toNat.log2 + 1) := Nat.lt_log2_self
  rw [pow_eq_two_pow]
  refine Nat.lt_of_lt_of_le hlog (Nat.pow_le_pow_right (by decide) ?_)
  rw [length]
  omega

theorem length_le_of_lt_pow (hpos : 0 < count) (h : value.toNat < 128 ^ count) : length value ≤ count := by
  rw [length]
  rcases Nat.eq_zero_or_pos value.toNat with hz | hp
  · rw [hz]
    exact hpos
  · rw [pow_eq_two_pow] at h
    have hlog := (Nat.log2_lt (by omega)).mpr h
    omega

theorem spells_encode (value : UInt64) : Spells (encode value) value.toNat :=
  spells_groups (length_pos value) (lt_pow_length value)

/-- No spelling of a number is shorter, and none of the same length is another one. -/
theorem Spells.shortest (h : Spells bytes value.toNat) :
    length value ≤ bytes.length ∧ (bytes.length = length value ↔ bytes = encode value) := by
  refine ⟨length_le_of_lt_pow h.length_pos h.lt_pow, fun hlength => ?_, fun heq => ?_⟩
  · rw [encode, ← hlength]
    exact h.eq_groups
  · rw [heq, length_encode]

/-- The spelling that takes seven bits off a number for as long as it has more. -/
def shifted (number : Nat) : Bytes :=
  if number < 128 then [UInt8.ofNat number]
  else UInt8.ofNat (number % 128 + 128) :: shifted (number / 128)

theorem shifted_eq_groups (number : Nat) : shifted number = groups (number.log2 / 7 + 1) number := by
  fun_induction shifted number with
  | case1 number hsmall =>
    have hlog : number.log2 < 7 := by
      rcases Nat.eq_zero_or_pos number with rfl | hp
      · decide
      · exact (Nat.log2_lt (by omega)).mpr hsmall
    rw [Nat.div_eq_of_lt hlog, groups, Nat.mod_eq_of_lt hsmall]
  | case2 number hlarge ih =>
    have hlog : number.log2 = (number / 128).log2 + 7 := by
      have hquotient := (Nat.log2_eq_iff (show number / 128 ≠ 0 by omega)).mp rfl
      rw [Nat.log2_eq_iff (by omega), Nat.pow_add, show (number / 128).log2 + 7 + 1 =
        (number / 128).log2 + 1 + 7 by omega, Nat.pow_add]
      omega
    rw [ih, hlog, Nat.add_div_right _ (by decide : 0 < 7), groups]

theorem log2_or_one (number : Nat) : (number ||| 1).log2 = number.log2 := by
  rcases Nat.eq_zero_or_pos number with rfl | hp
  · rfl
  · obtain ⟨hlower, hupper⟩ := (Nat.log2_eq_iff (show number ≠ 0 by omega)).mp rfl
    have hle : number ≤ number ||| 1 := Nat.left_le_or
    refine (Nat.log2_eq_iff (by omega)).mpr ⟨Nat.le_trans hlower hle, ?_⟩
    exact Nat.or_lt_two_pow hupper (Nat.one_lt_two_pow (Nat.succ_ne_zero _))

theorem log2_eq_clz {word : BitVec 64} (h : word ≠ 0#64) : word.toNat.log2 = 63 - word.clz.toNat := by
  have hpos : word.toNat ≠ 0 := by simpa [BitVec.toNat_eq] using h
  have hclz : word.clz.toNat < 64 := by simpa [BitVec.lt_def] using BitVec.clz_lt_iff_ne_zero.mpr h
  have hupper := BitVec.toNat_lt_two_pow_sub_clz (x := word)
  rw [show 64 - word.clz.toNat = 63 - word.clz.toNat + 1 by omega] at hupper
  exact (Nat.log2_eq_iff hpos).mpr ⟨BitVec.two_pow_sub_clz_le_toNat_of_ne_zero (by decide) h, hupper⟩

/-- How long the shortest spelling is, by the bits in use; zero counts as one bit. -/
theorem length_eq_clz (value : UInt64) :
    length value = (64 - (value ||| 1).toBitVec.clz.toNat + 6) / 7 := by
  have hodd : (value ||| 1).toBitVec ≠ 0#64 := by
    intro hz
    have hbit := congrArg (BitVec.getLsbD · 0) hz
    simp at hbit
  have hor : (value ||| 1).toBitVec.toNat = value.toNat ||| 1 := by simp
  have hlog := log2_eq_clz hodd
  rw [hor, log2_or_one] at hlog
  have hclz : (value ||| 1).toBitVec.clz.toNat < 64 := by
    simpa [BitVec.lt_def] using BitVec.clz_lt_iff_ne_zero.mpr hodd
  rw [length, hlog]
  omega

-- ---------------------------------------------------------------------------
-- What stands at the front
-- ---------------------------------------------------------------------------

/-- The numbers from a place on are below this: seven bits for each place, and one for the last. -/
def room (place : Nat) : Nat := 2 * 128 ^ (maxLength - 1 - place)

theorem room_zero : room 0 = 2 ^ 64 := by decide

theorem room_one : room 1 = 2 ^ 57 := by decide

theorem room_last : room (maxLength - 1) = 2 := by decide

theorem room_succ (h : place + 1 < maxLength) : room place = 128 * room (place + 1) := by
  rw [room, room, show maxLength - 1 - place = maxLength - 1 - (place + 1) + 1 by omega, Nat.pow_succ]
  omega

/-- In the last place there is room for one bit. -/
theorem not_lt_of_room (hn : byte.toNat < room place) (hend : place + 1 = maxLength) : ¬1 < byte := by
  obtain rfl : place = maxLength - 1 := by omega
  rw [room_last] at hn
  rw [UInt8.lt_iff_toNat_lt, UInt8.toNat_one]
  omega

/-- At the front are bytes that fill the places, and the last one has bits for which there is no room. -/
def Spills (places : Nat) (bytes : Bytes) : Prop :=
  ∃ groups last rest, bytes = groups ++ last :: rest ∧ groups.length + 1 = places ∧
    (∀ byte ∈ groups, 128 ≤ byte) ∧ 1 < last

theorem Spills.cons (h : Spills places bytes) (hb : 128 ≤ byte) : Spills (places + 1) (byte :: bytes) := by
  obtain ⟨groups, last, rest, rfl, rfl, hgroups, hlast⟩ := h
  exact ⟨byte :: groups, last, rest, rfl, rfl, List.forall_mem_cons.mpr ⟨hb, hgroups⟩, hlast⟩

theorem Spills.length_le (h : Spills places bytes) : places ≤ bytes.length := by
  obtain ⟨groups, last, rest, rfl, rfl, -⟩ := h
  simp

theorem Spills.append (h : Spills places bytes) (more : Bytes) : Spills places (bytes ++ more) := by
  obtain ⟨groups, last, rest, rfl, hrest⟩ := h
  exact ⟨groups, last, rest ++ more, by simp, hrest⟩

/-- In front of any bytes stands a spelling for which there is room, or they may become one, or they
spill. -/
theorem fronts (bytes : Bytes) (h : place < maxLength) :
    (∃ front rest number, bytes = front ++ rest ∧ Spells front number ∧
      place + front.length ≤ maxLength ∧ number < room place) ∨
    (place + bytes.length < maxLength ∧ ∀ byte ∈ bytes, 128 ≤ byte) ∨
    Spills (maxLength - place) bytes := by
  induction bytes generalizing place with
  | nil => exact .inr (.inl ⟨h, nofun⟩)
  | cons byte bytes ih =>
    obtain ⟨places, hplaces⟩ : ∃ places, maxLength - place = places + 1 := ⟨maxLength - place - 1, by omega⟩
    by_cases hend : place + 1 = maxLength
    · obtain rfl : place = maxLength - 1 := by omega
      by_cases hbig : 1 < byte
      · exact .inr (.inr ⟨[], byte, bytes, rfl, by decide, nofun, hbig⟩)
      · have hbit : byte.toNat < 2 := by
          rw [UInt8.lt_iff_toNat_lt, UInt8.toNat_one] at hbig
          omega
        refine .inl ⟨[byte], bytes, byte.toNat, rfl, .last ?_, Nat.le_of_eq hend, room_last ▸ hbit⟩
        rw [UInt8.lt_iff_toNat_lt]
        exact Nat.lt_trans hbit (by decide)
    · have hmore : place + 1 < maxLength := by omega
      have hroom := room_succ hmore
      by_cases hlow : byte < 128
      · refine .inl ⟨[byte], bytes, byte.toNat, rfl, .last hlow, h, ?_⟩
        have hsmall : byte.toNat < 128 := UInt8.lt_iff_toNat_lt.mp hlow
        have hpos : 0 < room (place + 1) := Nat.mul_pos (by decide) (Nat.pow_pos (by decide))
        omega
      · have hhigh : 128 ≤ byte := UInt8.not_lt.mp hlow
        rcases ih hmore with ⟨front, rest, number, rfl, hspells, hle, hn⟩ | ⟨hlt, hbytes⟩ | hspills
        · refine .inl ⟨byte :: front, rest, _, rfl, .group hhigh hspells, ?_, ?_⟩
          · rw [List.length_cons]
            omega
          · omega
        · refine .inr (.inl ⟨?_, List.forall_mem_cons.mpr ⟨hhigh, hbytes⟩⟩)
          rw [List.length_cons]
          omega
        · refine .inr (.inr ?_)
          rw [hplaces]
          rw [show maxLength - (place + 1) = places by omega] at hspills
          exact hspills.cons hhigh

-- ---------------------------------------------------------------------------
-- Reading
-- ---------------------------------------------------------------------------

/-- A group in its place, and the groups in the places behind it. -/
theorem group_add_mul (group number place : Nat) :
    group * 128 ^ place + number * 128 ^ (place + 1) = (group + 128 * number) * 128 ^ place := by
  rw [Nat.pow_succ, Nat.add_mul, Nat.mul_comm (128 ^ place), ← Nat.mul_assoc, Nat.mul_comm number]

theorem readFrom_of_spells (h : Spells front number) (hle : place + front.length ≤ maxLength)
    (hn : number < room place) (rest : Bytes) :
    readFrom place sum (front ++ rest) =
      .complete (UInt64.ofNat (sum + number * 128 ^ place)) (place + front.length) := by
  have hshift : ∀ group place : Nat, group <<< (7 * place) = group * 128 ^ place := fun group place => by
    rw [Nat.shiftLeft_eq, Nat.pow_mul]
  induction h generalizing place sum with
  | @last byte hlow =>
    have hlast : ¬(place + 1 = maxLength ∧ 1 < byte) := fun ⟨hend, hbig⟩ => not_lt_of_room hn hend hbig
    have hsmall : byte.toNat % 128 = byte.toNat := Nat.mod_eq_of_lt (UInt8.lt_iff_toNat_lt.mp hlow)
    simp only [List.cons_append, readFrom, if_neg hlast, if_pos hlow, hshift, hsmall, List.length_singleton]
  | @group byte front number hhigh hspells ih =>
    rw [List.length_cons] at hle ⊢
    have hpos := hspells.length_pos
    have hroom := room_succ (show place + 1 < maxLength by omega)
    have hearly : ¬(place + 1 = maxLength ∧ 1 < byte) := by omega
    simp only [List.cons_append, readFrom, if_neg hearly, if_neg (UInt8.not_lt.mpr hhigh), hshift]
    rw [ih (by omega) (by omega), Nat.add_assoc, group_add_mul, Nat.add_right_comm, Nat.add_assoc place]

theorem readFrom_unfinished (hle : place + bytes.length < maxLength) (h : ∀ byte ∈ bytes, 128 ≤ byte) :
    readFrom place sum bytes = .unfinished := by
  induction bytes generalizing place sum with
  | nil => rfl
  | cons byte bytes ih =>
    obtain ⟨hbyte, hrest⟩ := List.forall_mem_cons.mp h
    rw [List.length_cons] at hle
    rw [readFrom, if_neg (by omega)]
    simp only [if_neg (UInt8.not_lt.mpr hbyte)]
    exact ih (by omega) hrest

theorem readFrom_of_spills (h : Spills places bytes) (hp : place + places = maxLength) :
    readFrom place sum bytes = .malformed := by
  obtain ⟨groups, last, rest, rfl, rfl, hgroups, hlast⟩ := h
  induction groups generalizing place sum with
  | nil => rw [List.nil_append, readFrom, if_pos ⟨hp, hlast⟩]
  | cons byte groups ih =>
    obtain ⟨hbyte, hgroups⟩ := List.forall_mem_cons.mp hgroups
    rw [List.length_cons] at hp
    rw [List.cons_append, readFrom, if_neg (by omega)]
    simp only [if_neg (UInt8.not_lt.mpr hbyte)]
    exact ih (by omega) hgroups

/-- Whatever stands behind a spelling, it is read. -/
theorem read_of_spells (h : Spells front value.toNat) (hle : front.length ≤ maxLength) (rest : Bytes) :
    read (front ++ rest) = .complete value front.length := by
  rw [read, readFrom_of_spells h (by omega) (room_zero ▸ value.toNat_lt) rest]
  simp

/-- What reading says of the bytes. -/
theorem read_says (bytes : Bytes) :
    match read bytes with
    | .complete value count => ∃ front rest, bytes = front ++ rest ∧ front.length = count ∧
        count ≤ maxLength ∧ Spells front value.toNat
    | .unfinished => bytes.length < maxLength ∧ ∀ byte ∈ bytes, 128 ≤ byte
    | .malformed => Spills maxLength bytes := by
  rcases fronts bytes (show 0 < maxLength by decide) with
    ⟨front, rest, number, rfl, hspells, hle, hn⟩ | ⟨hlt, hhigh⟩ | hspills
  · have hnumber : (UInt64.ofNat number).toNat = number := by
      rw [UInt64.toNat_ofNat']
      exact Nat.mod_eq_of_lt (room_zero ▸ hn)
    rw [← hnumber] at hspells
    rw [Nat.zero_add] at hle
    rw [read_of_spells hspells hle]
    exact ⟨front, rest, rfl, rfl, hle, hspells⟩
  · rw [read, readFrom_unfinished hlt hhigh]
    exact ⟨by omega, hhigh⟩
  · rw [read, readFrom_of_spills hspills (by decide)]
    exact hspills

/-- A number is read where a spelling of it stands at the front. -/
theorem read_eq_complete_iff :
    read bytes = .complete value count ↔
      ∃ front rest, bytes = front ++ rest ∧ front.length = count ∧ count ≤ maxLength ∧
        Spells front value.toNat := by
  constructor
  · intro h
    simpa only [h] using read_says bytes
  · rintro ⟨front, rest, rfl, rfl, hle, hspells⟩
    exact read_of_spells hspells hle rest

/-- More is waited for while all bytes announce another one and there is room for it. -/
theorem read_eq_unfinished_iff :
    read bytes = .unfinished ↔ bytes.length < maxLength ∧ ∀ byte ∈ bytes, 128 ≤ byte := by
  constructor
  · intro h
    simpa only [h] using read_says bytes
  · rintro ⟨hlt, hhigh⟩
    exact readFrom_unfinished (by omega) hhigh

/-- What has too many bits is refused, and nothing else is. -/
theorem read_eq_malformed_iff : read bytes = .malformed ↔ Spills maxLength bytes := by
  constructor
  · intro h
    simpa only [h] using read_says bytes
  · exact fun h => readFrom_of_spills h (by decide)

/-- Bytes of which something is said are not looked at again when more come. -/
theorem read_append (h : read bytes ≠ .unfinished) (more : Bytes) : read (bytes ++ more) = read bytes := by
  rcases hread : read bytes with ⟨value, count⟩ | _ | _
  · obtain ⟨front, rest, rfl, rfl, hle, hspells⟩ := read_eq_complete_iff.mp hread
    rw [List.append_assoc, read_of_spells hspells hle]
  · exact absurd hread h
  · exact read_eq_malformed_iff.mpr ((read_eq_malformed_iff.mp hread).append more)

/-- Whatever stands behind a number, it is read back. -/
theorem read_encode_append (value : UInt64) (rest : Bytes) :
    read (encode value ++ rest) = .complete value (length value) := by
  rw [read_of_spells (spells_encode value) (length_encode_le value), length_encode]

/-- The front of a number is no number yet. -/
theorem read_take_encode (h : count < length value) : read ((encode value).take count) = .unfinished := by
  have hle := length_le value
  refine read_eq_unfinished_iff.mpr ⟨?_, fun byte hbyte => (spells_encode value).high_of_mem_take ?_⟩
  · rw [List.length_take]
    omega
  · rw [length_encode]
    exact List.take_subset_take_left _ (Nat.le_sub_one_of_lt h) hbyte

/-- Numbers are encoded by a prefix code of shortest spellings. What the shifting of seven bits at a time
gives is as long as the bits in use say; it is read back whatever stands behind it, and no front of it
is read. Whatever is read otherwise is a longer spelling, of at most ten bytes. -/
theorem minimal_prefix_code :
    (∀ value : UInt64,
      encode value = shifted value.toNat ∧
      length value = (64 - (value ||| 1).toBitVec.clz.toNat + 6) / 7 ∧
      (encode value).length = length value ∧
      (∀ rest, read (encode value ++ rest) = .complete value (length value)) ∧
      ∀ front, front <+: encode value → front ≠ encode value → read front = .unfinished) ∧
    ∀ (bytes : Bytes) (value : UInt64) (count : Nat), read bytes = .complete value count →
      1 ≤ count ∧ count ≤ 10 ∧ count ≤ bytes.length ∧ length value ≤ count ∧
        (count = length value ↔ bytes.take count = encode value) := by
  constructor
  · intro value
    refine ⟨(shifted_eq_groups _).symm, length_eq_clz value, length_encode value, read_encode_append value,
      fun front hfront hne => ?_⟩
    have hshort : front.length < length value := by
      rw [← length_encode]
      exact Nat.lt_of_le_of_ne hfront.length_le fun heq => hne (hfront.eq_of_length heq)
    rw [List.prefix_iff_eq_take.mp hfront]
    exact read_take_encode hshort
  · intro bytes value count h
    obtain ⟨front, rest, rfl, rfl, hle, hspells⟩ := read_eq_complete_iff.mp h
    obtain ⟨hlength, hequal⟩ := hspells.shortest
    refine ⟨hspells.length_pos, hle, ?_, hlength, ?_⟩
    · rw [List.length_append]
      exact Nat.le_add_right _ _
    · rw [List.take_left]
      exact hequal

/-- One in two groups, of which the second is empty. -/
theorem minimal_prefix_code_padded :
    read [0x81, 0, 7] = .complete 1 2 ∧ length 1 ≤ 2 ∧ (2 = length 1 ↔ [0x81, 0] = encode 1) := by
  have h : read [0x81, 0, 7] = .complete 1 2 := by decide
  obtain ⟨-, -, -, hle, hequal⟩ := minimal_prefix_code.2 _ _ _ h
  exact ⟨h, hle, hequal⟩

end BlockCodec.Varint
