import BlockCodec.Proofs.Reading

/-!
# Two readers of numbers

A number is read off a byte string that is at hand, and byte by byte off an input. The first reader tells
bytes that may become a number from those that cannot; the second knows that no more will come. Apart
from that they say the same of all bytes: `Wire.readers_agree`.
-/

namespace BlockCodec.Wire

open Input (reads_readByte)

variable {bytes : Bytes} {value : UInt64} {count place sum left taken : Nat} {bounded : Bool}

/-- Where no number stands from a place on, its groups cannot be read. -/
theorem readGroups_fails (hplace : place < Varint.maxLength)
    (h : ∀ value count, Varint.readFrom place sum bytes ≠ .complete value count) :
    ∃ after, (readGroups (Varint.maxLength - place) (128 ^ place) sum).result
      ⟨bytes, bytes.length, taken, bounded⟩ = (.error .malformedVarint, after) := by
  induction bytes generalizing place sum taken with
  | nil =>
    obtain ⟨places, hplaces⟩ : ∃ places, Varint.maxLength - place = places + 1 :=
      ⟨Varint.maxLength - place - 1, by omega⟩
    rw [hplaces]
    exact ⟨⟨[], 0, taken, bounded⟩, rfl⟩
  | cons byte bytes ih =>
    obtain ⟨places, hplaces⟩ : ∃ places, Varint.maxLength - place = places + 1 :=
      ⟨Varint.maxLength - place - 1, by omega⟩
    have hbyte : (nextGroup : Read Bytes UInt8).result ⟨byte :: bytes, bytes.length + 1, taken, bounded⟩ =
        (.ok byte, ⟨bytes, bytes.length, taken + 1, bounded⟩) :=
      (reads_readByte byte).mapFailure _ bytes _ taken bounded (Nat.succ_pos _)
    rw [Varint.readFrom, Nat.shiftLeft_eq, Nat.pow_mul] at h
    rw [hplaces, List.length_cons, readGroups, Step.result_bind_ok hbyte]
    by_cases hbig : places = 0 ∧ 1 < byte
    · rw [if_pos hbig]
      exact ⟨_, rfl⟩
    · rw [if_neg fun hlast => hbig ⟨by omega, hlast.2⟩] at h
      rw [if_neg hbig]
      by_cases hlow : byte < 128
      · simp [if_pos hlow] at h
      · simp only [if_neg hlow] at h ⊢
        -- a group in the last place would have been too big
        have hmore : place + 1 < Varint.maxLength := by
          refine Nat.lt_of_le_of_ne hplace fun hend => hbig ⟨by omega, ?_⟩
          rw [UInt8.lt_iff_toNat_lt] at hlow ⊢
          exact Nat.lt_of_lt_of_le (by decide) (Nat.not_lt.mp hlow)
        rw [← Nat.pow_succ, show places = Varint.maxLength - (place + 1) by omega]
        exact ih hmore h

/-- A number that stands at the front is read off the input, and nothing more. -/
theorem readVarint_ofBytes (h : Varint.read bytes = .complete value count) :
    readVarint.result (.ofBytes bytes) =
      (.ok value, ⟨bytes.drop count, bytes.length - count, count, true⟩) := by
  obtain ⟨front, rest, rfl, rfl, hle, hspells⟩ := Varint.read_eq_complete_iff.mp h
  have hread := reads_of_spells hspells hle rest (front ++ rest).length 0 true (by simp)
  rw [Input.ofBytes, Input.ofSource, hread, List.drop_left, Nat.zero_add]

/-- Where no number stands at the front, none is read off the input. -/
theorem readVarint_fails (hne : bytes ≠ []) (h : ∀ value count, Varint.read bytes ≠ .complete value count) :
    ∃ after, readVarint.result (.ofBytes bytes) = (.error .malformedVarint, after) := by
  obtain ⟨first, rest, rfl⟩ := List.exists_cons_of_ne_nil hne
  have hfirst : (onStream Input.readByte : Read Bytes UInt8).result (.ofBytes (first :: rest)) =
      (.ok first, ⟨rest, rest.length, 1, true⟩) :=
    (reads_readByte first).mapFailure _ rest _ 0 true (Nat.succ_pos _)
  rw [readVarint, Step.result_bind_ok hfirst, readVarintFrom]
  have hearly : ¬(0 + 1 = Varint.maxLength ∧ 1 < first) := by simp [Varint.maxLength]
  simp only [Varint.read, Varint.readFrom, if_neg hearly, Nat.mul_zero, Nat.shiftLeft_zero, Nat.zero_add] at h
  by_cases hlow : first < 128
  · simp [if_pos hlow] at h
  · simp only [if_neg hlow] at h ⊢
    exact readGroups_fails (by decide) h

theorem readVarint_nil :
    readVarint.result (.ofBytes []) = (.error (.stream (.limitExceeded 1 0)), .ofBytes []) := rfl

/-- Both readers take the same numbers, and the same bytes for each. Bytes that may become a number are, on
an input that has no others, no number at all, or too few bytes of one; and bytes that cannot are ten or
more. -/
theorem readers_agree (bytes : Bytes) :
    ∃ outcome after, readVarint.result (.ofBytes bytes) = (outcome, after) ∧
      (∀ value count, outcome = .ok value ∧ after.taken = count ↔ Varint.read bytes = .complete value count) ∧
      (Varint.read bytes = .unfinished ↔
        bytes = [] ∨ bytes ≠ [] ∧ bytes.length < 10 ∧ ∀ byte ∈ bytes, 128 ≤ byte) ∧
      (bytes = [] → outcome = .error (.stream (.limitExceeded 1 0))) ∧
      (bytes ≠ [] ∧ bytes.length < 10 ∧ (∀ byte ∈ bytes, 128 ≤ byte) → outcome = .error .malformedVarint) ∧
      (Varint.read bytes = .malformed ↔ outcome = .error .malformedVarint ∧ 10 ≤ bytes.length) := by
  have hunfinished : Varint.read bytes = .unfinished ↔ bytes.length < 10 ∧ ∀ byte ∈ bytes, 128 ≤ byte :=
    Varint.read_eq_unfinished_iff
  rcases hread : Varint.read bytes with ⟨value, count⟩ | _ | _
  case complete =>
    have hne : bytes ≠ [] := by
      rintro rfl
      cases hread
    have hmore : ¬(bytes.length < 10 ∧ ∀ byte ∈ bytes, 128 ≤ byte) := by simpa [hread] using hunfinished
    refine ⟨.ok value, _, readVarint_ofBytes hread, ?_, ?_, ?_, ?_, ?_⟩
    · simp [Varint.Front.complete.injEq]
    · simpa [hne] using hmore
    · exact fun hnil => absurd hnil hne
    · exact fun h => absurd h.2 hmore
    · simp
  case unfinished =>
    have hhigh : bytes.length < 10 ∧ ∀ byte ∈ bytes, 128 ≤ byte := by simpa [hread] using hunfinished
    by_cases hnil : bytes = []
    · subst hnil
      exact ⟨_, _, readVarint_nil, by simp, by simp, fun _ => rfl, fun h => absurd rfl h.1, by simp⟩
    · obtain ⟨after, hfails⟩ := readVarint_fails hnil (by simp [hread])
      refine ⟨_, after, hfails, by simp, ?_, fun h => absurd h hnil, fun _ => rfl, ?_⟩
      · exact iff_of_true rfl (.inr ⟨hnil, hhigh⟩)
      · have := hhigh.1
        simp only [reduceCtorEq, true_and, false_iff]
        omega
  case malformed =>
    have hlength : 10 ≤ bytes.length := (Varint.read_eq_malformed_iff.mp hread).length_le
    have hne : bytes ≠ [] := by
      rintro rfl
      cases hlength
    obtain ⟨after, hfails⟩ := readVarint_fails hne (by simp [hread])
    refine ⟨_, after, hfails, by simp, ?_, fun h => absurd h hne, fun _ => rfl, ?_⟩
    · refine iff_of_false nofun ?_
      rintro (hnil | ⟨-, hlt, -⟩)
      · exact hne hnil
      · omega
    · exact iff_of_true rfl ⟨rfl, hlength⟩

end BlockCodec.Wire
