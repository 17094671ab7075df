import BlockCodec.Proofs.Frames

/-!
# Frames off a buffer that is kept

A buffer to which bytes are added as they come is cut in front: a call takes a frame off it, waits or
refuses, and `Frame.Cuts` says which, by the bytes alone. What is taken or refused is settled: the bytes
that come later change nothing but what is left (`Cuts.append`). All this is put together in
`Frame.cut_exact`.
-/

namespace BlockCodec.Frame

open Varint (Spells Spills)

variable {max : Nat} {buffer left payload front behind rest : Bytes} {declared : UInt64}
  {outcome : Except WireError (Option Bytes)}

/-- A call on a buffer: the frame at its front is taken off it, behind its length. -/
def cut (max : Nat) : Step Bytes WireError (Option Bytes) := do
  match Varint.read (← get) with
  | .malformed => throw .malformedVarint
  | .unfinished => pure none
  | .complete declared lead =>
    let size := declared.toNat
    if max < size then throw (.frameTooLarge size max)
    else if maxSize < lead + size then throw (.frameTooLarge size max)
    else if (← get).length < lead + size then pure none
    else
      modify (·.drop lead)
      let behind ← get
      set (behind.drop size)
      pure (some (behind.take size))

theorem result_cut (max : Nat) (buffer : Bytes) :
    (cut max).result buffer =
      match Varint.read buffer with
      | .malformed => (.error .malformedVarint, buffer)
      | .unfinished => (.ok none, buffer)
      | .complete declared lead =>
        if max < declared.toNat ∨ maxSize < lead + declared.toNat then
          (.error (.frameTooLarge declared.toNat max), buffer)
        else if buffer.length < lead + declared.toNat then (.ok none, buffer)
        else (.ok (some ((buffer.drop lead).take declared.toNat)), (buffer.drop lead).drop declared.toNat) := by
  rw [cut, Step.result_bind_ok (Step.result_get _)]
  rcases Varint.read buffer with ⟨declared, lead⟩ | _ | _
  · by_cases hmax : max < declared.toNat
    · simp only [if_pos hmax, if_pos (Or.inl hmax)]
      rfl
    · by_cases hword : maxSize < lead + declared.toNat
      · simp only [if_neg hmax, if_pos hword, if_pos (Or.inr hword)]
        rfl
      · simp only [if_neg hmax, if_neg hword, if_neg (not_or.mpr ⟨hmax, hword⟩)]
        rw [Step.result_bind_ok (Step.result_get _)]
        split <;> rfl
  · rfl
  · rfl

/-- What a call gives is what `take` gives, which leaves no buffer but where it takes a frame. -/
theorem take_eq_cut (max : Nat) (buffer : Bytes) :
    take max buffer =
      ((cut max).result buffer).1.map (Option.map (·, ((cut max).result buffer).2)) := by
  rw [result_cut, take]
  rcases hread : Varint.read buffer with ⟨declared, lead⟩ | _ | _
  · obtain ⟨front, behind, rfl, rfl, -, -⟩ := Varint.read_eq_complete_iff.mp hread
    by_cases hlarge : max < declared.toNat ∨ maxSize < front.length + declared.toNat
    · simp only [if_pos hlarge]
      rfl
    · have hshort : (behind.take declared.toNat).length < declared.toNat ↔
          (front ++ behind).length < front.length + declared.toNat := by
        rw [List.length_take, List.length_append]
        omega
      simp only [if_neg hlarge, List.drop_left, hshort]
      split <;> rfl
  · rfl
  · rfl

/-- What a call makes of a buffer: the outcome, and the buffer afterwards. -/
inductive Cuts (max : Nat) : Bytes → Except WireError (Option Bytes) → Bytes → Prop
  | spilt {buffer : Bytes} : Spills Varint.maxLength buffer → Cuts max buffer (.error .malformedVarint) buffer
  | begun {buffer : Bytes} : buffer.length < Varint.maxLength → (∀ byte ∈ buffer, 128 ≤ byte) →
      Cuts max buffer (.ok none) buffer
  | large {front behind : Bytes} {declared : UInt64} : Spells front declared.toNat →
      front.length ≤ Varint.maxLength → max < declared.toNat ∨ maxSize < front.length + declared.toNat →
      Cuts max (front ++ behind) (.error (.frameTooLarge declared.toNat max)) (front ++ behind)
  | short {front behind : Bytes} {declared : UInt64} : Spells front declared.toNat →
      front.length ≤ Varint.maxLength → declared.toNat ≤ max → front.length + declared.toNat ≤ maxSize →
      behind.length < declared.toNat → Cuts max (front ++ behind) (.ok none) (front ++ behind)
  | whole {front behind : Bytes} {declared : UInt64} : Spells front declared.toNat →
      front.length ≤ Varint.maxLength → declared.toNat ≤ max → front.length + declared.toNat ≤ maxSize →
      declared.toNat ≤ behind.length →
      Cuts max (front ++ behind) (.ok (some (behind.take declared.toNat))) (behind.drop declared.toNat)

theorem cuts_cut (max : Nat) (buffer : Bytes) :
    Cuts max buffer ((cut max).result buffer).1 ((cut max).result buffer).2 := by
  rw [result_cut]
  rcases hread : Varint.read buffer with ⟨declared, lead⟩ | _ | _
  · obtain ⟨front, behind, rfl, rfl, hle, hspells⟩ := Varint.read_eq_complete_iff.mp hread
    simp only
    split
    · next hlarge => exact .large hspells hle hlarge
    · next hlarge =>
      obtain ⟨hmax, hword⟩ := not_or.mp hlarge
      split
      · next hshort =>
        rw [List.length_append] at hshort
        exact .short hspells hle (by omega) (by omega) (by omega)
      · next hshort =>
        rw [List.length_append] at hshort
        rw [List.drop_left]
        exact .whole hspells hle (by omega) (by omega) (by omega)
  · obtain ⟨hlt, hhigh⟩ := Varint.read_eq_unfinished_iff.mp hread
    exact .begun hlt hhigh
  · exact .spilt (Varint.read_eq_malformed_iff.mp hread)

/-- The relation tells what a call does. -/
theorem Cuts.result (h : Cuts max buffer outcome left) : (cut max).result buffer = (outcome, left) := by
  rw [result_cut]
  cases h with
  | spilt hspills => rw [Varint.read_eq_malformed_iff.mpr hspills]
  | begun hlt hhigh => rw [Varint.read_eq_unfinished_iff.mpr ⟨hlt, hhigh⟩]
  | large hspells hle hlarge =>
    rw [Varint.read_of_spells hspells hle]
    simp only [if_pos hlarge]
  | short hspells hle hmax hword hshort =>
    rw [Varint.read_of_spells hspells hle]
    simp only
    rw [if_neg (by omega), if_pos]
    rw [List.length_append]
    omega
  | whole hspells hle hmax hword hbehind =>
    rw [Varint.read_of_spells hspells hle]
    simp only
    rw [if_neg (by omega), if_neg, List.drop_left]
    rw [List.length_append]
    omega

/-- What is taken or refused is so whatever comes later. -/
theorem Cuts.append (h : Cuts max buffer outcome left) (hne : outcome ≠ .ok none) (more : Bytes) :
    Cuts max (buffer ++ more) outcome (left ++ more) := by
  cases h with
  | spilt hspills => exact .spilt (hspills.append more)
  | begun => exact absurd rfl hne
  | large hspells hle hlarge =>
    rw [List.append_assoc]
    exact .large hspells hle hlarge
  | short => exact absurd rfl hne
  | @whole _ behind declared hspells hle hmax hword hbehind =>
    have hmore : declared.toNat ≤ (behind ++ more).length := by
      rw [List.length_append]
      exact Nat.le_add_right_of_le hbehind
    have hwhole := Cuts.whole hspells hle hmax hword hmore
    rwa [List.take_append_of_le_length hbehind, List.drop_append_of_le_length hbehind,
      ← List.append_assoc] at hwhole

theorem Cuts.unique {outcome' : Except WireError (Option Bytes)} {left' : Bytes}
    (h : Cuts max buffer outcome left) (h' : Cuts max buffer outcome' left') :
    outcome = outcome' ∧ left = left' :=
  Prod.ext_iff.mp (h.result.symm.trans h'.result)

theorem Fits.cuts (h : Fits max payload) (rest : Bytes) :
    Cuts max (encode payload ++ rest) (.ok (some payload)) rest := by
  have hframe := h.frame_le
  rw [length_encode, ← Varint.length_encode] at hframe
  have hwhole := @Cuts.whole max _ (payload ++ rest) _ (Varint.spells_encode (UInt64.ofNat payload.length))
  rw [h.toNat_length, List.take_left, List.drop_left, ← List.append_assoc] at hwhole
  refine hwhole (Varint.length_encode_le _) h.le_max hframe ?_
  rw [List.length_append]
  exact Nat.le_add_right _ _

theorem Cuts.taken_iff (h : Cuts max buffer outcome left) (hbuffer : buffer.length ≤ maxSize) :
    (∃ payload, outcome = .ok (some payload)) ↔
      ∃ front behind, ∃ declared : UInt64, buffer = front ++ behind ∧ Spells front declared.toNat ∧
        front.length ≤ Varint.maxLength ∧ declared.toNat ≤ max ∧ declared.toNat ≤ behind.length := by
  constructor
  · rintro ⟨payload, rfl⟩
    cases h with
    | whole hspells hle hmax hword hbehind => exact ⟨_, _, _, rfl, hspells, hle, hmax, hbehind⟩
  · rintro ⟨front, behind, declared, rfl, hspells, hle, hmax, hbehind⟩
    rw [List.length_append] at hbuffer
    exact ⟨_, (h.unique (.whole hspells hle hmax (by omega) hbehind)).1⟩

theorem Cuts.waits_iff (h : Cuts max buffer outcome left) :
    outcome = .ok none ↔
      (buffer.length < Varint.maxLength ∧ ∀ byte ∈ buffer, 128 ≤ byte) ∨
      ∃ front behind, ∃ declared : UInt64, buffer = front ++ behind ∧ Spells front declared.toNat ∧
        front.length ≤ Varint.maxLength ∧ declared.toNat ≤ max ∧
        front.length + declared.toNat ≤ maxSize ∧ behind.length < declared.toNat := by
  constructor
  · rintro rfl
    cases h with
    | begun hlt hhigh => exact .inl ⟨hlt, hhigh⟩
    | short hspells hle hmax hword hshort => exact .inr ⟨_, _, _, rfl, hspells, hle, hmax, hword, hshort⟩
  · rintro (⟨hlt, hhigh⟩ | ⟨front, behind, declared, rfl, hspells, hle, hmax, hword, hshort⟩)
    · exact (h.unique (.begun hlt hhigh)).1
    · exact (h.unique (.short hspells hle hmax hword hshort)).1

/-- Only a frame is taken off a buffer, all of it and nothing else. -/
theorem Cuts.left_eq (h : Cuts max buffer outcome left) (hne : ∀ payload, outcome ≠ .ok (some payload)) :
    left = buffer := by
  cases h with
  | whole => exact absurd rfl (hne _)
  | spilt | begun | large | short => rfl

theorem Cuts.spells_taken (h : Cuts max buffer outcome left) (htaken : outcome = .ok (some payload)) :
    ∃ front, buffer = front ++ (payload ++ left) ∧ Spells front payload.length := by
  subst htaken
  cases h with
  | @whole front _ _ hspells hle hmax hword hbehind =>
    refine ⟨front, ?_, ?_⟩
    · rw [List.take_append_drop]
    · rwa [List.length_take_of_le hbehind]

/-- A frame that was encoded is taken off whatever stands behind it. A call on any buffer takes a frame,
waits or refuses, as the bytes at the front say. It leaves the buffer as it is if it takes none; if it does
not wait, bytes that were there as well would only be left over. -/
theorem cut_exact (max : Nat) :
    (∀ payload rest, Fits max payload →
      (cut max).result (encode payload ++ rest) = (.ok (some payload), rest)) ∧
    ∀ buffer, ∃ outcome left,
      (cut max).result buffer = (outcome, left) ∧
      take max buffer = outcome.map (Option.map (·, left)) ∧
      ((∀ payload, outcome ≠ .ok (some payload)) → left = buffer) ∧
      (outcome ≠ .ok none → ∀ more, (cut max).result (buffer ++ more) = (outcome, left ++ more)) ∧
      (∀ payload, outcome = .ok (some payload) →
        ∃ front, buffer = front ++ (payload ++ left) ∧ Spells front payload.length) ∧
      (buffer.length ≤ maxSize →
        ((∃ payload, outcome = .ok (some payload)) ↔
          ∃ front behind, ∃ declared : UInt64, buffer = front ++ behind ∧ Spells front declared.toNat ∧
            front.length ≤ 10 ∧ declared.toNat ≤ max ∧ declared.toNat ≤ behind.length)) ∧
      (outcome = .ok none ↔
        (buffer.length < 10 ∧ ∀ byte ∈ buffer, 128 ≤ byte) ∨
        ∃ front behind, ∃ declared : UInt64, buffer = front ++ behind ∧ Spells front declared.toNat ∧
          front.length ≤ 10 ∧ declared.toNat ≤ max ∧ front.length + declared.toNat ≤ maxSize ∧
          behind.length < declared.toNat) := by
  refine ⟨fun payload rest hfits => (hfits.cuts rest).result, fun buffer => ?_⟩
  have hcuts := cuts_cut max buffer
  have htake := take_eq_cut max buffer
  rcases hresult : (cut max).result buffer with ⟨outcome, left⟩
  rw [hresult] at hcuts htake
  exact ⟨outcome, left, rfl, htake, hcuts.left_eq, fun hne more => (hcuts.append hne more).result,
    fun payload => hcuts.spells_taken, hcuts.taken_iff, hcuts.waits_iff⟩

/-- A length of one in two groups, of which the second is empty. -/
theorem cut_exact_padded :
    Fits 1 [7] ∧ (cut 1).result (encode [7] ++ [0x81, 0]) = (.ok (some [7]), [0x81, 0]) ∧
      (cut 1).result [0x81, 0] = (.ok none, [0x81, 0]) ∧
      (cut 1).result [0x81, 0, 7] = (.ok (some [7]), []) ∧
      ∀ more, (cut 1).result ([0x81, 0, 7] ++ more) = (.ok (some [7]), [] ++ more) := by
  have hfits : Fits 1 [7] := by decide
  have hcut : (cut 1).result [0x81, 0, 7] = (.ok (some [7]), []) := rfl
  obtain ⟨outcome, left, hresult, -, -, hstable, -⟩ := (cut_exact 1).2 [0x81, 0, 7]
  obtain ⟨rfl, rfl⟩ := Prod.ext_iff.mp (hcut.symm.trans hresult)
  exact ⟨hfits, (cut_exact 1).1 _ _ hfits, rfl, hcut, hstable nofun⟩

end BlockCodec.Frame
