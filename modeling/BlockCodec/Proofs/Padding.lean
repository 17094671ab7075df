import BlockCodec.Proofs.Accounts
import BlockCodec.Proofs.Prefixes

/-!
# Requests beyond the limit

A write or a loan that crosses the limit of an output is refused before anything is done. Padding goes out
in chunks, each of which is refused by itself, so the chunks that still fit have been written by then
(`Output.pad_over`). What each request leaves of an output over a byte string is said in
`Output.requests_refused`.
-/

namespace BlockCodec

theorem Bytes.zeros_append (first second : Nat) :
    zeros first ++ zeros second = zeros (first + second) := List.replicate_append_replicate

namespace Output

variable {output : Output Bytes} {content : Bytes} {count : Nat}

/-- The first chunk, and the padding behind it. -/
theorem pad_pos (hpos : 0 < count) :
    (pad count : Step (Output Bytes) StreamError Unit) =
      write (Bytes.zeros (min count padChunk)) >>= fun _ => pad (count - padChunk) := by
  rw [pad, if_neg (Nat.ne_of_gt hpos)]

/-- Padding that fits is written whole. -/
theorem puts_pad (count : Nat) : Puts (pad count : Step (Output Bytes) StreamError Unit) (Bytes.zeros count) := by
  induction count using Nat.strong_induction_on with
  | h count ih =>
    rcases Nat.eq_zero_or_pos count with rfl | hpos
    · rw [pad, if_pos rfl]
      exact puts_pure
    · have hless : count - padChunk < count := Nat.sub_lt hpos (by decide)
      have hsplit : Bytes.zeros count = Bytes.zeros (min count padChunk) ++ Bytes.zeros (count - padChunk) := by
        rw [Bytes.zeros_append]
        congr 1
        omega
      rw [hsplit, pad_pos hpos]
      exact (puts_write _).seq (ih _ hless)

/-- The bytes of the whole chunks for which the limit leaves room. -/
def wholeChunks (output : Output Bytes) : Nat := output.remaining / padChunk * padChunk

/-- Behind a chunk there is room for one less. -/
theorem wholeChunks_put (hroom : padChunk ≤ output.remaining) :
    (output.put (Bytes.zeros padChunk)).remaining + padChunk = output.remaining ∧
      padChunk + (output.put (Bytes.zeros padChunk)).wholeChunks = output.wholeChunks := by
  have hremaining : (output.put (Bytes.zeros padChunk)).remaining + padChunk = output.remaining := by
    simp only [remaining, put, charge, Bytes.length_zeros] at hroom ⊢
    omega
  refine ⟨hremaining, ?_⟩
  rw [wholeChunks, wholeChunks, ← hremaining, Nat.add_div_right _ (by decide), Nat.succ_mul, Nat.add_comm]

/-- Padding that does not fit is refused at the first chunk for which there is no room. -/
theorem pad_over (h : ¬output.Takes count) :
    (pad count).result output =
      (.error (.limitExceeded (min (count - output.wholeChunks) padChunk) (output.remaining % padChunk)),
        output.put (Bytes.zeros output.wholeChunks)) := by
  induction count using Nat.strong_induction_on generalizing output with
  | h count ih =>
    obtain ⟨hbacked, hover⟩ := not_or.mp h
    have hpos : 0 < count := by omega
    have hless : count - padChunk < count := Nat.sub_lt hpos (by decide)
    rw [pad_pos hpos]
    rcases write_cases (Bytes.zeros (min count padChunk)) output with ⟨htakes, hfirst⟩ | ⟨hnot, hfirst⟩
    · -- a whole chunk goes out, and the rest does not fit behind it
      rw [Bytes.length_zeros] at htakes
      have hroom := htakes.resolve_left hbacked
      have hchunk : min count padChunk = padChunk := by omega
      rw [hchunk] at hroom hfirst ⊢
      obtain ⟨hremaining, hwhole⟩ := wholeChunks_put hroom
      have hrest : ¬(output.put (Bytes.zeros padChunk)).Takes (count - padChunk) := by
        rintro (hnone | hle)
        · exact hbacked (Option.map_eq_none_iff.mp hnone)
        · omega
      rw [Step.result_bind_ok hfirst, ih _ hless hrest, put_put, Bytes.zeros_append, hwhole, Nat.sub_sub, hwhole,
        ← hremaining, Nat.add_mod_right]
    · rw [Bytes.length_zeros] at hnot hfirst
      have hshort := (not_or.mp hnot).2
      have hnone : output.wholeChunks = 0 := by
        rw [wholeChunks, Nat.div_eq_of_lt (by omega), Nat.zero_mul]
      rw [Step.result_bind_error hfirst, hnone, Nat.sub_zero, Nat.mod_eq_of_lt (by omega)]
      exact congrArg (Prod.mk _) (put_nil output).symm

theorem wholeChunks_eq_zero : output.wholeChunks = 0 ↔ output.remaining < padChunk := by
  rw [wholeChunks, Nat.mul_eq_zero, Nat.div_eq_zero_iff]
  simp [padChunk]

/-- Only nothing can be written without a trace. -/
theorem put_zeros_eq_self_iff : output.put (Bytes.zeros count) = output ↔ count = 0 := by
  constructor
  · intro h
    have hwritten := congrArg Output.written h
    simp only [put, charge, Bytes.length_zeros] at hwritten
    omega
  · rintro rfl
    exact put_nil output

/-- What requests make of an output over a byte string. A write or a loan is carried out if the limit leaves room
for all of it, and refused with nothing done if not. Padding is written if there is room for all of it; if
not, it is refused as well, but the whole chunks for which there was room have been written. -/
theorem requests_refused (content : Bytes) (limit written : Nat) :
    let output : Output Bytes := ⟨some content, limit, written⟩
    (∀ bytes, (write bytes).result output =
      if output.remaining < bytes.length then
        (.error (.limitExceeded bytes.length output.remaining), output)
      else (.ok (), ⟨some (content ++ bytes), limit, written + bytes.length⟩)) ∧
    (∀ {ε α : Type} (length : Nat) (refuse : StreamError → ε) (step : Step (Output Bytes) ε α),
      (within length refuse step).result output =
        if output.remaining < length then (.error (refuse (.limitExceeded length output.remaining)), output)
        else
          let (outcome, inner) := step.result ⟨some content, length, 0⟩
          (outcome, ⟨inner.sink, limit, written + inner.written⟩)) ∧
    ∀ count,
      ((skip count).result output =
        if output.remaining < count then
          let whole := output.remaining / 32 * 32
          (.error (.limitExceeded (min (count - whole) 32) (output.remaining % 32)),
            ⟨some (content ++ Bytes.zeros whole), limit, written + whole⟩)
        else (.ok (), ⟨some (content ++ Bytes.zeros count), limit, written + count⟩)) ∧
      (((skip count).result output).2 = output ↔ count = 0 ∨ output.remaining < min count 32) := by
  intro output
  have htakes : ∀ count, output.Takes count ↔ count ≤ output.remaining := fun count => by simp [Takes, output]
  refine ⟨fun bytes => ?_, fun length refuse step => ?_, fun count => ?_⟩
  · rcases write_cases bytes output with ⟨hroom, hr⟩ | ⟨hover, hr⟩
    · rw [hr, if_neg (Nat.not_lt.mpr ((htakes _).mp hroom))]
      rfl
    · rw [hr, if_pos (Nat.not_le.mp (mt (htakes _).mpr hover))]
  · rw [within, Step.result_ofRun]
    rcases Nat.lt_or_ge output.remaining length with hlt | hle
    · rw [narrow_of_lt rfl hlt, if_pos hlt]
    · rw [narrow_of_le rfl hle, if_neg (Nat.not_lt.mpr hle)]
      rfl
  · have hpad : (skip count).result output = (pad count).result output := result_skip_backed count rfl
    rw [hpad]
    rcases Nat.lt_or_ge output.remaining count with hlt | hle
    · rw [pad_over (mt (htakes count).mp (Nat.not_le.mpr hlt)), if_pos hlt, put_zeros_eq_self_iff,
        wholeChunks_eq_zero]
      refine ⟨?_, by rw [padChunk]; omega⟩
      simp only [put, charge, Bytes.length_zeros]
      rfl
    · have hfits : output.Takes (Bytes.zeros count).length := by rwa [Bytes.length_zeros, htakes]
      rw [(puts_pad count).result hfits, if_neg (Nat.not_lt.mpr hle), put_zeros_eq_self_iff]
      refine ⟨?_, by omega⟩
      simp only [put, charge, Bytes.length_zeros]
      rfl

/-- Padding by one byte more than there is room for: it is refused, with a whole chunk written. -/
theorem padding_spills :
    let output := ofSink ([] : Bytes) 32
    output.remaining < 33 ∧
      (skip 33).result output = (.error (.limitExceeded 1 0), ⟨some (Bytes.zeros 32), 32, 32⟩) := by
  cbv

end Output

end BlockCodec
