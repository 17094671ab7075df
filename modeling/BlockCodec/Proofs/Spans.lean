import Mathlib
import BlockCodec.Bytes

/-!
# Blocks place by place

A block is compared with another place by place: `byte` reads a place, and a place behind the
block reads as zero. Laying content over a block changes the places it covers and no others, so
what a span holds survives every change made apart from it.
-/

namespace BlockCodec

namespace Span

instance : Membership Nat Span := ⟨fun span place => span.start ≤ place ∧ place < span.stop⟩

instance (place : Nat) (span : Span) : Decidable (place ∈ span) :=
  inferInstanceAs (Decidable (_ ∧ _))

theorem mem_iff {span : Span} {place : Nat} :
    place ∈ span ↔ span.start ≤ place ∧ place < span.stop := Iff.rfl

/-- No place is in both. -/
def Apart (a b : Span) : Prop := min a.stop b.stop ≤ max a.start b.start

instance (a b : Span) : Decidable (a.Apart b) := inferInstanceAs (Decidable (_ ≤ _))

theorem apart_iff {a b : Span} : a.Apart b ↔ ∀ place ∈ a, place ∉ b := by
  constructor
  · intro h place ha hb
    simp only [Apart, mem_iff] at h ha hb
    omega
  · intro h
    rcases Nat.lt_or_ge (max a.start b.start) (min a.stop b.stop) with hlt | hge
    · exact absurd ⟨by omega, by omega⟩ (h (max a.start b.start) ⟨by omega, by omega⟩)
    · exact hge

theorem Apart.symm {a b : Span} (h : a.Apart b) : b.Apart a := by
  simp only [Apart] at h ⊢
  omega

theorem Apart.mono {a b c : Span} (h : a.Apart b) (hc : ∀ place ∈ c, place ∈ a) : c.Apart b :=
  apart_iff.mpr fun place hp => apart_iff.mp h place (hc place hp)

end Span

namespace Bytes

/-- The byte at a place. -/
def byte (block : Bytes) (place : Nat) : UInt8 := block[place]?.getD 0

theorem byte_eq_zero_of_length_le {block : Bytes} {place : Nat} (h : block.length ≤ place) :
    block.byte place = 0 := by
  simp [byte, List.getElem?_eq_none h]

theorem byte_eq_getElem {block : Bytes} {place : Nat} (h : place < block.length) :
    block.byte place = block[place] := by
  simp [byte, h]

theorem ext_byte {a b : Bytes} (hl : a.length = b.length) (h : ∀ place, a.byte place = b.byte place) :
    a = b := by
  apply List.ext_getElem hl
  intro place ha hb
  have := h place
  rwa [byte_eq_getElem ha, byte_eq_getElem hb] at this

@[simp] theorem byte_zeros (count place : Nat) : (zeros count).byte place = 0 := by
  simp only [byte, zeros, List.getElem?_replicate]
  split <;> rfl

theorem byte_append (a b : Bytes) (place : Nat) :
    (a ++ b).byte place = if place < a.length then a.byte place else b.byte (place - a.length) := by
  simp only [byte, List.getElem?_append]
  split <;> rfl

theorem byte_take (block : Bytes) (count place : Nat) :
    byte (block.take count) place = if place < count then block.byte place else 0 := by
  simp only [byte, List.getElem?_take]
  split <;> rfl

theorem byte_drop (block : Bytes) (count place : Nat) :
    byte (block.drop count) place = block.byte (count + place) := by
  simp [byte, List.getElem?_drop]

theorem byte_overwrite {block content : Bytes} {start : Nat}
    (h : start + content.length ≤ block.length) (place : Nat) :
    (overwrite block start content).byte place =
      if start ≤ place ∧ place < start + content.length then content.byte (place - start)
      else block.byte place := by
  have hs : min start block.length = start := by omega
  simp only [overwrite, byte_append, byte_take, byte_drop, List.length_append, List.length_take, hs]
  by_cases h1 : place < start
  · simp [h1, show place < start + content.length by omega, show ¬start ≤ place by omega]
  · by_cases h2 : place < start + content.length
    · simp [h1, h2, show start ≤ place by omega]
    · rw [if_neg h2, if_neg (by omega)]
      congr 1
      omega

theorem overwrite_nil (block : Bytes) (start : Nat) : overwrite block start [] = block := by
  simp [overwrite]

theorem length_slice {block stored : Bytes} {span : Span} (h : block.slice? span = some stored) :
    stored.length = span.length := by
  unfold slice? at h
  split at h
  · next hw =>
    cases h
    simp only [Span.Within, Span.length] at hw ⊢
    simp only [List.length_take, List.length_drop]
    omega
  · cases h

theorem within_of_slice {block stored : Bytes} {span : Span} (h : block.slice? span = some stored) :
    span.Within block.length := by
  unfold slice? at h
  split at h
  · assumption
  · cases h

theorem start_add_length_slice {block stored : Bytes} {span : Span}
    (h : block.slice? span = some stored) : span.start + stored.length = span.stop := by
  have hw := within_of_slice h
  rw [length_slice h, Span.length]
  simp only [Span.Within] at hw
  omega

theorem byte_slice {block stored : Bytes} {span : Span} (h : block.slice? span = some stored)
    {place : Nat} (hp : place < stored.length) : stored.byte place = block.byte (span.start + place) := by
  rw [length_slice h] at hp
  unfold slice? at h
  split at h
  · cases h
    rw [byte_take, if_pos hp, byte_drop]
  · cases h

theorem slice_eq_some_iff {block stored : Bytes} {span : Span} :
    block.slice? span = some stored ↔ span.Within block.length ∧ stored.length = span.length ∧
      ∀ place < stored.length, stored.byte place = block.byte (span.start + place) := by
  constructor
  · intro h
    exact ⟨within_of_slice h, length_slice h, fun place hp => byte_slice h hp⟩
  · rintro ⟨hw, hl, hb⟩
    have hs : block.slice? span = some ((block.drop span.start).take span.length) := by
      rw [slice?, if_pos hw]
    rw [hs, Option.some.injEq]
    apply ext_byte ((length_slice hs).trans hl.symm)
    intro place
    rcases Nat.lt_or_ge place stored.length with hp | hp
    · rw [hb place hp, byte_slice hs (by rw [length_slice hs, ← hl]; exact hp)]
    · rw [byte_eq_zero_of_length_le hp, byte_eq_zero_of_length_le]
      rw [length_slice hs, ← hl]
      exact hp

theorem slice_isSome {block : Bytes} {span : Span} (h : span.Within block.length) :
    ∃ stored, block.slice? span = some stored :=
  ⟨_, by rw [slice?, if_pos h]⟩

theorem length_overwrite_slice {block stored content : Bytes} {span : Span}
    (h : block.slice? span = some stored) (hc : content.length = stored.length) :
    (overwrite block span.start content).length = block.length := by
  apply length_overwrite
  rw [hc, start_add_length_slice h]
  exact (within_of_slice h).2

/-- What is laid over a span is what the span holds afterwards. -/
theorem byte_overwrite_slice {block stored content : Bytes} {span : Span}
    (h : block.slice? span = some stored) (hc : content.length = stored.length) (place : Nat) :
    (overwrite block span.start content).byte place =
      if place ∈ span then content.byte (place - span.start) else block.byte place := by
  have hstop := start_add_length_slice h
  rw [byte_overwrite (by rw [hc, hstop]; exact (within_of_slice h).2), hc, hstop]
  rfl

theorem slice_overwrite_self {block stored content : Bytes} {span : Span}
    (h : block.slice? span = some stored) (hc : content.length = stored.length) :
    (overwrite block span.start content).slice? span = some content := by
  have hstop := start_add_length_slice h
  rw [slice_eq_some_iff, length_overwrite_slice h hc]
  refine ⟨within_of_slice h, hc.trans (length_slice h), fun place hp => ?_⟩
  rw [byte_overwrite_slice h hc, if_pos ⟨by omega, by omega⟩]
  congr 1
  omega

theorem overwrite_slice {block stored : Bytes} {span : Span} (h : block.slice? span = some stored) :
    overwrite block span.start stored = block := by
  apply ext_byte (length_overwrite_slice h rfl)
  intro place
  rw [byte_overwrite_slice h rfl]
  split
  · next hp =>
    have hstop := start_add_length_slice h
    simp only [Span.mem_iff] at hp
    rw [byte_slice h (by omega)]
    congr 1
    omega
  · rfl

theorem slice_zeros {count : Nat} {span : Span} (h : span.Within count) :
    (zeros count).slice? span = some (zeros span.length) := by
  rw [slice_eq_some_iff, length_zeros, length_zeros]
  exact ⟨h, rfl, by simp⟩

/-- The bytes of a span that is zero throughout. -/
theorem slice_eq_zeros {block stored : Bytes} {span : Span} (h : block.slice? span = some stored)
    (hz : ∀ place ∈ span, block.byte place = 0) : stored = zeros stored.length := by
  have hstop := start_add_length_slice h
  apply ext_byte (length_zeros _).symm
  intro place
  rw [byte_zeros]
  rcases Nat.lt_or_ge place stored.length with hp | hp
  · rw [byte_slice h hp]
    exact hz _ ⟨by omega, by omega⟩
  · exact byte_eq_zero_of_length_le hp

theorem byte_of_slice_zeros {block : Bytes} {span : Span} {count place : Nat}
    (h : block.slice? span = some (zeros count)) (hp : place ∈ span) : block.byte place = 0 := by
  have hstop := start_add_length_slice h
  rw [Span.mem_iff] at hp
  have hb : byte (zeros count) (place - span.start) = block.byte (span.start + (place - span.start)) :=
    byte_slice h (by omega)
  rwa [byte_zeros, show span.start + (place - span.start) = place by omega, eq_comm] at hb

theorem isZero_iff {bytes : Bytes} : isZero bytes = true ↔ ∀ place, bytes.byte place = 0 := by
  simp only [isZero, List.all_eq_true, beq_iff_eq]
  constructor
  · intro h place
    rcases Nat.lt_or_ge place bytes.length with hp | hp
    · rw [byte_eq_getElem hp]
      exact h _ (List.getElem_mem hp)
    · exact byte_eq_zero_of_length_le hp
  · intro h value hv
    obtain ⟨place, hp, rfl⟩ := List.mem_iff_getElem.mp hv
    rw [← byte_eq_getElem hp]
    exact h place

theorem isZero_of_slice {block stored : Bytes} {span : Span} (h : isZero block = true)
    (hs : block.slice? span = some stored) : isZero stored = true := by
  refine isZero_iff.mpr fun place => ?_
  rcases Nat.lt_or_ge place stored.length with hp | hp
  · rw [byte_slice hs hp]
    exact isZero_iff.mp h _
  · exact byte_eq_zero_of_length_le hp

theorem isZero_iff_eq_zeros {bytes : Bytes} : isZero bytes = true ↔ bytes = zeros bytes.length := by
  rw [isZero_iff]
  constructor
  · intro h
    exact ext_byte (length_zeros _).symm fun place => by rw [h, byte_zeros]
  · intro h place
    rw [h, byte_zeros]

-- ---------------------------------------------------------------------------
-- Blocks that agree
-- ---------------------------------------------------------------------------

/-- The blocks are equally long and hold the same at the given places. -/
def AgreeOn (places : Nat → Prop) (a b : Bytes) : Prop :=
  a.length = b.length ∧ ∀ place, places place → a.byte place = b.byte place

theorem AgreeOn.refl (places : Nat → Prop) (a : Bytes) : AgreeOn places a a :=
  ⟨rfl, fun _ _ => rfl⟩

theorem AgreeOn.symm {places : Nat → Prop} {a b : Bytes} (h : AgreeOn places a b) :
    AgreeOn places b a :=
  ⟨h.1.symm, fun place hp => (h.2 place hp).symm⟩

theorem AgreeOn.trans {places : Nat → Prop} {a b c : Bytes} (h : AgreeOn places a b)
    (h' : AgreeOn places b c) : AgreeOn places a c :=
  ⟨h.1.trans h'.1, fun place hp => (h.2 place hp).trans (h'.2 place hp)⟩

theorem AgreeOn.mono {places fewer : Nat → Prop} {a b : Bytes} (h : AgreeOn places a b)
    (hf : ∀ place, fewer place → places place) : AgreeOn fewer a b :=
  ⟨h.1, fun place hp => h.2 place (hf place hp)⟩

theorem AgreeOn.slice {places : Nat → Prop} {a b : Bytes} (h : AgreeOn places a b) {span : Span}
    (hs : ∀ place ∈ span, places place) : a.slice? span = b.slice? span := by
  by_cases hw : span.Within a.length
  · obtain ⟨stored, ha⟩ := slice_isSome hw
    have hstop := start_add_length_slice ha
    rw [ha, eq_comm, slice_eq_some_iff, ← h.1]
    refine ⟨hw, length_slice ha, fun place hp => ?_⟩
    rw [byte_slice ha hp]
    exact h.2 _ (hs _ ⟨by omega, by omega⟩)
  · rw [slice?, slice?, if_neg hw, if_neg (by rwa [← h.1])]

/-- A change of one span leaves alone what is not in it. -/
theorem agreeOn_overwrite {block stored content : Bytes} {span : Span}
    (h : block.slice? span = some stored) (hc : content.length = stored.length) :
    AgreeOn (· ∉ span) block (overwrite block span.start content) :=
  ⟨(length_overwrite_slice h hc).symm, fun place hp => by
    rw [byte_overwrite_slice h hc, if_neg hp]⟩

end Bytes

end BlockCodec
