import BlockCodec.Stream.Input
import BlockCodec.Proofs.Ends

/-!
# Sources that hold bytes

A source `Holds` a byte string when it hands out just these bytes and then ends, however few of them
come at a time. Whoever reads from such a source cannot tell in what pieces the bytes arrived:
`gather_of_holds` says the same of all of them.
-/

namespace BlockCodec

/-- Sources that hand out bytes and do not fail. -/
class Supply (σ : Type) [Source σ] where
  Holds : σ → Bytes → Prop
  read_of_holds : ∀ {source : σ} {content : Bytes} {wanted : Nat}, Holds source content →
    0 < wanted → ∃ front rest after, Source.read source wanted = (.ok front, after) ∧
      content = front ++ rest ∧ Holds after rest ∧ (front = [] → content = [])
  skip_of_holds : ∀ {source : σ} {content : Bytes} (count : Nat), Holds source content →
    ∃ after, Source.skip source count = (.ok (min count content.length), after) ∧
      Holds after (content.drop count)

/-- Discarding by reading discards what the reads would hand out. -/
theorem Source.skipByReading_of_holds {σ : Type} {read : σ → Nat → Except StreamError Bytes × σ}
    (holds : σ → Bytes → Prop)
    (hread : ∀ {source content wanted}, holds source content → 0 < wanted →
      ∃ front rest after, read source wanted = (.ok front, after) ∧ content = front ++ rest ∧
        holds after rest ∧ (front = [] → content = []))
    (hlength : ∀ {source wanted bytes after}, read source wanted = (.ok bytes, after) →
      bytes.length ≤ wanted)
    {source : σ} {content : Bytes} (count : Nat) (h : holds source content) :
    ∃ after, skipByReading read source count = (.ok (min count content.length), after) ∧
      holds after (content.drop count) := by
  induction count using Nat.strong_induction_on generalizing source content with
  | h count ih =>
    by_cases hzero : count = 0
    · subst hzero
      exact ⟨source, by rw [skipByReading]; simp, h⟩
    · have hpos : 0 < min count skipChunk := by simp [skipChunk]; omega
      obtain ⟨front, rest, after, hr, rfl, hrest, hend⟩ := hread h hpos
      cases front with
      | nil =>
        have hnil : rest = [] := by simpa using hend rfl
        subst hnil
        exact ⟨after, by rw [skipByReading, if_neg hzero]; simp [hr], by simpa using hrest⟩
      | cons byte tail =>
        have hle := hlength hr
        obtain ⟨last, hs, hlast⟩ := ih (count - (tail.length + 1)) (by omega) hrest
        refine ⟨last, ?_, ?_⟩
        · rw [skipByReading, if_neg hzero]
          simp only [hr, hs, List.length_append, List.length_cons]
          congr 2
          simp only [List.length_cons] at hle
          omega
        · have hdrop : (byte :: tail ++ rest).drop count = rest.drop (count - (tail.length + 1)) := by
            rw [List.drop_append, List.drop_eq_nil_of_le (by simp at hle ⊢; omega)]
            simp
          rwa [hdrop]

instance : Supply Bytes where
  Holds source content := source = content
  read_of_holds := by
    rintro source _ wanted rfl hpos
    refine ⟨source.take wanted, source.drop wanted, _, rfl, (source.take_append_drop wanted).symm,
      rfl, fun h => ?_⟩
    rcases List.take_eq_nil_iff.mp h with hzero | hnil
    · omega
    · exact hnil
  skip_of_holds := by
    rintro source _ count rfl
    exact ⟨_, rfl, rfl⟩

/-- A chunk that is not empty, or an interruption. -/
def Arrival.Flows : Arrival → Prop
  | .chunk bytes => bytes ≠ []
  | .fault cause => cause = .interrupted

instance : DecidablePred Arrival.Flows
  | .chunk bytes => inferInstanceAs (Decidable (bytes ≠ []))
  | .fault cause => inferInstanceAs (Decidable (cause = .interrupted))

namespace Feed

/-- Nothing but chunks that are not empty, and interruptions. -/
def Flows (feed : Feed) : Prop := ∀ arrival ∈ feed, arrival.Flows

instance (feed : Feed) : Decidable feed.Flows :=
  inferInstanceAs (Decidable (∀ arrival ∈ feed, arrival.Flows))

/-- A chunk that is not empty hands out its front; what holds of such chunks and of the arrivals behind
holds of all that is left. -/
theorem read_chunk {P : Arrival → Prop} {bytes : Bytes} {feed : Feed} {wanted : Nat} (hne : bytes ≠ [])
    (hchunk : ∀ bytes, bytes ≠ [] → P (.chunk bytes)) (hfeed : ∀ arrival ∈ feed, P arrival) (hpos : 0 < wanted) :
    ∃ front rest after, read (.chunk bytes :: feed) wanted = (.ok front, after) ∧
      content (.chunk bytes :: feed) = front ++ rest ∧
      ((∀ arrival ∈ after, P arrival) ∧ content after = rest) ∧
      (front = [] → content (.chunk bytes :: feed) = []) := by
  have hfront : bytes.take wanted ≠ [] := by
    simp only [ne_eq, List.take_eq_nil_iff, not_or]
    exact ⟨by omega, hne⟩
  refine ⟨bytes.take wanted, bytes.drop wanted ++ content feed, _, rfl, ?_, ?_,
    fun hnil => absurd hnil hfront⟩
  · rw [content, ← List.append_assoc, List.take_append_drop]
  · cases hd : bytes.drop wanted with
    | nil => exact ⟨hfeed, rfl⟩
    | cons byte left =>
      exact ⟨List.forall_mem_cons.mpr ⟨hchunk _ (List.cons_ne_nil _ _), hfeed⟩, rfl⟩

theorem readRetrying_of_flows {feed : Feed} (h : feed.Flows) {wanted : Nat} (hpos : 0 < wanted) :
    ∃ front rest after, feed.readRetrying wanted = (.ok front, after) ∧
      feed.content = front ++ rest ∧ (after.Flows ∧ after.content = rest) ∧
      (front = [] → feed.content = []) := by
  induction feed with
  | nil => exact ⟨[], [], [], rfl, rfl, ⟨h, rfl⟩, fun _ => rfl⟩
  | cons arrival feed ih =>
    obtain ⟨hfirst, hfeed⟩ := List.forall_mem_cons.mp h
    cases arrival with
    | fault fault =>
      obtain rfl : fault = .interrupted := hfirst
      exact ih hfeed
    | chunk bytes => exact read_chunk hfirst (fun _ hne => hne) hfeed hpos

end Feed

namespace Patient

def Holds (source : Patient) (content : Bytes) : Prop :=
  source.feed.Flows ∧ source.feed.content = content

theorem read_of_holds {source : Patient} {content : Bytes} {wanted : Nat}
    (h : source.Holds content) (hpos : 0 < wanted) :
    ∃ front rest after, source.pull wanted = (.ok front, after) ∧ content = front ++ rest ∧
      after.Holds rest ∧ (front = [] → content = []) := by
  obtain ⟨hflows, rfl⟩ := h
  obtain ⟨front, rest, after, hr, hsplit, hafter, hend⟩ := Feed.readRetrying_of_flows hflows hpos
  refine ⟨front, rest, ⟨after⟩, ?_, hsplit, hafter, hend⟩
  simp [pull, Feed.asSource, hr, Except.mapError]

end Patient

instance : Supply Patient where
  Holds := Patient.Holds
  read_of_holds := Patient.read_of_holds
  skip_of_holds := Source.skipByReading_of_holds Patient.Holds Patient.read_of_holds
    Patient.length_pull_le

variable {σ : Type} [Source σ] [Supply σ] {source : σ} {content : Bytes}

open Supply

theorem Input.gather_of_holds (wanted : Nat) (h : Holds source content) :
    ∃ after, gather source wanted = (⟨content.take wanted, none⟩, after) ∧
      Holds after (content.drop wanted) := by
  induction wanted using Nat.strong_induction_on generalizing source content with
  | h wanted ih =>
    by_cases hzero : wanted = 0
    · subst hzero
      exact ⟨source, by rw [gather]; simp, h⟩
    · have hpos : 0 < wanted := by omega
      obtain ⟨front, rest, after, hr, rfl, hrest, hend⟩ := read_of_holds h hpos
      have hle := Source.length_read_le hr
      cases front with
      | nil =>
        have hnil : rest = [] := by simpa using hend rfl
        subst hnil
        exact ⟨after, by rw [gather, if_neg hzero]; simp [hr], by simpa using hrest⟩
      | cons byte tail =>
        obtain ⟨last, hs, hlast⟩ := ih (wanted - (tail.length + 1)) (by simp at hle; omega) hrest
        have hshort : (byte :: tail).length ≤ wanted := hle
        refine ⟨last, ?_, ?_⟩
        · rw [gather, if_neg hzero]
          simp only [hr, hs]
          rw [List.take_append, List.take_of_length_le hshort]
          rfl
        · rw [List.drop_append, List.drop_eq_nil_of_le hshort]
          exact hlast

end BlockCodec
