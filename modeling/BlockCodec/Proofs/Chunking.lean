import BlockCodec.Proofs.Reach
import BlockCodec.Proofs.Walking

/-!
# Acceptance does not depend on how the bytes arrive

A byte string that comes in pieces, with interruptions and over an input that would allow more, is
accepted exactly when it is accepted as a whole, and decodes to the same block. A value that is cut off
by the end of the source is never taken for the end of a message.
-/

namespace BlockCodec

variable {S Ref : Type} [Handler Ref S] {schema : Schema Ref} {ref : Ref}

instance : Nonempty Patient := ⟨⟨[]⟩⟩

/-- An input over all that a source holds, which allows at least as much. -/
def Input.Covers (input : Input Patient) : Prop :=
  (input = .unbounded input.source ∧ input.source.feed.content.length ≤ maxSize) ∨
    ∃ limit, input = .ofSource input.source limit ∧ input.source.feed.content.length ≤ limit

theorem Input.Covers.at {input : Input Patient} (h : input.Covers) (hflows : input.source.feed.Flows) :
    input.At input.source.feed.content input.left 0 ∧
      input.source.feed.content.length ≤ input.left := by
  rcases h with ⟨hinput, hle⟩ | ⟨limit, hinput, hle⟩ <;>
    · rw [hinput]
      exact ⟨⟨⟨hflows, rfl⟩, rfl, rfl⟩, hle⟩

/-- Budget and chunks make no difference. -/
theorem decodeMessage_chunked (hvalid : Table.validate schema ref = .ok ())
    (hu : schema.Throughout Table.Unhandled ref) {input : Input Patient}
    (hflows : input.source.feed.Flows) (hcovers : input.Covers) (config : DecodeConfig)
    (block : Bytes) (handlers : List S) :
    let slice := (decodeMessage schema config ref : Decode Bytes S Unit).result
      ⟨.ofBytes input.source.feed.content, block, handlers⟩
    let stream := (decodeMessage schema config ref : Decode Patient S Unit).result
      ⟨input, block, handlers⟩
    (stream.1 = .ok () ↔ slice.1 = .ok ()) ∧ (slice.1 = .ok () → stream.2.block = slice.2.block) := by
  intro slice stream
  obtain ⟨hat, hle⟩ := hcovers.at hflows
  let content := input.source.feed.content
  let cut : Cut := ⟨content, [], content.length, input.left - content.length, 0, 0⟩
  have hrel : Related cut (⟨.ofBytes content, block, handlers⟩ : Decoding Bytes S)
      (⟨input, block, handlers⟩ : Decoding Patient S) := by
    refine ⟨⟨rfl, rfl, rfl⟩, ?_, rfl⟩
    show input.At (content ++ []) (content.length + (input.left - content.length)) (0 + 0)
    rw [List.append_nil, Nat.add_sub_cancel' hle]
    exact hat
  have hreach : cut.reach = cut.far := by
    simp only [cut, Cut.reach, Cut.far, List.append_nil]
    omega
  have hdrains : Decode.Drains (decodeMessage schema config ref : Decode Bytes S Unit)
      (decodeMessage schema config ref : Decode Patient S Unit) :=
    Decode.drains_decodeMessage (Schema.plain_of_validate hvalid hu)
  have hboth := hdrains.mirrors hrel
  cases hslice : slice.1 with
  | ok _ =>
    obtain ⟨last, hnext, hend⟩ := hboth.ok (Prod.ext hslice rfl)
    have hstream : stream = (.ok (), last) := hend hreach
    have hblock : slice.2.block = last.block := (Prod.mk.inj hnext.rest_eq).1
    simp [hstream, hblock]
  | error failure =>
    have hends := hboth.error (Prod.ext hslice rfl)
    cases hstream : stream.1 with
    | ok _ =>
      obtain ⟨-, hlt⟩ := hends.ok (Prod.ext hstream rfl)
      omega
    | error _ => simp

/-- A stamp in three pieces, the second of which is late. -/
theorem decodeMessage_chunked_letter :
    Table.validate letter false = .ok () ∧ letter.Throughout Table.Unhandled false ∧
    ∃ feed : Feed, feed.Flows ∧ feed.content = [0x08, 0x2c, 0x22, 0x02, 0x08, 0x05] ∧
      (Input.unbounded (⟨feed⟩ : Patient)).Covers ∧
      ((decodeMessage letter {} false : Decode Patient Empty Unit).result
        ⟨.unbounded ⟨feed⟩, Bytes.zeros 26, []⟩).1 = .ok () := by
  have hvalid : Table.validate letter false = .ok () := rfl
  let feed : Feed :=
    [.chunk [0x08], .fault .interrupted, .chunk [0x2c, 0x22, 0x02], .chunk [0x08, 0x05]]
  have hflows : feed.Flows := by decide
  have hcovers : (Input.unbounded (⟨feed⟩ : Patient)).Covers := .inl ⟨rfl, by decide⟩
  have h := decodeMessage_chunked hvalid (letter_unhandled false) hflows hcovers {} (Bytes.zeros 26)
    ([] : List Empty)
  exact ⟨hvalid, letter_unhandled false, feed, hflows, rfl, hcovers, h.1.mpr (by cbv)⟩

end BlockCodec
