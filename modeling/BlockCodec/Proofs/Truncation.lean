import BlockCodec.Proofs.Chunking
import BlockCodec.Proofs.Laps

/-!
# Messages that are cut off

The front of an accepted message is accepted only where a record ends; everywhere else decoding it
fails for want of bytes and for nothing else. A message behind its length has no such places: every
front of it is refused.
-/

namespace BlockCodec

variable {σ τ S Ref : Type} [Source σ] [Supply σ] [Nonempty σ] [Source τ] [Supply τ] [Nonempty τ]
  [Handler Ref S] {schema : Schema Ref} {ref : Ref} {config : DecodeConfig}

theorem Decode.tracks_decodeDelimited (hp : schema.Throughout Table.Plain ref) :
    Tracks CodecError.IsShort 0 (decodeDelimited schema config ref : Decode σ S Unit)
      (decodeDelimited schema config ref : Decode τ S Unit) :=
  (owes_onWire Wire.owes_readLength).pay fun length => Owes.then (tracks_onBlock _) fun _ =>
    ((drains_messageWithin hp _).whole length).within

/-- An input that can hand out less than an accepted message took refuses it for want of bytes. -/
theorem Decode.short_of_decodeDelimited (hp : schema.Throughout Table.Plain ref)
    {cut : Cut} {short : Decoding σ S} {long after : Decoding τ S} (hrel : Related cut short long)
    (hr : (decodeDelimited schema config ref).result long = (.ok (), after))
    (hlt : cut.taken + cut.ahead + cut.reach < after.input.taken) :
    (decodeDelimited schema config ref : Decode σ S Unit).Ends short (fun _ _ => False)
      fun failure _ => failure.IsShort := by
  have htracks : Tracks CodecError.IsShort 0 (decodeDelimited schema config ref : Decode σ S Unit)
    (decodeDelimited schema config ref : Decode τ S Unit) := tracks_decodeDelimited hp
  refine (htracks.follow hrel).mono ?_ fun failure _ hb => (hb.ok hr).1
  rintro _ _ ⟨last, count, hlong, -, hle, hnext⟩
  obtain ⟨-, rfl⟩ := Prod.mk.inj (hr.symm.trans hlong)
  have htaken : after.input.taken = cut.taken + count + cut.ahead := hnext.long_at.taken_eq
  omega

/-- Cutting off the end of a message makes it one that ends on a boundary, or one that lacks bytes. -/
theorem short_of_truncated (hvalid : Table.validate schema ref = .ok ())
    (hu : schema.Throughout Table.Unhandled ref) (config : DecodeConfig) (block : Bytes)
    (handlers : List S) :
    (∀ (content : Bytes) (after : Decoding Bytes S) (count : Nat), count < content.length →
      (decodeMessage schema config ref).result ⟨.ofBytes content, block, handlers⟩ = (.ok (), after) →
      Step.Ends (decodeMessage schema config ref : Decode Bytes S Unit)
        ⟨.ofBytes (content.take count), block, handlers⟩ (fun _ _ => Wire.Boundary content count)
        fun failure _ => failure.IsShort) ∧
    (∀ (content : Bytes) (after : Decoding Bytes S) (count : Nat), count < after.input.taken →
      (decodeDelimited schema config ref).result ⟨.ofBytes content, block, handlers⟩ = (.ok (), after) →
      Step.Ends (decodeDelimited schema config ref : Decode Bytes S Unit)
        ⟨.ofBytes (content.take count), block, handlers⟩ (fun _ _ => False)
        fun failure _ => failure.IsShort) ∧
    ∀ (source front : Patient) (after : Decoding Patient S) (count : Nat), source.feed.Flows →
      front.feed.Flows → front.feed.content = source.feed.content.take count →
      count < after.input.taken →
      (decodeDelimited schema config ref).result ⟨.unbounded source, block, handlers⟩ =
        (.ok (), after) →
      Step.Ends (decodeDelimited schema config ref : Decode Patient S Unit)
        ⟨.unbounded front, block, handlers⟩ (fun _ _ => False) fun failure _ => failure.IsShort := by
  have hp := Schema.plain_of_validate hvalid hu
  have hslice : ∀ (content : Bytes) (count : Nat), count ≤ content.length →
      Related ⟨content.take count, content.drop count, count, content.length - count, 0, 0⟩
        (⟨.ofBytes (content.take count), block, handlers⟩ : Decoding Bytes S)
        (⟨.ofBytes content, block, handlers⟩ : Decoding Bytes S) := by
    intro content count hle
    refine ⟨⟨rfl, List.length_take_of_le hle, rfl⟩, ?_, rfl⟩
    show (Input.ofBytes content).At (content.take count ++ content.drop count)
      (count + (content.length - count)) (0 + 0)
    rw [List.take_append_drop, Nat.add_sub_cancel' hle]
    exact ⟨rfl, rfl, rfl⟩
  refine ⟨fun content after count hlt hr => ?_, fun content after count hlt hr => ?_, ?_⟩
  · have hdrains : Decode.Drains (decodeMessage schema config ref : Decode Bytes S Unit)
      (decodeMessage schema config ref : Decode Bytes S Unit) := Decode.drains_decodeMessage hp
    have hrecords : ∀ {bytes : Bytes} {last : Decoding Bytes S},
        (decodeMessage schema config ref).result ⟨.ofBytes bytes, block, handlers⟩ = (.ok (), last) →
          ∃ records : List Bytes, (∀ bytes ∈ records, Wire.Record bytes) ∧ records.flatten = bytes := by
      intro bytes last hr
      have hmakes : Decode.Makes (decodeMessage schema config ref) bytes (block, handlers)
        (last.block, last.handlers) := ⟨last.input, hr⟩
      obtain ⟨_, -, hmerge⟩ := Decode.makes_decodeMessage_iff.mp hmakes
      exact hmerge.records hp
    have hmirrors := hdrains.mirrors (hslice content count (Nat.le_of_lt hlt))
    rcases hshort : (decodeMessage schema config ref : Decode Bytes S Unit).result
      ⟨.ofBytes (content.take count), block, handlers⟩ with ⟨outcome, last⟩
    cases outcome with
    | error failure => exact .of_error hshort ((hmirrors.error hshort).ok hr).1
    | ok _ =>
      obtain ⟨front, hfront, htake⟩ := hrecords hshort
      obtain ⟨records, hwhole, hflat⟩ := hrecords hr
      exact .of_ok hshort (Wire.boundary_of_records hfront hwhole htake hflat)
  · have htracks : Tracks CodecError.IsShort 0
        (decodeDelimited schema config ref : Decode Bytes S Unit)
        (decodeDelimited schema config ref : Decode Bytes S Unit) := Decode.tracks_decodeDelimited hp
    have hat : (Input.ofBytes content).At content content.length 0 := ⟨rfl, rfl, rfl⟩
    obtain ⟨taken, -, hle, hafter⟩ := (htracks.advances hat).ok hr
    have htaken : after.input.taken = 0 + taken := hafter.taken_eq
    refine Decode.short_of_decodeDelimited hp (hslice content count (by omega)) hr ?_
    simp only [Cut.reach, List.length_take]
    omega
  · intro source front after count hsource hfront hcontent hlt hr
    have hrel : Related ⟨front.feed.content, source.feed.content.drop count, maxSize, 0, 0, 0⟩
        (⟨.unbounded front, block, handlers⟩ : Decoding Patient S)
        (⟨.unbounded source, block, handlers⟩ : Decoding Patient S) := by
      refine ⟨⟨⟨hfront, rfl⟩, rfl, rfl⟩, ?_, rfl⟩
      show (Input.unbounded source).At (front.feed.content ++ source.feed.content.drop count)
        (maxSize + 0) (0 + 0)
      rw [hcontent, List.take_append_drop]
      exact ⟨⟨hsource, rfl⟩, rfl, rfl⟩
    refine Decode.short_of_decodeDelimited hp hrel hr ?_
    simp only [Cut.reach, hcontent, List.length_take]
    omega

theorem result_of_decodeBytes {bytes block : Bytes} {outcome : Except CodecError Unit}
    (h : (decodeBytes schema ref bytes block).1 = outcome) :
    (decodeMessage schema {} ref : Decode Bytes Empty Unit).result ⟨.ofBytes bytes, block, []⟩ =
      (outcome, ((decodeMessage schema {} ref : Decode Bytes Empty Unit).result
        ⟨.ofBytes bytes, block, []⟩).2) :=
  Prod.ext h rfl

/-- A letter with a number and a stamp, on the wire. -/
def stamped : Bytes := [0x08, 0x2c, 0x22, 0x02, 0x08, 0x05]

/-- The letter may end behind its number, but nowhere in its stamp. -/
theorem short_of_truncated_letter :
    Table.validate letter false = .ok () ∧ letter.Throughout Table.Unhandled false ∧
    (decodeBytes letter false stamped (Bytes.zeros 26)).1 = .ok () ∧ Wire.Boundary stamped 2 ∧
    (decodeBytes letter false (stamped.take 4) (Bytes.zeros 26)).1 =
      .error (.wire (.lengthMismatch 2 0)) ∧
    CodecError.IsShort (.wire (.lengthMismatch 2 0)) := by
  have hvalid : Table.validate letter false = .ok () := rfl
  have haccepts : (decodeBytes letter false stamped (Bytes.zeros 26)).1 = .ok () := by cbv
  have hnumber : (decodeBytes letter false (stamped.take 2) (Bytes.zeros 26)).1 = .ok () := by cbv
  have hstamp : (decodeBytes letter false (stamped.take 4) (Bytes.zeros 26)).1 =
      .error (.wire (.lengthMismatch 2 0)) := by cbv
  obtain ⟨h, -, -⟩ := short_of_truncated hvalid (letter_unhandled false) {} (Bytes.zeros 26)
    ([] : List Empty)
  have htwo := h stamped _ 2 (by decide) (result_of_decodeBytes haccepts)
  have hfour := h stamped _ 4 (by decide) (result_of_decodeBytes haccepts)
  exact ⟨hvalid, letter_unhandled false, haccepts, htwo.ok (result_of_decodeBytes hnumber), hstamp,
    hfour.error (result_of_decodeBytes hstamp)⟩

end BlockCodec
