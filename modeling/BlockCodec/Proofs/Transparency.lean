import BlockCodec.Message.Collect
import BlockCodec.Proofs.Alongside

/-!
# Fields that nothing wants

A decoder that may skip what its table does not have, or has with another wire type, cannot tell a message
from the same message without these fields: `decodes_wanted`. It answers alike, be it with success or with
the same failure, and it leaves the same in the block and in the handlers.
-/

namespace BlockCodec

-- ---------------------------------------------------------------------------
-- Handlers
-- ---------------------------------------------------------------------------

namespace Handler

variable {σ τ S Ref α : Type} [Source σ] [Supply σ] [Source τ] [Supply τ] {need : Bytes → Prop}

/-- Handlers that take nothing from their payloads are modest. -/
theorem modest_empty : Modest Ref σ τ Empty := fun _ _ => (still_pure ()).beside.twins

theorem beside_onPayload {a : Step (Input σ) CodecError α} {b : Step (Input τ) CodecError α}
    (h : Beside need a b) :
    Beside need (a.onPart (·.1) fun input state => (input, state.2) : Receive σ S α)
      (b.onPart (·.1) fun input state => (input, state.2) : Receive τ S α) :=
  fun _ x y habreast hmode =>
    (@h _ x.1 y.1 ⟨habreast.one_at, habreast.other_at, rfl, habreast.closed⟩ hmode).part
      (fun input => (input, x.2)) (fun input => (input, y.2)) rfl rfl (fun _ _ _ => habreast.rest_eq)
      (fun _ => rfl) fun _ => rfl

theorem still_become (state : S) :
    Still (modify fun (input, _) => (input, state) : Receive σ S Unit)
      (modify fun (input, _) => (input, state) : Receive τ S Unit) :=
  fun _ x y habreast => .inl ⟨(), (x.1, state), (y.1, state), 0, rfl, rfl, rfl, Nat.zero_le _, habreast.one_at,
    habreast.other_at, rfl, habreast.closed⟩

theorem twins_toBytes :
    Twins (Payload.toBytes : Step (Input σ) CodecError Bytes) (Payload.toBytes : Step (Input τ) CodecError Bytes) := by
  refine Twins.bind (twins_left fun x y hleft _ => ?_) fun length =>
    ((Input.beside_read length).mapFailure _).twins
  rw [Reader.input_self, Reader.input_self] at hleft
  rw [hleft]
  exact (still_pure _).beside.twins

theorem twins_toText (payload : Payload) :
    Twins (payload.toText : Step (Input σ) CodecError String) (payload.toText : Step (Input τ) CodecError String) :=
  twins_toBytes.then fun _ => still_ofExcept _

/-- A collector takes the whole payload. -/
theorem modest_collector : Modest Ref σ τ Collector := by
  intro field payload
  refine beside_get fun x y hrest => ?_
  rw [show x.2 = y.2 from hrest]
  cases y.2 with
  | scalars values => exact fails_alike _
  | bytes items => exact (beside_onPayload twins_toBytes).then fun _ => still_become _
  | texts items => exact (beside_onPayload (twins_toText payload)).then fun _ => still_become _
  | nothing => exact (still_pure ()).beside.twins

end Handler

-- ---------------------------------------------------------------------------
-- Wanted records
-- ---------------------------------------------------------------------------

/-- The table has a field with the number of the record, and it takes values of its wire type. -/
def Table.wants {Ref : Type} (table : Table Ref) (record : Bytes) : Bool :=
  match Wire.readTag.result (.ofBytes record) with
  | (.ok (some (number, type)), _) => table.fields.any fun field => field.tag == number && field.accepts type
  | _ => false

namespace Decode

variable {σ τ S Ref : Type} [Source σ] [Supply σ] [Source τ] [Supply τ] [Handler Ref S] {schema : Schema Ref}
  {config : DecodeConfig} {nested : Ref → Decode σ S Unit} {nested' : Ref → Decode τ S Unit} {depth : Nat}
  {table : Table Ref} {bytes : Bytes}

omit [Supply σ] in
/-- What the table does not want is skipped. -/
theorem record_of_unwanted (hs : config.strictUnknown = false) (hm : config.skipMismatched = true)
    (hw : table.wants bytes = false) {tag : Nat × WireType} (ht : Wire.Headed tag bytes) :
    record schema config nested depth table tag.2 tag.1 (table.entryOf? tag.1) =
      (do skipValue tag.1 tag.2; pure none) := by
  obtain ⟨payload, hr⟩ := ht
  have hno : ∀ field ∈ table.fields, field.tag = tag.1 → field.accepts tag.2 = false := by
    rw [Table.wants, Wire.result_readTag_of_nextTag (Input.at_ofBytes bytes) hr] at hw
    simpa using hw
  unfold record
  cases hfind : table.entryOf? tag.1 with
  | none => simp [hs]
  | some entry =>
    have hrefuses := hno _ (Cursor.mem_of_entryOf? hfind) (Cursor.tag_of_findWithin (Prod.ext hfind rfl))
    simp [hrefuses, hm]

/-- The runs have the same outcome and leave the same behind, their inputs apart. -/
def Alike {α : Type} (a : Decode σ S α) (b : Decode τ S α) (x : Decoding σ S) (y : Decoding τ S) : Prop :=
  (a.result x).1 = (b.result y).1 ∧ Reader.rest (a.result x).2 = Reader.rest (b.result y).2

omit [Source σ] [Supply σ] [Source τ] [Supply τ] in
theorem Alike.bind {α β : Type} {a : Decode σ S α} {b : Decode τ S α} {f : α → Decode σ S β}
    {g : α → Decode τ S β} {x : Decoding σ S} {y : Decoding τ S} (h : Alike a b x y)
    (hn : ∀ value x' y', Reader.rest x' = Reader.rest y' → Alike (f value) (g value) x' y') :
    Alike (a >>= f) (b >>= g) x y := by
  obtain ⟨houtcome, hrest⟩ := h
  rcases ha : a.result x with ⟨outcome, x'⟩
  rcases hb : b.result y with ⟨outcome', y'⟩
  rw [ha, hb] at houtcome hrest
  obtain rfl : outcome = outcome' := houtcome
  unfold Alike
  cases outcome with
  | error failure =>
    rw [Step.result_bind_error ha, Step.result_bind_error hb]
    exact ⟨rfl, hrest⟩
  | ok value =>
    rw [Step.result_bind_ok ha, Step.result_bind_ok hb]
    exact hn value x' y' hrest

variable {x : Decoding σ S} {y : Decoding τ S} {more more' : Bytes} {room room' : Nat} {cursor cursor' : Cursor}
  {records : List Bytes}

/-- Where a record is offered, a walk makes a lap. -/
theorem walk_of_offers (htags : table.fields.Pairwise (·.tag ≠ ·.tag)) (hc : cursor.Placed table)
    (hx : Offers x (bytes ++ more)) (hpos : 0 < bytes.length) {seen : List Nat} :
    (walk schema config nested depth table (room + 1) cursor seen).result x =
      (nextField schema config nested depth table >>= fun lap =>
        walk schema config nested depth table room (cursor.find table lap.1.1).2
          (lap.2.elim seen (seen.insert ·))).result x := by
  obtain ⟨left, taken, hat, hle⟩ := hx
  rw [List.length_append] at hle
  exact walk_next htags hc hat (by rw [List.length_append]; omega) room seen

/-- What is not wanted is passed by, and no lookup is the worse for it. -/
theorem walk_unwanted (htags : table.fields.Pairwise (·.tag ≠ ·.tag)) (hs : config.strictUnknown = false)
    (hm : config.skipMismatched = true) (hrecord : Wire.Record bytes) (hw : table.wants bytes = false)
    (hx : Offers x (bytes ++ more)) (hc : cursor.Placed table) (room : Nat) (seen : List Nat) :
    ∃ next last, (walk schema config nested depth table (room + 1) cursor seen).result x =
        (walk schema config nested depth table room next seen).result last ∧
      next.Placed table ∧ Offers last more ∧ Reader.rest last = Reader.rest x := by
  have hskip : ∀ tag, Wire.Headed tag bytes →
      record schema config nested depth table tag.2 tag.1 (table.entryOf? tag.1) = _ :=
    fun tag ht => record_of_unwanted hs hm hw ht
  have ⟨left, taken, hat, hle⟩ := hx
  rw [List.length_append] at hle
  obtain ⟨hpos, tag, last, hlap, hlast, hsame⟩ := nextField_of_skipped x hrecord hskip hat (by omega)
  obtain ⟨next, hfind, hplaced⟩ := Cursor.find_placed htags hc tag.1
  refine ⟨next, last, ?_, hplaced, ⟨_, _, hlast, by omega⟩, hsame⟩
  rw [walk_of_offers htags hc hx hpos, Step.result_bind_ok hlap, hfind]
  rfl

/-- The same record makes the same lap, whatever stands behind it. -/
theorem nextField_alike (h : Handler.Modest Ref σ τ S)
    (hn : ∀ field ∈ table.fields, NestsTwins nested nested' field) (hrecord : Wire.Record bytes)
    (hx : Offers x (bytes ++ more)) (hy : Offers y (bytes ++ more')) (hrest : Reader.rest x = Reader.rest y) :
    (∃ lap x' y', (nextField schema config nested depth table).result x = (.ok lap, x') ∧
      (nextField schema config nested' depth table).result y = (.ok lap, y') ∧
      Offers x' more ∧ Offers y' more' ∧ Reader.rest x' = Reader.rest y') ∨
    ∃ failure x' y', (nextField schema config nested depth table).result x = (.error failure, x') ∧
      (nextField schema config nested' depth table).result y = (.error failure, y') ∧
      Reader.rest x' = Reader.rest y' := by
  obtain ⟨left, taken, hx, hle⟩ := hx
  obtain ⟨left', taken', hy, hle'⟩ := hy
  rw [List.length_append] at hle hle'
  have hxat : x.input.At (bytes ++ more) (bytes.length + (left - bytes.length)) taken := by
    rwa [Nat.add_sub_cancel' (by omega)]
  have hyat : y.input.At (bytes ++ more') (bytes.length + (left' - bytes.length)) taken' := by
    rwa [Nat.add_sub_cancel' (by omega)]
  let pair : Pair := ⟨False, bytes, more, more', left - bytes.length, left' - bytes.length, taken, taken'⟩
  have habreast : Abreast pair x y := ⟨hxat, hyat, hrest, False.elim⟩
  rcases beside_nextField h hn habreast (.inr hrecord) with
    ⟨lap, x', y', count, ha, hb, hcount, -, hnext⟩ | ⟨failure, x', y', ha, hb, hfailed⟩
  · obtain rfl : count = bytes.length := hcount.resolve_left id
    have hx' := hnext.one_at
    have hy' := hnext.other_at
    simp only [pair, Pair.drop, List.drop_length, List.nil_append, List.length_nil, Nat.zero_add] at hx' hy'
    exact .inl ⟨lap, x', y', ha, hb, ⟨_, _, hx', by omega⟩, ⟨_, _, hy', by omega⟩, hnext.rest_eq⟩
  · exact .inr ⟨failure, x', y', ha, hb, hfailed⟩

/-- Two walks, one over all records and one over those that are wanted. -/
theorem walk_alike (htags : table.fields.Pairwise (·.tag ≠ ·.tag)) (h : Handler.Modest Ref σ τ S)
    (hn : ∀ field ∈ table.fields, NestsTwins nested nested' field) (hs : config.strictUnknown = false)
    (hm : config.skipMismatched = true) (hr : ∀ bytes ∈ records, Wire.Record bytes)
    (hx : Offers x records.flatten) (hy : Offers y (records.filter table.wants).flatten)
    (hrest : Reader.rest x = Reader.rest y) (hc : cursor.Placed table) (hc' : cursor'.Placed table)
    (hroom : records.flatten.length ≤ room) (hroom' : (records.filter table.wants).flatten.length ≤ room')
    (seen : List Nat) :
    Alike (walk schema config nested depth table room cursor seen)
      (walk schema config nested' depth table room' cursor' seen) x y := by
  induction records generalizing x y room room' cursor cursor' seen with
  | nil =>
    obtain ⟨left, taken, hx, -⟩ := hx
    obtain ⟨left', taken', hy, -⟩ := hy
    obtain ⟨input, hx, -⟩ := walk_end schema config nested depth table hx (Nat.min_zero _) room cursor seen
    obtain ⟨input', hy, -⟩ := walk_end schema config nested' depth table hy (Nat.min_zero _) room' cursor' seen
    unfold Alike
    rw [hx, hy]
    exact ⟨rfl, hrest⟩
  | cons bytes records ih =>
    obtain ⟨hrecord, hrecords⟩ := List.forall_mem_cons.mp hr
    have hpos : 0 < bytes.length := List.length_pos_iff.mpr hrecord.ne_nil
    rw [List.flatten_cons] at hx hroom
    rw [List.length_append] at hroom
    obtain ⟨room, rfl⟩ : ∃ n, room = n + 1 := ⟨room - 1, by omega⟩
    unfold Alike
    cases hw : table.wants bytes with
    | false =>
      rw [List.filter_cons_of_neg (by simp [hw])] at hy hroom'
      obtain ⟨next, last, hwalk, hplaced, hlast, hsame⟩ :=
        walk_unwanted htags hs hm hrecord hw hx hc room seen
      rw [hwalk]
      exact ih hrecords hlast hy (hsame.trans hrest) hplaced hc' (by omega) hroom' seen
    | true =>
      rw [List.filter_cons_of_pos hw, List.flatten_cons] at hy hroom'
      rw [List.length_append] at hroom'
      obtain ⟨room', rfl⟩ : ∃ n, room' = n + 1 := ⟨room' - 1, by omega⟩
      rw [walk_of_offers htags hc hx hpos, walk_of_offers htags hc' hy hpos]
      rcases nextField_alike h hn hrecord hx hy hrest with
        ⟨lap, x', y', ha, hb, hx', hy', hrest'⟩ | ⟨failure, x', y', ha, hb, hrest'⟩
      · obtain ⟨next, hfind, hplaced⟩ := Cursor.find_placed htags hc lap.1.1
        obtain ⟨next', hfind', hplaced'⟩ := Cursor.find_placed htags hc' lap.1.1
        rw [Step.result_bind_ok ha, Step.result_bind_ok hb, hfind, hfind']
        exact ih hrecords hx' hy' hrest' hplaced hplaced' (by omega) (by omega) _
      · rw [Step.result_bind_error ha, Step.result_bind_error hb]
        exact ⟨rfl, hrest'⟩

theorem message_alike {ref : Ref} (htags : (schema ref).fields.Pairwise (·.tag ≠ ·.tag))
    (h : Handler.Modest Ref σ τ S) (hs : config.strictUnknown = false) (hm : config.skipMismatched = true)
    (hr : ∀ bytes ∈ records, Wire.Record bytes) (hx : Offers x records.flatten)
    (hy : Offers y (records.filter (schema ref).wants).flatten) (hrest : Reader.rest x = Reader.rest y)
    (levels : Nat) :
    Alike (messageWithin schema config levels ref) (messageWithin schema config levels ref) x y := by
  have hblock : x.block = y.block := (Prod.mk.inj hrest).1
  cases levels with
  | zero => exact ⟨rfl, hrest⟩
  | succ levels =>
    cases hcheck : (schema ref).checkBlock x.block with
    | error failure =>
      unfold Alike
      rw [messageWithin_of_error hcheck, messageWithin_of_error (hblock ▸ hcheck)]
      exact ⟨rfl, hrest⟩
    | ok _ =>
      have hn : ∀ field ∈ (schema ref).fields,
          NestsTwins (messageWithin schema config levels : Ref → Decode σ S Unit)
            (messageWithin schema config levels : Ref → Decode τ S Unit) field :=
        fun field _ inner _ => twins_messageWithin h levels inner
      unfold Alike
      rw [messageWithin_of_ok hcheck, messageWithin_of_ok (hblock ▸ hcheck), fields_eq_walk, fields_eq_walk]
      refine Alike.bind (walk_alike htags h hn hs hm hr hx hy hrest Cursor.placed_start
        Cursor.placed_start hx.length_le hy.length_le []) fun seen x' y' hrest => ?_
      unfold checkRequired
      split <;> exact ⟨rfl, hrest⟩

end Decode

section

variable {σ τ S Ref : Type} [Source σ] [Supply σ] [Source τ] [Supply τ] [Handler Ref S]

/-- Records that the table does not want make no difference: not to the outcome, nor to what a failure
says, nor to the block and the handlers. -/
theorem decodes_wanted (schema : Schema Ref) (ref : Ref) (config : DecodeConfig) (records : List Bytes)
    (input : Input σ) (other : Input τ) (left left' taken taken' : Nat) (block : Bytes) (handlers : List S)
    (hv : Table.validate schema ref = .ok ()) (hs : config.strictUnknown = false)
    (hm : config.skipMismatched = true) (h : Handler.Modest Ref σ τ S)
    (hr : ∀ record ∈ records, Wire.Record record) (hx : input.At records.flatten left taken)
    (hle : records.flatten.length ≤ left)
    (hy : other.At (records.filter (schema ref).wants).flatten left' taken')
    (hle' : (records.filter (schema ref).wants).flatten.length ≤ left') :
    let all := (decodeMessage schema config ref).result ⟨input, block, handlers⟩
    let wanted := (decodeMessage schema config ref).result ⟨other, block, handlers⟩
    all.1 = wanted.1 ∧ all.2.block = wanted.2.block ∧ all.2.handlers = wanted.2.handlers := by
  have htags := (Schema.fits_of_validate hv ref (.refl ref)).tags_ne
  rcases hinit : (schema.initialise ref).result block with ⟨outcome, initial⟩
  have hall : (Decode.onBlock (schema.initialise ref) : Decode σ S Unit).result ⟨input, block, handlers⟩ =
      (outcome, ⟨input, initial, handlers⟩) := by
    rw [Decode.onBlock, Step.result_onPart, hinit]
  have hwanted : (Decode.onBlock (schema.initialise ref) : Decode τ S Unit).result ⟨other, block, handlers⟩ =
      (outcome, ⟨other, initial, handlers⟩) := by
    rw [Decode.onBlock, Step.result_onPart, hinit]
  cases outcome with
  | error failure =>
    simp only [decodeMessage, Step.result_bind_error hall, Step.result_bind_error hwanted, and_self]
  | ok _ =>
    simp only [decodeMessage, Step.result_bind_ok hall, Step.result_bind_ok hwanted]
    obtain ⟨houtcome, hrest⟩ := Decode.message_alike (x := ⟨input, initial, handlers⟩)
      (y := ⟨other, initial, handlers⟩) htags h hs hm hr ⟨left, taken, hx, hle⟩ ⟨left', taken', hy, hle'⟩ rfl
      (config.maxDepth + 1)
    exact ⟨houtcome, (Prod.mk.inj hrest).1, (Prod.mk.inj hrest).2⟩

/-- A number, and remarks that go to a handler. -/
def memo : Schema Unit :=
  fun _ => ⟨"Memo", [.ofStorage 1 "number" (.varint ⟨.w32, false⟩) 0 4,
    (Field.ofStorage 2 "remark" .bytes 4 2).handled], 6⟩

/-- A field that the table does not have, its number as a fixed one, a remark, and the number. -/
def posted : List Bytes := [[0x48, 0x05], [0x0d, 1, 2, 3, 4], [0x12, 0x01, 0x61], [0x08, 0x07]]

theorem decodes_wanted_memo :
    Table.validate memo () = .ok () ∧ (∀ record ∈ posted, Wire.Record record) ∧
    posted.filter (memo ()).wants = [[0x12, 0x01, 0x61], [0x08, 0x07]] ∧
    let after := (decodeMessage memo { skipMismatched := true } ()).result
      ⟨.ofBytes posted.flatten, [0, 0, 0, 0, 1, 0], [Collector.bytes []]⟩
    after.1 = .ok () ∧ after.2.block = [7, 0, 0, 0, 1, 0] ∧ after.2.handlers = [.bytes [[0x61]]] := by
  have hv : Table.validate memo () = .ok () := by cbv
  have hwanted : posted.filter (memo ()).wants = [[0x12, 0x01, 0x61], [0x08, 0x07]] := by cbv
  have hrecords : ∀ record ∈ posted, Wire.Record record := by
    simp only [posted, List.forall_mem_cons]
    exact ⟨⟨9, .varint, ⟨[5], 1, 1, true⟩, ⟨[], 0, 2, true⟩, by cbv, by cbv, rfl⟩,
      ⟨1, .fixed32, ⟨[1, 2, 3, 4], 4, 1, true⟩, ⟨[], 0, 5, true⟩, by cbv, by cbv, rfl⟩,
      ⟨2, .delimited, ⟨[1, 0x61], 2, 1, true⟩, ⟨[], 0, 3, true⟩, by cbv, by cbv, rfl⟩,
      ⟨1, .varint, ⟨[7], 1, 1, true⟩, ⟨[], 0, 2, true⟩, by cbv, by cbv, rfl⟩, List.forall_mem_nil _⟩
  have h := decodes_wanted memo () { skipMismatched := true } posted (.ofBytes posted.flatten)
    (.ofBytes [0x12, 0x01, 0x61, 0x08, 0x07]) 12 5 0 0 [0, 0, 0, 0, 1, 0] [Collector.bytes []] hv rfl rfl
    Handler.modest_collector hrecords ⟨rfl, rfl, rfl⟩ (by decide) ⟨by rw [hwanted]; rfl, rfl, rfl⟩
    (by rw [hwanted]; decide)
  have hresult : (decodeMessage memo { skipMismatched := true } () : Decode Bytes Collector Unit).result
      ⟨.ofBytes [0x12, 0x01, 0x61, 0x08, 0x07], [0, 0, 0, 0, 1, 0], [.bytes []]⟩ =
        (.ok (), ⟨⟨[], 0, 5, true⟩, [7, 0, 0, 0, 1, 0], [.bytes [[0x61]]]⟩) := by cbv
  simp only [hresult] at h
  exact ⟨hv, hrecords, hwanted, h⟩

end

end BlockCodec
