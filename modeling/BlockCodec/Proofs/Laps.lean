import BlockCodec.Proofs.Records

/-!
# Messages, record by record

A message is decoded one record at a time, each from the block that the one before it left. So what a
message does is told by its records: `Decode.makes_iff_laps`. Where the message begins in the input,
where the lookups stand and what was read before are not part of it, and two messages one behind the
other are one message: `Decode.Makes.append`.
-/

namespace BlockCodec.Decode

variable {σ S Ref : Type}

/-- Over these bytes alone the step succeeds, and it makes the second block and handlers of the first. -/
def Makes (step : Decode Bytes S Unit) (content : Bytes) (before after : Bytes × List S) : Prop :=
  ∃ input, step.result ⟨.ofBytes content, before.1, before.2⟩ = (.ok (), ⟨input, after.1, after.2⟩)

-- ---------------------------------------------------------------------------
-- Required fields
-- ---------------------------------------------------------------------------

theorem missing?_of_knows {table : Table Ref} {known seen : List Nat} (h : Knows known [] seen) :
    missing? table seen = missing? table known := by
  have hcontains : ∀ number, seen.contains number = known.contains number := fun number => by
    simpa using h number
  simp only [missing?, hcontains]

/-- Seeing more leaves nothing missing. -/
theorem missing?_mono {table : Table Ref} {seen more : List Nat} (h : ∀ number ∈ seen, number ∈ more)
    (hm : missing? table seen = none) : missing? table more = none := by
  simp only [missing?, Option.map_eq_none_iff, List.find?_eq_none] at hm ⊢
  intro entry he
  cases ht : tracked? entry with
  | none => simp
  | some number =>
    have hseen : number ∈ seen := by simpa [ht] using hm entry he
    simpa using h number hseen

-- ---------------------------------------------------------------------------
-- Laps
-- ---------------------------------------------------------------------------

section

variable [Handler Ref S] (schema : Schema Ref) (config : DecodeConfig)
  (nested : Ref → Decode Bytes S Unit) (depth : Nat) (table : Table Ref)

/-- One record, and the number of the required field that it is. -/
def Lap (bytes : Bytes) (mark : Option Nat) (before after : Bytes × List S) : Prop :=
  ∃ tag input, (nextField schema config nested depth table).result
    ⟨.ofBytes bytes, before.1, before.2⟩ = (.ok (tag, mark), ⟨input, after.1, after.2⟩) ∧ input.left = 0

/-- Records one after the other, and the numbers of the required fields among them. -/
inductive Laps : List Bytes → List Nat → Bytes × List S → Bytes × List S → Prop
  | nil (rest : Bytes × List S) : Laps [] [] rest rest
  | cons {bytes : Bytes} {records : List Bytes} {mark : Option Nat} {marks : List Nat}
    {before middle after : Bytes × List S} : Lap schema config nested depth table bytes mark before middle →
      Laps records marks middle after → Laps (bytes :: records) (mark.toList ++ marks) before after

variable {schema config nested depth table} {front back records : List Bytes} {marks : List Nat}
  {before middle after : Bytes × List S}

/-- A lap is made of what stands behind the header. -/
theorem lap_iff_record {bytes : Bytes} {tag : Nat × WireType} {behind : Input Bytes}
    (htag : Wire.nextTag.result (.ofBytes bytes) = (.ok tag, behind)) {mark : Option Nat} :
    Lap schema config nested depth table bytes mark before after ↔ ∃ input, input.left = 0 ∧
      (record schema config nested depth table tag.2 tag.1 (table.entryOf? tag.1)).result
        ⟨behind, before.1, before.2⟩ = (.ok mark, ⟨input, after.1, after.2⟩) := by
  have hrun : (nextField schema config nested depth table).result ⟨.ofBytes bytes, before.1, before.2⟩ =
      (do let mark ← record schema config nested depth table tag.2 tag.1 (table.entryOf? tag.1)
          pure (tag, mark) : Decode Bytes S _).result ⟨behind, before.1, before.2⟩ :=
    Step.result_bind_ok (result_onWire htag)
  unfold Lap
  rw [hrun]
  constructor
  · rintro ⟨_, input, hr, hleft⟩
    obtain ⟨_, last, hr, hpure⟩ := Step.result_bind_eq_ok.mp hr
    cases hpure
    exact ⟨input, hleft, hr⟩
  · rintro ⟨input, hleft, hr⟩
    exact ⟨tag, input, Step.result_bind_eq_ok.mpr ⟨mark, _, hr, rfl⟩, hleft⟩

theorem Laps.append {more : List Nat} (h : Laps schema config nested depth table front marks before middle)
    (h' : Laps schema config nested depth table back more middle after) :
    Laps schema config nested depth table (front ++ back) (marks ++ more) before after := by
  induction h with
  | nil => exact h'
  | cons hlap _ ih =>
    rw [List.append_assoc]
    exact .cons hlap (ih h')

theorem Laps.split (h : Laps schema config nested depth table (front ++ back) marks before after) :
    ∃ first more middle, marks = first ++ more ∧ Laps schema config nested depth table front first before middle ∧
      Laps schema config nested depth table back more middle after := by
  induction front generalizing marks before with
  | nil => exact ⟨[], marks, before, rfl, .nil before, h⟩
  | cons bytes front ih =>
    cases h with
    | cons hlap hrest =>
      obtain ⟨first, more, middle, rfl, hfront, hback⟩ := ih hrest
      exact ⟨_, more, middle, (List.append_assoc _ _ _).symm, .cons hlap hfront, hback⟩

/-- The bytes of a lap are a record. -/
theorem Lap.record (hp : table.Plain) (hn : ∀ field ∈ table.fields, NestsAlike nested nested field)
    {bytes : Bytes} {mark : Option Nat} (h : Lap schema config nested depth table bytes mark before after) :
    Wire.Record bytes := by
  obtain ⟨tag, input, hr, hleft⟩ := h
  obtain ⟨count, -, hle, hrecord, hafter⟩ := record_of_nextField hp hn (Input.at_ofBytes bytes) hr
  have hrest : input.left = bytes.length - count := hafter.left_eq
  rwa [List.take_of_length_le (by omega)] at hrecord

theorem Laps.record (hp : table.Plain) (hn : ∀ field ∈ table.fields, NestsAlike nested nested field)
    (h : Laps schema config nested depth table records marks before after) :
    ∀ bytes ∈ records, Wire.Record bytes := by
  induction h with
  | nil => simp
  | cons hlap _ ih => exact List.forall_mem_cons.mpr ⟨hlap.record hp hn, ih⟩

-- ---------------------------------------------------------------------------
-- Walks
-- ---------------------------------------------------------------------------

variable [Source σ] [Supply σ] {nested' : Ref → Decode σ S Unit} {room : Nat} {cursor : Cursor}
  {seen found : List Nat} {state last : Decoding σ S} {content : Bytes} {left taken : Nat}

/-- The input hands out these bytes and no more, and all of them may be taken. -/
def Offers (state : Decoding σ S) (content : Bytes) : Prop :=
  ∃ left taken, state.input.At content left taken ∧ content.length ≤ left

omit [Handler Ref S] in
theorem Offers.length_le (h : Offers state content) : content.length ≤ state.input.left := by
  obtain ⟨left, taken, hat, hle⟩ := h
  exact hat.left_eq ▸ hle

/-- The bytes that a field took make a lap of their own. -/
theorem lap_of_nextField (hp : table.Plain)
    (hn : ∀ field ∈ table.fields, NestsAlike nested nested' field)
    (hn' : ∀ field ∈ table.fields, NestsAlike nested' nested' field)
    (hat : state.input.At content left taken) {tag : Nat × WireType} {mark : Option Nat}
    (hr : (nextField schema config nested' depth table).result state = (.ok (tag, mark), last)) :
    ∃ count, 0 < count ∧ count ≤ min left content.length ∧
      Lap schema config nested depth table (content.take count) mark (Reader.rest state) (Reader.rest last) ∧
      last.input.At (content.drop count) (left - count) (taken + count) := by
  have : Nonempty σ := ⟨state.input.source⟩
  obtain ⟨count, hpos, hle, -, hlast⟩ := record_of_nextField hp hn' hat hr
  have hlen : (content.take count).length = count := List.length_take_of_le (by omega)
  have htracks : Tracks CodecError.IsShort 1 (nextField schema config nested depth table)
    (nextField schema config nested' depth table) := tracks_nextField hp hn
  let short : Decoding Bytes S := ⟨.ofBytes (content.take count), state.block, state.handlers⟩
  have hshort : (Reader.input short).At (content.take count) count 0 := ⟨rfl, hlen, rfl⟩
  obtain ⟨after, hafter, hleft, hrest⟩ := htracks.alone hat hle hshort rfl hr hlast.taken_eq
  refine ⟨count, hpos, hle, ⟨tag, after.input, ?_, hleft⟩, hlast⟩
  rw [← hrest]
  exact hafter

/-- A walk makes laps of all it takes. -/
theorem laps_of_walk (hp : table.Plain) (hn : ∀ field ∈ table.fields, NestsAlike nested nested' field)
    (hn' : ∀ field ∈ table.fields, NestsAlike nested' nested' field)
    (hc : cursor.Placed table) (hat : state.input.At content left taken)
    (hroom : min left content.length ≤ room)
    (hr : (walk schema config nested' depth table room cursor seen).result state = (.ok found, last)) :
    ∃ records marks, Laps schema config nested depth table records marks (Reader.rest state) (Reader.rest last) ∧
      records.flatten = content.take (min left content.length) ∧ Knows marks seen found := by
  induction room generalizing state content left taken cursor seen with
  | zero =>
    cases hr
    exact ⟨[], [], .nil _, by simp [Nat.le_zero.mp hroom], fun number => by simp⟩
  | succ room ih =>
    by_cases hzero : min left content.length = 0
    · obtain ⟨after, hend, -⟩ := walk_end schema config nested' depth table hat hzero (room + 1) cursor seen
      obtain ⟨hfound, rfl⟩ := Prod.mk.inj (hend.symm.trans hr)
      cases hfound
      exact ⟨[], [], .nil _, by simp [hzero], fun number => by simp⟩
    · rw [walk_next hp.tags_ne hc hat (Nat.pos_of_ne_zero hzero)] at hr
      obtain ⟨⟨tag, mark⟩, middle, hlap, hr⟩ := Step.result_bind_eq_ok.mp hr
      obtain ⟨count, hone, hle, hlap, hmiddle⟩ := lap_of_nextField hp hn hn' hat hlap
      obtain ⟨next, hfind, hplaced⟩ := Cursor.find_placed hp.tags_ne hc tag.1
      rw [hfind] at hr
      have hless : min (left - count) (content.drop count).length = min left content.length - count := by
        rw [List.length_drop]
        omega
      obtain ⟨records, marks, hlaps, hflat, hknows⟩ := ih hplaced hmiddle (by omega) hr
      refine ⟨content.take count :: records, mark.toList ++ marks, .cons hlap hlaps, ?_, fun number => ?_⟩
      · rw [List.flatten_cons, hflat, hless, ← List.take_add]
        congr 1
        omega
      · rw [hknows number]
        cases mark <;> simp [or_assoc, or_left_comm]

/-- The record makes its laps wherever it is offered. -/
def Portable (schema : Schema Ref) (config : DecodeConfig) (nested : Ref → Decode Bytes S Unit) (depth : Nat)
    (table : Table Ref) (bytes : Bytes) : Prop :=
  ∀ (mark : Option Nat) (state : Decoding Bytes S) (more : Bytes) (after : Bytes × List S),
    Lap schema config nested depth table bytes mark (Reader.rest state) after → Offers state (bytes ++ more) →
      0 < bytes.length ∧ ∃ tag last, (nextField schema config nested depth table).result state =
        (.ok (tag, mark), last) ∧ Offers last more ∧ Reader.rest last = after

theorem portable_of_plain (hp : table.Plain) (hn : ∀ field ∈ table.fields, NestsAlike nested nested field)
    (bytes : Bytes) : Portable schema config nested depth table bytes := by
  rintro mark state more after ⟨tag, input, hr, hleft⟩ ⟨left, taken, hat, hle⟩
  rw [List.length_append] at hle
  have htracks : Tracks CodecError.IsShort 1 (nextField schema config nested depth table)
    (nextField schema config nested depth table) := tracks_nextField hp hn
  let short : Decoding Bytes S := ⟨.ofBytes bytes, state.block, state.handlers⟩
  have hshort : (Reader.input short).At bytes bytes.length 0 := ⟨rfl, rfl, rfl⟩
  obtain ⟨hone, last, hlast, hmore, hrest⟩ := htracks.behind hshort hat (by omega) rfl hr hleft
  exact ⟨hone, tag, last, hlast, ⟨_, _, hmore, by omega⟩, hrest⟩

/-- Laps are walked wherever their records are offered. -/
theorem Laps.walk {state : Decoding Bytes S} (htags : table.fields.Pairwise (·.tag ≠ ·.tag))
    (hport : ∀ bytes ∈ records, Portable schema config nested depth table bytes)
    (h : Laps schema config nested depth table records marks (Reader.rest state) after)
    (hc : cursor.Placed table) (hx : Offers state records.flatten) (hroom : records.flatten.length ≤ room)
    (seen : List Nat) :
    ∃ found last, (Decode.walk schema config nested depth table room cursor seen).result state =
      (.ok found, last) ∧ Reader.rest last = after ∧ Knows marks seen found := by
  generalize hbefore : Reader.rest state = before at h
  induction h generalizing state cursor seen room with
  | nil rest =>
    obtain ⟨left, taken, hat, -⟩ := hx
    obtain ⟨input, hr, -⟩ := walk_end schema config nested depth table hat (Nat.min_zero _) room cursor seen
    exact ⟨seen, _, hr, hbefore, fun number => by simp⟩
  | @cons bytes records mark marks before middle after hlap hrest ih =>
    subst hbefore
    obtain ⟨hfirst, hothers⟩ := List.forall_mem_cons.mp hport
    rw [List.flatten_cons] at hx hroom
    rw [List.length_append] at hroom
    obtain ⟨hpos, tag, next, hr, hnext, hmiddle⟩ := hfirst mark state _ middle hlap hx
    obtain ⟨room, rfl⟩ : ∃ n, room = n + 1 := ⟨room - 1, by omega⟩
    obtain ⟨cursor', hfind, hplaced⟩ := Cursor.find_placed htags hc tag.1
    have hlast : ∃ found last, (Decode.walk schema config nested depth table room cursor'
        (mark.elim seen (seen.insert ·))).result next = (.ok found, last) ∧ Reader.rest last = after ∧
          Knows marks (mark.elim seen (seen.insert ·)) found :=
      ih hothers hplaced hnext (by omega) _ hmiddle
    obtain ⟨found, last, hwalk, hafter, hknows⟩ := hlast
    obtain ⟨left, taken, hat, hle⟩ := hx
    rw [List.length_append] at hle
    have hmin : 0 < min left (bytes ++ records.flatten).length := by
      rw [List.length_append]
      omega
    refine ⟨found, last, ?_, hafter, fun number => ?_⟩
    · rw [walk_next htags hc hat hmin, Step.result_bind_ok hr, hfind]
      exact hwalk
    · rw [hknows number]
      cases mark <;> simp [or_assoc, or_left_comm]

end

-- ---------------------------------------------------------------------------
-- Messages
-- ---------------------------------------------------------------------------

section

variable [Handler Ref S] {schema : Schema Ref} {config : DecodeConfig} {levels : Nat} {ref : Ref}
  {content more : Bytes} {before middle after : Bytes × List S}

theorem not_makes_zero : ¬Makes (messageWithin schema config 0 ref) content before after := by
  rintro ⟨input, hr⟩
  cases hr

/-- Records that make their laps, and that miss no required field, make a message. -/
theorem makes_of_laps (htags : (schema ref).fields.Pairwise (·.tag ≠ ·.tag)) {records : List Bytes}
    {marks : List Nat} (hport : ∀ bytes ∈ records, Portable schema config
      (messageWithin schema config levels : Ref → Decode Bytes S Unit) (config.maxDepth - levels) (schema ref) bytes)
    (hcheck : (schema ref).checkBlock before.1 = .ok ())
    (h : Laps schema config (messageWithin schema config levels) (config.maxDepth - levels) (schema ref)
      records marks before after) (hmissing : missing? (schema ref) marks = none) :
    Makes (messageWithin schema config (levels + 1) ref) records.flatten before after := by
  let state : Decoding Bytes S := ⟨.ofBytes records.flatten, before.1, before.2⟩
  have hx : Offers state records.flatten := ⟨records.flatten.length, 0, ⟨rfl, rfl, rfl⟩, Nat.le_refl _⟩
  have hlaps : Laps schema config (messageWithin schema config levels) (config.maxDepth - levels) (schema ref)
      records marks (Reader.rest state) after := h
  obtain ⟨found, last, hwalk, hafter, hknows⟩ :=
    hlaps.walk htags hport Cursor.placed_start hx (Nat.le_refl _) []
  refine ⟨last.input, ?_⟩
  rw [messageWithin_of_ok hcheck, fields_eq_walk]
  refine (Step.result_bind_ok hwalk).trans ?_
  rw [checkRequired, missing?_of_knows hknows, hmissing, ← hafter]
  rfl

/-- A message is decoded record by record, and its required fields are among them. -/
theorem makes_iff_laps (hp : schema.Throughout Table.Plain ref) :
    Makes (messageWithin schema config (levels + 1) ref) content before after ↔
      (schema ref).checkBlock before.1 = .ok () ∧ ∃ records marks,
        Laps schema config (messageWithin schema config levels) (config.maxDepth - levels) (schema ref)
          records marks before after ∧
        records.flatten = content ∧ missing? (schema ref) marks = none := by
  have hn : ∀ field ∈ (schema ref).fields,
      NestsAlike (messageWithin schema config levels : Ref → Decode Bytes S Unit)
        (messageWithin schema config levels : Ref → Decode Bytes S Unit) field :=
    fun field hf inner hk =>
      drains_messageWithin (hp.nested (Table.mem_nested hf (hp.here.unhandled field hf) hk)) levels
  let state : Decoding Bytes S := ⟨.ofBytes content, before.1, before.2⟩
  have hat : state.input.At content content.length 0 := ⟨rfl, rfl, rfl⟩
  have hroom : min content.length content.length ≤ content.length := Nat.min_le_left _ _
  constructor
  · rintro ⟨input, hr⟩
    cases hcheck : (schema ref).checkBlock before.1 with
    | error failure => cases (messageWithin_of_error hcheck).symm.trans hr
    | ok _ =>
      rw [messageWithin_of_ok hcheck, fields_eq_walk] at hr
      obtain ⟨found, last, hwalk, hrequired⟩ := Step.result_bind_eq_ok.mp hr
      obtain ⟨records, marks, hlaps, hflat, hknows⟩ :=
        laps_of_walk hp.here hn hn Cursor.placed_start hat hroom hwalk
      refine ⟨rfl, records, marks, ?_, by rw [hflat, Nat.min_self, List.take_length], ?_⟩
      · unfold checkRequired at hrequired
        split at hrequired <;> cases hrequired
        exact hlaps
      · rw [← missing?_of_knows hknows]
        unfold checkRequired at hrequired
        split at hrequired
        · assumption
        · cases hrequired
  · rintro ⟨hcheck, records, marks, hlaps, rfl, hmissing⟩
    exact makes_of_laps hp.here.tags_ne (fun bytes _ => portable_of_plain hp.here hn bytes) hcheck hlaps hmissing

/-- A message that is accepted is a sequence of records. -/
theorem Makes.records (hp : schema.Throughout Table.Plain ref)
    (h : Makes (messageWithin schema config levels ref) content before after) :
    ∃ records : List Bytes, (∀ bytes ∈ records, Wire.Record bytes) ∧ records.flatten = content := by
  cases levels with
  | zero => exact (not_makes_zero h).elim
  | succ levels =>
    obtain ⟨-, records, marks, hlaps, hflat, -⟩ := (makes_iff_laps hp).mp h
    refine ⟨records, hlaps.record hp.here fun field hf inner hk => ?_, hflat⟩
    exact drains_messageWithin (hp.nested (Table.mem_nested hf (hp.here.unhandled field hf) hk)) levels

/-- Two messages one behind the other do what they do one after the other. -/
theorem Makes.append (hp : schema.Throughout Table.Plain ref)
    (h : Makes (messageWithin schema config levels ref) content before middle)
    (h' : Makes (messageWithin schema config levels ref) more middle after) :
    Makes (messageWithin schema config levels ref) (content ++ more) before after := by
  cases levels with
  | zero => exact (not_makes_zero h).elim
  | succ levels =>
    obtain ⟨hcheck, records, marks, hlaps, rfl, hmissing⟩ := (makes_iff_laps hp).mp h
    obtain ⟨-, records', marks', hlaps', rfl, -⟩ := (makes_iff_laps hp).mp h'
    refine (makes_iff_laps hp).mpr ⟨hcheck, _, _, hlaps.append hlaps', List.flatten_append, ?_⟩
    exact missing?_mono (fun number hn => List.mem_append_left _ hn) hmissing

/-- A message is decoded into what its block is initialised to. -/
theorem makes_decodeMessage_iff :
    Makes (decodeMessage schema config ref) content before after ↔ ∃ block,
      (schema.initialise ref).result before.1 = (.ok (), block) ∧
        Makes (mergeMessage schema config ref) content (block, before.2) after := by
  have hinit : (onBlock (schema.initialise ref) : Decode Bytes S Unit).result
      ⟨.ofBytes content, before.1, before.2⟩ = (((schema.initialise ref).result before.1).1,
        ⟨.ofBytes content, ((schema.initialise ref).result before.1).2, before.2⟩) := rfl
  rcases hr : (schema.initialise ref).result before.1 with ⟨outcome, block⟩
  rw [hr] at hinit
  simp only [Makes, decodeMessage, Prod.mk.injEq]
  cases outcome with
  | error failure => simp [Step.result_bind_error hinit]
  | ok _ => simp [Step.result_bind_ok hinit]

end

end BlockCodec.Decode
