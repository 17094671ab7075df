import BlockCodec.Proofs.Lockstep

/-!
# Messages, field by field

Decoding a message is a walk over its fields, then the check of the required ones. Two walks side by
side make the same laps for as long as the short one has bytes, and behind its last byte the long walk
is where the short one has ended: `Decode.walk_lockstep`. Neither where the lookup stands nor what was
seen before makes a difference.
-/

namespace BlockCodec

/-- Tables whose fields are all in the block and have tags of their own. -/
structure Table.Plain {Ref : Type} (table : Table Ref) : Prop where
  unhandled : table.Unhandled
  tags_ne : table.fields.Pairwise (·.tag ≠ ·.tag)

theorem Schema.plain_of_validate {Ref : Type} {schema : Schema Ref} {ref : Ref}
    (h : Table.validate schema ref = .ok ()) (hu : schema.Throughout Table.Unhandled ref) :
    schema.Throughout Table.Plain ref :=
  fun inner hi => ⟨hu inner hi, (Schema.fits_of_validate h inner hi).tags_ne⟩

namespace Decode

variable {σ τ S Ref : Type} [Source σ] [Source τ] [Handler Ref S] {known seen seen' : List Nat}
  {cursor cursor' : Cursor} {room room' : Nat}

-- ---------------------------------------------------------------------------
-- Walks
-- ---------------------------------------------------------------------------

section

variable (schema : Schema Ref) (config : DecodeConfig) (nested : Ref → Decode σ S Unit)
  (depth : Nat) (table : Table Ref)

/-- The payload of a field behind its header, given what the table says of its number. The answer is
the number of the required field that has been read, if any. -/
def record (type : WireType) (number : Nat) : Option (Entry Ref) → Decode σ S (Option Nat)
  | none => do
    if config.strictUnknown then throw (.unknownField table.name number)
    skipValue number type
    pure none
  | some entry => do
    let field := entry.field
    if field.accepts type then
      if field.isHandled then handled config depth field type
      else stored schema config nested table field type
      pure (tracked? entry)
    else
      if !config.skipMismatched then
        throw (.wireTypeMismatch field.name field.kind.wireType type)
      skipValue number type
      pure none

/-- The fields up to the end of the input. The answer is what required fields have been seen. -/
def walk : Nat → Cursor → List Nat → Decode σ S (List Nat)
  | 0, _, seen => pure seen
  | room + 1, cursor, seen => do
    match ← onWire Wire.readTag with
    | none => pure seen
    | some (number, type) =>
      let mark ← record schema config nested depth table type number (cursor.find table number).1
      walk room (cursor.find table number).2 (mark.elim seen (seen.insert ·))

/-- A field that is there, header and payload. -/
def nextField : Decode σ S ((Nat × WireType) × Option Nat) := do
  let tag ← onWire Wire.nextTag
  let mark ← record schema config nested depth table tag.2 tag.1 (table.entryOf? tag.1)
  pure (tag, mark)

variable {schema config nested depth table}

theorem fields_eq_walk (room : Nat) (cursor : Cursor) (seen : List Nat) :
    fields schema config nested depth table room cursor seen =
      walk schema config nested depth table room cursor seen >>= checkRequired table := by
  induction room generalizing cursor seen with
  | zero => rfl
  | succ room ih =>
    rw [fields, walk, bind_assoc]
    congr 1
    funext header
    match header with
    | none => rfl
    | some (number, type) =>
      rcases hfind : cursor.find table number with ⟨found, cursor'⟩
      simp only [hfind]
      cases found with
      | none =>
        simp only [record, ih, bind_assoc]
        split <;> simp
      | some entry =>
        simp only [record, ih, bind_assoc]
        split
        · split <;> simp
        · split <;> simp

-- ---------------------------------------------------------------------------
-- Laps
-- ---------------------------------------------------------------------------

variable [Supply σ] [Supply τ] {nested' : Ref → Decode τ S Unit} {cut : Cut}
  {short state : Decoding σ S} {long : Decoding τ S} {content : Bytes} {left taken : Nat}
  {type : WireType}

theorem tracks_record [Nonempty σ] {number : Nat} {found : Option (Entry Ref)}
    (hu : ∀ entry, found = some entry → entry.field.isHandled = false)
    (hn : ∀ entry, found = some entry → NestsAlike nested nested' entry.field) :
    Tracks CodecError.IsShort 0 (record schema config nested depth table type number found)
      (record schema config nested' depth table type number found) := by
  have hskip : Tracks CodecError.IsShort 0
      (do skipValue number type; pure none : Decode σ S (Option Nat))
      (do skipValue number type; pure none : Decode τ S (Option Nat)) :=
    (tracks_skipValue number type).then fun _ => tracks_pure none
  unfold record
  split
  · exact owes_unless fun _ => hskip
  · next entry =>
    refine owes_ite (fun _ => ?_) fun _ => owes_unless fun _ => hskip
    simp only [hu entry rfl, Bool.false_eq_true, if_false]
    exact (tracks_stored (hn entry rfl)).then fun _ => tracks_pure _

theorem tracks_nextField [Nonempty σ] (hp : table.Plain)
    (hn : ∀ field ∈ table.fields, NestsAlike nested nested' field) :
    Tracks CodecError.IsShort 1 (nextField schema config nested depth table)
      (nextField schema config nested' depth table) := by
  refine (owes_onWire Wire.tracks_nextTag).first fun tag => ?_
  refine Owes.then (tracks_record (fun entry hentry => ?_) fun entry hentry => ?_) fun _ =>
    tracks_pure _
  · exact hp.unhandled _ (Cursor.mem_of_entryOf? hentry)
  · exact hn _ (Cursor.mem_of_entryOf? hentry)

variable (schema config nested depth table) in
/-- Where nothing can be taken, a walk ends. -/
theorem walk_end (hat : state.input.At content left taken) (hzero : min left content.length = 0)
    (room : Nat) (cursor : Cursor) (seen : List Nat) :
    ∃ after, (walk schema config nested depth table room cursor seen).result state =
      (.ok seen, { state with input := after }) ∧ after.At content left taken := by
  cases room with
  | zero => exact ⟨state.input, rfl, hat⟩
  | succ room =>
    obtain ⟨after, hr, hafter⟩ := Wire.result_readTag_end hat hzero
    exact ⟨after, by rw [walk, Step.result_bind_ok (result_onWire hr)]; rfl, hafter⟩

/-- Where something can be taken, a walk makes a lap; from every place of the table it is the same. -/
theorem walk_next (htags : table.fields.Pairwise (·.tag ≠ ·.tag)) (hc : cursor.Placed table)
    (hat : state.input.At content left taken) (hpos : 0 < min left content.length)
    (room : Nat) (seen : List Nat) :
    (walk schema config nested depth table (room + 1) cursor seen).result state =
      (nextField schema config nested depth table >>= fun lap =>
        walk schema config nested depth table room (cursor.find table lap.1.1).2
          (lap.2.elim seen (seen.insert ·))).result state := by
  have htag := Wire.result_readTag_next hat hpos
  rw [walk, nextField, bind_assoc]
  rcases hr : Wire.nextTag.result state.input with ⟨outcome, after⟩
  cases outcome with
  | error failure =>
    rw [Step.result_bind_error hr] at htag
    rw [Step.result_bind_error (result_onWire_error htag),
      Step.result_bind_error (result_onWire_error hr)]
  | ok tag =>
    rw [Step.result_bind_ok hr, Step.result_pure] at htag
    obtain ⟨next, hfind, -⟩ := Cursor.find_placed htags hc tag.1
    rw [Step.result_bind_ok (result_onWire htag), Step.result_bind_ok (result_onWire hr)]
    simp only [hfind, bind_assoc, pure_bind]

/-- The long walk has seen what the short one has, and what was known before. -/
def Knows (known seen seen' : List Nat) : Prop := ∀ number, number ∈ seen' ↔ number ∈ seen ∨ number ∈ known

theorem Knows.mark (h : Knows known seen seen') (mark : Option Nat) :
    Knows known (mark.elim seen (seen.insert ·)) (mark.elim seen' (seen'.insert ·)) := by
  cases mark with
  | none => exact h
  | some other =>
    intro number
    simp [h number, or_assoc]

theorem ends_const {s ε α : Type} {step : Step s ε α} {state : s} {P : Prop} (h : P) :
    step.Ends state (fun _ _ => P) fun _ _ => True := by
  unfold Step.Ends
  split
  · exact h
  · trivial

/-- Two walks side by side: where the short one has taken all it can, the long one stands there too,
wherever its lookups stand. -/
theorem walk_lockstep [Nonempty σ] (hp : table.Plain)
    (hn : ∀ field ∈ table.fields, NestsAlike nested nested' field) (hrel : Related cut short long)
    (hroom : cut.reach ≤ room) (hroom' : cut.far ≤ room') (hc : cursor.Placed table)
    (hc' : cursor'.Placed table) (hseen : Knows known seen seen') :
    (walk schema config nested depth table room cursor seen).Ends short
      (fun found after => ∃ last cursor₂ found' room₂, Related (cut.drop cut.reach) after last ∧
        cursor₂.Placed table ∧ Knows known found found' ∧ (cut.drop cut.reach).far ≤ room₂ ∧
        (walk schema config nested' depth table room' cursor' seen').result long =
          (walk schema config nested' depth table room₂ cursor₂ found').result last)
      fun failure _ => (walk schema config nested' depth table room' cursor' seen').Ends long
        (fun _ _ => failure.IsShort ∧ cut.reach < cut.far) fun _ _ => True := by
  induction room generalizing cut short long cursor cursor' seen seen' room' with
  | zero =>
    have hzero : cut.reach = 0 := by omega
    refine .of_ok rfl ⟨long, cursor', seen', room', ?_, hc', hseen, ?_, rfl⟩
    · rwa [hzero]
    · rwa [hzero]
  | succ room ih =>
    by_cases hzero : cut.reach = 0
    · obtain ⟨after, hr, hafter⟩ := walk_end schema config nested depth table hrel.short_at hzero
        (room + 1) cursor seen
      refine .of_ok hr ⟨long, cursor', seen', room', ?_, hc', hseen, ?_, rfl⟩
      · rw [hzero]
        exact ⟨hafter, hrel.long_at, hrel.rest_eq⟩
      · rwa [hzero]
    · have hpos : 0 < cut.reach := Nat.pos_of_ne_zero hzero
      have hfar : 0 < cut.far := Nat.lt_of_lt_of_le hpos cut.reach_le_far
      obtain ⟨room', rfl⟩ : ∃ n, room' = n + 1 := ⟨room' - 1, by omega⟩
      have hlong : (walk schema config nested' depth table (room' + 1) cursor' seen').result long = _ :=
        walk_next hp.tags_ne hc' hrel.long_at hfar room' seen'
      refine Step.Ends.congr ?_ (walk_next hp.tags_ne hc hrel.short_at hpos room seen)
      refine Step.Ends.bind (((tracks_nextField hp hn).follow hrel).mono (fun _ _ h => h) ?_) ?_
      · intro failure _ hb
        refine Step.Ends.congr (hb.bind ?_) hlong
        rintro lap last ⟨hfailure, count, -, hlt, hle, -⟩
        exact ends_const ⟨hfailure, by omega⟩
      · rintro lap middle ⟨last, count, hr, hone, hle, hnext⟩
        obtain ⟨next, hfind, hplaced⟩ := Cursor.find_placed hp.tags_ne hc lap.1.1
        obtain ⟨next', hfind', hplaced'⟩ := Cursor.find_placed hp.tags_ne hc' lap.1.1
        rw [Step.result_bind_ok hr, hfind'] at hlong
        have hreach := cut.reach_drop count
        have hfar' := Cut.far_drop hle
        have hroom₁ : (cut.drop count).reach ≤ room := by omega
        have hroom₂ : (cut.drop count).far ≤ room' := by omega
        rw [hfind]
        refine (ih hnext hroom₁ hroom₂ hplaced hplaced' (hseen.mark lap.2)).mono ?_ fun failure _ hb => ?_
        · rintro found after ⟨last', cursor₂, found', room₂, hrel', hplaced₂, hknows, hroom₂, hsame⟩
          rw [Cut.drop_drop, hreach, Nat.add_sub_cancel' hle] at hrel' hroom₂
          exact ⟨last', cursor₂, found', room₂, hrel', hplaced₂, hknows, hroom₂, hlong.trans hsame⟩
        · refine (hb.mono (fun _ _ ⟨hfailure, hlt⟩ => ⟨hfailure, ?_⟩) fun _ _ h => h).congr hlong
          omega

/-- A walk takes all it can. -/
theorem takes_walk (hp : table.Plain)
    (hn : ∀ field ∈ table.fields, NestsAlike nested nested field) (hc : cursor.Placed table)
    (hat : state.input.At content left taken) (hroom : min left content.length ≤ room) :
    (walk schema config nested depth table room cursor seen).Ends state
      (fun _ after => after.input.At (content.drop (min left content.length))
        (left - min left content.length) (taken + min left content.length)) fun _ _ => True := by
  have : Nonempty σ := ⟨state.input.source⟩
  induction room generalizing state content left taken cursor seen with
  | zero =>
    obtain ⟨after, hr, hafter⟩ := walk_end schema config nested depth table hat (by omega) 0
      cursor seen
    have hzero : min left content.length = 0 := by omega
    exact .of_ok hr (by rwa [hzero])
  | succ room ih =>
    by_cases hzero : min left content.length = 0
    · obtain ⟨after, hr, hafter⟩ := walk_end schema config nested depth table hat hzero (room + 1)
        cursor seen
      exact .of_ok hr (by rwa [hzero])
    · refine Step.Ends.congr ?_ (walk_next hp.tags_ne hc hat (Nat.pos_of_ne_zero hzero) room seen)
      refine ((tracks_nextField hp hn).advances hat).bind ?_
      rintro lap middle ⟨count, hone, hle, hmiddle⟩
      obtain ⟨next, hfind, hplaced⟩ := Cursor.find_placed hp.tags_ne hc lap.1.1
      have hless : min (left - count) (content.drop count).length = min left content.length - count := by
        rw [List.length_drop]
        omega
      rw [hfind]
      refine (ih hplaced hmiddle (by omega)).mono ?_ fun _ _ h => h
      intro found after hafter
      rwa [hless, List.drop_drop, Nat.sub_sub, Nat.add_assoc, Nat.add_sub_cancel' hle] at hafter

-- ---------------------------------------------------------------------------
-- Messages
-- ---------------------------------------------------------------------------

/-- The failure of a message that lacks a required field. -/
theorem isShort_missingRequiredField (message field : String) :
    (CodecError.missingRequiredField message field).IsShort := by
  simp [CodecError.IsShort, CodecError.errorClass]

theorem drains_fields [Nonempty σ] (hp : table.Plain)
    (hn : ∀ field ∈ table.fields, NestsAlike nested nested' field) (hrel : Related cut short long)
    (hroom : cut.reach ≤ room) (hroom' : cut.far ≤ room') :
    (fields schema config nested depth table room .start []).Ends short
      (fun _ after => ∃ last, Related (cut.drop cut.reach) after last ∧ (cut.reach = cut.far →
        (fields schema config nested' depth table room' .start []).result long = (.ok (), last)))
      fun failure _ => (fields schema config nested' depth table room' .start []).Ends long
        (fun _ _ => failure.IsShort ∧ cut.reach < cut.far) fun _ _ => True := by
  have hseen : Knows [] [] [] := fun number => by simp
  rw [fields_eq_walk, fields_eq_walk]
  refine Step.Ends.bind ((walk_lockstep hp hn hrel hroom hroom' Cursor.placed_start
    Cursor.placed_start hseen).mono (fun _ _ h => h) fun failure _ hb => ?_) ?_
  · refine hb.bind ?_
    rintro _ _ hshort
    exact ends_const hshort
  · rintro found after ⟨last, cursor, found', room₂, hnext, -, hknows, -, hlong⟩
    have hmissing : missing? table found' = missing? table found := by
      have hmem : ∀ number, found'.contains number = found.contains number := fun number => by
        simpa using hknows number
      simp only [missing?, hmem]
    -- where the long walk has no more than the short one, it ends with the same required fields
    have hend : cut.reach = cut.far → ∃ last', Related (cut.drop cut.reach) after last' ∧
        (walk schema config nested' depth table room' .start []).result long = (.ok found', last') := by
      intro hreach
      have hzero : (cut.drop cut.reach).far = 0 := by
        rw [Cut.far_drop (Nat.le_refl _)]
        omega
      obtain ⟨input, hr, hat⟩ := walk_end schema config nested' depth table hnext.long_at hzero room₂
        cursor found'
      exact ⟨{ last with input }, ⟨hnext.short_at, hat, hnext.rest_eq⟩, hlong.trans hr⟩
    unfold checkRequired
    cases hm : missing? table found with
    | none =>
      by_cases hreach : cut.reach = cut.far
      · obtain ⟨last', hrel', hr⟩ := hend hreach
        refine Step.ends_pure ⟨last', hrel', fun _ => ?_⟩
        rw [Step.result_bind_ok hr, hmissing, hm]
        rfl
      · exact Step.ends_pure ⟨last, hnext, fun h => absurd h hreach⟩
    | some field =>
      refine Step.ends_throw ?_
      by_cases hreach : cut.reach = cut.far
      · obtain ⟨last', -, hr⟩ := hend hreach
        refine Step.Ends.congr ?_ (Step.result_bind_ok hr)
        rw [hmissing, hm]
        exact Step.ends_throw trivial
      · have hle := cut.reach_le_far
        exact ends_const ⟨isShort_missingRequiredField _ _, by omega⟩

theorem takes_fields (hp : table.Plain)
    (hn : ∀ field ∈ table.fields, NestsAlike nested nested field)
    (hat : state.input.At content left taken) (hroom : min left content.length ≤ room) :
    (fields schema config nested depth table room .start []).Ends state
      (fun _ after => after.input.At (content.drop (min left content.length))
        (left - min left content.length) (taken + min left content.length)) fun _ _ => True := by
  rw [fields_eq_walk]
  refine (takes_walk hp hn Cursor.placed_start hat hroom).bind fun found after hafter => ?_
  unfold checkRequired
  split
  · exact Step.ends_pure hafter
  · exact Step.ends_throw trivial

end

section

variable {σ S Ref : Type} [Source σ] [Handler Ref S] {schema : Schema Ref} {config : DecodeConfig}
  {ref : Ref} {levels : Nat} {state : Decoding σ S}

/-- A block that is long enough is decoded into field by field. -/
theorem messageWithin_of_ok (h : (schema ref).checkBlock state.block = .ok ()) :
    (messageWithin schema config (levels + 1) ref).result state =
      (fields schema config (messageWithin schema config levels) (config.maxDepth - levels)
        (schema ref) state.input.left .start []).result state := by
  have hask : (onBlock (Edit.ask (schema ref).checkBlock) : Decode σ S Unit).result state =
      (.ok (), state) := by
    rw [onBlock, Step.result_onPart, Edit.ask, Step.result_ofRun, h]
  rw [messageWithin, Step.result_bind_ok hask, Step.result_bind_ok (Step.result_get state)]

theorem messageWithin_of_error {failure : CodecError}
    (h : (schema ref).checkBlock state.block = .error failure) :
    (messageWithin schema config (levels + 1) ref).result state = (.error failure, state) := by
  have hask : (onBlock (Edit.ask (schema ref).checkBlock) : Decode σ S Unit).result state =
      (.error failure, state) := by
    rw [onBlock, Step.result_onPart, Edit.ask, Step.result_ofRun, h]
  rw [messageWithin, Step.result_bind_error hask]

end

/-- Decoding a message side by side, from any two sources. -/
theorem drains_messageWithin {S Ref : Type} [Handler Ref S] {schema : Schema Ref}
    {config : DecodeConfig} {ref : Ref} (hp : schema.Throughout Table.Plain ref) (levels : Nat) :
    ∀ {σ τ : Type} [Source σ] [Supply σ] [Nonempty σ] [Source τ] [Supply τ] [Nonempty τ],
      Drains (messageWithin schema config levels ref : Decode σ S Unit)
        (messageWithin schema config levels ref : Decode τ S Unit) := by
  induction levels generalizing ref with
  | zero =>
    intros
    exact ⟨fun _ => Step.ends_throw trivial, fun _ => Step.ends_throw (Step.ends_throw trivial)⟩
  | succ levels ih =>
    intro σ τ _ _ _ _ _ _
    have hn : ∀ {σ τ : Type} [Source σ] [Supply σ] [Nonempty σ] [Source τ] [Supply τ] [Nonempty τ],
        ∀ field ∈ (schema ref).fields,
          NestsAlike (messageWithin schema config levels : Ref → Decode σ S Unit)
            (messageWithin schema config levels : Ref → Decode τ S Unit) field :=
      fun field hf inner hk => ih (hp.nested (Table.mem_nested hf (hp.here.unhandled field hf) hk))
    constructor
    · intro state content left taken hat
      cases hcheck : (schema ref).checkBlock state.block with
      | error failure => exact .of_error (messageWithin_of_error hcheck) trivial
      | ok _ =>
        refine Step.Ends.congr (takes_fields hp.here hn hat ?_) (messageWithin_of_ok hcheck)
        rw [hat.left_eq]
        exact Nat.min_le_left _ _
    · intro cut short long hrel
      have hblock : short.block = long.block := (Prod.mk.inj hrel.rest_eq).1
      have hshort : short.input.left = cut.left := hrel.short_at.left_eq
      have hlong : long.input.left = cut.left + cut.extra := hrel.long_at.left_eq
      cases hcheck : (schema ref).checkBlock short.block with
      | error failure =>
        refine .of_error (messageWithin_of_error hcheck) ?_
        exact .of_error (messageWithin_of_error (hblock ▸ hcheck)) trivial
      | ok _ =>
        have hcheck' := hblock ▸ hcheck
        have hroom : cut.reach ≤ short.input.left := hshort ▸ Nat.min_le_left _ _
        have hroom' : cut.far ≤ long.input.left := hlong ▸ Nat.min_le_left _ _
        refine ((drains_fields hp.here hn hrel hroom hroom').mono (fun _ after hb => ?_)
          fun failure _ hb => ?_).congr (messageWithin_of_ok hcheck)
        · obtain ⟨last, hnext, hend⟩ := hb
          exact ⟨last, hnext, fun hreach => (messageWithin_of_ok hcheck').trans (hend hreach)⟩
        · exact hb.congr (messageWithin_of_ok hcheck')

theorem Drains.afterEdit {σ τ S : Type} [Source σ] [Supply σ] [Source τ] [Supply τ]
    {a : Decode σ S Unit} {b : Decode τ S Unit} (h : Drains a b) (edit : Edit Unit) :
    Drains (onBlock edit >>= fun _ => a) (onBlock edit >>= fun _ => b) := by
  have hedit : ∀ {σ : Type} (state : Decoding σ S), (onBlock edit : Decode σ S Unit).result state =
      ((edit.result state.block).1, { state with block := (edit.result state.block).2 }) :=
    fun _ => rfl
  constructor
  · intro state content left taken hat
    cases hr : (edit.result state.block).1 with
    | error failure =>
      refine .of_error (Step.result_bind_error ((hedit state).trans (Prod.ext hr rfl))) trivial
    | ok _ =>
      refine Step.Ends.congr ?_ (Step.result_bind_ok ((hedit state).trans (Prod.ext hr rfl)))
      exact h.takes hat
  · intro cut short long hrel
    obtain ⟨hblock, hhandlers⟩ := Prod.mk.inj hrel.rest_eq
    change short.block = long.block at hblock
    have hlong := hedit long
    rw [← hblock] at hlong
    cases hr : (edit.result short.block).1 with
    | error failure =>
      refine .of_error (Step.result_bind_error ((hedit short).trans (Prod.ext hr rfl))) ?_
      exact .of_error (Step.result_bind_error (hlong.trans (Prod.ext hr rfl))) trivial
    | ok _ =>
      have hnext : Related cut { short with block := (edit.result short.block).2 }
          { long with block := (edit.result short.block).2 } :=
        ⟨hrel.short_at, hrel.long_at, Prod.ext rfl hhandlers⟩
      have hsecond : (onBlock edit >>= fun _ => b).result long =
          b.result { long with block := (edit.result short.block).2 } :=
        Step.result_bind_ok (hlong.trans (Prod.ext hr rfl))
      refine ((h.mirrors hnext).mono (fun _ after hb => ?_) fun failure _ hb => ?_).congr
        (Step.result_bind_ok ((hedit short).trans (Prod.ext hr rfl)))
      · obtain ⟨last, hrel', hend⟩ := hb
        exact ⟨last, hrel', fun hreach => hsecond.trans (hend hreach)⟩
      · exact hb.congr hsecond

theorem drains_decodeMessage {σ τ S Ref : Type} [Source σ] [Supply σ] [Nonempty σ] [Source τ]
    [Supply τ] [Nonempty τ] [Handler Ref S] {schema : Schema Ref} {config : DecodeConfig} {ref : Ref}
    (hp : schema.Throughout Table.Plain ref) :
    Drains (decodeMessage schema config ref : Decode σ S Unit)
      (decodeMessage schema config ref : Decode τ S Unit) :=
  (drains_messageWithin hp _).afterEdit _

end Decode

end BlockCodec
