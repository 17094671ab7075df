import BlockCodec.Proofs.Alongside
import BlockCodec.Proofs.Merging
import BlockCodec.Proofs.Rows

/-!
# The order of the fields of a message

Records of different lanes are decoded in places of their own, so two of them that are neighbours may
change places: `Decode.Makes.swap`. Every order that keeps each lane in order is reached by such exchanges
(`Exchanges.reaches`), and so is the same block: `decodes_rearranged`.
-/

namespace BlockCodec

-- ---------------------------------------------------------------------------
-- Exchanging neighbours
-- ---------------------------------------------------------------------------

section

variable {α κ : Type} [DecidableEq κ] {key : α → κ} {P : List α → Prop}

/-- What neighbours of different keys may be exchanged in. -/
def Exchanges (key : α → κ) (P : List α → Prop) : Prop :=
  ∀ front a b back, key a ≠ key b → P (front ++ a :: b :: back) → P (front ++ b :: a :: back)

omit [DecidableEq κ] in
/-- A member is brought forward over others that have different keys. -/
theorem Exchanges.forward (h : Exchanges key P) {front passed back : List α} {a : α}
    (hne : ∀ b ∈ passed, key b ≠ key a) (hp : P (front ++ (passed ++ a :: back))) :
    P (front ++ (a :: passed ++ back)) := by
  induction passed generalizing front with
  | nil => exact hp
  | cons b passed ih =>
    obtain ⟨hb, hpassed⟩ := List.forall_mem_cons.mp hne
    have hbehind : P ((front ++ [b]) ++ (a :: passed ++ back)) := ih hpassed (by simpa using hp)
    exact h front b a (passed ++ back) hb (by simpa using hbehind)

/-- Exchanges of neighbours lead to every order in which the members of each key keep theirs. -/
theorem Exchanges.reaches (h : Exchanges key P) {front list moved : List α}
    (hkeys : ∀ k, moved.filter (key · = k) = list.filter (key · = k)) (hp : P (front ++ list)) :
    P (front ++ moved) := by
  induction moved generalizing front list with
  | nil =>
    cases list with
    | nil => exact hp
    | cons a rest => simpa using hkeys (key a)
  | cons a moved ih =>
    have hfirst := (hkeys (key a)).symm
    rw [List.filter_cons_of_pos (by simp)] at hfirst
    obtain ⟨passed, back, rfl, hpassed, -, hback⟩ := List.filter_eq_cons_iff.mp hfirst
    have hne : ∀ b ∈ passed, key b ≠ key a := fun b hb => by simpa using hpassed b hb
    have hforward : P ((front ++ [a]) ++ (passed ++ back)) := by simpa using h.forward hne hp
    have hrest := ih (fun k => ?_) hforward
    · simpa using hrest
    · have hk := hkeys k
      by_cases hka : key a = k
      · subst hka
        have hnone : passed.filter (key · = key a) = [] := by simpa using hne
        rw [List.filter_append, hnone, hback]
        rfl
      · simpa [List.filter_cons, hka] using hk

end

-- ---------------------------------------------------------------------------
-- Lanes of records
-- ---------------------------------------------------------------------------

/-- The number in the header of a record. -/
def Wire.number? (bytes : Bytes) : Option Nat :=
  match readTag.result (.ofBytes bytes) with
  | (.ok (some (number, _)), _) => some number
  | _ => none

theorem Wire.nextTag_of_number? {bytes : Bytes} {number : Nat} (h : number? bytes = some number) :
    ∃ type behind, nextTag.result (.ofBytes bytes) = (.ok (number, type), behind) := by
  unfold number? at h
  split at h
  · next type behind hr =>
    cases h
    exact ⟨type, behind, result_nextTag_of_readTag (Input.at_ofBytes bytes) hr⟩
  · cases h

theorem Wire.Record.number? {bytes : Bytes} (h : Record bytes) : ∃ number, Wire.number? bytes = some number := by
  obtain ⟨number, type, payload, rest, htag, -⟩ := h
  exact ⟨number, by rw [Wire.number?, htag]⟩

namespace Table

variable {Ref : Type} {table : Table Ref} {records moved : List Bytes} {bytes : Bytes}

/-- A value for a member of the group. -/
def inGroup (table : Table Ref) (group : Nat) (bytes : Bytes) : Bool :=
  table.fields.any fun field => Wire.number? bytes == some field.tag && field.group? == some group

/-- The records of a message in another order, except that records with the same number keep their order,
and so do members of the same group. -/
structure Rearranges (table : Table Ref) (records moved : List Bytes) : Prop where
  perm : moved.Perm records
  numbers : ∀ number, moved.filter (Wire.number? · == some number) =
    records.filter (Wire.number? · == some number)
  groups : ∀ group, moved.filter (table.inGroup group) = records.filter (table.inGroup group)

def lane? (table : Table Ref) (bytes : Bytes) : Option Lane := (Wire.number? bytes).map table.laneOf

theorem laneOf_eq_group_iff (htags : table.fields.Pairwise (·.tag ≠ ·.tag)) {number group : Nat} :
    table.laneOf number = .group group ↔
      ∃ field ∈ table.fields, field.tag = number ∧ field.group? = some group := by
  have hfound : ∀ field, field ∈ table.fields ∧ field.tag = number ↔
      (table.entryOf? number).map (·.field) = some field :=
    fun _ => (Cursor.entryOf?_field_iff htags).symm
  simp only [← and_assoc, hfound, laneOf]
  cases table.entryOf? number with
  | none => simp
  | some entry => simp [Field.lane_eq_group_iff]

theorem eq_of_laneOf {number other : Nat} (h : table.laneOf number = .number other) :
    number = other := by
  unfold laneOf at h
  cases he : table.entryOf? number with
  | none =>
    rw [he] at h
    exact Lane.number.inj h
  | some entry =>
    rw [he] at h
    rw [← Cursor.tag_of_findWithin (Prod.ext he rfl)]
    exact Field.tag_of_lane h

theorem inGroup_iff {group : Nat} : table.inGroup group bytes = true ↔
    ∃ number, Wire.number? bytes = some number ∧
      ∃ field ∈ table.fields, field.tag = number ∧ field.group? = some group := by
  simp only [inGroup, List.any_eq_true, Bool.and_eq_true, beq_iff_eq]
  constructor
  · rintro ⟨field, hf, hn, hg⟩
    exact ⟨field.tag, hn, field, hf, rfl, hg⟩
  · rintro ⟨_, hn, field, hf, rfl, hg⟩
    exact ⟨field, hf, hn, hg⟩

/-- What keeps the order of the numbers and of the groups keeps the order of the lanes. -/
theorem Rearranges.lanes (h : table.Rearranges records moved)
    (htags : table.fields.Pairwise (·.tag ≠ ·.tag)) (hr : ∀ bytes ∈ records, Wire.Record bytes)
    (lane? : Option Lane) :
    moved.filter (table.lane? · = lane?) = records.filter (table.lane? · = lane?) := by
  have hempty : (∀ bytes ∈ records, table.lane? bytes ≠ lane?) →
      moved.filter (table.lane? · = lane?) = records.filter (table.lane? · = lane?) := by
    intro hno
    rw [List.filter_eq_nil_iff.mpr fun bytes hb => by simpa using hno bytes (h.perm.mem_iff.mp hb),
      List.filter_eq_nil_iff.mpr fun bytes hb => by simpa using hno bytes hb]
  match lane? with
  | none =>
    refine hempty fun bytes hb hnone => ?_
    obtain ⟨number, hn⟩ := (hr bytes hb).number?
    simp [Table.lane?, hn] at hnone
  | some (.group group) =>
    have hsame : ∀ bytes, decide (table.lane? bytes = some (.group group)) = table.inGroup group bytes := by
      intro bytes
      rw [Bool.eq_iff_iff, decide_eq_true_iff, inGroup_iff, Table.lane?, Option.map_eq_some_iff]
      simp only [laneOf_eq_group_iff htags]
    simp only [hsame, h.groups]
  | some (.number number) =>
    by_cases hlane : table.laneOf number = .number number
    · have hsame : ∀ bytes, decide (table.lane? bytes = some (.number number)) =
          (Wire.number? bytes == some number) := by
        intro bytes
        rw [Bool.eq_iff_iff, decide_eq_true_iff, beq_iff_eq, Table.lane?, Option.map_eq_some_iff]
        constructor
        · rintro ⟨other, hn, hl⟩
          rw [hn, eq_of_laneOf hl]
        · exact fun hn => ⟨number, hn, hlane⟩
      simp only [hsame, h.numbers]
    · refine hempty fun bytes _ hl => ?_
      obtain ⟨other, -, hl⟩ := Option.map_eq_some_iff.mp hl
      exact hlane (eq_of_laneOf hl ▸ hl)

end Table

-- ---------------------------------------------------------------------------
-- Laps
-- ---------------------------------------------------------------------------

namespace Decode

variable {Ref : Type} {schema : Schema Ref} {config : DecodeConfig} {depth levels : Nat} {table : Table Ref}
  {ref : Ref} {first second : Bytes}

section

variable {S : Type} [Handler Ref S] {nested : Ref → Decode Bytes S Unit} {handlers handlers' : List S}

/-- A record is decoded in the places of its lane. -/
theorem confined_lap {bytes : Bytes} {number : Nat} (hnumber : Wire.number? bytes = some number)
    (hn : ∀ inner, Step.Local everywhere everywhere (nested inner)) (mark : Option Nat) :
    Confined (table.zone (table.laneOf number)) fun block after =>
      Lap schema config nested depth table bytes mark (block, handlers) (after, handlers') := by
  obtain ⟨type, behind, htag⟩ := Wire.nextTag_of_number? hnumber
  have hrecord : KeepsTo (table.zone (table.laneOf number))
      (record schema config nested depth table type number (table.entryOf? number)) :=
    keepsTo_record hn number
  exact (confined_exists fun input => confined_and (c := input.left = 0) fun _ =>
    hrecord mark behind input handlers handlers').congr fun block after => lap_iff_record htag

end

/-- Two records of different lanes make the same laps the other way round. -/
theorem Laps.swap {nested : Ref → Decode Bytes Empty Unit}
    (htags : table.fields.Pairwise (·.tag ≠ ·.tag)) (hd : table.Disjoint)
    (hn : ∀ inner, Step.Local everywhere everywhere (nested inner)) (hfirst : Wire.Record first)
    (hsecond : Wire.Record second) (hlanes : table.lane? first ≠ table.lane? second)
    {marks : List Nat} {before after : Bytes × List Empty}
    (h : Laps schema config nested depth table [first, second] marks before after) :
    ∃ more, Laps schema config nested depth table [second, first] more before after ∧
      ∀ mark ∈ marks, mark ∈ more := by
  obtain ⟨number, hnumber⟩ := hfirst.number?
  obtain ⟨number', hnumber'⟩ := hsecond.number?
  have hne : table.laneOf number ≠ table.laneOf number' := fun heq =>
    hlanes (by rw [Table.lane?, Table.lane?, hnumber, hnumber', Option.map_some, Option.map_some, heq])
  cases h with
  | @cons _ _ mark _ _ middle _ hlap hrest =>
  cases hrest with
  | @cons _ _ mark' _ _ _ _ hlap' hnil =>
  cases hnil
  obtain ⟨block, handlers⟩ := before
  obtain ⟨between, handlers₁⟩ := middle
  obtain ⟨last, handlers₂⟩ := after
  obtain rfl : handlers = [] := Subsingleton.elim _ _
  obtain rfl : handlers₁ = [] := Subsingleton.elim _ _
  obtain rfl : handlers₂ = [] := Subsingleton.elim _ _
  have hcommutes : Commutes
      (fun block after => Lap schema config nested depth table first mark (block, []) (after, []))
      fun block after => Lap schema config nested depth table second mark' (block, []) (after, []) :=
    (confined_lap hnumber hn mark).commutes (confined_lap hnumber' hn mark') fun _ =>
      hd.zone_apart htags hne
  obtain ⟨other, hlap', hlap⟩ := hcommutes hlap hlap'
  refine ⟨_, .cons hlap' (.cons hlap (.nil _)), fun mark hm => ?_⟩
  simpa [or_comm] using hm

/-- Neighbours of different lanes may change places. -/
theorem Makes.swap (hp : schema.Throughout Table.Plain ref) (hfits : (schema ref).Fits schema)
    (hd : (schema ref).Disjoint) {front back : List Bytes} (hfront : ∀ bytes ∈ front, Wire.Record bytes)
    (hfirst : Wire.Record first) (hsecond : Wire.Record second)
    (hlanes : (schema ref).lane? first ≠ (schema ref).lane? second) {before after : Bytes × List Empty}
    (h : Makes (messageWithin schema config levels ref) (front ++ first :: second :: back).flatten before after) :
    Makes (messageWithin schema config levels ref) (front ++ second :: first :: back).flatten before after := by
  cases levels with
  | zero => exact (not_makes_zero h).elim
  | succ levels =>
    have hrecords : ∀ bytes ∈ [first, second], Wire.Record bytes := by simp [hfirst, hsecond]
    have hexchange : Makes (messageWithin schema config (levels + 1) ref)
        (front.flatten ++ [second, first].flatten ++ back.flatten) before after :=
      Makes.replace hp hfront hrecords (fun _ hlaps => hlaps.swap hfits.tags_ne hd
        (local_messageWithin_everywhere schema config levels) hfirst hsecond hlanes) (by simpa using h)
    simpa using hexchange

/-- A message may have its records in every order that keeps each lane in order. -/
theorem Makes.rearranged (hp : schema.Throughout Table.Plain ref) (hfits : (schema ref).Fits schema)
    (hd : (schema ref).Disjoint) {records moved : List Bytes} (hr : ∀ bytes ∈ records, Wire.Record bytes)
    (hm : (schema ref).Rearranges records moved) {before after : Bytes × List Empty}
    (h : Makes (messageWithin schema config levels ref) records.flatten before after) :
    Makes (messageWithin schema config levels ref) moved.flatten before after := by
  have hexchanges : Exchanges (schema ref).lane? fun list => (∀ bytes ∈ list, Wire.Record bytes) ∧
      Makes (messageWithin schema config levels ref) list.flatten before after := by
    rintro front first second back hlanes ⟨hlist, hmakes⟩
    simp only [List.forall_mem_append, List.forall_mem_cons] at hlist ⊢
    obtain ⟨hfront, hfirst, hsecond, hback⟩ := hlist
    exact ⟨⟨hfront, hsecond, hfirst, hback⟩, hmakes.swap hp hfits hd hfront hfirst hsecond hlanes⟩
  have hstart : (∀ bytes ∈ [] ++ records, Wire.Record bytes) ∧
      Makes (messageWithin schema config levels ref) ([] ++ records).flatten before after := ⟨hr, h⟩
  exact (hexchanges.reaches (hm.lanes hfits.tags_ne hr) hstart).2

end Decode

-- ---------------------------------------------------------------------------
-- Byte strings
-- ---------------------------------------------------------------------------

/-- A message that is accepted is a sequence of records. In every order that keeps the records of each number
and of each group in theirs, and whatever the order of the rows of the tables, it is decoded into the same
block. -/
theorem decodes_rearranged {Ref : Type} (schema : Schema Ref) (ref : Ref) (content block after : Bytes)
    (hv : Table.validate schema ref = .ok ()) (hu : schema.Throughout Table.Unhandled ref)
    (hd : schema.Throughout Table.Disjoint ref) (h : decodeBytes schema ref content block = (.ok (), after)) :
    (∃ records : List Bytes, (∀ bytes ∈ records, Wire.Record bytes) ∧ records.flatten = content) ∧
    ∀ (records moved : List Bytes) (other : Schema Ref), (∀ bytes ∈ records, Wire.Record bytes) →
      records.flatten = content → (schema ref).Rearranges records moved →
      (∀ inner, (schema inner).Reorders (other inner)) →
        decodeBytes other ref moved.flatten block = (.ok (), after) := by
  have hp := Schema.plain_of_validate hv hu
  obtain ⟨initial, hinit, hmakes⟩ := Decode.makes_decodeMessage_iff.mp (decodeBytes_eq_ok.mp h)
  refine ⟨hmakes.records hp, ?_⟩
  rintro records moved other hr rfl hm hrows
  have hmoved := hmakes.rearranged hp (Schema.fits_of_validate hv).here hd.here hr hm
  have hdecodes : Decode.Makes (decodeMessage schema {} ref) moved.flatten (block, []) (after, []) :=
    Decode.makes_decodeMessage_iff.mpr ⟨initial, hinit, hmoved⟩
  obtain ⟨input, hrun⟩ := hdecodes
  have hother : (decodeMessage schema {} ref : Decode Bytes Empty Unit).Implies (decodeMessage other {} ref) :=
    Decode.decodeMessage_reordered hrows hu (Schema.orderly_of_validate hv hd)
  exact decodeBytes_eq_ok.mpr ⟨input, hother hrun⟩

/-- A number, two lines and a stamp. -/
def penned : List Bytes := [[0x08, 0x2c], [0x12, 0x01, 0x61], [0x22, 0x02, 0x08, 0x05], [0x12, 0x01, 0x62]]

def shuffled : List Bytes := [[0x12, 0x01, 0x61], [0x22, 0x02, 0x08, 0x05], [0x12, 0x01, 0x62], [0x08, 0x2c]]

/-- The tables of a letter from their last row to the first. -/
def backward : Schema Bool := fun ref => { letter ref with fields := (letter ref).fields.reverse }

theorem rearranges_penned : (letter false).Rearranges penned shuffled := by
  have hnumber : Wire.number? [0x08, 0x2c] = some 1 := by cbv
  have hline : Wire.number? [0x12, 0x01, 0x61] = some 2 := by cbv
  have hstamp : Wire.number? [0x22, 0x02, 0x08, 0x05] = some 4 := by cbv
  have hother : Wire.number? [0x12, 0x01, 0x62] = some 2 := by cbv
  refine ⟨by decide, fun number => ?_, fun group => ?_⟩
  · simp only [penned, shuffled, List.filter_cons, hnumber, hline, hstamp, hother, List.filter_nil]
    grind
  · simp [penned, shuffled, List.filter_cons, Table.inGroup, hnumber, hline, hstamp, hother, letter,
      Field.group?, Field.oneof, Field.repeated, Field.ofStorage]

theorem decodes_rearranged_letter :
    Table.validate letter false = .ok () ∧ letter.Throughout Table.Unhandled false ∧
    letter.Throughout Table.Disjoint false ∧ (∀ bytes ∈ penned, Wire.Record bytes) ∧
    (letter false).Rearranges penned shuffled ∧ (∀ ref, (letter ref).Reorders (backward ref)) ∧
    ∃ after, decodeBytes letter false penned.flatten (Bytes.zeros 26) = (.ok (), after) ∧
      decodeBytes backward false shuffled.flatten (Bytes.zeros 26) = (.ok (), after) := by
  have hvalid : Table.validate letter false = .ok () := rfl
  have haccepts : (decodeBytes letter false penned.flatten (Bytes.zeros 26)).1 = .ok () := by cbv
  have hrecords : ∀ bytes ∈ penned, Wire.Record bytes := by
    simp only [penned, List.forall_mem_cons]
    exact ⟨⟨1, .varint, ⟨[0x2c], 1, 1, true⟩, ⟨[], 0, 2, true⟩, by cbv, by cbv, rfl⟩,
      ⟨2, .delimited, ⟨[1, 0x61], 2, 1, true⟩, ⟨[], 0, 3, true⟩, by cbv, by cbv, rfl⟩,
      ⟨4, .delimited, ⟨[2, 8, 5], 3, 1, true⟩, ⟨[], 0, 4, true⟩, by cbv, by cbv, rfl⟩,
      ⟨2, .delimited, ⟨[1, 0x62], 2, 1, true⟩, ⟨[], 0, 3, true⟩, by cbv, by cbv, rfl⟩, List.forall_mem_nil _⟩
  have hrows : ∀ ref, (letter ref).Reorders (backward ref) :=
    fun ref => ⟨rfl, rfl, List.reverse_perm _⟩
  obtain ⟨-, h⟩ := decodes_rearranged letter false penned.flatten (Bytes.zeros 26) _ hvalid
    (letter_unhandled false) (letter_disjoint false) (Prod.ext haccepts rfl)
  exact ⟨hvalid, letter_unhandled false, letter_disjoint false, hrecords, rearranges_penned, hrows, _,
    Prod.ext haccepts rfl, h penned shuffled backward hrecords rfl rearranges_penned hrows⟩

end BlockCodec
