import BlockCodec.Proofs.Acceptance
import BlockCodec.Proofs.Consignments
import BlockCodec.Proofs.Enacting
import BlockCodec.Proofs.Roster
import BlockCodec.Proofs.Series

/-!
# Numbers in packs and on their own

The numbers of a field come in blocks or with a record each, whether the field is packed or not, and records
for other fields may stand in between. A field that has its places to itself takes the numbers one by one,
however they are cut into records: an array holds them all or is found full, and a handler is given each of
them in turn (`numbers_mix`). Where another field overlaps the count of an array they get lost
(`numbers_mix_overlapped`).
-/

namespace BlockCodec

variable {σ S Ref ι : Type} {schema : Schema Ref} {table : Table Ref} {field : Field Ref} {size : Nat}
  {block after : Bytes} {numbers : List Scalar}

-- ---------------------------------------------------------------------------
-- Arrays of numbers
-- ---------------------------------------------------------------------------

namespace Field

/-- The array holds just these numbers. -/
structure Holds (field : Field Ref) (numbers : List Scalar) (block : Bytes) : Prop where
  slot : field.slot block = .ok numbers.length
  held : ∀ index (h : index < numbers.length), ∃ stored, block.slice? (field.element index) = some stored ∧
    field.kind.loadScalar stored = numbers[index]

theorem Holds.count_eq (h : field.Holds numbers block) (htags : table.fields.Pairwise (·.tag ≠ ·.tag))
    (hf : field ∈ table.fields) (hh : field.isHandled = false) (hm : field.multiplicity = .repeated)
    (hle : numbers.length ≤ field.capacity) : View.count ⟨table, block⟩ field.tag = .ok numbers.length := by
  rw [View.count, Table.lookUp_of_mem htags hf, bind_ok, if_pos (by simp [isRepeated, hm, hh])]
  exact count_eq_ok.mpr ⟨h.slot, hle⟩

theorem Holds.getAt_eq (h : field.Holds numbers block) (htags : table.fields.Pairwise (·.tag ≠ ·.tag))
    (hf : field ∈ table.fields) (harray : field.expectArray = .ok ()) (hscalar : field.expectScalar = .ok ())
    (hle : numbers.length ≤ field.capacity) {index : Nat} (hi : index < numbers.length) :
    View.getAt ⟨table, block⟩ field.tag index = .ok numbers[index] := by
  obtain ⟨stored, hs, hload⟩ := h.held index hi
  have hspan := elementSpan_eq_ok.mpr ⟨_, count_eq_ok.mpr ⟨h.slot, hle⟩, hi, rfl⟩
  simp only [View.getAt, Table.lookUp_of_mem htags hf, harray, hscalar, bind_ok, hspan, load, hs, hload]
  rfl

theorem Holds.congr (h : field.Holds numbers block) (hh : field.isHandled = false)
    (hm : field.multiplicity = .repeated) (hle : numbers.length ≤ field.capacity)
    (hagree : Bytes.AgreeOn field.extent block after) : field.Holds numbers after where
  slot := (slot_congr_extent hh hagree).trans h.slot
  held index hi := by
    obtain ⟨stored, hs, hload⟩ := h.held index hi
    refine ⟨stored, ?_, hload⟩
    rw [← hs]
    exact (hagree.slice fun place hp => extent_of_element hh hm (by omega) hp).symm

/-- A full array takes no number. -/
theorem Holds.takeNumber_full (h : field.Holds numbers block) (hfull : field.capacity ≤ numbers.length)
    (value : Scalar) :
    (field.takeNumber value).result block = (.error (.arrayFull field.name field.capacity), block) := by
  have hask : (Edit.ask field.slot).result block = (.ok numbers.length, block) := Prod.ext h.slot rfl
  rw [takeNumber, Step.result_bind_ok hask, if_pos hfull]
  rfl

section

variable (hlaid : field.Laid schema size) (hself : field.spans.Pairwise Span.Apart)
  (hm : field.multiplicity = .repeated) (hk : field.kind.isScalar = true) (hcap : field.capacity < 2 ^ 32)

include hlaid hself hm hk hcap

/-- While there is room, a number is put behind the others, cut to the kind. -/
theorem Holds.takeNumber (h : field.Holds numbers block) (hs : size ≤ block.length)
    (hlt : numbers.length < field.capacity) (value : Scalar) :
    ∃ after, (field.takeNumber value).result block = (.ok (), after) ∧
      field.Holds (numbers ++ [field.kind.narrow value]) after ∧
      Bytes.AgreeOn (fun place => ¬field.extent place) block after := by
  have hask : (Edit.ask field.slot).result block = (.ok numbers.length, block) := Prod.ext h.slot rfl
  have hplace : field.Place .loose block (field.element numbers.length) := loose_element hm hlt
  obtain ⟨held, hheld, hlen⟩ := hlaid.place_slice hs hplace
  have hstore : (field.kind.storeScalar held value).length = held.length := length_storeScalar _ _ _
  obtain ⟨after, hset, hslot, hkept, hlast, hothers⟩ :=
    hlaid.count_element hself hm hs hlt (by omega) hheld hstore
  refine ⟨after, ?_, ⟨by simpa using hslot, fun index hi => ?_⟩, hkept⟩
  · rw [Field.takeNumber, Step.result_bind_ok hask, if_neg (by omega), Step.result_bind_ok (Edit.result_change hheld _)]
    exact hset
  · rw [List.length_append, List.length_singleton] at hi
    rcases Nat.lt_succ_iff_lt_or_eq.mp hi with hlt' | rfl
    · obtain ⟨stored, hstored, hload⟩ := h.held index hlt'
      refine ⟨stored, (hothers index (by omega) (by omega)).trans hstored, ?_⟩
      rw [hload, List.getElem_append_left]
    · refine ⟨_, hlast, ?_⟩
      rw [loadScalar_storeScalar hk hlaid.suits hlen]
      simp

/-- Numbers that come one after the other are all put behind those that are there, or there are too many. -/
theorem Holds.takeNumbers (h : field.Holds numbers block) (hs : size ≤ block.length)
    (hle : numbers.length ≤ field.capacity) (items : List ι) (value : ι → Scalar) (handlers : List S) :
    Step.Ends (items.forM fun item => onBytes (field.takeNumber (value item)) :
        Step (Bytes × List S) CodecError Unit) (block, handlers)
      (fun _ after => numbers.length + items.length ≤ field.capacity ∧ after.2 = handlers ∧
        field.Holds (numbers ++ items.map fun item => field.kind.narrow (value item)) after.1 ∧
        Bytes.AgreeOn (fun place => ¬field.extent place) block after.1)
      fun failure _ => field.capacity < numbers.length + items.length ∧
        failure = .arrayFull field.name field.capacity := by
  induction items generalizing numbers block with
  | nil => exact .of_ok rfl ⟨hle, rfl, by simpa using h, .refl _ _⟩
  | cons item items ih =>
    rw [List.forM]
    by_cases hlt : numbers.length < field.capacity
    · obtain ⟨middle, hr, hholds, hkept⟩ := h.takeNumber hlaid hself hm hk hcap hs hlt (value item)
      have hfirst : (onBytes (field.takeNumber (value item)) : Step (Bytes × List S) CodecError Unit).result
          (block, handlers) = (.ok (), (middle, handlers)) := by rw [onBytes, Step.result_onPart, hr]
      refine ((ih hholds (hkept.1 ▸ hs) (by simpa using hlt)).mono (fun _ after hafter => ?_)
        fun failure _ hfail => ?_).congr (Step.result_bind_ok hfirst)
      · obtain ⟨hroom, hsame, hlast, hrest⟩ := hafter
        rw [List.length_append, List.length_singleton] at hroom
        refine ⟨by rw [List.length_cons]; omega, hsame, ?_, hkept.trans hrest⟩
        simpa using hlast
      · rw [List.length_append, List.length_singleton] at hfail
        exact ⟨by rw [List.length_cons]; omega, hfail.2⟩
    · have hfirst : (onBytes (field.takeNumber (value item)) : Step (Bytes × List S) CodecError Unit).result
          (block, handlers) = (.error (.arrayFull field.name field.capacity), (block, handlers)) := by
        rw [onBytes, Step.result_onPart, h.takeNumber_full (Nat.le_of_not_lt hlt)]
      exact .of_error (Step.result_bind_error hfirst) ⟨by rw [List.length_cons]; omega, rfl⟩

end

end Field

-- ---------------------------------------------------------------------------
-- Parts of a message
-- ---------------------------------------------------------------------------

/-- A number as the wire may spell it: what is read of the bytes is the value, as the wire carries it. -/
structure Spelling (field : Field Ref) where
  form : Bytes
  value : Scalar
  reads : Input.Reads field.readScalar form (field.kind.carry value)

/-- The spelling that is written. -/
def Spelling.written (hk : field.kind.isScalar = true) (value : Scalar) : Spelling field :=
  ⟨field.scalarForm value, value, field.reads_carry hk value⟩

theorem Spelling.form_ne_nil (spelling : Spelling field) : spelling.form ≠ [] := by
  intro hnil
  have hread := spelling.reads [] 0 0 true (by simp [hnil])
  rw [hnil] at hread
  obtain ⟨-, f, hf⟩ | ⟨-, f, hf⟩ | ⟨-, f, hf⟩ | ⟨-, f, hf⟩ | ⟨-, hf⟩ := Decode.readScalar_forms field <;>
    rw [hf Bytes] at hread <;> cases hread

/-- What happens to a field that is bound to a handler: a record for another field, or a number. -/
inductive Part.Event
  | record (bytes : Bytes)
  | number (value : Scalar)

def Part.Event.number? : Part.Event → Option Scalar
  | .record _ => none
  | .number value => some value

/-- A part of a message that holds numbers of a field. -/
inductive Part (field : Field Ref)
  /-- A record for another field. -/
  | other (bytes : Bytes)
  /-- Numbers in one block. -/
  | pack (spellings : List (Spelling field))
  | single (spelling : Spelling field)

namespace Part

def record : Part field → Bytes
  | .other bytes => bytes
  | .pack spellings => field.packForm (spellings.flatMap Spelling.form)
  | .single spelling => Wire.headerForm field.kind.wireType field.tag ++ spelling.form

def spellings : Part field → List (Spelling field)
  | .other _ => []
  | .pack spellings => spellings
  | .single spelling => [spelling]

def others : Part field → List Bytes
  | .other bytes => [bytes]
  | .pack _ | .single _ => []

def values (part : Part field) : List Scalar := part.spellings.map Spelling.value

/-- What a handler is to know of the part, and what goes on beside it. -/
def events : Part field → List Part.Event
  | .other bytes => [.record bytes]
  | .pack spellings => spellings.map fun spelling => .number spelling.value
  | .single spelling => [.number spelling.value]

theorem numbers_events (part : Part field) : part.events.filterMap Part.Event.number? = part.values := by
  cases part with
  | other bytes => rfl
  | pack spellings => simp [events, values, Part.spellings, Function.comp_def, Part.Event.number?]
  | single spelling => rfl

/-- What stands in between are whole records with other numbers, and a block has a length that can be
written. -/
def Complete : Part field → Prop
  | .other bytes => Wire.Record bytes ∧ Wire.number? bytes ≠ some field.tag
  | .pack spellings => (spellings.flatMap Spelling.form).length < 2 ^ 32
  | .single _ => True

/-- The part is a record. -/
theorem Complete.record {part : Part field} (h : part.Complete) (hk : field.kind.isScalar = true)
    (hpos : 0 < field.tag) (hle : field.tag ≤ Wire.maxFieldNumber) : Wire.Record part.record := by
  cases part with
  | other bytes => exact h.1
  | pack spellings => exact (Wire.recordOf_of_reads hpos hle (Wire.reads_delimitedForm h)).record
  | single spelling =>
    have htag := Wire.result_nextTag_headerForm hpos hle field.kind.wireType spelling.form
    have hread := Wire.result_readTag_of_nextTag (Input.at_ofBytes _) htag
    -- a number is skipped as it is read, so all of its bytes are
    have hturn : Decode.Turns False (Decode.number field : Decode Bytes Unit Scalar) spelling.form ([], [])
        (field.kind.carry spelling.value) ([], []) := Decode.turns_onInput spelling.reads
    have hresult := hturn [] spelling.form.length (Wire.headerForm field.kind.wireType field.tag).length true
      (Nat.le_refl _) False.elim
    rw [List.append_nil, Nat.sub_self] at hresult
    obtain ⟨count, skipped, hafter, hskip, hskipped⟩ := Decode.passes_number hk ⟨rfl, rfl, rfl⟩ hresult
    exact ⟨_, _, _, skipped, hread, hskip, hskipped.left_eq.trans hafter.left_eq.symm⟩

end Part

-- ---------------------------------------------------------------------------
-- Records of the field
-- ---------------------------------------------------------------------------

namespace Decode

variable [Handler Ref S] {config : DecodeConfig} {nested : Ref → Decode Bytes S Unit} {depth : Nat}
  {type : WireType} {content : Bytes} {before : Bytes × List S} {part : Part field} {place : Nat}

/-- A record for a field that the table has does what is enacted behind its header. -/
theorem alone_of_enacts (hfits : table.Fits schema) (hf : field ∈ table.fields) (ha : field.accepts type = true)
    {act : Step (Bytes × List S) CodecError Unit}
    (h : Enacts True (if field.isHandled then handled config depth field type
      else stored schema config nested table field type) content act before) :
    (alone schema config nested depth table (Wire.headerForm type field.tag ++ content)).result before =
      act.result before := by
  have htag := Wire.result_nextTag_headerForm (hfits.tag_pos field hf) (hfits.tag_le field hf) type content
  rw [result_alone_of_accepts hfits.tags_ne hf ha htag]
  rcases hr : act.result before with ⟨failure | _, after⟩
  · obtain ⟨input, hstop⟩ := h.error hr [] content.length (Wire.headerForm type field.tag).length true
      (Nat.le_refl _) fun _ => rfl
    rw [List.append_nil] at hstop
    rw [hstop]
    rfl
  · have hturn := h.ok hr [] content.length (Wire.headerForm type field.tag).length true (Nat.le_refl _)
      fun _ => rfl
    rw [List.append_nil] at hturn
    rw [hturn]
    rfl

section

variable (hfits : table.Fits schema) (hf : field ∈ table.fields) (hk : field.kind.isScalar = true)
  (hc : part.Complete) (hown : part.others = [])

include hfits hf hk hc hown

/-- The numbers of a record are appended to the array one by one. -/
theorem alone_array (hh : field.isHandled = false) (hm : field.multiplicity = .repeated) :
    (alone schema config nested depth table part.record).result before =
      (part.spellings.forM fun spelling =>
        onBytes (field.takeNumber (field.kind.carry spelling.value))).result before := by
  cases part with
  | other bytes => cases hown
  | pack spellings =>
    refine alone_of_enacts hfits hf (by simp [Field.accepts, hk, Field.isRepeated, hm]) ?_
    rw [if_neg (by simp [hh]), stored]
    simp only [hm]
    rw [if_pos ⟨trivial, hk⟩]
    exact enacts_length hc (enacts_packedElements (fun spelling _ => ⟨spelling.form_ne_nil, spelling.reads⟩)
      (Nat.le_refl _)).within
  | single spelling =>
    refine (alone_of_enacts hfits hf field.accepts_wireType ?_).trans
      (congrArg (Step.result · before) (bind_pure_unit).symm)
    rw [if_neg (by simp [hh]), stored]
    simp only [hm]
    rw [if_neg fun h => Kind.wireType_ne_delimited hk h.1]
    exact enacts_element hk spelling.reads

/-- The numbers of a record are given to the handler one by one. -/
theorem alone_handled (hh : field.isHandled = true) (hslot : field.handlerSlot before.1 = .ok (place + 1))
    (hlt : place < before.2.length) :
    (alone schema config nested depth table part.record).result before =
      (part.spellings.forM fun spelling =>
        onHandler field (place + 1) (Handler.takeScalar field (field.kind.carry spelling.value))).result before := by
  cases part with
  | other bytes => cases hown
  | pack spellings =>
    refine alone_of_enacts hfits hf (by simp [Field.accepts, hk, hh]) ?_
    rw [if_pos hh]
    refine Enacts.congr ?_ fun input => result_handled hslot hlt
    rw [if_pos rfl]
    refine enacts_length hc (Enacts.within ?_)
    rw [if_pos hk]
    exact enacts_handledElements (place + 1) (fun spelling _ => ⟨spelling.form_ne_nil, spelling.reads⟩)
      (Nat.le_refl _)
  | single spelling =>
    refine (alone_of_enacts hfits hf field.accepts_wireType ?_).trans
      (congrArg (Step.result · before) (bind_pure_unit).symm)
    rw [if_pos hh]
    refine Enacts.congr ?_ fun input => result_handled hslot hlt
    rw [if_neg (Kind.wireType_ne_delimited hk)]
    exact enacts_handledNumber (place + 1) spelling.reads

end

-- ---------------------------------------------------------------------------
-- Runs
-- ---------------------------------------------------------------------------

variable {parts : List (Part field)} {x y y' : Bytes × List S}

/-- What stands in between has nothing to do with the places of the field. -/
theorem local_other (htags : table.fields.Pairwise (·.tag ≠ ·.tag)) (hd : table.Separate (· = field))
    (hn : ∀ inner, Step.Local everywhere everywhere (nested inner)) (hf : field ∈ table.fields)
    (hg : field.group? = none) {bytes : Bytes} (hc : (Part.other bytes : Part field).Complete) :
    Step.Local (fun place => ¬field.extent place) (fun place => ¬field.extent place)
      (alone schema config nested depth table bytes) :=
  local_alone_of_other htags hd hn hf hc.1 (lane?_ne_of_number hg hc.2)

section

variable (hfits : table.Fits schema) (hf : field ∈ table.fields) (hk : field.kind.isScalar = true)
  (hd : table.Separate (· = field)) (hlaid : field.Laid schema table.size)
  (hm : field.multiplicity = .repeated) (hcap : field.capacity < 2 ^ 32)

include hfits hf hk hd hlaid hm hcap

/-- A record of an array puts its numbers behind those that are there, or there are too many. -/
theorem ends_own (hc : part.Complete) (hown : part.others = []) (hs : table.size ≤ x.1.length)
    (hholds : field.Holds numbers x.1) (hle : numbers.length ≤ field.capacity) :
    (alone schema config nested depth table part.record).Ends x
      (fun _ x' => numbers.length + part.values.length ≤ field.capacity ∧
        Step.Same (fun place => ¬field.extent place) x x' ∧
        field.Holds (numbers ++ part.values.map field.kind.narrow) x'.1)
      fun failure _ => field.capacity < numbers.length + part.values.length ∧
        failure = .arrayFull field.name field.capacity := by
  have hvalues : part.values.map field.kind.narrow = part.spellings.map fun spelling =>
      field.kind.narrow (field.kind.carry spelling.value) := by
    simp [Part.values, Kind.narrow_carry]
  have hlength : part.values.length = part.spellings.length := List.length_map ..
  rw [hvalues, hlength]
  refine ((hholds.takeNumbers hlaid (hd field hf rfl).1 hm hk hcap hs hle part.spellings
    (fun spelling => field.kind.carry spelling.value) x.2).mono (fun _ x' h => ?_) fun _ _ h => h).congr
      (alone_array hfits hf hk hc hown hlaid.inBlock hm)
  exact ⟨h.1, ⟨h.2.1.symm, h.2.2.2⟩, h.2.2.1⟩

/-- The records of an array leave what the records in between make without them, and all numbers behind
those that were there; or there are too many. -/
theorem ends_array (hn : ∀ inner, Step.Local everywhere everywhere (nested inner))
    (hc : ∀ part ∈ parts, part.Complete) (hsame : Step.Same (fun place => ¬field.extent place) x y)
    (hs : table.size ≤ x.1.length) (hholds : field.Holds numbers x.1) (hle : numbers.length ≤ field.capacity)
    (hbase : ((parts.flatMap Part.others).forM (alone schema config nested depth table)).result y = (.ok (), y')) :
    Step.Ends ((parts.map Part.record).forM (alone schema config nested depth table)) x
      (fun _ x' => numbers.length + (parts.flatMap Part.values).length ≤ field.capacity ∧
        Step.Same (fun place => ¬field.extent place) x' y' ∧
        field.Holds (numbers ++ (parts.flatMap Part.values).map field.kind.narrow) x'.1)
      fun failure _ => field.capacity < numbers.length + (parts.flatMap Part.values).length ∧
        failure = .arrayFull field.name field.capacity := by
  induction parts generalizing x y numbers with
  | nil =>
    cases hbase
    exact .of_ok rfl ⟨hle, hsame, by simpa using hholds⟩
  | cons part parts ih =>
    obtain ⟨hpart, hparts⟩ := List.forall_mem_cons.mp hc
    rw [List.flatMap_cons] at hbase ⊢
    rw [List.map_cons, List.forM, List.length_append, List.map_append, ← List.append_assoc, ← Nat.add_assoc]
    have hgrown : (numbers ++ part.values.map field.kind.narrow).length = numbers.length + part.values.length := by
      simp
    cases part with
    | other bytes =>
      -- the record does the same here as without the numbers, and keeps them
      have hlocal : Step.Local _ _ (alone schema config nested depth table bytes) :=
        local_other hfits.tags_ne hd hn hf (by simp [Field.group?, hm]) hpart
      obtain ⟨_, middle, hr, hrest⟩ := Step.result_bind_eq_ok.mp hbase
      obtain ⟨hout, hafter⟩ := hlocal.alike hsame
      have hkeeps := hlocal.keeps x
      rcases hx : (alone schema config nested depth table bytes).result x with ⟨outcome, x₁⟩
      rw [hx, hr] at hout hafter
      rw [hx] at hkeeps
      obtain rfl : outcome = .ok () := hout
      have hholds' : field.Holds numbers x₁.1 :=
        hholds.congr hlaid.inBlock hm hle (hkeeps.mono fun _ hp => not_not.mpr hp)
      rw [show (Part.other bytes : Part field).values = [] from rfl, List.map_nil, List.append_nil, List.length_nil,
        Nat.add_zero]
      exact (ih hparts hafter (hkeeps.1 ▸ hs) hholds' hle hrest).congr (Step.result_bind_ok hx)
    | pack spellings | single spelling =>
      refine ((ends_own hfits hf hk hd hlaid hm hcap hpart rfl hs hholds hle).mono (fun _ _ h => h)
        fun failure _ h => ⟨by omega, h.2⟩).bind fun _ x' h => ?_
      obtain ⟨hroom, hstay, hholds'⟩ := h
      rw [← hgrown]
      exact ih hparts ⟨hstay.aside_eq.symm.trans hsame.aside_eq, hstay.agree.symm.trans hsame.agree⟩
        (hstay.agree.1 ▸ hs) hholds' (by omega) hbase

end

-- ---------------------------------------------------------------------------
-- Runs of a handler
-- ---------------------------------------------------------------------------

/-- The field is bound to the handler at a place in the list. -/
structure Bound (field : Field Ref) (place : Nat) (rest : Bytes × List S) : Prop where
  slot : field.handlerSlot rest.1 = .ok (place + 1)
  lt : place < rest.2.length

/-- An event: a record is decoded on its own, and a number is given to the handler. -/
def perform (schema : Schema Ref) (config : DecodeConfig) (nested : Ref → Decode Bytes S Unit) (depth : Nat)
    (table : Table Ref) (field : Field Ref) (slot : Nat) : Part.Event → Step (Bytes × List S) CodecError Unit
  | .record bytes => alone schema config nested depth table bytes
  | .number value => onHandler field slot (Handler.takeScalar field (field.kind.carry value))

omit [Handler Ref S] in
theorem Bound.onHandler (h : Bound field place x) {slot : Nat} {step : Step S CodecError Unit} :
    (onHandler field slot step).Ends x (fun _ x' => Bound field place x') fun _ _ => True := by
  rcases hr : (BlockCodec.onHandler field slot step).result x with ⟨failure | _, x'⟩
  · exact .of_error hr trivial
  · refine .of_ok hr ?_
    simp only [BlockCodec.onHandler, Step.result_ofRun] at hr
    split at hr
    · cases hr
    · obtain rfl := (Prod.mk.inj hr).2
      exact ⟨h.slot, by simpa using h.lt⟩

section

variable (hfits : table.Fits schema) (hf : field ∈ table.fields) (hd : table.Separate (· = field))
  (hh : field.isHandled = true) (hn : ∀ inner, Step.Local everywhere everywhere (nested inner))
  (hcount : ∀ inner, SameCount (nested inner))

include hfits hf hd hh hn hcount

/-- A field stays bound over records for others. -/
theorem Bound.alone (h : Bound field place x) {bytes : Bytes} (hc : (Part.other bytes : Part field).Complete) :
    (alone schema config nested depth table bytes).Ends x (fun _ x' => Bound field place x')
      fun _ _ => True := by
  have hg : field.group? = none := (hfits.handled field hf hh).group_eq
  have hlocal : Step.Local _ _ (Decode.alone schema config nested depth table bytes) :=
    local_other hfits.tags_ne hd hn hf hg hc
  have hkeeps := hlocal.keeps x
  have hslot : field.handlerSlot ((Decode.alone schema config nested depth table bytes).result x).2.1 =
      field.handlerSlot x.1 := Field.handlerSlot_congr (hkeeps.slice fun place hp => not_not.mpr
    ⟨field.data, by simp [Field.spans, hh], hp⟩)
  have hlength : ((Decode.alone schema config nested depth table bytes).result x).2.2.length = x.2.length :=
    sameCount_nextField hcount ⟨.ofBytes bytes, x.1, x.2⟩
  rcases hr : (Decode.alone schema config nested depth table bytes).result x with ⟨failure | _, x'⟩
  · exact .of_error hr trivial
  · rw [hr] at hslot hlength
    exact .of_ok hr ⟨hslot.trans h.slot, hlength ▸ h.lt⟩

/-- A field stays bound over all that happens in a part. -/
theorem Bound.perform (h : Bound field place x) (hc : part.Complete) :
    (part.events.forM (perform schema config nested depth table field (place + 1))).Ends x
      (fun _ x' => Bound field place x') fun _ _ => True := by
  refine Step.Ends.forM (fun event he x hx => ?_) h
  cases part with
  | other bytes =>
    obtain rfl := List.mem_singleton.mp he
    exact hx.alone hfits hf hd hh hn hcount hc
  | pack spellings =>
    obtain ⟨spelling, -, rfl⟩ := List.mem_map.mp he
    exact hx.onHandler
  | single spelling =>
    obtain rfl := List.mem_singleton.mp he
    exact hx.onHandler

/-- The records of a handled field do what happens in them, one after the other. -/
theorem result_events (hk : field.kind.isScalar = true) (h : Bound field place x)
    (hc : ∀ part ∈ parts, part.Complete) :
    ((parts.map Part.record).forM (Decode.alone schema config nested depth table)).result x =
      ((parts.flatMap Part.events).forM
        (Decode.perform schema config nested depth table field (place + 1))).result x := by
  induction parts generalizing x with
  | nil => rfl
  | cons part parts ih =>
    obtain ⟨hpart, hparts⟩ := List.forall_mem_cons.mp hc
    have hfirst : (Decode.alone schema config nested depth table part.record).result x =
        (part.events.forM (Decode.perform schema config nested depth table field (place + 1))).result x := by
      cases part with
      | other bytes => exact congrArg (Step.result · x) (bind_pure_unit).symm
      | pack spellings =>
        rw [alone_handled hfits hf hk hpart rfl hh h.slot h.lt, Part.events, List.forM_eq_forM, List.forM_eq_forM,
          List.forM_map]
        rfl
      | single spelling => exact alone_handled hfits hf hk hpart rfl hh h.slot h.lt
    have hevents : (part.events ++ parts.flatMap Part.events).forM
        (Decode.perform schema config nested depth table field (place + 1)) =
          part.events.forM (Decode.perform schema config nested depth table field (place + 1)) >>= fun _ =>
            (parts.flatMap Part.events).forM
              (Decode.perform schema config nested depth table field (place + 1)) := List.forM_append
    rw [List.map_cons, List.forM, List.flatMap_cons, hevents]
    rcases hr : (part.events.forM (Decode.perform schema config nested depth table field (place + 1))).result x with
      ⟨failure | _, x'⟩
    · rw [Step.result_bind_error (hfirst.trans hr), Step.result_bind_error hr]
    · rw [Step.result_bind_ok (hfirst.trans hr), Step.result_bind_ok hr]
      exact ih ((h.perform hfits hf hd hh hn hcount hpart).ok hr) hparts

end

-- ---------------------------------------------------------------------------
-- Messages
-- ---------------------------------------------------------------------------

/-- The headers of an array are those of the records in between, but for its own number. -/
theorem mem_headers (hfits : table.Fits schema) (hf : field ∈ table.fields) {header : Nat × WireType}
    (hne : header.1 ≠ field.tag) : header ∈ (parts.map Part.record).filterMap Wire.header? ↔
      header ∈ (parts.flatMap Part.others).filterMap Wire.header? := by
  have hown : ∀ type content, Wire.header? (Wire.headerForm type field.tag ++ content) = some header →
      header.1 = field.tag := fun type content hheader => by
    rw [Wire.header?_eq_some.mpr ⟨_, Wire.result_nextTag_headerForm (hfits.tag_pos field hf)
      (hfits.tag_le field hf) type content⟩] at hheader
    exact congrArg Prod.fst (Option.some.inj hheader).symm
  simp only [List.mem_filterMap, List.mem_map, List.mem_flatMap]
  constructor
  · rintro ⟨_, ⟨part, hpart, rfl⟩, hheader⟩
    cases part with
    | other bytes => exact ⟨bytes, ⟨_, hpart, List.mem_singleton_self bytes⟩, hheader⟩
    | pack spellings | single spelling => exact absurd (hown _ _ hheader) hne
  · rintro ⟨bytes, ⟨part, hpart, hbytes⟩, hheader⟩
    cases part with
    | other record =>
      obtain rfl := List.mem_singleton.mp hbytes
      exact ⟨_, ⟨_, hpart, rfl⟩, hheader⟩
    | pack spellings | single spelling => cases hbytes

/-- An array is not required, so its records have no part in the verdict. -/
theorem verdict_others (hfits : table.Fits schema) (hf : field ∈ table.fields)
    (hm : field.multiplicity = .repeated) :
    table.verdict ((parts.map Part.record).filterMap Wire.header?) =
      table.verdict ((parts.flatMap Part.others).filterMap Wire.header?) := by
  have hlacking : table.lacking? ((parts.map Part.record).filterMap Wire.header?) =
      table.lacking? ((parts.flatMap Part.others).filterMap Wire.header?) := by
    refine List.find?_congr fun other ho => ?_
    by_cases ht : other.tag = field.tag
    · rw [Table.eq_of_tag_eq hfits.tags_ne hf ho ht]
      have hnot : field.isRequired = false := by rw [Field.isRequired, hm]; rfl
      rw [hnot, Bool.false_and, Bool.false_and]
    · refine congrArg (fun found => other.isRequired && !found) (Bool.eq_iff_iff.mpr ?_)
      rw [Field.occursIn_iff, Field.occursIn_iff]
      exact exists_congr fun type => and_congr_left' (mem_headers hfits hf ht)
  rw [Table.verdict, hlacking, Table.verdict]

-- ---------------------------------------------------------------------------
-- Packed and unpacked numbers
-- ---------------------------------------------------------------------------

variable [Source σ] [Supply σ] {ref : Ref}

/-- The parts of a message are records, and so is all that stands in between. -/
theorem records_of_parts (hfits : table.Fits schema) (hf : field ∈ table.fields) (hk : field.kind.isScalar = true)
    (hc : ∀ part ∈ parts, part.Complete) : (∀ bytes ∈ parts.map Part.record, Wire.Record bytes) ∧
      ∀ bytes ∈ parts.flatMap Part.others, Wire.Record bytes := by
  constructor
  · intro bytes hb
    obtain ⟨part, hpart, rfl⟩ := List.mem_map.mp hb
    exact (hc part hpart).record hk (hfits.tag_pos field hf) (hfits.tag_le field hf)
  · intro bytes hb
    obtain ⟨part, hpart, hbytes⟩ := List.mem_flatMap.mp hb
    cases part with
    | other record => exact List.mem_singleton.mp hbytes ▸ (hc _ hpart).1
    | pack | single => cases hbytes

/-- A message of records is decoded as the series of them over the block as it has been initialised. -/
theorem result_decodeMessage (config : DecodeConfig) (hvalid : Table.validate schema ref = .ok ())
    (hm : Handler.Modest Ref σ Bytes S) {records : List Bytes} (hr : ∀ bytes ∈ records, Wire.Record bytes)
    {x : Decoding σ S} {initial : Bytes}
    (hx : Offers x records.flatten) (hinit : (schema.initialise ref).result x.block = (.ok (), initial)) :
    let run := (decodeMessage schema config ref).result x
    (run.1, Reader.rest run.2) =
      (series schema config config.maxDepth ref records).result (initial, x.handlers) := by
  have hblock : (onBlock (schema.initialise ref) : Decode σ S Unit).result x = (.ok (), { x with block := initial }) :=
    result_onBlock_eq_ok.mpr ⟨hinit, rfl⟩
  rw [decodeMessage, Step.result_bind_ok hblock]
  exact result_messageWithin (counted_of_validate hvalid).here hm hr (x := { x with block := initial }) hx
    (Schema.size_le_of_initialise hinit) config.maxDepth

/-- A fresh array holds nothing. -/
theorem holds_of_initialise (hfits : (schema ref).Fits schema) (hf : field ∈ (schema ref).fields)
    (hd : (schema ref).Separate (· = field)) (hh : field.isHandled = false)
    (hlaid : field.Laid schema (schema ref).size) (hm : field.multiplicity = .repeated)
    (hinit : (schema.initialise ref).result block = (.ok (), after)) : field.Holds [] after where
  slot := by
    have hfresh := Table.fresh_of_reset hfits.tags_ne hd (Schema.keepsLength_initialiseWithin schema _) hinit field hf
      rfl hh
    exact hfresh.slot_eq_zero hlaid (hlaid.slot_isSome (.inl (by simp [Field.isRepeated, hm])))
  held := nofun

/-- The series of an array ends as that of the records in between, with all numbers in the array; or there are
too many. -/
theorem ends_series (hfits : (schema ref).Fits schema) (hf : field ∈ (schema ref).fields)
    (hk : field.kind.isScalar = true) (hd : (schema ref).Separate (· = field))
    (hlaid : field.Laid schema (schema ref).size) (hm : field.multiplicity = .repeated)
    (hcap : field.capacity < 2 ^ 32) (hc : ∀ part ∈ parts, part.Complete)
    (hs : (schema ref).size ≤ x.1.length) (hholds : field.Holds [] x.1) {levels : Nat}
    (hbase : (series schema config levels ref (parts.flatMap Part.others)).result x = (.ok (), y)) :
    (series schema config levels ref (parts.map Part.record)).Ends x
      (fun _ x' => (parts.flatMap Part.values).length ≤ field.capacity ∧
        Step.Same (fun place => ¬field.extent place) x' y ∧
        field.Holds ((parts.flatMap Part.values).map field.kind.narrow) x'.1)
      fun failure _ => field.capacity < (parts.flatMap Part.values).length ∧
        failure = .arrayFull field.name field.capacity := by
  obtain ⟨_, y', hrun, hend⟩ := Step.result_bind_eq_ok.mp hbase
  obtain ⟨hverdict, rfl⟩ := Prod.mk.inj hend
  have hnested := local_messageWithin_everywhere (σ := Bytes) (S := S) schema config levels
  have harray := ends_array hfits hf hk hd hlaid hm hcap hnested hc ⟨rfl, .refl _ _⟩ hs hholds (Nat.zero_le _) hrun
  rw [List.length_nil, Nat.zero_add, List.nil_append] at harray
  refine harray.bind fun _ x' h => ?_
  rw [verdict_others hfits hf hm, hverdict]
  exact .of_ok rfl h

/-- Packed and unpacked numbers mix freely. However the numbers of a field are cut into blocks and single ones,
with records for other fields in between, an array holds all of them, or is found full, and everything else is
as the other records leave it; and what a handler is given, and does, are the numbers one after the other. -/
theorem numbers_mix (hvalid : Table.validate schema ref = .ok ()) (hf : field ∈ (schema ref).fields)
    (hk : field.kind.isScalar = true) (hd : (schema ref).Separate (· = field))
    (hm : Handler.Modest Ref σ Bytes S) (config : DecodeConfig) (hc : ∀ part ∈ parts, part.Complete)
    (x : Decoding σ S) (hx : Offers x (parts.map Part.record).flatten) :
    (field.expectArray = .ok () → field.capacity < 2 ^ 32 →
      ∀ (y base : Decoding σ S), Offers y (parts.flatMap Part.others).flatten → Reader.rest y = Reader.rest x →
        (decodeMessage schema config ref).result y = (.ok (), base) →
        let values := parts.flatMap Part.values
        if values.length ≤ field.capacity then
          ∃ last, (decodeMessage schema config ref).result x = (.ok (), last) ∧
            View.count ⟨schema ref, last.block⟩ field.tag = .ok values.length ∧
            (∀ index (h : index < values.length),
              View.getAt ⟨schema ref, last.block⟩ field.tag index = .ok (field.kind.narrow values[index])) ∧
            Step.Same (fun place => ¬field.extent place) (Reader.rest last) (Reader.rest base)
        else ∃ last, (decodeMessage schema config ref).result x =
          (.error (.arrayFull field.name field.capacity), last)) ∧
    (field.isHandled = true → ∀ place initial, field.handlerSlot x.block = .ok (place + 1) →
      place < x.handlers.length → (schema.initialise ref).result x.block = (.ok (), initial) →
      let events := parts.flatMap Part.events
      let run := (decodeMessage schema config ref).result x
      (run.1, Reader.rest run.2) = (do
        events.forM (perform schema config (messageWithin schema config config.maxDepth) 0 (schema ref) field
          (place + 1))
        .ofExcept ((schema ref).verdict ((parts.map Part.record).filterMap Wire.header?)) :
          Step (Bytes × List S) CodecError Unit).result (initial, x.handlers) ∧
      events.filterMap Part.Event.number? = parts.flatMap Part.values) := by
  have hfits := (Schema.fits_of_validate hvalid).here
  obtain ⟨hrecords, hothers⟩ := records_of_parts hfits hf hk hc
  refine ⟨fun harray hcap y base hy hsame hbase => ?_, fun hh place initial hslot hlt hinit => ?_⟩
  · obtain ⟨hh, hmult⟩ := Update.array_of_expect harray
    have hlaid := (Schema.slotted_of_validate hvalid).here field hf hh (by simp [hmult])
    obtain ⟨_, after, hinit, -⟩ := Step.result_bind_eq_ok.mp hbase
    obtain ⟨hinit, -⟩ := result_onBlock_eq_ok.mp hinit
    obtain ⟨hblock, hhandlers⟩ := Prod.mk.inj hsame
    have hholds : field.Holds [] after.block := holds_of_initialise hfits hf hd hh hlaid hmult hinit
    have hseries := result_decodeMessage config hvalid hm hothers hy hinit
    rw [hbase] at hseries
    have hends := ends_series hfits hf hk hd hlaid hmult hcap hc (Schema.size_le_of_initialise hinit) hholds
      hseries.symm
    have hrun := result_decodeMessage config hvalid hm hrecords hx (hblock ▸ hinit)
    rw [← hhandlers] at hrun
    have hlength : ((parts.flatMap Part.values).map field.kind.narrow).length = (parts.flatMap Part.values).length :=
      List.length_map ..
    rcases hlast : (decodeMessage schema config ref).result x with ⟨failure | _, last⟩ <;> rw [hlast] at hrun
    · obtain ⟨hfull, rfl⟩ := hends.error hrun.symm
      rw [if_neg (by omega)]
      exact ⟨last, rfl⟩
    · obtain ⟨hroom, hsame', hlast'⟩ := hends.ok hrun.symm
      rw [if_pos hroom]
      refine ⟨last, rfl, ?_, fun index hi => ?_, hsame'⟩
      · exact hlength ▸ hlast'.count_eq hfits.tags_ne hf hh hmult (hlength ▸ hroom)
      · have hget := hlast'.getAt_eq hfits.tags_ne hf harray (by rw [Field.expectScalar, if_pos hk])
          (hlength ▸ hroom) (hlength ▸ hi)
        rwa [List.getElem_map] at hget
  · have hkept := Schema.handlerSlot_initialiseWithin (maxInitialDepth + 1) x.block hfits hf hh (hd field hf rfl).2
    rw [← Schema.initialise, hinit] at hkept
    have hlocal := local_messageWithin_everywhere (σ := Bytes) (S := S) schema config config.maxDepth
    have hcount := sameCount_messageWithin (σ := Bytes) (S := S) schema config config.maxDepth
    have hbound : Bound field place (initial, x.handlers) := ⟨hkept.trans hslot, hlt⟩
    refine ⟨(result_decodeMessage config hvalid hm hrecords hx hinit).trans ?_, ?_⟩
    · rw [series, Nat.sub_self, Step.result_bind, Step.result_bind,
        result_events hfits hf hd hh hlocal hcount hk hbound hc]
    · rw [List.filterMap_flatMap]
      exact congrArg (parts.flatMap ·) (funext Part.numbers_events)

/-- Numbers that are kept in an array. -/
def samples : Field Unit := (Field.ofStorage 1 "samples" (.varint ⟨.w32, false⟩) 4 4).repeated 0 3

/-- Numbers that go through a handler. -/
def hits : Field Unit := (Field.ofStorage 2 "hits" (.varint ⟨.w32, false⟩) 16 2).implicit.handled

def tally : Schema Unit := fun _ => ⟨"Tally", [samples, hits], 18⟩

/-- Two samples in a block, a hit, and a sample on its own: as the samples see it, and as the hits do. -/
theorem numbers_mix_tally :
    Table.validate tally () = .ok () ∧ samples ∈ (tally ()).fields ∧ hits ∈ (tally ()).fields ∧
    samples.kind.isScalar = true ∧ hits.kind.isScalar = true ∧
    (tally ()).Separate (· = samples) ∧ (tally ()).Separate (· = hits) ∧
    ∃ start : Decoding Bytes Collector,
      start = ⟨.ofBytes [0x0a, 3, 1, 0xac, 2, 0x10, 5, 8, 7], Bytes.zeros 16 ++ [1, 0], [.scalars []]⟩ ∧
      (∃ last, (decodeMessage tally {} ()).result start = (.ok (), last) ∧
        View.count ⟨tally (), last.block⟩ 1 = .ok 3 ∧
        View.getAt ⟨tally (), last.block⟩ 1 1 = .ok (.unsigned 300)) ∧
      let run := (decodeMessage tally {} ()).result start
      (run.1, Reader.rest run.2) = (do
        [.record [0x0a, 3, 1, 0xac, 2], .number (.unsigned 5), .record [8, 7]].forM
          (perform tally {} (messageWithin tally {} 32) 0 (tally ()) hits 1)
        .ofExcept (.ok ()) : Step (Bytes × List Collector) CodecError Unit).result
          (Bytes.zeros 16 ++ [1, 0], [.scalars []]) := by
  have hvalid : Table.validate tally () = .ok () := rfl
  have hsamples : samples ∈ (tally ()).fields := by decide
  have hhits : hits ∈ (tally ()).fields := by decide
  have hown : (tally ()).Separate (· = samples) := by decide
  have hown' : (tally ()).Separate (· = hits) := by decide
  let parts : List (Part samples) := [.pack [.written rfl (.unsigned 1), .written rfl (.unsigned 300)],
    .other [0x10, 5], .single (.written rfl (.unsigned 7))]
  let parts' : List (Part hits) := [.other [0x0a, 3, 1, 0xac, 2], .single (.written rfl (.unsigned 5)), .other [8, 7]]
  have hhit : Wire.Record [0x10, 5] := ⟨2, .varint, ⟨[5], 1, 1, true⟩, ⟨[], 0, 2, true⟩, rfl, by cbv, rfl⟩
  have hpack : Wire.Record [0x0a, 3, 1, 0xac, 2] :=
    ⟨1, .delimited, ⟨[3, 1, 0xac, 2], 4, 1, true⟩, ⟨[], 0, 5, true⟩, rfl, by cbv, rfl⟩
  have hsingle : Wire.Record [8, 7] := ⟨1, .varint, ⟨[7], 1, 1, true⟩, ⟨[], 0, 2, true⟩, rfl, by cbv, rfl⟩
  have hc : ∀ part ∈ parts, part.Complete := by
    simp only [parts, List.forall_mem_cons]
    refine ⟨?_, ⟨hhit, by decide⟩, trivial, List.forall_mem_nil _⟩
    show _ < _
    decide
  have hc' : ∀ part ∈ parts', part.Complete := by
    simp only [parts', List.forall_mem_cons]
    exact ⟨⟨hpack, by decide⟩, trivial, ⟨hsingle, by decide⟩, List.forall_mem_nil _⟩
  let start : Decoding Bytes Collector :=
    ⟨.ofBytes [0x0a, 3, 1, 0xac, 2, 0x10, 5, 8, 7], Bytes.zeros 16 ++ [1, 0], [.scalars []]⟩
  have hflat : (parts.map Part.record).flatten = [0x0a, 3, 1, 0xac, 2, 0x10, 5, 8, 7] := rfl
  have hflat' : (parts'.map Part.record).flatten = [0x0a, 3, 1, 0xac, 2, 0x10, 5, 8, 7] := rfl
  have hx : Offers start [0x0a, 3, 1, 0xac, 2, 0x10, 5, 8, 7] :=
    ⟨_, _, Input.at_ofBytes _, Nat.le_refl _⟩
  refine ⟨hvalid, hsamples, hhits, rfl, rfl, hown, hown', start, rfl, ?_, ?_⟩
  · have harray := (numbers_mix hvalid hsamples rfl hown Handler.modest_collector {} hc start (hflat ▸ hx)).1 rfl
      (show 3 < 2 ^ 32 by omega)
      ⟨.ofBytes [0x10, 5], Bytes.zeros 16 ++ [1, 0], [.scalars []]⟩ _ ⟨2, 0, ⟨rfl, rfl, rfl⟩, by decide⟩ rfl (by cbv)
    rw [if_pos (by decide)] at harray
    obtain ⟨last, hlast, hcount, hget, -⟩ := harray
    exact ⟨last, hlast, hcount, hget 1 (by decide)⟩
  · exact ((numbers_mix hvalid hhits rfl hown' Handler.modest_collector {} hc' start (hflat' ▸ hx)).2 rfl 0 _ rfl
      (by decide) rfl).1

/-- An array whose count lies where the number of a lap is kept. -/
def relay : Schema Unit := fun _ =>
  ⟨"Relay", [(Field.ofStorage 1 "times" (.varint ⟨.w32, false⟩) 4 4).repeated 0 2,
    .ofStorage 2 "lap" (.varint ⟨.w32, false⟩) 0 4], 12⟩

/-- Where its count is overwritten by another field, an array loses what it holds. -/
theorem numbers_mix_overlapped :
    Table.validate relay () = .ok () ∧
    ∃ times ∈ (relay ()).fields, times.expectArray = .ok () ∧ times.kind.isScalar = true ∧ times.capacity = 2 ∧
      ∃ parts : List (Part times), (∀ part ∈ parts, part.Complete) ∧
        parts.flatMap Part.values = [.unsigned 7] ∧ (parts.map Part.record).flatten = [8, 7, 0x10, 0] ∧
        ∃ last, decodeBytes relay () [8, 7, 0x10, 0] (Bytes.zeros 12) = (.ok (), last) ∧
          View.count ⟨relay (), last⟩ times.tag = .ok 0 := by
  let times : Field Unit := (Field.ofStorage 1 "times" (.varint ⟨.w32, false⟩) 4 4).repeated 0 2
  let parts : List (Part times) := [.single (.written rfl (.unsigned 7)), .other [0x10, 0]]
  have hlap : Wire.Record [0x10, 0] := ⟨2, .varint, ⟨[0], 1, 1, true⟩, ⟨[], 0, 2, true⟩, rfl, by cbv, rfl⟩
  have hc : ∀ part ∈ parts, part.Complete := by
    simp only [parts, List.forall_mem_cons]
    exact ⟨trivial, ⟨hlap, by decide⟩, List.forall_mem_nil _⟩
  have hdecode : decodeBytes relay () [8, 7, 0x10, 0] (Bytes.zeros 12) =
      (.ok (), [0, 0, 0, 0, 7, 0, 0, 0, 0, 0, 0, 0]) := by cbv
  exact ⟨rfl, times, by decide, rfl, rfl, rfl, parts, hc, rfl, by cbv, _, hdecode, rfl⟩

end Decode

end BlockCodec
