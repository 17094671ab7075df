import BlockCodec.Proofs.Exclusion
import BlockCodec.Proofs.Storing

/-!
# Updates that are refused

An action on a view that fails leaves the block as it was, but for one case. A text or a byte string
takes its place before it is measured: the flag of its field is set, the member made active or the
element counted, and when the value then turns out too long, that stays done.
`Action.refused_or_overflows` says that there is no other case, and `setBytes_wipes_stamp` shows this one.
-/

namespace BlockCodec

variable {Ref α : Type} {schema : Schema Ref} {table : Table Ref} {ref inner : Ref} {field : Field Ref}
  {block after stored : Bytes} {tag levels : Nat} {failure : CodecError}

/-- A text or a byte string on its way into a field. -/
structure Parcel where
  tag : Nat
  /-- It goes into a new element of an array. -/
  pushed : Bool
  length : Nat
  /-- What its storage takes besides: a terminator, or the length in front. -/
  extra : Nat

def Action.parcel? : Action → Option Parcel
  | .setText tag text => some ⟨tag, false, (Bytes.ofText text).length, 1⟩
  | .setBytes tag bytes => some ⟨tag, false, bytes.length, 4⟩
  | .pushText tag text => some ⟨tag, true, (Bytes.ofText text).length, 1⟩
  | .pushBytes tag bytes => some ⟨tag, true, bytes.length, 4⟩
  | _ => none

/-- Takes the place of a value: the next element of an array, else the storage of the field, which is
marked present. -/
def Update.claim (schema : Schema Ref) (table : Table Ref) (field : Field Ref) : Edit Span :=
  if field.isRepeated then append field
  else do
    markPresent schema table field
    pure field.data

/-- The parcel is too long for the storage of the field, and `failure` says so. -/
def Parcel.Exceeds (parcel : Parcel) (field : Field Ref) (failure : CodecError) : Prop :=
  field.dataSize < parcel.length + parcel.extra ∧
    failure = .capacityExceeded field.name parcel.length (field.dataSize - parcel.extra)

/-- The parcel is refused as too long, and what was done to the block is to claim its place. -/
structure Parcel.Overflows (parcel : Parcel) (schema : Schema Ref) (table : Table Ref)
    (field : Field Ref) (block : Bytes) (failure : CodecError) (after : Bytes) : Prop where
  mem : field ∈ table.fields
  tag_eq : field.tag = parcel.tag
  pushed : field.isRepeated = parcel.pushed
  exceeds : parcel.Exceeds field failure
  claimed : ∃ span, (Update.claim schema table field).result block = (.ok span, after)

/-- What an update that fails leaves. -/
def Update.Refuses (schema : Schema Ref) (table : Table Ref) (parcel? : Option Parcel)
    (block : Bytes) (failure : CodecError) (after : Bytes) : Prop :=
  after = block ∨
    ∃ parcel ∈ parcel?, ∃ field, parcel.Overflows schema table field block failure after

namespace Update

-- ---------------------------------------------------------------------------
-- Storing
-- ---------------------------------------------------------------------------

/-- The edit of the storage of a value, when it fails, leaves it as it is and has found the parcel
too long. -/
def Careful (parcel? : Option Parcel) (field : Field Ref) (write : Edit α) : Prop :=
  ∀ stored : Bytes, stored.length = field.dataSize → write.Ends stored (fun _ _ => True)
    fun failure after => after = stored ∧ ∃ parcel ∈ parcel?, parcel.Exceeds field failure

theorem careful_storeScalar (value : Scalar) : Careful none field (storeScalar field value) :=
  fun _ _ => trivial

theorem careful_storeText (tag : Nat) (pushed : Bool) (text : String) :
    Careful (some ⟨tag, pushed, (Bytes.ofText text).length, 1⟩) field (storeText field text) := by
  intro stored hl
  refine Step.Ends.bind (P := fun value after => value = stored ∧ after = stored)
    (Step.ends_get ⟨rfl, rfl⟩) ?_
  rintro _ _ ⟨rfl, rfl⟩
  refine Step.ends_unless (fun hle => ⟨rfl, _, rfl, ?_, ?_⟩) fun _ => trivial
  · simp only
    omega
  · rw [← hl]

/-- Storage of bytes has room for the length in front. -/
theorem careful_storeBytes (tag : Nat) (pushed : Bool) (bytes : Bytes) (h4 : 4 ≤ field.dataSize) :
    Careful (some ⟨tag, pushed, bytes.length, 4⟩) field (storeBytes field bytes) := by
  intro stored hl
  refine Step.Ends.bind (P := fun value after => value = stored ∧ after = stored)
    (Step.ends_get ⟨rfl, rfl⟩) ?_
  rintro _ _ ⟨rfl, rfl⟩
  refine Step.ends_unless (fun hlt => by omega) fun _ => ?_
  refine Step.ends_unless (fun hlt => ⟨rfl, _, rfl, ?_, ?_⟩) fun _ => trivial
  · simp only
    omega
  · rw [← hl]

/-- The update of the messages inside never fails as a whole. -/
def Sure (update : Table Ref → Edit α) : Prop :=
  ∀ (table : Table Ref) (stored : Bytes), (update table).Ends stored (fun _ _ => True) fun _ _ => False

theorem careful_nested (h : schema.Plain .loose (levels + 1) ref) (hf : field ∈ (schema ref).fields)
    (hh : field.isHandled = false) (hk : field.kind = .message inner) {update : Table Ref → Edit α}
    (hu : Sure update) : Careful none field (nested schema inner update) := by
  intro stored hl
  have hsize := (h.laid.here.stored field hf hh).dataSize_of_message hk
  refine Step.Ends.bind (P := fun _ _ => True)
    (.of_ok (Prod.ext (Table.checkBlock_ok (Nat.le_of_eq (hl.trans hsize).symm)) rfl) trivial)
    fun _ after _ => ?_
  exact (hu _ after).mono (fun _ _ _ => trivial) fun _ _ hfalse => hfalse.elim

theorem careful_fresh (h : schema.Plain .loose (levels + 1) ref) (hf : field ∈ (schema ref).fields)
    (hh : field.isHandled = false) (hk : field.kind = .message inner) {update : Table Ref → Edit α}
    (hu : Sure update) :
    Careful none field (schema.initialise inner >>= fun _ => update (schema inner)) := by
  intro stored hl
  have hbelow := h.below hf hh hk
  have hsize := (h.laid.here.stored field hf hh).dataSize_of_message hk
  obtain ⟨initial, hr⟩ := Schema.initialiseWithin_ok (hbelow.laid.mono hbelow.levels_le)
    (Nat.le_of_eq (hl.trans hsize).symm)
  refine Step.Ends.bind (P := fun _ _ => True) (.of_ok hr trivial) fun _ after _ => ?_
  exact (hu _ after).mono (fun _ _ _ => trivial) fun _ _ hfalse => hfalse.elim

-- ---------------------------------------------------------------------------
-- Claims
-- ---------------------------------------------------------------------------

/-- In laid tables a field is marked present without fail. -/
theorem markPresent_ok (h : schema.Plain .loose (levels + 1) ref)
    (hs : (schema ref).size ≤ block.length) (hf : field ∈ (schema ref).fields)
    (hh : field.isHandled = false) :
    ∃ after, (markPresent schema (schema ref) field).result block = (.ok (), after) := by
  have hlaid := h.laid.here.laid field hf hh
  unfold markPresent
  cases hm : field.multiplicity with
  | required | «repeated» => exact ⟨block, rfl⟩
  | optional =>
    simp only
    split
    · next ho =>
      obtain ⟨after, -, hr, -⟩ := hlaid.setSlot_ok hs ho 1
      exact ⟨after, hr⟩
    · exact ⟨block, rfl⟩
  | oneof group =>
    have hg : field.group?.isSome := by simp [Field.group?, hm]
    obtain ⟨_, stored, -, -, -, hslot⟩ := hlaid.slot_ok hs (hlaid.slot_isSome (.inr hg))
    have hask : (Edit.ask field.isActive).result block = (.ok _, block) :=
      Prod.ext (Field.isActive_of_slot hg hslot) rfl
    simp only
    rw [Step.result_bind_ok hask]
    split
    · exact Schema.activate_ok h.laid (Nat.le_of_succ_le_succ h.levels_le) hs hf hh
    · exact ⟨block, rfl⟩

/-- An element is counted, or the array is full and nothing has changed. -/
theorem ends_append (h : schema.Plain .loose (levels + 1) ref)
    (hs : (schema ref).size ≤ block.length) (hf : field ∈ (schema ref).fields)
    (hh : field.isHandled = false) (hm : field.multiplicity = .repeated) :
    (append field).Ends block (fun _ _ => True) fun failure after =>
      after = block ∧ failure = .arrayFull field.name field.capacity := by
  have hlaid := h.laid.here.laid field hf hh
  have hsome := hlaid.slot_isSome (.inl (by simp [Field.isRepeated, hm]))
  obtain ⟨_, _, -, -, -, hslot⟩ := hlaid.slot_ok hs hsome
  refine Step.Ends.bind (P := fun _ after => after = block)
    (Step.ends_ofExcept (fun _ _ => rfl) fun _ hcount => ⟨rfl, Field.count_error hslot hcount⟩) ?_
  rintro count _ rfl
  refine Step.ends_unless (fun _ => ⟨rfl, rfl⟩) fun _ => ?_
  obtain ⟨after, -, hr, -⟩ := hlaid.setSlot_ok hs hsome (count + 1)
  exact Step.Ends.bind (P := fun _ _ => True) (.of_ok hr trivial) fun _ _ _ => trivial

/-- A claim is made whole, for a place of the field, or the array is full and nothing has changed. -/
theorem ends_claim (h : schema.Plain .loose (levels + 1) ref)
    (hs : (schema ref).size ≤ block.length) (hf : field ∈ (schema ref).fields)
    (hh : field.isHandled = false) :
    (claim schema (schema ref) field).Ends block
      (fun span after => field.Place .loose after span ∧ after.length = block.length)
      fun failure after => after = block ∧ failure = .arrayFull field.name field.capacity := by
  refine Step.ends_ite (fun hrep => ?_) fun hrep => ?_
  · have hm : field.multiplicity = .repeated := by simpa [Field.isRepeated] using hrep
    exact ((obeys_append h hs hf hh hm).and (ends_append h hs hf hh hm)).mono
      (fun _ _ hp => ⟨hp.1.2.1, hp.1.1.length_eq⟩) fun _ _ he => he.2
  · have hm : field.multiplicity ≠ .repeated := by simpa [Field.isRepeated] using hrep
    obtain ⟨after, hr⟩ := markPresent_ok h hs hf hh
    obtain ⟨hmoves, hp⟩ := (obeys_markPresent h hs hf hh hm).ok hr
    exact Step.Ends.bind (P := fun _ u => u = after) (.of_ok hr rfl) fun _ _ hu =>
      hu ▸ ⟨hp, hmoves.length_eq⟩

theorem ends_place {parcel? : Option Parcel} {write : Edit α} {span : Span}
    (hfits : field.Fits schema (schema ref).size) (hs : (schema ref).size ≤ block.length)
    (hw : Careful parcel? field write) (hp : field.Place .loose block span) :
    (Edit.inside field span write).Ends block (fun _ _ => True) fun failure after =>
      after = block ∧ ∃ parcel ∈ parcel?, parcel.Exceeds field failure := by
  obtain ⟨stored, hstored, hl⟩ := hfits.place_slice hs hp
  have hwrite := hw stored hl
  unfold Step.Ends
  rw [Edit.result_inside hstored]
  rcases hres : write.result stored with ⟨failure | value, content⟩
  · obtain ⟨rfl, hexceeds⟩ := hwrite.error hres
    exact ⟨Bytes.overwrite_slice hstored, hexceeds⟩
  · trivial

/-- What follows a claim fails only if the parcel is too long. -/
theorem refuses_claimed {parcel? : Option Parcel} {write : Edit α}
    (h : schema.Plain .loose (levels + 1) ref)
    (hs : (schema ref).size ≤ block.length) (hf : field ∈ (schema ref).fields)
    (hh : field.isHandled = false) (hw : Careful parcel? field write)
    (hp : ∀ parcel ∈ parcel?, field.tag = parcel.tag ∧ field.isRepeated = parcel.pushed) :
    (claim schema (schema ref) field >>= fun span => Edit.inside field span write).Ends block
      (fun _ _ => True) (Refuses schema (schema ref) parcel? block) := by
  have hclaim := ends_claim h hs hf hh
  rcases hr : (claim schema (schema ref) field).result block with ⟨failure | span, after⟩
  · exact .of_error (Step.result_bind_error hr) (.inl (hclaim.error hr).1)
  · obtain ⟨hplace, hlen⟩ := hclaim.ok hr
    have hwrite := ends_place (h.laid.here.stored field hf hh) (by rwa [hlen]) hw hplace
    refine Step.Ends.congr (hwrite.mono (fun _ _ h => h) ?_) (Step.result_bind_ok hr)
    rintro failure _ ⟨rfl, parcel, hparcel, hexceeds⟩
    obtain ⟨htag, hpushed⟩ := hp parcel hparcel
    exact .inr ⟨parcel, hparcel, field, hf, htag, hpushed, hexceeds, span, hr⟩

theorem claim_array (hm : field.isRepeated = true) : claim schema table field = append field :=
  if_pos hm

theorem claim_bind_single (hm : field.isRepeated = false) (next : Span → Edit α) :
    claim schema table field >>= next =
      markPresent schema table field >>= fun _ => next field.data := by
  simp [claim, hm]

-- ---------------------------------------------------------------------------
-- Updates
-- ---------------------------------------------------------------------------

variable {β : Type} {parcel? : Option Parcel} {check : Field Ref → Except CodecError α}

theorem refuses_lookUp {next : Field Ref × α → Edit β}
    (hn : ∀ field value, field ∈ (schema ref).fields → field.tag = tag → check field = .ok value →
      (next (field, value)).Ends block (fun _ _ => True)
        (Refuses schema (schema ref) parcel? block)) :
    (lookUp (schema ref) tag check >>= next).Ends block (fun _ _ => True)
      (Refuses schema (schema ref) parcel? block) := by
  have hlook : ∀ outcome after, (lookUp (schema ref) tag check).result block = (outcome, after) →
      after = block := fun _ _ hr => (Prod.mk.inj hr).2.symm
  rcases hr : (lookUp (schema ref) tag check).result block with ⟨_ | ⟨field, value⟩, after⟩
  · exact .of_error (Step.result_bind_error hr) (.inl (hlook _ _ hr))
  · obtain ⟨rfl, hf, ht, hcheck⟩ := lookUp_eq_ok hr
    exact (hn field value hf ht hcheck).congr (Step.result_bind_ok hr)

theorem refuses_change {span : Span} {f : Bytes → Bytes} :
    (Edit.change field span f).Ends block (fun _ _ => True) fun _ after => after = block := by
  unfold Step.Ends
  cases hs : block.slice? span with
  | none =>
    rw [Edit.change, Edit.result_inside_none hs]
  | some stored =>
    rw [Edit.result_change hs]
    trivial

theorem refuses_bind (tag slot : Nat) :
    (bind (schema ref) tag slot).Ends block (fun _ _ => True)
      (Refuses schema (schema ref) none block) :=
  refuses_lookUp fun _ _ _ _ _ => refuses_change.mono (fun _ _ h => h) fun _ _ => .inl

theorem refuses_setSlot (value : Nat) :
    (Edit.setSlot field value).Ends block (fun _ _ => True) fun _ after => after = block := by
  refine Step.Ends.bind (P := fun _ after => after = block)
    (Step.ends_ofExcept (fun _ _ => rfl) fun _ _ => rfl) ?_
  rintro span _ rfl
  exact refuses_change

section

variable (h : schema.Plain .loose (levels + 1) ref) (hs : (schema ref).size ≤ block.length)

include h hs

theorem refuses_store {expect : Field Ref → Except CodecError Unit} {write : Field Ref → Edit Unit}
    (hp : ∀ parcel ∈ parcel?, parcel.tag = tag ∧ parcel.pushed = false)
    (hw : ∀ field : Field Ref, field.Suits schema → expect field = .ok () →
      Careful parcel? field (write field)) :
    (store schema (schema ref) tag expect write).Ends block (fun _ _ => True)
      (Refuses schema (schema ref) parcel? block) := by
  refine refuses_lookUp fun field _ hf ht hcheck => ?_
  obtain ⟨hsingle, hexpect⟩ := unit_bind_eq_ok.mp hcheck
  obtain ⟨hh, hm⟩ := single_of_expect hsingle
  have hrep : field.isRepeated = false := by simpa [Field.isRepeated] using hm
  have hcareful := hw field (h.laid.here.stored field hf hh).suits hexpect
  have hclaimed := refuses_claimed h hs hf hh hcareful fun parcel hparcel =>
    ⟨ht.trans (hp parcel hparcel).1.symm, hrep.trans (hp parcel hparcel).2.symm⟩
  rwa [claim_bind_single hrep] at hclaimed

theorem refuses_pushValue {expect : Field Ref → Except CodecError Unit}
    {write : Field Ref → Edit Unit} (hp : ∀ parcel ∈ parcel?, parcel.tag = tag ∧ parcel.pushed = true)
    (hw : ∀ field : Field Ref, field.Suits schema → expect field = .ok () →
      Careful parcel? field (write field)) :
    (pushValue (schema ref) tag expect write).Ends block (fun _ _ => True)
      (Refuses schema (schema ref) parcel? block) := by
  refine refuses_lookUp fun field _ hf ht hcheck => ?_
  obtain ⟨harray, hexpect⟩ := unit_bind_eq_ok.mp hcheck
  obtain ⟨hh, hm⟩ := array_of_expect harray
  have hrep : field.isRepeated = true := by simp [Field.isRepeated, hm]
  have hcareful := hw field (h.laid.here.stored field hf hh).suits hexpect
  have hclaimed := refuses_claimed h hs hf hh hcareful fun parcel hparcel =>
    ⟨ht.trans (hp parcel hparcel).1.symm, hrep.trans (hp parcel hparcel).2.symm⟩
  rwa [claim_array hrep] at hclaimed

theorem refuses_submessage {update : Table Ref → Edit α} (hu : Sure update) :
    (submessage schema (schema ref) tag update).Ends block (fun _ _ => True)
      (Refuses schema (schema ref) none block) := by
  refine refuses_lookUp fun field inner hf _ hcheck => ?_
  obtain ⟨hsingle, hexpect⟩ := unit_bind_eq_ok.mp hcheck
  obtain ⟨hh, hm⟩ := single_of_expect hsingle
  have hclaimed := refuses_claimed h hs hf hh
    (careful_nested h hf hh (message_of_expect hexpect) hu) nofun
  rwa [claim_bind_single (by simpa [Field.isRepeated] using hm)] at hclaimed

theorem refuses_pushMessage {update : Table Ref → Edit α} (hu : Sure update) :
    (pushMessage schema (schema ref) tag update).Ends block (fun _ _ => True)
      (Refuses schema (schema ref) none block) := by
  refine refuses_lookUp fun field inner hf _ hcheck => ?_
  obtain ⟨harray, hexpect⟩ := unit_bind_eq_ok.mp hcheck
  obtain ⟨hh, hm⟩ := array_of_expect harray
  have hclaimed := refuses_claimed h hs hf hh
    (careful_fresh h hf hh (message_of_expect hexpect) hu) nofun
  rwa [claim_array (by simp [Field.isRepeated, hm])] at hclaimed

theorem refuses_element {index : Nat} {update : Table Ref → Edit α} (hu : Sure update) :
    (element schema (schema ref) tag index update).Ends block (fun _ _ => True)
      (Refuses schema (schema ref) none block) := by
  refine refuses_lookUp fun field inner hf _ hcheck => ?_
  obtain ⟨harray, hexpect⟩ := unit_bind_eq_ok.mp hcheck
  obtain ⟨hh, hm⟩ := array_of_expect harray
  have hfits := h.laid.here.stored field hf hh
  refine Step.Ends.bind (P := fun span after => after = block ∧ field.Place .loose block span)
    (Step.ends_ofExcept (fun span hspan => ⟨rfl, ?_⟩) fun _ _ => .inl rfl) ?_
  · obtain ⟨count, hcount, hlt, rfl⟩ := Field.elementSpan_eq_ok.mp hspan
    exact Field.loose_element hm (Nat.lt_of_lt_of_le hlt (Field.count_eq_ok.mp hcount).2)
  · rintro span _ ⟨rfl, hplace⟩
    refine (ends_place hfits hs (careful_nested h hf hh (message_of_expect hexpect) hu) hplace).mono
      (fun _ _ h => h) ?_
    rintro _ _ ⟨-, _, hnone, -⟩
    cases hnone

-- ---------------------------------------------------------------------------
-- Presence
-- ---------------------------------------------------------------------------

theorem refuses_clear :
    (clear schema (schema ref) tag).Ends block (fun _ _ => True)
      (Refuses schema (schema ref) none block) := by
  refine refuses_lookUp fun field _ hf _ _ => ?_
  refine Step.ends_ite (fun _ => (refuses_bind tag 0)) fun hhandled => ?_
  have hh : field.isHandled = false := by simpa using hhandled
  refine Step.Ends.bind (P := fun _ after => after = block)
    (Step.ends_ofExcept (fun _ _ => rfl) fun _ _ => .inl rfl) ?_
  rintro active _ rfl
  refine Step.ends_ite (fun _ => ?_) fun _ => trivial
  obtain ⟨after, hr⟩ := h.reset_ok hs hf hh
  exact .of_ok hr trivial

theorem refuses_setPresent (present : Bool) :
    (setPresent schema (schema ref) tag present).Ends block (fun _ _ => True)
      (Refuses schema (schema ref) none block) := by
  refine refuses_lookUp fun field _ hf _ _ => ?_
  cases hm : field.multiplicity with
  | required | «repeated» =>
    simp only [hm]
    exact .inl rfl
  | optional =>
    cases ho : field.sizeOffset with
    | none =>
      simp only [hm, ho]
      exact .inl rfl
    | some offset =>
      simp only [hm, ho]
      exact (refuses_setSlot _).mono (fun _ _ h => h) fun _ _ => .inl
  | oneof group =>
    have hh : field.isHandled = false := h.laid.here.inBlock_of_group hf (by simp [Field.group?, hm])
    simp only [hm]
    refine Step.ends_ite (fun _ => ?_) fun _ => refuses_clear h hs
    obtain ⟨after, hr⟩ := markPresent_ok h hs hf hh
    exact .of_ok hr trivial

end

end Update

-- ---------------------------------------------------------------------------
-- Actions
-- ---------------------------------------------------------------------------

theorem sure_performAll (actions : List Action) : Update.Sure (performAll schema actions) := by
  induction actions with
  | nil => exact fun _ _ => trivial
  | cons action rest ih =>
    intro table stored
    rw [performAll]
    exact Step.Ends.bind (P := fun _ _ => True) (.of_ok (Step.result_ofRun _ _) trivial)
      fun _ after _ => ih table after

theorem Action.refuses (action : Action) (h : schema.Plain .loose (levels + 1) ref)
    (hs : (schema ref).size ≤ block.length) :
    (action.perform schema (schema ref)).Ends block (fun _ _ => True)
      (Update.Refuses schema (schema ref) action.parcel? block) := by
  cases action with
  | set tag value =>
    rw [perform]
    exact Update.refuses_store h hs (by simp [parcel?]) fun _ _ _ => Update.careful_storeScalar value
  | setText tag text =>
    rw [perform]
    refine Update.refuses_store h hs ?_ fun _ _ _ => Update.careful_storeText tag false text
    rintro _ ⟨⟩
    exact ⟨rfl, rfl⟩
  | setBytes tag bytes =>
    rw [perform]
    refine Update.refuses_store h hs ?_ fun field hsuits hexpect =>
      Update.careful_storeBytes tag false bytes ?_
    · rintro _ ⟨⟩
      exact ⟨rfl, rfl⟩
    · simpa only [Field.Suits, Update.kind_of_expectBytes hexpect] using hsuits
  | push tag value =>
    rw [perform]
    exact Update.refuses_pushValue h hs (by simp [parcel?]) fun _ _ _ => Update.careful_storeScalar value
  | pushText tag text =>
    rw [perform]
    refine Update.refuses_pushValue h hs ?_ fun _ _ _ => Update.careful_storeText tag true text
    rintro _ ⟨⟩
    exact ⟨rfl, rfl⟩
  | pushBytes tag bytes =>
    rw [perform]
    refine Update.refuses_pushValue h hs ?_ fun field hsuits hexpect =>
      Update.careful_storeBytes tag true bytes ?_
    · rintro _ ⟨⟩
      exact ⟨rfl, rfl⟩
    · simpa only [Field.Suits, Update.kind_of_expectBytes hexpect] using hsuits
  | pushMessage tag actions =>
    rw [perform]
    exact Update.refuses_pushMessage h hs (sure_performAll actions)
  | submessage tag actions =>
    rw [perform]
    exact Update.refuses_submessage h hs (sure_performAll actions)
  | element tag index actions =>
    rw [perform]
    exact Update.refuses_element h hs (sure_performAll actions)
  | bind tag slot =>
    rw [perform]
    exact Update.refuses_bind tag slot
  | setPresent tag present =>
    rw [perform]
    exact Update.refuses_setPresent h hs present
  | clear tag =>
    rw [perform]
    exact Update.refuses_clear h hs
  | init =>
    rw [perform]
    obtain ⟨after, hr⟩ := Schema.initialiseWithin_ok (h.laid.mono h.levels_le) hs
    exact .of_ok (show (schema.initialise ref).result block = _ from hr) trivial

/-- An action on a message of valid tables that fails leaves the block of the message as it was, unless
it stores a text or bytes that are too long: then their place has been claimed, and no more. -/
theorem Action.refused_or_overflows (hvalid : Table.validate schema ref = .ok ())
    (hslots : schema.Throughout Table.SlotsWithin ref) (hb : schema.Below ref inner)
    (hs : (schema inner).size ≤ block.length) (action : Action)
    (hr : (action.perform schema (schema inner)).result block = (.error failure, after)) :
    after = block ∨ ∃ parcel ∈ action.parcel?, ∃ field,
      parcel.Overflows schema (schema inner) field block failure after := by
  have hlaid : schema.Laid (maxInitialDepth + 1) ref := Schema.laid_of_validateWithin hvalid hslots
  have hinner := hlaid.of_below hb
  exact (action.refuses ⟨hinner, Nat.le_refl _, nofun⟩ hs).error hr

/-- A line that is too long is counted. -/
theorem Action.refused_or_overflows_letter :
    Table.validate letter false = .ok () ∧ letter.Throughout Table.SlotsWithin false ∧
    letter.Below false false ∧ (letter false).size ≤ (Bytes.zeros 26).length ∧
    ∃ failure after, ((pushText 2 "abcd").perform letter (letter false)).result (Bytes.zeros 26) =
        (.error failure, after) ∧ after = [0, 0, 0, 0, 1] ++ Bytes.zeros 21 ∧
      (after = Bytes.zeros 26 ∨ ∃ parcel ∈ (pushText 2 "abcd").parcel?, ∃ field,
        parcel.Overflows letter (letter false) field (Bytes.zeros 26) failure after) := by
  have hvalid : Table.validate letter false = .ok () := rfl
  have hsize : (letter false).size ≤ (Bytes.zeros 26).length := by decide
  have hr : ((pushText 2 "abcd").perform letter (letter false)).result (Bytes.zeros 26) =
      (.error (.capacityExceeded "lines" 4 3), [0, 0, 0, 0, 1] ++ Bytes.zeros 21) := by cbv
  exact ⟨hvalid, letter_slotsWithin false, .refl _, hsize, _, _, hr, rfl,
    refused_or_overflows hvalid (letter_slotsWithin false) (.refl _) hsize _ hr⟩

/-- A stamp is lost to a seal that is refused. -/
theorem Action.setBytes_wipes_stamp :
    Table.validate letter false = .ok () ∧
    ∃ block after : Bytes, block = Bytes.zeros 16 ++ [4, 0, 0, 0, 5, 0, 0, 0, 0, 0] ∧
      after = Bytes.zeros 16 ++ [3, 0, 0, 0, 0, 0, 0, 0, 0, 0] ∧
      ((setBytes 3 [1, 2, 3]).perform letter (letter false)).result block =
        (.error (.capacityExceeded "seal" 3 2), after) ∧ after ≠ block := by
  exact ⟨rfl, _, _, rfl, rfl, by cbv, by decide⟩

end BlockCodec
