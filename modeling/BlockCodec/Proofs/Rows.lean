import BlockCodec.Proofs.Locality
import BlockCodec.Proofs.Resuming

/-!
# The order of the rows of a table

A table whose rows stand in another order describes the same messages: where the one decodes, so does the
other, into the same block (`Decode.message_reordered`). Fields are reset in the order of the rows, but
resets commute. Lookups go round the table, but they find the same field. Required fields are numbered in
the order of the rows, but what has been seen is known by its tag.
-/

namespace BlockCodec

-- ---------------------------------------------------------------------------
-- Doing the same
-- ---------------------------------------------------------------------------

namespace Step

variable {s t ε α β : Type} {a b : Step s ε α}

/-- Where the one succeeds, the other does the same. -/
def Implies (a b : Step s ε α) : Prop :=
  ∀ ⦃state value after⦄, a.result state = (.ok value, after) → b.result state = (.ok value, after)

theorem Implies.refl (a : Step s ε α) : a.Implies a := fun _ _ _ h => h

theorem Implies.bind {f g : α → Step s ε β} (h : a.Implies b) (hn : ∀ value, (f value).Implies (g value)) :
    (a >>= f).Implies (b >>= g) := by
  intro state value after hr
  obtain ⟨first, middle, hfirst, hnext⟩ := result_bind_eq_ok.mp hr
  exact result_bind_eq_ok.mpr ⟨first, middle, h hfirst, hn first hnext⟩

theorem implies_ite {c : Prop} [Decidable c] {no no' : Step s ε α} (hy : a.Implies b)
    (hn : no.Implies no') : (if c then a else no).Implies (if c then b else no') := by
  split
  · exact hy
  · exact hn

theorem implies_forM {ι : Type} {f g : ι → Step s ε PUnit} {list : List ι}
    (h : ∀ i ∈ list, (f i).Implies (g i)) : Implies (list.forM f) (list.forM g) := by
  induction list with
  | nil => exact .refl _
  | cons i rest ih =>
    rw [List.forM, List.forM]
    exact (h i (by simp)).bind fun _ => ih fun j hj => h j (by simp [hj])

end Step

variable {Ref : Type} {schema moved : Schema Ref} {table table' : Table Ref} {field other : Field Ref}
  {nested nested' : Ref → Edit Unit} {span : Span} {block after : Bytes}

theorem Edit.implies_inside {a b : Edit Unit} (h : a.Implies b) :
    (Edit.inside field span a).Implies (Edit.inside field span b) := by
  intro state value last hr
  obtain ⟨stored, content, hs, hc, rfl⟩ := inside_eq_ok hr
  rw [result_inside hs, h hc]

/-- The same table, its rows in another order. -/
structure Table.Reorders (table table' : Table Ref) : Prop where
  name : table'.name = table.name
  size : table'.size = table.size
  rows : table'.fields.Perm table.fields

/-- What the order of the rows is no part of. -/
structure Table.Orderly (table : Table Ref) : Prop where
  tags_ne : table.fields.Pairwise (·.tag ≠ ·.tag)
  disjoint : table.Disjoint
  required_le : table.requiredCount ≤ maxRequiredFields

theorem Schema.orderly_of_validate {ref : Ref} (h : Table.validate schema ref = .ok ())
    (hd : schema.Throughout Table.Disjoint ref) : schema.Throughout Table.Orderly ref :=
  fun inner hi => ⟨(fits_of_validate h inner hi).tags_ne, hd inner hi, required_of_validate h inner hi⟩

theorem Table.Reorders.tags_ne (hr : table.Reorders table')
    (htags : table.fields.Pairwise (·.tag ≠ ·.tag)) : table'.fields.Pairwise (·.tag ≠ ·.tag) :=
  (hr.rows.pairwise_iff fun h => h.symm).mpr htags

theorem Table.Reorders.orderly (hr : table.Reorders table') (ho : table.Orderly) : table'.Orderly where
  tags_ne := hr.tags_ne ho.tags_ne
  disjoint := fun field hf _ =>
    have hfield := ho.disjoint field (hr.rows.mem_iff.mp hf) trivial
    ⟨hfield.1, fun other hother => hfield.2 other (hr.rows.mem_iff.mp hother)⟩
  required_le := by
    rw [requiredCount, hr.rows.countP_eq]
    exact ho.required_le

-- ---------------------------------------------------------------------------
-- Resets
-- ---------------------------------------------------------------------------

namespace Field

open Edit

theorem local_resetSlot : Step.Local field.slotPlaces field.slotPlaces field.resetSlot := by
  unfold resetSlot
  split
  · next slot hs =>
    have hslot : ∀ place ∈ slot, field.slotPlaces place := fun place hp => ⟨slot, hs, hp⟩
    exact local_clear.mono hslot hslot fun _ hp => hp
  · exact Step.local_pure ()

theorem local_resetStorage (hh : field.isHandled = false) (h : ∀ ref, (nested ref).KeepsLength) :
    Step.Local (· ∈ field.storage) (· ∈ field.storage) (field.resetStorage nested) := by
  cases hm : field.multiplicity with
  | «repeated» =>
    rw [storage_eq_array hh hm]
    simp only [resetStorage, hm]
    exact local_clear
  | oneof group =>
    rw [storage_eq_data (by simp [hm])]
    simp only [resetStorage, hm]
    exact local_clear
  | required | optional =>
    rw [storage_eq_data (by simp [hm])]
    simp only [resetStorage, hm]
    exact local_inside (keepsLength_refill h)

theorem local_reset (hh : field.isHandled = false) (h : ∀ ref, (nested ref).KeepsLength) :
    Step.Local field.extent field.extent (field.reset nested) := by
  have hslot : ∀ place, field.slotPlaces place → field.extent place := fun _ => extent_of_slotPlaces hh
  have hstorage : ∀ place, place ∈ field.storage → field.extent place := fun _ => extent_of_storage hh
  rw [reset_eq]
  exact (local_resetSlot.mono hslot hslot fun _ hp => hp).bind fun _ =>
    (local_resetStorage hh h).mono hstorage hstorage fun _ hp => hp

/-- A reset of a member of a group is nothing but clearing. -/
theorem commutes_reset_members (hg : field.group?.isSome) (hg' : other.group?.isSome) :
    Commutes (field.reset nested).Makes (other.reset nested).Makes := by
  obtain ⟨_, hm⟩ := multiplicity_of_group hg
  obtain ⟨_, hm'⟩ := multiplicity_of_group hg'
  rw [reset_eq, reset_eq, makes_bind, makes_bind]
  simp only [resetSlot, resetStorage, hm, hm']
  cases field.sizeSlot? <;> cases other.sizeSlot?
  all_goals
    refine Commutes.then (Commutes.then_right ?_ ?_) (Commutes.then_right ?_ ?_) <;>
      first | exact commutes_clear | exact commutes_pure | exact commutes_pure_right

/-- Fields that are apart may be reset in either order. -/
theorem commutes_reset (hh : field.isHandled = false) (ho : other.isHandled = false)
    (ha : field.Apart other) (h : ∀ ref, (nested ref).KeepsLength) :
    Commutes (field.reset nested).Makes (other.reset nested).Makes := by
  by_cases hg : field.SameGroup other
  · exact commutes_reset_members hg.1 hg.symm.1
  · exact (keepsTo_of_local (local_reset hh h) ()).commutes (keepsTo_of_local (local_reset ho h) ())
      fun _ hp => ha.disjoint hg hp

theorem fillInitial_implies (h : ∀ ref, field.kind = .message ref → (nested ref).Implies (nested' ref)) :
    (field.fillInitial nested).Implies (field.fillInitial nested') := by
  unfold fillInitial
  split
  · next ref hk => exact h ref hk
  · exact .refl _

theorem reset_implies (h : ∀ ref, field.kind = .message ref → (nested ref).Implies (nested' ref)) :
    (field.reset nested).Implies (field.reset nested') := by
  rw [reset_eq, reset_eq]
  refine (Step.Implies.refl _).bind fun _ => ?_
  unfold resetStorage
  split
  · exact .refl _
  · exact .refl _
  all_goals exact Edit.implies_inside ((Step.Implies.refl _).bind fun _ => fillInitial_implies h)

end Field

namespace Table

/-- A table is reset in whatever order its rows are in. -/
theorem Reorders.reset (hr : table.Reorders table') (ho : table.Orderly)
    (hkeep : ∀ ref, (nested ref).KeepsLength)
    (h : ∀ ref ∈ table.nested, (nested ref).Implies (nested' ref)) :
    (table.reset nested).Implies (table'.reset nested') := by
  intro block _ after hreset
  obtain ⟨hcheck, heach⟩ := reset_eq_ok.mp hreset
  have hsize : table.size ≤ block.length := checkBlock_le hcheck
  refine reset_eq_ok.mpr ⟨checkBlock_ok (hr.size ▸ hsize), ?_⟩
  have hfields : (resetEach nested table'.fields).result block = (.ok (), after) := by
    refine Edit.makes_forM_perm hr.rows.symm (fun field hf other hother hne => ?_) heach
    have htag : other.tag ≠ field.tag := fun ht => hne (eq_of_tag_eq ho.tags_ne hf hother ht).symm
    cases hh : field.isHandled <;> cases hh' : other.isHandled
    · exact Field.commutes_reset hh hh' ((ho.disjoint field hf trivial).2 other hother htag) hkeep
    · exact Edit.commutes_pure_right
    · exact Edit.commutes_pure
    · exact Edit.commutes_pure
  refine Step.implies_forM (fun field hf => ?_) hfields
  cases hh : field.isHandled with
  | true => exact .refl _
  | false => exact Field.reset_implies fun ref hk => h ref (mem_nested (hr.rows.mem_iff.mp hf) hh hk)

end Table

namespace Schema

/-- Initialisation makes the same of a block, whatever the order of the rows. -/
theorem initialiseWithin_reordered (hr : ∀ ref, (schema ref).Reorders (moved ref)) (levels : Nat) {ref : Ref}
    (ho : schema.Throughout Table.Orderly ref) :
    (schema.initialiseWithin levels ref).Implies (moved.initialiseWithin levels ref) := by
  induction levels generalizing ref with
  | zero => exact fun _ _ _ h => (nomatch h)
  | succ levels ih =>
    exact (hr ref).reset ho.here (keepsLength_initialiseWithin schema levels) fun inner hn => ih (ho.nested hn)

/-- A member becomes active in the same way, whatever the order of the rows. -/
theorem activate_reordered (hr : ∀ ref, (schema ref).Reorders (moved ref))
    (ht : table.Reorders table')
    (ho : ∀ inner, field.kind = .message inner → schema.Throughout Table.Orderly inner) :
    (schema.activate table field).Implies (moved.activate table' field) := by
  unfold activate
  split
  · exact .refl _
  · next group _ =>
    refine Step.Implies.bind ?_ fun _ => Step.Implies.bind ?_ fun _ => .refl _
    · intro block _ after h
      exact Edit.makes_forM_perm (ht.rows.symm.filter _) (fun _ _ _ _ _ => Edit.commutes_clear) h
    · exact Edit.implies_inside (Field.fillInitial_implies fun inner hk =>
        initialiseWithin_reordered hr _ (ho inner hk))

end Schema

-- ---------------------------------------------------------------------------
-- Required fields
-- ---------------------------------------------------------------------------

/-- A number finds the same field in both tables. -/
theorem Table.Reorders.entryOf? (hr : table.Reorders table') (htags : table.fields.Pairwise (·.tag ≠ ·.tag))
    (number : Nat) : (table'.entryOf? number).map (·.field) = (table.entryOf? number).map (·.field) := by
  refine Option.ext fun field => ?_
  rw [Cursor.entryOf?_field_iff htags, Cursor.entryOf?_field_iff (hr.tags_ne htags), hr.rows.mem_iff]

namespace Decode

/-- The number under which the field with a tag is tracked. -/
def mark? (table : Table Ref) (tag : Nat) : Option Nat := (table.entryOf? tag).bind tracked?

/-- What has been seen are the marks of these tags. -/
def Notes (table : Table Ref) (tags seen : List Nat) : Prop :=
  ∀ mark, mark ∈ seen ↔ ∃ tag ∈ tags, mark? table tag = some mark

theorem notes_nil (table : Table Ref) : Notes table [] [] := by simp [Notes]

theorem Notes.insert {tags seen : List Nat} (h : Notes table tags seen) (tag : Nat) :
    Notes table (tag :: tags) ((mark? table tag).elim seen (seen.insert ·)) := by
  intro mark
  cases hm : mark? table tag with
  | none => simp [hm, h mark]
  | some other => simp [hm, h mark, eq_comm]

theorem notes_mark (table : Table Ref) (tag : Nat) : Notes table [tag] (mark? table tag).toList := by
  simp [Notes, eq_comm]

theorem Notes.append {tags more seen found : List Nat} (h : Notes table tags seen) (h' : Notes table more found) :
    Notes table (tags ++ more) (seen ++ found) := by
  intro mark
  rw [List.mem_append, h mark, h' mark]
  simp only [List.mem_append, or_and_right, exists_or]

theorem tracked?_eq_some {entry : Entry Ref} {mark : Nat} :
    tracked? entry = some mark ↔ entry.requiredIndex? = some mark ∧ mark < maxRequiredFields := by
  simp [tracked?, Option.filter_eq_some_iff]

/-- All required fields are tracked, if there are no more than can be. -/
theorem tracked_of_required (hr : table.requiredCount ≤ maxRequiredFields) {entry : Entry Ref}
    (he : entry ∈ table.entries) (hreq : entry.field.isRequired = true) :
    ∃ mark, tracked? entry = some mark := by
  obtain ⟨index, hindex⟩ := Cursor.requiredIndex_isSome he hreq
  have hbound := (Cursor.requiredIndex_bounds he hindex).2
  simp only [Cursor.start, Nat.zero_add] at hbound
  exact ⟨index, tracked?_eq_some.mpr ⟨hindex, Nat.lt_of_lt_of_le hbound hr⟩⟩

/-- Nothing is missing when all required fields have been seen, by whatever number. -/
theorem missing?_eq_none_iff (ho : table.Orderly) {tags seen : List Nat} (h : Notes table tags seen) :
    missing? table seen = none ↔
      ∀ field ∈ table.fields, field.isRequired = true → field.tag ∈ tags := by
  have hmissing : missing? table seen = none ↔
      ∀ entry ∈ table.entries, ∀ mark, tracked? entry = some mark → mark ∈ seen := by
    simp [missing?, Option.any_eq_true]
  rw [hmissing]
  constructor
  · intro hseen field hf hreq
    obtain ⟨entry, hentry, rfl⟩ := Cursor.entryOf?_of_mem ho.tags_ne hf
    have he := (Cursor.mem_entries_iff ho.tags_ne).mpr hentry
    obtain ⟨index, ht⟩ := tracked_of_required ho.required_le he hreq
    have hindex := (tracked?_eq_some.mp ht).1
    -- what has been seen under this mark can be no other field
    obtain ⟨tag, htag, hmark⟩ := (h index).mp (hseen entry he index ht)
    obtain ⟨found, hfound, ht'⟩ := Option.bind_eq_some_iff.mp hmark
    obtain rfl : found.field.tag = tag := Cursor.tag_of_findWithin (Prod.ext hfound rfl)
    have hf' := (Cursor.mem_entries_iff ho.tags_ne).mpr hfound
    obtain rfl : found = entry := Cursor.eq_of_requiredIndex hf' he (tracked?_eq_some.mp ht').1 hindex
    exact htag
  · intro htags entry he mark ht
    have hentry := (Cursor.mem_entries_iff ho.tags_ne).mp he
    refine (h mark).mpr ⟨entry.field.tag, ?_, by rw [mark?, hentry]; exact ht⟩
    exact htags _ (Cursor.mem_of_entryOf? hentry) (isRequired_of_tracked he ht)

-- ---------------------------------------------------------------------------
-- Decoding
-- ---------------------------------------------------------------------------

section

variable {σ S α : Type} [Source σ] {config : DecodeConfig} {inner inner' : Ref → Decode σ S Unit}
  {type : WireType}

omit [Source σ] in
theorem implies_onBlock {a b : Edit α} (h : a.Implies b) :
    (onBlock a : Decode σ S α).Implies (onBlock b) := by
  intro state value after hr
  rw [result_onBlock_eq_ok] at hr ⊢
  exact ⟨h hr.1, hr.2⟩

omit [Source σ] in
theorem implies_inside {a b : Decode σ S α} (h : a.Implies b) :
    (inside field span a).Implies (inside field span b) := by
  intro state value after hr
  obtain ⟨stored, content, hs, hstep, hlast⟩ := result_inside_eq_ok.mp hr
  exact result_inside_eq_ok.mpr ⟨stored, content, hs, h hstep, hlast⟩

omit [Source σ] in
theorem implies_within {a b : Decode σ S α} (h : a.Implies b) (length : Nat) :
    (within length a).Implies (within length b) := by
  intro state value after hr
  simp only [within, Step.result_ofRun] at hr ⊢
  split at hr
  · cases hr
  · next input _ =>
    rcases ha : a.result { state with input } with ⟨outcome, last⟩
    rw [ha] at hr
    obtain ⟨rfl, rfl⟩ := Prod.mk.inj hr
    rw [h ha]

theorem value_implies
    (hn : ∀ ref, field.kind = .message ref → (inner ref).Implies (inner' ref)) :
    (value config inner field).Implies (value config inner' field) := by
  unfold value
  split
  · exact .refl _
  · exact .refl _
  · next ref hk =>
    refine (Step.Implies.refl _).bind fun length => implies_within ?_ length
    exact (hn ref hk).bind fun _ => .refl _
  · exact .refl _

variable (hr : ∀ ref, (schema ref).Reorders (moved ref))
  (ho : ∀ ref, field.kind = .message ref → schema.Throughout Table.Orderly ref)
  (hn : ∀ ref, field.kind = .message ref → (inner ref).Implies (inner' ref))

include hr ho hn

theorem element_reordered :
    (element schema config inner field).Implies (element moved config inner' field) := by
  have hvalue : (value config inner field).Implies (value config inner' field) := value_implies hn
  refine (Step.Implies.refl _).bind fun count => Step.Implies.bind (implies_inside ?_) fun _ => .refl _
  split
  · next ref hk =>
    exact (implies_onBlock (Schema.initialiseWithin_reordered hr _ (ho ref hk))).bind fun _ => hvalue
  · exact hvalue

theorem stored_reordered (ht : table.Reorders table') :
    (stored schema config inner table field type).Implies (stored moved config inner' table' field type) := by
  have hvalue : (inside field field.data (value config inner field)).Implies
      (inside field field.data (value config inner' field)) := implies_inside (value_implies hn)
  unfold stored
  split
  · exact Step.implies_ite (.refl _) (element_reordered hr ho hn)
  · refine (Step.Implies.refl _).bind fun active => Step.implies_ite ?_ ?_
    · exact (implies_onBlock (Schema.activate_reordered hr ht ho)).bind fun _ => hvalue
    · exact hvalue
  · exact hvalue.bind fun _ => .refl _
  · exact hvalue

end

section

variable {σ S : Type} [Source σ] [Handler Ref S] {config : DecodeConfig} {inner inner' : Ref → Decode σ S Unit}
  {depth : Nat} {state last : Decoding σ S}

omit [Source σ] [Handler Ref S] in
theorem mark_of_skip {c : Prop} [Decidable c] {failure : CodecError} {skip : Decode σ S Unit}
    {mark : Option Nat} (hr : Step.result (if c then (throw failure : Decode σ S Unit) >>= fun _ =>
      (do skip; pure none) else (do skip; pure none)) state = (.ok mark, last)) : mark = none := by
  split at hr
  · cases hr
  · obtain ⟨_, middle, -, hpure⟩ := Step.result_bind_eq_ok.mp hr
    cases hpure
    rfl

/-- The payload of a field is decoded alike, and the field is marked under its number in either table, or
in neither. -/
theorem record_reordered (hs : ∀ field ∈ table.fields, ∀ type,
      (stored schema config inner table field type).Implies (stored moved config inner' table' field type))
    (htags : table.fields.Pairwise (·.tag ≠ ·.tag)) (ht : table.Reorders table') {type : WireType}
    {number : Nat} {mark : Option Nat}
    (hr : (record schema config inner depth table type number (table.entryOf? number)).result state =
      (.ok mark, last)) :
    ∃ mark', (record moved config inner' depth table' type number (table'.entryOf? number)).result state =
      (.ok mark', last) ∧ (mark = none ∧ mark' = none ∨
        mark = mark? table number ∧ mark' = mark? table' number) := by
  have hfield := ht.entryOf? htags number
  unfold mark?
  cases he : table.entryOf? number with
  | none =>
    obtain he' : table'.entryOf? number = none := by simpa [he] using hfield
    rw [he] at hr
    obtain rfl : mark = none := mark_of_skip hr
    refine ⟨none, ?_, .inl ⟨rfl, rfl⟩⟩
    rw [he']
    simp only [record, ht.name]
    exact hr
  | some entry =>
    obtain ⟨entry', he', heq⟩ : ∃ entry', table'.entryOf? number = some entry' ∧ entry'.field = entry.field := by
      simpa [he, Option.map_eq_some_iff] using hfield
    rw [he] at hr
    rw [he']
    simp only [record, heq] at hr ⊢
    cases ha : entry.field.accepts type with
    | false =>
      simp only [ha, Bool.false_eq_true, if_false] at hr ⊢
      obtain rfl : mark = none := mark_of_skip hr
      exact ⟨none, hr, .inl ⟨rfl, rfl⟩⟩
    | true =>
      simp only [ha, if_true] at hr ⊢
      have hfound : ∀ {a b : Decode σ S Unit}, a.Implies b →
          (do a; pure (tracked? entry) : Decode σ S (Option Nat)).result state = (.ok mark, last) →
          mark = tracked? entry ∧ (do b; pure (tracked? entry') : Decode σ S (Option Nat)).result state =
            (.ok (tracked? entry'), last) := by
        intro a b hab hr
        obtain ⟨_, middle, hstep, hpure⟩ := Step.result_bind_eq_ok.mp hr
        cases hpure
        exact ⟨rfl, Step.result_bind_eq_ok.mpr ⟨(), _, hab hstep, rfl⟩⟩
      cases hh : entry.field.isHandled with
      | true =>
        simp only [hh, if_true] at hr ⊢
        obtain ⟨hmark, hr⟩ := hfound (.refl _) hr
        exact ⟨_, hr, .inr ⟨hmark, rfl⟩⟩
      | false =>
        simp only [hh, Bool.false_eq_true, if_false] at hr ⊢
        obtain ⟨hmark, hr⟩ := hfound (hs _ (Cursor.mem_of_entryOf? he) type) hr
        exact ⟨_, hr, .inr ⟨hmark, rfl⟩⟩

/-- Walks over the same message end alike, and they have seen the same fields. -/
theorem walk_reordered (hs : ∀ field ∈ table.fields, ∀ type,
      (stored schema config inner table field type).Implies (stored moved config inner' table' field type))
    (htags : table.fields.Pairwise (·.tag ≠ ·.tag)) (ht : table.Reorders table') {room : Nat}
    {cursor cursor' : Cursor} (hc : cursor.Placed table) (hc' : cursor'.Placed table')
    {tags seen seen' found : List Nat} (hseen : Notes table tags seen) (hseen' : Notes table' tags seen')
    (hr : (walk schema config inner depth table room cursor seen).result state = (.ok found, last)) :
    ∃ found' more, (walk moved config inner' depth table' room cursor' seen').result state =
      (.ok found', last) ∧ Notes table more found ∧ Notes table' more found' := by
  have htags' := ht.tags_ne htags
  induction room generalizing state cursor cursor' tags seen seen' with
  | zero =>
    cases hr
    exact ⟨seen', tags, rfl, hseen, hseen'⟩
  | succ room ih =>
    obtain ⟨header, middle, hheader, hr⟩ := Step.result_bind_eq_ok.mp hr
    cases header with
    | none =>
      cases hr
      exact ⟨seen', tags, Step.result_bind_eq_ok.mpr ⟨none, _, hheader, rfl⟩, hseen, hseen'⟩
    | some header =>
      obtain ⟨number, type⟩ := header
      obtain ⟨next, hfind, hplaced⟩ := Cursor.find_placed htags hc number
      obtain ⟨next', hfind', hplaced'⟩ := Cursor.find_placed htags' hc' number
      simp only [hfind] at hr
      obtain ⟨mark, behind, hrecord, hr⟩ := Step.result_bind_eq_ok.mp hr
      obtain ⟨mark', hrecord', hmarks⟩ := record_reordered hs htags ht hrecord
      have hwalk : ∃ tags, Notes table tags (mark.elim seen (seen.insert ·)) ∧
          Notes table' tags (mark'.elim seen' (seen'.insert ·)) := by
        rcases hmarks with ⟨rfl, rfl⟩ | ⟨rfl, rfl⟩
        · exact ⟨tags, hseen, hseen'⟩
        · exact ⟨number :: tags, hseen.insert number, hseen'.insert number⟩
      obtain ⟨tags, hseen, hseen'⟩ := hwalk
      obtain ⟨found', more, hlast, hfound, hfound'⟩ := ih hplaced hplaced' hseen hseen' hr
      refine ⟨found', more, Step.result_bind_eq_ok.mpr ⟨_, _, hheader, ?_⟩, hfound, hfound'⟩
      simp only [hfind']
      exact Step.result_bind_eq_ok.mpr ⟨mark', behind, hrecord', hlast⟩

/-- A message is decoded alike, whatever the order of the rows of its tables. -/
theorem message_reordered (hr : ∀ ref, (schema ref).Reorders (moved ref)) (levels : Nat) {ref : Ref}
    (hu : schema.Throughout Table.Unhandled ref) (ho : schema.Throughout Table.Orderly ref) :
    (messageWithin schema config levels ref : Decode σ S Unit).Implies (messageWithin moved config levels ref) := by
  induction levels generalizing ref with
  | zero => exact fun _ _ _ h => (nomatch h)
  | succ levels ih =>
    intro state _ last h
    cases hcheck : (schema ref).checkBlock state.block with
    | error failure => cases (messageWithin_of_error hcheck).symm.trans h
    | ok _ =>
      have hcheck' : (moved ref).checkBlock state.block = .ok () :=
        Table.checkBlock_ok ((hr ref).size ▸ Table.checkBlock_le hcheck)
      have hnested : ∀ field ∈ (schema ref).fields, ∀ inner, field.kind = .message inner →
          schema.Throughout Table.Unhandled inner ∧ schema.Throughout Table.Orderly inner :=
        fun field hf inner hk =>
          have hn := Table.mem_nested hf (hu.here field hf) hk
          ⟨hu.nested hn, ho.nested hn⟩
      have hstored : ∀ field ∈ (schema ref).fields, ∀ type,
          (stored schema config (messageWithin schema config levels : Ref → Decode σ S Unit) (schema ref)
            field type).Implies
          (stored moved config (messageWithin moved config levels) (moved ref) field type) :=
        fun field hf type => stored_reordered hr (fun inner hk => (hnested field hf inner hk).2)
          (fun inner hk => ih (hnested field hf inner hk).1 (hnested field hf inner hk).2) (hr ref)
      rw [messageWithin_of_ok hcheck, fields_eq_walk] at h
      rw [messageWithin_of_ok hcheck', fields_eq_walk]
      obtain ⟨found, middle, hwalk, hrequired⟩ := Step.result_bind_eq_ok.mp h
      obtain ⟨found', tags, hwalk', hnotes, hnotes'⟩ := walk_reordered hstored ho.here.tags_ne (hr ref)
        Cursor.placed_start Cursor.placed_start (notes_nil _) (notes_nil _) hwalk
      refine Step.result_bind_eq_ok.mpr ⟨found', middle, hwalk', ?_⟩
      unfold checkRequired at hrequired ⊢
      split at hrequired
      · next hmissing =>
        have hseen := (missing?_eq_none_iff ho.here hnotes).mp hmissing
        have hmissing' : missing? (moved ref) found' = none :=
          (missing?_eq_none_iff ((hr ref).orderly ho.here) hnotes').mpr fun field hf hreq =>
            hseen field ((hr ref).rows.mem_iff.mp hf) hreq
        rw [hmissing']
        exact hrequired
      · cases hrequired

/-- A block is decoded into alike, whatever the order of the rows of its tables. -/
theorem decodeMessage_reordered (hr : ∀ ref, (schema ref).Reorders (moved ref)) {ref : Ref}
    (hu : schema.Throughout Table.Unhandled ref) (ho : schema.Throughout Table.Orderly ref) :
    (decodeMessage schema config ref : Decode σ S Unit).Implies (decodeMessage moved config ref) :=
  (implies_onBlock (Schema.initialiseWithin_reordered hr _ ho)).bind fun _ => message_reordered hr _ hu ho

end

end Decode

end BlockCodec
