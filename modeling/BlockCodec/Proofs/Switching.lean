import BlockCodec.Proofs.Consignments
import BlockCodec.Proofs.Forgetting
import BlockCodec.Proofs.Looks
import BlockCodec.Proofs.Ordering
import BlockCodec.Proofs.Vacancy

/-!
# The last member of a group

A member of a group that comes while another one is active makes all that the group held forgotten, so
blocks that differ in the places of the group alone become the same (`Schema.activate_forgets`). Of the
records for a group only those decide what is decoded which no record of another member stands behind:
`Table.settled`. From the first of these on, decoding with the others and without them is the same
(`Decode.Laps.settles`).
-/

namespace BlockCodec

open Bytes (AgreeOn)

variable {Ref : Type} {schema : Schema Ref} {table : Table Ref} {field : Field Ref} {group active : Nat}
  {block other ready after : Bytes}

-- ---------------------------------------------------------------------------
-- The active member
-- ---------------------------------------------------------------------------

/-- The slot of the group, for whichever member it is read, holds this tag. -/
def Table.Active (table : Table Ref) (group : Nat) (block : Bytes) (active : Nat) : Prop :=
  ∀ member ∈ table.members group, member.slot block = .ok active

/-- The places of a group. -/
abbrev Table.groupZone (table : Table Ref) (group : Nat) : Nat → Prop := table.zone (.group group)

namespace Table

theorem zone_of_member {member : Field Ref} (hm : member ∈ table.members group) {place : Nat}
    (hp : member.extent place) : table.groupZone group place := by
  obtain ⟨hf, hg⟩ := Schema.group_of_mem_members hm
  exact ⟨member, hf, Field.lane_eq_group_iff.mpr hg, hp⟩

theorem active_congr (hu : table.Unhandled) (h : table.Active group block active)
    (hagree : AgreeOn (table.groupZone group) block after) : table.Active group after active := by
  intro member hm
  have hh := hu member (Schema.group_of_mem_members hm).1
  rw [Field.slot_congr_extent hh (hagree.mono fun _ => zone_of_member hm)]
  exact h member hm

/-- What one member tells of the slot, all of them tell. -/
theorem active_of_slot (hgrouped : table.Grouped) (hf : field ∈ table.fields) (hg : field.group? = some group)
    (hslot : field.slot block = .ok active) : table.Active group block active := by
  intro member hm
  obtain ⟨hmf, hmg⟩ := Schema.group_of_mem_members hm
  exact hgrouped.slot_member hf hmf ⟨Option.isSome_of_eq_some hg, hmg.trans hg.symm⟩ hslot

end Table

theorem View.which_of_active (htags : table.fields.Pairwise (·.tag ≠ ·.tag))
    (hne : table.members group ≠ []) (h : table.Active group block active) :
    View.which ⟨table, block⟩ group = .ok (if active = 0 then none else some active) := by
  obtain ⟨member, rest, hmembers⟩ := List.exists_cons_of_ne_nil hne
  have hm : member ∈ table.members group := by simp [hmembers]
  rw [which]
  simp only [hmembers]
  rw [Table.lookUp_of_mem htags (Schema.group_of_mem_members hm).1, bind_ok, h member hm]
  rfl

-- ---------------------------------------------------------------------------
-- Activations
-- ---------------------------------------------------------------------------

/-- When a member becomes active, it does not matter what the group held. -/
theorem Schema.activate_forgets {size : Nat} (hgrouped : table.Grouped) (hu : table.Unhandled)
    (hf : field ∈ table.fields) (hg : field.group? = some group) (hlaid : field.Laid schema size)
    (hs : size ≤ block.length) (hagree : AgreeOn (fun place => ¬table.groupZone group place) block other)
    (hr : (schema.activate table field).result block = (.ok (), ready)) :
    (schema.activate table field).result other = (.ok (), ready) := by
  have hsome : field.group?.isSome := Option.isSome_of_eq_some hg
  have hkeep : (field.fillInitial schema.initialiseNested).KeepsLength :=
    Field.keepsLength_fillInitial (keepsLength_initialiseWithin schema maxInitialDepth)
  obtain ⟨group', cleared, filled, hgroup, hclear, hfill, hset⟩ := (activate_eq_ok hsome).mp hr
  obtain rfl : group = group' := Option.some.inj (hg.symm.trans hgroup)
  have hforgets : (clearEach (table.members group)).Forgets
      fun place => ∃ member ∈ table.members group, place ∈ member.data :=
    Edit.Forgets.forM fun _ _ => Edit.forgets_clear
  obtain ⟨hout, hcleared⟩ := hforgets _ _ _ hagree
  rw [hclear] at hout hcleared
  have hcleared := hcleared () rfl
  rcases hclear' : (clearEach (table.members group)).result other with ⟨outcome, cleared'⟩
  rw [hclear'] at hout hcleared
  obtain rfl : .ok () = outcome := hout
  -- the storage of every member is the same by now, so the same is filled in
  have hkeeps : Edit.KeepsTo (· ∈ field.data)
      (Edit.inside field field.data (field.fillInitial schema.initialiseNested)) :=
    Edit.keepsTo_of_local (Edit.local_inside hkeep)
  obtain ⟨filled', hfill', hdata⟩ := (hkeeps ()).follows hfill
    (hcleared.mono fun _ hp => .inr ⟨field, mem_members hf hg, hp⟩)
  refine (activate_eq_ok hsome).mpr ⟨group, cleared', filled', hg, hclear', hfill',
    Decode.setSlot_congr hlaid ?_ hset ⟨hdata.1, fun place hp => ?_⟩⟩
  · have hwipes := wipes_clearEach (table.members group) block
    rw [hclear] at hwipes
    rw [← ((hkeeps ()).keeps hfill).1, hwipes.1]
    exact hs
  · by_cases hin : place ∈ field.data
    · exact hdata.2 place hin
    · rw [← ((hkeeps ()).keeps hfill).2 place hin, ← ((hkeeps ()).keeps hfill').2 place hin]
      refine hcleared.2 place (or_iff_not_imp_left.mpr fun hzone => ?_)
      obtain ⟨member, hm, hlane, hextent⟩ := not_not.mp hzone
      have hmg := Field.lane_eq_group_iff.mp hlane
      have hsame : field.SameGroup member := ⟨hsome, hmg.trans hg.symm⟩
      obtain ⟨_, hmult⟩ := Field.multiplicity_of_group hsame.symm.1
      refine ⟨member, mem_members hm hmg, ?_⟩
      rw [← Field.storage_eq_data (by simp [hmult])]
      refine (Field.extent_cases (hu member hm) hextent).resolve_right fun hslot => hp ?_
      simpa only [Field.slotPlaces, hsame.sizeSlot_eq (hgrouped field hf member hm hsame)] using hslot

-- ---------------------------------------------------------------------------
-- Records
-- ---------------------------------------------------------------------------

namespace Table

variable {records rest : List Bytes} {bytes : Bytes}

/-- The numbers under which members of the group come, in their order. -/
def numbersIn (table : Table Ref) (group : Nat) (records : List Bytes) : List Nat :=
  records.filterMap fun bytes => if table.inGroup group bytes then Wire.number? bytes else none

/-- A record for the group, and behind it there is one of another member. -/
def superseded (table : Table Ref) (group : Nat) (bytes : Bytes) (rest : List Bytes) : Bool :=
  table.inGroup group bytes && (table.numbersIn group rest).any (some · != Wire.number? bytes)

/-- The records without those for the group that are superseded: what is left of the group is the unbroken
run at its end in which the last member comes. -/
def settled (table : Table Ref) (group : Nat) : List Bytes → List Bytes
  | [] => []
  | bytes :: rest =>
    if table.superseded group bytes rest then settled table group rest else bytes :: settled table group rest

theorem numbersIn_cons_of_member {number : Nat} (hg : table.inGroup group bytes = true)
    (hn : Wire.number? bytes = some number) :
    table.numbersIn group (bytes :: rest) = number :: table.numbersIn group rest := by
  simp [numbersIn, hg, hn]

theorem numbersIn_cons_of_other (hg : table.inGroup group bytes = false) :
    table.numbersIn group (bytes :: rest) = table.numbersIn group rest := by
  simp [numbersIn, hg]

/-- Behind a record for the group that is not superseded, the same member comes again and no other. -/
theorem eq_of_not_superseded {number : Nat} (hg : table.inGroup group bytes = true)
    (hn : Wire.number? bytes = some number) (h : table.superseded group bytes rest = false) :
    ∀ last ∈ table.numbersIn group rest, last = number := by
  simpa [superseded, hg, hn] using h

/-- Where only one member comes, nothing is superseded. -/
theorem settled_of_run {number : Nat} (h : ∀ other ∈ table.numbersIn group records, other = number) :
    table.settled group records = records := by
  induction records with
  | nil => rfl
  | cons bytes rest ih =>
    cases hg : table.inGroup group bytes with
    | false =>
      rw [numbersIn_cons_of_other hg] at h
      rw [settled, superseded, hg, Bool.false_and, if_neg (by simp), ih h]
    | true =>
      obtain ⟨own, hown, -⟩ := inGroup_iff.mp hg
      rw [numbersIn_cons_of_member hg hown] at h
      obtain ⟨rfl, hrest⟩ := List.forall_mem_cons.mp h
      have hkeep : table.superseded group bytes rest = false := by
        simp [superseded, hg, hown]
        exact fun other ho => hrest other ho
      rw [settled, hkeep, if_neg (by simp), ih hrest]

end Table

namespace Decode

variable {S : Type} [Handler Ref S] {config : DecodeConfig} {nested : Ref → Decode Bytes S Unit} {depth : Nat}
  {bytes : Bytes} {mark : Option Nat} {before : Bytes × List S} {handlers handlers' : List S}

/-- A record for a member of a group makes it active, and then its value is read. -/
theorem lap_member_iff (htags : table.fields.Pairwise (·.tag ≠ ·.tag)) (hf : field ∈ table.fields)
    (hh : field.isHandled = false) (hg : field.group?.isSome) (hskip : config.skipMismatched = false)
    {type : WireType} {behind : Input Bytes}
    (htag : Wire.nextTag.result (.ofBytes bytes) = (.ok (field.tag, type), behind))
    {after : Bytes × List S} :
    Lap schema config nested depth table bytes mark before after ↔ mark = none ∧ field.accepts type = true ∧
      ∃ ready input, (prepare schema table field).result before.1 = (.ok (), ready) ∧
        (inside field field.data (value config nested field)).result ⟨behind, ready, before.2⟩ =
          (.ok (), ⟨input, after.1, after.2⟩) ∧ input.left = 0 := by
  obtain ⟨group, hm⟩ := Field.multiplicity_of_group hg
  obtain ⟨entry, hentry, rfl⟩ := Cursor.entryOf?_of_mem htags hf
  have hmark : tracked? entry = none := by
    refine Option.eq_none_iff_forall_ne_some.mpr fun mark ht => ?_
    have hrequired := isRequired_of_tracked ((Cursor.mem_entries_iff htags).mpr hentry) ht
    simp [Field.isRequired, hm] at hrequired
  have hconclude : conclude entry.field = pure () := by
    unfold conclude
    rw [hm]
  rw [lap_iff_record htag]
  simp only [hentry, record, hh, hskip, Bool.false_eq_true, if_false, Bool.not_false, if_true,
    stored_single (show entry.field.multiplicity ≠ .repeated by simp [hm]), hconclude, hmark]
  cases haccepts : entry.field.accepts type with
  | false =>
    simp only [Bool.false_eq_true, if_false, false_and, and_false, iff_false]
    rintro ⟨input, -, hr⟩
    cases hr
  | true =>
    simp only [if_true, true_and, bind_assoc]
    constructor
    · rintro ⟨input, hleft, hr⟩
      obtain ⟨_, middle, hprepare, hr⟩ := Step.result_bind_eq_ok.mp hr
      obtain ⟨_, last, hvalue, hr⟩ := Step.result_bind_eq_ok.mp hr
      obtain ⟨hprepare, hmiddle⟩ := result_onBlock_eq_ok.mp hprepare
      rw [hmiddle] at hvalue
      obtain ⟨hnone, hlast⟩ := Prod.mk.inj hr
      cases hnone
      obtain rfl : last = ⟨input, after.1, after.2⟩ := hlast
      exact ⟨rfl, middle.block, input, hprepare, hvalue, hleft⟩
    · rintro ⟨rfl, ready, input, hprepare, hvalue, hleft⟩
      refine ⟨input, hleft, ?_⟩
      refine Step.result_bind_eq_ok.mpr ⟨(), ⟨behind, ready, before.2⟩,
        result_onBlock_eq_ok.mpr ⟨hprepare, rfl⟩, ?_⟩
      exact Step.result_bind_eq_ok.mpr ⟨(), ⟨input, after.1, after.2⟩, hvalue, rfl⟩

/-- A member that is not the active one is prepared alike, whatever the group holds. -/
theorem prepare_forgets {size held : Nat} (hgrouped : table.Grouped) (hu : table.Unhandled)
    (hf : field ∈ table.fields) (hg : field.group? = some group) (hlaid : field.Laid schema size)
    (hs : size ≤ block.length) (hagree : AgreeOn (fun place => ¬table.groupZone group place) block other)
    (hslot : field.slot block = .ok active) (hne : active ≠ field.tag)
    (hslot' : field.slot other = .ok held) (hne' : held ≠ field.tag)
    (hr : (prepare schema table field).result block = (.ok (), ready)) :
    (prepare schema table field).result other = (.ok (), ready) := by
  obtain ⟨_, hm⟩ := Field.multiplicity_of_group (Option.isSome_of_eq_some hg)
  have hactivates : ∀ {content : Bytes} {tag : Nat}, field.slot content = .ok tag → tag ≠ field.tag →
      (prepare schema table field).result content = (schema.activate table field).result content := by
    intro content tag hslot hne
    have hask : (Edit.ask field.slot).result content = (.ok tag, content) := by
      rw [Edit.ask, Step.result_ofRun, hslot]
    simp only [prepare, hm]
    rw [Step.result_bind_ok hask, if_pos hne]
  rw [hactivates hslot hne] at hr
  rw [hactivates hslot' hne']
  exact Schema.activate_forgets hgrouped hu hf hg hlaid hs hagree hr
end Decode

-- ---------------------------------------------------------------------------
-- With the superseded records and without them
-- ---------------------------------------------------------------------------

/-- A table that passes the checks, without handled fields, its storage and slots lying apart. -/
structure Table.Parted (schema : Schema Ref) (table : Table Ref) : Prop where
  fits : table.Fits schema
  unhandled : table.Unhandled
  grouped : table.Grouped
  slotted : table.Slotted schema
  disjoint : table.Disjoint

namespace Decode

variable {config : DecodeConfig} {nested : Ref → Decode Bytes Empty Unit} {depth number : Nat}
  {bytes middle : Bytes} {rest : List Bytes} {mark : Option Nat}

theorem member_of_inGroup (hp : table.Parted schema) (hg : table.inGroup group bytes = true)
    (hn : Wire.number? bytes = some number) : ∃ field ∈ table.fields, field.tag = number ∧
      field.group? = some group ∧ field.Laid schema table.size ∧ 0 < number := by
  obtain ⟨own, hown, field, hf, rfl, hgroup⟩ := Table.inGroup_iff.mp hg
  obtain rfl : number = field.tag := Option.some.inj (hn.symm.trans hown)
  obtain ⟨_, hm⟩ := Field.multiplicity_of_group (Option.isSome_of_eq_some hgroup)
  exact ⟨field, hf, rfl, hgroup, hp.slotted field hf (hp.unhandled field hf) (by simp [hm]),
    hp.fits.tag_pos field hf⟩

/-- A record for a member leaves the member active, and it is no required field. -/
theorem active_of_lap (hp : table.Parted schema) (hskip : config.skipMismatched = false)
    (hn : ∀ inner, Step.Local everywhere everywhere (nested inner)) (hg : table.inGroup group bytes = true)
    (hnumber : Wire.number? bytes = some number) (hs : table.size ≤ block.length)
    (h : Lap schema config nested depth table bytes mark (block, []) (after, [])) :
    mark = none ∧ table.Active group after number := by
  obtain ⟨field, hf, rfl, hgroup, hlaid, -⟩ := member_of_inGroup hp hg hnumber
  have hsome : field.group?.isSome := Option.isSome_of_eq_some hgroup
  have hh := hp.unhandled field hf
  obtain ⟨type, behind, htag⟩ := Wire.nextTag_of_number? hnumber
  obtain ⟨hmark, -, ready, input, hprepare, hvalue, -⟩ :=
    (lap_member_iff hp.fits.tags_ne hf hh hsome hskip htag).mp h
  refine ⟨hmark, Table.active_of_slot hp.grouped hf hgroup ?_⟩
  have hlocal : Step.Local (· ∈ field.data) (· ∈ field.data)
      (inside field field.data (value config nested field)) := local_inside (local_value fun inner _ => hn inner)
  have hkeeps : AgreeOn (fun place => place ∉ field.data) ready after := by
    have hstep := hlocal.keeps ⟨behind, ready, []⟩
    rwa [hvalue] at hstep
  rw [Field.slot_congr (hkeeps.mono fun place hslot hin => ?_)]
  · exact slot_prepare hlaid hs (hp.fits.tag_le field hf) hsome hprepare
  · refine Field.not_slotPlaces_of_storage hh (hp.disjoint field hf trivial).1 ?_ hslot
    obtain ⟨_, hm⟩ := Field.multiplicity_of_group hsome
    rwa [Field.storage_eq_data (by simp [hm])]

/-- A record for a member that is not the active one makes the same of blocks that differ in the group. -/
theorem lap_of_switch {held : Nat} (hp : table.Parted schema) (hskip : config.skipMismatched = false)
    (hg : table.inGroup group bytes = true) (hnumber : Wire.number? bytes = some number)
    (hs : table.size ≤ block.length) (hagree : AgreeOn (fun place => ¬table.groupZone group place) block other)
    (ha : table.Active group block active) (hne : active ≠ number)
    (hheld : table.Active group other held) (hne' : held ≠ number)
    (h : Lap schema config nested depth table bytes mark (block, []) (after, [])) :
    Lap schema config nested depth table bytes mark (other, []) (after, []) := by
  obtain ⟨field, hf, rfl, hgroup, hlaid, -⟩ := member_of_inGroup hp hg hnumber
  have hsome : field.group?.isSome := Option.isSome_of_eq_some hgroup
  have hm := Schema.mem_members hf hgroup
  obtain ⟨type, behind, htag⟩ := Wire.nextTag_of_number? hnumber
  obtain ⟨hmark, haccepts, ready, input, hprepare, hrest⟩ :=
    (lap_member_iff hp.fits.tags_ne hf (hp.unhandled field hf) hsome hskip htag).mp h
  refine (lap_member_iff hp.fits.tags_ne hf (hp.unhandled field hf) hsome hskip htag).mpr
    ⟨hmark, haccepts, ready, input, ?_, hrest⟩
  exact prepare_forgets hp.grouped hp.unhandled hf hgroup hlaid hs hagree (ha field hm) hne (hheld field hm) hne'
    hprepare

/-- One block is decoded with the superseded records and the other without them: they differ in the group
at most, where the other has nothing yet, and if they differ another member is still to come. -/
structure Trails (table : Table Ref) (group : Nat) (records : List Bytes) (block other : Bytes) : Prop where
  agree : AgreeOn (fun place => ¬table.groupZone group place) block other
  idle : table.Active group other 0
  ahead : block = other ∨ ∃ active, table.Active group block active ∧
    ∃ number ∈ table.numbersIn group records, number ≠ active

/-- A record for another field is decoded outside the places of the group. -/
theorem confined_of_other (hp : table.Parted schema) (hn : ∀ inner, Step.Local everywhere everywhere (nested inner))
    (hg : table.inGroup group bytes = false) (hrecord : Wire.Record bytes) (mark : Option Nat) :
    ∃ places : Nat → Prop, (∀ place, table.groupZone group place → ¬places place) ∧
      Confined places fun block after => Lap schema config nested depth table bytes mark (block, []) (after, []) := by
  obtain ⟨number, hnumber⟩ := hrecord.number?
  have hne : table.laneOf number ≠ .group group := fun hlane => by
    have hin := Table.inGroup_iff.mpr ⟨number, hnumber, (Table.laneOf_eq_group_iff hp.fits.tags_ne).mp hlane⟩
    simp [hg] at hin
  exact ⟨table.zone (table.laneOf number),
    fun _ => hp.disjoint.zone_apart hp.fits.tags_ne (Ne.symm hne), confined_lap hnumber hn mark⟩

/-- A record for another field is decoded alike in both. -/
theorem Trails.pass (hp : table.Parted schema) (hn : ∀ inner, Step.Local everywhere everywhere (nested inner))
    (hg : table.inGroup group bytes = false) (hrecord : Wire.Record bytes)
    (ht : Trails table group (bytes :: rest) block other)
    (h : Lap schema config nested depth table bytes mark (block, []) (middle, [])) :
    ∃ last, Lap schema config nested depth table bytes mark (other, []) (last, []) ∧
      Trails table group rest middle last := by
  obtain ⟨places, hapart, hconfined⟩ := confined_of_other hp hn hg hrecord mark
  obtain ⟨last, hlast, hin⟩ := hconfined.follows h (ht.agree.mono fun place hp hzone => hapart place hzone hp)
  have hkeeps := hconfined.keeps h
  have hkeeps' := hconfined.keeps hlast
  have hagree : ∀ place, block.byte place = other.byte place → middle.byte place = last.byte place := by
    intro place hplace
    by_cases hown : places place
    · exact hin.2 place hown
    · rw [← hkeeps.2 place hown, ← hkeeps'.2 place hown, hplace]
  refine ⟨last, hlast, ⟨hin.1, fun place hout => hagree place (ht.agree.2 place hout)⟩,
    Table.active_congr hp.unhandled ht.idle (hkeeps'.mono hapart), ?_⟩
  refine ht.ahead.imp (fun heq => ?_) fun ⟨active, ha, hmore⟩ => ⟨active, ?_, ?_⟩
  · exact Bytes.ext_byte hin.1 fun place => hagree place (by rw [heq])
  · exact Table.active_congr hp.unhandled ha (hkeeps.mono hapart)
  · rwa [Table.numbersIn_cons_of_other hg] at hmore

/-- A superseded record is decoded in the one block only. -/
theorem Trails.drop (hp : table.Parted schema) (hskip : config.skipMismatched = false)
    (hn : ∀ inner, Step.Local everywhere everywhere (nested inner)) (hs : table.size ≤ block.length)
    (hsuperseded : table.superseded group bytes rest = true) (ht : Trails table group (bytes :: rest) block other)
    (h : Lap schema config nested depth table bytes mark (block, []) (middle, [])) :
    mark = none ∧ Trails table group rest middle other := by
  obtain ⟨hg, hmore⟩ := Bool.and_eq_true_iff.mp hsuperseded
  obtain ⟨number, hnumber, hmember⟩ := Table.inGroup_iff.mp hg
  obtain ⟨hmark, hactive⟩ := active_of_lap hp hskip hn hg hnumber hs h
  have hconfined : Confined (table.groupZone group) fun block after =>
      Lap schema config nested depth table bytes mark (block, []) (after, []) := by
    rw [Table.groupZone, ← (Table.laneOf_eq_group_iff hp.fits.tags_ne).mpr hmember]
    exact confined_lap hnumber hn mark
  refine ⟨hmark, (hconfined.keeps h).symm.trans ht.agree, ht.idle, .inr ⟨number, hactive, ?_⟩⟩
  simpa [hnumber] using hmore

/-- The first record that is not superseded makes the blocks the same. -/
theorem Trails.meet (hp : table.Parted schema) (hskip : config.skipMismatched = false)
    (hs : table.size ≤ block.length) (hg : table.inGroup group bytes = true)
    (hlast : table.superseded group bytes rest = false) (ht : Trails table group (bytes :: rest) block other)
    (h : Lap schema config nested depth table bytes mark (block, []) (middle, [])) :
    Lap schema config nested depth table bytes mark (other, []) (middle, []) := by
  obtain heq | ⟨active, ha, last, hmem, hne⟩ := ht.ahead
  · exact heq ▸ h
  · obtain ⟨number, hnumber, -⟩ := Table.inGroup_iff.mp hg
    obtain ⟨-, -, -, -, -, hpos⟩ := member_of_inGroup hp hg hnumber
    rw [Table.numbersIn_cons_of_member hg hnumber] at hmem
    -- the members still to come are all this one
    obtain rfl : last = number :=
      (List.mem_cons.mp hmem).elim id (Table.eq_of_not_superseded hg hnumber hlast last)
    exact lap_of_switch hp hskip hg hnumber hs ht.agree ha (Ne.symm hne) ht.idle (by omega) h

/-- Without the superseded records of a group a message is decoded into the same block. -/
theorem Laps.settles (hp : table.Parted schema) (hskip : config.skipMismatched = false)
    (hn : ∀ inner, Step.Local everywhere everywhere (nested inner)) {records : List Bytes} {marks : List Nat}
    (hrecords : ∀ bytes ∈ records, Wire.Record bytes) (hs : table.size ≤ block.length)
    (ht : Trails table group records block other)
    (h : Laps schema config nested depth table records marks (block, []) (after, [])) :
    ∃ more, Laps schema config nested depth table (table.settled group records) more (other, []) (after, []) ∧
      ∀ mark ∈ marks, mark ∈ more := by
  induction records generalizing marks block other with
  | nil =>
    cases h
    obtain heq | ⟨_, _, _, hmem, -⟩ := ht.ahead
    · exact ⟨[], heq ▸ .nil _, nofun⟩
    · cases hmem
  | cons bytes rest ih =>
    obtain ⟨hrecord, hrest⟩ := List.forall_mem_cons.mp hrecords
    cases h with
    | @cons _ _ mark marks _ middle _ hlap hlaps =>
    obtain ⟨middle, handlers⟩ := middle
    obtain rfl : handlers = [] := Subsingleton.elim _ _
    have hlen : block.length = middle.length := (Laps.keeps hn (.cons hlap (.nil _))).1
    rw [hlen] at hs
    cases hsuperseded : table.superseded group bytes rest with
    | true =>
      obtain ⟨rfl, ht⟩ := ht.drop hp hskip hn (hlen ▸ hs) hsuperseded hlap
      rw [Table.settled, if_pos hsuperseded]
      exact ih hrest hs ht hlaps
    | false =>
      rw [Table.settled, hsuperseded, if_neg (by simp)]
      cases hg : table.inGroup group bytes with
      | false =>
        obtain ⟨last, hlast, ht⟩ := ht.pass hp hn hg hrecord hlap
        obtain ⟨more, hmore, hsub⟩ := ih hrest hs ht hlaps
        refine ⟨_, .cons hlast hmore, fun number hm => ?_⟩
        exact (List.mem_append.mp hm).elim (List.mem_append_left _) fun h => List.mem_append_right _ (hsub _ h)
      | true =>
        obtain ⟨number, hnumber, -⟩ := Table.inGroup_iff.mp hg
        rw [Table.settled_of_run (Table.eq_of_not_superseded hg hnumber hsuperseded)]
        exact ⟨_, .cons (ht.meet hp hskip (hlen ▸ hs) hg hsuperseded hlap) hlaps, fun _ h => h⟩

/-- The last member that came is the active one. -/
theorem Laps.active_last (hp : table.Parted schema) (hskip : config.skipMismatched = false)
    (hn : ∀ inner, Step.Local everywhere everywhere (nested inner)) {records : List Bytes} {marks : List Nat}
    (hrecords : ∀ bytes ∈ records, Wire.Record bytes) (hs : table.size ≤ block.length)
    (ha : table.Active group block active)
    (h : Laps schema config nested depth table records marks (block, []) (after, [])) :
    table.Active group after ((table.numbersIn group records).getLast?.getD active) := by
  induction records generalizing marks block active with
  | nil =>
    cases h
    exact ha
  | cons bytes rest ih =>
    obtain ⟨hrecord, hrest⟩ := List.forall_mem_cons.mp hrecords
    cases h with
    | @cons _ _ mark marks _ middle _ hlap hlaps =>
    obtain ⟨middle, handlers⟩ := middle
    obtain rfl : handlers = [] := Subsingleton.elim _ _
    have hlen : block.length = middle.length := (Laps.keeps hn (.cons hlap (.nil _))).1
    obtain ⟨number, hnumber⟩ := hrecord.number?
    cases hg : table.inGroup group bytes with
    | true =>
      have hmiddle := (active_of_lap hp hskip hn hg hnumber hs hlap).2
      rw [Table.numbersIn_cons_of_member hg hnumber, List.getLast?_cons, Option.getD_some]
      exact ih hrest (hlen ▸ hs) hmiddle hlaps
    | false =>
      rw [Table.numbersIn_cons_of_other hg]
      refine ih hrest (hlen ▸ hs) (Table.active_congr hp.unhandled ha ?_) hlaps
      obtain ⟨places, hapart, hconfined⟩ := confined_of_other hp hn hg hrecord mark
      exact (hconfined.keeps hlap).mono hapart

end Decode

/-- In a block that has been initialised no member is active. -/
theorem Schema.active_initialise {ref : Ref} {initial : Bytes} (hp : (schema ref).Parted schema)
    (hr : (schema.initialise ref).result block = (.ok (), initial)) : (schema ref).Active group initial 0 := by
  intro member hm
  obtain ⟨hf, hg⟩ := group_of_mem_members hm
  obtain ⟨_, hmult⟩ := Field.multiplicity_of_group (Option.isSome_of_eq_some hg)
  have hh := hp.unhandled member hf
  have hlaid := hp.slotted member hf hh (by simp [hmult])
  have hfresh := Table.fresh_of_reset hp.fits.tags_ne hp.disjoint
    (keepsLength_initialiseWithin schema maxInitialDepth) hr member hf trivial hh
  exact hfresh.slot_eq_zero hlaid (hlaid.slot_isSome (.inr (Option.isSome_of_eq_some hg)))

/-- The last member of a group wins entirely. A message that is accepted is a sequence of records; of those
for a group only the unbroken run at the end counts, in which the last member comes. Without the others the
message is decoded into the same block, and the active member is the last one. -/
theorem last_member_wins {Ref : Type} (schema : Schema Ref) (ref : Ref) (content block after : Bytes)
    (hv : Table.validate schema ref = .ok ()) (hu : schema.Throughout Table.Unhandled ref)
    (hd : schema.Throughout Table.Disjoint ref) (h : decodeBytes schema ref content block = (.ok (), after)) :
    (∃ records : List Bytes, (∀ bytes ∈ records, Wire.Record bytes) ∧ records.flatten = content) ∧
    ∀ records : List Bytes, (∀ bytes ∈ records, Wire.Record bytes) → records.flatten = content →
      ∀ group, decodeBytes schema ref ((schema ref).settled group records).flatten block = (.ok (), after) ∧
        ((schema ref).members group ≠ [] →
          View.which ⟨schema ref, after⟩ group = .ok ((schema ref).numbersIn group records).getLast?) := by
  have hplain := Schema.plain_of_validate hv hu
  have hp : (schema ref).Parted schema := ⟨(Schema.fits_of_validate hv).here, hu.here,
    (Schema.grouped_of_validate hv).here, (Schema.slotted_of_validate hv).here, hd.here⟩
  obtain ⟨initial, hinit, hmakes⟩ := Decode.makes_decodeMessage_iff.mp (decodeBytes_eq_ok.mp h)
  refine ⟨hmakes.records hplain, ?_⟩
  rintro records hrecords rfl group
  have hn := Decode.local_messageWithin_everywhere (σ := Bytes) (S := Empty) schema {} 32
  have hiff : ∀ {content : Bytes}, Decode.Makes (Decode.messageWithin schema {} (32 + 1) ref) content
      (initial, ([] : List Empty)) (after, []) ↔ _ := Decode.makes_iff_laps hplain
  obtain ⟨hcheck, others, marks, hlaps, hflat, hmissing⟩ := hiff.mp hmakes
  obtain rfl : others = records :=
    Wire.eq_of_flatten (hlaps.record hplain.here (Decode.nestsAlike_messageWithin hplain)) hrecords hflat
  have hsize := Table.checkBlock_le hcheck
  have hidle : (schema ref).Active group initial 0 := Schema.active_initialise hp hinit
  have hstart : Decode.Trails (schema ref) group others initial initial := ⟨.refl _ _, hidle, .inl rfl⟩
  obtain ⟨more, hmore, hsub⟩ := hlaps.settles hp rfl hn hrecords hsize hstart
  refine ⟨decodeBytes_eq_ok.mpr (Decode.makes_decodeMessage_iff.mpr ⟨initial, hinit, hiff.mpr
    ⟨hcheck, _, more, hmore, rfl, Decode.missing?_mono hsub hmissing⟩⟩), fun hne => ?_⟩
  rw [View.which_of_active hp.fits.tags_ne hne (hlaps.active_last hp rfl hn hrecords hsize hidle)]
  cases hlast : ((schema ref).numbersIn group others).getLast? with
  | none => rfl
  | some number =>
    have hne : number ≠ 0 := by
      obtain ⟨bytes, -, hnumber⟩ := List.mem_filterMap.mp (List.mem_of_getLast? hlast)
      cases hg : (schema ref).inGroup group bytes with
      | false => simp [hg] at hnumber
      | true =>
        rw [hg, if_pos rfl] at hnumber
        obtain ⟨-, -, -, -, -, hpos⟩ := Decode.member_of_inGroup hp hg hnumber
        omega
    rw [Option.getD_some, if_neg hne]

/-- A seal, a stamp, a number and the stamp again. -/
def restamped : List Bytes := [[0x1a, 0x01, 0x07], [0x22, 0x02, 0x08, 0x05], [0x08, 0x2c], [0x22, 0x02, 0x08, 0x06]]

theorem last_member_wins_letter :
    Table.validate letter false = .ok () ∧ letter.Throughout Table.Unhandled false ∧
    letter.Throughout Table.Disjoint false ∧ (∀ bytes ∈ restamped, Wire.Record bytes) ∧
    (letter false).settled 1 restamped = restamped.tail ∧
    ∃ after, decodeBytes letter false restamped.flatten (Bytes.zeros 26) = (.ok (), after) ∧
      decodeBytes letter false restamped.tail.flatten (Bytes.zeros 26) = (.ok (), after) ∧
      View.which ⟨letter false, after⟩ 1 = .ok (some 4) := by
  have hvalid : Table.validate letter false = .ok () := rfl
  have haccepts : (decodeBytes letter false restamped.flatten (Bytes.zeros 26)).1 = .ok () := by cbv
  have hrecords : ∀ bytes ∈ restamped, Wire.Record bytes := by
    simp only [restamped, List.forall_mem_cons]
    exact ⟨⟨3, .delimited, ⟨[1, 7], 2, 1, true⟩, ⟨[], 0, 3, true⟩, by cbv, by cbv, rfl⟩,
      ⟨4, .delimited, ⟨[2, 8, 5], 3, 1, true⟩, ⟨[], 0, 4, true⟩, by cbv, by cbv, rfl⟩,
      ⟨1, .varint, ⟨[0x2c], 1, 1, true⟩, ⟨[], 0, 2, true⟩, by cbv, by cbv, rfl⟩,
      ⟨4, .delimited, ⟨[2, 8, 6], 3, 1, true⟩, ⟨[], 0, 4, true⟩, by cbv, by cbv, rfl⟩,
      List.forall_mem_nil _⟩
  have hsettled : (letter false).settled 1 restamped = restamped.tail := by cbv
  have hnumbers : (letter false).numbersIn 1 restamped = [3, 4, 4] := by cbv
  obtain ⟨-, hwins⟩ := last_member_wins letter false restamped.flatten (Bytes.zeros 26) _ hvalid
    (letter_unhandled false) (letter_disjoint false) (Prod.ext haccepts rfl)
  obtain ⟨hdecodes, hwhich⟩ := hwins restamped hrecords rfl 1
  rw [hsettled] at hdecodes
  refine ⟨hvalid, letter_unhandled false, letter_disjoint false, hrecords, hsettled, _,
    Prod.ext haccepts rfl, hdecodes, ?_⟩
  rw [hwhich (by simp [letter, Table.members, Field.group?, Field.oneof, Field.repeated, Field.ofStorage]), hnumbers]
  rfl

end BlockCodec
