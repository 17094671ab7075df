import BlockCodec.Proofs.Footprints

/-!
# Steps that keep to their places

A step that succeeds `KeepsTo` some places of the block when it changes no others and when no others
decide what it does, as do the steps that are local to these places. What keeps to places that lie apart
may be done in either order: `Confined.commutes`. A record for a field is decoded in the field's own
places, one for a member of a group in those of the group: `Decode.keepsTo_record`.
-/

namespace BlockCodec

variable {places more : Nat → Prop} {R S T : Bytes → Bytes → Prop}

-- ---------------------------------------------------------------------------
-- Changes of a block
-- ---------------------------------------------------------------------------

/-- A change of the block happens in these places, and nothing else decides about it. -/
structure Confined (places : Nat → Prop) (R : Bytes → Bytes → Prop) : Prop where
  keeps : ∀ {block after : Bytes}, R block after → Bytes.AgreeOn (fun place => ¬places place) block after
  follows : ∀ {block after other : Bytes}, R block after → Bytes.AgreeOn places block other →
    ∃ last, R other last ∧ Bytes.AgreeOn places after last

/-- What the one does after the other it may as well do before it. -/
def Commutes (R S : Bytes → Bytes → Prop) : Prop :=
  ∀ ⦃block middle after : Bytes⦄, R block middle → S middle after →
    ∃ other, S block other ∧ R other after

/-- One change after the other. -/
def Then (R S : Bytes → Bytes → Prop) (block after : Bytes) : Prop :=
  ∃ middle, R block middle ∧ S middle after

theorem confined_exists {ι : Type} {R : ι → Bytes → Bytes → Prop} (h : ∀ i, Confined places (R i)) :
    Confined places fun block after => ∃ i, R i block after where
  keeps := by
    rintro block after ⟨i, hr⟩
    exact (h i).keeps hr
  follows := by
    rintro block after other ⟨i, hr⟩ hagree
    obtain ⟨last, hlast, hsame⟩ := (h i).follows hr hagree
    exact ⟨last, ⟨i, hlast⟩, hsame⟩

theorem confined_and {c : Prop} (h : c → Confined places R) :
    Confined places fun block after => c ∧ R block after where
  keeps := fun ⟨hc, hr⟩ => (h hc).keeps hr
  follows := by
    rintro block after other ⟨hc, hr⟩ hagree
    obtain ⟨last, hlast, hsame⟩ := (h hc).follows hr hagree
    exact ⟨last, ⟨hc, hlast⟩, hsame⟩

theorem Confined.congr (h : Confined places R) (hiff : ∀ block after, S block after ↔ R block after) :
    Confined places S := by
  obtain rfl : S = R := funext fun block => funext fun after => propext (hiff block after)
  exact h

/-- Changes of places that lie apart commute. -/
theorem Confined.commutes (h : Confined places R) (h' : Confined more S)
    (hapart : ∀ place, places place → ¬more place) : Commutes R S := by
  intro block middle after hr hs
  have hback := (h.keeps hr).symm.mono fun place hp hin => hapart place hin hp
  obtain ⟨other, hother, hout⟩ := h'.follows hs hback
  have hkeeps := (h'.keeps hother).mono hapart
  obtain ⟨last, hlast, hin⟩ := h.follows hr hkeeps
  -- the two ways end alike: in the places of either, and in those of neither
  have hsame : last = after := by
    refine Bytes.ext_byte ?_ fun place => ?_
    · rw [← (h.keeps hlast).1, ← (h'.keeps hother).1, ← (h'.keeps hs).1, (h.keeps hr).1]
    · by_cases hp : places place
      · rw [← hin.2 place hp, (h'.keeps hs).2 place (hapart place hp)]
      · rw [← (h.keeps hlast).2 place hp]
        by_cases hm : more place
        · exact (hout.2 place hm).symm
        · rw [← (h'.keeps hother).2 place hm, ← (h'.keeps hs).2 place hm, (h.keeps hr).2 place hp]
  exact ⟨other, hother, hsame ▸ hlast⟩

theorem Commutes.then (h : Commutes R T) (h' : Commutes S T) : Commutes (Then R S) T := by
  rintro block middle after ⟨first, hr, hs⟩ ht
  obtain ⟨second, ht, hs⟩ := h' hs ht
  obtain ⟨third, ht, hr⟩ := h hr ht
  exact ⟨third, ht, second, hr, hs⟩

theorem Commutes.then_right (h : Commutes R S) (h' : Commutes R T) : Commutes R (Then S T) := by
  rintro block middle after hr ⟨first, hs, ht⟩
  obtain ⟨second, hs, hr⟩ := h hr hs
  obtain ⟨third, ht, hr⟩ := h' hr ht
  exact ⟨third, ⟨second, hs, ht⟩, hr⟩

-- ---------------------------------------------------------------------------
-- Edits
-- ---------------------------------------------------------------------------

namespace Edit

variable {Ref α : Type} {field : Field Ref} {span : Span} {edit : Edit α}

/-- Where the edit succeeds, it keeps to these places. -/
def KeepsTo (places : Nat → Prop) (edit : Edit α) : Prop :=
  ∀ value, Confined places fun block after => edit.result block = (.ok value, after)

/-- An edit that is local to its places keeps to them. -/
theorem keepsTo_of_local (h : Step.Local places places edit) : KeepsTo places edit := by
  refine fun value => ⟨fun {block after} hr => ?_, fun {block after other} hr hagree => ?_⟩
  · have hkeeps := h.keeps block
    rwa [hr] at hkeeps
  · obtain ⟨hout, hafter⟩ := h.alike (x := block) (y := other) ⟨rfl, hagree⟩
    rw [hr] at hout hafter
    exact ⟨(edit.result other).2, Prod.ext hout.symm rfl, hafter.agree⟩

theorem clear_eq_ok {block after : Bytes} : (clear field span).result block = (.ok (), after) ↔
    span.Within block.length ∧ after.length = block.length ∧
      ∀ place, after.byte place = if place ∈ span then 0 else block.byte place := by
  constructor
  · intro hr
    rw [clear, change] at hr
    obtain ⟨stored, content, hs, hc, rfl⟩ := inside_eq_ok hr
    cases hc
    have hlen : (Bytes.zeros stored.length).length = stored.length := Bytes.length_zeros _
    refine ⟨Bytes.within_of_slice hs, Bytes.length_overwrite_slice hs hlen, fun place => ?_⟩
    rw [Bytes.byte_overwrite_slice hs hlen, Bytes.byte_zeros]
  · rintro ⟨hw, hlen, hbyte⟩
    obtain ⟨stored, hs⟩ := Bytes.slice_isSome hw
    have hzeros : (Bytes.zeros stored.length).length = stored.length := Bytes.length_zeros _
    refine (result_change hs _).trans (Prod.ext rfl (Bytes.ext_byte ?_ fun place => ?_))
    · rw [Bytes.length_overwrite_slice hs hzeros, hlen]
    · rw [Bytes.byte_overwrite_slice hs hzeros, Bytes.byte_zeros, hbyte]

/-- The edit succeeds and makes the second block of the first. -/
def Makes (edit : Edit Unit) (block after : Bytes) : Prop := edit.result block = (.ok (), after)

theorem makes_bind (edit next : Edit Unit) : (edit >>= fun _ => next).Makes = Then edit.Makes next.Makes := by
  funext block after
  refine propext (Step.result_bind_eq_ok.trans ⟨?_, ?_⟩)
  · rintro ⟨_, middle, hr, hs⟩
    exact ⟨middle, hr, hs⟩
  · rintro ⟨middle, hr, hs⟩
    exact ⟨(), middle, hr, hs⟩

/-- Spans may be cleared in either order, even where they overlap. -/
theorem commutes_clear {other : Field Ref} {span' : Span} :
    Commutes (clear field span).Makes (clear other span').Makes := by
  intro block middle after hr hs
  obtain ⟨hw, hlen, hbyte⟩ := clear_eq_ok.mp hr
  obtain ⟨hw', hlen', hbyte'⟩ := clear_eq_ok.mp hs
  rw [hlen] at hw'
  obtain ⟨stored, hstored⟩ := Bytes.slice_isSome hw'
  have hfirst : (clear other span').result block = _ := result_change hstored _
  obtain ⟨-, hlen₁, hbyte₁⟩ := clear_eq_ok.mp hfirst
  refine ⟨_, hfirst, clear_eq_ok.mpr ⟨hlen₁ ▸ hw, ?_, fun place => ?_⟩⟩
  · rw [hlen₁, hlen', hlen]
  · rw [hbyte', hbyte, hbyte₁]
    split <;> split <;> rfl

theorem commutes_pure {R : Bytes → Bytes → Prop} : Commutes (Makes (pure ())) R := by
  intro block _ after hr hs
  cases hr
  exact ⟨after, hs, rfl⟩

theorem commutes_pure_right {R : Bytes → Bytes → Prop} : Commutes R (Makes (pure ())) := by
  intro block middle _ hr hs
  cases hs
  exact ⟨block, rfl, hr⟩

/-- Edits that commute may be done in any order. -/
theorem makes_forM_perm {ι : Type} {f : ι → Edit Unit} {list other : List ι} (hp : list.Perm other)
    (hc : ∀ a ∈ list, ∀ b ∈ list, a ≠ b → Commutes (f a).Makes (f b).Makes) {block after : Bytes}
    (h : Makes (list.forM f) block after) : Makes (other.forM f) block after := by
  induction hp generalizing block with
  | nil => exact h
  | cons a _ ih =>
    rw [List.forM, makes_bind] at h ⊢
    obtain ⟨middle, hfirst, hrest⟩ := h
    exact ⟨middle, hfirst, ih (fun b hb c hc' => hc b (by simp [hb]) c (by simp [hc'])) hrest⟩
  | swap a b rest =>
    by_cases hab : b = a
    · subst hab
      exact h
    · simp only [List.forM, makes_bind] at h ⊢
      obtain ⟨first, hb, second, ha, hrest⟩ := h
      obtain ⟨first, ha, hb⟩ := hc b (by simp) a (by simp) hab hb ha
      exact ⟨first, ha, second, hb, hrest⟩
  | trans hab _ ih ih' =>
    refine ih' (fun a ha b hb => ?_) (ih hc h)
    exact hc a (hab.mem_iff.mpr ha) b (hab.mem_iff.mpr hb)

end Edit

-- ---------------------------------------------------------------------------
-- Lanes
-- ---------------------------------------------------------------------------

/-- What has to keep its order: the values of one field, and those of the members of one group. -/
inductive Lane
  | number (number : Nat)
  | group (group : Nat)
deriving DecidableEq

section

variable {Ref : Type} {table : Table Ref} {field other : Field Ref}

def Field.lane (field : Field Ref) : Lane :=
  match field.group? with
  | some group => .group group
  | none => .number field.tag

theorem Field.lane_eq_group_iff {group : Nat} : field.lane = .group group ↔ field.group? = some group := by
  unfold lane
  cases field.group? <;> simp

theorem Field.tag_of_lane {number : Nat} (h : field.lane = .number number) : field.tag = number := by
  unfold lane at h
  cases hg : field.group? with
  | none => simpa [hg] using h
  | some group => simp [hg] at h

/-- The lane of a number on the wire; a number that the table does not have is a lane of its own. -/
def Table.laneOf (table : Table Ref) (number : Nat) : Lane :=
  (table.entryOf? number).elim (.number number) fun entry => entry.field.lane

/-- The places of the fields of a lane. -/
def Table.zone (table : Table Ref) (lane : Lane) (place : Nat) : Prop :=
  ∃ field ∈ table.fields, field.lane = lane ∧ field.extent place

theorem Field.SameGroup.lane_eq (h : field.SameGroup other) : other.lane = field.lane := by
  obtain ⟨group, hg⟩ := Option.isSome_iff_exists.mp h.1
  rw [lane, lane, h.2]
  simp only [hg]

theorem Table.zone_of_groupPlaces (hg : field.group?.isSome) {place : Nat}
    (h : Schema.groupPlaces table field place) : table.zone field.lane place := by
  obtain ⟨member, hm, hgroup, hp⟩ := h
  have hsame : field.SameGroup member := ⟨hg, hgroup⟩
  exact ⟨member, hm, hsame.lane_eq, hp⟩

/-- Different lanes have no place in common. -/
theorem Table.Disjoint.zone_apart (hd : table.Disjoint) (htags : table.fields.Pairwise (·.tag ≠ ·.tag))
    {lane lane' : Lane} (hne : lane ≠ lane') {place : Nat} (hp : table.zone lane place) :
    ¬table.zone lane' place := by
  obtain ⟨field, hf, rfl, hp⟩ := hp
  rintro ⟨other, ho, rfl, hpo⟩
  have htag : other.tag ≠ field.tag := fun ht => hne (by rw [Table.eq_of_tag_eq htags hf ho ht])
  exact ((hd field hf trivial).2 other ho htag).disjoint (fun hsame => hne hsame.lane_eq.symm) hp hpo

end

-- ---------------------------------------------------------------------------
-- Decoding steps
-- ---------------------------------------------------------------------------

namespace Decode

variable {σ S α Ref : Type} {step : Decode σ S α}

/-- Where the step succeeds, it keeps to these places of the block; its inputs and handlers are as they
come. -/
def KeepsTo (places : Nat → Prop) (step : Decode σ S α) : Prop :=
  ∀ value input input' handlers handlers', Confined places fun block after =>
    step.result ⟨input, block, handlers⟩ = (.ok value, ⟨input', after, handlers'⟩)

theorem keepsTo_of_local (h : Step.Local places places step) : KeepsTo places step := by
  intro value input input' handlers handlers'
  refine ⟨fun {block after} hr => ?_, fun {block after other} hr hagree => ?_⟩
  · have hkeeps := h.keeps ⟨input, block, handlers⟩
    rwa [hr] at hkeeps
  · obtain ⟨hout, hafter⟩ := h.alike (x := ⟨input, block, handlers⟩) (y := ⟨input, other, handlers⟩) ⟨rfl, hagree⟩
    rcases ho : step.result ⟨input, other, handlers⟩ with ⟨outcome, input₁, last, others⟩
    rw [hr, ho] at hout hafter
    obtain rfl : Except.ok value = outcome := hout
    obtain ⟨rfl, rfl⟩ := Prod.mk.inj hafter.aside_eq
    exact ⟨last, rfl, hafter.agree⟩

variable [Source σ] [Handler Ref S] {schema : Schema Ref} {config : DecodeConfig}
  {nested : Ref → Decode σ S Unit} {table : Table Ref} {type : WireType} {depth : Nat}

/-- What stands under a number on the wire is decoded in the places of its lane. -/
theorem local_lane (hn : ∀ inner, Step.Local everywhere everywhere (nested inner)) (number : Nat) :
    Step.Local (table.zone (table.laneOf number)) (table.zone (table.laneOf number))
      (record schema config nested depth table type number (table.entryOf? number)) := by
  have hskip : ∀ places : Nat → Prop, Step.Local places places
      (do skipValue number type; pure none : Decode σ S (Option Nat)) :=
    fun _ => (local_onInput _).bind fun _ => Step.local_pure none
  unfold record Table.laneOf
  cases he : table.entryOf? number with
  | none => exact Step.local_unless fun _ => hskip _
  | some entry =>
    have hf := Cursor.mem_of_entryOf? he
    have hextent : ∀ place, entry.field.extent place → table.zone entry.field.lane place :=
      fun _ hp => ⟨entry.field, hf, rfl, hp⟩
    refine Step.local_ite (fun _ => Step.local_ite (fun hh => ?_) fun hh => ?_)
      fun _ => Step.local_unless fun _ => hskip _
    · have hslot : ∀ place, place ∈ entry.field.data → table.zone entry.field.lane place :=
        fun place hp => hextent place ⟨entry.field.data, by simp [Field.spans, hh], hp⟩
      exact (local_handled hslot).bind fun _ => Step.local_pure _
    · have hinBlock : entry.field.isHandled = false := by simpa using hh
      exact (local_stored hextent (fun _ hp => hp) hf hinBlock (fun hg _ => Table.zone_of_groupPlaces hg)
        fun inner _ => hn inner).bind fun _ => Step.local_pure _

theorem keepsTo_record (hn : ∀ inner, Step.Local everywhere everywhere (nested inner)) (number : Nat) :
    KeepsTo (table.zone (table.laneOf number))
      (record schema config nested depth table type number (table.entryOf? number)) :=
  keepsTo_of_local (local_lane hn number)

end Decode

end BlockCodec
