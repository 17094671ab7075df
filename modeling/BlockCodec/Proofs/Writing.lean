import BlockCodec.Proofs.Invariants

/-!
# What is written through views

Through a view every text is stored whole, so what a reader finds before the first zero byte of its
storage is a text again: it is `Legible`. `Schema.ViewMoves` says what else may be done through views when
tables have handled fields, whose own places come with no promise. `ViewMoves.legible`: all texts of a
block stay legible.
-/

namespace BlockCodec

variable {Ref : Type} {schema : Schema Ref} {ref : Ref} {field other : Field Ref}
  {block after stored content : Bytes}

-- ---------------------------------------------------------------------------
-- Texts
-- ---------------------------------------------------------------------------

namespace Bytes

theorem ne_zero_of_mem_utf8EncodeChar {char : Char} (h : char ≠ '\x00') {byte : UInt8}
    (hb : byte ∈ String.utf8EncodeChar char) : byte ≠ 0 := by
  have hv : char.val.toNat ≠ 0 := fun hz => h (Char.ext (UInt32.toNat_inj.mp hz))
  have hlt := char.val.toNat_lt
  have hnat : ∀ number : Nat, number % 256 ≠ 0 → UInt8.ofNat number ≠ 0 := fun number hn hz =>
    hn (by simpa using congrArg UInt8.toNat hz)
  simp only [String.utf8EncodeChar] at hb
  split at hb
  · cases List.mem_singleton.mp hb
    exact hnat _ (by omega)
  · split at hb
    · simp only [List.mem_cons, List.not_mem_nil, or_false] at hb
      rcases hb with rfl | rfl <;> exact hnat _ (by omega)
    · split at hb <;> simp only [List.mem_cons, List.not_mem_nil, or_false] at hb
      · rcases hb with rfl | rfl | rfl <;> exact hnat _ (by omega)
      · rcases hb with rfl | rfl | rfl | rfl <;> exact hnat _ (by omega)

/-- What stands before the first zero byte of a text is a text: no character but the one has a zero
byte in it. -/
theorem takeWhile_ofText (text : String) :
    ∃ front : String, (ofText text).takeWhile (· != 0) = ofText front := by
  have hbytes : ∀ chars : List Char,
      ofText (String.ofList chars) = chars.flatMap String.utf8EncodeChar := fun chars => by
    simp only [ofText, String.toUTF8_eq_toByteArray, String.toByteArray_ofList]
    exact List.toList_data_toByteArray
  obtain ⟨chars, rfl⟩ : ∃ chars, text = String.ofList chars := ⟨text.toList, by simp⟩
  suffices h : ∃ front : List Char, (chars.flatMap String.utf8EncodeChar).takeWhile (· != 0) =
      front.flatMap String.utf8EncodeChar by
    obtain ⟨front, hfront⟩ := h
    exact ⟨String.ofList front, by rw [hbytes, hbytes, hfront]⟩
  induction chars with
  | nil => exact ⟨[], rfl⟩
  | cons char chars ih =>
    by_cases hz : char = '\x00'
    · exact ⟨[], by simp [hz, String.utf8EncodeChar]⟩
    · obtain ⟨front, hfront⟩ := ih
      refine ⟨char :: front, ?_⟩
      rw [List.flatMap_cons, List.flatMap_cons, List.takeWhile_append_of_pos, hfront]
      exact fun byte hb => by simpa using ne_zero_of_mem_utf8EncodeChar hz hb

theorem ofText_of_text? {bytes : Bytes} {text : String} (h : text? bytes = some text) :
    ofText text = bytes := by
  rw [text?, String.fromUTF8?] at h
  split at h <;> cases h
  rfl

theorem takeWhile_append_zero (bytes rest : Bytes) :
    (bytes ++ 0 :: rest).takeWhile (· != 0) = bytes.takeWhile (· != 0) := by
  induction bytes with
  | nil => simp
  | cons byte bytes ih => simp only [List.cons_append, List.takeWhile_cons, ih]

end Bytes

namespace Field

/-- The text that ends at the first zero byte of the storage is well-formed. -/
def Legible (field : Field Ref) (stored : Bytes) : Prop :=
  field.kind = .text → ∃ text : String, stored.takeWhile (· != 0) = Bytes.ofText text

theorem legible_append_zeros (field : Field Ref) (text : String) (count : Nat) :
    field.Legible (Bytes.ofText text ++ Bytes.zeros (count + 1)) := by
  intro _
  obtain ⟨front, hfront⟩ := Bytes.takeWhile_ofText text
  exact ⟨front, (Bytes.takeWhile_append_zero _ _).trans hfront⟩

theorem legible_zeros (field : Field Ref) (count : Nat) : field.Legible (Bytes.zeros count) := by
  intro _
  refine ⟨"", ?_⟩
  cases count with
  | zero => rfl
  | succ count => exact Bytes.takeWhile_append_zero [] _

theorem legible_applyDefault {value : Default} {filled : Bytes} {count : Nat}
    (hd : field.applyDefault value (Bytes.zeros count) = .ok filled) : field.Legible filled := by
  intro hk
  cases value with
  | text text =>
    simp only [applyDefault, hk] at hd
    split at hd
    · cases hd
    · cases hd
      obtain ⟨front, hfront⟩ := Bytes.takeWhile_ofText text
      refine ⟨front, ?_⟩
      rw [Bytes.overwrite, List.take_zero, List.nil_append, List.append_assoc]
      exact (Bytes.takeWhile_append_zero _ _).trans hfront
  | _ => simp [applyDefault, hk, Kind.isScalar] at hd

end Field

/-- The texts of the fields in the block are legible. -/
def Discipline.legible : Discipline Ref where
  watches field := field.isHandled = false
  slot _ _ _ := True
  value field stored := field.Legible stored

theorem Discipline.lawful_legible : Discipline.legible.Lawful schema .strict where
  slot_zero _ _ := trivial
  slot_tag _ _ _ _ _ _ := trivial
  slot_flag _ _ _ _ _ := trivial
  slot_count _ _ _ _ _ := trivial
  value_zeros field _ := field.legible_zeros _
  value_default field value filled _ _ _ hd := Field.legible_applyDefault hd
  value_stores field stored content _ hc _ := fun hk => by
    have hcanonical := hc.2
    simp only [Field.Canonical, hk] at hcanonical
    obtain ⟨text, -, count, rfl⟩ := hcanonical
    exact field.legible_append_zeros text count hk
  value_moves field inner _ _ _ hk _ _ _ _ _ := fun htext => by simp [hk] at htext

-- ---------------------------------------------------------------------------
-- Work
-- ---------------------------------------------------------------------------

/-- What is done through a view of a message may make the one block of the other. Handled fields may
be bound, and marked present where they have a flag. -/
inductive Schema.ViewMoves (schema : Schema Ref) (mode : Field.Mode) : Ref → Bytes → Bytes → Prop
  | refl {ref : Ref} (block : Bytes) : ViewMoves schema mode ref block block
  | trans {ref : Ref} {a b c : Bytes} : ViewMoves schema mode ref a b → ViewMoves schema mode ref b c →
    ViewMoves schema mode ref a c
  | store {ref : Ref} {field : Field Ref} {span : Span} {block stored content : Bytes}
    (hf : field ∈ (schema ref).fields) (hh : field.isHandled = false)
    (hk : ∀ inner, field.kind ≠ .message inner) (hp : field.Place mode block span)
    (hs : block.slice? span = some stored) (hc : field.Stores mode stored content)
    (hl : field.Legible content) :
    ViewMoves schema mode ref block (Bytes.overwrite block span.start content)
  | inner {ref inner : Ref} {field : Field Ref} {span : Span} {block stored content : Bytes}
    (hf : field ∈ (schema ref).fields) (hh : field.isHandled = false)
    (hk : field.kind = .message inner) (hp : field.Place mode block span)
    (hs : block.slice? span = some stored) (hw : ViewMoves schema mode inner stored content) :
    ViewMoves schema mode ref block (Bytes.overwrite block span.start content)
  | flag {ref : Ref} {field : Field Ref} {block after : Bytes} {value : Nat}
    (hf : field ∈ (schema ref).fields) (hh : field.isHandled = false)
    (hm : field.multiplicity = .optional) (hv : value = 1 ∨ mode = .loose ∧ value = 0)
    (hr : (Edit.setSlot field value).result block = (.ok (), after)) :
    ViewMoves schema mode ref block after
  | claim {ref : Ref} {field : Field Ref} {block after : Bytes} {count : Nat}
    (hf : field ∈ (schema ref).fields) (hh : field.isHandled = false)
    (hm : field.multiplicity = .repeated) (hc : count < field.capacity)
    (hu : mode = .strict → field.slot block = .ok count)
    (hr : (Edit.setSlot field (count + 1)).result block = (.ok (), after)) :
    ViewMoves schema mode ref block after
  | activate {ref : Ref} {field : Field Ref} {block after : Bytes}
    (hf : field ∈ (schema ref).fields) (hh : field.isHandled = false) (hg : field.group?.isSome)
    (hr : (schema.activate (schema ref) field).result block = (.ok (), after)) :
    ViewMoves schema mode ref block after
  | reset {ref : Ref} {field : Field Ref} {block after : Bytes} (hl : mode = .loose)
    (hf : field ∈ (schema ref).fields) (hh : field.isHandled = false)
    (ha : field.isActive block = .ok true)
    (hr : (field.reset schema.initialiseNested).result block = (.ok (), after)) :
    ViewMoves schema mode ref block after
  | initialise {ref : Ref} {block after : Bytes} {levels : Nat}
    (hr : (schema.initialiseWithin levels ref).result block = (.ok (), after)) :
    ViewMoves schema mode ref block after
  | aside {ref : Ref} {field : Field Ref} {block after : Bytes} (hf : field ∈ (schema ref).fields)
    (hh : field.isHandled = true)
    (hagree : Bytes.AgreeOn (fun place => ¬(place ∈ field.data ∨ field.slotPlaces place)) block after) :
    ViewMoves schema mode ref block after

namespace Schema

variable {mode : Field.Mode}

/-- Without handled fields there is nothing but moves. -/
theorem ViewMoves.toMoves (h : schema.ViewMoves mode ref block after)
    (hu : schema.Throughout Table.Unhandled ref) : schema.Moves mode ref block after := by
  induction h with
  | refl block => exact .refl block
  | trans _ _ iha ihb => exact (iha hu).trans (ihb hu)
  | store hf hh hk hp hs hc _ => exact .store hf hh hk hp hs hc
  | inner hf hh hk hp hs _ ih => exact .inner hf hh hk hp hs (ih (hu.nested (Table.mem_nested hf hh hk)))
  | flag hf hh hm hv hr => exact .flag hf hh hm hv hr
  | claim hf hh hm hc hu' hr => exact .claim hf hh hm hc hu' hr
  | activate hf hh hg hr => exact .activate hf hh hg hr
  | reset hl hf hh ha hr => exact .reset hl hf hh ha hr
  | initialise hr => exact .initialise hr
  | aside hf hh _ => simp [hu.here _ hf] at hh

theorem ViewMoves.length_eq (h : schema.ViewMoves mode ref block after) : after.length = block.length := by
  induction h with
  | refl => rfl
  | trans _ _ iha ihb => exact ihb.trans iha
  | store _ _ _ _ hs hc _ => exact Bytes.length_overwrite_slice hs hc.1
  | inner _ _ _ _ hs _ ih => exact Bytes.length_overwrite_slice hs ih
  | flag _ _ _ _ hr => exact Edit.touches_setSlot.keepsLength.length_eq hr
  | claim _ _ _ _ _ hr => exact Edit.touches_setSlot.keepsLength.length_eq hr
  | activate hf hh hg hr => exact (touches_activate hf hh hg).keepsLength.length_eq hr
  | reset _ _ hh _ hr =>
    exact (Field.touches_reset hh (keepsLength_initialiseWithin schema _)).keepsLength.length_eq hr
  | initialise hr => exact (keepsLength_initialiseWithin schema _ _).length_eq hr
  | aside _ _ hagree => exact hagree.1.symm

end Schema

/-- The flags of handled fields, which the checks do not look at, lie apart from the fields in the
block. -/
def Table.FlagsApart (table : Table Ref) : Prop :=
  ∀ field ∈ table.fields, field.isHandled = true → ∀ slot ∈ field.sizeSlot?,
    ∀ other ∈ table.fields, other.isHandled = false → ∀ span ∈ other.spans, slot.Apart span

instance (table : Table Ref) : Decidable table.FlagsApart := by
  unfold Table.FlagsApart
  infer_instance

namespace Schema

variable {mode : Field.Mode}

/-- The places of handled fields are apart from the fields in the block. -/
theorem not_inBlock_of_aside (hlaid : (schema ref).Laid schema) (hd : (schema ref).Disjoint)
    (hflags : (schema ref).FlagsApart) (hf : field ∈ (schema ref).fields) (hh : field.isHandled = true)
    {place : Nat} (hp : place ∈ field.data ∨ field.slotPlaces place) : ¬(schema ref).inBlock place := by
  rcases hp with hdata | ⟨slot, hslot, hin⟩
  · exact hlaid.not_inBlock_of_handled hf hh (hd field hf trivial).2 hdata
  · rintro ⟨other, ho, hoh, span, hspan, hpl⟩
    exact Span.apart_iff.mp (hflags field hf hh slot hslot other ho hoh span hspan) place hin hpl

/-- Texts stay legible. -/
theorem ViewMoves.legible (hw : schema.ViewMoves mode ref block after) {levels : Nat}
    (hlaid : schema.Laid levels ref) (hd : schema.Throughout Table.Disjoint ref)
    (hflags : schema.Throughout Table.FlagsApart ref) (hs : (schema ref).size ≤ block.length)
    (h : schema.Holds .legible ref block) : schema.Holds .legible ref after := by
  have hseparate : ∀ {ref}, schema.Throughout Table.Disjoint ref →
      schema.Throughout (Table.Separate Discipline.legible.watches) ref := fun hd =>
    hd.mono fun _ hsep field hf _ => hsep field hf trivial
  have hlaw : Discipline.legible.Lawful schema .strict := Discipline.lawful_legible
  induction hw generalizing levels with
  | refl => exact h
  | trans ha _ iha ihb =>
    exact ihb hlaid hd hflags (by rwa [ha.length_eq]) (iha hlaid hd hflags hs h)
  | @store ref field span block stored content hf hh hk hp hstored hc hl =>
    exact h.put hlaw hlaid.here (hseparate hd).here hf hh hp.loosen hstored hc.1 (fun _ => hl)
      fun inner hk' => absurd hk' (hk inner)
  | @inner ref inner field span block stored content hf hh hk hp hstored hw ih =>
    cases hlaid with
    | @intro levels _ hl hbelow =>
    have hn := Table.mem_nested hf hh hk
    have hfits := hl.stored field hf hh
    have hsize : (schema inner).size ≤ stored.length := by
      have hlen := hfits.length_place hp hstored
      exact Nat.le_of_eq (hlen.trans (hfits.dataSize_of_message hk)).symm
    refine h.put hlaw hl (hseparate hd).here hf hh hp.loosen hstored hw.length_eq
      (fun _ htext => by simp [hk] at htext) fun inner' hk' hstored' => ?_
    obtain rfl : inner = inner' := by simpa [hk] using hk'
    exact ih (hbelow inner hn) (hd.nested hn) (hflags.nested hn) hsize hstored'
  | flag hf hh hm _ hr =>
    exact h.setSlot hlaid.here (hseparate hd).here hs hf hh (by simp [Field.group?, hm]) trivial hr
  | claim hf hh hm _ _ hr =>
    exact h.setSlot hlaid.here (hseparate hd).here hs hf hh (by simp [Field.group?, hm]) trivial hr
  | activate hf hh hg hr =>
    cases hlaid with
    | intro hl hbelow => exact h.activate hlaw (.intro hl hbelow) (hseparate hd) hs hf hh hg hr
  | reset _ hf hh _ hr =>
    cases hlaid with
    | intro hl hbelow => exact h.reset hlaw (.intro hl hbelow) (hseparate hd) hf hh hr
  | initialise hr =>
    exact holds_initialiseWithin hlaw hlaid (hseparate hd)
      (fun field _ (hw : field.isHandled = false) hh => by simp [hw] at hh) hr
  | @aside ref field block after hf hh hagree =>
    refine holds_iff.mpr fun other ho hw => (holds_iff.mp h other ho hw).congr (hlaid.here.stored other ho) ?_
    refine hagree.mono fun place hext hp => ?_
    exact not_inBlock_of_aside hlaid.here hd.here hflags.here hf hh hp ⟨other, ho, hw, hext⟩

end Schema

end BlockCodec
