import Mathlib
import BlockCodec.Proofs.Lookup

/-!
# Fields by their positions

A table answers the position of a field by bisection or from the front, and a cursor that goes round the
table finds the field itself. In a table with unique tags these are the same field, wherever earlier calls
have left the cursor: `Cursor.find_exact`. For bisection this rests on the order of the tags
(`Table.bisect_eq_some_iff`), for the cursor on what it has passed (`Cursor.Placed`), which every call
keeps.
-/

namespace BlockCodec

variable {Ref : Type} {table : Table Ref} {field : Field Ref} {tag index : Nat}

-- ---------------------------------------------------------------------------
-- Positions
-- ---------------------------------------------------------------------------

namespace Table

/-- Neighbours in order make the whole table ordered. -/
theorem isSorted_iff : table.isSorted = true ↔ table.fields.Pairwise (·.tag < ·.tag) := by
  have : IsTrans (Field Ref) (·.tag < ·.tag) := ⟨fun _ _ _ => Nat.lt_trans⟩
  rw [← List.isChain_iff_pairwise, isSorted]
  generalize table.fields = fields
  induction fields with
  | nil => simp
  | cons first rest ih => cases rest <;> simp_all

variable {first second low high steps : Nat} {other : Field Ref}

/-- In an ordered table a smaller tag stands before. -/
theorem position_lt (hs : table.fields.Pairwise (·.tag < ·.tag)) (hf : table.fields[first]? = some field)
    (ho : table.fields[second]? = some other) (hlt : field.tag < other.tag) : first < second := by
  obtain ⟨hfirst, rfl⟩ := List.getElem?_eq_some_iff.mp hf
  obtain ⟨hsecond, rfl⟩ := List.getElem?_eq_some_iff.mp ho
  rcases Nat.lt_trichotomy first second with hbefore | rfl | hbehind
  · exact hbefore
  · exact absurd hlt (Nat.lt_irrefl _)
  · exact absurd hlt (Nat.lt_asymm (List.pairwise_iff_getElem.mp hs second first hsecond hfirst hbehind))

/-- A tag stands in one position only. -/
theorem position_unique (htags : table.fields.Pairwise (·.tag ≠ ·.tag))
    (hf : table.fields[first]? = some field) (ho : table.fields[second]? = some other)
    (heq : field.tag = other.tag) : first = second := by
  obtain ⟨hfirst, rfl⟩ := List.getElem?_eq_some_iff.mp hf
  obtain ⟨hsecond, rfl⟩ := List.getElem?_eq_some_iff.mp ho
  have hne := List.pairwise_iff_getElem.mp htags
  rcases Nat.lt_trichotomy first second with hlt | rfl | hlt
  · exact absurd heq (hne first second hfirst hsecond hlt)
  · rfl
  · exact absurd heq.symm (hne second first hsecond hfirst hlt)

/-- In an ordered table bisection finds the position of a tag between its bounds. -/
theorem bisect_eq_some_iff (hs : table.fields.Pairwise (·.tag < ·.tag)) (hhigh : high ≤ table.fields.length)
    (hsteps : high - low < steps) :
    table.bisect tag steps low high = some index ↔
      low ≤ index ∧ index < high ∧ ∃ field, table.fields[index]? = some field ∧ field.tag = tag := by
  induction steps generalizing low high with
  | zero => omega
  | succ steps ih =>
    rw [bisect]
    by_cases hlt : low < high
    · rw [if_pos hlt]
      obtain ⟨middle, hmiddle⟩ : ∃ middle, middle = (low + high) / 2 := ⟨_, rfl⟩
      have hinside : middle < table.fields.length := by omega
      have hget := List.getElem?_eq_getElem hinside
      simp only [← hmiddle, hget]
      generalize table.fields[middle] = seen at hget
      by_cases hseen : seen.tag = tag
      · rw [if_pos hseen]
        constructor
        · rintro ⟨⟩
          exact ⟨by omega, by omega, seen, hget, hseen⟩
        · rintro ⟨-, -, field, hf, rfl⟩
          have htags := hs.imp fun hlt => Nat.ne_of_lt hlt
          rw [position_unique htags hget hf hseen]
      · rw [if_neg hseen]
        by_cases hless : seen.tag < tag
        · rw [if_pos hless, ih hhigh (by omega)]
          constructor
          · exact fun ⟨hlow, hrest⟩ => ⟨by omega, hrest⟩
          · rintro ⟨hlow, hindex, field, hf, rfl⟩
            exact ⟨position_lt hs hget hf hless, hindex, field, hf, rfl⟩
        · rw [if_neg hless, ih (by omega) (by omega)]
          constructor
          · exact fun ⟨hlow, hindex, hrest⟩ => ⟨hlow, by omega, hrest⟩
          · rintro ⟨hlow, hindex, field, hf, rfl⟩
            exact ⟨hlow, position_lt hs hf hget (by omega), field, hf, rfl⟩
    · rw [if_neg hlt]
      exact ⟨nofun, fun ⟨hlow, hindex, _⟩ => by omega⟩

/-- The position of a tag, whether it is bisected for or looked up from the front. -/
theorem fieldIndex?_eq_some_iff (htags : table.fields.Pairwise (·.tag ≠ ·.tag)) :
    table.fieldIndex? tag = some index ↔ ∃ field, table.fields[index]? = some field ∧ field.tag = tag := by
  rw [fieldIndex?]
  split
  · next hs =>
    rw [bisect_eq_some_iff (isSorted_iff.mp hs) (Nat.le_refl _) (by omega)]
    refine ⟨fun ⟨_, _, hfield⟩ => hfield, fun ⟨field, hf, htag⟩ => ⟨Nat.zero_le _, ?_, field, hf, htag⟩⟩
    exact (List.getElem?_eq_some_iff.mp hf).1
  · rw [List.findIdx?_eq_some_iff_getElem]
    constructor
    · rintro ⟨hindex, htag, -⟩
      exact ⟨_, List.getElem?_eq_getElem hindex, beq_iff_eq.mp htag⟩
    · rintro ⟨field, hf, rfl⟩
      obtain ⟨hindex, rfl⟩ := List.getElem?_eq_some_iff.mp hf
      refine ⟨hindex, beq_self_eq_true _, fun earlier hlt hsame => ?_⟩
      exact List.pairwise_iff_getElem.mp htags earlier index _ hindex hlt (beq_iff_eq.mp hsame)

end Table

-- ---------------------------------------------------------------------------
-- Cursors that have been used
-- ---------------------------------------------------------------------------

namespace Cursor

variable {cursor : Cursor} {front : List (Field Ref)} {entry : Entry Ref}

theorem requiredBefore_behind (front : List (Field Ref)) :
    (behind front).requiredBefore = front.countP Field.isRequired := by
  induction front using List.reverseRecOn with
  | nil => rfl
  | append_singleton front field ih =>
    rw [behind_append, step, List.countP_append, ih]
    cases hr : field.isRequired <;> simp [hr]

/-- What a cursor has passed is told by its position. -/
theorem Placed.eq_behind (h : cursor.Placed table) :
    cursor.index ≤ table.fields.length ∧ cursor = behind (table.fields.take cursor.index) := by
  obtain ⟨front, hfront, rfl⟩ := h
  rw [index_behind, ← List.prefix_iff_eq_take.mp hfront]
  exact ⟨hfront.length_le, rfl⟩

theorem Placed.requiredBefore_eq (h : cursor.Placed table) :
    cursor.requiredBefore = (table.fields.take cursor.index).countP Field.isRequired := by
  conv_lhs => rw [h.eq_behind.2]
  exact requiredBefore_behind _

/-- A cursor that is moved on has passed the field under it as well. -/
theorem Placed.next (h : cursor.Placed table) : (cursor.next table).2.Placed table := by
  obtain ⟨front, ⟨rest, ht⟩, rfl⟩ := h
  rw [Cursor.next, index_behind, ← ht, List.getElem?_append_right (Nat.le_refl _), Nat.sub_self]
  cases rest with
  | nil => exact ⟨front, ⟨[], ht⟩, rfl⟩
  | cons field rest =>
    refine ⟨front ++ [field], ⟨rest, ?_⟩, (behind_append front field).symm⟩
    rw [List.append_assoc]
    exact ht

/-- What can be asked of a cursor. -/
inductive Call
  | find (tag : Nat)
  | next
  | reset
deriving Repr, DecidableEq

/-- The cursor that a call leaves. -/
def Call.after (table : Table Ref) (cursor : Cursor) : Call → Cursor
  | .find tag => (cursor.find table tag).2
  | .next => (cursor.next table).2
  | .reset => start

/-- The cursor that calls in a row leave of a new one. -/
def reached (table : Table Ref) (calls : List Call) : Cursor := calls.foldl (Call.after table) start

theorem Placed.after (htags : table.fields.Pairwise (·.tag ≠ ·.tag)) (h : cursor.Placed table) (call : Call) :
    (call.after table cursor).Placed table := by
  cases call with
  | find tag =>
    obtain ⟨after, hfind, hafter⟩ := find_placed htags h tag
    rw [Call.after, hfind]
    exact hafter
  | next => exact h.next
  | reset => exact placed_start

theorem placed_reached (htags : table.fields.Pairwise (·.tag ≠ ·.tag)) (calls : List Call) :
    (reached table calls).Placed table := by
  suffices h : ∀ cursor : Cursor, cursor.Placed table → (calls.foldl (Call.after table) cursor).Placed table from
    h start placed_start
  induction calls with
  | nil => exact fun cursor h => h
  | cons call calls ih => exact fun cursor h => ih _ (h.after htags call)

/-- What a lookup finds stands in the position of its tag. -/
theorem Placed.find_eq_some_iff (htags : table.fields.Pairwise (·.tag ≠ ·.tag)) (h : cursor.Placed table) :
    (cursor.find table tag).1 = some entry ↔
      table.fields[entry.index]? = some entry.field ∧ entry.field.tag = tag ∧
        entry = (behind (table.fields.take entry.index)).entry entry.field := by
  constructor
  · intro hfind
    have htag := tag_of_findWithin (Prod.ext hfind rfl)
    obtain ⟨front, rest, ht⟩ := List.append_of_mem (mem_of_findWithin (Prod.ext hfind rfl))
    rw [← htag, find_of_split htags h ht, Option.some.injEq] at hfind
    have hindex : entry.index = front.length := by rw [← hfind, Cursor.entry, index_behind]
    rw [hindex, ht, List.take_left]
    exact ⟨by simp, htag, hfind.symm⟩
  · rintro ⟨hf, rfl, hentry⟩
    obtain ⟨hindex, hget⟩ := List.getElem?_eq_some_iff.mp hf
    have ht : table.fields = table.fields.take entry.index ++ entry.field :: table.fields.drop (entry.index + 1) := by
      rw [← hget, List.getElem_cons_drop, List.take_append_drop]
    rw [find_of_split htags h ht]
    exact congrArg some hentry.symm

/-- Wherever calls have left a cursor, it has counted the required fields before it, and a lookup finds the
entry in the position of the tag, with the required fields before that, or nothing where no field has the
tag. -/
theorem find_exact (htags : table.fields.Pairwise (·.tag ≠ ·.tag)) (calls : List Call) :
    let cursor := reached table calls
    cursor.index ≤ table.fields.length ∧
    cursor.requiredBefore = (table.fields.take cursor.index).countP Field.isRequired ∧
    ∀ tag,
      (∀ index, (∃ entry, (cursor.find table tag).1 = some entry ∧ entry.index = index) ↔
        table.fieldIndex? tag = some index) ∧
      (∀ entry, (cursor.find table tag).1 = some entry →
        table.fields[entry.index]? = some entry.field ∧ entry.field.tag = tag ∧
        entry.requiredIndex? =
          if entry.field.isRequired then some ((table.fields.take entry.index).countP Field.isRequired)
          else none) ∧
      ((cursor.find table tag).1 = none ↔ ∀ field ∈ table.fields, field.tag ≠ tag) := by
  intro cursor
  have h : cursor.Placed table := placed_reached htags calls
  refine ⟨h.eq_behind.1, h.requiredBefore_eq, fun tag => ⟨fun index => ?_, fun entry hfind => ?_, ?_⟩⟩
  · rw [Table.fieldIndex?_eq_some_iff htags]
    constructor
    · rintro ⟨entry, hfind, rfl⟩
      obtain ⟨hf, htag, -⟩ := (h.find_eq_some_iff htags).mp hfind
      exact ⟨entry.field, hf, htag⟩
    · rintro ⟨field, hf, htag⟩
      have hindex : (behind (table.fields.take index)).index = index := by
        rw [index_behind, List.length_take_of_le (Nat.le_of_lt (List.getElem?_eq_some_iff.mp hf).1)]
      refine ⟨(behind (table.fields.take index)).entry field, (h.find_eq_some_iff htags).mpr ?_, hindex⟩
      simp only [entry, hindex]
      exact ⟨hf, htag, trivial⟩
  · obtain ⟨hf, htag, hentry⟩ := (h.find_eq_some_iff htags).mp hfind
    refine ⟨hf, htag, ?_⟩
    rw [← requiredBefore_behind]
    exact congrArg Entry.requiredIndex? hentry
  · rw [Option.eq_none_iff_forall_ne_some]
    constructor
    · rintro hnone field hf rfl
      obtain ⟨front, rest, ht⟩ := List.append_of_mem hf
      exact hnone _ (congrArg Prod.fst (find_of_split htags h ht))
    · intro hne entry hfind
      obtain ⟨hf, htag, -⟩ := (h.find_eq_some_iff htags).mp hfind
      exact hne entry.field (List.mem_of_getElem? hf) htag

/-- Two tables of the same fields, one of them in order: both cursors have been round the end, and now stand
on the last field and behind it. -/
theorem find_exact_rounded :
    ∃ sorted unsorted : Table Unit, sorted.isSorted = true ∧ unsorted.isSorted = false ∧
      reached sorted [.find 5, .next, .find 3] = ⟨2, 1⟩ ∧
      reached unsorted [.next, .find 7, .next, .next] = ⟨3, 2⟩ ∧
      sorted.fieldIndex? 2 = some 1 ∧ unsorted.fieldIndex? 2 = some 0 ∧
      (∃ entry, ((reached sorted [.find 5, .next, .find 3]).find sorted 2).1 = some entry ∧
        entry.index = 1) ∧
      ∃ entry, ((reached unsorted [.next, .find 7, .next, .next]).find unsorted 2).1 = some entry ∧
        entry.index = 0 := by
  let first : Field Unit := .ofStorage 1 "first" .bool 0 1
  let second : Field Unit := (Field.ofStorage 2 "second" .bool 1 1).implicit
  let third : Field Unit := .ofStorage 3 "third" .bool 2 1
  let sorted : Table Unit := ⟨"Sorted", [first, second, third], 3⟩
  let unsorted : Table Unit := ⟨"Unsorted", [second, third, first], 3⟩
  have hsorted : sorted.fields.Pairwise (·.tag ≠ ·.tag) := by decide
  have hunsorted : unsorted.fields.Pairwise (·.tag ≠ ·.tag) := by decide
  obtain ⟨-, -, hfind⟩ := find_exact hsorted [.find 5, .next, .find 3]
  obtain ⟨-, -, hfind'⟩ := find_exact hunsorted [.next, .find 7, .next, .next]
  refine ⟨sorted, unsorted, by decide, by decide, by decide, by decide, by decide, by decide,
    ((hfind 2).1 1).mpr (by decide), ((hfind' 2).1 0).mpr (by decide)⟩

end Cursor

end BlockCodec
