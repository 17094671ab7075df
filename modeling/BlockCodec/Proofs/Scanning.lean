import BlockCodec.Proofs.Emission

/-!
# What a scanner yields

Fields that are written one behind the other are scanned as they were written (`run_of_outgoing`).
Over any bytes at all, the fields that a scanner yields lie side by side from the first byte on, and it
stops where they end: at the end of the bytes, or in front of the field that it could not read
(`run_tiles`).
-/

namespace BlockCodec.Wire

open Input (Reads)
open Output (Puts)

variable {input : Input Bytes} {content : Bytes} {left taken offset : Nat} {field : RawField}

-- ---------------------------------------------------------------------------
-- Fields that are written
-- ---------------------------------------------------------------------------

def RawValue.type : RawValue → WireType
  | .varint _ => .varint
  | .fixed32 _ => .fixed32
  | .fixed64 _ => .fixed64
  | .delimited _ => .delimited

def writeRawValue {κ : Type} [Sink κ] : RawValue → Write κ Unit
  | .varint value => writeVarint value
  | .fixed32 value => writeFixed32 value
  | .fixed64 value => writeFixed64 value
  | .delimited bytes => writeDelimited bytes

/-- The payload is not too long for its length to be read back. -/
def RawValue.Short : RawValue → Prop
  | .delimited bytes => bytes.length < 2 ^ 32
  | _ => True

/-- A field that can be written and read back. -/
structure Outgoing where
  number : Nat
  value : RawValue
  number_pos : 0 < number
  number_le : number ≤ maxFieldNumber
  short : value.Short

def writeOutgoing {κ : Type} [Sink κ] (field : Outgoing) : Write κ Unit := do
  writeTag field.value.type field.number
  writeRawValue field.value

def RawValue.form : RawValue → Bytes
  | .varint value => Varint.encode value
  | .fixed32 value => Bytes.littleEndian 4 value.toNat
  | .fixed64 value => Bytes.littleEndian 8 value.toNat
  | .delimited bytes => delimitedForm bytes

namespace Outgoing

def form (field : Outgoing) : Bytes :=
  headerForm field.value.type field.number ++ field.value.form

/-- The field as a scanner should yield it. -/
def placed (field : Outgoing) (offset : Nat) : RawField :=
  ⟨field.number, field.value.type, offset, field.value⟩

theorem length_form_pos (field : Outgoing) : 0 < field.form.length := by
  rw [form, List.length_append, headerForm, Varint.length_encode]
  exact Nat.add_pos_left (Nat.succ_pos _) _

end Outgoing

theorem puts_writeRawValue (value : RawValue) : Puts (writeRawValue value) value.form := by
  cases value with
  | delimited bytes => exact puts_writeDelimited bytes
  | varint | fixed32 | fixed64 => exact puts_write _

theorem puts_writeOutgoing (field : Outgoing) : Puts (writeOutgoing field) field.form :=
  (puts_writeTag field.number_pos field.number_le).seq (puts_writeRawValue field.value)

theorem puts_outgoing (sent : List Outgoing) :
    Puts (sent.forM writeOutgoing) (sent.map Outgoing.form).flatten := by
  induction sent with
  | nil => exact Output.puts_pure
  | cons field rest ih =>
    rw [List.forM, List.map_cons, List.flatten_cons]
    exact (puts_writeOutgoing field).seq ih

theorem reads_readRawValue {value : RawValue} (h : value.Short) :
    Reads (readRawValue value.type) value.form value := by
  cases value with
  | varint number => exact (reads_readVarint number).map rfl
  | fixed32 number => exact (reads_readFixed32 number).map rfl
  | fixed64 number => exact (reads_readFixed64 number).map rfl
  | delimited bytes => exact reads_delimitedForm h

theorem reads_outgoing (field : Outgoing) (offset : Nat) :
    Reads (readRawField offset) field.form (some (field.placed offset)) :=
  (reads_readTag field.number_pos field.number_le).bind ((reads_readRawValue field.short).map rfl)

-- ---------------------------------------------------------------------------
-- Fields that are read
-- ---------------------------------------------------------------------------

/-- The next field, where something can be taken. -/
def nextRawField {σ : Type} [Source σ] (offset : Nat) : Read σ RawField := do
  let tag ← nextTag
  let value ← readRawValue tag.2
  pure { number := tag.1, type := tag.2, offset, value }

theorem tracks_nextRawField (offset : Nat) :
    Tracks WireError.IsShort 1 (nextRawField offset : Read Bytes RawField)
      (nextRawField offset : Read Bytes RawField) :=
  tracks_nextTag.first fun tag => (tracks_readRawValue tag.2).then fun _ => tracks_pure _

theorem result_readRawField (offset : Nat) (hat : input.At content left taken)
    (hpos : 0 < min left content.length) :
    (readRawField offset).result input = (do
      let field ← nextRawField offset
      pure (some field)).result input := by
  have htag := result_readTag_next hat hpos
  rw [readRawField, nextRawField, bind_assoc]
  rcases hr : nextTag.result input with ⟨outcome, payload⟩
  cases outcome with
  | error failure =>
    rw [Step.result_bind_error hr] at htag ⊢
    exact Step.result_bind_error htag
  | ok tag =>
    rw [Step.result_bind_ok hr] at htag ⊢
    rw [Step.result_bind_ok htag, bind_assoc]
    rfl

/-- The field takes up just these bytes, whatever stands behind them. -/
def RawField.Fills (field : RawField) (span : Bytes) : Prop :=
  ∀ (input : Input Bytes) (more : Bytes) (left taken : Nat), input.At (span ++ more) left taken →
    span.length ≤ left → ∃ after, (readRawField field.offset).result input = (.ok (some field), after) ∧
      after.At more (left - span.length) (taken + span.length)

theorem fills_of_reads {span : Bytes} (h : Reads (readRawField field.offset) span (some field)) :
    field.Fills span := by
  rintro ⟨source, left, taken, bounded⟩ more _ _ ⟨hsource, rfl, rfl⟩ hle
  obtain rfl : source = span ++ more := hsource
  exact ⟨_, h more left taken bounded hle, ⟨rfl, rfl, rfl⟩⟩

/-- A delimited value is the tail of the field. -/
def RawField.Ends (field : RawField) (span : Bytes) : Prop :=
  ∀ payload, field.value = .delimited payload → payload <:+ span

/-- The content of a delimited value is the last that was taken for it. -/
theorem suffix_of_readRawValue {type : WireType} {payload : Bytes} {after : Input Bytes}
    (hat : input.At content left taken)
    (hr : (readRawValue type).result input = (.ok (.delimited payload), after)) :
    ∃ count, payload <:+ content.take count ∧ after.taken = taken + count := by
  cases type with
  | varint | fixed32 | fixed64 =>
    obtain ⟨_, _, -, hpure⟩ := Step.result_bind_eq_ok.mp hr
    cases hpure
  | startGroup | endGroup => cases hr
  | delimited =>
    obtain ⟨length, middle, hlength, hr⟩ := Step.result_bind_eq_ok.mp hr
    obtain ⟨bytes, last, hbytes, hpure⟩ := Step.result_bind_eq_ok.mp hr
    cases hpure
    have howes : Owes WireError.IsShort 0 id (readLength : Read Bytes Nat) (readLength : Read Bytes Nat) :=
      owes_readLength
    obtain ⟨ahead, -, -, hmiddle⟩ := (howes.advances hat).ok hlength
    obtain ⟨-, rfl, hafter, -⟩ :=
      (Input.demands_read length _ _ _ _ hmiddle).ok (Step.result_mapFailure_eq_ok hbytes)
    refine ⟨ahead + length, ?_, ?_⟩
    · rw [List.take_add]
      exact List.suffix_append _ _
    · exact hafter.taken_eq.trans (Nat.add_assoc _ _ _)

/-- A field that is read fills the bytes that were taken for it. -/
theorem fills_take (hat : input.At content left taken) {after : Input Bytes}
    (hr : (nextRawField offset).result input = (.ok field, after)) :
    ∃ count, 0 < count ∧ count ≤ min left content.length ∧ field.offset = offset ∧
      field.Fills (content.take count) ∧ field.Ends (content.take count) ∧
      after.At (content.drop count) (left - count) (taken + count) := by
  have htracks := tracks_nextRawField offset
  obtain ⟨count, hone, hle, hafter⟩ := (htracks.advances hat).ok hr
  have hoffset : field.offset = offset := by
    obtain ⟨tag, payload, -, hr⟩ := Step.result_bind_eq_ok.mp hr
    obtain ⟨value, last, -, hpure⟩ := Step.result_bind_eq_ok.mp hr
    obtain ⟨rfl, -⟩ : _ = field ∧ last = after := by simpa using hpure
    rfl
  have hlen : (content.take count).length = count := List.length_take_of_le (by omega)
  have hshort : (Input.ofBytes (content.take count)).At (content.take count) count 0 := ⟨rfl, hlen, rfl⟩
  obtain ⟨last, hlast, hleft, -⟩ := htracks.alone hat hle hshort rfl hr hafter.taken_eq
  refine ⟨count, hone, hle, hoffset, ?_, ?_, hafter⟩
  · intro other more left' taken' hat' hle'
    obtain ⟨-, after', hr', hafter', -⟩ :=
      htracks.behind (Input.at_ofBytes _) hat' hle' rfl hlast hleft
    refine ⟨after', ?_, hafter'⟩
    rw [hoffset, result_readRawField offset hat' (by rw [List.length_append]; omega),
      Step.result_bind_ok hr']
    rfl
  · intro payload hpayload
    obtain ⟨tag, middle, htag, hr⟩ := Step.result_bind_eq_ok.mp hr
    have hself : Tracks WireError.IsShort 1 (nextTag : Read Bytes _) (nextTag : Read Bytes _) :=
      tracks_nextTag
    obtain ⟨ahead, -, -, hmiddle⟩ := (hself.advances hat).ok htag
    obtain ⟨value, last', hvalue, hpure⟩ := Step.result_bind_eq_ok.mp hr
    obtain ⟨rfl, rfl⟩ : _ = field ∧ last' = after := by simpa using hpure
    obtain rfl : value = .delimited payload := hpayload
    obtain ⟨rest, hsuffix, htaken⟩ := suffix_of_readRawValue hmiddle hvalue
    have hcount : count = ahead + rest := by
      have : last'.taken = taken + count := hafter.taken_eq
      omega
    rw [hcount, List.take_add]
    exact hsuffix.trans (List.suffix_append _ _)

-- ---------------------------------------------------------------------------
-- Scanners
-- ---------------------------------------------------------------------------

/-- The fields lie side by side in the bytes, from the one place to the other. -/
inductive Tiles (bytes : Bytes) : Nat → List RawField → Nat → Prop
  | nil (place : Nat) : Tiles bytes place [] place
  | cons {field : RawField} {rest : List RawField} {next stop : Nat} :
    field.offset < next → next ≤ bytes.length →
    field.Fills ((bytes.take next).drop field.offset) → field.Ends ((bytes.take next).drop field.offset) →
    Tiles bytes next rest stop → Tiles bytes field.offset (field :: rest) stop

namespace Scanner

variable {scanner after : Scanner} {bytes : Bytes} {room : Nat}

/-- The scanner stands at this place of the bytes. -/
structure Stands (scanner : Scanner) (bytes : Bytes) (place : Nat) : Prop where
  input_at : scanner.input.At (bytes.drop place) (bytes.length - place) place
  le : place ≤ bytes.length

theorem Stands.position_eq {place : Nat} (h : scanner.Stands bytes place) : scanner.position = place :=
  h.input_at.taken_eq

theorem stands_ofBytes (bytes : Bytes) : (ofBytes bytes).Stands bytes 0 :=
  ⟨Input.at_ofBytes bytes, Nat.zero_le _⟩

theorem next_ok {input : Input Bytes} (hs : scanner.failed = false)
    (hr : (readRawField scanner.position).result scanner.input = (.ok (some field), input)) :
    scanner.next = (some (.ok field), { scanner with input }) := by
  rw [next, hs, hr]
  rfl

theorem next_error {failure : WireError} {input : Input Bytes} (hs : scanner.failed = false)
    (hr : (readRawField scanner.position).result scanner.input = (.error failure, input)) :
    scanner.next = (some (.error failure), { scanner with failed := true }) := by
  rw [next, hs, hr]
  rfl

theorem next_failed (hs : scanner.failed = true) : scanner.next = (none, scanner) := by
  rw [next, if_pos hs]

/-- What has been written is scanned, field by field. -/
theorem run_of_outgoing {sent : List Outgoing} (hs : scanner.failed = false)
    (hat : scanner.input.At (sent.map Outgoing.form).flatten (sent.map Outgoing.form).flatten.length taken)
    (hroom : (sent.map Outgoing.form).flatten.length < room) :
    ∃ fields after, run room scanner = (fields, none, after) ∧
      after.position = taken + (sent.map Outgoing.form).flatten.length ∧
      fields.map (fun field => (field.number, field.type, field.value)) =
        sent.map fun field => (field.number, field.value.type, field.value) := by
  induction sent generalizing room scanner taken with
  | nil =>
    obtain ⟨room, rfl⟩ : ∃ n, room = n + 1 := ⟨room - 1, by omega⟩
    rw [run, next_end hs hat (Nat.min_self 0)]
    exact ⟨[], scanner, rfl, hat.taken_eq, rfl⟩
  | cons first rest ih =>
    obtain ⟨room, rfl⟩ : ∃ n, room = n + 1 := ⟨room - 1, by omega⟩
    rw [List.map_cons, List.flatten_cons, List.length_append] at hat hroom ⊢
    have hfills : (first.placed scanner.position).Fills first.form :=
      fills_of_reads (reads_outgoing first scanner.position)
    have hpos := first.length_form_pos
    obtain ⟨input, hread, hinput⟩ := hfills _ _ _ _ hat (Nat.le_add_right _ _)
    rw [Nat.add_sub_cancel_left] at hinput
    have hs' : ({ scanner with input } : Scanner).failed = false := hs
    obtain ⟨fields, after, hrun, hplace, hfields⟩ :=
      ih hs' hinput (show (rest.map Outgoing.form).flatten.length < room by omega)
    rw [run, next_ok hs hread]
    simp only [hrun]
    refine ⟨_, after, rfl, by omega, ?_⟩
    rw [List.map_cons, List.map_cons, hfields]
    rfl

/-- Where a scanner is done: at the end, or in front of a field that cannot be read. -/
def Stops (scanner : Scanner) (bytes : Bytes) : Option WireError → Prop
  | none => scanner.position = bytes.length
  | some failure => scanner.position < bytes.length ∧
    ∃ input, (readRawField scanner.position).result scanner.input = (.error failure, input)

theorem run_tiles {place : Nat} (hs : scanner.failed = false) (h : scanner.Stands bytes place)
    (hroom : bytes.length - place < room) :
    ∃ fields failure? after, run room scanner = (fields, failure?, after) ∧
      Tiles bytes place fields after.position ∧ after.Stands bytes after.position ∧
      after.Stops bytes failure? ∧ after.next = (none, after) := by
  induction room generalizing scanner place with
  | zero => omega
  | succ room ih =>
    have hat := h.input_at
    have hle := h.le
    have hlen : (bytes.drop place).length = bytes.length - place := List.length_drop
    obtain rfl := h.position_eq
    rcases Nat.lt_or_ge scanner.position bytes.length with hlt | hend
    · have hpos : 0 < min (bytes.length - scanner.position) (bytes.drop scanner.position).length := by
        omega
      have hread := result_readRawField scanner.position hat hpos
      rcases hr : (nextRawField scanner.position).result scanner.input with ⟨outcome, input⟩
      cases outcome with
      | error failure =>
        rw [Step.result_bind_error hr] at hread
        rw [run, next_error hs hread]
        exact ⟨[], some failure, _, rfl, .nil _, ⟨hat, hle⟩, ⟨hlt, input, hread⟩, next_failed rfl⟩
      | ok field =>
        rw [Step.result_bind_ok hr] at hread
        obtain ⟨count, hone, hcount, hoffset, hfills, hends, hafter⟩ := fills_take hat hr
        have hspan : (bytes.drop scanner.position).take count =
            (bytes.take (scanner.position + count)).drop scanner.position := by
          rw [List.drop_take, Nat.add_sub_cancel_left]
        rw [hspan, ← hoffset] at hfills hends
        rw [List.drop_drop, Nat.sub_sub] at hafter
        have hs' : ({ scanner with input } : Scanner).failed = false := hs
        obtain ⟨fields, failure?, after, hrun, htiles, hlast⟩ := ih hs' ⟨hafter, by omega⟩ (by omega)
        rw [run, next_ok hs hread]
        simp only [hrun]
        refine ⟨_, failure?, after, rfl, ?_, hlast⟩
        rw [← hoffset] at htiles ⊢
        exact .cons (by omega) (by omega) hfills hends htiles
    · have hnext : scanner.next = (none, scanner) := next_end hs hat (by omega)
      rw [run, hnext]
      exact ⟨[], none, scanner, rfl, .nil _, ⟨hat, hle⟩, Nat.le_antisymm hle hend, hnext⟩

end Scanner

-- ---------------------------------------------------------------------------
-- Places of fields
-- ---------------------------------------------------------------------------

/-- Where the fields begin, and where the last one ends. -/
def bounds (fields : List RawField) (stop : Nat) : List Nat :=
  fields.map (·.offset) ++ [stop]

/-- The field takes up the bytes from its offset to the next place. -/
structure RawField.Occupies (bytes : Bytes) (field : RawField) (next : Nat) : Prop where
  next_le : next ≤ bytes.length
  fills : field.Fills ((bytes.take next).drop field.offset)
  ends : field.Ends ((bytes.take next).drop field.offset)

theorem Tiles.bounds_eq {bytes : Bytes} {start stop : Nat} {fields : List RawField}
    (h : Tiles bytes start fields stop) :
    ∃ others, bounds fields stop = start :: others ∧
      List.Forall₂ (RawField.Occupies bytes) fields others ∧ (start :: others).Pairwise (· < ·) := by
  induction h with
  | nil place => exact ⟨[], rfl, .nil, List.pairwise_singleton _ _⟩
  | cons hlt hle hfills hends _ ih =>
    obtain ⟨others, hbounds, hoccupies, hincreasing⟩ := ih
    refine ⟨_ :: others, ?_, .cons ⟨hle, hfills, hends⟩ hoccupies, ?_⟩
    · rw [bounds, List.map_cons, List.cons_append, ← bounds, hbounds]
    · refine List.pairwise_cons.mpr ⟨List.forall_mem_cons.mpr ⟨hlt, fun place hp => ?_⟩, hincreasing⟩
      exact hlt.trans (List.rel_of_pairwise_cons hincreasing hp)

/-- A scanner parses exactly a sequence of fields. What is written field by field is yielded again, the
whole list and nothing else. And whatever the bytes, the fields begin at 0 and each takes up just the
bytes to the next one, or to where the scanner stops, a delimited value being the tail of them; the
scanner stops at the end of the bytes if it met no failure and else in front of the field that it failed
to read; and nothing follows. -/
theorem scan_exact :
    (∀ sent : List Outgoing, ∃ bytes, Puts (sent.forM writeOutgoing : Write Bytes Unit) bytes ∧
      ∃ fields scanner, scan bytes = (fields, none, scanner) ∧ scanner.position = bytes.length ∧
        fields.map (fun field => (field.number, field.type, field.value)) =
          sent.map fun field => (field.number, field.value.type, field.value)) ∧
    ∀ bytes : Bytes, ∃ fields failure? scanner, scan bytes = (fields, failure?, scanner) ∧
      (∃ others, bounds fields scanner.position = 0 :: others ∧ (0 :: others).Pairwise (· < ·) ∧
        List.Forall₂ (RawField.Occupies bytes) fields others) ∧
      (scanner.position = bytes.length ↔ failure? = none) ∧
      (∀ failure, failure? = some failure → scanner.Stands bytes scanner.position ∧
        ∃ input, (readRawField scanner.position).result scanner.input = (.error failure, input)) ∧
      scanner.next = (none, scanner) := by
  constructor
  · intro sent
    have hstart := (Scanner.stands_ofBytes (sent.map Outgoing.form).flatten).input_at
    rw [List.drop_zero, Nat.sub_zero] at hstart
    obtain ⟨fields, scanner, hscan, hplace, hfields⟩ :=
      Scanner.run_of_outgoing rfl hstart (Nat.lt_succ_self _)
    exact ⟨_, puts_outgoing sent, fields, scanner, hscan, hplace.trans (Nat.zero_add _), hfields⟩
  · intro bytes
    obtain ⟨fields, failure?, scanner, hscan, htiles, hstands, hstops, hnext⟩ :=
      Scanner.run_tiles rfl (Scanner.stands_ofBytes bytes) (Nat.lt_succ_self _)
    obtain ⟨others, hbounds, hoccupies, hincreasing⟩ := htiles.bounds_eq
    refine ⟨fields, failure?, scanner, hscan, ⟨others, hbounds, hincreasing, hoccupies⟩, ?_, ?_, hnext⟩
    · cases failure? with
      | none => exact iff_of_true hstops rfl
      | some failure => exact iff_of_false hstops.1.ne nofun
    · rintro failure rfl
      exact ⟨hstands, hstops.2⟩

/-- A number, and a text that is cut off. -/
example : scan [0x08, 0x01, 0x12, 0x05, 0x61] =
    ([⟨1, .varint, 0, .varint 1⟩], some (.lengthMismatch 5 1),
      ⟨⟨[0x12, 0x05, 0x61], 3, 2, true⟩, true⟩) := by
  cbv

end BlockCodec.Wire
