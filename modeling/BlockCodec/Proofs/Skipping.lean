import BlockCodec.Wire.Scan
import BlockCodec.Proofs.Laps

/-!
# Skipping a payload and reading it

What can be read can be skipped, with the same bytes gone by. What can be skipped can be read but for
one case: a number that is `Overfull`, ten bytes long with bits beyond the 64th in the last one. So a
decoder whose table has no fields accepts the sequences of records, and a scanner gets to the end of
just those that have no overfull number among them.
-/

namespace BlockCodec.Wire

variable {σ τ α β γ : Type} [Source σ] [Supply σ] [Source τ] [Supply τ] {input : Input σ}
  {content bytes : Bytes} {left taken place places : Nat} {type : WireType}

-- ---------------------------------------------------------------------------
-- Numbers
-- ---------------------------------------------------------------------------

/-- At the front is a number of so many bytes that has more than one bit in the last. -/
def Overfull (places : Nat) (bytes : Bytes) : Prop :=
  ∃ groups last more, bytes = groups ++ last :: more ∧ groups.length + 1 = places ∧
    (∀ byte ∈ groups, 128 ≤ byte) ∧ 1 < last ∧ last < 128

theorem Overfull.cons {byte : UInt8} (h : Overfull places bytes) (hb : 128 ≤ byte) :
    Overfull (places + 1) (byte :: bytes) := by
  obtain ⟨groups, last, more, rfl, rfl, hgroups, hlast⟩ := h
  exact ⟨byte :: groups, last, more, rfl, rfl, List.forall_mem_cons.mpr ⟨hb, hgroups⟩, hlast⟩

theorem Overfull.length_le (h : Overfull places bytes) : places ≤ bytes.length := by
  obtain ⟨groups, last, more, rfl, rfl, -⟩ := h
  simp

/-- Only the bytes of the number matter. -/
theorem overfull_append {more : Bytes} (hle : places ≤ bytes.length) :
    Overfull places (bytes ++ more) ↔ Overfull places bytes := by
  constructor
  · rintro ⟨groups, last, tail, heq, rfl, hbytes⟩
    refine ⟨groups, last, bytes.drop (groups.length + 1), ?_, rfl, hbytes⟩
    have htake := congrArg (List.take (groups.length + 1)) heq
    rw [List.take_append_of_le_length hle, ← List.singleton_append, ← List.append_assoc,
      List.take_left' (by simp)] at htake
    rw [← List.singleton_append, ← List.append_assoc, ← htake, List.take_append_drop]
  · rintro ⟨groups, last, tail, rfl, hbytes⟩
    exact ⟨groups, last, tail ++ more, by simp, hbytes⟩

/-- Reading a byte takes the first one. -/
theorem ends_readByte {ε : Type} (restate : StreamError → ε) (hat : input.At content left taken) :
    (Input.readByte.mapFailure restate).Ends input
      (fun byte after => ∃ rest, content.take left = byte :: rest.take (left - 1) ∧
        after.At rest (left - 1) (taken + 1))
      fun _ _ => content.take left = [] := by
  refine Step.ends_mapFailure (Step.Ends.bind (Input.demands_read 1 _ _ _ _ hat |>.mono
    (fun _ _ h => h) fun _ _ h => ?_) ?_)
  · obtain ⟨hlt, -⟩ := h
    exact List.length_eq_zero_iff.mp (by rw [List.length_take]; omega)
  · rintro _ after ⟨hle, rfl, hafter, -⟩
    obtain ⟨byte, rest, rfl⟩ := List.exists_cons_of_length_pos (show 0 < content.length by omega)
    obtain ⟨left, rfl⟩ : ∃ n, left = n + 1 := ⟨left - 1, by omega⟩
    exact Step.ends_pure ⟨rest, by simp, hafter⟩

theorem readGroups_of_skipGroups {weight sum : Nat} {after : Input σ} (hat : input.At content left taken)
    (h : (skipGroups places).result input = (.ok (), after)) :
    (∃ value, (readGroups places weight sum).result input = (.ok value, after)) ∨
      Overfull places (content.take left) ∧ after.taken = taken + places := by
  induction places generalizing input content left taken weight sum with
  | zero => cases h
  | succ places ih =>
    obtain ⟨byte, middle, hbyte, h⟩ := Step.result_bind_eq_ok.mp h
    obtain ⟨rest, hcontent, hmiddle⟩ := (ends_readByte _ hat).ok hbyte
    rw [readGroups, Step.result_bind_ok hbyte, hcontent]
    by_cases hlast : byte < 128
    · obtain rfl : middle = after := by
        rw [if_pos hlast] at h
        exact congrArg Prod.snd h
      by_cases hbig : places = 0 ∧ 1 < byte
      · obtain ⟨rfl, hbits⟩ := hbig
        exact .inr ⟨⟨[], byte, _, rfl, rfl, nofun, hbits, hlast⟩, hmiddle.taken_eq⟩
      · simp only [if_neg hbig, if_pos hlast]
        exact .inl ⟨_, rfl⟩
    · rw [if_neg hlast] at h
      have hplaces : ¬(places = 0 ∧ 1 < byte) := by
        rintro ⟨rfl, -⟩
        cases h
      rw [if_neg hplaces]
      simp only [if_neg hlast]
      refine (ih hmiddle h).imp id fun ⟨hfull, htaken⟩ => ⟨hfull.cons (by simpa using hlast), ?_⟩
      omega

theorem result_readByte {ε : Type} (restate : StreamError → ε) (hat : input.At content left taken)
    {byte : UInt8} (h : content.take left = byte :: bytes) :
    ∃ after rest, (Input.readByte.mapFailure restate).result input = (.ok byte, after) ∧
      after.At rest (left - 1) (taken + 1) ∧ rest.take (left - 1) = bytes := by
  obtain ⟨first, after, hr, rest, hcontent, hafter⟩ :=
    ((ends_readByte restate hat).mono (fun _ _ h => h) fun _ _ hnil => by simp [hnil] at h).answers
  obtain ⟨rfl, rfl⟩ := List.cons.inj (h.symm.trans hcontent)
  exact ⟨after, rest, hr, hafter, rfl⟩

theorem skipGroups_of_overfull (hat : input.At content left taken)
    (h : Overfull places (content.take left)) :
    (∃ after, (skipGroups places).result input = (.ok (), after) ∧ after.taken = taken + places) ∧
      ∀ weight sum, ∃ after, (readGroups places weight sum).result input =
        (.error .malformedVarint, after) := by
  obtain ⟨groups, last, more, hcontent, rfl, hgroups, hbits, hlast⟩ := h
  induction groups generalizing input content left taken with
  | nil =>
    obtain ⟨after, rest, hr, hafter, -⟩ := result_readByte (fun _ => WireError.malformedVarint) hat hcontent
    refine ⟨⟨after, ?_, hafter.taken_eq⟩, fun weight sum => ⟨after, ?_⟩⟩
    · rw [skipGroups, nextGroup, Step.result_bind_ok hr, if_pos hlast]
      rfl
    · rw [readGroups, nextGroup, Step.result_bind_ok hr, if_pos ⟨rfl, hbits⟩]
      rfl
  | cons byte groups ih =>
    obtain ⟨hbyte, hgroups⟩ := List.forall_mem_cons.mp hgroups
    obtain ⟨after, rest, hr, hafter, hrest⟩ :=
      result_readByte (fun _ => WireError.malformedVarint) hat hcontent
    obtain ⟨⟨last', hskip, htaken⟩, hread⟩ := ih hafter hrest hgroups
    have hmore : ¬byte < 128 := by simpa using hbyte
    refine ⟨⟨last', ?_, ?_⟩, fun weight sum => ?_⟩
    · rw [List.length_cons, skipGroups, nextGroup, Step.result_bind_ok hr, if_neg hmore]
      exact hskip
    · rw [htaken, List.length_cons]
      omega
    · obtain ⟨last', hread⟩ := hread (weight * 128) (sum + byte.toNat % 128 * weight)
      refine ⟨last', ?_⟩
      rw [List.length_cons, readGroups, nextGroup, Step.result_bind_ok hr, if_neg (by simp)]
      simp only [if_neg hmore]
      exact hread

theorem readVarint_of_skipVarint {after : Input σ} (hat : input.At content left taken)
    (h : skipVarint.result input = (.ok (), after)) :
    (∃ value, readVarint.result input = (.ok value, after)) ∨
      Overfull Varint.maxLength (content.take left) ∧ after.taken = taken + Varint.maxLength := by
  obtain ⟨first, middle, hfirst, h⟩ := Step.result_bind_eq_ok.mp h
  obtain ⟨rest, hcontent, hmiddle⟩ := (ends_readByte _ hat).ok hfirst
  rw [readVarint, Step.result_bind_ok hfirst, readVarintFrom, hcontent]
  by_cases hlast : first < 128
  · rw [if_pos hlast] at h ⊢
    obtain rfl : middle = after := congrArg Prod.snd h
    exact .inl ⟨_, rfl⟩
  · rw [if_neg hlast] at h ⊢
    refine (readGroups_of_skipGroups hmiddle h).imp id fun ⟨hfull, htaken⟩ => ?_
    exact ⟨hfull.cons (by simpa using hlast), by rw [htaken]; simp [Varint.maxLength]⟩

theorem skipVarint_of_overfull (hat : input.At content left taken)
    (h : Overfull Varint.maxLength (content.take left)) :
    (∃ after, skipVarint.result input = (.ok (), after) ∧ after.taken = taken + Varint.maxLength) ∧
      ∃ after, readVarint.result input = (.error .malformedVarint, after) := by
  obtain ⟨groups, last, more, hcontent, hlength, hgroups, hlast⟩ := h
  cases groups with
  | nil => cases hlength
  | cons byte groups =>
    obtain ⟨hbyte, hgroups⟩ := List.forall_mem_cons.mp hgroups
    obtain ⟨after, rest, hr, hafter, hrest⟩ := result_readByte WireError.stream hat hcontent
    have hfull : Overfull (Varint.maxLength - 1) (rest.take (left - 1)) :=
      ⟨groups, last, more, hrest, by simpa [Varint.maxLength] using hlength, hgroups, hlast⟩
    obtain ⟨⟨last', hskip, htaken⟩, hread⟩ := skipGroups_of_overfull hafter hfull
    obtain ⟨last'', hread⟩ := hread 128 (byte.toNat % 128)
    have hmore : ¬byte < 128 := by simpa using hbyte
    refine ⟨⟨last', ?_, ?_⟩, last'', ?_⟩
    · rw [skipVarint, onStream, Step.result_bind_ok hr, if_neg hmore]
      exact hskip
    · rw [htaken]
      simp [Varint.maxLength]
    · rw [readVarint, onStream, Step.result_bind_ok hr, readVarintFrom, if_neg hmore]
      exact hread

-- ---------------------------------------------------------------------------
-- Payloads
-- ---------------------------------------------------------------------------

/-- The step succeeds and has taken so much in the end. -/
def Reaches (step : Read σ α) (input : Input σ) (place : Nat) : Prop :=
  ∃ value after, step.result input = (.ok value, after) ∧ after.taken = place

omit [Source σ] [Supply σ] in
theorem reaches_bind {step : Read σ α} {next : α → Read σ β} :
    Reaches (step >>= next) input place ↔
      ∃ value middle, step.result input = (.ok value, middle) ∧ Reaches (next value) middle place := by
  constructor
  · rintro ⟨result, after, hr, hplace⟩
    obtain ⟨value, middle, hstep, hr⟩ := Step.result_bind_eq_ok.mp hr
    exact ⟨value, middle, hstep, result, after, hr, hplace⟩
  · rintro ⟨value, middle, hstep, result, after, hr, hplace⟩
    exact ⟨result, after, (Step.result_bind_ok hstep).trans hr, hplace⟩

omit [Source σ] [Supply σ] in
theorem reaches_map (step : Read σ α) (f : α → β) :
    Reaches (do let value ← step; pure (f value)) input place ↔ Reaches step input place := by
  rw [reaches_bind]
  constructor
  · rintro ⟨value, middle, hr, _, after, hpure, hplace⟩
    obtain rfl : middle = after := congrArg Prod.snd hpure
    exact ⟨value, middle, hr, hplace⟩
  · rintro ⟨value, after, hr, hplace⟩
    exact ⟨value, after, hr, f value, after, rfl, hplace⟩

theorem reaches_of_demands {step : Step (Input σ) StreamError α} {count : Nat} {answer : Bytes → α}
    {edit : Bytes → Unit → Unit} (h : Demands (fun _ => True) count answer edit step)
    (hat : input.At content left taken) :
    Reaches (onStream step) input place ↔ count ≤ min left content.length ∧ place = taken + count := by
  have hends := h _ _ _ _ hat
  constructor
  · rintro ⟨value, after, hr, rfl⟩
    obtain ⟨hle, -, hafter, -⟩ := hends.ok (Step.result_mapFailure_eq_ok hr)
    exact ⟨hle, hafter.taken_eq⟩
  · rintro ⟨hle, rfl⟩
    obtain ⟨value, after, hr, -, -, hafter, -⟩ :=
      (hends.mono (fun _ _ h => h) fun _ _ h => absurd hle (Nat.not_le.mpr h.1)).answers
    refine ⟨value, after, ?_, hafter.taken_eq⟩
    rw [onStream, Step.result_mapFailure, hr]
    rfl

theorem reaches_skip (hat : input.At content left taken) (count : Nat) :
    Reaches (onStream (Input.skip count)) input place ↔ Reaches (onStream (Input.read count)) input place :=
  (reaches_of_demands (Input.demands_skip count) hat).trans
    (reaches_of_demands (Input.demands_read count) hat).symm

/-- A payload is skipped as it is read, but for numbers with too many bits. -/
theorem reaches_skipField (hat : input.At content left taken) :
    Reaches (skipField type) input place ↔ Reaches (readRawValue type) input place ∨
      type = .varint ∧ Overfull Varint.maxLength (content.take left) ∧ place = taken + Varint.maxLength := by
  cases type with
  | varint =>
    rw [readRawValue, reaches_map]
    constructor
    · rintro ⟨⟨⟩, after, hr, rfl⟩
      exact (readVarint_of_skipVarint hat hr).imp (fun ⟨value, hr⟩ => ⟨value, after, hr, rfl⟩)
        fun h => ⟨rfl, h⟩
    · rintro (⟨value, after, hr, rfl⟩ | ⟨-, hfull, rfl⟩)
      · exact ⟨(), after, skipVarint_of_readVarint hr, rfl⟩
      · obtain ⟨after, hr, htaken⟩ := (skipVarint_of_overfull hat hfull).1
        exact ⟨(), after, hr, htaken⟩
  | fixed32 =>
    simp only [skipField, readRawValue, readFixed32, reaches_map, reaches_skip hat, reduceCtorEq,
      false_and, or_false]
  | fixed64 =>
    simp only [skipField, readRawValue, readFixed64, reaches_map, reaches_skip hat, reduceCtorEq,
      false_and, or_false]
  | delimited =>
    simp only [reduceCtorEq, false_and, or_false]
    rw [skipField, readRawValue, reaches_bind, reaches_bind]
    refine exists_congr fun length => exists_congr fun middle => and_congr_right fun hr => ?_
    have hlength : Owes WireError.IsShort 0 id (readLength : Read σ Nat) (readLength : Read σ Nat) :=
      owes_readLength
    obtain ⟨count, -, -, hmiddle⟩ := (hlength.advances hat).ok hr
    rw [reaches_map]
    exact reaches_skip hmiddle length
  | startGroup | endGroup =>
    have hfails : ∀ (α : Type) (failure : WireError), ¬Reaches (throw failure : Read σ α) input place := by
      rintro α failure ⟨value, after, hr, -⟩
      cases hr
    simp only [skipField, readRawValue, hfails, reduceCtorEq, false_and, or_false]

/-- A number with too many bits cannot be read. -/
theorem not_reaches_readRawValue (hat : input.At content left taken)
    (h : Overfull Varint.maxLength (content.take left)) :
    ¬Reaches (readRawValue .varint) input place := by
  rw [readRawValue, reaches_map]
  rintro ⟨value, after, hr, -⟩
  obtain ⟨after, he⟩ := (skipVarint_of_overfull hat h).2
  simp [he] at hr

-- ---------------------------------------------------------------------------
-- Records
-- ---------------------------------------------------------------------------

theorem tracks_readRawValue (type : WireType) :
    Tracks WireError.IsShort 0 (readRawValue type : Read σ RawValue) (readRawValue type : Read τ RawValue) := by
  cases type with
  | varint => exact (tracks_readVarint.first fun _ => tracks_pure _).weaken (Nat.zero_le _)
  | fixed32 => exact (tracks_readFixed32.first fun _ => tracks_pure _).weaken (Nat.zero_le _)
  | fixed64 => exact (tracks_readFixed64.first fun _ => tracks_pure _).weaken (Nat.zero_le _)
  | delimited =>
    exact owes_readLength.pay fun length =>
      (tracks_onStream (Input.tracks_read length)).first fun _ => tracks_pure _
  | startGroup | endGroup => exact owes_throw _ _

omit [Supply σ] in
/-- The next record with its payload read. -/
def readRecord : Read σ (Nat × WireType) := do
  let tag ← nextTag
  let _ ← readRawValue tag.2
  pure tag

theorem tracks_readRecord :
    Tracks WireError.IsShort 1 (readRecord : Read σ (Nat × WireType))
      (readRecord : Read τ (Nat × WireType)) :=
  tracks_nextTag.first fun tag => (tracks_readRawValue tag.2).then fun _ => tracks_pure tag

/-- A record whose payload can be read. -/
def Readable (bytes : Bytes) : Prop :=
  ∃ tag rest, readRecord.result (.ofBytes bytes) = (.ok tag, rest) ∧ rest.left = 0

/-- A record of a number with too many bits. -/
def OverfullRecord (bytes : Bytes) : Prop :=
  ∃ number payload, readTag.result (.ofBytes bytes) = (.ok (some (number, .varint)), payload) ∧
    Overfull Varint.maxLength payload.source

/-- To leave nothing is to get to the end. -/
theorem reaches_end {step : Read σ α} (h : Tracks WireError.IsShort 0 step step)
    (hat : input.At content left taken) :
    (∃ value rest, step.result input = (.ok value, rest) ∧ rest.left = 0) ↔
      Reaches step input (taken + left) := by
  refine exists_congr fun value => exists_congr fun rest => and_congr_right fun hr => ?_
  obtain ⟨count, -, hle, hrest⟩ := (h.advances hat).ok hr
  rw [show rest.left = left - count from hrest.left_eq, show rest.taken = taken + count from hrest.taken_eq]
  omega

theorem readable_iff : Readable bytes ↔ Record bytes ∧ ¬OverfullRecord bytes := by
  have hat := Input.at_ofBytes bytes
  have hself : Tracks WireError.IsShort 1 (nextTag : Read Bytes _) (nextTag : Read Bytes _) :=
    tracks_nextTag
  -- behind the header, the input is what is left of the bytes
  have hpayload : ∀ {tag payload}, nextTag.result (.ofBytes bytes) = (.ok tag, payload) →
      readTag.result (.ofBytes bytes) = (.ok (some tag), payload) ∧
        payload.At payload.source payload.left payload.taken ∧
        payload.source.take payload.left = payload.source := by
    intro tag payload hr
    obtain ⟨count, hone, hle, hat'⟩ := (hself.advances hat).ok hr
    have hsource : payload.source = bytes.drop count := hat'.holds
    have hleft : payload.left = bytes.length - count := hat'.left_eq
    refine ⟨result_readTag_of_nextTag hat hr, ⟨rfl, rfl, rfl⟩, List.take_of_length_le ?_⟩
    rw [hsource, List.length_drop, hleft]
  constructor
  · rintro ⟨tag, rest, hr, hleft⟩
    obtain ⟨tag', payload, htag, hr⟩ := Step.result_bind_eq_ok.mp hr
    obtain ⟨value, last, hvalue, hpure⟩ := Step.result_bind_eq_ok.mp hr
    obtain ⟨rfl, rfl⟩ : tag' = tag ∧ last = rest := by simpa using hpure
    obtain ⟨hread, hat', hsource⟩ := hpayload htag
    have hend := (reaches_end (tracks_readRawValue tag'.2) hat').mp ⟨value, last, hvalue, hleft⟩
    refine ⟨record_iff.mpr ?_, ?_⟩
    · obtain ⟨⟨⟩, skipped, hskip, hleft⟩ :=
        (reaches_end (tracks_skipField tag'.2) hat').mpr ((reaches_skipField hat').mpr (.inl hend))
      exact ⟨tag', skipped, by rw [nextRecord, Step.result_bind_ok htag, Step.result_bind_ok hskip]; rfl,
        hleft⟩
    · rintro ⟨number, payload', hr', hfull⟩
      obtain ⟨htag', rfl⟩ := Prod.mk.inj (hread.symm.trans hr')
      obtain rfl : tag' = (number, .varint) := by simpa using htag'
      rw [← hsource] at hfull
      exact not_reaches_readRawValue hat' hfull hend
  · rintro ⟨hrecord, hfull⟩
    obtain ⟨tag, rest, hr, hleft⟩ := record_iff.mp hrecord
    obtain ⟨tag', payload, htag, hr⟩ := Step.result_bind_eq_ok.mp hr
    obtain ⟨⟨⟩, last, hskip, hpure⟩ := Step.result_bind_eq_ok.mp hr
    obtain ⟨rfl, rfl⟩ : tag' = tag ∧ last = rest := by simpa using hpure
    obtain ⟨hread, hat', hsource⟩ := hpayload htag
    have hend := (reaches_end (tracks_skipField tag'.2) hat').mp ⟨(), last, hskip, hleft⟩
    rcases (reaches_skipField hat').mp hend with hvalue | ⟨htype, hbits, -⟩
    · obtain ⟨value, after, hvalue, hleft⟩ := (reaches_end (tracks_readRawValue tag'.2) hat').mpr hvalue
      exact ⟨tag', after, by rw [readRecord, Step.result_bind_ok htag, Step.result_bind_ok hvalue]; rfl,
        hleft⟩
    · rw [hsource] at hbits
      exact absurd ⟨tag'.1, payload, by rw [hread, ← htype], hbits⟩ hfull

-- ---------------------------------------------------------------------------
-- Scanners
-- ---------------------------------------------------------------------------

/-- The scanner gets to the end of the bytes. -/
def Scans (bytes : Bytes) : Prop :=
  ∃ fields scanner, scan bytes = (fields, none, scanner) ∧ scanner.position = bytes.length

theorem readRawField_end (offset : Nat) (hat : input.At content left taken) (hzero : min left content.length = 0) :
    ∃ after, (readRawField offset).result input = (.ok none, after) := by
  obtain ⟨after, hr, -⟩ := result_readTag_end hat hzero
  exact ⟨after, Step.result_bind_ok hr⟩

/-- Where something can be taken, a field is read as a record is. -/
theorem readRawField_next (offset : Nat) (hat : input.At content left taken) (hpos : 0 < min left content.length) :
    (readRawField offset).Ends input
      (fun field? after => ∃ field, field? = some field ∧
        readRecord.result input = (.ok (field.number, field.type), after))
      fun _ _ => ∀ tag after, readRecord.result input ≠ (.ok tag, after) := by
  have htag := result_readTag_next hat hpos
  unfold Step.Ends readRawField readRecord
  rcases hr : nextTag.result input with ⟨outcome, payload⟩
  cases outcome with
  | error failure =>
    rw [Step.result_bind_error hr] at htag
    rw [Step.result_bind_error htag, Step.result_bind_error hr]
    exact nofun
  | ok tag =>
    rw [Step.result_bind_ok hr] at htag
    rw [Step.result_bind_ok htag, Step.result_bind_ok hr]
    rcases hv : (readRawValue tag.2).result payload with ⟨outcome, after⟩
    cases outcome with
    | error failure =>
      rw [Step.result_bind_error hv, Step.result_bind_error hv]
      exact nofun
    | ok value =>
      rw [Step.result_bind_ok hv, Step.result_bind_ok hv]
      exact ⟨_, rfl, rfl⟩

/-- A readable record is read wherever its bytes come next. -/
theorem result_readRecord {record more : Bytes} {tag : Nat × WireType} {rest : Input Bytes}
    (hr : readRecord.result (.ofBytes record) = (.ok tag, rest)) (hleft : rest.left = 0)
    (hat : input.At (record ++ more) left taken) (hle : record.length ≤ left) :
    0 < record.length ∧ ∃ after, readRecord.result input = (.ok tag, after) ∧
      after.At more (left - record.length) (taken + record.length) := by
  have htracks : Tracks WireError.IsShort 1 (readRecord : Read Bytes (Nat × WireType))
    (readRecord : Read σ (Nat × WireType)) := tracks_readRecord
  obtain ⟨hone, after, hafter, hmore, -⟩ := htracks.behind (Input.at_ofBytes record) hat hle rfl hr hleft
  exact ⟨hone, after, hafter, hmore⟩

/-- The bytes of a record that is read are readable. -/
theorem readable_take {tag : Nat × WireType} {after : Input σ} (hat : input.At content left taken)
    (hr : readRecord.result input = (.ok tag, after)) :
    ∃ count, 0 < count ∧ count ≤ min left content.length ∧ Readable (content.take count) ∧
      after.At (content.drop count) (left - count) (taken + count) := by
  have hself : Tracks WireError.IsShort 1 (readRecord : Read σ (Nat × WireType))
    (readRecord : Read σ (Nat × WireType)) := tracks_readRecord
  obtain ⟨count, hone, hle, hafter⟩ := (hself.advances hat).ok hr
  have htracks : Tracks WireError.IsShort 1 (readRecord : Read Bytes (Nat × WireType))
    (readRecord : Read σ (Nat × WireType)) := tracks_readRecord
  have hlen : (content.take count).length = count := List.length_take_of_le (by omega)
  have hshort : (Input.ofBytes (content.take count)).At (content.take count) count 0 := ⟨rfl, hlen, rfl⟩
  obtain ⟨last, hlast, hleft, -⟩ := htracks.alone hat hle hshort rfl hr hafter.taken_eq
  exact ⟨count, hone, hle, ⟨tag, last, hlast, hleft⟩, hafter⟩

namespace Scanner

variable {scanner : Scanner} {room : Nat}

theorem next_end (hs : scanner.failed = false) (hat : scanner.input.At content left taken)
    (hzero : min left content.length = 0) : scanner.next = (none, scanner) := by
  obtain ⟨input, hr⟩ := readRawField_end scanner.position hat hzero
  rw [next, hs, hr]
  rfl

theorem next_readRecord (hs : scanner.failed = false) (hat : scanner.input.At content left taken)
    (hpos : 0 < min left content.length) :
    (∃ input field, readRecord.result scanner.input = (.ok (field.number, field.type), input) ∧
      scanner.next = (some (.ok field), { scanner with input })) ∨
    (∃ failure after, scanner.next = (some (.error failure), after)) ∧
      ∀ tag input, readRecord.result scanner.input ≠ (.ok tag, input) := by
  have hends := readRawField_next scanner.position hat hpos
  rcases hr : (readRawField scanner.position).result scanner.input with ⟨outcome, input⟩
  rw [next, hs, hr]
  cases outcome with
  | error failure => exact .inr ⟨⟨failure, _, rfl⟩, hends.error hr⟩
  | ok field? =>
    obtain ⟨field, rfl, hrecord⟩ := hends.ok hr
    exact .inl ⟨input, field, hrecord, rfl⟩

/-- The header of a record is that of the field. -/
def Shows (record : Bytes) (field : RawField) : Prop :=
  ∃ rest, readRecord.result (.ofBytes record) = (.ok (field.number, field.type), rest)

/-- Over readable records a scanner gets to their end and shows one field for each. -/
theorem run_of_readable {records : List Bytes} (hrecords : ∀ record ∈ records, Readable record)
    (hs : scanner.failed = false) (hat : scanner.input.At records.flatten records.flatten.length taken)
    (hroom : records.flatten.length < room) :
    ∃ fields after, run room scanner = (fields, none, after) ∧
      after.position = taken + records.flatten.length ∧ List.Forall₂ Shows records fields := by
  induction records generalizing room scanner taken with
  | nil =>
    obtain ⟨room, rfl⟩ : ∃ n, room = n + 1 := ⟨room - 1, by omega⟩
    rw [run, next_end hs hat (Nat.min_self 0)]
    exact ⟨[], scanner, rfl, hat.taken_eq, .nil⟩
  | cons record rest ih =>
    obtain ⟨hrecord, hrest⟩ := List.forall_mem_cons.mp hrecords
    obtain ⟨room, rfl⟩ : ∃ n, room = n + 1 := ⟨room - 1, by omega⟩
    have hlen : (record :: rest).flatten.length = record.length + rest.flatten.length := by simp
    rw [List.flatten_cons] at hat
    obtain ⟨tag, last, hlast, hleft⟩ := hrecord
    obtain ⟨hone, input, hr, hinput⟩ := result_readRecord hlast hleft hat (by simp)
    rcases next_readRecord hs hat (by simp; omega) with ⟨_, field, hr', hnext⟩ | ⟨-, hno⟩
    · obtain ⟨htag, rfl⟩ := Prod.mk.inj (hr.symm.trans hr')
      obtain rfl : tag = (field.number, field.type) := by simpa using htag
      rw [List.length_append, Nat.add_sub_cancel_left] at hinput
      have hs' : ({ scanner with input } : Scanner).failed = false := hs
      obtain ⟨fields, after, hrun, hplace, hshows⟩ :=
        ih hrest hs' hinput (show rest.flatten.length < room by omega)
      rw [run, hnext]
      simp only [hrun]
      exact ⟨field :: fields, after, rfl, by omega, .cons ⟨last, hlast⟩ hshows⟩
    · exact absurd hr (hno tag input)

/-- A scanner that meets no failure goes over readable records. -/
theorem readable_of_run {fields : List RawField} {after : Scanner} (hs : scanner.failed = false)
    (hat : scanner.input.At content content.length taken) (hroom : content.length < room)
    (hr : run room scanner = (fields, none, after)) :
    ∃ records : List Bytes, (∀ record ∈ records, Readable record) ∧ records.flatten = content := by
  induction room generalizing scanner content taken fields with
  | zero => omega
  | succ room ih =>
    rcases Nat.eq_zero_or_pos content.length with hzero | hpos
    · exact ⟨[], nofun, (List.length_eq_zero_iff.mp hzero).symm⟩
    · rcases next_readRecord hs hat (by omega) with ⟨input, field, hrecord, hnext⟩ | ⟨⟨_, _, hnext⟩, -⟩
      · obtain ⟨count, hone, hle, hreadable, hinput⟩ := readable_take hat hrecord
        rw [← List.length_drop] at hinput
        rcases hrun : run room { scanner with input } with ⟨others, failure?, last⟩
        rw [run, hnext] at hr
        simp only [hrun] at hr
        obtain ⟨-, rfl, -⟩ := hr
        have hs' : ({ scanner with input } : Scanner).failed = false := hs
        obtain ⟨records, hrecords, hflat⟩ := ih hs' hinput (by rw [List.length_drop]; omega) hrun
        refine ⟨content.take count :: records, List.forall_mem_cons.mpr ⟨hreadable, hrecords⟩, ?_⟩
        rw [List.flatten_cons, hflat, List.take_append_drop]
      · rw [run, hnext] at hr
        cases hr

end Scanner

theorem scans_iff : Scans bytes ↔
    ∃ records : List Bytes, (∀ record ∈ records, Readable record) ∧ records.flatten = bytes := by
  have hat : (Scanner.ofBytes bytes).input.At bytes bytes.length 0 := ⟨rfl, rfl, rfl⟩
  constructor
  · rintro ⟨fields, after, hr, -⟩
    exact Scanner.readable_of_run rfl hat (Nat.lt_succ_self _) hr
  · rintro ⟨records, hrecords, rfl⟩
    obtain ⟨fields, after, hr, hplace, -⟩ :=
      Scanner.run_of_readable hrecords rfl hat (Nat.lt_succ_self _)
    exact ⟨fields, after, hr, hplace.trans (Nat.zero_add _)⟩

end BlockCodec.Wire

namespace BlockCodec

-- ---------------------------------------------------------------------------
-- Decoders that skip
-- ---------------------------------------------------------------------------

/-- The bytes begin with this header. -/
def Wire.Headed (tag : Nat × WireType) (bytes : Bytes) : Prop :=
  ∃ payload, Wire.nextTag.result (.ofBytes bytes) = (.ok tag, payload)

namespace Decode

section

variable {σ S Ref : Type} [Source σ] [Supply σ] [Handler Ref S] {schema : Schema Ref}
  {config : DecodeConfig} {nested : Ref → Decode σ S Unit} {depth : Nat} {table : Table Ref}

/-- A record that is skipped changes nothing. -/
theorem nextField_of_skipped {bytes more : Bytes} {left taken : Nat} (state : Decoding σ S)
    (h : Wire.Record bytes) (hskip : ∀ tag, Wire.Headed tag bytes →
      record schema config nested depth table tag.2 tag.1 (table.entryOf? tag.1) =
        (do skipValue tag.1 tag.2; pure none))
    (hat : state.input.At (bytes ++ more) left taken) (hle : bytes.length ≤ left) :
    0 < bytes.length ∧ ∃ tag last, (nextField schema config nested depth table).result state =
      (.ok (tag, none), last) ∧ last.input.At more (left - bytes.length) (taken + bytes.length) ∧
      Reader.rest last = Reader.rest state := by
  obtain ⟨tag, rest, hr, hleft⟩ := Wire.record_iff.mp h
  have htracks : Tracks WireError.IsShort 1 (Wire.nextRecord : Wire.Read Bytes (Nat × WireType))
    (Wire.nextRecord : Wire.Read σ (Nat × WireType)) := Wire.tracks_nextRecord
  obtain ⟨hone, last, hlast, hmore, -⟩ := htracks.behind (Input.at_ofBytes bytes) hat hle rfl hr hleft
  have hheaded : Wire.Headed tag bytes := by
    obtain ⟨tag', payload, htag, hr⟩ := Step.result_bind_eq_ok.mp hr
    obtain ⟨_, _, -, hpure⟩ := Step.result_bind_eq_ok.mp hr
    obtain ⟨rfl, -⟩ : tag' = tag ∧ _ := by simpa using hpure
    exact ⟨payload, htag⟩
  obtain ⟨tag', payload, htag, hlast⟩ := Step.result_bind_eq_ok.mp hlast
  obtain ⟨⟨⟩, skipped, hpayload, hpure⟩ := Step.result_bind_eq_ok.mp hlast
  obtain ⟨rfl, rfl⟩ : tag' = tag ∧ skipped = last := by simpa using hpure
  have hvalue : (skipValue tag'.1 tag'.2 : Decode σ S Unit).result { state with input := payload } =
      (.ok (), { state with input := skipped }) := by
    rw [skipValue, onInput, Step.result_onPart, Step.result_mapFailure, hpayload]
    rfl
  refine ⟨hone, tag', { state with input := skipped }, ?_, hmore, rfl⟩
  rw [nextField, Step.result_bind_ok (result_onWire htag), hskip tag' hheaded, bind_assoc,
    Step.result_bind_ok hvalue]
  rfl

theorem lap_of_skipped {bytes : Bytes} {nested : Ref → Decode Bytes S Unit} (h : Wire.Record bytes)
    (hskip : ∀ tag, Wire.Headed tag bytes →
      record schema config nested depth table tag.2 tag.1 (table.entryOf? tag.1) =
        (do skipValue tag.1 tag.2; pure none))
    (rest : Bytes × List S) : Lap schema config nested depth table bytes none rest rest := by
  have hat : (Input.ofBytes bytes).At (bytes ++ []) bytes.length 0 :=
    ⟨(List.append_nil bytes).symm, rfl, rfl⟩
  obtain ⟨-, tag, ⟨input, block, handlers⟩, hr, hinput, hrest⟩ :=
    nextField_of_skipped ⟨.ofBytes bytes, rest.1, rest.2⟩ h hskip hat (Nat.le_refl _)
  obtain ⟨rfl, rfl⟩ := Prod.mk.inj hrest
  exact ⟨tag, input, hr, hinput.left_eq.trans (Nat.sub_self _)⟩

theorem laps_of_skipped {records : List Bytes} {nested : Ref → Decode Bytes S Unit}
    (hrecords : ∀ record ∈ records, Wire.Record record)
    (hskip : ∀ bytes ∈ records, ∀ tag, Wire.Headed tag bytes →
      record schema config nested depth table tag.2 tag.1 (table.entryOf? tag.1) =
        (do skipValue tag.1 tag.2; pure none))
    (rest : Bytes × List S) : Laps schema config nested depth table records [] rest rest := by
  induction records with
  | nil => exact .nil rest
  | cons bytes records ih =>
    obtain ⟨hbytes, hrecords⟩ := List.forall_mem_cons.mp hrecords
    obtain ⟨hfirst, hskip⟩ := List.forall_mem_cons.mp hskip
    exact .cons (lap_of_skipped hbytes hfirst rest) (ih hrecords hskip)

end

section

variable {S Ref : Type} [Handler Ref S] {schema : Schema Ref} {config : DecodeConfig} {ref : Ref}
  {bytes block : Bytes} {handlers : List S}

/-- With no fields to look for, sequences of records are accepted, and nothing else. -/
theorem accepts_iff_records (hfields : (schema ref).fields = []) (hs : config.strictUnknown = false)
    (hsize : (schema ref).size ≤ block.length) :
    (∃ after, Makes (decodeMessage schema config ref) bytes (block, handlers) after) ↔
      ∃ records : List Bytes, (∀ record ∈ records, Wire.Record record) ∧ records.flatten = bytes := by
  have hcheck : (schema ref).checkBlock block = .ok () := Table.checkBlock_ok hsize
  have hinit : (schema.initialise ref).result block = (.ok (), block) :=
    Table.reset_eq_ok.mpr ⟨hcheck, by rw [hfields]; rfl⟩
  have hplain : schema.Throughout Table.Plain ref := by
    intro inner hi
    cases hi with
    | refl => exact ⟨by simp [Table.Unhandled, hfields], by simp [hfields]⟩
    | step hn _ => simp [Table.nested, hfields] at hn
  have hmerge : ∀ after, Makes (mergeMessage schema config ref) bytes (block, handlers) after ↔
      (schema ref).checkBlock block = .ok () ∧ ∃ records marks,
        Laps schema config (messageWithin schema config config.maxDepth) (config.maxDepth - config.maxDepth)
          (schema ref) records marks (block, handlers) after ∧
        records.flatten = bytes ∧ missing? (schema ref) marks = none := fun after =>
    makes_iff_laps hplain
  simp only [makes_decodeMessage_iff, hinit, Prod.mk.injEq, true_and, exists_eq_left', hmerge, hcheck]
  constructor
  · rintro ⟨after, records, marks, hlaps, hflat, -⟩
    refine ⟨records, hlaps.record hplain.here fun field hf => ?_, hflat⟩
    simp [hfields] at hf
  · rintro ⟨records, hrecords, hflat⟩
    refine ⟨_, records, [], laps_of_skipped hrecords (fun bytes _ tag _ => ?_) _, hflat, ?_⟩
    · have hnone : (schema ref).entryOf? tag.1 = none := by
        simp [Table.entryOf?, Cursor.find, Cursor.findWithin, hfields]
      rw [hnone, record, if_neg (by simp [hs])]
    · simp [missing?, Table.entries, Table.entriesFrom, hfields]

end

end Decode

section

open Wire

/-- A payload is skipped where it can be read, and as far, and where a number has too many bits. So
the decoder of a table without fields gets to the end of every sequence of records, and the scanner of
those that have no such number among them. -/
theorem skipping_agrees {S Ref : Type} [Handler Ref S] (schema : Schema Ref) (ref : Ref)
    (config : DecodeConfig) (block : Bytes) (handlers : List S)
    (hfields : (schema ref).fields = []) (hs : config.strictUnknown = false)
    (hsize : (schema ref).size ≤ block.length) :
    (∀ (σ : Type) [Source σ] [Supply σ] (input : Input σ) (content : Bytes) (left taken : Nat),
      input.At content left taken → ∀ (type : WireType) (place : Nat),
        Reaches (skipField type) input place ↔ Reaches (readRawValue type) input place ∨
          type = .varint ∧ Overfull Varint.maxLength (content.take left) ∧
            place = taken + Varint.maxLength) ∧
    ∀ bytes : Bytes,
      ((∃ after, Decode.Makes (decodeMessage schema config ref) bytes (block, handlers) after) ↔
        ∃ records : List Bytes, (∀ record ∈ records, Record record) ∧ records.flatten = bytes) ∧
      (Scans bytes ↔ ∃ records : List Bytes,
        (∀ record ∈ records, Record record ∧ ¬OverfullRecord record) ∧ records.flatten = bytes) := by
  refine ⟨fun σ _ _ input content left taken hat type place => reaches_skipField hat, fun bytes => ?_⟩
  refine ⟨Decode.accepts_iff_records hfields hs hsize, ?_⟩
  simp only [scans_iff, readable_iff]

/-- A table without fields. -/
def blank : Schema Unit := fun _ => ⟨"Blank", [], 0⟩

/-- Field 1 with a number whose tenth byte has the 65th bit. -/
def spilled : Bytes := 0x08 :: List.replicate 9 0x80 ++ [0x02]

theorem skipping_agrees_blank :
    (blank ()).fields = [] ∧ ({} : DecodeConfig).strictUnknown = false ∧
    (blank ()).size ≤ ([] : Bytes).length ∧
    (∃ after, Decode.Makes (decodeMessage blank {} () : Decode Bytes Unit Unit) spilled ([], []) after) ∧
    Scans [0x08, 0x96, 0x01, 0x12, 0x01, 0x61] := by
  have h := skipping_agrees (S := Unit) blank () {} [] [] rfl rfl (Nat.le_refl 0)
  have hspilled : Record spilled := record_iff.mpr ⟨(1, .varint), ⟨[], 0, 11, true⟩, by cbv, rfl⟩
  have hnumber : Readable [0x08, 0x96, 0x01] := ⟨(1, .varint), ⟨[], 0, 3, true⟩, by cbv, rfl⟩
  have htext : Readable [0x12, 0x01, 0x61] := ⟨(2, .delimited), ⟨[], 0, 3, true⟩, by cbv, rfl⟩
  refine ⟨rfl, rfl, Nat.le_refl 0, (h.2 spilled).1.mpr ⟨[spilled], by simpa using hspilled, by simp⟩, ?_⟩
  refine (h.2 _).2.mpr ⟨[[0x08, 0x96, 0x01], [0x12, 0x01, 0x61]], ?_, rfl⟩
  simp only [List.forall_mem_cons]
  exact ⟨readable_iff.mp hnumber, readable_iff.mp htext, List.forall_mem_nil _⟩

/-- Bits beyond the 64th are skipped and not read: the decoder passes over the field, and the scanner
stops at it. -/
theorem skips_spilled :
    Reaches (skipField .varint) (.ofBytes spilled.tail) 10 ∧
    (∀ place, ¬Reaches (readRawValue .varint) (.ofBytes spilled.tail) place) ∧
    decodeBytes blank () spilled [] = (.ok (), []) ∧ ¬Scans spilled := by
  have hread : (readRawValue .varint).result (.ofBytes spilled.tail) =
      (.error .malformedVarint, ⟨[], 0, 10, true⟩) := by cbv
  have hscan : (scan spilled).2.1 = some .malformedVarint := by cbv
  refine ⟨⟨(), ⟨[], 0, 10, true⟩, by cbv, rfl⟩, ?_, by cbv, ?_⟩
  · rintro place ⟨value, after, hr, -⟩
    cases hread.symm.trans hr
  · rintro ⟨fields, scanner, hr, -⟩
    simp [hr] at hscan

end

end BlockCodec
