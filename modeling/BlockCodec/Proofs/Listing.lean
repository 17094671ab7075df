import BlockCodec.Command.Split
import BlockCodec.Proofs.Buffers

/-!
# Where the frames of a listing lie

A frame is taken off a stream whatever spelling its length has, but a listing counts every length as one
in the shortest form. The reader tells where the frames lie: what it takes off a stream, call by call, are
the frames at its front, up to the first that is not one (`Command.splitFrames_chain`). A row counts the
payloads before it (`Command.frameRows_eq_mapIdx`), so it lies too early by the groups that the
lengths before it have to spare: `Command.split_positions`.
-/

namespace BlockCodec

namespace Frame

open Varint (Spells)

-- ---------------------------------------------------------------------------
-- Frames as they lie in a stream
-- ---------------------------------------------------------------------------

/-- A payload behind any spelling of its length. -/
structure Framed where
  front : Bytes
  payload : Bytes
  front_le : front.length ≤ Varint.maxLength
  length_lt : payload.length < 2 ^ 64
  spells : Spells front payload.length

namespace Framed

def bytes (frame : Framed) : Bytes := frame.front ++ frame.payload

/-- The bytes that the shortest form of the length would save. -/
def excess (frame : Framed) : Nat :=
  frame.front.length - Varint.length (UInt64.ofNat frame.payload.length)

/-- The length is written as a writer of frames writes it. -/
def Shortest (frame : Framed) : Prop := frame.front = Varint.encode (UInt64.ofNat frame.payload.length)

variable (frame : Framed)

theorem shortest_form :
    Varint.length (UInt64.ofNat frame.payload.length) ≤ frame.front.length ∧
      (frame.front.length = Varint.length (UInt64.ofNat frame.payload.length) ↔ frame.Shortest) := by
  have hword : (UInt64.ofNat frame.payload.length).toNat = frame.payload.length := by
    rw [UInt64.toNat_ofNat', Nat.mod_eq_of_lt frame.length_lt]
  exact Spells.shortest (hword.symm ▸ frame.spells)

theorem length_add_excess :
    Varint.length (UInt64.ofNat frame.payload.length) + frame.excess = frame.front.length :=
  Nat.add_sub_of_le frame.shortest_form.1

theorem excess_eq_zero_iff : frame.excess = 0 ↔ frame.Shortest := by
  have hsum := frame.length_add_excess
  rw [← frame.shortest_form.2]
  omega

theorem length_bytes_pos : 0 < frame.bytes.length := by
  rw [bytes, List.length_append]
  exact Nat.add_pos_left frame.spells.length_pos _

end Framed

/-- Frames one behind the other. -/
def chain (frames : List Framed) : Bytes := frames.flatMap Framed.bytes

/-- Frames take as much as those that a writer would send for the same payloads, and what their lengths
have to spare. -/
theorem length_chain (frames : List Framed) :
    (stream (frames.map (·.payload))).length + (frames.map (·.excess)).sum = (chain frames).length := by
  induction frames with
  | nil => rfl
  | cons frame frames ih =>
    have hsum := frame.length_add_excess
    have hchain : chain (frame :: frames) = frame.bytes ++ chain frames := rfl
    have hstream : stream ((frame :: frames).map (·.payload)) =
        encode frame.payload ++ stream (frames.map (·.payload)) := rfl
    rw [hchain, hstream, List.length_append, List.length_append, length_encode, Framed.bytes,
      List.length_append, List.map_cons, List.sum_cons]
    omega

-- ---------------------------------------------------------------------------
-- What is taken
-- ---------------------------------------------------------------------------

variable {max : Nat} {buffer payload rest : Bytes} {failure : WireError}

theorem exists_framed (h : take max buffer = .ok (some (payload, rest))) :
    ∃ frame : Framed, frame.payload = payload ∧ payload.length ≤ max ∧ buffer = frame.bytes ++ rest := by
  have hcuts := cuts_cut max buffer
  rw [take_eq_cut] at h
  generalize ((cut max).result buffer).1 = outcome, ((cut max).result buffer).2 = left at hcuts h
  cases hcuts with
  | spilt | begun | large | short => cases h
  | @whole front behind declared hspells hle hmax hword hbehind =>
    cases h
    have hlength : (behind.take declared.toNat).length = declared.toNat := List.length_take_of_le hbehind
    refine ⟨⟨front, behind.take declared.toNat, hle, ?_, ?_⟩, rfl, ?_, ?_⟩
    · rw [hlength]
      exact declared.toNat_lt
    · rwa [hlength]
    · rwa [hlength]
    · rw [Framed.bytes, List.append_assoc, List.take_append_drop]

/-- What is taken or refused is so whatever stands behind. -/
theorem take_append (h : take max buffer ≠ .ok none) (more : Bytes) :
    take max (buffer ++ more) = (take max buffer).map (Option.map fun taken => (taken.1, taken.2 ++ more)) := by
  have hcuts := cuts_cut max buffer
  have heq := take_eq_cut max buffer
  generalize ((cut max).result buffer).1 = outcome, ((cut max).result buffer).2 = left at hcuts heq
  have hne : outcome ≠ .ok none := by
    rintro rfl
    exact h heq
  rw [take_eq_cut, (hcuts.append hne more).result, heq]
  rcases outcome with failure | _ | payload <;> rfl

theorem takeLast_append_of_taken (h : take max buffer = .ok (some (payload, rest))) (more : Bytes) :
    takeLast max (buffer ++ more) = .ok (some (payload, rest ++ more)) := by
  rw [takeLast, take_append (by simp [h]), h]
  rfl

theorem takeLast_append_of_refused (h : take max buffer = .error failure) (more : Bytes) :
    takeLast max (buffer ++ more) = .error failure := by
  rw [takeLast, take_append (by simp [h]), h]
  rfl

theorem takeLast_of_waits (h : take max buffer = .ok none) :
    takeLast max buffer = if buffer.isEmpty then .ok none else .error .connectionClosed := by
  rw [takeLast, h]
  rfl

end Frame

-- ---------------------------------------------------------------------------
-- Calls on a stream
-- ---------------------------------------------------------------------------

/-- The device is only interrupted, and its data end where the feed does. -/
structure Feed.Steady (feed : Feed) : Prop where
  filled : feed.Filled
  faults_eq : feed.faults = []

instance (feed : Feed) : Decidable feed.Steady :=
  decidable_of_iff (feed.Filled ∧ feed.faults = []) ⟨fun h => ⟨h.1, h.2⟩, fun h => ⟨h.1, h.2⟩⟩

theorem Feed.steady_nil : Feed.Steady [] := by decide

namespace Frame.Reader

variable {reader after : Reader} {payload : Bytes} {outcome : Except WireError (Option Bytes)}

/-- The bytes that have still to be cut. -/
def ahead (reader : Reader) : Bytes := reader.buffer ++ reader.feed.content

theorem ahead_interrupted {feed : Feed} (hread : reader.feed.read readChunk = (.error .interrupted, feed)) :
    reader.ahead = ahead { reader with feed } := by
  rw [ahead, Feed.read_eq_error hread]
  rfl

theorem ahead_arrived {bytes : Bytes} {feed : Feed} (hread : reader.feed.read readChunk = (.ok bytes, feed)) :
    reader.ahead = ahead { reader with feed, buffer := reader.buffer ++ bytes } := by
  rw [ahead, ahead, Feed.content_read hread, List.append_assoc]

/-- A call takes a frame off the bytes ahead, and no other bytes. -/
theorem exists_framed_of_advance (h : reader.advance = (.ok (some payload), after)) :
    ∃ frame : Framed, frame.payload = payload ∧ payload.length ≤ reader.max ∧
      reader.ahead = frame.bytes ++ after.ahead ∧ after.max = reader.max := by
  induction reader using advance.induct with
  | case1 reader failure hfails =>
    rw [Reader.advance, hfails] at h
    cases h
  | case2 reader taken rest htaken =>
    rw [advance_taken htaken] at h
    cases h
    obtain ⟨frame, hpayload, hle, hbuffer⟩ := exists_framed htaken
    refine ⟨frame, hpayload, hle, ?_, rfl⟩
    rw [ahead, ahead, hbuffer, List.append_assoc]
  | case3 reader hwait feed hread ih =>
    rw [advance_interrupted hwait hread] at h
    rw [ahead_interrupted hread]
    exact ih h
  | case4 reader hwait fault feed hne hread =>
    rw [advance_faulted hwait hne hread] at h
    cases h
  | case5 reader hwait feed hread =>
    rw [advance_ended hwait hread] at h
    split at h <;> cases h
  | case6 reader hwait byte bytes feed hread ih =>
    rw [advance_arrived hwait hread] at h
    rw [ahead_arrived hread]
    exact ih h

/-- On a steady device a call does with the bytes ahead what would be done with all of them at once. -/
theorem advance_of_steady (hsteady : reader.feed.Steady) (h : reader.advance = (outcome, after)) :
    outcome = (takeLast reader.max reader.ahead).map (Option.map (·.1)) ∧ after.feed.Steady := by
  induction reader using advance.induct with
  | case1 reader failure hfails =>
    rw [Reader.advance, hfails] at h
    cases h
    rw [ahead, takeLast_append_of_refused hfails]
    exact ⟨rfl, hsteady⟩
  | case2 reader taken rest htaken =>
    rw [advance_taken htaken] at h
    cases h
    rw [ahead, takeLast_append_of_taken htaken]
    exact ⟨rfl, hsteady⟩
  | case3 reader hwait feed hread ih =>
    rw [advance_interrupted hwait hread] at h
    rw [ahead_interrupted hread]
    obtain ⟨hfilled, hfaults⟩ := hsteady
    rw [Feed.read_eq_error hread] at hfilled hfaults
    exact ih ⟨fun arrival ha => hfilled arrival (List.mem_cons_of_mem _ ha), hfaults⟩ h
  | case4 reader hwait fault feed hne hread =>
    have hfaults := hsteady.faults_eq
    rw [Feed.read_eq_error hread, Feed.faults_cons_of_ne hne] at hfaults
    cases hfaults
  | case5 reader hwait feed hread =>
    -- the feed has ended, so the buffer is all that lies ahead
    obtain ⟨hend, rfl⟩ := hsteady.filled.read_eq_end (by decide) hread
    rw [advance_ended hwait hread] at h
    cases h
    have hahead : reader.ahead = reader.buffer := by
      rw [ahead, hend]
      exact List.append_nil _
    rw [hahead, takeLast_of_waits hwait]
    refine ⟨?_, Feed.steady_nil⟩
    split <;> rfl
  | case6 reader hwait byte bytes feed hread ih =>
    obtain ⟨-, hfilled, hfaults⟩ := hsteady.filled.read_eq_ok hread
    rw [advance_arrived hwait hread] at h
    rw [ahead_arrived hread]
    exact ih ⟨hfilled, hfaults.trans hsteady.faults_eq⟩ h

end Frame.Reader

-- ---------------------------------------------------------------------------
-- Rows
-- ---------------------------------------------------------------------------

namespace Command

open BlockCodec.Frame

/-- Where no frame is taken, what is said is all that there is to say. -/
theorem takeLast_of_stop {max : Nat} {bytes : Bytes} {stop : Option WireError}
    (h : stop.elim (.ok none) .error = (takeLast max bytes).map (Option.map (·.1))) :
    takeLast max bytes = stop.elim (.ok none) .error := by
  rcases htake : takeLast max bytes with failure | _ | taken <;> rw [htake] at h <;>
    rcases stop with _ | stop <;> cases h <;> rfl

/-- The frames that a listing reads lie one behind the other at the front of its stream, and on a steady
device what stands behind them is the end of the data or no frame. -/
theorem splitFrames_chain {room : Nat} {reader : Frame.Reader} (hroom : reader.ahead.length < room) :
    ∃ (frames : List Framed) (rest : Bytes) (failure? : Option WireError),
      splitFrames room reader = (frames.map (·.payload), failure?) ∧
      reader.ahead = chain frames ++ rest ∧
      (∀ frame ∈ frames, frame.payload.length ≤ reader.max) ∧
      (reader.feed.Steady → takeLast reader.max rest = failure?.elim (.ok none) .error) := by
  induction room generalizing reader with
  | zero => exact absurd hroom (Nat.not_lt_zero _)
  | succ room ih =>
    rcases hadvance : reader.advance with ⟨outcome, after⟩
    have hresult : Frame.Reader.next.result reader = (outcome, after) := hadvance
    rcases outcome with failure | _ | payload
    · refine ⟨[], reader.ahead, some failure, ?_, rfl, nofun, fun hsteady => ?_⟩
      · simp only [splitFrames, hresult]
        rfl
      · exact takeLast_of_stop (Frame.Reader.advance_of_steady hsteady hadvance).1
    · refine ⟨[], reader.ahead, none, ?_, rfl, nofun, fun hsteady => ?_⟩
      · simp only [splitFrames, hresult]
        rfl
      · exact takeLast_of_stop (Frame.Reader.advance_of_steady hsteady hadvance).1
    · obtain ⟨frame, rfl, hle, hahead, hmax⟩ := Frame.Reader.exists_framed_of_advance hadvance
      have hshorter : after.ahead.length < room := by
        have hpos := frame.length_bytes_pos
        rw [hahead, List.length_append] at hroom
        omega
      obtain ⟨frames, rest, failure?, hrun, hchain, hsizes, hlast⟩ := ih hshorter
      rw [hmax] at hsizes hlast
      refine ⟨frame :: frames, rest, failure?, ?_, ?_, List.forall_mem_cons.mpr ⟨hle, hsizes⟩, fun hsteady => ?_⟩
      · simp only [splitFrames, hresult, hrun]
        rfl
      · rw [hahead, hchain, ← List.append_assoc]
        rfl
      · exact hlast (Frame.Reader.advance_of_steady hsteady hadvance).2

theorem rowsAfter_eq_mapIdx (row : FrameRow) (payloads : List Bytes) :
    rowsAfter row payloads = payloads.mapIdx fun place payload =>
      ⟨row.index + 1 + place, row.offset + row.lead + row.payload.length + boundary payloads place, payload⟩ := by
  induction payloads generalizing row with
  | nil => rfl
  | cons payload payloads ih =>
    rw [rowsAfter, ih, List.mapIdx_cons]
    refine congrArg₂ List.cons rfl (List.mapIdx_eq_mapIdx_iff.mpr fun place hplace => ?_)
    rw [boundary_succ, length_encode]
    simp only [FrameRow.following, FrameRow.lead, FrameRow.mk.injEq, and_true]
    omega

/-- A row counts the payloads before it, each behind the shortest form of its length. -/
theorem frameRows_eq_mapIdx (payloads : List Bytes) :
    frameRows payloads = payloads.mapIdx fun place payload => ⟨place, boundary payloads place, payload⟩ := by
  cases payloads with
  | nil => rfl
  | cons payload payloads =>
    rw [frameRows, rowsAfter_eq_mapIdx, List.mapIdx_cons]
    refine congrArg₂ List.cons rfl (List.mapIdx_eq_mapIdx_iff.mpr fun place hplace => ?_)
    rw [boundary_succ, length_encode]
    simp only [FrameRow.lead, FrameRow.mk.injEq, and_true]
    omega

/-- What the row of a frame says of the place where the frame lies. -/
structure FrameRow.Tells (row : FrameRow) (before : List Framed) (frame : Framed) : Prop where
  index_eq : row.index = before.length
  payload_eq : row.payload = frame.payload
  offset_add : row.offset + (before.map (·.excess)).sum = (chain before).length
  lead_add : row.lead + frame.excess = frame.front.length

variable {row : FrameRow} {before : List Framed} {frame : Framed}

/-- The place is the true one only where no length before it is longer than it has to be. -/
theorem FrameRow.Tells.offset_eq_iff (h : row.Tells before frame) :
    row.offset = (chain before).length ↔ ∀ earlier ∈ before, earlier.Shortest := by
  have hsum : row.offset = (chain before).length ↔ (before.map (·.excess)).sum = 0 := by
    rw [← h.offset_add]
    omega
  simp only [hsum, List.sum_eq_zero_iff, List.forall_mem_map, Framed.excess_eq_zero_iff]

theorem FrameRow.Tells.lead_eq_iff (h : row.Tells before frame) :
    row.lead = frame.front.length ↔ frame.Shortest := by
  rw [← h.lead_add, ← frame.excess_eq_zero_iff]
  omega

theorem frameRows_tells (before : List Framed) (frame : Framed) (after : List Framed) :
    ∃ row, (frameRows ((before ++ frame :: after).map (·.payload)))[before.length]? = some row ∧
      row.Tells before frame := by
  have hplace : boundary ((before ++ frame :: after).map (·.payload)) before.length =
      (stream (before.map (·.payload))).length := by
    rw [boundary, ← List.map_take, List.take_left]
  refine ⟨⟨before.length, (stream (before.map (·.payload))).length, frame.payload⟩, ?_, rfl, rfl,
    length_chain before, frame.length_add_excess⟩
  rw [frameRows_eq_mapIdx, List.getElem?_mapIdx, hplace]
  simp

/-- Each row begins where the row before it lets its frame end. -/
theorem offset_following {payloads : List Bytes} {next : FrameRow} {place : Nat}
    (hrow : (frameRows payloads)[place]? = some row) (hnext : (frameRows payloads)[place + 1]? = some next) :
    next.offset = row.offset + row.lead + row.payload.length := by
  rw [frameRows_eq_mapIdx, List.getElem?_mapIdx] at hrow hnext
  obtain ⟨payload, hpayload, rfl⟩ := Option.map_eq_some_iff.mp hrow
  obtain ⟨behind, -, rfl⟩ := Option.map_eq_some_iff.mp hnext
  have hboundary : boundary payloads (place + 1) = boundary payloads place + (encode payload).length := by
    rw [boundary, List.take_add_one, hpayload, stream, List.flatMap_append, List.length_append]
    simp [boundary, stream]
  rw [FrameRow.lead, Nat.add_assoc, ← length_encode]
  exact hboundary

theorem split_eq {places : Places} {path : String} {feed : Feed} {maxLength : Nat} {payloads : List Bytes}
    {failure? : Option WireError} (style : Style) (hopen : places path = .ok feed)
    (hrun : splitFrames (frameRoom feed) (.ofFeed feed maxLength) = (payloads, failure?)) :
    split places path maxLength style =
      { splitReport style (frameRows payloads) with failure? := failure?.map (.splitting payloads.length) } := by
  simp only [split, openPlace, hopen, Except.mapError, bind, Except.bind, hrun]
  rfl

/-- A listing has a row for every frame at the front of its stream, up to the end or to what is no frame.
A row is told the payload, but counts every length in the shortest form: its offset falls short of the place
where the frame lies by what the lengths before it have to spare, and its lead by what its own has. -/
theorem split_positions {places : Places} {path : String} {feed : Feed} (maxLength : Nat) (style : Style)
    (hopen : places path = .ok feed) :
    ∃ (frames : List Framed) (rest : Bytes) (failure? : Option WireError),
      feed.content = chain frames ++ rest ∧
      (∀ frame ∈ frames, frame.payload.length ≤ maxLength) ∧
      (feed.Steady → takeLast maxLength rest = failure?.elim (.ok none) .error) ∧
      ∃ rows : List FrameRow,
        split places path maxLength style =
          { splitReport style rows with failure? := failure?.map (.splitting frames.length) } ∧
        rows.length = frames.length ∧
        (∀ before frame after, frames = before ++ frame :: after →
          ∃ row, rows[before.length]? = some row ∧ row.Tells before frame ∧
            (row.offset = (chain before).length ↔ ∀ earlier ∈ before, earlier.Shortest) ∧
            (row.lead = frame.front.length ↔ frame.Shortest)) ∧
        ∀ place row next, rows[place]? = some row → rows[place + 1]? = some next →
          next.offset = row.offset + row.lead + row.payload.length := by
  have hroom : (Frame.Reader.ofFeed feed maxLength).ahead.length < frameRoom feed := Nat.lt_succ_self _
  obtain ⟨frames, rest, failure?, hrun, hchain, hsizes, hlast⟩ := splitFrames_chain hroom
  refine ⟨frames, rest, failure?, hchain, hsizes, hlast, frameRows (frames.map (·.payload)), ?_, ?_, ?_, ?_⟩
  · simpa using split_eq style hopen hrun
  · rw [frameRows_eq_mapIdx, List.length_mapIdx, List.length_map]
  · rintro before frame after rfl
    obtain ⟨row, hrow, htells⟩ := frameRows_tells before frame after
    exact ⟨row, hrow, htells, htells.offset_eq_iff, htells.lead_eq_iff⟩
  · exact fun place row next => offset_following

/-- Of three lengths the first is in two groups, and the last is more than is allowed. -/
theorem split_positions_padded :
    ∃ places : Places, places "-" = .ok [.chunk [0x80, 0, 1], .fault .interrupted, .chunk [0x61, 9]] ∧
      ∃ (frames : List Framed) (rest : Bytes) (failure? : Option WireError),
        [0x80, 0, 1, 0x61, 9] = chain frames ++ rest ∧
        takeLast 8 rest = failure?.elim (.ok none) .error ∧
        (split places "-" 8 .raw).failure? = failure?.map (.splitting frames.length) := by
  let places : Places := fun _ => .ok [.chunk [0x80, 0, 1], .fault .interrupted, .chunk [0x61, 9]]
  have hopen : places "-" = .ok [.chunk [0x80, 0, 1], .fault .interrupted, .chunk [0x61, 9]] := rfl
  obtain ⟨frames, rest, failure?, hcontent, -, hlast, rows, hsplit, -⟩ := split_positions 8 .raw hopen
  exact ⟨places, hopen, frames, rest, failure?, hcontent, hlast (by decide), by rw [hsplit]⟩

/-- An empty payload behind two bytes of length, then a letter: the first row tells one byte of the two,
and the second row lies one byte too early. -/
theorem split_drops_padding :
    ∃ empty letter : Framed, empty.front = [0x80, 0] ∧ letter.front = [1] ∧ letter.payload = [0x61] ∧
      chain [empty, letter] = [0x80, 0, 1, 0x61] ∧ (chain [empty]).length = 2 ∧
      (frameRows [empty.payload, letter.payload]).map (fun row => (row.offset, row.lead)) = [(0, 1), (1, 1)] ∧
      split (fun _ => .ok [.chunk [0x80, 0, 1, 0x61]]) "-" 8 .pretty =
        .ofLines ["#0    @0        1 + 0 bytes  \"\"", "#1    @1        1 + 1 bytes  \"a\""] := by
  refine ⟨⟨[0x80, 0], [], by decide, by decide, .group (by decide) (.last (by decide))⟩,
    ⟨[1], [0x61], by decide, by decide, .last (by decide)⟩, rfl, rfl, rfl, rfl, rfl, by decide, ?_⟩
  cbv

end Command

end BlockCodec
