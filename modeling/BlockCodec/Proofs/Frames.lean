import BlockCodec.Frame.Reader
import BlockCodec.Proofs.Reading

/-!
# Frames that arrive in pieces

A frame is taken off a buffer when all of it is there, whatever stands behind it, and the front of a
frame is waited on. So a reader delivers the payloads of a stream of frames one by one, however the
stream is cut into chunks and whatever faults lie between these: `Frame.Reader.delivers`.
-/

namespace BlockCodec

variable {max : Nat}

-- ---------------------------------------------------------------------------
-- Frames at the front
-- ---------------------------------------------------------------------------

namespace Frame

/-- The payload is allowed, and the size of its frame is a machine word. -/
structure Fits (max : Nat) (payload : Bytes) : Prop where
  le_max : payload.length ≤ max
  frame_le : (encode payload).length ≤ maxSize

instance (max : Nat) (payload : Bytes) : Decidable (Fits max payload) :=
  decidable_of_iff (payload.length ≤ max ∧ (encode payload).length ≤ maxSize)
    ⟨fun h => ⟨h.1, h.2⟩, fun h => ⟨h.1, h.2⟩⟩

theorem length_encode (payload : Bytes) :
    (encode payload).length = Varint.length (UInt64.ofNat payload.length) + payload.length := by
  rw [encode, List.length_append, Varint.length_encode]

theorem encode_ne_nil (payload : Bytes) : encode payload ≠ [] := by
  rw [← List.length_pos_iff, length_encode]
  exact Nat.lt_of_lt_of_le (Nat.succ_pos _) (Nat.le_add_right _ _)

variable {payload : Bytes}

theorem Fits.toNat_length (h : Fits max payload) :
    (UInt64.ofNat payload.length).toNat = payload.length := by
  have hle := h.frame_le
  rw [length_encode, maxSize] at hle
  rw [UInt64.toNat_ofNat']
  omega

/-- A length that fits is told, and what stands behind it decides. -/
theorem Fits.take_eq (h : Fits max payload) (content : Bytes) :
    take max (Varint.encode (UInt64.ofNat payload.length) ++ content) =
      .ok (if (content.take payload.length).length < payload.length then none
        else some (content.take payload.length, content.drop payload.length)) := by
  have hle := h.frame_le
  rw [length_encode] at hle
  have hmax : ¬(max < payload.length ∨
      maxSize < Varint.length (UInt64.ofNat payload.length) + payload.length) := by
    have := h.le_max
    omega
  have hdrop : (Varint.encode (UInt64.ofNat payload.length) ++ content).drop
      (Varint.length (UInt64.ofNat payload.length)) = content := by
    rw [← Varint.length_encode, List.drop_left]
  simp only [take, Varint.read_encode_append, h.toNat_length, if_neg hmax, hdrop]

theorem Fits.take_encode_append (h : Fits max payload) (rest : Bytes) :
    take max (encode payload ++ rest) = .ok (some (payload, rest)) := by
  rw [encode, List.append_assoc, h.take_eq, List.take_left, List.drop_left, if_neg (Nat.lt_irrefl _)]

theorem Fits.of_short (hle : payload.length ≤ max) (hshort : payload.length < 2 ^ 63) : Fits max payload where
  le_max := hle
  frame_le := by
    have := Varint.length_le (UInt64.ofNat payload.length)
    rw [length_encode, maxSize]
    rw [Varint.maxLength] at this
    omega

/-- The front of a frame is waited on. -/
theorem Fits.take_front (h : Fits max payload) {count : Nat} (hlt : count < (encode payload).length) :
    take max ((encode payload).take count) = .ok none := by
  rw [length_encode] at hlt
  by_cases hlead : count < Varint.length (UInt64.ofNat payload.length)
  · have hfront : (encode payload).take count =
        (Varint.encode (UInt64.ofNat payload.length)).take count := by
      rw [encode, List.take_append_of_le_length]
      rw [Varint.length_encode]
      omega
    rw [hfront, take, Varint.read_take_encode hlead]
  · rw [encode, List.take_append, List.take_of_length_le (by rw [Varint.length_encode]; omega),
      h.take_eq, Varint.length_encode, if_pos]
    rw [List.length_take, List.length_take]
    omega

/-- Of bytes that begin with a frame, a buffer at the front holds the frame, or it is waited on. -/
theorem Fits.front (h : Fits max payload) {buffer content rest : Bytes}
    (hcontent : buffer ++ content = encode payload ++ rest) :
    (take max buffer = .ok none ∧ content ≠ []) ∨
      ∃ more, take max buffer = .ok (some (payload, more)) ∧ more ++ content = rest := by
  rcases List.append_eq_append_iff.mp hcontent with ⟨missing, hframe, hrest⟩ | ⟨more, hbuffer, hrest⟩
  · by_cases hnil : missing = []
    · subst hnil
      rw [List.append_nil] at hframe
      refine .inr ⟨[], ?_, hrest⟩
      simpa [← hframe] using h.take_encode_append []
    · refine .inl ⟨?_, fun hend => hnil (List.append_eq_nil_iff.mp (hrest.symm.trans hend)).1⟩
      have hlen : buffer.length < (encode payload).length := by
        rw [hframe, List.length_append]
        have := List.length_pos_iff.mpr hnil
        omega
      have hfront := h.take_front hlen
      rwa [hframe, List.take_left] at hfront
  · exact .inr ⟨more, hbuffer ▸ h.take_encode_append more, hrest.symm⟩

-- ---------------------------------------------------------------------------
-- Streams of frames
-- ---------------------------------------------------------------------------

/-- The frames of payloads, one behind the other. -/
def stream (payloads : List Bytes) : Bytes := payloads.flatMap encode

/-- Where the first `count` frames of a stream end. -/
def boundary (payloads : List Bytes) (count : Nat) : Nat := (stream (payloads.take count)).length

/-- The front of a frame for a payload that fits, or nothing. -/
def Part (max : Nat) (content : Bytes) : Prop :=
  content = [] ∨ ∃ payload count, Fits max payload ∧ count < (encode payload).length ∧
    content = (encode payload).take count

/-- The front of what is only the front of a frame. -/
theorem Part.take {content : Bytes} (h : Part max content) (count : Nat) : Part max (content.take count) := by
  rcases h with rfl | ⟨payload, whole, hfits, hlt, rfl⟩
  · exact .inl List.take_nil
  · refine .inr ⟨payload, min count whole, hfits, by omega, List.take_take⟩

theorem Part.take_eq {content : Bytes} (h : Part max content) : Frame.take max content = .ok none := by
  rcases h with rfl | ⟨payload, count, hfits, hlt, rfl⟩
  · rfl
  · exact hfits.take_front hlt

theorem boundary_succ (payload : Bytes) (payloads : List Bytes) (count : Nat) :
    boundary (payload :: payloads) (count + 1) = (encode payload).length + boundary payloads count := by
  simp [boundary, stream]

/-- A cut through a stream leaves whole frames and a part of one. -/
theorem exists_boundary {payloads : List Bytes} (hfits : ∀ payload ∈ payloads, Fits max payload)
    (cut : Nat) :
    ∃ count part, count ≤ payloads.length ∧ boundary payloads count ≤ cut ∧
      (count < payloads.length → cut < boundary payloads (count + 1)) ∧ Part max part ∧
      (stream payloads).take cut = stream (payloads.take count) ++ part := by
  induction payloads generalizing cut with
  | nil => exact ⟨0, [], Nat.le_refl 0, Nat.zero_le _, nofun, .inl rfl, by simp [stream]⟩
  | cons payload payloads ih =>
    obtain ⟨hfirst, hrest⟩ := List.forall_mem_cons.mp hfits
    have hstream : stream (payload :: payloads) = encode payload ++ stream payloads := rfl
    by_cases hlt : cut < (encode payload).length
    · refine ⟨0, (encode payload).take cut, Nat.zero_le _, Nat.zero_le _, fun _ => ?_,
        .inr ⟨payload, cut, hfirst, hlt, rfl⟩, ?_⟩
      · rw [boundary_succ]
        omega
      · rw [hstream, List.take_append_of_le_length (Nat.le_of_lt hlt)]
        rfl
    · obtain ⟨count, part, hcount, hle, hnext, hpart, heq⟩ := ih hrest (cut - (encode payload).length)
      refine ⟨count + 1, part, by simpa using hcount, ?_, fun hmore => ?_, hpart, ?_⟩
      · rw [boundary_succ]
        omega
      · have := hnext (by simpa using hmore)
        rw [boundary_succ]
        omega
      · rw [hstream, List.take_append, List.take_of_length_le (by omega), heq, List.take_succ_cons,
          ← List.append_assoc]
        rfl

end Frame

-- ---------------------------------------------------------------------------
-- What a feed still holds
-- ---------------------------------------------------------------------------

namespace Feed

/-- No chunk is empty, so the data ends only where the feed does. -/
def Filled (feed : Feed) : Prop := ∀ arrival ∈ feed, arrival ≠ .chunk []

instance (feed : Feed) : Decidable feed.Filled :=
  inferInstanceAs (Decidable (∀ arrival ∈ feed, arrival ≠ .chunk []))

/-- The faults that a reader has to report: all but the interruptions. -/
def faults : Feed → List Fault
  | [] => []
  | .chunk _ :: rest => faults rest
  | .fault .interrupted :: rest => faults rest
  | .fault fault :: rest => fault :: faults rest

theorem faults_cons_of_ne {fault : Fault} (h : fault ≠ .interrupted) (feed : Feed) :
    faults (.fault fault :: feed) = fault :: faults feed := by
  cases fault <;> first | rfl | exact absurd rfl h

variable {feed after : Feed} {wanted : Nat}

theorem read_eq_error {fault : Fault} (h : feed.read wanted = (.error fault, after)) :
    feed = .fault fault :: after := by
  unfold read at h
  split at h <;> cases h
  rfl

theorem Filled.read_eq_end (hf : feed.Filled) (hpos : 0 < wanted)
    (h : feed.read wanted = (.ok [], after)) : feed = [] ∧ after = [] := by
  unfold read at h
  split at h
  · cases h
    exact ⟨rfl, rfl⟩
  · cases h
  · next bytes rest =>
    have hnil : bytes.take wanted = [] := Except.ok.inj (Prod.mk.inj h).1
    rcases List.take_eq_nil_iff.mp hnil with hzero | rfl
    · omega
    · exact absurd rfl (hf _ List.mem_cons_self)

/-- What a call answers comes off the front of what the feed holds. -/
theorem content_read {bytes : Bytes} (h : feed.read wanted = (.ok bytes, after)) :
    feed.content = bytes ++ after.content := by
  unfold read at h
  split at h
  · cases h
    rfl
  · cases h
  · next chunk rest =>
    cases h
    cases hd : chunk.drop wanted with
    | nil =>
      rw [content, ← List.take_append_drop wanted chunk, hd, List.append_nil]
      simp
    | cons byte left => rw [content, content, ← hd, ← List.append_assoc, List.take_append_drop]

theorem Filled.read_eq_ok (hf : feed.Filled) {bytes : Bytes} (h : feed.read wanted = (.ok bytes, after)) :
    feed.content = bytes ++ after.content ∧ after.Filled ∧ after.faults = feed.faults := by
  refine ⟨content_read h, ?_⟩
  unfold read at h
  split at h
  · cases h
    exact ⟨hf, rfl⟩
  · cases h
  · next chunk rest =>
    cases h
    have hrest : Filled rest := fun arrival ha => hf arrival (List.mem_cons_of_mem _ ha)
    cases hd : chunk.drop wanted with
    | nil => exact ⟨hrest, rfl⟩
    | cons byte left => exact ⟨List.forall_mem_cons.mpr ⟨nofun, hrest⟩, rfl⟩

end Feed

-- ---------------------------------------------------------------------------
-- Calls of a reader
-- ---------------------------------------------------------------------------

namespace Frame.Reader

/-- The results of calls in a row, and the reader afterwards. -/
def calls : Nat → Reader → List (Except WireError (Option Bytes)) × Reader
  | 0, reader => ([], reader)
  | count + 1, reader =>
    let (outcome, reader) := next.result reader
    let (results, last) := calls count reader
    (outcome :: results, last)

section

variable {reader : Reader} {feed : Feed}

theorem advance_taken {payload rest : Bytes} (h : take reader.max reader.buffer = .ok (some (payload, rest))) :
    reader.advance = (.ok (some payload), { reader with buffer := rest }) := by
  rw [Reader.advance, h]

theorem advance_interrupted (hwait : take reader.max reader.buffer = .ok none)
    (hread : reader.feed.read readChunk = (.error .interrupted, feed)) :
    reader.advance = advance { reader with feed } := by
  rw [Reader.advance, hwait]
  simp only
  split <;> simp_all

theorem advance_faulted {fault : Fault} (hwait : take reader.max reader.buffer = .ok none)
    (hne : fault ≠ .interrupted) (hread : reader.feed.read readChunk = (.error fault, feed)) :
    reader.advance = (.error (.device fault), { reader with feed }) := by
  rw [Reader.advance, hwait]
  simp only
  split <;> simp_all

theorem advance_ended (hwait : take reader.max reader.buffer = .ok none)
    (hread : reader.feed.read readChunk = (.ok [], feed)) :
    reader.advance =
      (if reader.buffer.isEmpty then .ok none else .error .connectionClosed, { reader with feed }) := by
  rw [Reader.advance, hwait]
  simp only
  split <;> simp_all

theorem advance_arrived {byte : UInt8} {bytes : Bytes} (hwait : take reader.max reader.buffer = .ok none)
    (hread : reader.feed.read readChunk = (.ok (byte :: bytes), feed)) :
    reader.advance = advance { reader with feed, buffer := reader.buffer ++ byte :: bytes } := by
  rw [Reader.advance, hwait]
  simp only
  split <;> simp_all

end

/-- The fault that a result reports. -/
def reported? : Except WireError (Option Bytes) → Option Fault
  | .error (.device fault) => some fault
  | _ => none

/-- What is said when the data ends with this in the buffer. -/
def ending (part : Bytes) : Except WireError (Option Bytes) :=
  if part.isEmpty then .ok none else .error .connectionClosed

theorem reported?_ending (part : Bytes) : reported? (ending part) = none := by
  unfold ending
  split <;> rfl

/-- What a call makes of the payloads and the faults that are still to come. -/
inductive Gives (part : Bytes) : List Bytes → List Fault → Except WireError (Option Bytes) →
    List Bytes → List Fault → Prop
  | payload {payload pending faults} :
    Gives part (payload :: pending) faults (.ok (some payload)) pending faults
  | fault {pending fault faults} :
    Gives part pending (fault :: faults) (.error (.device fault)) pending faults
  | ending : Gives part [] [] (ending part) [] []

/-- These payloads have still to be delivered, and a part of a frame is all that comes behind them. -/
structure Awaits (reader : Reader) (pending : List Bytes) (part : Bytes) : Prop where
  fits : ∀ payload ∈ pending, Fits reader.max payload
  behind : Part reader.max part
  filled : reader.feed.Filled
  content_eq : reader.buffer ++ reader.feed.content = stream pending ++ part

variable {reader : Reader} {pending : List Bytes} {part : Bytes}

/-- The buffer holds the next frame, or it is waited on. -/
theorem Awaits.front (h : reader.Awaits pending part) :
    (take reader.max reader.buffer = .ok none ∧
      (reader.feed.content = [] → pending = [] ∧ reader.buffer = part)) ∨
    ∃ payload rest more, pending = payload :: rest ∧
      take reader.max reader.buffer = .ok (some (payload, more)) ∧
      more ++ reader.feed.content = stream rest ++ part := by
  have hcontent := h.content_eq
  cases pending with
  | nil =>
    have hcontent : reader.buffer ++ reader.feed.content = part := hcontent
    refine .inl ⟨?_, fun hnil => ⟨rfl, by simpa [hnil] using hcontent⟩⟩
    have hfront : part.take reader.buffer.length = reader.buffer := by
      rw [← hcontent, List.take_left]
    exact hfront ▸ (h.behind.take reader.buffer.length).take_eq
  | cons payload rest =>
    have hfits := h.fits payload List.mem_cons_self
    have hcontent : reader.buffer ++ reader.feed.content =
        Frame.encode payload ++ (stream rest ++ part) := by
      rw [hcontent, ← List.append_assoc]
      rfl
    rcases hfits.front hcontent with ⟨hwait, hmore⟩ | ⟨more, htaken, hrest⟩
    · exact .inl ⟨hwait, fun hend => absurd hend hmore⟩
    · exact .inr ⟨payload, rest, more, rfl, htaken, hrest⟩

/-- What a call of the device leaves of a reader that still awaits. -/
theorem Awaits.congr {reader' : Reader} (h : reader.Awaits pending part) (hmax : reader'.max = reader.max)
    (hfilled : reader'.feed.Filled)
    (hcontent : reader'.buffer ++ reader'.feed.content = reader.buffer ++ reader.feed.content) :
    reader'.Awaits pending part where
  fits := hmax ▸ h.fits
  behind := hmax ▸ h.behind
  filled := hfilled
  content_eq := hcontent.trans h.content_eq

/-- A call gives the next payload, the next fault or the end of the data. -/
theorem Awaits.gives (h : reader.Awaits pending part) :
    ∃ outcome after pending', reader.advance = (outcome, after) ∧ after.Awaits pending' part ∧
      Gives part pending reader.feed.faults outcome pending' after.feed.faults := by
  have htake := h.front
  induction reader using advance.induct with
  | case1 reader failure hfails => simp [hfails] at htake
  | case2 reader payload rest htaken =>
    obtain ⟨next, pending', more, rfl, hnext, hcontent⟩ := htake.resolve_left (by simp [htaken])
    obtain ⟨rfl, rfl⟩ : payload = next ∧ rest = more := by simpa [htaken] using hnext
    exact ⟨.ok (some payload), { reader with buffer := rest }, pending', advance_taken htaken,
      ⟨fun other ho => h.fits other (List.mem_cons_of_mem _ ho), h.behind, h.filled, hcontent⟩, .payload⟩
  | case3 reader hwait feed hread ih =>
    have hfeed := Feed.read_eq_error hread
    have hnext : Awaits { reader with feed } pending part := by
      refine h.congr rfl (fun arrival ha => h.filled arrival ?_) ?_
      · rw [hfeed]
        exact List.mem_cons_of_mem _ ha
      · rw [hfeed]
        rfl
    have hfaults : reader.feed.faults = feed.faults := by
      rw [hfeed]
      rfl
    rw [advance_interrupted hwait hread, hfaults]
    exact ih hnext hnext.front
  | case4 reader hwait fault feed hne hread =>
    have hfeed := Feed.read_eq_error hread
    refine ⟨.error (.device fault), { reader with feed }, pending, advance_faulted hwait hne hread, ?_, ?_⟩
    · refine h.congr rfl (fun arrival ha => h.filled arrival ?_) ?_
      · rw [hfeed]
        exact List.mem_cons_of_mem _ ha
      · rw [hfeed]
        rfl
    · rw [hfeed, Feed.faults_cons_of_ne hne]
      exact .fault
  | case5 reader hwait feed hread =>
    obtain ⟨hfeed, rfl⟩ := h.filled.read_eq_end (by decide) hread
    obtain ⟨-, hend⟩ := htake.resolve_right (by simp [hwait])
    obtain ⟨rfl, hpart⟩ := hend (by rw [hfeed]; rfl)
    refine ⟨ending part, { reader with feed := [] }, [], ?_, ?_, ?_⟩
    · rw [advance_ended hwait hread, hpart]
      rfl
    · exact h.congr rfl nofun (by rw [hfeed])
    · rw [hfeed]
      exact .ending
  | case6 reader hwait byte bytes feed hread ih =>
    obtain ⟨hcontent, hfilled, hfaults⟩ := h.filled.read_eq_ok hread
    have hnext : Awaits { reader with feed, buffer := reader.buffer ++ byte :: bytes } pending part := by
      refine h.congr rfl hfilled ?_
      rw [hcontent, List.append_assoc]
    rw [advance_arrived hwait hread, ← hfaults]
    exact ih hnext hnext.front

/-- Results with the payloads and faults that came before: the faults as they were met, the payloads
in order, and nothing but the end when both have run out. -/
theorem Awaits.results (h : reader.Awaits pending part) (count : Nat) :
    ∃ results after pending', Reader.calls count reader = (results, after) ∧ after.Awaits pending' part ∧
      reader.feed.faults = results.filterMap reported? ++ after.feed.faults ∧
      results.filter (reported? · = none) <+:
        pending.map (.ok ∘ some) ++ List.replicate count (ending part) ∧
      (pending.length + reader.feed.faults.length ≤ count → after.feed.faults = []) := by
  induction count generalizing reader pending with
  | zero =>
    refine ⟨[], reader, pending, rfl, h, rfl, List.nil_prefix, fun hle => ?_⟩
    exact List.length_eq_zero_iff.mp (by omega)
  | succ count ih =>
    obtain ⟨outcome, middle, pending', hadvance, hmiddle, hgives⟩ := h.gives
    obtain ⟨results, after, last, hcalls, hafter, hfaults, hbegins, hdone⟩ := ih hmiddle
    have hall : Reader.calls (count + 1) reader = (outcome :: results, after) := by
      simp only [Reader.calls, next, Step.result_ofRun, hadvance, hcalls]
    refine ⟨outcome :: results, after, last, hall, hafter, ?_⟩
    generalize reader.feed.faults = faults, middle.feed.faults = faults' at hgives hfaults hdone
    have hmore : List.replicate count (ending part) <+: List.replicate (count + 1) (ending part) :=
      ⟨[ending part], by rw [List.replicate_succ']⟩
    cases hgives with
    | payload =>
      refine ⟨hfaults, ?_, fun hle => hdone (by simp at hle; omega)⟩
      simp only [List.filter_cons, reported?, decide_true, if_true, List.map_cons, List.cons_append]
      refine (List.prefix_cons_inj _).mpr (hbegins.trans ?_)
      exact (List.prefix_append_right_inj _).mpr hmore
    | fault =>
      refine ⟨congrArg (_ :: ·) hfaults, ?_, fun hle => hdone (by simp at hle; omega)⟩
      exact hbegins.trans ((List.prefix_append_right_inj _).mpr hmore)
    | ending =>
      have hquiet := reported?_ending part
      refine ⟨?_, ?_, fun _ => hdone (Nat.zero_le _)⟩
      · rw [List.filterMap_cons_none hquiet]
        exact hfaults
      · rw [List.filter_cons_of_pos (by simpa using hquiet), List.replicate_succ]
        exact (List.prefix_cons_inj _).mpr hbegins

theorem length_calls (count : Nat) (reader : Reader) : (calls count reader).1.length = count := by
  induction count generalizing reader with
  | zero => rfl
  | succ count ih => simp [calls, ih]

/-- Where no fault is to come, calls give the payloads and then the end. -/
theorem Awaits.calls_eq (h : reader.Awaits pending part) (hquiet : reader.feed.faults = []) (more : Nat) :
    (Reader.calls (pending.length + more) reader).1 =
      pending.map (.ok ∘ some) ++ List.replicate more (ending part) := by
  obtain ⟨results, after, -, hcalls, -, hfaults, hbegins, -⟩ := h.results (pending.length + more)
  have hlength := length_calls (pending.length + more) reader
  rw [hcalls] at hlength ⊢
  have hnone : ∀ result ∈ results, decide (reported? result = none) = true := by
    rw [hquiet, eq_comm, List.append_eq_nil_iff, List.filterMap_eq_nil_iff] at hfaults
    exact fun result hresult => decide_eq_true (hfaults.1 result hresult)
  rw [List.filter_eq_self.mpr hnone, List.prefix_iff_eq_take, hlength] at hbegins
  simpa [List.take_append, List.take_of_length_le] using hbegins

/-- However a stream of frames is cut into chunks, and wherever it ends: each fault but the
interruptions is reported once, by the call that meets it, and the other calls give the payloads of the
whole frames in order and then the end, which is a clean one where a frame ends. -/
theorem delivers {payloads : List Bytes} {feed : Feed} {max cut : Nat}
    (hfits : ∀ payload ∈ payloads, Fits max payload) (hfilled : feed.Filled)
    (hcut : feed.content = (stream payloads).take cut) :
    ∃ whole ≤ payloads.length, boundary payloads whole ≤ cut ∧
      (whole < payloads.length → cut < boundary payloads (whole + 1)) ∧
      ∀ count,
        let (results, after) := calls count (ofFeed feed max)
        feed.faults = results.filterMap reported? ++ after.feed.faults ∧
        results.filter (reported? · = none) <+:
          (payloads.take whole).map (.ok ∘ some) ++ List.replicate count
            (if feed.content.length = boundary payloads whole then .ok none
              else .error .connectionClosed) ∧
        (whole + feed.faults.length ≤ count → after.feed.faults = []) := by
  obtain ⟨whole, part, hwhole, hle, hnext, hpart, hsplit⟩ := exists_boundary hfits cut
  refine ⟨whole, hwhole, hle, hnext, fun count => ?_⟩
  have hawaits : (ofFeed feed max).Awaits (payloads.take whole) part :=
    ⟨fun payload hp => hfits payload (List.mem_of_mem_take hp), hpart, hfilled, hcut.trans hsplit⟩
  obtain ⟨results, after, -, hcalls, -, hfaults, hbegins, hdone⟩ := hawaits.results count
  have hending : ending part =
      if feed.content.length = boundary payloads whole then .ok none else .error .connectionClosed := by
    rw [hcut, hsplit, List.length_append, boundary, ending]
    simp
  rw [hcalls]
  rw [List.length_take_of_le hwhole] at hdone
  exact ⟨hfaults, hending ▸ hbegins, hdone⟩

/-- Three frames in two chunks with two faults between them, cut off in the last one. -/
theorem delivers_broken :
    ∃ (payloads : List Bytes) (feed : Feed), (∀ payload ∈ payloads, Fits 16 payload) ∧ feed.Filled ∧
      feed.content = (stream payloads).take 5 ∧
      feed.faults = (calls 4 (ofFeed feed 16)).1.filterMap reported? ++
        (calls 4 (ofFeed feed 16)).2.feed.faults ∧
      (calls 4 (ofFeed feed 16)).1 = [.error (.device .wouldBlock), .ok (some [1, 2]), .ok (some []),
        .error .connectionClosed] := by
  let payloads : List Bytes := [[1, 2], [], [3]]
  let feed : Feed :=
    [.chunk [2, 1], .fault .interrupted, .fault .wouldBlock, .chunk [2, 0, 1]]
  have hfits : ∀ payload ∈ payloads, Fits 16 payload := by decide
  have hfilled : feed.Filled := by decide
  have hcut : feed.content = (stream payloads).take 5 := by decide
  obtain ⟨_, -, -, -, h⟩ := delivers hfits hfilled hcut
  exact ⟨payloads, feed, hfits, hfilled, hcut, (h 4).1, by cbv⟩

end Frame.Reader

end BlockCodec
