import BlockCodec.Frame.Writer
import BlockCodec.Proofs.Devices
import BlockCodec.Proofs.Frames

/-!
# Frames that are sent and read back

A device takes all of the frame that is sent, or its front, or nothing. As long as no frame is torn,
what it has taken is a stream of frames, which a reader reads back payload by payload. Behind the part
of a torn frame the reader is out of step, since a writer does not resume a frame; so what was sent is
read back up to there: `Frame.Writer.sends_delivers`.
-/

namespace BlockCodec.Frame

-- ---------------------------------------------------------------------------
-- Whole frames before anything
-- ---------------------------------------------------------------------------

namespace Reader

/-- These payloads come first, and no fault before them or behind. -/
structure Faces (reader : Reader) (pending : List Bytes) (rest : Bytes) : Prop where
  fits : ∀ payload ∈ pending, Fits reader.max payload
  filled : reader.feed.Filled
  quiet : reader.feed.faults = []
  content_eq : reader.buffer ++ reader.feed.content = stream pending ++ rest

variable {reader : Reader} {payload rest : Bytes} {pending : List Bytes}

theorem Faces.front (h : reader.Faces (payload :: pending) rest) :
    (take reader.max reader.buffer = .ok none ∧ reader.feed.content ≠ []) ∨
      ∃ more, take reader.max reader.buffer = .ok (some (payload, more)) ∧
        more ++ reader.feed.content = stream pending ++ rest :=
  (h.fits payload List.mem_cons_self).front
    (h.content_eq.trans (List.append_assoc (Frame.encode payload) (stream pending) rest))

/-- A call gives the next payload, whatever stands behind it. -/
theorem Faces.gives (h : reader.Faces (payload :: pending) rest) :
    ∃ after, reader.advance = (.ok (some payload), after) ∧ after.Faces pending rest := by
  have hfront := h.front
  induction reader using advance.induct with
  | case1 reader failure hfails => simp [hfails] at hfront
  | case2 reader next behind htaken =>
    obtain ⟨more, hnext, hcontent⟩ := hfront.resolve_left (by simp [htaken])
    obtain ⟨rfl, rfl⟩ : next = payload ∧ behind = more := by simpa [htaken] using hnext
    exact ⟨_, advance_taken htaken,
      ⟨fun other ho => h.fits other (List.mem_cons_of_mem _ ho), h.filled, h.quiet, hcontent⟩⟩
  | case3 reader hwait feed hread ih =>
    have hnext : Faces { reader with feed } (payload :: pending) rest := by
      obtain ⟨hfits, hfilled, hquiet, hcontent⟩ := h
      rw [Feed.read_eq_error hread] at hfilled hquiet hcontent
      exact ⟨hfits, fun arrival ha => hfilled arrival (List.mem_cons_of_mem _ ha), hquiet, hcontent⟩
    rw [advance_interrupted hwait hread]
    exact ih hnext hnext.front
  | case4 reader hwait fault feed hne hread =>
    have hquiet := h.quiet
    rw [Feed.read_eq_error hread, Feed.faults_cons_of_ne hne] at hquiet
    cases hquiet
  | case5 reader hwait feed hread =>
    obtain ⟨hfeed, -⟩ := h.filled.read_eq_end (by decide) hread
    obtain ⟨-, hmore⟩ := hfront.resolve_right (by simp [hwait])
    exact absurd (by rw [hfeed]; rfl) hmore
  | case6 reader hwait byte bytes feed hread ih =>
    obtain ⟨hcontent, hfilled, hfaults⟩ := h.filled.read_eq_ok hread
    have hnext : Faces { reader with feed, buffer := reader.buffer ++ byte :: bytes }
        (payload :: pending) rest := by
      refine ⟨h.fits, hfilled, hfaults.trans h.quiet, ?_⟩
      rw [← h.content_eq, hcontent, List.append_assoc]
    rw [advance_arrived hwait hread]
    exact ih hnext hnext.front

/-- Calls give the payloads that come first. -/
theorem Faces.calls_eq (h : reader.Faces pending rest) :
    (calls pending.length reader).1 = pending.map (.ok ∘ some) := by
  induction pending generalizing reader with
  | nil => rfl
  | cons payload pending ih =>
    obtain ⟨after, hadvance, hafter⟩ := h.gives
    simp only [List.length_cons, calls, next, Step.result_ofRun, hadvance, ih hafter]
    rfl

end Reader

-- ---------------------------------------------------------------------------
-- Frames that are sent
-- ---------------------------------------------------------------------------

/-- A payload that was sent, how that ended, and what the device took in the meantime. -/
structure Sending where
  payload : Bytes
  outcome : Except WireError Unit
  taken : Bytes

namespace Sending

/-- The device took a part of the frame: some of it, but not all. -/
def Torn (sending : Sending) : Prop := sending.taken ≠ [] ∧ sending.taken ≠ encode sending.payload

instance (sending : Sending) : Decidable sending.Torn :=
  inferInstanceAs (Decidable (sending.taken ≠ [] ∧ sending.taken ≠ encode sending.payload))

/-- The front of a frame was taken, and of one that is allowed; all of it, if the payload is sent. -/
structure Regular (max : Nat) (sending : Sending) : Prop where
  le_max : sending.taken ≠ [] → sending.payload.length ≤ max
  begins : sending.taken <+: encode sending.payload
  whole : sending.outcome = .ok () → sending.taken = encode sending.payload

end Sending

namespace Writer

/-- Sends the payloads one after the other, whether it goes well or not. -/
def sends : List Bytes → Writer → List Sending × Writer
  | [], writer => ([], writer)
  | payload :: payloads, writer =>
    let (outcome, after) := (send payload).result writer
    let (sendings, last) := sends payloads after
    (⟨payload, outcome, after.drain.accepted.drop writer.drain.accepted.length⟩ :: sendings, last)

variable {writer after last : Writer} {payload : Bytes} {payloads : List Bytes}
  {outcome : Except WireError Unit} {sendings : List Sending}

theorem send_regular (h : (send payload).result writer = (outcome, after)) :
    after.max = writer.max ∧ ∃ taken, after.drain.accepted = writer.drain.accepted ++ taken ∧
      Sending.Regular writer.max ⟨payload, outcome, taken⟩ := by
  rw [send, Step.result_bind_ok (Step.result_get writer), encodeWithin] at h
  by_cases hlt : writer.max < payload.length
  · rw [if_pos hlt] at h
    cases h
    exact ⟨rfl, [], (List.append_nil _).symm, nofun, List.nil_prefix, nofun⟩
  · rw [if_neg hlt, Step.result_bind_ok (Step.result_ofExcept _ _)] at h
    rcases hw : writer.drain.writeAll WireError.connectionClosed .device (encode payload) with ⟨written, drain⟩
    obtain ⟨front, rest, hframe, haccepted, hiff⟩ := Drain.writeAll_takes hw
    have hwrite : (onDrain fun drain => drain.writeAll WireError.connectionClosed .device (encode payload)).result
        writer = (written, { writer with drain }) := by
      rw [onDrain, Step.result_onPart, Step.result_ofRun, hw]
    have hbegins : front <+: encode payload := ⟨rest, hframe.symm⟩
    cases written with
    | error failure =>
      rw [Step.result_bind_error hwrite] at h
      cases h
      exact ⟨rfl, front, haccepted, fun _ => Nat.not_lt.mp hlt, hbegins, nofun⟩
    | ok _ =>
      rw [Step.result_bind_ok hwrite] at h
      cases h
      -- the frame has been taken, however the flush behind it ends
      have hall : front = encode payload := by rw [hframe, hiff.mp rfl, List.append_nil]
      exact ⟨rfl, front, haccepted, fun _ => Nat.not_lt.mp hlt, hbegins, fun _ => hall⟩

/-- What the device has taken of a run are the fronts of frames that it took of each payload. -/
theorem sends_regular (h : sends payloads writer = (sendings, last)) :
    sendings.map (·.payload) = payloads ∧
      last.drain.accepted = writer.drain.accepted ++ sendings.flatMap (·.taken) ∧
      ∀ sending ∈ sendings, sending.Regular writer.max := by
  induction payloads generalizing writer last sendings with
  | nil =>
    cases h
    exact ⟨rfl, (List.append_nil _).symm, nofun⟩
  | cons payload payloads ih =>
    rcases hsend : (send payload).result writer with ⟨outcome, after⟩
    rcases hrest : sends payloads after with ⟨others, final⟩
    obtain ⟨hmax, taken, haccepted, hregular⟩ := send_regular hsend
    obtain ⟨hpayloads, hall, hothers⟩ := ih hrest
    simp only [sends, hsend, hrest, haccepted, List.drop_left] at h
    cases h
    refine ⟨congrArg _ hpayloads, ?_, List.forall_mem_cons.mpr ⟨hregular, hmax ▸ hothers⟩⟩
    rw [hall, haccepted, List.flatMap_cons, List.append_assoc]

end Writer

namespace Sending

variable {max : Nat} {sendings : List Sending}

/-- The payloads of the frames that were taken. -/
def delivered (sendings : List Sending) : List Bytes :=
  (sendings.filter fun sending => sending.taken ≠ []).map (·.payload)

theorem delivered_cons (sending : Sending) (sendings : List Sending) :
    delivered (sending :: sendings) =
      if sending.taken = [] then delivered sendings else sending.payload :: delivered sendings := by
  by_cases hnil : sending.taken = [] <;> simp [delivered, hnil]

/-- Where no frame is torn, a stream of frames was taken. -/
theorem flatMap_taken (h : ∀ sending ∈ sendings, ¬sending.Torn) :
    sendings.flatMap (·.taken) = stream (delivered sendings) := by
  induction sendings with
  | nil => rfl
  | cons sending sendings ih =>
    obtain ⟨hfirst, hrest⟩ := List.forall_mem_cons.mp h
    rw [List.flatMap_cons, ih hrest, delivered_cons]
    by_cases hnil : sending.taken = []
    · rw [if_pos hnil, hnil, List.nil_append]
    · have hwhole : sending.taken = encode sending.payload := by simpa [Torn, hnil] using hfirst
      rw [if_neg hnil, hwhole, stream, stream, List.flatMap_cons]

/-- What is sent is delivered. -/
theorem sent_sublist (h : ∀ sending ∈ sendings, sending.Regular max) :
    ((sendings.filter fun sending => sending.outcome = .ok ()).map (·.payload)).Sublist (delivered sendings) := by
  have hsent : (sendings.filter fun sending => sending.taken ≠ []).filter (fun sending => sending.outcome = .ok ()) =
      sendings.filter fun sending => sending.outcome = .ok () := by
    rw [List.filter_filter]
    refine List.filter_congr fun sending hs => ?_
    by_cases hok : sending.outcome = .ok ()
    · simp [hok, (h sending hs).whole hok, encode_ne_nil]
    · simp [hok]
  rw [← hsent]
  exact List.filter_sublist.map _

theorem delivered_fits (h : ∀ sending ∈ sendings, sending.Regular max)
    (hshort : ∀ sending ∈ sendings, sending.payload.length < 2 ^ 63) :
    ∀ payload ∈ delivered sendings, Fits max payload := by
  intro payload hp
  obtain ⟨sending, hs, rfl⟩ := List.mem_map.mp hp
  obtain ⟨hmem, hne⟩ := List.mem_filter.mp hs
  exact .of_short ((h sending hmem).le_max (of_decide_eq_true hne)) (hshort sending hmem)

end Sending

/-- A reader reads back what was sent, up to the first frame that is torn: the payloads whose frame was
taken, and among them all that were sent without a failure. -/
theorem Writer.sends_delivers {writes : List Acceptance} {flushes : List (Option Fault)} {max : Nat}
    {payloads : List Bytes} {sendings : List Sending} {last : Writer}
    (hshort : ∀ payload ∈ payloads, payload.length < 2 ^ 63)
    (hsends : sends payloads ⟨⟨writes, flushes, []⟩, max⟩ = (sendings, last)) :
    let whole := sendings.takeWhile fun sending => ¬sending.Torn
    let delivered := Sending.delivered whole
    sendings.map (·.payload) = payloads ∧ last.drain.accepted = sendings.flatMap (·.taken) ∧
    (∀ sending ∈ sendings, sending.Regular max) ∧
    ((whole.filter fun sending => sending.outcome = .ok ()).map (·.payload)).Sublist delivered ∧
    ∀ feed : Feed, feed.Filled → feed.faults = [] → feed.content = last.drain.accepted →
      (Reader.calls delivered.length (.ofFeed feed max)).1 = delivered.map (.ok ∘ some) ∧
      (whole = sendings → ∀ more, (Reader.calls (delivered.length + more) (.ofFeed feed max)).1 =
        delivered.map (.ok ∘ some) ++ List.replicate more (.ok none)) := by
  intro whole delivered
  obtain ⟨hpayloads, haccepted, hregular⟩ := sends_regular hsends
  have hmem : ∀ sending ∈ whole, sending ∈ sendings := fun _ hs => (List.takeWhile_sublist _).subset hs
  have huntorn : ∀ sending ∈ whole, ¬sending.Torn := fun sending hs => by
    simpa using List.mem_takeWhile_imp hs
  have hbegin : ∀ sending ∈ whole, sending.Regular max := fun sending hs => hregular sending (hmem sending hs)
  have hfits : ∀ payload ∈ delivered, Fits max payload :=
    Sending.delivered_fits hbegin fun sending hs =>
      hshort _ (hpayloads ▸ List.mem_map_of_mem (hmem sending hs))
  have hstream : whole.flatMap (·.taken) = stream delivered := Sending.flatMap_taken huntorn
  refine ⟨hpayloads, haccepted, hregular, Sending.sent_sublist hbegin,
    fun feed hfilled hquiet hcontent => ⟨?_, fun hall more => ?_⟩⟩
  · have hfaces : (Reader.ofFeed feed max).Faces delivered
        ((sendings.dropWhile fun sending => ¬sending.Torn).flatMap (·.taken)) := by
      refine ⟨hfits, hfilled, hquiet, ?_⟩
      rw [← hstream, ← List.flatMap_append, List.takeWhile_append_dropWhile]
      exact hcontent.trans haccepted
    exact hfaces.calls_eq
  · have hawaits : (Reader.ofFeed feed max).Awaits delivered [] := by
      refine ⟨hfits, .inl rfl, hfilled, ?_⟩
      rw [← hstream, List.append_nil, show whole = sendings from hall]
      exact hcontent.trans haccepted
    exact hawaits.calls_eq hquiet more

/-- Of five payloads one is taken in pieces, one is refused, one is taken but not flushed, one is torn, and
the last one is sent in vain. -/
theorem Writer.sends_delivers_torn :
    ∃ (writes : List Acceptance) (flushes : List (Option Fault)) (payloads : List Bytes) (sendings : List Sending)
      (last : Writer) (feed : Feed),
      (∀ payload ∈ payloads, payload.length < 2 ^ 63) ∧
      sends payloads ⟨⟨writes, flushes, []⟩, 16⟩ = (sendings, last) ∧
      sendings.map (·.outcome) = [.ok (), .error (.device .wouldBlock), .error (.device .other),
        .error .connectionClosed, .ok ()] ∧
      feed.Filled ∧ feed.faults = [] ∧ feed.content = last.drain.accepted ∧
      (Reader.calls 2 (.ofFeed feed 16)).1 = [.ok (some [97, 98]), .ok (some [])] := by
  let writes : List Acceptance := [.upTo 1, .fault .interrupted, .upTo 5, .fault .wouldBlock, .upTo 1, .upTo 2, .upTo 0]
  let flushes : List (Option Fault) := [some .interrupted, none, some .other]
  let payloads : List Bytes := [[97, 98], [99], [], [100, 101], [102]]
  let feed : Feed := [.chunk [2, 97], .fault .interrupted, .chunk [98, 0, 2, 100, 1, 102]]
  have hshort : ∀ payload ∈ payloads, payload.length < 2 ^ 63 := by decide
  have hsends : sends payloads ⟨⟨writes, flushes, []⟩, 16⟩ =
      ([⟨[97, 98], .ok (), [2, 97, 98]⟩, ⟨[99], .error (.device .wouldBlock), []⟩,
        ⟨[], .error (.device .other), [0]⟩, ⟨[100, 101], .error .connectionClosed, [2, 100]⟩,
        ⟨[102], .ok (), [1, 102]⟩], ⟨⟨[], [], [2, 97, 98, 0, 2, 100, 1, 102]⟩, 16⟩) := by cbv
  obtain ⟨-, -, -, -, h⟩ := sends_delivers hshort hsends
  exact ⟨writes, flushes, payloads, _, _, feed, hshort, hsends, rfl, by decide, rfl, rfl,
    (h feed (by decide) rfl rfl).1⟩

/-- A frame is torn behind its length, and the frame that is sent next is read as its payload. -/
theorem Writer.lost_behind_torn :
    ∃ (writes : List Acceptance) (feed : Feed),
      let (sendings, last) := sends [[97, 98], [99]] ⟨⟨writes, [], []⟩, 16⟩
      sendings.map (·.outcome) = [.error (.device .other), .ok ()] ∧
      feed.Filled ∧ feed.faults = [] ∧ feed.content = last.drain.accepted ∧
      (Reader.calls 2 (.ofFeed feed 16)).1 = [.ok (some [1, 99]), .ok none] :=
  ⟨[.upTo 1, .fault .other], [.chunk [2, 1, 99]], by cbv, by decide, rfl, rfl, by cbv⟩

end BlockCodec.Frame
