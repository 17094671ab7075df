import BlockCodec.Proofs.Decoding
import BlockCodec.Proofs.Devices
import BlockCodec.Proofs.Plans

/-!
# Streams and their devices keep the same count

A stream counts what passes through it, and its count is compared with that of the device. Whatever a
caller does, an input keeps its budget and an output its limit. The counts part in one case: where the
device fails in the middle of a request, what it has handed out or taken in this request is not charged
(`Input.accounts_handed`, `Output.accounts_held`), and so more can pass than the budget allows.
-/

namespace BlockCodec

variable {σ κ ε α β : Type}

/-- An answer that is only put in another form changes nothing of the state that is left. -/
theorem Step.left_bind_pure {s : Type} (step : Step s ε α) (f : α → β) (state : s) :
    ((step >>= fun value => pure (f value)).result state).2 = (step.result state).2 := by
  rw [Step.result_bind]
  rcases step.result state with ⟨_ | _, _⟩ <;> rfl

-- ---------------------------------------------------------------------------
-- Sources that count
-- ---------------------------------------------------------------------------

namespace Source

/-- The bytes that a source has handed out, by its own count. -/
structure Meter (σ : Type) [Source σ] where
  handed : σ → Nat
  read_ok : ∀ {source wanted bytes after}, Source.read source wanted = (.ok bytes, after) →
    handed after = handed source + bytes.length
  read_error : ∀ {source wanted failure after}, Source.read source wanted = (.error failure, after) →
    handed after = handed source
  skip_ok : ∀ {source count skipped after}, Source.skip source count = (.ok skipped, after) →
    handed after = handed source + skipped
  skip_error : ∀ {source count failure after}, Source.skip source count = (.error failure, after) →
    handed source ≤ handed after

/-- A count of reads is one of skips that read. -/
theorem skipByReading_counts (read : σ → Nat → Except StreamError Bytes × σ) (handed : σ → Nat)
    (hok : ∀ {source wanted bytes after}, read source wanted = (.ok bytes, after) →
      handed after = handed source + bytes.length)
    (herror : ∀ {source wanted failure after}, read source wanted = (.error failure, after) →
      handed after = handed source)
    {source after : σ} {count : Nat} {outcome : Except StreamError Nat}
    (h : skipByReading read source count = (outcome, after)) :
    handed source ≤ handed after ∧ ∀ skipped, outcome = .ok skipped → handed after = handed source + skipped := by
  fun_induction skipByReading read source count generalizing outcome after with
  | case1 =>
    cases h
    exact ⟨Nat.le_refl _, fun skipped h => by cases h; rfl⟩
  | case2 source count _ failure middle hr =>
    cases h
    exact ⟨(herror hr).ge, fun _ hok => by cases hok⟩
  | case3 source count _ middle hr =>
    cases h
    have hsame := hok hr
    exact ⟨hsame.ge, fun skipped h => by cases h; exact hsame⟩
  | case4 source count _ byte rest middle hr failure last hs ih =>
    cases h
    have hfirst := hok hr
    obtain ⟨hle, -⟩ := ih hs
    exact ⟨by omega, fun _ hok => by cases hok⟩
  | case5 source count _ byte rest middle hr skipped last hs ih =>
    cases h
    have hfirst := hok hr
    obtain ⟨hle, hrest⟩ := ih hs
    have hall := hrest skipped rfl
    exact ⟨by omega, fun skipped h => by cases h; omega⟩

end Source

/-- A source with a count beside it. -/
structure Tally (σ : Type) where
  source : σ
  handed : Nat
deriving Repr, DecidableEq

namespace Tally

variable [Source σ]

def pull (tally : Tally σ) (wanted : Nat) : Except StreamError Bytes × Tally σ :=
  match Source.read tally.source wanted with
  | (.ok bytes, source) => (.ok bytes, ⟨source, tally.handed + bytes.length⟩)
  | (.error failure, source) => (.error failure, ⟨source, tally.handed⟩)

variable {tally after : Tally σ} {wanted : Nat}

theorem pull_eq_ok {bytes : Bytes} (h : tally.pull wanted = (.ok bytes, after)) :
    bytes.length ≤ wanted ∧ after.handed = tally.handed + bytes.length := by
  unfold pull at h
  split at h
  · next source hr =>
    cases h
    exact ⟨Source.length_read_le hr, rfl⟩
  · cases h

theorem pull_eq_error {failure : StreamError} (h : tally.pull wanted = (.error failure, after)) :
    after.handed = tally.handed := by
  unfold pull at h
  split at h
  · cases h
  · cases h
    rfl

instance : Source (Tally σ) where
  read := pull
  skip := Source.skipByReading pull
  length_read_le h := (pull_eq_ok h).1
  skip_le := Source.skipByReading_le pull fun h => (pull_eq_ok h).1

theorem skip_counts {count : Nat} {outcome : Except StreamError Nat}
    (h : Source.skip tally count = (outcome, after)) :
    tally.handed ≤ after.handed ∧
      ∀ skipped, outcome = .ok skipped → after.handed = tally.handed + skipped :=
  Source.skipByReading_counts pull handed (fun h => (pull_eq_ok h).2) pull_eq_error h

def meter : Source.Meter (Tally σ) where
  handed := handed
  read_ok h := (pull_eq_ok h).2
  read_error := pull_eq_error
  skip_ok h := (skip_counts h).2 _ rfl
  skip_error h := (skip_counts h).1

end Tally

-- ---------------------------------------------------------------------------
-- Inputs
-- ---------------------------------------------------------------------------

namespace Input

variable [Source σ] (m : Source.Meter σ)

theorem handed_gather (source : σ) (wanted : Nat) :
    m.handed (gather source wanted).2 = m.handed source + (gather source wanted).1.bytes.length := by
  fun_induction gather source wanted with
  | case1 => rfl
  | case2 source wanted _ failure after hr => exact m.read_error hr
  | case3 source wanted _ after hr => exact m.read_ok hr
  | case4 source wanted _ byte rest middle hr delivery after hg ih =>
    have := m.read_ok hr
    rw [hg] at ih
    simp only [List.length_append] at ih ⊢
    omega

/-- What a source leaves when it fails in the middle of a read. -/
def struckReading? (count : Nat) (input : Input σ) : Option σ :=
  if input.left < count then none
  else
    match gather input.source count with
    | (⟨_, some _⟩, source) => some source
    | (⟨_, none⟩, _) => none

/-- What a source leaves when it fails in the middle of a request. -/
def Request.struck? (input : Input σ) : Request → Option σ
  | .read count => struckReading? count input
  | .readByte => struckReading? 1 input
  | .readByte? =>
    if input.left = 0 then none
    else
      match Source.read input.source 1 with
      | (.error _, source) => some source
      | (.ok _, _) => none
  | .skip count =>
    if input.left < count then none
    else
      match Source.skip input.source count with
      | (.error _, source) => some source
      | (.ok _, _) => none

/-- The bytes handed out between two states of a source, if there is a second one. -/
def loss (source : σ) : Option σ → Nat
  | some after => m.handed after - m.handed source
  | none => 0

/-- What a source hands out in a call in which it fails. -/
def lost : Event (Input σ) Request StreamError Reply → Nat
  | .call before request _ _ => loss m before.source (request.struck? before)
  | .back .. => 0

/-- The budget is kept, and what was handed out is charged but for the losses. -/
structure Charged (before after : Input σ) (losses : Nat) : Prop where
  budget : after.left + after.taken = before.left + before.taken
  handed : m.handed after.source + before.taken = m.handed before.source + after.taken + losses

variable {m} {input : Input σ}

theorem charged_refl (input : Input σ) : Charged m input input 0 := ⟨rfl, rfl⟩

theorem charged_source {source : σ} (h : m.handed input.source ≤ m.handed source) :
    Charged m input { input with source } (loss m input.source (some source)) where
  budget := rfl
  handed := by
    simp only [loss]
    omega

theorem charged_charge {source : σ} {count : Nat} (h : m.handed source = m.handed input.source + count)
    (hle : count ≤ input.left) : Charged m input ({ input with source }.charge count) 0 where
  budget := by
    simp only [charge]
    omega
  handed := by
    simp only [charge]
    omega

theorem charged_deliver (count : Nat) (input : Input σ) :
    Charged m input (deliver count input).2 (loss m input.source (struckReading? count input)) := by
  have hhanded := handed_gather m input.source count
  have hlength := Decode.length_gather_le input.source count
  rw [deliver, struckReading?]
  by_cases hlt : input.left < count
  · rw [if_pos hlt, if_pos hlt]
    exact charged_refl input
  · rw [if_neg hlt, if_neg hlt]
    rcases hg : gather input.source count with ⟨⟨bytes, failure?⟩, source⟩
    rw [hg] at hhanded hlength
    cases failure? with
    | some failure => exact charged_source (hhanded ▸ Nat.le_add_right _ _)
    | none => exact charged_charge hhanded (hlength.trans (Nat.le_of_not_lt hlt))

theorem charged_read (count : Nat) (input : Input σ) :
    Charged m input ((read count).result input).2 (loss m input.source (struckReading? count input)) := by
  have hcharged := charged_deliver (m := m) count input
  rw [read, Step.result_ofRun]
  rcases hd : deliver count input with ⟨⟨bytes, _ | failure⟩, after⟩ <;>
    rwa [hd] at hcharged

theorem charged_readByte? (input : Input σ) :
    Charged m input (readByte?.result input).2 (loss m input.source (Request.readByte?.struck? input)) := by
  rw [readByte?, Step.result_ofRun, Request.struck?]
  by_cases hzero : input.left = 0
  · rw [if_pos hzero, if_pos hzero]
    exact charged_refl input
  · rw [if_neg hzero, if_neg hzero]
    rcases hr : Source.read input.source 1 with ⟨_ | ⟨_ | ⟨byte, rest⟩⟩, source⟩
    · exact charged_source (m.read_error hr).ge
    · exact charged_charge (m.read_ok hr) (Nat.zero_le _)
    · obtain rfl : rest = [] := by simpa using Source.length_read_le hr
      exact charged_charge (m.read_ok hr) (Nat.pos_of_ne_zero hzero)

theorem charged_skip (count : Nat) (input : Input σ) :
    Charged m input ((skip count).result input).2
      (loss m input.source ((Request.skip count).struck? input)) := by
  rw [skip, Step.result_ofRun, Request.struck?]
  by_cases hlt : input.left < count
  · rw [if_pos hlt, if_pos hlt]
    exact charged_refl input
  · rw [if_neg hlt, if_neg hlt]
    rcases hs : Source.skip input.source count with ⟨_ | skipped, source⟩
    · exact charged_source (m.skip_error hs)
    · have hle := Source.skip_le hs
      exact charged_charge (m.skip_ok hs) (by omega)

theorem charged_perform (request : Request) (input : Input σ) :
    Charged m input ((request.perform).result input).2 (loss m input.source (request.struck? input)) := by
  cases request with
  | read count =>
    rw [Request.perform, Step.left_bind_pure]
    exact charged_read count input
  | readByte =>
    rw [Request.perform, Step.left_bind_pure, readByte, Step.left_bind_pure]
    exact charged_read 1 input
  | readByte? =>
    rw [Request.perform, Step.left_bind_pure]
    exact charged_readByte? input
  | skip count =>
    rw [Request.perform, Step.left_bind_pure]
    exact charged_skip count input

theorem struckReading?_of_ok {count : Nat} {bytes : Bytes} {after : Input σ}
    (h : (read count).result input = (.ok bytes, after)) : struckReading? count input = none := by
  rw [read, Step.result_ofRun, deliver] at h
  rw [struckReading?]
  by_cases hlt : input.left < count
  · rw [if_pos hlt]
  · rw [if_neg hlt] at h ⊢
    rcases hg : gather input.source count with ⟨⟨arrived, _ | failure⟩, source⟩
    · rfl
    · simp [hg] at h

/-- Where a request is answered, the source has not failed. -/
theorem Request.struck?_of_ok {request : Request} {reply : Reply} {after : Input σ}
    (h : request.perform.result input = (.ok reply, after)) : request.struck? input = none := by
  cases request with
  | read count =>
    obtain ⟨bytes, middle, hr, -⟩ := Step.result_bind_eq_ok.mp h
    exact struckReading?_of_ok hr
  | readByte =>
    obtain ⟨byte, middle, hbyte, -⟩ := Step.result_bind_eq_ok.mp h
    obtain ⟨bytes, last, hr, -⟩ := Step.result_bind_eq_ok.mp hbyte
    exact struckReading?_of_ok hr
  | readByte? =>
    obtain ⟨byte?, middle, hr, -⟩ := Step.result_bind_eq_ok.mp h
    rw [Input.readByte?, Step.result_ofRun] at hr
    rw [struck?]
    by_cases hzero : input.left = 0
    · rw [if_pos hzero]
    · rw [if_neg hzero] at hr ⊢
      rcases hs : Source.read input.source 1 with ⟨failure | bytes, source⟩
      · simp [hs] at hr
      · rfl
  | skip count =>
    obtain ⟨_, middle, hr, -⟩ := Step.result_bind_eq_ok.mp h
    rw [Input.skip, Step.result_ofRun] at hr
    rw [struck?]
    by_cases hlt : input.left < count
    · rw [if_pos hlt]
    · rw [if_neg hlt] at hr ⊢
      rcases hs : Source.skip input.source count with ⟨failure | skipped, source⟩
      · simp [hs] at hr
      · rfl

/-- A loan is charged for what it took, which is no more than was lent. -/
theorem Charged.rejoin {outer part last : Input σ} {length losses : Nat}
    (hn : outer.narrow length = .ok part) (h : Charged m part last losses) :
    Charged m outer (outer.rejoin last) losses := by
  unfold narrow at hn
  split at hn
  · cases hn
  · cases hn
    obtain ⟨hbudget, hhanded⟩ := h
    simp only [ofSource] at hbudget hhanded
    constructor <;> simp only [Input.rejoin, charge] <;> omega

theorem upholds_charged :
    Plan.Upholds fun before (calls : List (Event (Input σ) Request StreamError Reply)) after =>
      Charged m before after (calls.map (lost m)).sum where
  nil := charged_refl
  append := by
    rintro start middle last before later ⟨hbudget, hhanded⟩ ⟨hbudget', hhanded'⟩
    constructor
    · exact hbudget'.trans hbudget
    · rw [List.map_append, List.sum_append]
      omega
  call input request := by
    simp only [List.map_cons, List.map_nil, List.sum_singleton, lost]
    exact charged_perform request input
  refused _ := charged_refl _
  lent hn h := by
    rw [List.map_append, List.sum_append]
    exact h.rejoin hn

/-- A call that is answered loses nothing. -/
theorem lost_of_ok (plan : Plan Request StreamError Reply) (input : Input σ) :
    ∀ call ∈ plan.trace input, ∀ reply, call.outcome = .ok reply → lost m call = 0 := by
  refine Plan.forall_trace (fun before request reply hok => ?_) (fun _ _ _ _ => rfl) plan input
  have hstruck : request.struck? before = none := Request.struck?_of_ok (Prod.ext hok rfl)
  rw [lost, hstruck, loss]

/-- Whatever is asked of an input and lent of it, and whatever fails, what is left and what was taken make
up the budget. What was taken is what the source has handed out, but for what it handed out in the
calls in which it failed. -/
theorem accounts_handed (m : Source.Meter σ) (source : σ) (limit : Nat)
    (plan : Plan Request StreamError Reply) :
    let start := ofSource source limit
    let after := (plan.run.result start).2
    after.left + after.taken = limit ∧
      m.handed after.source =
        m.handed source + after.taken + ((plan.trace start).map (lost m)).sum ∧
      ∀ call ∈ plan.trace start, ∀ reply, call.outcome = .ok reply → lost m call = 0 := by
  obtain ⟨hbudget, hhanded⟩ := Plan.upholds (upholds_charged (m := m)) plan (ofSource source limit)
  exact ⟨hbudget, hhanded, lost_of_ok plan _⟩

/-- A read is cut short by a fault behind two bytes and then made again: within a budget of four bytes
the source hands out six. -/
theorem passes_budget :
    ∃ (feed : Feed) (plan : Plan Request StreamError Reply),
      let start := ofSource (⟨⟨feed⟩, 0⟩ : Tally Patient) 4
      let after := (plan.run.result start).2
      after.taken = 4 ∧ Tally.meter.handed after.source = 6 := by
  let feed : Feed := [.chunk [1, 2], .fault .other, .chunk [3, 4, 5, 6]]
  exact ⟨feed, .ask (.read 4) fun _ => .ask (.read 4) fun _ => .stop (.ok .done), by cbv⟩

end Input

-- ---------------------------------------------------------------------------
-- Sinks that count
-- ---------------------------------------------------------------------------

/-- The bytes that a sink has taken, by its own count. -/
structure Sink.Meter (κ : Type) [Sink κ] where
  held : κ → Nat
  write_ok : ∀ {sink bytes after}, Sink.write sink bytes = (.ok (), after) →
    held after = held sink + bytes.length
  write_error : ∀ {sink bytes failure after}, Sink.write sink bytes = (.error failure, after) →
    held sink ≤ held after

def Drain.meter : Sink.Meter Drain where
  held drain := drain.accepted.length
  write_ok h := by
    obtain ⟨front, rest, rfl, haccepted, hiff⟩ := Drain.writeAll_takes h
    rw [hiff.mp rfl, haccepted, List.append_nil, List.length_append]
  write_error h := by
    obtain ⟨front, rest, -, haccepted, -⟩ := Drain.writeAll_takes h
    rw [haccepted, List.length_append]
    exact Nat.le_add_right _ _

-- ---------------------------------------------------------------------------
-- Outputs
-- ---------------------------------------------------------------------------

namespace Output

variable [Sink κ] (m : Sink.Meter κ)

/-- What the sink takes of a write in which it fails. -/
def stranded (bytes : Bytes) (output : Output κ) : Nat :=
  match output.sink with
  | none => 0
  | some sink =>
    if output.remaining < bytes.length then 0
    else
      match Sink.write sink bytes with
      | (.error _, after) => m.held after - m.held sink
      | (.ok (), _) => 0

/-- What the sink takes of the chunk in which it fails when the output is padded. -/
def strandedPad (count : Nat) (output : Output κ) : Nat :=
  if count = 0 then 0
  else
    let zeros := Bytes.zeros (min count padChunk)
    stranded m zeros output +
      match (write zeros).result output with
      | (.ok (), after) => strandedPad (count - padChunk) after
      | (.error _, _) => 0
termination_by count
decreasing_by
  unfold padChunk
  omega

/-- What the sink takes in a call in which it fails, beyond what is charged. -/
def lost : Event (Output κ) Request StreamError Unit → Nat
  | .call before (.write bytes) _ _ => stranded m bytes before
  | .call before (.skip count) _ _ => strandedPad m count before
  | .back .. => 0

/-- The limit is kept, and what was taken is charged but for the losses. -/
structure Charged (before : Output κ) (sink : κ) (after : Output κ) (losses : Nat) : Prop where
  limit_eq : after.limit = before.limit
  le_limit : before.written ≤ before.limit → after.written ≤ after.limit
  held : ∃ last, after.sink = some last ∧ m.held last + before.written = m.held sink + after.written + losses

variable {m} {output middle after : Output κ} {sink : κ} {losses more : Nat}

theorem charged_refl (hs : output.sink = some sink) : Charged m output sink output 0 :=
  ⟨rfl, id, sink, hs, rfl⟩

theorem Charged.trans (h : Charged m output sink middle losses)
    (hnext : ∀ last, middle.sink = some last → Charged m middle last after more) :
    Charged m output sink after (losses + more) := by
  obtain ⟨hlimit, hle, last, hlast, hheld⟩ := h
  obtain ⟨hlimit', hle', final, hfinal, hheld'⟩ := hnext last hlast
  exact ⟨hlimit'.trans hlimit, hle' ∘ hle, final, hfinal, by omega⟩

theorem charged_write (bytes : Bytes) (hs : output.sink = some sink) :
    Charged m output sink ((write bytes).result output).2 (stranded m bytes output) := by
  simp only [write, stranded, Step.result_ofRun, hs]
  by_cases hlt : output.remaining < bytes.length
  · rw [if_pos hlt, if_pos hlt]
    exact charged_refl hs
  · rw [if_neg hlt, if_neg hlt]
    rw [remaining] at hlt
    rcases hw : Sink.write sink bytes with ⟨failure | _, last⟩
    · have hheld := m.write_error hw
      exact ⟨rfl, id, last, rfl, by simp only; omega⟩
    · have hheld := m.write_ok hw
      exact ⟨rfl, fun _ => by simp only [charge]; omega, last, rfl, by simp only [charge]; omega⟩

theorem charged_pad (count : Nat) (hs : output.sink = some sink) :
    Charged m output sink ((pad count).result output).2 (strandedPad m count output) := by
  induction count using Nat.strong_induction_on generalizing output sink with
  | h count ih =>
    rw [pad, strandedPad]
    by_cases hzero : count = 0
    · rw [if_pos hzero, if_pos hzero]
      exact charged_refl hs
    · rw [if_neg hzero, if_neg hzero]
      have hfirst := charged_write (m := m) (Bytes.zeros (min count padChunk)) hs
      rcases hw : (write (Bytes.zeros (min count padChunk))).result output with ⟨failure | _, middle⟩
      · rw [hw] at hfirst
        simp only [Step.result_bind_error hw, hw]
        exact hfirst
      · rw [hw] at hfirst
        simp only [Step.result_bind_ok hw, hw]
        have hless : count - padChunk < count := by
          unfold padChunk
          omega
        exact hfirst.trans fun last hlast => ih (count - padChunk) hless hlast

theorem result_skip_backed (count : Nat) (hs : output.sink = some sink) :
    (skip count).result output = (pad count).result output := by
  have hbacked : output.isSizing = false := by rw [isSizing, hs]; rfl
  rw [skip, Step.result_ofRun, hbacked]
  rfl

theorem charged_perform (request : Request) (hs : output.sink = some sink) :
    Charged m output sink (request.perform.result output).2
      (lost m (.call output request (request.perform.result output).1 (request.perform.result output).2)) := by
  cases request with
  | write bytes => exact charged_write bytes hs
  | skip count =>
    rw [Request.perform, result_skip_backed count hs]
    exact charged_pad count hs

/-- A loan is charged for what it wrote, which is no more than was lent. -/
theorem Charged.rejoin {part last : Output κ} {length : Nat} (hs : output.sink = some sink)
    (hn : output.narrow length = .ok part) (h : ∀ inner, part.sink = some inner → Charged m part inner last losses) :
    Charged m output sink (output.rejoin last) losses := by
  simp only [narrow, hs] at hn
  split at hn
  · cases hn
  · next hle =>
    cases hn
    obtain ⟨hlimit, hwithin, final, hfinal, hheld⟩ := h sink rfl
    rw [remaining] at hle
    simp only [ofSink] at hlimit hwithin hheld
    refine ⟨rfl, fun hbefore => ?_, final, hfinal, ?_⟩ <;> simp only [Output.rejoin, charge] <;> omega

theorem stranded_of_ok {bytes : Bytes} (h : (write bytes).result output = (.ok (), after)) :
    stranded m bytes output = 0 := by
  rw [write, Step.result_ofRun] at h
  rw [stranded]
  cases hs : output.sink with
  | none => rfl
  | some sink =>
    simp only [hs] at h ⊢
    by_cases hlt : output.remaining < bytes.length
    · rw [if_pos hlt]
    · rw [if_neg hlt] at h ⊢
      rcases hw : Sink.write sink bytes with ⟨failure | _, last⟩
      · simp [hw] at h
      · rfl

theorem strandedPad_of_ok {count : Nat} (h : (pad count).result output = (.ok (), after)) :
    strandedPad m count output = 0 := by
  induction count using Nat.strong_induction_on generalizing output with
  | h count ih =>
    rw [pad] at h
    rw [strandedPad]
    by_cases hzero : count = 0
    · rw [if_pos hzero]
    · rw [if_neg hzero] at h ⊢
      obtain ⟨_, middle, hw, hrest⟩ := Step.result_bind_eq_ok.mp h
      have hless : count - padChunk < count := by
        unfold padChunk
        omega
      simp only [hw, stranded_of_ok hw, ih _ hless hrest]

theorem strandedPad_of_sizing {count : Nat} (hs : output.sink = none) : strandedPad m count output = 0 := by
  induction count using Nat.strong_induction_on generalizing output with
  | h count ih =>
    rw [strandedPad]
    by_cases hzero : count = 0
    · rw [if_pos hzero]
    · have hless : count - padChunk < count := by
        unfold padChunk
        omega
      have hcounted : (write (Bytes.zeros (min count padChunk))).result output =
          (.ok (), output.charge (Bytes.zeros (min count padChunk)).length) := by
        rw [write, Step.result_ofRun, hs]
      simp only [if_neg hzero, stranded_of_ok hcounted, hcounted, Nat.zero_add]
      exact ih _ hless hs

/-- A call that succeeds loses nothing. -/
theorem lost_of_ok (plan : Plan Request StreamError Unit) (output : Output κ) :
    ∀ call ∈ plan.trace output, call.outcome = .ok () → lost m call = 0 := by
  refine Plan.forall_trace (fun before request hok => ?_) (fun _ _ _ => rfl) plan output
  cases request with
  | write bytes => exact stranded_of_ok (Prod.ext hok rfl)
  | skip count =>
    cases hs : before.sink with
    | none => exact strandedPad_of_sizing hs
    | some sink =>
      have hpad := result_skip_backed count hs
      exact strandedPad_of_ok (hpad.symm.trans (Prod.ext hok rfl))

theorem upholds_charged :
    Plan.Upholds fun before (calls : List (Event (Output κ) Request StreamError Unit)) after =>
      ∀ sink, before.sink = some sink → Charged m before sink after (calls.map (lost m)).sum where
  nil _ _ := charged_refl
  append h hnext sink hs := by
    rw [List.map_append, List.sum_append]
    exact (h sink hs).trans hnext
  call output request := by
    intro sink hs
    simp only [List.map_cons, List.map_nil, List.sum_singleton]
    exact charged_perform request hs
  refused _ _ := charged_refl
  lent hn h sink hs := by
    rw [List.map_append, List.sum_append]
    exact Charged.rejoin hs hn h

/-- Whatever is asked of an output and lent of it, and whatever fails, what was written stays within the
limit. It is what the sink has taken, but for what the sink took of the writes in which it failed. -/
theorem accounts_held (m : Sink.Meter κ) (sink : κ) (limit : Nat) (plan : Plan Request StreamError Unit) :
    let start := ofSink sink limit
    let after := (plan.run.result start).2
    after.written ≤ limit ∧
      (∃ last, after.sink = some last ∧
        m.held last = m.held sink + after.written + ((plan.trace start).map (lost m)).sum) ∧
      ∀ call ∈ plan.trace start, call.outcome = .ok () → lost m call = 0 := by
  obtain ⟨hlimit, hle, last, hlast, hheld⟩ :=
    Plan.upholds (upholds_charged (m := m)) plan (ofSink sink limit) sink rfl
  exact ⟨(hle (Nat.zero_le _)).trans_eq hlimit, ⟨last, hlast, hheld⟩, lost_of_ok plan _⟩

/-- A device takes two bytes of a write and fails, and the write is made again: under a limit of four
bytes it has taken six. -/
theorem passes_limit :
    ∃ (drain : Drain) (plan : Plan Request StreamError Unit),
      drain.accepted = [] ∧
      let after := (plan.run.result (ofSink drain 4)).2
      after.written = 4 ∧ after.sink.map Drain.meter.held = some 6 := by
  let drain : Drain := ⟨[.upTo 2, .fault .other], [], []⟩
  exact ⟨drain, .ask (.write [1, 2, 3, 4]) fun _ => .ask (.write [5, 6, 7, 8]) fun _ => .stop (.ok ()),
    rfl, by cbv⟩

end Output

end BlockCodec
