import BlockCodec.Proofs.Devices
import BlockCodec.Proofs.Portions
import BlockCodec.Wire.Write

/-!
# Sinks that can be exchanged

A caller writes to a device, to a byte string or to an output that only counts. A device that is willing
cannot be told from a byte string: both outputs `Mirror` each other from call to call. An output that
counts has no limit, and so it can be told from the others by what they leave free or refuse; where they
refuse nothing, it keeps count with the byte string (`Tallies`). The main statement is
`Wire.sinks_interchange`.
-/

namespace BlockCodec

variable {s t Q ε ε' A α β κ : Type}

open Channel OfStream Service

-- ---------------------------------------------------------------------------
-- Requests of a writer of wire values
-- ---------------------------------------------------------------------------

namespace Wire

inductive Item
  | stream (request : Output.Request)
  | varint (value : UInt64)
  | zigZag (value : Int64)
  | fixed32 (value : UInt32)
  | fixed64 (value : UInt64)
  | tag (type : WireType) (number : Nat)
  | delimited (bytes : Bytes)
deriving Repr, DecidableEq

def Item.perform [Sink κ] : Item → Write κ Unit
  | .stream request => request.perform.mapFailure .stream
  | .varint value => writeVarint value
  | .zigZag value => writeZigZag value
  | .fixed32 value => writeFixed32 value
  | .fixed64 value => writeFixed64 value
  | .tag type number => writeTag type number
  | .delimited bytes => writeDelimited bytes

instance [Sink κ] : Service (Output κ) Item WireError Unit := ⟨Item.perform⟩

end Wire

-- ---------------------------------------------------------------------------
-- A willing device and a byte string
-- ---------------------------------------------------------------------------

namespace Output

/-- The byte string is what the device has taken, and both outputs stand alike in their limits. -/
structure Mirrors (x : Output Drain) (y : Output Bytes) : Prop where
  sinks : ∃ drain : Drain, x.sink = some drain ∧ drain.Willing ∧ y.sink = some drain.accepted
  limit_eq : x.limit = y.limit
  written_eq : x.written = y.written

variable {x : Output Drain} {y : Output Bytes}

theorem Mirrors.remaining_eq (h : x.Mirrors y) : x.remaining = y.remaining := by
  rw [remaining, remaining, h.limit_eq, h.written_eq]

theorem Mirrors.charge (h : x.Mirrors y) {drain : Drain} (hw : drain.Willing) (count : Nat) :
    ({ x with sink := some drain }.charge count).Mirrors
      ({ y with sink := some drain.accepted }.charge count) where
  sinks := ⟨drain, rfl, hw, rfl⟩
  limit_eq := h.limit_eq
  written_eq := congrArg (· + count) h.written_eq

theorem echoes_write (bytes : Bytes) :
    Echoes Mirrors (write bytes : Step (Output Drain) StreamError Unit) (write bytes : Step (Output Bytes) _ _) := by
  intro x y h
  obtain ⟨drain, hx, hwilling, hy⟩ := h.sinks
  simp only [write, Step.result_ofRun, hx, hy, h.remaining_eq]
  by_cases hlt : y.remaining < bytes.length
  · rw [if_pos hlt, if_pos hlt]
    exact ⟨rfl, h⟩
  · obtain ⟨after, hafter, haccepted, hw⟩ := Drain.writeAll_of_willing hwilling bytes
    have hsink : Sink.write drain bytes = (.ok (), after) := hw
    have hcontent : Sink.write drain.accepted bytes = (.ok (), after.accepted) := by rw [haccepted]; rfl
    simp only [if_neg hlt, hsink, hcontent]
    exact ⟨trivial, h.charge hafter bytes.length⟩

theorem echoes_pad (count : Nat) :
    Echoes Mirrors (pad count : Step (Output Drain) StreamError Unit) (pad count : Step (Output Bytes) _ _) := by
  induction count using Nat.strong_induction_on with
  | h count ih =>
    unfold pad
    by_cases hzero : count = 0
    · rw [if_pos hzero, if_pos hzero]
      exact echoes_pure ()
    · have hless : count - padChunk < count := by
        unfold padChunk
        omega
      rw [if_neg hzero, if_neg hzero]
      exact (echoes_write _).bind fun _ => ih _ hless

theorem echoes_skip (count : Nat) :
    Echoes Mirrors (skip count : Step (Output Drain) StreamError Unit) (skip count : Step (Output Bytes) _ _) := by
  intro x y h
  obtain ⟨drain, hx, -, hy⟩ := h.sinks
  simpa [skip, isSizing, hx, hy] using echoes_pad count h

end Output

namespace Wire

open Output (Mirrors)

theorem echoes_write (bytes : Bytes) :
    Echoes Mirrors (write bytes : Write Drain Unit) (write bytes : Write Bytes Unit) :=
  (Output.echoes_write bytes).mapFailure _

theorem Item.echoes_perform (item : Item) :
    Echoes Mirrors (item.perform : Write Drain Unit) (item.perform : Write Bytes Unit) := by
  cases item with
  | stream request =>
    cases request with
    | write bytes => exact echoes_write bytes
    | skip count => exact (Output.echoes_skip count).mapFailure _
  | varint value => exact echoes_write _
  | zigZag value => exact echoes_write _
  | fixed32 value => exact echoes_write _
  | fixed64 value => exact echoes_write _
  | tag type number => exact echoes_ite (echoes_throw _) (echoes_write _)
  | delimited bytes => exact (echoes_write _).bind fun _ => echoes_write bytes

theorem indistinct_mirrors : Indistinct Item (Mirrors : Output Drain → Output Bytes → Prop) where
  left_eq h := h.remaining_eq
  moved_eq h := h.written_eq
  perform := Item.echoes_perform
  narrow {x y} h length := by
    obtain ⟨drain, hx, hwilling, hy⟩ := h.sinks
    show (∃ failure, x.narrow length = _ ∧ y.narrow length = _) ∨
      ∃ part part', x.narrow length = _ ∧ y.narrow length = _ ∧ _
    simp only [Output.narrow, hx, hy, h.remaining_eq]
    by_cases hlt : y.remaining < length
    · rw [if_pos hlt, if_pos hlt]
      exact .inl ⟨_, rfl, rfl⟩
    · rw [if_neg hlt, if_neg hlt]
      exact .inr ⟨_, _, rfl, rfl, ⟨drain, rfl, hwilling, rfl⟩, rfl, rfl⟩
  rejoin {x y part part'} h hpart := by
    obtain ⟨drain, hx, hwilling, hy⟩ := hpart.sinks
    show (x.rejoin part).Mirrors (y.rejoin part')
    rw [Output.rejoin, Output.rejoin, hpart.written_eq, hx, hy]
    exact h.charge hwilling part'.written

end Wire

-- ---------------------------------------------------------------------------
-- Steps that keep up
-- ---------------------------------------------------------------------------

/-- Where the first step succeeds, the second does so with the same answer, and they leave states that
match. -/
def KeepsUp (M : s → t → Prop) (a : Step s ε α) (b : Step t ε α) : Prop :=
  ∀ ⦃x y value x'⦄, M x y → a.result x = (.ok value, x') → ∃ y', b.result y = (.ok value, y') ∧ M x' y'

section

variable {M : s → t → Prop} {a : Step s ε α} {b : Step t ε α}

theorem keepsUp_throw (failure : ε) :
    KeepsUp M (throw failure : Step s ε α) (throw failure : Step t ε α) := by
  intro x y value x' _ h
  cases h

theorem KeepsUp.bind {f : α → Step s ε β} {g : α → Step t ε β} (h : KeepsUp M a b)
    (hn : ∀ value, KeepsUp M (f value) (g value)) : KeepsUp M (a >>= f) (b >>= g) := by
  intro x y value last hm hr
  obtain ⟨first, middle, ha, hf⟩ := Step.result_bind_eq_ok.mp hr
  obtain ⟨middle', hb, hmiddle⟩ := h hm ha
  rw [Step.result_bind_ok hb]
  exact hn first hmiddle hf

theorem KeepsUp.mapFailure (h : KeepsUp M a b) (restate : ε → ε') :
    KeepsUp M (a.mapFailure restate) (b.mapFailure restate) := by
  intro x y value x' hm hr
  obtain ⟨y', hb, hm'⟩ := h hm (Step.result_mapFailure_eq_ok hr)
  exact ⟨y', by rw [Step.result_mapFailure, hb]; rfl, hm'⟩

theorem keepsUp_ite {c : Prop} [Decidable c] {no : Step s ε α} {no' : Step t ε α} (hy : KeepsUp M a b)
    (hn : KeepsUp M no no') : KeepsUp M (if c then a else no) (if c then b else no') := by
  split
  · exact hy
  · exact hn

end

-- ---------------------------------------------------------------------------
-- A byte string and a count
-- ---------------------------------------------------------------------------

namespace Output

/-- The first output has written so much behind the first `base` bytes of a byte string, and the second
has counted as much. -/
structure Tallies (base : Nat) (x : Output Bytes) (y : Output κ) : Prop where
  content : ∃ content, x.sink = some content ∧ content.length = base + x.written
  sizing : y.sink = none
  written_eq : y.written = x.written

variable {base : Nat} {x after : Output Bytes} {y : Output κ}

theorem write_tallies {bytes : Bytes} (h : x.Tallies base y)
    (hr : (write bytes).result x = (.ok (), after)) : after.Tallies base (y.charge bytes.length) := by
  obtain ⟨content, hx, hlength⟩ := h.content
  simp only [write, Step.result_ofRun, hx] at hr
  by_cases hlt : x.remaining < bytes.length
  · rw [if_pos hlt] at hr
    cases hr
  · rw [if_neg hlt] at hr
    cases hr
    refine ⟨⟨content ++ bytes, rfl, ?_⟩, h.sizing, congrArg (· + bytes.length) h.written_eq⟩
    rw [List.length_append, hlength]
    exact Nat.add_assoc _ _ _

/-- Zeros are written in chunks, and counted at once. -/
theorem pad_tallies {count : Nat} (h : x.Tallies base y) (hr : (pad count).result x = (.ok (), after)) :
    after.Tallies base (y.charge count) := by
  induction count using Nat.strong_induction_on generalizing x y with
  | h count ih =>
    rw [pad] at hr
    by_cases hzero : count = 0
    · rw [if_pos hzero] at hr
      cases hr
      subst hzero
      exact h
    · rw [if_neg hzero] at hr
      obtain ⟨_, middle, hw, hrest⟩ := Step.result_bind_eq_ok.mp hr
      have hless : count - padChunk < count := by
        unfold padChunk
        omega
      have hafter := ih _ hless (write_tallies h hw) hrest
      have hsum : min count padChunk + (count - padChunk) = count := by omega
      rwa [Bytes.zeros, List.length_replicate, charge, charge, Nat.add_assoc, hsum] at hafter

/-- What is lent of a byte string is counted from the bytes that are there already. -/
theorem Tallies.lend (h : x.Tallies base y) {length : Nat} {part : Output Bytes}
    (hn : x.narrow length = .ok part) :
    y.narrow length = .ok Output.sizing ∧ part.Tallies (base + x.written) (Output.sizing : Output κ) ∧
      ∀ {last : Output Bytes} {last' : Output κ}, last.Tallies (base + x.written) last' →
        (x.rejoin last).Tallies base (y.rejoin last') := by
  obtain ⟨content, hx, hlength⟩ := h.content
  refine ⟨by rw [narrow, h.sizing], ?_, ?_⟩
  · simp only [narrow, hx] at hn
    split at hn
    · cases hn
    · cases hn
      exact ⟨⟨content, rfl, hlength⟩, rfl, rfl⟩
  · intro last last' hlast
    obtain ⟨whole, hwhole, hgrown⟩ := hlast.content
    refine ⟨⟨whole, hwhole, hgrown.trans (Nat.add_assoc _ _ _)⟩, hlast.sizing, ?_⟩
    show y.written + last'.written = x.written + last.written
    rw [h.written_eq, hlast.written_eq]

variable [Sink κ]

theorem keepsUp_write (bytes : Bytes) :
    KeepsUp (Tallies base) (write bytes : Step (Output Bytes) StreamError Unit)
      (write bytes : Step (Output κ) _ _) := by
  intro x y _ after h hr
  refine ⟨y.charge bytes.length, ?_, write_tallies h hr⟩
  rw [write, Step.result_ofRun, h.sizing]

theorem keepsUp_skip (count : Nat) :
    KeepsUp (Tallies base) (skip count : Step (Output Bytes) StreamError Unit)
      (skip count : Step (Output κ) _ _) := by
  intro x y _ after h hr
  obtain ⟨content, hx, -⟩ := h.content
  refine ⟨y.charge count, ?_, pad_tallies h ?_⟩
  · simp [skip, isSizing, h.sizing]
  · simpa [skip, isSizing, hx] using hr

end Output

namespace Wire

open Output (Tallies)

variable [Sink κ] {base : Nat}

theorem keepsUp_write (bytes : Bytes) :
    KeepsUp (Tallies base) (write bytes : Write Bytes Unit) (write bytes : Write κ Unit) :=
  (Output.keepsUp_write bytes).mapFailure _

theorem Item.keepsUp_perform (item : Item) :
    KeepsUp (Tallies base) (item.perform : Write Bytes Unit) (item.perform : Write κ Unit) := by
  cases item with
  | stream request =>
    cases request with
    | write bytes => exact keepsUp_write bytes
    | skip count => exact (Output.keepsUp_skip count).mapFailure _
  | varint value => exact keepsUp_write _
  | zigZag value => exact keepsUp_write _
  | fixed32 value => exact keepsUp_write _
  | fixed64 value => exact keepsUp_write _
  | tag type number => exact keepsUp_ite (keepsUp_throw _) (keepsUp_write _)
  | delimited bytes => exact (keepsUp_write _).bind fun _ => keepsUp_write bytes

end Wire

-- ---------------------------------------------------------------------------
-- Callers that disregard what is left
-- ---------------------------------------------------------------------------

/-- The continuation goes by the outcome and by the bytes that have passed. -/
def Disregards (next : Sight ε A → Plan Q ε A) : Prop :=
  ∀ outcome left left' moved, next ⟨outcome, left, moved⟩ = next ⟨outcome, left', moved⟩

/-- Whatever comes next does not depend on what is left of a limit; fixed sequences of calls are so. -/
def Plan.Steady : Plan Q ε A → Prop
  | .stop _ => True
  | .ask _ next => Disregards next ∧ ∀ sight, (next sight).Steady
  | .lend _ inner next => inner.Steady ∧ Disregards next ∧ ∀ sight, (next sight).Steady

/-- What a call tells of itself where there is no limit. -/
def Event.told [Channel s] (call : Event s Q ε A) : Except ε A × Nat :=
  (call.sight.outcome, call.sight.moved)

section

variable {κ' : Type} {x : Output κ} {y : Output κ'}

theorem Disregards.next_eq {next : Sight ε A → Plan Q ε A} (h : Disregards next)
    (hw : y.written = x.written) (outcome : Except ε A) :
    next (.of outcome y) = next (.of outcome x) := by
  calc next (.of outcome y)
      _ = next ⟨outcome, left y, moved x⟩ := congrArg (fun count => next ⟨outcome, left y, count⟩) hw
      _ = next (.of outcome x) := h _ _ _ _

theorem Event.told_call_eq {before : Output κ} {before' : Output κ'} {request : Q} {outcome : Except ε A}
    (hw : y.written = x.written) :
    (Event.call before' request outcome y).told = (Event.call before request outcome x).told :=
  congrArg (outcome, ·) hw

theorem Event.told_back_eq (hw : y.written = x.written) (outcome : Except ε A) :
    (Event.back outcome y : Event (Output κ') Q ε A).told =
      (Event.back outcome x : Event (Output κ) Q ε A).told :=
  congrArg (outcome, ·) hw

theorem Event.told_fst [Channel s] (call : Event s Q ε A) : call.told.1 = call.outcome := by
  cases call <;> rfl

theorem Event.forall_ok_of_told [Channel s] [Channel t] {calls : List (Event s Q ε A)}
    {others : List (Event t Q ε A)} {reply : A} (h : others.map told = calls.map told)
    (hok : ∀ call ∈ calls, call.outcome = .ok reply) : ∀ call ∈ others, call.outcome = .ok reply := by
  intro call hcall
  obtain ⟨other, hother, htold⟩ := List.mem_map.mp (h ▸ List.mem_map_of_mem hcall)
  rw [← told_fst, ← htold, told_fst]
  exact hok other hother

end

namespace Wire

open Output (Tallies)

variable [Sink κ]

/-- Where a byte string refuses nothing, an output that counts tells the same of each call. -/
theorem tallies (plan : Plan Item WireError Unit) (hs : plan.Steady) {base : Nat} {x : Output Bytes}
    {y : Output κ} (hm : x.Tallies base y) (hok : ∀ call ∈ plan.trace x, call.outcome = .ok ()) :
    (plan.trace y).map Event.told = (plan.trace x).map Event.told ∧
      (plan.run.result y).1 = (plan.run.result x).1 ∧
      (plan.run.result x).2.Tallies base (plan.run.result y).2 := by
  induction plan generalizing base x y with
  | stop outcome => exact ⟨rfl, rfl, hm⟩
  | ask item next ih =>
    obtain ⟨hnext, hsteady⟩ := hs
    rcases hx : (perform item : Write Bytes Unit).result x with ⟨outcome, x'⟩
    simp only [Plan.trace, hx, List.forall_mem_cons] at hok
    obtain ⟨hfirst, hrest⟩ := hok
    obtain rfl : outcome = .ok () := hfirst
    obtain ⟨y', hy, hafter⟩ := item.keepsUp_perform hm hx
    replace hy : (perform item : Write κ Unit).result y = (.ok (), y') := hy
    obtain ⟨htrace, hend⟩ := ih _ (hsteady _) hafter hrest
    simp only [Plan.run, Plan.trace, Step.result_ofRun, hx, hy, List.map_cons,
      hnext.next_eq hafter.written_eq, htrace]
    exact ⟨congrArg (· :: _) (Event.told_call_eq hafter.written_eq), hend⟩
  | lend length inner next ihinner ih =>
    obtain ⟨hinner, hnext, hsteady⟩ := hs
    have hx := result_within length ofStream (inner.run : Write Bytes Unit) x
    have hy := result_within length ofStream (inner.run : Write κ Unit) y
    cases hn : narrow x length with
    | error failure =>
      rw [hn] at hx
      simp only [Plan.trace, hx, List.forall_mem_append, List.forall_mem_cons] at hok
      cases hok.2.1
    | ok part =>
      obtain ⟨hlent, hpart, hback⟩ := hm.lend hn
      replace hlent : narrow y length = .ok (Output.sizing : Output κ) := hlent
      rw [hn] at hx
      rw [hlent] at hy
      simp only [Plan.trace, Plan.onLoan, hn, hx, List.forall_mem_append, List.forall_mem_cons] at hok
      obtain ⟨hloan, hreturned, hrest⟩ := hok
      obtain ⟨hcalls, houtcome, hlast⟩ := ihinner hinner hpart hloan
      have hafter : Tallies base (rejoin x _) (rejoin y _) := hback hlast
      obtain ⟨htrace, hend⟩ := ih _ (hsteady _) hafter hrest
      simp only [Plan.run, Plan.trace, Step.result_ofRun, Plan.onLoan, hn, hlent, hx, hy, List.map_append,
        List.map_cons, houtcome, hcalls, hnext.next_eq hafter.written_eq, htrace]
      exact ⟨congrArg (_ ++ · :: _) (Event.told_back_eq hafter.written_eq _), hend⟩

/-- Whatever a caller has written, lends and does after a refusal: a device that takes something of each
buffer, or is interrupted, cannot be told from a byte string, and takes the same bytes. Where the byte
string refuses nothing, an output that only counts refuses nothing either and counts the same after each
call, in the end the length of the byte string. -/
theorem sinks_interchange {drain : Drain} (hw : drain.Willing) (hnew : drain.accepted = []) (limit : Nat)
    (plan : Plan Item WireError Unit) :
    let device := Output.ofSink drain limit
    let whole := Output.ofSink ([] : Bytes) limit
    let counted : Output κ := .sizing
    (plan.seen device = plan.seen whole ∧
      (plan.run.result device).2.sink.map Drain.accepted = (plan.run.result whole).2.sink) ∧
    (plan.Steady → (∀ call ∈ plan.trace whole, call.outcome = .ok ()) →
      (∀ call ∈ plan.trace counted, call.outcome = .ok ()) ∧
      (plan.trace counted).map Event.told = (plan.trace whole).map Event.told ∧
      ∃ content, (plan.run.result whole).2.sink = some content ∧
        (plan.run.result whole).2.written = content.length ∧
        (plan.run.result counted).2.written = content.length) := by
  intro device whole counted
  constructor
  · have hm : device.Mirrors whole := ⟨⟨drain, rfl, hw, congrArg some hnew.symm⟩, rfl, rfl⟩
    obtain ⟨-, -, hafter⟩ := plan.indistinct indistinct_mirrors hm
    obtain ⟨last, hlast, -, hcontent⟩ := hafter.sinks
    exact ⟨indistinct_mirrors.seen_eq plan hm, by rw [hlast, hcontent]; rfl⟩
  · intro hs hok
    have hm : whole.Tallies 0 counted := ⟨⟨[], rfl, rfl⟩, rfl, rfl⟩
    obtain ⟨htold, -, hafter⟩ := tallies plan hs hm hok
    obtain ⟨content, hsink, hlength⟩ := hafter.content
    rw [Nat.zero_add] at hlength
    refine ⟨Event.forall_ok_of_told htold hok, htold, content, hsink, hlength.symm, ?_⟩
    rw [hafter.written_eq, hlength]

/-- A field is written, zeros into a part that is lent, and a number behind it; the device takes them in
parts and is interrupted in between. -/
theorem sinks_interchange_field :
    ∃ (drain : Drain) (plan : Plan Item WireError Unit),
      let device := Output.ofSink drain 24
      let whole := Output.ofSink ([] : Bytes) 24
      let counted : Output Bytes := .sizing
      drain.Willing ∧ drain.accepted = [] ∧ plan.Steady ∧
      (∀ call ∈ plan.trace whole, call.outcome = .ok ()) ∧
      plan.seen device = plan.seen whole ∧
      (plan.run.result device).2.sink.map Drain.accepted = some [10, 2, 7, 8, 0, 0, 0, 5, 0, 0, 0] ∧
      (∀ call ∈ plan.trace counted, call.outcome = .ok ()) ∧
      (plan.trace counted).map Event.told = (plan.trace whole).map Event.told ∧
      (plan.trace whole).map Event.told =
        [(.ok (), 1), (.ok (), 4), (.ok (), 3), (.ok (), 7), (.ok (), 11)] ∧
      (plan.run.result counted).2.written = 11 := by
  let drain : Drain := ⟨[.upTo 2, .fault .interrupted, .upTo 1, .upTo 9, .fault .interrupted], [], []⟩
  let padding : Plan Item WireError Unit := .ask (.stream (.skip 3)) fun sight => .stop sight.outcome
  let plan : Plan Item WireError Unit :=
    .ask (.tag .delimited 1) fun _ => .ask (.delimited [7, 8]) fun _ =>
      .lend 4 padding fun _ => .ask (.fixed32 5) fun sight => .stop sight.outcome
  have hwilling : drain.Willing := by simp [drain, Drain.Willing, Drain.Answers]
  have hsteady : plan.Steady := by simp [plan, padding, Plan.Steady, Disregards]
  have htold : (plan.trace (Output.ofSink ([] : Bytes) 24)).map Event.told =
      [(.ok (), 1), (.ok (), 4), (.ok (), 3), (.ok (), 7), (.ok (), 11)] := by cbv
  have hok : ∀ call ∈ plan.trace (Output.ofSink ([] : Bytes) 24), call.outcome = .ok () := by
    intro call hcall
    have hmem := htold ▸ List.mem_map_of_mem (f := Event.told) hcall
    rw [← Event.told_fst]
    simp only [List.mem_cons, List.not_mem_nil, or_false] at hmem
    rcases hmem with h | h | h | h | h <;> rw [h]
  obtain ⟨⟨hseen, haccepted⟩, hcounted⟩ := sinks_interchange (κ := Bytes) hwilling rfl 24 plan
  obtain ⟨hokay, htoll, content, hcontent, -, hlength⟩ := hcounted hsteady hok
  have hbytes : (plan.run.result (Output.ofSink ([] : Bytes) 24)).2.sink =
      some [10, 2, 7, 8, 0, 0, 0, 5, 0, 0, 0] := by cbv
  obtain rfl : content = [10, 2, 7, 8, 0, 0, 0, 5, 0, 0, 0] := Option.some.inj (hcontent.symm.trans hbytes)
  exact ⟨drain, plan, hwilling, rfl, hsteady, hok, hseen, haccepted.trans hbytes, hokay, htoll, htold, hlength⟩

end Wire

end BlockCodec
