import BlockCodec.Proofs.Plans
import BlockCodec.Proofs.Supplies
import BlockCodec.Wire.Read

/-!
# A caller cannot tell in what portions bytes arrive

The bytes of an input may come all at once, a few at a time, or with interruptions in between. Two
inputs that hold the same bytes under the same budget are level, and every request keeps them level:
what arrives, what is missing at the end and how much is left come out alike. So no caller sees a
difference, whatever it asks and however its requests fail: `Wire.portions_unseen`.
-/

namespace BlockCodec

open Supply

-- ---------------------------------------------------------------------------
-- Feeds without faults
-- ---------------------------------------------------------------------------

/-- A chunk that is not empty. -/
def Arrival.IsPortion : Arrival → Prop
  | .chunk bytes => bytes ≠ []
  | .fault _ => False

instance : DecidablePred Arrival.IsPortion
  | .chunk bytes => inferInstanceAs (Decidable (bytes ≠ []))
  | .fault _ => inferInstanceAs (Decidable False)

namespace Feed

/-- Nothing but chunks that are not empty. -/
def Unbroken (feed : Feed) : Prop := ∀ arrival ∈ feed, arrival.IsPortion

instance (feed : Feed) : Decidable feed.Unbroken :=
  inferInstanceAs (Decidable (∀ arrival ∈ feed, arrival.IsPortion))

theorem read_of_unbroken {feed : Feed} (h : feed.Unbroken) {wanted : Nat} (hpos : 0 < wanted) :
    ∃ front rest after, feed.read wanted = (.ok front, after) ∧ feed.content = front ++ rest ∧
      (after.Unbroken ∧ after.content = rest) ∧ (front = [] → feed.content = []) := by
  cases feed with
  | nil => exact ⟨[], [], [], rfl, rfl, ⟨h, rfl⟩, fun _ => rfl⟩
  | cons arrival feed =>
    obtain ⟨hfirst, hfeed⟩ := List.forall_mem_cons.mp h
    cases arrival with
    | fault fault => exact hfirst.elim
    | chunk bytes => exact read_chunk hfirst (fun _ hne => hne) hfeed hpos

def Holds (feed : Feed) (content : Bytes) : Prop := feed.Unbroken ∧ feed.content = content

theorem read_of_holds {feed : Feed} {content : Bytes} {wanted : Nat} (h : feed.Holds content)
    (hpos : 0 < wanted) :
    ∃ front rest after, feed.pull wanted = (.ok front, after) ∧ content = front ++ rest ∧
      after.Holds rest ∧ (front = [] → content = []) := by
  obtain ⟨hunbroken, rfl⟩ := h
  obtain ⟨front, rest, after, hr, hsplit, hafter, hend⟩ := read_of_unbroken hunbroken hpos
  refine ⟨front, rest, after, ?_, hsplit, hafter, hend⟩
  simp [pull, asSource, hr, Except.mapError]

end Feed

instance : Supply Feed where
  Holds := Feed.Holds
  read_of_holds := Feed.read_of_holds
  skip_of_holds := Source.skipByReading_of_holds Feed.Holds Feed.read_of_holds Feed.length_pull_le

-- ---------------------------------------------------------------------------
-- Inputs that answer alike
-- ---------------------------------------------------------------------------

namespace Input

variable {σ τ : Type} [Source σ] [Source τ]

/-- Inputs that match have the same budget, answer every request alike and match afterwards. -/
structure Alike (M : Input σ → Input τ → Prop) : Prop where
  left_eq : ∀ {x y}, M x y → x.left = y.left
  deliver : ∀ {x y}, M x y → ∀ count,
    (deliver count x).1 = (deliver count y).1 ∧ M (deliver count x).2 (deliver count y).2
  readByte? : Echoes M (readByte? : Step (Input σ) StreamError (Option UInt8)) (readByte? : Step (Input τ) _ _)
  skip : ∀ count, Echoes M (skip count : Step (Input σ) StreamError Unit) (skip count : Step (Input τ) _ _)

variable {M : Input σ → Input τ → Prop} (h : Alike M)

include h

theorem Alike.read (count : Nat) :
    Echoes M (read count : Step (Input σ) StreamError Bytes) (read count : Step (Input τ) _ _) := by
  intro x y hm
  obtain ⟨hdelivery, hafter⟩ := h.deliver hm count
  rw [Input.read, Input.read, Step.result_ofRun, Step.result_ofRun]
  rcases hx : Input.deliver count x with ⟨delivery, x'⟩
  rcases hy : Input.deliver count y with ⟨delivery', y'⟩
  rw [hx, hy] at hdelivery hafter
  obtain rfl : delivery = delivery' := hdelivery
  rcases delivery with ⟨bytes, _ | failure⟩ <;> exact ⟨rfl, hafter⟩

theorem Alike.readByte :
    Echoes M (readByte : Step (Input σ) StreamError UInt8) (readByte : Step (Input τ) _ _) :=
  (h.read 1).bind fun _ => echoes_pure _

theorem Alike.perform (request : Request) :
    Echoes M (request.perform : Step (Input σ) StreamError Reply) (request.perform : Step (Input τ) _ _) := by
  cases request with
  | read count => exact (h.read count).bind fun _ => echoes_pure _
  | readByte => exact h.readByte.bind fun _ => echoes_pure _
  | readByte? => exact h.readByte?.bind fun _ => echoes_pure _
  | skip count => exact (h.skip count).bind fun _ => echoes_pure _

end Input

-- ---------------------------------------------------------------------------
-- Level inputs
-- ---------------------------------------------------------------------------

section

variable {σ τ ε α β : Type} [Source σ] [Supply σ] [Source τ] [Supply τ]

/-- A single byte is handed out by every source that holds one. -/
theorem Supply.read_one {source : σ} {content : Bytes} (h : Holds source content) :
    ∃ after, Source.read source 1 = (.ok (content.take 1), after) ∧ Holds after (content.drop 1) := by
  obtain ⟨front, rest, after, hr, rfl, hrest, hend⟩ := read_of_holds h Nat.one_pos
  have hlength := Source.length_read_le hr
  cases front with
  | nil =>
    obtain rfl : rest = [] := by simpa using hend rfl
    exact ⟨after, hr, hrest⟩
  | cons byte more =>
    obtain rfl : more = [] := by simpa using hlength
    exact ⟨after, hr, hrest⟩

/-- The inputs hold the same bytes and stand alike in their budgets. -/
structure Input.Level (x : Input σ) (y : Input τ) : Prop where
  holds : ∃ content, Holds x.source content ∧ Holds y.source content
  left_eq : x.left = y.left
  taken_eq : x.taken = y.taken
  bounded_eq : x.bounded = y.bounded

namespace Input

variable {x : Input σ} {y : Input τ}

theorem Level.charge (h : x.Level y) {source : σ} {source' : τ} {content : Bytes}
    (hx : Holds source content) (hy : Holds source' content) (count : Nat) :
    ({ x with source }.charge count).Level ({ y with source := source' }.charge count) where
  holds := ⟨content, hx, hy⟩
  left_eq := congrArg (· - count) h.left_eq
  taken_eq := congrArg (· + count) h.taken_eq
  bounded_eq := h.bounded_eq

theorem Level.deliver (h : x.Level y) (count : Nat) :
    (deliver count x).1 = (deliver count y).1 ∧ (deliver count x).2.Level (deliver count y).2 := by
  rw [Input.deliver, Input.deliver]
  by_cases hlt : y.left < count
  · rw [if_pos (h.left_eq ▸ hlt), if_pos hlt, h.left_eq]
    exact ⟨rfl, h⟩
  · rw [if_neg (h.left_eq ▸ hlt), if_neg hlt]
    obtain ⟨content, hx, hy⟩ := h.holds
    obtain ⟨source, hgather, hafter⟩ := gather_of_holds count hx
    obtain ⟨source', hgather', hafter'⟩ := gather_of_holds count hy
    simp only [hgather, hgather']
    exact ⟨trivial, h.charge hafter hafter' _⟩

theorem echoes_readByte? :
    Echoes Level (readByte? : Step (Input σ) StreamError (Option UInt8)) (readByte? : Step (Input τ) _ _) := by
  intro x y h
  rw [readByte?, readByte?, Step.result_ofRun, Step.result_ofRun]
  by_cases hzero : y.left = 0
  · rw [if_pos (h.left_eq.trans hzero), if_pos hzero]
    exact ⟨rfl, h⟩
  · rw [if_neg (h.left_eq ▸ hzero), if_neg hzero]
    obtain ⟨content, hx, hy⟩ := h.holds
    obtain ⟨source, hr, hafter⟩ := Supply.read_one hx
    obtain ⟨source', hr', hafter'⟩ := Supply.read_one hy
    rw [hr, hr']
    cases content with
    | nil => exact ⟨rfl, ⟨[], hafter, hafter'⟩, h.left_eq, h.taken_eq, h.bounded_eq⟩
    | cons byte rest => exact ⟨rfl, h.charge hafter hafter' 1⟩

theorem echoes_skip (count : Nat) :
    Echoes Level (skip count : Step (Input σ) StreamError Unit) (skip count : Step (Input τ) _ _) := by
  intro x y h
  rw [skip, skip, Step.result_ofRun, Step.result_ofRun]
  by_cases hlt : y.left < count
  · rw [if_pos (h.left_eq ▸ hlt), if_pos hlt, h.left_eq]
    exact ⟨rfl, h⟩
  · rw [if_neg (h.left_eq ▸ hlt), if_neg hlt]
    obtain ⟨content, hx, hy⟩ := h.holds
    obtain ⟨source, hs, hafter⟩ := skip_of_holds count hx
    obtain ⟨source', hs', hafter'⟩ := skip_of_holds count hy
    rw [hs, hs']
    exact ⟨rfl, h.charge hafter hafter' _⟩

theorem alike_level : Alike (Level : Input σ → Input τ → Prop) where
  left_eq h := h.left_eq
  deliver h := h.deliver
  readByte? := echoes_readByte?
  skip := echoes_skip

end Input

end

-- ---------------------------------------------------------------------------
-- Wire values
-- ---------------------------------------------------------------------------

namespace Wire

inductive Request
  | stream (request : Input.Request)
  | varint
  | fixed32
  | fixed64
  | tag
  | length
  | skipField (type : WireType)
deriving Repr, DecidableEq

inductive Reply
  | stream (reply : Input.Reply)
  | number (value : UInt64)
  | fixed32 (value : UInt32)
  | fixed64 (value : UInt64)
  | tag (tag? : Option (Nat × WireType))
  | length (length : Nat)
  | done
deriving Repr, DecidableEq

instance : OfStream WireError := ⟨.stream⟩

variable {σ τ α : Type} [Source σ] [Source τ]

def Request.perform : Request → Read σ Reply
  | .stream request => do
    let reply ← onStream request.perform
    pure (.stream reply)
  | .varint => do
    let value ← readVarint
    pure (.number value)
  | .fixed32 => do
    let value ← readFixed32
    pure (.fixed32 value)
  | .fixed64 => do
    let value ← readFixed64
    pure (.fixed64 value)
  | .tag => do
    let tag? ← readTag
    pure (.tag tag?)
  | .length => do
    let length ← readLength
    pure (.length length)
  | .skipField type => do
    Wire.skipField type
    pure .done

instance : Service (Input σ) Request WireError Reply := ⟨Request.perform⟩

section

variable {M : Input σ → Input τ → Prop}

omit [Source σ] [Source τ] in
theorem echoes_onStream {a : Step (Input σ) StreamError α} {b : Step (Input τ) StreamError α}
    (h : Echoes M a b) : Echoes M (onStream a) (onStream b) := h.mapFailure _

variable (h : Input.Alike M)

include h

theorem echoes_nextGroup : Echoes M (nextGroup : Read σ UInt8) (nextGroup : Read τ UInt8) :=
  h.readByte.mapFailure _

theorem echoes_readGroups (places weight sum : Nat) :
    Echoes M (readGroups places weight sum : Read σ UInt64) (readGroups places weight sum : Read τ UInt64) := by
  induction places generalizing weight sum with
  | zero => exact echoes_throw _
  | succ places ih =>
    unfold readGroups
    refine (echoes_nextGroup h).bind fun byte => echoes_ite ((echoes_throw _).bind fun _ => ?_) ?_ <;>
      exact echoes_ite (echoes_pure _) (ih _ _)

theorem echoes_readVarintFrom (first : UInt8) :
    Echoes M (readVarintFrom first : Read σ UInt64) (readVarintFrom first : Read τ UInt64) :=
  echoes_ite (echoes_pure _) (echoes_readGroups h _ _ _)

theorem echoes_readVarint : Echoes M (readVarint : Read σ UInt64) (readVarint : Read τ UInt64) :=
  (echoes_onStream h.readByte).bind (echoes_readVarintFrom h)

theorem echoes_readZigZag : Echoes M (readZigZag : Read σ Int64) (readZigZag : Read τ Int64) :=
  (echoes_readVarint h).bind fun _ => echoes_pure _

theorem echoes_readVarint32 : Echoes M (readVarint32 : Read σ Nat) (readVarint32 : Read τ Nat) :=
  (echoes_readVarint h).bind fun _ => echoes_ite (echoes_pure _) (echoes_throw _)

theorem echoes_readFixed32 : Echoes M (readFixed32 : Read σ UInt32) (readFixed32 : Read τ UInt32) :=
  (echoes_onStream (h.read 4)).bind fun _ => echoes_pure _

theorem echoes_readFixed64 : Echoes M (readFixed64 : Read σ UInt64) (readFixed64 : Read τ UInt64) :=
  (echoes_onStream (h.read 8)).bind fun _ => echoes_pure _

theorem echoes_readTag :
    Echoes M (readTag : Read σ (Option (Nat × WireType))) (readTag : Read τ (Option (Nat × WireType))) := by
  refine (echoes_onStream h.readByte?).bind fun first? => ?_
  cases first? with
  | none => exact echoes_pure _
  | some first =>
    refine (echoes_readVarintFrom h first).bind fun header => echoes_ite ?_ (echoes_throw _)
    exact (echoes_ofExcept _).bind fun _ => echoes_pure _

/-- The length is checked against what is left, which is the same for both. -/
theorem echoes_readLength : Echoes M (readLength : Read σ Nat) (readLength : Read τ Nat) := by
  refine (echoes_readVarint32 h).bind fun declared x y hm => ?_
  rw [Step.result_bind_ok (Step.result_get x), Step.result_bind_ok (Step.result_get y),
    h.left_eq hm]
  exact echoes_ite ((echoes_throw _).bind fun _ => echoes_pure _) (echoes_pure _) hm

theorem echoes_skipGroups (places : Nat) :
    Echoes M (skipGroups places : Read σ Unit) (skipGroups places : Read τ Unit) := by
  induction places with
  | zero => exact echoes_throw _
  | succ places ih =>
    unfold skipGroups
    exact (echoes_nextGroup h).bind fun _ => echoes_ite (echoes_pure _) ih

theorem echoes_skipVarint : Echoes M (skipVarint : Read σ Unit) (skipVarint : Read τ Unit) :=
  (echoes_onStream h.readByte).bind fun _ => echoes_ite (echoes_pure _) (echoes_skipGroups h _)

theorem echoes_skipField (type : WireType) :
    Echoes M (skipField type : Read σ Unit) (skipField type : Read τ Unit) := by
  cases type with
  | varint => exact echoes_skipVarint h
  | fixed32 => exact echoes_onStream (h.skip 4)
  | fixed64 => exact echoes_onStream (h.skip 8)
  | delimited => exact (echoes_readLength h).bind fun length => echoes_onStream (h.skip length)
  | startGroup => exact echoes_throw _
  | endGroup => exact echoes_throw _

theorem echoes_perform (request : Request) :
    Echoes M (request.perform : Read σ Reply) (request.perform : Read τ Reply) := by
  cases request with
  | stream request => exact (echoes_onStream (h.perform request)).bind fun _ => echoes_pure _
  | varint => exact (echoes_readVarint h).bind fun _ => echoes_pure _
  | fixed32 => exact (echoes_readFixed32 h).bind fun _ => echoes_pure _
  | fixed64 => exact (echoes_readFixed64 h).bind fun _ => echoes_pure _
  | tag => exact (echoes_readTag h).bind fun _ => echoes_pure _
  | length => exact (echoes_readLength h).bind fun _ => echoes_pure _
  | skipField type => exact (echoes_skipField h type).bind fun _ => echoes_pure _

end

variable [Supply σ] [Supply τ]

open Input (Level)

theorem indistinct_level : Indistinct Request (Level : Input σ → Input τ → Prop) where
  left_eq h := h.left_eq
  moved_eq h := h.taken_eq
  perform := echoes_perform Input.alike_level
  narrow {x y} h length := by
    show (∃ failure, x.narrow length = _ ∧ y.narrow length = _) ∨
      ∃ part part', x.narrow length = _ ∧ y.narrow length = _ ∧ _
    rw [Input.narrow, Input.narrow, h.left_eq]
    by_cases hlt : y.left < length
    · rw [if_pos hlt, if_pos hlt]
      exact .inl ⟨_, rfl, rfl⟩
    · rw [if_neg hlt, if_neg hlt]
      exact .inr ⟨_, _, rfl, rfl, h.holds, rfl, rfl, rfl⟩
  rejoin {x y part part'} h hpart := by
    obtain ⟨content, hx, hy⟩ := hpart.holds
    have hlevel := h.charge hx hy part'.taken
    show (x.rejoin part).Level (y.rejoin part')
    rwa [Input.rejoin, Input.rejoin, hpart.taken_eq]

end Wire

/-- The input over a source, within a limit if there is one. -/
def Input.startOn {σ : Type} (source : σ) : Option Nat → Input σ
  | some limit => ofSource source limit
  | none => unbounded source

theorem Input.level_startOn {σ τ : Type} [Source σ] [Supply σ] [Source τ] [Supply τ] {source : σ} {source' : τ}
    {content : Bytes} (hx : Holds source content) (hy : Holds source' content) (limit? : Option Nat) :
    (startOn source limit?).Level (startOn source' limit?) := by
  cases limit? <;> exact ⟨⟨content, hx, hy⟩, rfl, rfl, rfl⟩

/-- Whatever a caller asks, lends and does after a failure: it sees the same over a byte string and over
sources that hand its bytes out in portions, be it with interruptions that are waited out. -/
theorem Wire.portions_unseen {content : Bytes} {feed late : Feed} (hfeed : feed.Unbroken)
    (hcontent : feed.content = content) (hlate : late.Flows) (hlater : late.content = content)
    (limit? : Option Nat) (plan : Plan Request WireError Reply) :
    plan.seen (Input.startOn feed limit?) = plan.seen (Input.startOn content limit?) ∧
      plan.seen (Input.startOn (⟨late⟩ : Patient) limit?) = plan.seen (Input.startOn content limit?) :=
  have hwhole : Holds content content := rfl
  have hportions : Holds feed content := ⟨hfeed, hcontent⟩
  have hinterrupted : Holds (⟨late⟩ : Patient) content := ⟨hlate, hlater⟩
  ⟨indistinct_level.seen_eq plan (Input.level_startOn hportions hwhole limit?),
    indistinct_level.seen_eq plan (Input.level_startOn hinterrupted hwhole limit?)⟩

/-- A field is read from a part that is lent, and more is asked for than there is, within the part and
behind it. -/
theorem Wire.portions_unseen_field :
    ∃ (content : Bytes) (feed late : Feed) (plan : Plan Request WireError Reply),
      feed.Unbroken ∧ feed.content = content ∧ late.Flows ∧ late.content = content ∧
      plan.seen (Input.startOn feed (some 9)) = plan.seen (Input.startOn content (some 9)) ∧
      plan.seen (Input.startOn (⟨late⟩ : Patient) (some 9)) = plan.seen (Input.startOn content (some 9)) ∧
      plan.seen (Input.startOn content (some 9)) =
        ([⟨.ok (.tag (some (1, .varint))), 2, 1⟩, ⟨.ok (.number 300), 0, 3⟩,
          ⟨.error (.stream (.limitExceeded 1 0)), 0, 3⟩, ⟨.error (.stream (.limitExceeded 1 0)), 6, 3⟩,
          ⟨.error (.stream (.endOfStream 4 2)), 4, 5⟩], ⟨.ok .done, 4, 5⟩) := by
  let content : Bytes := [8, 172, 2, 1, 2]
  let feed : Feed := [.chunk [8, 172], .chunk [2, 1, 2]]
  let late : Feed := [.chunk [8], .fault .interrupted, .chunk [172], .chunk [2, 1], .chunk [2]]
  let field : Plan Request WireError Reply :=
    .ask .tag fun _ => .ask .varint fun _ => .ask (.stream .readByte) fun sight => .stop sight.outcome
  let plan : Plan Request WireError Reply :=
    .lend 3 field fun _ => .ask .fixed32 fun _ => .stop (.ok .done)
  have hfeed : feed.Unbroken := by decide
  have hlate : late.Flows := by decide
  have hcontent : feed.content = content := rfl
  obtain ⟨hportions, hinterrupted⟩ := portions_unseen hfeed hcontent hlate rfl (some 9) plan
  exact ⟨content, feed, late, plan, hfeed, rfl, hlate, rfl, hportions, hinterrupted, by cbv⟩

end BlockCodec
