import BlockCodec.Wire.Scan
import BlockCodec.Proofs.Tracking

/-!
# Two runs over the same bytes

The same step is run on two inputs that begin with the same bytes. If the budgets end with them, the
runs cannot be told apart, whatever the step does: `Twins`. If there is more behind, they do the same
as long as the step keeps to these bytes; a step that does so under a condition on them runs `Beside`
itself. Failures are the same too, which is more than `Tracks` says of a short run and a long one.
-/

namespace BlockCodec

/-- Where two runs stand. Both have `bytes` to read; what is behind them, how much more the budgets
allow and what was taken before is their own, unless the pair is `tight`. -/
structure Pair where
  tight : Prop
  bytes : Bytes
  more : Bytes
  more' : Bytes
  extra : Nat
  extra' : Nat
  taken : Nat
  taken' : Nat

/-- Behind `count` bytes that both runs have taken. -/
def Pair.drop (pair : Pair) (count : Nat) : Pair :=
  { pair with
    bytes := pair.bytes.drop count
    taken := pair.taken + count
    taken' := pair.taken' + count }

/-- The next `length` bytes by themselves. -/
def Pair.narrow (pair : Pair) (length : Nat) : Pair where
  tight := True
  bytes := pair.bytes.take length
  more := pair.bytes.drop length ++ pair.more
  more' := pair.bytes.drop length ++ pair.more'
  extra := 0
  extra' := 0
  taken := 0
  taken' := 0

@[simp] theorem Pair.drop_zero (pair : Pair) : pair.drop 0 = pair := rfl

@[simp] theorem Pair.drop_drop (pair : Pair) (count next : Nat) :
    (pair.drop count).drop next = pair.drop (count + next) := by
  simp [drop, Nat.add_assoc]

section

variable {s t σ τ ρ ε ε' α β : Type} [Source σ] [Supply σ] [Source τ] [Supply τ]
  [Reader s σ ρ] [Reader t τ ρ] {pair : Pair} {x : s} {y : t}

/-- The runs stand at the pair and agree on everything but the input. -/
structure Abreast (pair : Pair) (x : s) (y : t) : Prop where
  one_at : (Reader.input x).At (pair.bytes ++ pair.more) (pair.bytes.length + pair.extra) pair.taken
  other_at : (Reader.input y).At (pair.bytes ++ pair.more') (pair.bytes.length + pair.extra') pair.taken'
  rest_eq : Reader.rest x = Reader.rest y
  closed : pair.tight → pair.extra = 0 ∧ pair.extra' = 0 ∧ pair.taken = pair.taken' ∧
    (Reader.input x).bounded = (Reader.input y).bounded

/-- From here both runs answer alike and take as much as is said of the answer, or they fail alike. -/
def Meet (pair : Pair) (counts : α → Nat → Prop) (a : Step s ε α) (b : Step t ε α) (x : s) (y : t) : Prop :=
  (∃ value x' y' count, a.result x = (.ok value, x') ∧ b.result y = (.ok value, y') ∧ counts value count ∧
    count ≤ pair.bytes.length ∧ Abreast (pair.drop count) x' y') ∨
  ∃ failure x' y', a.result x = (.error failure, x') ∧ b.result y = (.error failure, y') ∧
    Reader.rest x' = Reader.rest y'

/-- The runs meet without taking anything. -/
def Still (a : Step s ε α) (b : Step t ε α) : Prop :=
  ∀ ⦃pair : Pair⦄ ⦃x : s⦄ ⦃y : t⦄, Abreast pair x y → Meet pair (fun _ count => count = 0) a b x y

/-- The runs meet from tight pairs, and from those whose bytes are as needed; then these are taken. -/
def Beside (need : Bytes → Prop) (a : Step s ε α) (b : Step t ε α) : Prop :=
  ∀ ⦃pair : Pair⦄ ⦃x : s⦄ ⦃y : t⦄, Abreast pair x y → pair.tight ∨ need pair.bytes →
    Meet pair (fun _ count => pair.tight ∨ count = pair.bytes.length) a b x y

/-- The runs meet from tight pairs. -/
abbrev Twins (a : Step s ε α) (b : Step t ε α) : Prop := Beside (fun _ => False) a b

variable {need rest : Bytes → Prop} {counts : α → Nat → Prop} {later : β → Nat → Prop}
  {a : Step s ε α} {b : Step t ε α} {f : α → Step s ε β} {g : α → Step t ε β}

-- ---------------------------------------------------------------------------
-- Composition
-- ---------------------------------------------------------------------------

theorem Meet.bind (h : Meet pair counts a b x y)
    (hn : ∀ value x' y' count, counts value count → count ≤ pair.bytes.length →
      Abreast (pair.drop count) x' y' →
        Meet (pair.drop count) (fun value next => later value (count + next)) (f value) (g value) x' y') :
    Meet pair later (a >>= f) (b >>= g) x y := by
  rcases h with ⟨value, x', y', count, ha, hb, hcount, hle, habreast⟩ | ⟨failure, x', y', ha, hb, hrest⟩
  · unfold Meet
    rw [Step.result_bind_ok ha, Step.result_bind_ok hb]
    refine (hn value x' y' count hcount hle habreast).imp ?_ id
    rintro ⟨value, x', y', next, ha, hb, hnext, hle', habreast⟩
    simp only [Pair.drop, List.length_drop] at hle'
    rw [Pair.drop_drop] at habreast
    exact ⟨value, x', y', count + next, ha, hb, hnext, by omega, habreast⟩
  · exact .inr ⟨failure, x', y', Step.result_bind_error ha, Step.result_bind_error hb, hrest⟩

theorem Meet.mono {fewer : α → Nat → Prop} (h : Meet pair counts a b x y)
    (hc : ∀ value count, counts value count → fewer value count) : Meet pair fewer a b x y :=
  h.imp (fun ⟨value, x', y', count, ha, hb, hcount, hle, habreast⟩ =>
    ⟨value, x', y', count, ha, hb, hc value count hcount, hle, habreast⟩) id

theorem Meet.congr {a' : Step s ε α} {b' : Step t ε α} {z : s} {w : t}
    (h : Meet pair counts a' b' z w) (hx : a.result x = a'.result z) (hy : b.result y = b'.result w) :
    Meet pair counts a b x y := by
  unfold Meet at *
  rwa [hx, hy]

theorem Beside.bind (h : Beside need a b) (hn : ∀ value, Beside rest (f value) (g value))
    (hneed : ∀ bytes, need bytes → rest []) : Beside need (a >>= f) (b >>= g) := by
  intro pair x y habreast hmode
  refine (h habreast hmode).bind fun value x' y' count hcount hle hnext => ?_
  have hmode' : (pair.drop count).tight ∨ rest (pair.drop count).bytes := by
    rcases hmode with ht | hneeds
    · exact .inl ht
    · refine hcount.imp id fun hall => ?_
      rw [Pair.drop, hall, List.drop_length]
      exact hneed _ hneeds
  rcases hn value hnext hmode' with ⟨value, x'', y'', next, hf, hg, htaken, hle', hafter⟩ | hfails
  · refine .inl ⟨value, x'', y'', next, hf, hg, htaken.imp id fun hall => ?_, hle', hafter⟩
    simp only [Pair.drop, List.length_drop] at hall
    omega
  · exact .inr hfails

theorem Twins.bind (h : Twins a b) (hn : ∀ value, Twins (f value) (g value)) :
    Twins (a >>= f) (b >>= g) :=
  Beside.bind h hn fun _ h => h

theorem Still.bind (h : Still a b) (hn : ∀ value, Beside need (f value) (g value)) :
    Beside need (a >>= f) (b >>= g) := by
  intro pair x y habreast hmode
  refine (h habreast).bind fun value x' y' count hzero _ hnext => ?_
  subst hzero
  simpa using hn value hnext hmode

theorem Still.beside (h : Still a b) : Beside (· = []) a b := by
  intro pair x y habreast hmode
  refine (h habreast).mono ?_
  rintro _ _ rfl
  exact hmode.imp id fun hnil => by rw [hnil]; rfl

/-- After the bytes have been taken. -/
theorem Beside.then (h : Beside need a b) (hn : ∀ value, Still (f value) (g value)) :
    Beside need (a >>= f) (b >>= g) :=
  h.bind (fun value => (hn value).beside) fun _ _ => rfl

theorem Beside.weaken (h : Beside need a b) (hneed : ∀ bytes, rest bytes → need bytes) :
    Beside rest a b :=
  fun _ _ _ habreast hmode => h habreast (hmode.imp id (hneed _))

theorem Beside.twins (h : Beside need a b) : Twins a b := h.weaken fun _ => False.elim

/-- Tight pairs and others by themselves. -/
theorem Beside.of_twins (htwins : Twins a b) (h : ∀ ⦃pair : Pair⦄ ⦃x : s⦄ ⦃y : t⦄, Abreast pair x y →
    ¬pair.tight → need pair.bytes → Meet pair (fun _ count => count = pair.bytes.length) a b x y) :
    Beside need a b := by
  intro pair x y habreast hmode
  by_cases ht : pair.tight
  · exact (htwins habreast (.inl ht)).mono fun _ _ _ => .inl ht
  · exact (h habreast ht (hmode.resolve_left ht)).mono fun _ _ => .inr

theorem Still.then (h : Still a b) (hn : ∀ value, Still (f value) (g value)) :
    Still (a >>= f) (b >>= g) := by
  intro pair x y habreast
  refine (h habreast).bind fun value x' y' count hzero _ hnext => ?_
  subst hzero
  simpa using hn value hnext

theorem still_pure (value : α) : Still (pure value : Step s ε α) (pure value : Step t ε α) :=
  fun _ _ _ habreast => .inl ⟨value, _, _, 0, rfl, rfl, rfl, Nat.zero_le _, habreast⟩

theorem fails_alike (failure : ε) :
    Beside need (throw failure : Step s ε α) (throw failure : Step t ε α) :=
  fun _ _ _ habreast _ => .inr ⟨failure, _, _, rfl, rfl, habreast.rest_eq⟩

theorem still_throw (failure : ε) : Still (throw failure : Step s ε α) (throw failure : Step t ε α) :=
  fun _ _ _ habreast => .inr ⟨failure, _, _, rfl, rfl, habreast.rest_eq⟩

theorem still_ofExcept (outcome : Except ε α) :
    Still (Step.ofExcept outcome : Step s ε α) (Step.ofExcept outcome : Step t ε α) := by
  cases outcome with
  | ok value => exact still_pure value
  | error failure => exact still_throw failure

theorem beside_ite {c : Prop} [Decidable c] {a' : Step s ε α} {b' : Step t ε α}
    (hy : c → Beside need a b) (hn : ¬c → Beside need a' b') :
    Beside need (if c then a else a') (if c then b else b') := by
  split
  · next h => exact hy h
  · next h => exact hn h

theorem still_ite {c : Prop} [Decidable c] {a' : Step s ε α} {b' : Step t ε α}
    (hy : Still a b) (hn : Still a' b') : Still (if c then a else a') (if c then b else b') := by
  split
  · exact hy
  · exact hn

/-- A failure thrown in front of the rest of a step. -/
theorem beside_unless {c : Prop} [Decidable c] {failure : ε} {next : Unit → Step s ε α}
    {next' : Unit → Step t ε α} (hn : ¬c → Beside need (next ()) (next' ())) :
    Beside need (if c then (throw failure : Step s ε Unit) >>= next else next ())
      (if c then (throw failure : Step t ε Unit) >>= next' else next' ()) :=
  beside_ite (fun _ _ _ _ habreast _ => .inr ⟨failure, _, _, rfl, rfl, habreast.rest_eq⟩) hn

theorem Meet.mapFailure (restate : ε → ε') (h : Meet pair counts a b x y) :
    Meet pair counts (a.mapFailure restate) (b.mapFailure restate) x y := by
  rcases h with ⟨value, x', y', count, ha, hb, hrest⟩ | ⟨failure, x', y', ha, hb, hrest⟩
  · exact .inl ⟨value, x', y', count, by rw [Step.result_mapFailure, ha]; rfl,
      by rw [Step.result_mapFailure, hb]; rfl, hrest⟩
  · exact .inr ⟨restate failure, x', y', by rw [Step.result_mapFailure, ha]; rfl,
      by rw [Step.result_mapFailure, hb]; rfl, hrest⟩

theorem Beside.mapFailure (restate : ε → ε') (h : Beside need a b) :
    Beside need (a.mapFailure restate) (b.mapFailure restate) :=
  fun _ _ _ habreast hmode => (h habreast hmode).mapFailure restate

/-- What both runs have before them is handed to both. -/
theorem Meet.of_demands {shorts : ε → Prop} {count : Nat} {answer : Bytes → α} {edit : Bytes → ρ → ρ}
    (ha : Demands shorts count answer edit a) (hb : Demands shorts count answer edit b)
    (h : Abreast pair x y) (hle : count ≤ pair.bytes.length)
    (hx : (Reader.input (a.result x).2).bounded = (Reader.input x).bounded)
    (hy : (Reader.input (b.result y).2).bounded = (Reader.input y).bounded) :
    Meet pair (fun value taken => value = answer (pair.bytes.take count) ∧ taken = count) a b x y := by
  have hone := h.one_at
  have hother := h.other_at
  obtain ⟨value, x', hr, -, hvalue, hat, hrest⟩ := ((ha _ _ _ _ hone).mono (fun _ _ h => h) fun _ _ hno =>
    absurd hno.1 (by rw [List.length_append]; omega)).answers
  obtain ⟨value', y', hr', -, hvalue', hat', hrest'⟩ := ((hb _ _ _ _ hother).mono (fun _ _ h => h)
    fun _ _ hno => absurd hno.1 (by rw [List.length_append]; omega)).answers
  rw [List.take_append_of_le_length hle] at hvalue hrest hvalue' hrest'
  rw [List.drop_append_of_le_length hle] at hat hat'
  have hbudget : ∀ extra, pair.bytes.length + extra - count = (pair.bytes.drop count).length + extra := by
    intro extra
    rw [List.length_drop]
    omega
  rw [hbudget] at hat hat'
  rw [hr] at hx
  rw [hr'] at hy
  refine .inl ⟨value, x', y', count, hr, by rw [hr', hvalue, hvalue'], ⟨hvalue, rfl⟩, hle, hat, hat', ?_,
    fun ht => ?_⟩
  · rw [hrest, hrest', h.rest_eq]
  · obtain ⟨hextra, hextra', htaken, hbounded⟩ := h.closed ht
    exact ⟨hextra, hextra', by simp only [Pair.drop, htaken], hx.trans (hbounded.trans hy.symm)⟩

/-- The budgets of a tight pair are its bytes. -/
theorem Abreast.left_eq (h : Abreast pair x y) (ht : pair.tight) :
    (Reader.input x).left = pair.bytes.length ∧ (Reader.input y).left = pair.bytes.length := by
  obtain ⟨hextra, hextra', -⟩ := h.closed ht
  rw [h.one_at.left_eq, h.other_at.left_eq, hextra, hextra']
  exact ⟨rfl, rfl⟩

/-- What a tight pair has left is the same for both. -/
theorem twins_left {next : s → Step s ε α} {next' : t → Step t ε α}
    (h : ∀ x y, (Reader.input x).left = (Reader.input y).left → Reader.rest x = Reader.rest y →
      Twins (next x) (next' y)) :
    Twins (get >>= next) (get >>= next') := by
  intro pair x y habreast ht
  obtain ⟨hone, hother⟩ := habreast.left_eq (ht.resolve_right id)
  exact h x y (hone.trans hother.symm) habreast.rest_eq habreast ht

/-- The step refuses what is more than the budget, and it does not change what kind the input is of. -/
def Refuses (count : Nat) (edit : Bytes → ρ → ρ) (refuse : Nat → ε) (step : Step s ε α) : Prop :=
  ∀ state, (Reader.input (step.result state).2).bounded = (Reader.input state).bounded ∧
    ((Reader.input state).left < count → ∃ after,
      step.result state = (.error (refuse (Reader.input state).left), after) ∧
        Reader.rest after = edit [] (Reader.rest state))

theorem beside_of_demands {shorts : ε → Prop} {count : Nat} {answer : Bytes → α} {edit : Bytes → ρ → ρ}
    {refuse : Nat → ε} (ha : Demands shorts count answer edit a) (hb : Demands shorts count answer edit b)
    (hx : Refuses count edit refuse a) (hy : Refuses count edit refuse b) :
    Beside (fun bytes => bytes.length = count) a b := by
  intro pair x y h hmode
  by_cases hle : count ≤ pair.bytes.length
  · refine (Meet.of_demands ha hb h hle (hx x).1 (hy y).1).mono ?_
    rintro _ _ ⟨-, rfl⟩
    exact hmode.imp id Eq.symm
  · have ht : pair.tight := hmode.resolve_right (by omega)
    obtain ⟨hone, hother⟩ := h.left_eq ht
    obtain ⟨x', hr, hrest⟩ := (hx x).2 (by omega)
    obtain ⟨y', hr', hrest'⟩ := (hy y).2 (by omega)
    rw [hone] at hr
    rw [hother] at hr'
    exact .inr ⟨_, x', y', hr, hr', by rw [hrest, hrest', h.rest_eq]⟩

end

-- ---------------------------------------------------------------------------
-- Inputs
-- ---------------------------------------------------------------------------

namespace Input

variable {σ τ : Type} [Source σ] [Source τ] {count : Nat}

theorem bounded_deliver (count : Nat) (input : Input σ) : (deliver count input).2.bounded = input.bounded := by
  unfold deliver
  split
  · rfl
  · dsimp only
    split <;> rfl

theorem refuses_read (count : Nat) :
    Refuses count (fun _ rest => rest) (.limitExceeded count)
      (read count : Step (Input σ) StreamError Bytes) := by
  intro input
  simp only [read, Step.result_ofRun, Reader.input_self]
  refine ⟨?_, fun hlt => ?_⟩
  · rw [← bounded_deliver count input]
    rcases deliver count input with ⟨⟨bytes, _ | failure⟩, after⟩ <;> rfl
  · rw [deliver, if_pos hlt]
    exact ⟨input, rfl, trivial⟩

theorem refuses_skip (count : Nat) :
    Refuses count (fun _ rest => rest) (.limitExceeded count)
      (skip count : Step (Input σ) StreamError Unit) := by
  intro input
  simp only [skip, Step.result_ofRun, Reader.input_self]
  refine ⟨?_, fun hlt => ?_⟩
  · split
    · rfl
    · rcases Source.skip input.source count with ⟨_ | skipped, after⟩ <;> rfl
  · rw [if_pos hlt]
    exact ⟨input, rfl, trivial⟩

variable [Supply σ] [Supply τ]

theorem beside_read (count : Nat) :
    Beside (fun bytes => bytes.length = count) (read count : Step (Input σ) StreamError Bytes)
      (read count : Step (Input τ) StreamError Bytes) :=
  beside_of_demands (demands_read count) (demands_read count) (refuses_read count) (refuses_read count)

theorem beside_skip (count : Nat) :
    Beside (fun bytes => bytes.length = count) (skip count : Step (Input σ) StreamError Unit)
      (skip count : Step (Input τ) StreamError Unit) :=
  beside_of_demands (demands_skip count) (demands_skip count) (refuses_skip count) (refuses_skip count)

theorem beside_readByte :
    Beside (fun bytes => bytes.length = 1) (readByte : Step (Input σ) StreamError UInt8)
      (readByte : Step (Input τ) StreamError UInt8) :=
  (beside_read 1).then fun _ => still_pure _

end Input

-- ---------------------------------------------------------------------------
-- Wire values
-- ---------------------------------------------------------------------------

namespace Wire

variable {σ τ : Type} [Source σ] [Supply σ] [Source τ] [Supply τ]

theorem twins_nextGroup : Twins (nextGroup : Read σ UInt8) (nextGroup : Read τ UInt8) :=
  (Input.beside_readByte.mapFailure _).twins

theorem twins_readGroups (places weight sum : Nat) :
    Twins (readGroups places weight sum : Read σ UInt64) (readGroups places weight sum : Read τ UInt64) := by
  induction places generalizing weight sum with
  | zero => exact fails_alike _
  | succ places ih =>
    refine twins_nextGroup.bind fun byte => beside_unless fun _ => ?_
    exact beside_ite (fun _ => (still_pure _).beside.twins) fun _ => ih _ _

theorem twins_readVarintFrom (first : UInt8) :
    Twins (readVarintFrom first : Read σ UInt64) (readVarintFrom first : Read τ UInt64) :=
  beside_ite (fun _ => (still_pure _).beside.twins) fun _ => twins_readGroups _ _ _

theorem twins_readVarint : Twins (readVarint : Read σ UInt64) (readVarint : Read τ UInt64) :=
  (Input.beside_readByte.mapFailure _).twins.bind twins_readVarintFrom

theorem twins_readVarint32 : Twins (readVarint32 : Read σ Nat) (readVarint32 : Read τ Nat) :=
  twins_readVarint.then fun _ => still_ite (still_pure _) (still_throw _)

theorem beside_readFixed32 :
    Beside (fun bytes => bytes.length = 4) (readFixed32 : Read σ UInt32) (readFixed32 : Read τ UInt32) :=
  ((Input.beside_read 4).mapFailure _).then fun _ => still_pure _

theorem beside_readFixed64 :
    Beside (fun bytes => bytes.length = 8) (readFixed64 : Read σ UInt64) (readFixed64 : Read τ UInt64) :=
  ((Input.beside_read 8).mapFailure _).then fun _ => still_pure _

theorem twins_skipGroups (places : Nat) :
    Twins (skipGroups places : Read σ Unit) (skipGroups places : Read τ Unit) := by
  induction places with
  | zero => exact fails_alike _
  | succ places ih =>
    exact twins_nextGroup.bind fun byte => beside_ite (fun _ => (still_pure _).beside.twins) fun _ => ih

theorem twins_skipVarint : Twins (skipVarint : Read σ Unit) (skipVarint : Read τ Unit) :=
  (Input.beside_readByte.mapFailure _).twins.bind fun _ =>
    beside_ite (fun _ => (still_pure _).beside.twins) fun _ => twins_skipGroups _

theorem twins_readLength : Twins (readLength : Read σ Nat) (readLength : Read τ Nat) := by
  refine twins_readVarint32.bind fun declared => twins_left fun x y hleft _ => ?_
  rw [Reader.input_self, Reader.input_self] at hleft
  rw [hleft]
  exact beside_unless fun _ => (still_pure _).beside.twins

theorem twins_skipField (type : WireType) :
    Twins (skipField type : Read σ Unit) (skipField type : Read τ Unit) := by
  unfold skipField
  cases type with
  | varint => exact twins_skipVarint
  | fixed32 => exact ((Input.beside_skip 4).mapFailure _).twins
  | fixed64 => exact ((Input.beside_skip 8).mapFailure _).twins
  | delimited => exact twins_readLength.bind fun length => ((Input.beside_skip length).mapFailure _).twins
  | startGroup | endGroup => exact fails_alike _

theorem twins_nextTag : Twins (nextTag : Read σ (Nat × WireType)) (nextTag : Read τ (Nat × WireType)) :=
  (Input.beside_readByte.mapFailure _).twins.bind fun first => (twins_readVarintFrom first).then
    fun _ => still_ite (still_ofExcept _) (still_throw _)

omit [Supply σ] in
theorem readTag_of_left_eq_zero {input : Input σ} (h : input.left = 0) :
    readTag.result input = (.ok none, input) := by
  have hpeek : (onStream Input.readByte? : Read σ _).result input = (.ok none, input) := by
    rw [onStream, Step.result_mapFailure, Input.readByte?, Step.result_ofRun, if_pos h]
    rfl
  rw [readTag, Step.result_bind_ok hpeek]
  rfl

theorem twins_readTag :
    Twins (readTag : Read σ (Option (Nat × WireType))) (readTag : Read τ (Option (Nat × WireType))) := by
  intro pair x y habreast ht
  obtain ⟨hone, hother⟩ := habreast.left_eq (ht.resolve_right id)
  rw [Reader.input_self] at hone hother
  rcases Nat.eq_zero_or_pos pair.bytes.length with hzero | hpos
  · exact .inl ⟨none, x, y, 0, readTag_of_left_eq_zero (hone.trans hzero),
      readTag_of_left_eq_zero (hother.trans hzero), ht.imp id False.elim, Nat.zero_le _, habreast⟩
  · have hnext : Twins (nextTag >>= fun tag => pure (some tag) : Read σ (Option (Nat × WireType)))
        (nextTag >>= fun tag => pure (some tag) : Read τ (Option (Nat × WireType))) :=
      twins_nextTag.then fun tag => still_pure (some tag)
    refine (hnext habreast ht).congr (result_readTag_next habreast.one_at ?_)
      (result_readTag_next habreast.other_at ?_) <;>
    · rw [List.length_append]
      omega

end Wire

end BlockCodec
