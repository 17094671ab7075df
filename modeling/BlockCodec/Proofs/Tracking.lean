import BlockCodec.Message.Number
import BlockCodec.Proofs.Supplies

/-!
# A short run and a long one

The same step is run twice: on a short input, and on a long one that begins with the same bytes and
allows at least as many. As long as the short run goes well, the long one does the same. Where the
short run fails and the long one goes on, it was for want of bytes, and the long run takes more than
the short one could: `Tracks`. This composes along `bind`, so how far two runs agree is never a matter
of positions.
-/

namespace BlockCodec

/-- The states of steps that read: an input, and whatever else there is. -/
class Reader (s : Type) (σ ρ : outParam Type) where
  input : s → Input σ
  rest : s → ρ

instance {σ : Type} : Reader (Input σ) σ Unit := ⟨fun input => input, fun _ => ()⟩

@[simp] theorem Reader.input_self {σ : Type} (input : Input σ) : Reader.input input = input := rfl

/-- The input hands out `content` and no more, and this much is left and taken of its budget. -/
structure Input.At {σ : Type} [Source σ] [Supply σ] (input : Input σ) (content : Bytes)
    (left taken : Nat) : Prop where
  holds : Supply.Holds input.source content
  left_eq : input.left = left
  taken_eq : input.taken = taken

theorem Input.at_ofBytes (bytes : Bytes) : (Input.ofBytes bytes).At bytes bytes.length 0 :=
  ⟨rfl, rfl, rfl⟩

/-- Where two runs stand. The short input has `content` and may take `left` of it; the long one has
`more` behind that and `extra` on top, and it may have taken something before, `ahead`. -/
structure Cut where
  content : Bytes
  more : Bytes
  left : Nat
  extra : Nat
  taken : Nat
  ahead : Nat

namespace Cut

/-- What the short run can take. -/
def reach (cut : Cut) : Nat := min cut.left cut.content.length

/-- What the long run can take. -/
def far (cut : Cut) : Nat := min (cut.left + cut.extra) (cut.content ++ cut.more).length

/-- Behind `count` bytes that both runs have taken. -/
def drop (cut : Cut) (count : Nat) : Cut :=
  { cut with
    content := cut.content.drop count
    left := cut.left - count
    taken := cut.taken + count }

theorem reach_le_far (cut : Cut) : cut.reach ≤ cut.far := by
  simp only [reach, far, List.length_append]
  omega

@[simp] theorem drop_drop (cut : Cut) (count next : Nat) :
    (cut.drop count).drop next = cut.drop (count + next) := by
  simp [drop, Nat.sub_sub, Nat.add_assoc]

@[simp] theorem drop_zero (cut : Cut) : cut.drop 0 = cut := rfl

theorem reach_drop (cut : Cut) (count : Nat) : (cut.drop count).reach = cut.reach - count := by
  simp only [reach, drop, List.length_drop]
  omega

theorem far_drop {cut : Cut} {count : Nat} (h : count ≤ cut.reach) :
    (cut.drop count).far = cut.far - count := by
  simp only [reach, far, drop, List.length_drop, List.length_append] at h ⊢
  omega

end Cut

section

variable {s t σ τ ρ ε ε' α β : Type} [Source σ] [Supply σ] [Source τ] [Supply τ]
  [Reader s σ ρ] [Reader t τ ρ] {cut : Cut} {short : s} {long : t}

/-- The two runs stand at a cut and agree on everything but the input. -/
structure Related (cut : Cut) (short : s) (long : t) : Prop where
  short_at : (Reader.input short).At cut.content cut.left cut.taken
  long_at : (Reader.input long).At (cut.content ++ cut.more) (cut.left + cut.extra)
    (cut.taken + cut.ahead)
  rest_eq : Reader.rest short = Reader.rest long

/-- From here the long run answers as the short one does; where that fails, it fails as well or takes
more than the short one could, bytes that its answer only announces included. -/
def Mirrors (shorts : ε → Prop) (debt : α → Nat) (cut : Cut) (a : Step s ε α) (b : Step t ε α)
    (short : s) (long : t) : Prop :=
  a.Ends short
    (fun value after => b.Ends long
      (fun other last => value = other ∧ ∃ count ≤ cut.reach, Related (cut.drop count) after last)
      fun _ _ => False)
    fun failure _ => b.Ends long
      (fun value last => shorts failure ∧
        cut.taken + cut.ahead + cut.reach < (Reader.input last).taken + debt value)
      fun _ _ => True

/-- The long run mirrors the short one from every cut, and it takes at least `least` bytes. What an
answer announces, as a length does, is still to be taken: `debt`. -/
structure Owes (shorts : ε → Prop) (least : Nat) (debt : α → Nat) (a : Step s ε α)
    (b : Step t ε α) : Prop where
  advances : ∀ {state : t} {content : Bytes} {left taken : Nat},
    (Reader.input state).At content left taken →
      b.Ends state (fun _ after => ∃ count, least ≤ count ∧ count ≤ min left content.length ∧
        (Reader.input after).At (content.drop count) (left - count) (taken + count)) fun _ _ => True
  mirrors : ∀ {cut : Cut} {short : s} {long : t}, Related cut short long →
    Mirrors shorts debt cut a b short long

/-- The long run does what the short one does, unless that fails for want of bytes; then the long run
fails as well or takes more than the short one could. -/
abbrev Tracks (shorts : ε → Prop) (least : Nat) (a : Step s ε α) (b : Step t ε α) : Prop :=
  Owes shorts least (fun _ => 0) a b

variable {shorts : ε → Prop} {least fewer count : Nat} {debt : α → Nat} {owed : β → Nat}
  {a : Step s ε α} {b : Step t ε α} {next : α → Step s ε β} {next' : α → Step t ε β}

-- ---------------------------------------------------------------------------
-- Composition
-- ---------------------------------------------------------------------------

theorem Owes.weaken (h : Owes shorts least debt a b) (hl : fewer ≤ least) :
    Owes shorts fewer debt a b where
  advances hat := (h.advances hat).mono (fun _ _ ⟨count, hc, ht⟩ => ⟨count, hl.trans hc, ht⟩)
    fun _ _ h => h
  mirrors := h.mirrors

theorem Owes.mapFailure {restate : ε → ε'} {shorts' : ε' → Prop} (h : Owes shorts least debt a b)
    (hs : ∀ failure, shorts failure → shorts' (restate failure)) :
    Owes shorts' least debt (a.mapFailure restate) (b.mapFailure restate) where
  advances hat := Step.ends_mapFailure (h.advances hat)
  mirrors hrel := Step.ends_mapFailure ((h.mirrors hrel).mono
    (fun _ _ hb => Step.ends_mapFailure hb)
    fun _ _ hb => Step.ends_mapFailure
      (hb.mono (fun _ _ ⟨hshort, hlt⟩ => ⟨hs _ hshort, hlt⟩) fun _ _ h => h))

theorem tracks_pure (value : α) :
    Tracks shorts 0 (pure value : Step s ε α) (pure value : Step t ε α) where
  advances hat := Step.ends_pure ⟨0, Nat.le_refl 0, Nat.zero_le _, hat⟩
  mirrors hrel := Step.ends_pure (Step.ends_pure ⟨rfl, 0, Nat.zero_le _, hrel⟩)

theorem owes_throw (failure other : ε) :
    Owes shorts least debt (throw failure : Step s ε α) (throw other : Step t ε α) where
  advances _ := Step.ends_throw trivial
  mirrors _ := Step.ends_throw (Step.ends_throw trivial)

/-- What both runs have taken is taken from the cut. -/
theorem Mirrors.of_drop {short : s} {long : t} (hle : count ≤ cut.reach)
    (h : Mirrors shorts debt (cut.drop count) a b short long) :
    Mirrors shorts debt cut a b short long := by
  refine h.mono (fun value after hb => ?_) fun failure _ hb => ?_
  · refine hb.mono ?_ fun _ _ h => h
    rintro _ _ ⟨rfl, next, hle', hrel⟩
    rw [Cut.reach_drop] at hle'
    exact ⟨rfl, count + next, by omega, by rwa [Cut.drop_drop] at hrel⟩
  · refine hb.mono ?_ fun _ _ h => h
    rintro _ _ ⟨hshort, hlt⟩
    rw [Cut.reach_drop] at hlt
    simp only [Cut.drop] at hlt
    exact ⟨hshort, by omega⟩

/-- How the runs go on: from the next cut after an answer, and with the long run alone where only the
short one fails. -/
theorem Owes.follow (h : Owes shorts least debt a b) (hrel : Related cut short long) :
    a.Ends short
      (fun value after => ∃ last count, b.result long = (.ok value, last) ∧
        least ≤ count ∧ count ≤ cut.reach ∧ Related (cut.drop count) after last)
      fun failure _ => b.Ends long
        (fun value last => shorts failure ∧ ∃ count, least ≤ count ∧ cut.reach < count + debt value ∧
          count ≤ cut.far ∧ (Reader.input last).At ((cut.content ++ cut.more).drop count)
            (cut.left + cut.extra - count) (cut.taken + cut.ahead + count))
        fun _ _ => True := by
  have hadv := h.advances hrel.long_at
  refine (h.mirrors hrel).mono (fun value after hb => ?_) fun failure _ hb => ?_
  · obtain ⟨_, last, hr, rfl, count, hle, hnext⟩ := hb.answers
    obtain ⟨taken, hleast, -, hat⟩ := hadv.ok hr
    have hcount : cut.taken + count + cut.ahead = cut.taken + cut.ahead + taken :=
      hnext.long_at.taken_eq.symm.trans hat.taken_eq
    exact ⟨last, count, hr, by omega, hle, hnext⟩
  · refine (hb.and hadv).mono ?_ fun _ _ _ => trivial
    rintro value last ⟨⟨hshort, hlt⟩, count, hleast, hle, hat⟩
    rw [hat.taken_eq] at hlt
    exact ⟨hshort, count, hleast, by omega, hle, hat⟩

/-- What a run has taken would have been enough for it. -/
theorem Owes.alone (h : Tracks shorts least a b) {content : Bytes} {left taken : Nat} {value : α} {last : t}
    (hlong : (Reader.input long).At content left taken) (hcount : count ≤ min left content.length)
    (hshort : (Reader.input short).At (content.take count) count 0)
    (hrest : Reader.rest short = Reader.rest long) (hr : b.result long = (.ok value, last))
    (hlast : (Reader.input last).taken = taken + count) :
    ∃ after, a.result short = (.ok value, after) ∧ (Reader.input after).left = 0 ∧
      Reader.rest after = Reader.rest last := by
  have hlen : (content.take count).length = count := List.length_take_of_le (by omega)
  let cut : Cut := ⟨content.take count, content.drop count, count, left - count, 0, taken⟩
  have hreach : cut.reach = count := by simp only [cut, Cut.reach, hlen, Nat.min_self]
  have hrel : Related cut short long := by
    refine ⟨hshort, ?_, hrest⟩
    show (Reader.input long).At (content.take count ++ content.drop count) (count + (left - count)) (0 + taken)
    rwa [List.take_append_drop, Nat.add_sub_cancel' (by omega), Nat.zero_add]
  have hfollow := h.follow hrel
  rcases ha : a.result short with ⟨outcome, after⟩
  cases outcome with
  | error failure =>
    obtain ⟨-, more, -, hlt, -, hmore⟩ := (hfollow.error ha).ok hr
    have htaken : 0 + taken + more = taken + count := hmore.taken_eq.symm.trans hlast
    omega
  | ok other =>
    obtain ⟨last', more, hr', -, -, hnext⟩ := hfollow.ok ha
    obtain ⟨hvalue, rfl⟩ := Prod.mk.inj (hr.symm.trans hr')
    obtain rfl : value = other := Except.ok.inj hvalue
    have htaken : 0 + more + taken = taken + count := hnext.long_at.taken_eq.symm.trans hlast
    have hleft : (Reader.input after).left = count - more := hnext.short_at.left_eq
    exact ⟨after, rfl, by omega, hnext.rest_eq⟩

/-- Where a run is done with its bytes, it does the same with more behind them. -/
theorem Owes.behind (h : Tracks shorts least a b) {bytes more : Bytes} {left taken : Nat} {value : α}
    {after : s} (hshort : (Reader.input short).At bytes bytes.length 0)
    (hlong : (Reader.input long).At (bytes ++ more) left taken) (hle : bytes.length ≤ left)
    (hrest : Reader.rest short = Reader.rest long) (hr : a.result short = (.ok value, after))
    (hafter : (Reader.input after).left = 0) :
    least ≤ bytes.length ∧ ∃ last, b.result long = (.ok value, last) ∧
      (Reader.input last).At more (left - bytes.length) (taken + bytes.length) ∧
      Reader.rest last = Reader.rest after := by
  let cut : Cut := ⟨bytes, more, bytes.length, left - bytes.length, 0, taken⟩
  have hrel : Related cut short long := by
    refine ⟨hshort, ?_, hrest⟩
    show (Reader.input long).At (bytes ++ more) (bytes.length + (left - bytes.length)) (0 + taken)
    rwa [Nat.add_sub_cancel' hle, Nat.zero_add]
  obtain ⟨last, count, hlast, hleast, hcount, hnext⟩ := (h.follow hrel).ok hr
  have hleft : (Reader.input after).left = bytes.length - count := hnext.short_at.left_eq
  obtain rfl : count = bytes.length := by
    simp only [cut, Cut.reach, Nat.min_self] at hcount
    omega
  refine ⟨hleast, last, hlast, ?_, hnext.rest_eq.symm⟩
  simpa [cut, Cut.drop, Nat.add_comm] using hnext.long_at

/-- The runs go on side by side after an answer; after a failure the long run goes on alone, and it
still has to take what was announced. -/
theorem Owes.mirrors_bind (ha : Owes shorts least debt a b) (hrel : Related cut short long)
    (hn : ∀ value count after last, least ≤ count → count ≤ cut.reach →
      Related (cut.drop count) after last →
        Mirrors shorts owed (cut.drop count) (next value) (next' value) after last)
    (htakes : ∀ value count last, least ≤ count →
      (Reader.input last).At ((cut.content ++ cut.more).drop count) (cut.left + cut.extra - count)
        (cut.taken + cut.ahead + count) →
          (next' value).Ends last (fun result after => cut.taken + cut.ahead + count + debt value ≤
            (Reader.input after).taken + owed result) fun _ _ => True) :
    Mirrors shorts owed cut (a >>= next) (b >>= next') short long := by
  refine ((ha.follow hrel).mono (fun _ _ h => h) ?_).bind ?_
  · intro failure _ hb
    refine (hb.mono (fun _ _ h => h) fun _ _ _ => trivial).bind ?_
    rintro value last ⟨hshort, count, hleast, hlt, -, hat⟩
    refine (htakes value count last hleast hat).mono (fun _ _ htaken => ?_) fun _ _ h => h
    exact ⟨hshort, by omega⟩
  · rintro value middle ⟨last, count, hr, hleast, hle, hnext⟩
    refine ((hn value count middle last hleast hle hnext).of_drop hle).mono (fun _ _ h => ?_)
      fun _ _ h => ?_ <;>
      exact h.congr (Step.result_bind_ok hr)

/-- What follows takes at least what was announced. -/
theorem Owes.bind {rest : α → Nat} (ha : Owes shorts least debt a b)
    (hn : ∀ value, Owes shorts (rest value) owed (next value) (next' value))
    (hdebt : ∀ value, debt value ≤ rest value) (hfewer : ∀ value, fewer ≤ least + rest value) :
    Owes shorts fewer owed (a >>= next) (b >>= next') where
  advances {state content left taken} hat := by
    refine (ha.advances hat).bind ?_
    rintro value middle ⟨count, hleast, hle, hat⟩
    refine ((hn value).advances hat).mono ?_ fun _ _ h => h
    rintro _ after ⟨next, hrest, hle', hat⟩
    have := hfewer value
    rw [List.length_drop] at hle'
    refine ⟨count + next, by omega, by omega, ?_⟩
    rwa [List.drop_drop, Nat.sub_sub, Nat.add_assoc] at hat
  mirrors hrel := by
    refine ha.mirrors_bind hrel (fun value _ _ _ _ _ hnext => (hn value).mirrors hnext) ?_
    intro value count last _ hat
    refine ((hn value).advances hat).mono ?_ fun _ _ h => h
    rintro _ after ⟨next, hrest, -, hat'⟩
    have := hdebt value
    rw [hat'.taken_eq]
    omega

/-- The bytes that the rest takes count. -/
theorem Owes.then (ha : Tracks shorts least a b)
    (hn : ∀ value, Owes shorts fewer owed (next value) (next' value)) :
    Owes shorts fewer owed (a >>= next) (b >>= next') :=
  ha.bind hn (fun _ => Nat.zero_le _) fun _ => Nat.le_add_left _ _

/-- The bytes that the first step takes count. -/
theorem Owes.first (ha : Tracks shorts least a b)
    (hn : ∀ value, Owes shorts 0 owed (next value) (next' value)) :
    Owes shorts least owed (a >>= next) (b >>= next') :=
  ha.bind hn (fun _ => Nat.zero_le _) fun _ => Nat.le_add_right _ _

/-- What was announced is taken. -/
theorem Owes.pay (ha : Owes shorts least debt a b)
    (hn : ∀ value, Owes shorts (debt value) owed (next value) (next' value)) :
    Owes shorts 0 owed (a >>= next) (b >>= next') :=
  ha.bind hn (fun _ => Nat.le_refl _) fun _ => Nat.zero_le _

theorem owes_ite {c : Prop} [Decidable c] {no : Step s ε α} {no' : Step t ε α}
    (hy : c → Owes shorts least debt a b) (hn : ¬c → Owes shorts least debt no no') :
    Owes shorts least debt (if c then a else no) (if c then b else no') := by
  split
  · next h => exact hy h
  · next h => exact hn h

/-- A failure thrown in front of the rest of a step. -/
theorem owes_unless {c : Prop} [Decidable c] {failure other : ε} {next : Unit → Step s ε α}
    {next' : Unit → Step t ε α} (hn : ¬c → Owes shorts least debt (next ()) (next' ())) :
    Owes shorts least debt (if c then (throw failure : Step s ε Unit) >>= next else next ())
      (if c then (throw other : Step t ε Unit) >>= next' else next' ()) :=
  owes_ite (fun _ => ⟨fun _ => .of_error rfl trivial, fun _ => .of_error rfl (.of_error rfl trivial)⟩)
    hn

theorem tracks_ofExcept (outcome : Except ε α) :
    Tracks shorts 0 (Step.ofExcept outcome : Step s ε α) (Step.ofExcept outcome : Step t ε α) := by
  cases outcome with
  | ok value => exact tracks_pure value
  | error failure => exact owes_throw failure failure

-- ---------------------------------------------------------------------------
-- Steps that take a number of bytes
-- ---------------------------------------------------------------------------

/-- The step takes `count` bytes and makes its answer and a change of them, or lacks them. -/
def Demands (shorts : ε → Prop) (count : Nat) (answer : Bytes → α) (edit : Bytes → ρ → ρ)
    (step : Step s ε α) : Prop :=
  ∀ (state : s) (content : Bytes) (left taken : Nat), (Reader.input state).At content left taken →
    step.Ends state
      (fun value after => count ≤ min left content.length ∧ value = answer (content.take count) ∧
        (Reader.input after).At (content.drop count) (left - count) (taken + count) ∧
        Reader.rest after = edit (content.take count) (Reader.rest state))
      fun failure _ => min left content.length < count ∧ shorts failure

theorem tracks_of_demands {answer : Bytes → α} {edit : Bytes → ρ → ρ}
    (ha : Demands shorts count answer edit a) (hb : Demands shorts count answer edit b) :
    Tracks shorts count a b where
  advances hat := (hb _ _ _ _ hat).mono (fun _ _ ⟨hle, _, hat, _⟩ => ⟨count, Nat.le_refl _, hle, hat⟩)
    fun _ _ _ => trivial
  mirrors {cut short long} hrel := by
    refine (ha _ _ _ _ hrel.short_at).mono ?_ ?_
    · rintro _ after ⟨hle, rfl, hat, hrest⟩
      have hcontent : count ≤ cut.content.length := by omega
      refine (hb _ _ _ _ hrel.long_at).mono ?_ ?_
      · rintro _ last ⟨-, rfl, hat', hrest'⟩
        refine ⟨by rw [List.take_append_of_le_length hcontent], count, hle, hat, ?_, ?_⟩
        · rw [List.drop_append_of_le_length hcontent] at hat'
          simp only [Cut.drop]
          rwa [show cut.left - count + cut.extra = cut.left + cut.extra - count by omega,
            show cut.taken + count + cut.ahead = cut.taken + cut.ahead + count by omega]
        · rw [hrest, hrest', hrel.rest_eq, List.take_append_of_le_length hcontent]
      · rintro _ _ ⟨hlt, -⟩
        rw [List.length_append] at hlt
        omega
    · rintro failure _ ⟨hlt, hshort⟩
      refine (hb _ _ _ _ hrel.long_at).mono ?_ fun _ _ _ => trivial
      rintro _ last ⟨-, -, hat, -⟩
      rw [hat.taken_eq]
      exact ⟨hshort, by simp only [Cut.reach]; omega⟩

end

-- ---------------------------------------------------------------------------
-- Inputs
-- ---------------------------------------------------------------------------

namespace Input

variable {σ τ ε α : Type} [Source σ] [Supply σ] [Source τ] [Supply τ] {input : Input σ}
  {content : Bytes} {left taken count : Nat}

theorem At.deliver (h : input.At content left taken) (hle : count ≤ min left content.length) :
    ∃ after, deliver count input = (⟨content.take count, none⟩, after) ∧
      after.At (content.drop count) (left - count) (taken + count) := by
  obtain ⟨source, hgather, hholds⟩ := gather_of_holds count h.holds
  have hlen : (content.take count).length = count := List.length_take_of_le (by omega)
  refine ⟨({ input with source } : Input σ).charge count, ?_, hholds, ?_, ?_⟩
  · rw [Input.deliver, if_neg (by rw [h.left_eq]; omega)]
    simp only [hgather, hlen, Nat.lt_irrefl, if_false]
  · simp [charge, h.left_eq]
  · simp [charge, h.taken_eq]

theorem At.deliver_short (h : input.At content left taken) (hlt : min left content.length < count) :
    ∃ bytes failure after, Input.deliver count input = (⟨bytes, some failure⟩, after) := by
  rw [Input.deliver]
  split
  · exact ⟨_, _, _, rfl⟩
  · next hle =>
    rw [h.left_eq] at hle
    obtain ⟨source, hgather, -⟩ := gather_of_holds count h.holds
    have hlen : (content.take count).length < count := by
      rw [List.length_take]
      omega
    simp only [hgather, hlen, if_true]
    exact ⟨_, _, _, rfl⟩

theorem demands_read (count : Nat) :
    Demands (fun _ => True) count (fun bytes => bytes) (fun _ rest => rest)
      (read count : Step (Input σ) StreamError Bytes) := by
  intro input content left taken h
  rw [Reader.input_self] at h
  by_cases hle : count ≤ min left content.length
  · obtain ⟨after, hr, hat⟩ := h.deliver hle
    exact .of_ok (by rw [read, Step.result_ofRun, hr]) ⟨hle, rfl, hat, rfl⟩
  · obtain ⟨bytes, failure, after, hr⟩ := h.deliver_short (Nat.lt_of_not_le hle)
    exact .of_error (by rw [read, Step.result_ofRun, hr]) ⟨Nat.lt_of_not_le hle, trivial⟩

theorem demands_skip (count : Nat) :
    Demands (fun _ => True) count (fun _ => ()) (fun _ rest => rest)
      (skip count : Step (Input σ) StreamError Unit) := by
  intro input content left taken h
  rw [Reader.input_self] at h
  obtain ⟨source, hskip, hholds⟩ := Supply.skip_of_holds count h.holds
  unfold Step.Ends
  rw [skip, Step.result_ofRun, h.left_eq]
  by_cases hleft : left < count
  · rw [if_pos hleft]
    exact ⟨by omega, trivial⟩
  · rw [if_neg hleft]
    simp only [hskip]
    by_cases hlen : content.length < count
    · rw [if_pos (by omega)]
      exact ⟨by omega, trivial⟩
    · rw [if_neg (by omega), Nat.min_eq_left (by omega)]
      refine ⟨by omega, trivial, ⟨hholds, ?_, ?_⟩, trivial⟩
      · simp [charge]
      · simp [charge, h.taken_eq]

theorem tracks_read (count : Nat) :
    Tracks (fun _ => True) count (read count : Step (Input σ) StreamError Bytes)
      (read count : Step (Input τ) StreamError Bytes) :=
  tracks_of_demands (demands_read count) (demands_read count)

theorem tracks_skip (count : Nat) :
    Tracks (fun _ => True) count (skip count : Step (Input σ) StreamError Unit)
      (skip count : Step (Input τ) StreamError Unit) :=
  tracks_of_demands (demands_skip count) (demands_skip count)

theorem tracks_readByte :
    Tracks (fun _ => True) 1 (readByte : Step (Input σ) StreamError UInt8)
      (readByte : Step (Input τ) StreamError UInt8) :=
  (tracks_read 1).first fun _ => tracks_pure _

end Input

-- ---------------------------------------------------------------------------
-- Wire values
-- ---------------------------------------------------------------------------

/-- The failures that a want of bytes can cause. -/
def CodecError.IsShort (failure : CodecError) : Prop :=
  failure.errorClass ∈ [.io, .lengthMismatch, .malformedVarint, .missingRequiredField]

instance (failure : CodecError) : Decidable failure.IsShort :=
  inferInstanceAs (Decidable (_ ∈ _))

def WireError.IsShort (failure : WireError) : Prop := (CodecError.wire failure).IsShort

namespace Wire

variable {σ τ α : Type} [Source σ] [Supply σ] [Source τ] [Supply τ]

theorem isShort_stream (failure : StreamError) : (WireError.stream failure).IsShort := by
  simp [WireError.IsShort, CodecError.IsShort, CodecError.errorClass]

theorem isShort_malformedVarint : WireError.malformedVarint.IsShort := by
  simp [WireError.IsShort, CodecError.IsShort, CodecError.errorClass]

theorem tracks_onStream {least : Nat} {a : Step (Input σ) StreamError α}
    {b : Step (Input τ) StreamError α} (h : Tracks (fun _ => True) least a b) :
    Tracks WireError.IsShort least (onStream a) (onStream b) :=
  h.mapFailure fun failure _ => isShort_stream failure

theorem tracks_nextGroup :
    Tracks WireError.IsShort 1 (nextGroup : Read σ UInt8) (nextGroup : Read τ UInt8) :=
  Input.tracks_readByte.mapFailure fun _ _ => isShort_malformedVarint

theorem tracks_readGroups (places weight sum : Nat) :
    Tracks WireError.IsShort 0 (readGroups places weight sum : Read σ UInt64)
      (readGroups places weight sum : Read τ UInt64) := by
  induction places generalizing weight sum with
  | zero => exact owes_throw _ _
  | succ places ih =>
    unfold readGroups
    refine tracks_nextGroup.then fun byte => owes_unless fun _ => ?_
    exact owes_ite (fun _ => tracks_pure _) fun _ => ih _ _

theorem tracks_readVarintFrom (first : UInt8) :
    Tracks WireError.IsShort 0 (readVarintFrom first : Read σ UInt64)
      (readVarintFrom first : Read τ UInt64) :=
  owes_ite (fun _ => tracks_pure _) fun _ => tracks_readGroups _ _ _

theorem tracks_readVarint :
    Tracks WireError.IsShort 1 (readVarint : Read σ UInt64) (readVarint : Read τ UInt64) :=
  (tracks_onStream Input.tracks_readByte).first tracks_readVarintFrom

theorem tracks_readVarint32 :
    Tracks WireError.IsShort 1 (readVarint32 : Read σ Nat) (readVarint32 : Read τ Nat) :=
  tracks_readVarint.first fun _ => owes_ite (fun _ => tracks_pure _) fun _ => owes_throw _ _

theorem tracks_readZigZag :
    Tracks WireError.IsShort 1 (readZigZag : Read σ Int64) (readZigZag : Read τ Int64) :=
  tracks_readVarint.first fun _ => tracks_pure _

theorem tracks_skipGroups (places : Nat) :
    Tracks WireError.IsShort 0 (skipGroups places : Read σ Unit)
      (skipGroups places : Read τ Unit) := by
  induction places with
  | zero => exact owes_throw _ _
  | succ places ih =>
    unfold skipGroups
    exact tracks_nextGroup.then fun _ => owes_ite (fun _ => tracks_pure _) fun _ => ih

theorem tracks_skipVarint :
    Tracks WireError.IsShort 1 (skipVarint : Read σ Unit) (skipVarint : Read τ Unit) :=
  (tracks_onStream Input.tracks_readByte).first fun _ =>
    owes_ite (fun _ => tracks_pure _) fun _ => tracks_skipGroups _

theorem tracks_readFixed32 :
    Tracks WireError.IsShort 4 (readFixed32 : Read σ UInt32) (readFixed32 : Read τ UInt32) :=
  (tracks_onStream (Input.tracks_read 4)).first fun _ => tracks_pure _

theorem tracks_readFixed64 :
    Tracks WireError.IsShort 8 (readFixed64 : Read σ UInt64) (readFixed64 : Read τ UInt64) :=
  (tracks_onStream (Input.tracks_read 8)).first fun _ => tracks_pure _

theorem isShort_lengthMismatch (declared available : Nat) :
    (WireError.lengthMismatch declared available).IsShort := by
  simp [WireError.IsShort, CodecError.IsShort, CodecError.errorClass]

omit [Source σ] [Supply σ] in
/-- A declared length is checked against what the input has left. -/
theorem ends_declared {input : Input σ} {declared : Nat} {Q : Nat → Input σ → Prop}
    {E : WireError → Input σ → Prop}
    (hfits : declared ≤ input.left → Q declared input)
    (hexceeds : input.left < declared → E (.lengthMismatch declared input.left) input) :
    Step.Ends (do
      let input ← get
      if input.left < declared then throw (WireError.lengthMismatch declared input.left)
      pure declared : Read σ Nat) input Q E := by
  refine Step.Ends.bind (P := fun found after => found = input ∧ after = input)
    (Step.ends_get ⟨rfl, rfl⟩) ?_
  rintro _ _ ⟨rfl, rfl⟩
  exact Step.ends_unless hexceeds fun hle => Step.ends_pure (hfits (Nat.le_of_not_lt hle))

/-- A length that only the long input has room for announces more than the short one can take. -/
theorem owes_readLength :
    Owes WireError.IsShort 0 id (readLength : Read σ Nat) (readLength : Read τ Nat) := by
  unfold readLength
  refine tracks_readVarint32.then fun declared => ⟨fun {input content left taken} hat => ?_, ?_⟩
  · exact ends_declared (fun _ => ⟨0, Nat.le_refl 0, Nat.zero_le _, hat⟩) fun _ => trivial
  · intro cut short long hrel
    have hshort : short.left = cut.left := hrel.short_at.left_eq
    have hlong : long.left = cut.left + cut.extra := hrel.long_at.left_eq
    have htaken : long.taken = cut.taken + cut.ahead := hrel.long_at.taken_eq
    refine ends_declared (fun hle => ?_) fun hlt => ?_
    · exact ends_declared (fun _ => ⟨rfl, 0, Nat.zero_le _, hrel⟩) fun hexceeds => by omega
    · refine ends_declared (fun _ => ⟨isShort_lengthMismatch _ _, ?_⟩) fun _ => trivial
      simp only [Reader.input_self, Cut.reach, id_eq]
      omega

theorem tracks_skipField (type : WireType) :
    Tracks WireError.IsShort 0 (skipField type : Read σ Unit) (skipField type : Read τ Unit) := by
  unfold skipField
  cases type with
  | varint => exact tracks_skipVarint.weaken (Nat.zero_le _)
  | fixed32 => exact (tracks_onStream (Input.tracks_skip 4)).weaken (Nat.zero_le _)
  | fixed64 => exact (tracks_onStream (Input.tracks_skip 8)).weaken (Nat.zero_le _)
  | delimited => exact owes_readLength.pay fun length => tracks_onStream (Input.tracks_skip length)
  | startGroup => exact owes_throw _ _
  | endGroup => exact owes_throw _ _

/-- The next field header, when there is one. -/
def nextTag : Read σ (Nat × WireType) := do
  let first ← onStream Input.readByte
  let header ← readVarintFrom first
  if header.toNat < 0x100000000 then Step.ofExcept (splitTag header.toNat)
  else throw .malformedVarint

theorem tracks_nextTag :
    Tracks WireError.IsShort 1 (nextTag : Read σ (Nat × WireType))
      (nextTag : Read τ (Nat × WireType)) :=
  (tracks_onStream Input.tracks_readByte).first fun first => (tracks_readVarintFrom first).then
    fun _ => owes_ite (fun _ => tracks_ofExcept _) fun _ => owes_throw _ _

variable {input : Input σ} {content : Bytes} {left taken : Nat}

/-- Where nothing can be taken, a message ends. -/
theorem result_readTag_end (h : input.At content left taken) (hzero : min left content.length = 0) :
    ∃ after, readTag.result input = (.ok none, after) ∧ after.At content left taken := by
  have hend : ∀ after : Input σ, Input.readByte?.result input = (.ok none, after) →
      readTag.result input = (.ok none, after) := fun after hr => by
    have hpeek : (onStream Input.readByte? : Read σ _).result input = (.ok none, after) := by
      rw [onStream, Step.result_mapFailure, hr]
      rfl
    rw [readTag, Step.result_bind_ok hpeek]
    rfl
  by_cases hleft : left = 0
  · exact ⟨input, hend input (by rw [Input.readByte?, Step.result_ofRun, if_pos (h.left_eq ▸ hleft)]), h⟩
  · have hnil : content = [] := List.length_eq_zero_iff.mp (by omega)
    subst hnil
    obtain ⟨front, rest, after, hr, hsplit, hholds, -⟩ := Supply.read_of_holds h.holds Nat.one_pos
    obtain ⟨rfl, rfl⟩ : front = [] ∧ rest = [] := by simpa using hsplit.symm
    refine ⟨{ input with source := after }, hend _ ?_, hholds, h.left_eq, h.taken_eq⟩
    rw [Input.readByte?, Step.result_ofRun, if_neg (by rwa [h.left_eq]), hr]

/-- Where something can be taken, a field begins. -/
theorem result_readTag_next (h : input.At content left taken) (hpos : 0 < min left content.length) :
    readTag.result input = (nextTag >>= fun tag => pure (some tag)).result input := by
  obtain ⟨front, rest, source, hr, hsplit, -, hend⟩ := Supply.read_of_holds h.holds Nat.one_pos
  have hlen := Source.length_read_le hr
  obtain ⟨byte, rfl⟩ : ∃ byte, front = [byte] := by
    refine List.length_eq_one_iff.mp (Nat.le_antisymm hlen (List.length_pos_iff.mpr fun hnil => ?_))
    simp [hend hnil] at hpos
  have hleft : ¬input.left = 0 := by rw [h.left_eq]; omega
  have hgather : Input.gather input.source 1 = (⟨[byte], none⟩, source) := by
    rw [Input.gather, if_neg Nat.one_ne_zero, hr]
    simp only [List.length_nil, Nat.zero_add, Nat.sub_self]
    rw [Input.gather, if_pos rfl]
    rfl
  have hpeek : (onStream Input.readByte? : Read σ _).result input =
      (.ok (some byte), ({ input with source } : Input σ).charge 1) := by
    rw [onStream, Step.result_mapFailure, Input.readByte?, Step.result_ofRun, if_neg hleft, hr]
    rfl
  have hbyte : (onStream Input.readByte : Read σ _).result input =
      (.ok byte, ({ input with source } : Input σ).charge 1) := by
    rw [onStream, Step.result_mapFailure, Input.readByte, Input.read, Step.result_bind_ok]
    rotate_left
    · rw [Step.result_ofRun, Input.deliver, if_neg (by omega), hgather]
      rfl
    · rfl
  rw [readTag, nextTag, bind_assoc, Step.result_bind_ok hpeek, Step.result_bind_ok hbyte]
  simp only [bind_assoc]
  rcases hv : (readVarintFrom byte).result (({ input with source } : Input σ).charge 1) with
    ⟨outcome, after⟩
  cases outcome with
  | error failure => rw [Step.result_bind_error hv, Step.result_bind_error hv]
  | ok header =>
    rw [Step.result_bind_ok hv, Step.result_bind_ok hv]
    split <;> rfl

end Wire

end BlockCodec
