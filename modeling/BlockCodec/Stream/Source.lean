import BlockCodec.Bytes
import BlockCodec.Stream.Error

/-!
# Sources of bytes

A source hands out at most as many bytes as it is asked for; handing out none means that it
has ended. A byte string is a source, and so is a feed: the list of what a device will answer,
read either as it comes or with interruptions retried.
-/

namespace BlockCodec

namespace Source

/-- Bytes taken at a time when a source is skipped by reading. -/
def skipChunk : Nat := 64

/-- Discards up to `count` bytes by reading; answers how many were discarded. -/
def skipByReading {σ : Type} (read : σ → Nat → Except StreamError Bytes × σ)
    (source : σ) (count : Nat) : Except StreamError Nat × σ :=
  if count = 0 then (.ok 0, source)
  else
    match read source (min count skipChunk) with
    | (.error failure, source) => (.error failure, source)
    | (.ok [], source) => (.ok 0, source)
    | (.ok (byte :: rest), source) =>
      match skipByReading read source (count - (rest.length + 1)) with
      | (.error failure, source) => (.error failure, source)
      | (.ok skipped, source) => (.ok ((byte :: rest).length + skipped), source)
termination_by count
decreasing_by omega

theorem skipByReading_le {σ : Type} (read : σ → Nat → Except StreamError Bytes × σ)
    (hread : ∀ {source wanted bytes after},
      read source wanted = (.ok bytes, after) → bytes.length ≤ wanted)
    {source after : σ} {count skipped : Nat}
    (h : skipByReading read source count = (.ok skipped, after)) : skipped ≤ count := by
  fun_induction skipByReading read source count generalizing skipped after with
  | case1 => simp_all
  | case2 => simp_all
  | case3 =>
    cases h
    exact Nat.zero_le _
  | case4 => simp_all
  | case5 source count hcount byte rest source' hr skipped' source'' hs ih =>
    have hlen := hread hr
    have := ih hs
    simp only [Prod.mk.injEq, Except.ok.injEq] at h
    simp only [List.length_cons] at hlen h
    omega

end Source

class Source (σ : Type) where
  read : σ → Nat → Except StreamError Bytes × σ
  skip : σ → Nat → Except StreamError Nat × σ := Source.skipByReading read
  length_read_le : ∀ {source : σ} {wanted : Nat} {bytes : Bytes} {after : σ},
    read source wanted = (.ok bytes, after) → bytes.length ≤ wanted
  skip_le : ∀ {source : σ} {count skipped : Nat} {after : σ},
    skip source count = (.ok skipped, after) → skipped ≤ count

instance : Source Bytes where
  read bytes wanted := (.ok (bytes.take wanted), bytes.drop wanted)
  skip bytes count := (.ok (min count bytes.length), bytes.drop count)
  length_read_le h := by
    cases h
    exact List.length_take_le _ _
  skip_le h := by
    cases h
    exact Nat.min_le_left _ _

/-- One answer of a device to a call for bytes. -/
inductive Arrival
  | chunk (bytes : Bytes)
  | fault (fault : Fault)
deriving Repr, DecidableEq

/-- What a device will answer, call by call; after the last arrival it has ended. -/
abbrev Feed := List Arrival

namespace Feed

/-- One call: what a chunk holds beyond the bytes wanted stays for the next call. -/
def read (feed : Feed) (wanted : Nat) : Except Fault Bytes × Feed :=
  match feed with
  | [] => (.ok [], [])
  | .fault fault :: rest => (.error fault, rest)
  | .chunk bytes :: rest =>
    (.ok (bytes.take wanted),
      match bytes.drop wanted with
      | [] => rest
      | left => .chunk left :: rest)

/-- One call that is repeated for as long as the device is interrupted. -/
def readRetrying : Feed → Nat → Except Fault Bytes × Feed
  | .fault .interrupted :: rest, wanted => readRetrying rest wanted
  | feed, wanted => read feed wanted

theorem length_read_le {feed after : Feed} {wanted : Nat} {bytes : Bytes}
    (h : feed.read wanted = (.ok bytes, after)) : bytes.length ≤ wanted := by
  unfold read at h
  split at h
  · cases h
    exact Nat.zero_le _
  · cases h
  · cases h
    exact List.length_take_le _ _

theorem length_readRetrying_le {feed after : Feed} {wanted : Nat} {bytes : Bytes}
    (h : feed.readRetrying wanted = (.ok bytes, after)) : bytes.length ≤ wanted := by
  fun_induction readRetrying feed wanted with
  | case1 rest wanted ih => exact ih h
  | case2 => exact length_read_le h

/-- What a feed can still answer: its faults, its chunks and their bytes. -/
def size : Feed → Nat
  | [] => 0
  | .chunk bytes :: rest => bytes.length + 1 + size rest
  | .fault _ :: rest => 1 + size rest

/-- Every answer but the end of the data uses the feed up. -/
theorem size_read_lt {feed after : Feed} {wanted : Nat} {answer : Except Fault Bytes}
    (h : feed.read wanted = (answer, after)) (hend : answer ≠ .ok []) : size after < size feed := by
  unfold read at h
  split at h
  · simp_all
  · cases h
    simp [size]
  · next bytes rest =>
    cases h
    split
    · simp only [size]
      omega
    · have : wanted ≠ 0 ∧ bytes.length ≠ 0 := by
        constructor <;> intro hz <;> simp_all
      simp only [size, List.length_drop]
      omega

/-- The bytes of all chunks, in order. -/
def content : Feed → Bytes
  | [] => []
  | .chunk bytes :: rest => bytes ++ content rest
  | .fault _ :: rest => content rest

/-- The answer of a device as that of a source. -/
def asSource (answer : Except Fault Bytes × Feed) : Except StreamError Bytes × Feed :=
  (answer.1.mapError .device, answer.2)

theorem asSource_eq_ok {answer : Except Fault Bytes × Feed} {bytes : Bytes} {after : Feed}
    (h : asSource answer = (.ok bytes, after)) : answer = (.ok bytes, after) := by
  rcases answer with ⟨answer, rest⟩
  cases answer with
  | error fault => cases h
  | ok content =>
    cases h
    rfl

def pull (feed : Feed) (wanted : Nat) : Except StreamError Bytes × Feed :=
  asSource (feed.read wanted)

theorem length_pull_le {feed after : Feed} {wanted : Nat} {bytes : Bytes}
    (h : feed.pull wanted = (.ok bytes, after)) : bytes.length ≤ wanted :=
  length_read_le (asSource_eq_ok h)

end Feed

instance : Source Feed where
  read := Feed.pull
  skip := Source.skipByReading Feed.pull
  length_read_le := Feed.length_pull_le
  skip_le := Source.skipByReading_le Feed.pull Feed.length_pull_le

/-- A feed whose interruptions never show. -/
structure Patient where
  feed : Feed
deriving Repr, DecidableEq

namespace Patient

def pull (source : Patient) (wanted : Nat) : Except StreamError Bytes × Patient :=
  let (answer, rest) := Feed.asSource (source.feed.readRetrying wanted)
  (answer, ⟨rest⟩)

theorem length_pull_le {source after : Patient} {wanted : Nat} {bytes : Bytes}
    (h : source.pull wanted = (.ok bytes, after)) : bytes.length ≤ wanted := by
  obtain ⟨hanswer, -⟩ := Prod.mk.inj h
  exact Feed.length_readRetrying_le (Feed.asSource_eq_ok (Prod.ext hanswer rfl))

end Patient

instance : Source Patient where
  read := Patient.pull
  skip := Source.skipByReading Patient.pull
  length_read_le := Patient.length_pull_le
  skip_le := Source.skipByReading_le Patient.pull Patient.length_pull_le

end BlockCodec
