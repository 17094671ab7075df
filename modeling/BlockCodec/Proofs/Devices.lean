import BlockCodec.Stream.Sink

/-!
# What a device takes

A device is offered bytes until it has taken all of them or fails. Either way it has taken a front of
them, and it fails only with its own faults or because it stalls. A device that does neither takes all.
-/

namespace BlockCodec.Drain

variable {ε : Type}

theorem offer_error {stalled failure : ε} {fail : Fault → ε} {writes : List Acceptance}
    {accepted bytes : Bytes} (h : (offer stalled fail writes accepted bytes).1 = .error failure) :
    failure = stalled ∨ ∃ fault, failure = fail fault := by
  fun_induction offer stalled fail writes accepted bytes with
  | case1 => cases h
  | case2 => cases h
  | case3 _ _ _ _ ih => exact ih h
  | case4 fault =>
    cases h
    exact .inr ⟨_, rfl⟩
  | case5 =>
    cases h
    exact .inl rfl
  | case6 _ _ _ _ _ _ ih => exact ih h

/-- A device takes the front of what it is offered, and all of it unless it fails. -/
theorem offer_takes {stalled : ε} {fail : Fault → ε} {writes left : List Acceptance}
    {accepted bytes taken : Bytes} {outcome : Except ε Unit}
    (h : offer stalled fail writes accepted bytes = (outcome, left, taken)) :
    ∃ front rest, bytes = front ++ rest ∧ taken = accepted ++ front ∧ (outcome = .ok () ↔ rest = []) := by
  fun_induction offer stalled fail writes accepted bytes with
  | case1 writes accepted =>
    cases h
    exact ⟨[], [], rfl, (List.append_nil _).symm, iff_of_true rfl rfl⟩
  | case2 accepted bytes =>
    cases h
    exact ⟨bytes, [], (List.append_nil _).symm, rfl, iff_of_true rfl rfl⟩
  | case3 writes accepted bytes hbytes ih => exact ih h
  | case4 fault writes accepted bytes hbytes hne =>
    cases h
    exact ⟨[], bytes, rfl, (List.append_nil _).symm, iff_of_false nofun hbytes⟩
  | case5 writes accepted bytes hbytes =>
    cases h
    exact ⟨[], bytes, rfl, (List.append_nil _).symm, iff_of_false nofun hbytes⟩
  | case6 count writes accepted bytes hbytes hpos ih =>
    obtain ⟨front, rest, hsplit, htaken, hiff⟩ := ih h
    refine ⟨bytes.take count ++ front, rest, ?_, ?_, hiff⟩
    · rw [List.append_assoc, ← hsplit, List.take_append_drop]
    · rw [htaken, List.append_assoc]

theorem writeAll_takes {stalled : ε} {fail : Fault → ε} {drain after : Drain} {bytes : Bytes}
    {outcome : Except ε Unit} (h : drain.writeAll stalled fail bytes = (outcome, after)) :
    ∃ front rest, bytes = front ++ rest ∧ after.accepted = drain.accepted ++ front ∧
      (outcome = .ok () ↔ rest = []) := by
  rw [writeAll] at h
  rcases ho : offer stalled fail drain.writes drain.accepted bytes with ⟨outcome', writes, accepted⟩
  rw [ho] at h
  cases h
  exact offer_takes ho

/-- The device takes a part of what it is offered, or is interrupted and asked again. -/
def Answers (writes : List Acceptance) : Prop :=
  ∀ answer ∈ writes, answer = .fault .interrupted ∨ ∃ count, 0 < count ∧ answer = .upTo count

def Willing (drain : Drain) : Prop := Answers drain.writes

theorem offer_of_answers {stalled : ε} {fail : Fault → ε} {writes : List Acceptance}
    (h : Answers writes) (accepted bytes : Bytes) :
    ∃ left, Answers left ∧ offer stalled fail writes accepted bytes = (.ok (), left, accepted ++ bytes) := by
  fun_induction offer stalled fail writes accepted bytes with
  | case1 writes accepted => exact ⟨writes, h, by rw [List.append_nil]⟩
  | case2 accepted bytes => exact ⟨[], h, rfl⟩
  | case3 writes accepted bytes hbytes ih => exact ih (List.forall_mem_cons.mp h).2
  | case4 fault writes accepted bytes hbytes hne =>
    obtain hfault | ⟨count, hpos, heq⟩ := h (.fault fault) List.mem_cons_self
    · exact absurd (Acceptance.fault.inj hfault) (hne ·)
    · cases heq
  | case5 writes accepted bytes hbytes => simpa using h (.upTo 0) List.mem_cons_self
  | case6 count writes accepted bytes hbytes hpos ih =>
    obtain ⟨left, hleft, ho⟩ := ih (List.forall_mem_cons.mp h).2
    rw [List.append_assoc, List.take_append_drop] at ho
    exact ⟨left, hleft, ho⟩

/-- A willing device takes all, and is willing still. -/
theorem writeAll_of_willing {stalled : ε} {fail : Fault → ε} {drain : Drain} (h : drain.Willing)
    (bytes : Bytes) :
    ∃ after : Drain, after.Willing ∧ after.accepted = drain.accepted ++ bytes ∧
      drain.writeAll stalled fail bytes = (.ok (), after) := by
  obtain ⟨left, hleft, ho⟩ : ∃ left, Answers left ∧
      offer stalled fail drain.writes drain.accepted bytes = (.ok (), left, drain.accepted ++ bytes) :=
    offer_of_answers h drain.accepted bytes
  exact ⟨⟨left, drain.flushes, drain.accepted ++ bytes⟩, hleft, rfl, by rw [writeAll, ho]⟩

end BlockCodec.Drain
