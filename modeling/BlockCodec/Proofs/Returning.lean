import BlockCodec.Proofs.Looks
import BlockCodec.Proofs.Reencoding

/-!
# Numbers that return

A number on the wire reads where it is decoded as it read before, zeros too: a required field and one
under a flag are on the wire whatever they hold. A field without a flag is on it only while its storage is
not zero, so a zero of it comes back as what initialisation leaves there, the default of the field.
`numbers_return` says so of all messages that are decoded from a block, `numbers_return_default` shows
a zero that does not return.
-/

namespace BlockCodec

variable {Ref : Type} {schema : Schema Ref} {ref last : Ref} {field : Field Ref} {levels : Nat}
  {block start after stored content : Bytes} {same : Ref → Bytes → Bytes → Prop}
  {ready : Ref → Bytes → Prop}

-- ---------------------------------------------------------------------------
-- Initial numbers
-- ---------------------------------------------------------------------------

namespace Field

/-- The number in storage that is zero. -/
def zeroScalar (field : Field Ref) : Scalar := field.kind.loadScalar (Bytes.zeros field.dataSize)

/-- The number in storage that has been initialised. -/
def initialScalar (field : Field Ref) : Scalar :=
  match field.default? with
  | some (.scalar number) =>
    field.kind.loadScalar (field.kind.storeScalar (Bytes.zeros field.dataSize) number)
  | _ => field.zeroScalar

theorem initialScalar_of_undefaulted (hd : field.default? = none) :
    field.initialScalar = field.zeroScalar := by
  rw [initialScalar, hd]

/-- Initialisation leaves the initial number. -/
theorem loadScalar_of_initial {nested : Ref → Edit Unit} {size : Nat} (h : field.Initial nested content)
    (hlaid : field.Laid schema size) (hm : field.multiplicity = .optional)
    (hk : field.kind.isScalar = true) : field.kind.loadScalar content = field.initialScalar := by
  simp only [Initial, hm] at h
  rw [storage_eq_data (by simp [hm]), hlaid.length_data] at h
  unfold fillInitial at h
  split at h
  · next inner hi => simp [hi, Kind.isScalar] at hk
  split at h
  · next hd =>
    obtain ⟨-, rfl⟩ := Prod.mk.inj h
    rw [initialScalar_of_undefaulted hd, zeroScalar]
  · next value hd =>
    obtain ⟨number, rfl⟩ : ∃ number, value = .scalar number := by
      rcases Default.fits_cases (hlaid.default_fits value hd) with ⟨number, hn, -⟩ | ⟨_, -, hi, -⟩ | ⟨_, -, hi, -⟩
      · exact ⟨number, hn⟩
      · simp [hi, Kind.isScalar] at hk
      · simp [hi, Kind.isScalar] at hk
    rw [Step.result_bind_ok (Step.result_get _), applyDefault_scalar hk] at h
    obtain ⟨-, rfl⟩ := Prod.mk.inj h
    simp only [initialScalar, hd]

end Field

-- ---------------------------------------------------------------------------
-- One message
-- ---------------------------------------------------------------------------

/-- What a number of the one view reads as in the other, where the message has been decoded. -/
structure View.Returns (view decoded : View Ref) (field : Field Ref) : Prop where
  shown : field.multiplicity = .required ∨ view.has field.tag = .ok true →
    ∃ value, view.get field.tag = .ok value ∧ decoded.get field.tag = .ok value
  hidden : field.multiplicity = .optional → field.sizeOffset = none → view.has field.tag = .ok false →
    view.get field.tag = .ok field.zeroScalar ∧ decoded.get field.tag = .ok field.initialScalar

namespace Schema

section

variable (hm : schema.Mirrors schema.Initialised ref block after) (hlaid : schema.Laid levels ref)
  (hf : field ∈ (schema ref).fields) (hh : field.isHandled = false)
  (hmult : field.multiplicity ≠ .repeated) (hk : field.kind.isScalar = true)

include hm hlaid hf hh hmult hk

/-- A number on the wire reads as before. -/
theorem Mirrors.get_of_present (hs : (schema ref).size ≤ block.length)
    (hp : field.isPresent block = .ok true) :
    ∃ value, View.get ⟨schema ref, block⟩ field.tag = .ok value ∧
      View.get ⟨schema ref, after⟩ field.tag = .ok value := by
  have hechoes := hm.echoes hf ⟨hh, hp⟩
  have hplace := Field.place_of_present hmult hp
  obtain ⟨stored, hst, -, hload⟩ := Encode.load_place (hlaid.here.laid field hf hh).toFits hs hplace.loosen
  obtain ⟨content, hcontent, hrepeats⟩ := hechoes.value _ _ hplace hst
  have hactive := Field.isActive_of_present hp
  have htags := hlaid.here.tags_ne
  refine ⟨field.kind.loadScalar stored, ?_, ?_⟩
  · rw [View.get_eq hf hh hmult htags hk, hactive, bind_ok, if_pos rfl, hload]
    rfl
  · rw [View.get_eq hf hh hmult htags hk, hechoes.isActive, hactive, bind_ok, if_pos rfl,
      Field.load_of_slice hcontent, bind_ok, ((Field.repeats_iff_scalar hk).mp hrepeats).1]
    rfl

variable (hd : schema.Throughout Table.Disjoint ref)

include hd

/-- A number without a flag that is not on the wire reads as initialised. -/
theorem Mirrors.get_of_absent (ho : field.multiplicity = .optional)
    (hp : field.isPresent block = .ok false) :
    View.get ⟨schema ref, after⟩ field.tag = .ok field.initialScalar := by
  obtain ⟨start, ⟨levels, before, hr⟩, hreads⟩ := mirrors_iff.mp hm
  have hsent : ¬field.Sent block := fun hsent => by simp [hsent.present] at hp
  have hagree : Bytes.AgreeOn field.extent start after := by
    rcases hreads.unsent hlaid.here hd.here hf hsent with ⟨hg, -⟩ | hagree
    · simp [Field.group?, ho] at hg
    · exact hagree
  cases levels with
  | zero => cases hr
  | succ levels =>
    obtain ⟨content, hcontent, hinitial⟩ := ((fresh_of_initialise hlaid hd hr hf hh).congr hh hagree).storage
    rw [Field.storage_eq_data hmult] at hcontent
    have hactive : field.isActive after = .ok true := by simp [Field.isActive, ho]
    rw [View.get_eq hf hh hmult hlaid.here.tags_ne hk, hactive, bind_ok, if_pos rfl,
      Field.load_of_slice hcontent, bind_ok,
      Field.loadScalar_of_initial hinitial (hlaid.here.laid field hf hh) ho hk]
    rfl

/-- What becomes of a number when its message is mirrored. -/
theorem Mirrors.returns (hs : (schema ref).size ≤ block.length) :
    View.Returns ⟨schema ref, block⟩ ⟨schema ref, after⟩ field := by
  have htags := hlaid.here.tags_ne
  constructor
  · intro hshown
    refine hm.get_of_present hlaid hf hh hmult hk hs ?_
    rw [View.has_of_inBlock htags hf hh] at hshown
    exact hshown.elim Field.isPresent_of_required id
  · intro hopt ho hp
    rw [View.has_of_inBlock htags hf hh] at hp
    refine ⟨?_, hm.get_of_absent hlaid hf hh hmult hk hd hopt hp⟩
    have hfield := hlaid.here.laid field hf hh
    have hplace : field.Place .loose block field.data := Field.loose_single (.inr hopt)
    obtain ⟨stored, hst, hlen, hload⟩ := Encode.load_place hfield.toFits hs hplace
    have hactive : field.isActive block = .ok true := by simp [Field.isActive, hopt]
    have hzero : stored = Bytes.zeros field.dataSize := by
      rw [Field.isPresent_of_storage hopt ho hst, Field.isNonzero_of_scalar hk, Except.ok.injEq,
        Bool.not_eq_false'] at hp
      rw [← hlen]
      exact Bytes.isZero_iff_eq_zeros.mp hp
    rw [View.get_eq hf hh hmult htags hk, hactive, bind_ok, if_pos rfl, hload, bind_ok, hzero]
    rfl

end

-- ---------------------------------------------------------------------------
-- Messages in messages
-- ---------------------------------------------------------------------------

/-- A message that is on the wire of the first block, and what lies in its place in the second. -/
inductive Beside (schema : Schema Ref) : Ref → Bytes → Bytes → Ref → Bytes → Bytes → Prop
  | refl (ref : Ref) (block after : Bytes) : Beside schema ref block after ref block after
  | inside {ref inner last : Ref} {block after stored content a b : Bytes} {field : Field Ref} {span : Span}
    (hf : field ∈ (schema ref).fields) (hk : field.kind = .message inner)
    (hsends : Decode.Sends field block span) (hs : block.slice? span = some stored)
    (hc : after.slice? span = some content) (h : Beside schema inner stored content last a b) :
    Beside schema ref block after last a b

/-- The messages in blocks that mirror each other do so too. -/
theorem Beside.mirrors (h : schema.Beside ref block after last stored content)
    (hm : schema.Mirrors ready ref block after) (hlaid : schema.Laid levels ref)
    (hu : schema.Throughout Table.Unhandled ref) (hs : (schema ref).size ≤ block.length) :
    schema.Below ref last ∧ (schema last).size ≤ stored.length ∧
      schema.Mirrors ready last stored content := by
  induction h generalizing levels with
  | refl => exact ⟨.refl _, hs, hm⟩
  | @inside ref inner last block after held echoed a b field span hf hk hsends hst hc _ ih =>
    have hh := hu.here field hf
    have hn := Table.mem_nested hf hh hk
    obtain ⟨_, hechoed, hrepeats⟩ := (hm.echoes hf ⟨hh, hsends.present⟩).value _ _ hsends.place hst
    obtain rfl := Option.some.inj (hc.symm.trans hechoed)
    simp only [Field.Repeats, hk] at hrepeats
    have hfield := hlaid.here.laid field hf hh
    have hsize : (schema inner).size ≤ held.length := Nat.le_of_eq
      ((hfield.length_place hsends.place hst).trans (hfield.dataSize_of_message hk)).symm
    cases levels with
    | zero => cases hlaid
    | succ levels =>
      obtain ⟨hb, hle, hmirrors⟩ := ih hrepeats (hlaid.nested hn) (hu.nested hn) hsize
      exact ⟨.step hn hb, hle, hmirrors⟩

end Schema

-- ---------------------------------------------------------------------------
-- Whole blocks
-- ---------------------------------------------------------------------------

/-- What was initialised and worked on through views has legible texts. -/
theorem legible_of_performed {actions : List Action} {initial : Bytes}
    (hlaid : schema.Laid (maxInitialDepth + 1) ref) (hd : schema.Throughout Table.Disjoint ref)
    (hu : schema.Throughout Table.Unhandled ref)
    (hinit : (schema.initialise ref).result start = (.ok (), initial))
    (hblock : ((performAll schema actions (schema ref)).result initial).2 = block) :
    (schema ref).size ≤ block.length ∧ schema.Holds .legible ref block := by
  have hsize := Schema.size_le_of_initialise hinit
  have hmoves := (performAll_obeys actions (⟨hlaid, Nat.le_refl _, nofun⟩ :
    schema.Plain .loose (maxInitialDepth + 1) ref) hsize nofun).moves
  rw [hblock] at hmoves
  exact ⟨by rwa [hmoves.length_eq], hmoves.legible_of_initialise hlaid hd hu hinit⟩

/-- Every number of a block comes back in the block that is decoded from what it is encoded to, and so
in all messages on the wire, but for a zero that nothing marks as present: where that was, there is
what an initialised block holds. -/
theorem numbers_return (hvalid : Table.validate schema ref = .ok ())
    (hbuilt : schema.Throughout Table.Built ref) (hu : schema.Throughout Table.Unhandled ref)
    (hd : schema.Throughout Table.Disjoint ref) {initial : Bytes} {actions : List Action}
    (hinit : (schema.initialise ref).result start = (.ok (), initial))
    (hblock : ((performAll schema actions (schema ref)).result initial).2 = block) {wire : Bytes}
    (hwire : encodeToBytes schema ref block = .ok wire) (hlen : wire.length < 2 ^ 32) {target : Bytes}
    (htarget : (schema ref).size ≤ target.length) :
    ∃ after, decodeBytes schema ref wire target = (.ok (), after) ∧
      ∀ inner stored content, schema.Beside ref block after inner stored content →
        ∀ field ∈ (schema inner).fields, field.multiplicity ≠ .repeated → field.kind.isScalar = true →
          View.Returns ⟨schema inner, stored⟩ ⟨schema inner, content⟩ field := by
  have hlaid := Schema.laid_of_validate hvalid hbuilt
  obtain ⟨hs, hlegible⟩ := legible_of_performed hlaid hd hu hinit hblock
  obtain ⟨after, hafter, hm⟩ := decodeBytes_mirrors hlaid hd hu hs hlegible hwire hlen htarget
  refine ⟨after, hafter, fun inner stored content hb field hf hmult hk => ?_⟩
  obtain ⟨hbelow, hle, hmirrors⟩ := hb.mirrors hm hlaid hu hs
  exact hmirrors.returns (hlaid.of_below hbelow) hf ((hu.of_below hbelow).here field hf) hmult hk
    (hd.of_below hbelow) hle

/-- Three numbers with defaults: required, under a flag, and without one. -/
def dial : Schema Unit := fun _ =>
  ⟨"Dial", [(Field.ofStorage 1 "level" (.varint ⟨.w32, false⟩) 0 4).withDefault (.scalar (.unsigned 9)),
    ((Field.ofStorage 2 "offset" (.zigZag .w32) 4 4).optional 12).withDefault (.scalar (.signed 5)),
    (Field.ofStorage 3 "step" (.varint ⟨.w32, false⟩) 8 4).implicit.withDefault (.scalar (.unsigned 7))], 13⟩

theorem dial_built : dial.Throughout Table.Built () := by
  refine Schema.throughout_of_forall (fun _ field hf => ?_) ()
  simp only [dial, List.mem_cons, List.not_mem_nil, or_false] at hf
  rcases hf with rfl | rfl | rfl
  · exact .withDefault _ (.ofStorage ..)
  · exact .withDefault _ (.optional _ (.ofStorage ..))
  · exact .withDefault _ (.implicit (.ofStorage ..))

theorem dial_unhandled : dial.Throughout Table.Unhandled () :=
  Schema.throughout_of_forall (fun () => by decide) ()

theorem dial_disjoint : dial.Throughout Table.Disjoint () :=
  Schema.throughout_of_forall (fun () => by decide) ()

/-- A dial that is set to zero as far as it goes on the wire. -/
theorem numbers_return_dial :
    Table.validate dial () = .ok () ∧ dial.Throughout Table.Built () ∧ dial.Throughout Table.Unhandled () ∧
    dial.Throughout Table.Disjoint () ∧
    (dial.initialise ()).result (Bytes.zeros 13) =
      (.ok (), [9, 0, 0, 0, 5, 0, 0, 0, 7, 0, 0, 0, 0]) ∧
    ((performAll dial [.set 1 (.unsigned 0), .set 2 (.signed 0)] (dial ())).result
      [9, 0, 0, 0, 5, 0, 0, 0, 7, 0, 0, 0, 0]).2 = [0, 0, 0, 0, 0, 0, 0, 0, 7, 0, 0, 0, 1] ∧
    encodeToBytes dial () [0, 0, 0, 0, 0, 0, 0, 0, 7, 0, 0, 0, 1] = .ok [8, 0, 16, 0, 24, 7] ∧
    ∃ after, decodeBytes dial () [8, 0, 16, 0, 24, 7] (Bytes.zeros 13) = (.ok (), after) ∧
      ∀ field ∈ (dial ()).fields,
        View.Returns ⟨dial (), [0, 0, 0, 0, 0, 0, 0, 0, 7, 0, 0, 0, 1]⟩ ⟨dial (), after⟩ field := by
  have hvalid : Table.validate dial () = .ok () := rfl
  have hinit : (dial.initialise ()).result (Bytes.zeros 13) =
      (.ok (), [9, 0, 0, 0, 5, 0, 0, 0, 7, 0, 0, 0, 0]) := by cbv
  have hblock : ((performAll dial [.set 1 (.unsigned 0), .set 2 (.signed 0)] (dial ())).result
      [9, 0, 0, 0, 5, 0, 0, 0, 7, 0, 0, 0, 0]).2 = [0, 0, 0, 0, 0, 0, 0, 0, 7, 0, 0, 0, 1] := by cbv
  have hwire : encodeToBytes dial () [0, 0, 0, 0, 0, 0, 0, 0, 7, 0, 0, 0, 1] =
      .ok [8, 0, 16, 0, 24, 7] := by cbv
  have hkinds : ∀ field ∈ (dial ()).fields,
      field.multiplicity ≠ .repeated ∧ field.kind.isScalar = true := by decide
  obtain ⟨after, hafter, hreturns⟩ := numbers_return hvalid dial_built dial_unhandled dial_disjoint hinit
    hblock hwire (show 6 < 2 ^ 32 by omega) (Nat.le_of_eq (Bytes.length_zeros 13).symm)
  exact ⟨hvalid, dial_built, dial_unhandled, dial_disjoint, hinit, hblock, hwire, after, hafter,
    fun field hf => hreturns () _ _ (.refl ..) field hf (hkinds field hf).1 (hkinds field hf).2⟩

/-- The field without a flag is set to zero, and the decoder finds its default instead. -/
theorem numbers_return_default :
    Table.validate dial () = .ok () ∧ dial.Throughout Table.Built () ∧ dial.Throughout Table.Unhandled () ∧
    dial.Throughout Table.Disjoint () ∧
    (dial.initialise ()).result (Bytes.zeros 13) =
      (.ok (), [9, 0, 0, 0, 5, 0, 0, 0, 7, 0, 0, 0, 0]) ∧
    (Update.set dial (dial ()) 3 (.unsigned 0)).result [9, 0, 0, 0, 5, 0, 0, 0, 7, 0, 0, 0, 0] =
      (.ok (), [9, 0, 0, 0, 5, 0, 0, 0, 0, 0, 0, 0, 0]) ∧
    encodeToBytes dial () [9, 0, 0, 0, 5, 0, 0, 0, 0, 0, 0, 0, 0] = .ok [8, 9] ∧
    decodeBytes dial () [8, 9] (Bytes.zeros 13) = (.ok (), [9, 0, 0, 0, 5, 0, 0, 0, 7, 0, 0, 0, 0]) ∧
    View.get ⟨dial (), [9, 0, 0, 0, 5, 0, 0, 0, 0, 0, 0, 0, 0]⟩ 3 = .ok (.unsigned 0) ∧
    View.get ⟨dial (), [9, 0, 0, 0, 5, 0, 0, 0, 7, 0, 0, 0, 0]⟩ 3 = .ok (.unsigned 7) :=
  ⟨rfl, dial_built, dial_unhandled, dial_disjoint, by cbv, by cbv, by cbv, by cbv, by cbv, by cbv⟩

end BlockCodec
