import BlockCodec.Proofs.WireForm

/-!
# Messages piece by piece

What the encoder does in a message is laid down in the table and the block before it begins: bytes to
write, messages to put in, handlers to run, and where it gives up. `Schema.pieces` lists this, and
`Encode.messageWithin_eq` says that encoding a message is performing its pieces in order, on whatever
output. So a run can be cut at any piece.
-/

namespace BlockCodec

variable {κ S Ref α β : Type}

-- ---------------------------------------------------------------------------
-- Pieces
-- ---------------------------------------------------------------------------

/-- One write, or the end. -/
inductive Chunk
  | bytes (content : Bytes)
  | failure (reason : CodecError)
deriving Repr, DecidableEq

inductive Piece (Ref : Type)
  | chunk (chunk : Chunk)
  /-- A message behind its length. -/
  | message (label : String) (ref : Ref) (block : Bytes)
  /-- All that the handler at a slot writes for a field. -/
  | handler (field : Field Ref) (slot : Nat)
deriving Repr, DecidableEq

namespace Chunk

def perform [Sink κ] : Chunk → Step (Output κ) CodecError Unit
  | .bytes content => (Wire.write content).mapFailure .wire
  | .failure reason => throw reason

/-- The bytes of all chunks together. -/
def total : List Chunk → Except CodecError Nat
  | [] => .ok 0
  | .bytes content :: rest => (total rest).map (content.length + ·)
  | .failure reason :: _ => .error reason

end Chunk

/-- What comes of something looked up in the block, or the end. -/
def Piece.look (outcome : Except CodecError α) (pieces : α → List (Piece Ref)) : List (Piece Ref) :=
  match outcome with
  | .ok value => pieces value
  | .error reason => [.chunk (.failure reason)]

namespace Field

def tagChunk (type : WireType) (tag : Nat) : Chunk :=
  if tag = 0 ∨ Wire.maxFieldNumber < tag then .failure (.wire (.invalidFieldNumber tag))
  else .bytes (Wire.headerForm type tag)

def scalarChunk (field : Field Ref) (value : Scalar) : Chunk :=
  if field.kind.isScalar then .bytes (field.scalarForm value) else .failure field.notNumeric

/-- The length of the bytes, then the bytes. -/
def delimitedChunks (content : Bytes) : List Chunk :=
  [.bytes (Varint.encode (UInt64.ofNat content.length)), .bytes content]

def valuePieces (field : Field Ref) (stored : Bytes) : List (Piece Ref) :=
  match field.kind with
  | .text => Piece.look (field.textBytes stored) fun text =>
    (tagChunk .delimited field.tag :: delimitedChunks text).map .chunk
  | .bytes => Piece.look (field.payload stored) fun payload =>
    (tagChunk .delimited field.tag :: delimitedChunks payload).map .chunk
  | .message ref => [.chunk (tagChunk .delimited field.tag), .message field.name ref stored]
  | kind => [tagChunk kind.wireType field.tag, field.scalarChunk (kind.loadScalar stored)].map .chunk

/-- What comes of the elements from `index` on, one behind the other. -/
def elementsOf (fail : CodecError → α) (form : Bytes → List α) (field : Field Ref) (block : Bytes)
    (index : Nat) : Nat → List α
  | 0 => []
  | left + 1 =>
    match field.load (field.element index) block with
    | .error reason => [fail reason]
    | .ok stored => form stored ++ elementsOf fail form field block (index + 1) left

def numberChunks (field : Field Ref) (block : Bytes) (index count : Nat) : List Chunk :=
  field.elementsOf .failure (fun stored => [field.scalarChunk (field.kind.loadScalar stored)]) block index count

def packedPieces (field : Field Ref) (block : Bytes) (count : Nat) : List (Piece Ref) :=
  let numbers := field.numberChunks block 0 count
  let total := match field.kind.wireLength? with
    | some width => .ok (width * count)
    | none => Chunk.total numbers
  Piece.look total fun length =>
    (tagChunk .delimited field.tag :: .bytes (Varint.encode (UInt64.ofNat length)) :: numbers).map .chunk

def arrayPieces (field : Field Ref) (block : Bytes) : List (Piece Ref) :=
  Piece.look (field.slot block) fun count =>
    if count = 0 then []
    else if field.capacity < count then [.chunk (.failure (.arrayFull field.name field.capacity))]
    else if field.packed ∧ field.kind.isScalar then field.packedPieces block count
    else field.elementsOf (.chunk ∘ .failure) field.valuePieces block 0 count

def storedPieces (field : Field Ref) (block : Bytes) : List (Piece Ref) :=
  match field.multiplicity with
  | .repeated => field.arrayPieces block
  | _ => Piece.look (field.isPresent block) fun present =>
    if present then Piece.look (field.load field.data block) field.valuePieces else []

def handledPieces (field : Field Ref) (block : Bytes) : List (Piece Ref) :=
  Piece.look (field.handlerSlot block) fun slot => if slot = 0 then [] else [.handler field slot]

def pieces (field : Field Ref) (block : Bytes) : List (Piece Ref) :=
  if field.isHandled then field.handledPieces block else field.storedPieces block

end Field

/-- The pieces of a message. -/
def Schema.pieces (schema : Schema Ref) (config : EncodeConfig) : Nat → Ref → Bytes → List (Piece Ref)
  | 0, _, _ => [.chunk (.failure (.messageTooDeep config.maxDepth))]
  | _ + 1, ref, block => Piece.look ((schema ref).checkBlock block) fun _ =>
    (schema ref).fields.flatMap fun field => field.pieces block

-- ---------------------------------------------------------------------------
-- Steps of an encoder on its output
-- ---------------------------------------------------------------------------

namespace Encode

theorem onOutput_bind (step : Step (Output κ) CodecError α) (next : α → Step (Output κ) CodecError β) :
    (onOutput (step >>= next) : Encode κ S β) = onOutput step >>= fun value => onOutput (next value) := by
  funext state
  show (onOutput (step >>= next)).result state =
    (onOutput step >>= fun value => onOutput (next value)).result state
  rw [onOutput, Step.result_onPart, Step.result_bind, Step.result_bind, onOutput, Step.result_onPart]
  rcases step.result state.output with ⟨_ | _, _⟩ <;> rfl

theorem onOutput_ofExcept (outcome : Except CodecError α) :
    (onOutput (Step.ofExcept outcome) : Encode κ S α) = Step.ofExcept outcome := rfl

variable [Sink κ]

theorem onOutput_chunks (chunks : List Chunk) :
    (onOutput (forM chunks Chunk.perform) : Encode κ S Unit) =
      forM chunks fun chunk => onOutput chunk.perform := by
  induction chunks with
  | nil => rfl
  | cons chunk chunks ih => rw [List.forM_cons, onOutput_bind, ih, List.forM_cons]

end Encode

namespace Chunk

variable [Sink κ]

/-- Chunks are counted up to the first one that is none. -/
theorem result_sizing {output : Output κ} (hs : output.sink = none) (chunks : List Chunk) :
    ((forM chunks perform).result output).1 = (total chunks).map (fun _ => ()) ∧
      ∀ size, total chunks = .ok size → ((forM chunks perform).result output).2 = output.charge size := by
  induction chunks generalizing output with
  | nil =>
    refine ⟨rfl, fun size h => ?_⟩
    cases h
    rfl
  | cons chunk chunks ih =>
    cases chunk with
    | failure reason => exact ⟨rfl, nofun⟩
    | bytes content =>
      have hwrite : (perform (.bytes content)).result output = (.ok (), output.charge content.length) := by
        simp [perform, Wire.write, Output.write, hs, Except.mapError]
      have hcharged : (output.charge content.length).sink = none := hs
      obtain ⟨houtcome, hafter⟩ := ih hcharged
      rw [List.forM_cons, Step.result_bind_ok hwrite, houtcome, total]
      refine ⟨by cases total chunks <;> rfl, fun size h => ?_⟩
      cases ht : total chunks with
      | error reason =>
        rw [ht] at h
        cases h
      | ok rest =>
        rw [ht] at h
        cases h
        rw [hafter rest ht]
        simp [Output.charge, Nat.add_assoc]

theorem measure_eq (chunks : List Chunk) :
    (Output.measure (forM chunks perform) : Step (Output κ) CodecError Nat) = Step.ofExcept (total chunks) := by
  funext output
  have hs : (Output.sizing : Output κ).sink = none := rfl
  obtain ⟨houtcome, hafter⟩ := result_sizing hs chunks
  show (Output.measure (forM chunks perform)).result output = (total chunks, output)
  simp only [Output.measure, Step.result_ofRun, houtcome]
  cases ht : total chunks with
  | error reason => rfl
  | ok size =>
    rw [hafter size ht]
    simp [Except.map, Output.charge, Output.sizing]

end Chunk

-- ---------------------------------------------------------------------------
-- Performing the pieces
-- ---------------------------------------------------------------------------

section

variable [Sink κ]

theorem Field.writeScalar_eq (field : Field Ref) (value : Scalar) :
    (field.writeScalar value : Step (Output κ) CodecError Unit) = (field.scalarChunk value).perform := by
  unfold writeScalar scalarChunk scalarForm
  generalize field.kind = kind
  cases kind with
  | fixed type =>
    obtain ⟨width, signed⟩ := type
    cases width <;> rfl
  | float width => cases width <;> rfl
  | _ => rfl

theorem Encode.packedElements_eq (field : Field Ref) (block : Bytes) (index left : Nat) :
    (packedElements field block index left : Step (Output κ) CodecError Unit) =
      forM (field.numberChunks block index left) Chunk.perform := by
  induction left generalizing index with
  | zero => rfl
  | succ left ih =>
    rw [packedElements, Field.numberChunks, Field.elementsOf]
    cases field.load (field.element index) block with
    | error reason => rfl
    | ok stored =>
      simp only [Step.ofExcept_ok, pure_bind, List.forM_append, Field.writeScalar_eq, ih, Field.numberChunks]
      simp

/-- Performing a piece, with the levels of nesting left for a message. -/
def Piece.perform [Handler Ref S] (schema : Schema Ref) (config : EncodeConfig) (levels : Nat) :
    Piece Ref → Encode κ S Unit
  | .chunk part => Encode.onOutput part.perform
  | .message label ref block => Encode.sized label (Encode.messageWithin schema config levels ref block)
  | .handler field slot =>
    Encode.withHandler field slot
      (Handler.writeElements { field, config, depth := config.maxDepth - levels })

namespace Encode

variable [Handler Ref S] {schema : Schema Ref} {config : EncodeConfig} {levels : Nat}

theorem look_eq (outcome : Except CodecError α) {pieces : α → List (Piece Ref)}
    {next : α → Encode κ S Unit}
    (h : ∀ value, next value = forM (pieces value) (Piece.perform schema config levels)) :
    Step.ofExcept outcome >>= next =
      forM (Piece.look outcome pieces) (Piece.perform schema config levels) := by
  cases outcome with
  | error reason => rfl
  | ok value => exact h value

theorem chunks_eq (chunks : List Chunk) :
    (forM (chunks.map .chunk) (Piece.perform schema config levels) : Encode κ S Unit) =
      onOutput (forM chunks Chunk.perform) := by
  rw [onOutput_chunks]
  induction chunks with
  | nil => rfl
  | cons chunk chunks ih => rw [List.map_cons, List.forM_cons, List.forM_cons, ih]; rfl

theorem writeTag_eq (type : WireType) (tag : Nat) :
    (onWire (Wire.writeTag type tag) : Encode κ S Unit) = onOutput (Field.tagChunk type tag).perform := by
  unfold Wire.writeTag Field.tagChunk
  split <;> rfl

/-- A value behind its header, without a message in it. -/
theorem headed_eq (type : WireType) (tag : Nat) (chunks : List Chunk) {next : Encode κ S Unit}
    (h : next = onOutput (forM chunks Chunk.perform)) :
    (do onWire (Wire.writeTag type tag); next) =
      forM ((Field.tagChunk type tag :: chunks).map .chunk) (Piece.perform schema config levels) := by
  rw [chunks_eq, List.forM_cons, onOutput_bind, writeTag_eq, h]

theorem writeDelimited_eq (content : Bytes) :
    (onWire (Wire.writeDelimited content) : Encode κ S Unit) =
      onOutput (forM (Field.delimitedChunks content) Chunk.perform) := by
  rw [onWire, Wire.writeDelimited, Step.mapFailure_bind]
  simp [Field.delimitedChunks]
  rfl

theorem value_eq (field : Field Ref) (stored : Bytes) :
    (value (messageWithin schema config levels) field stored : Encode κ S Unit) =
      forM (field.valuePieces stored) (Piece.perform schema config levels) := by
  unfold value Field.valuePieces
  cases field.kind with
  | text => exact look_eq _ fun text => headed_eq _ _ _ (writeDelimited_eq text)
  | bytes => exact look_eq _ fun payload => headed_eq _ _ _ (writeDelimited_eq payload)
  | message ref =>
    rw [List.forM_cons, writeTag_eq]
    simp
    rfl
  | _ =>
    refine headed_eq _ _ [_] ?_
    rw [number, Field.writeScalar_eq]
    simp

theorem elements_eq (field : Field Ref) (block : Bytes) (index left : Nat) :
    (elements (messageWithin schema config levels) field block index left : Encode κ S Unit) =
      forM (field.elementsOf (.chunk ∘ .failure) field.valuePieces block index left)
        (Piece.perform schema config levels) := by
  induction left generalizing index with
  | zero => rfl
  | succ left ih =>
    rw [elements, Field.elementsOf]
    cases field.load (field.element index) block with
    | error reason => rfl
    | ok stored =>
      simp only [Step.ofExcept_ok, pure_bind, List.forM_append, value_eq, ih]

theorem packed_eq (field : Field Ref) (block : Bytes) (count : Nat) :
    (onOutput (field.writePacked count (packedElements field block 0 count)) : Encode κ S Unit) =
      forM (field.packedPieces block count) (Piece.perform schema config levels) := by
  have hlength : (field.packedLength count (packedElements field block 0 count) :
      Step (Output κ) CodecError Nat) =
        Step.ofExcept (match field.kind.wireLength? with
          | some width => .ok (width * count)
          | none => Chunk.total (field.numberChunks block 0 count)) := by
    rw [Field.packedLength, packedElements_eq]
    cases field.kind.wireLength? with
    | some width => rfl
    | none => exact Chunk.measure_eq _
  rw [Field.writePacked, onOutput_bind, hlength, onOutput_ofExcept]
  refine look_eq _ fun length => ?_
  rw [← headed_eq _ _ _ rfl, onOutput_bind, List.forM_cons, ← packedElements_eq]
  rfl

theorem array_eq (field : Field Ref) (block : Bytes) :
    (array (messageWithin schema config levels) field block : Encode κ S Unit) =
      forM (field.arrayPieces block) (Piece.perform schema config levels) := by
  refine look_eq _ fun count => ?_
  split
  · rfl
  · split
    · rfl
    · split
      · exact packed_eq field block count
      · exact elements_eq field block 0 count

theorem stored_eq (field : Field Ref) (block : Bytes) :
    (stored (messageWithin schema config levels) field block : Encode κ S Unit) =
      forM (field.storedPieces block) (Piece.perform schema config levels) := by
  have hsingle : (do
      let present ← Step.ofExcept (field.isPresent block)
      if present then
        let stored ← Step.ofExcept (field.load field.data block)
        value (messageWithin schema config levels) field stored : Encode κ S Unit) =
      forM (Piece.look (field.isPresent block) fun present =>
        if present then Piece.look (field.load field.data block) field.valuePieces else [])
        (Piece.perform schema config levels) := by
    refine look_eq _ fun present => ?_
    cases present with
    | false => rfl
    | true => exact look_eq _ fun stored => value_eq field stored
  unfold stored Field.storedPieces
  cases field.multiplicity with
  | repeated => exact array_eq field block
  | _ => exact hsingle

theorem handled_eq (field : Field Ref) (block : Bytes) :
    (handled config (config.maxDepth - levels) field block : Encode κ S Unit) =
      forM (field.handledPieces block) (Piece.perform schema config levels) := by
  refine look_eq _ fun slot => ?_
  split
  · rfl
  · simp
    rfl

theorem fields_eq (block : Bytes) (fields : List (Field Ref)) :
    (Encode.fields config (messageWithin schema config levels) (config.maxDepth - levels) block fields :
      Encode κ S Unit) =
      forM (fields.flatMap fun field => field.pieces block) (Piece.perform schema config levels) := by
  induction fields with
  | nil => rfl
  | cons field rest ih =>
    rw [Encode.fields, List.flatMap_cons, List.forM_append, ih, Field.pieces]
    split
    · rw [handled_eq]
    · rw [stored_eq]

/-- Encoding a message is performing its pieces, whatever the output is. -/
theorem messageWithin_eq (schema : Schema Ref) (config : EncodeConfig) (levels : Nat) (ref : Ref)
    (block : Bytes) :
    (messageWithin schema config levels ref block : Encode κ S Unit) =
      forM (schema.pieces config levels ref block) (Piece.perform schema config (levels - 1)) := by
  cases levels with
  | zero => rfl
  | succ levels => exact look_eq _ fun _ => fields_eq block _

end Encode

end

-- ---------------------------------------------------------------------------
-- Failures of the data
-- ---------------------------------------------------------------------------

/-- A failure that tables and blocks are the reason for, not an output. -/
def CodecError.OfData (failure : CodecError) : Prop :=
  failure.errorClass ≠ .io ∧ failure.errorClass ≠ .sizeMismatch

theorem CodecError.OfData.ne_mismatch {failure : CodecError} (h : failure.OfData) (label : String)
    (expected actual : Nat) : failure ≠ .sizeMismatch label expected actual := by
  rintro rfl
  exact h.2 rfl

/-- What is looked up fails for the data only. -/
def DataOnly (outcome : Except CodecError α) : Prop :=
  ∀ reason, outcome = .error reason → reason.OfData

theorem dataOnly_ok (value : α) : DataOnly (.ok value : Except CodecError α) := nofun

theorem dataOnly_error {reason : CodecError} (h : reason.OfData) :
    DataOnly (.error reason : Except CodecError α) := by
  rintro _ ⟨⟩
  exact h

theorem DataOnly.bind {outcome : Except CodecError α} {next : α → Except CodecError β} (h : DataOnly outcome)
    (hn : ∀ value, DataOnly (next value)) : DataOnly (outcome >>= next) := by
  cases outcome with
  | ok value => exact hn value
  | error reason => exact dataOnly_error (h reason rfl)

theorem Table.dataOnly_checkBlock (table : Table Ref) (block : Bytes) : DataOnly (table.checkBlock block) := by
  unfold checkBlock
  split
  · exact dataOnly_error ⟨nofun, nofun⟩
  · exact dataOnly_ok ()

namespace Field

variable (field : Field Ref)

theorem dataOnly_load (span : Span) (block : Bytes) : DataOnly (field.load span block) := by
  unfold load
  split
  · exact dataOnly_ok _
  · exact dataOnly_error ⟨nofun, nofun⟩

theorem dataOnly_slot (block : Bytes) : DataOnly (field.slot block) := by
  refine DataOnly.bind ?_ fun span => (field.dataOnly_load span block).bind fun stored => dataOnly_ok _
  unfold sizeSlot
  split
  · exact dataOnly_ok _
  · exact dataOnly_error ⟨nofun, nofun⟩

theorem dataOnly_handlerSlot (block : Bytes) : DataOnly (field.handlerSlot block) :=
  (field.dataOnly_load field.data block).bind fun _ => dataOnly_ok _

theorem dataOnly_textBytes (stored : Bytes) : DataOnly (field.textBytes stored) := by
  unfold textBytes
  split
  · exact dataOnly_ok _
  · exact dataOnly_error ⟨nofun, nofun⟩

theorem dataOnly_payload (stored : Bytes) : DataOnly (field.payload stored) := by
  unfold payload
  split
  · exact dataOnly_error ⟨nofun, nofun⟩
  · simp only
    split
    · exact dataOnly_error ⟨nofun, nofun⟩
    · exact dataOnly_ok _

theorem dataOnly_isPresent (block : Bytes) : DataOnly (field.isPresent block) := by
  unfold isPresent
  split
  · exact dataOnly_ok _
  · exact (field.dataOnly_slot block).bind fun _ => dataOnly_ok _
  · unfold isActive
    split
    · exact (field.dataOnly_slot block).bind fun _ => dataOnly_ok _
    · exact dataOnly_ok _
  · split
    · exact (field.dataOnly_slot block).bind fun _ => dataOnly_ok _
    · refine (field.dataOnly_load field.data block).bind fun stored => ?_
      unfold isNonzero
      split
      · exact (field.dataOnly_payload stored).bind fun _ => dataOnly_ok _
      · exact dataOnly_ok _
      · exact dataOnly_ok _

end Field

-- ---------------------------------------------------------------------------
-- What pieces there are
-- ---------------------------------------------------------------------------

/-- What a piece of a message of these fields can be. -/
inductive Piece.Of (fields : List (Field Ref)) : Piece Ref → Prop
  | bytes (content : Bytes) : Of fields (.chunk (.bytes content))
  | failure {reason : CodecError} : reason.OfData → Of fields (.chunk (.failure reason))
  | message {field : Field Ref} {ref : Ref} (block : Bytes) : field ∈ fields → field.isHandled = false →
    field.kind = .message ref → Of fields (.message field.name ref block)
  | handler {field : Field Ref} (slot : Nat) : field ∈ fields → field.isHandled = true →
    Of fields (.handler field slot)

section

variable {fields : List (Field Ref)} {field : Field Ref}

theorem Piece.of_look {outcome : Except CodecError α} (h : DataOnly outcome) {pieces : α → List (Piece Ref)}
    (hn : ∀ value, ∀ piece ∈ pieces value, piece.Of fields) :
    ∀ piece ∈ Piece.look outcome pieces, piece.Of fields := by
  cases outcome with
  | ok value => exact hn value
  | error reason =>
    intro piece hp
    cases List.mem_singleton.mp hp
    exact .failure (h reason rfl)

namespace Field

theorem of_tagChunk (type : WireType) (tag : Nat) : (Piece.chunk (tagChunk type tag)).Of fields := by
  unfold tagChunk
  split
  · exact .failure ⟨nofun, nofun⟩
  · exact .bytes _

theorem of_scalarChunk (value : Scalar) : (Piece.chunk (field.scalarChunk value)).Of fields := by
  unfold scalarChunk
  split
  · exact .bytes _
  · exact .failure ⟨nofun, nofun⟩

theorem of_delimited (type : WireType) (tag : Nat) (content : Bytes) :
    ∀ piece ∈ (tagChunk type tag :: delimitedChunks content).map Piece.chunk, piece.Of fields := by
  intro piece hp
  obtain ⟨chunk, hc, rfl⟩ := List.mem_map.mp hp
  rcases List.mem_cons.mp hc with rfl | hc
  · exact of_tagChunk type tag
  · rcases List.mem_cons.mp hc with rfl | hc
    · exact .bytes _
    · cases List.mem_singleton.mp hc
      exact .bytes _

theorem of_valuePieces (hf : field ∈ fields) (hh : field.isHandled = false) (stored : Bytes) :
    ∀ piece ∈ field.valuePieces stored, piece.Of fields := by
  unfold valuePieces
  cases hk : field.kind with
  | text => exact Piece.of_look (field.dataOnly_textBytes stored) fun text => of_delimited _ _ text
  | bytes => exact Piece.of_look (field.dataOnly_payload stored) fun payload => of_delimited _ _ payload
  | message ref =>
    intro piece hp
    rcases List.mem_cons.mp hp with rfl | hp
    · exact of_tagChunk _ _
    · cases List.mem_singleton.mp hp
      exact .message stored hf hh hk
  | _ =>
    intro piece hp
    rcases List.mem_cons.mp hp with rfl | hp
    · exact of_tagChunk _ _
    · cases List.mem_singleton.mp hp
      exact of_scalarChunk _

theorem mem_elementsOf {P : α → Prop} {fail : CodecError → α} {form : Bytes → List α} {block : Bytes}
    (hfail : ∀ reason, reason.OfData → P (fail reason)) (hform : ∀ stored, ∀ a ∈ form stored, P a)
    (index left : Nat) : ∀ a ∈ field.elementsOf fail form block index left, P a := by
  induction left generalizing index with
  | zero => exact nofun
  | succ left ih =>
    have hload := field.dataOnly_load (field.element index) block
    unfold elementsOf
    cases hl : field.load (field.element index) block with
    | error reason =>
      intro a ha
      cases List.mem_singleton.mp ha
      exact hfail reason (hload reason hl)
    | ok stored =>
      intro a ha
      rcases List.mem_append.mp ha with ha | ha
      · exact hform stored a ha
      · exact ih (index + 1) a ha

theorem of_numberChunks (block : Bytes) (index count : Nat) :
    ∀ chunk ∈ field.numberChunks block index count, (Piece.chunk chunk).Of fields := by
  refine mem_elementsOf (fun reason h => .failure h) (fun stored chunk hc => ?_) index count
  cases List.mem_singleton.mp hc
  exact of_scalarChunk _

theorem dataOnly_total {chunks : List Chunk} (h : ∀ chunk ∈ chunks, (Piece.chunk chunk).Of fields) :
    DataOnly (Chunk.total chunks) := by
  induction chunks with
  | nil => exact dataOnly_ok 0
  | cons chunk chunks ih =>
    cases chunk with
    | failure reason =>
      cases h _ List.mem_cons_self with
      | failure hreason => exact dataOnly_error hreason
    | bytes content => exact (ih fun chunk hc => h chunk (List.mem_cons_of_mem _ hc)).bind fun _ => dataOnly_ok _

theorem of_packedPieces (block : Bytes) (count : Nat) :
    ∀ piece ∈ field.packedPieces block count, piece.Of fields := by
  have hnumbers : ∀ chunk ∈ field.numberChunks block 0 count, (Piece.chunk chunk).Of fields :=
    of_numberChunks block 0 count
  refine Piece.of_look ?_ fun length piece hp => ?_
  · split
    · exact dataOnly_ok _
    · exact dataOnly_total hnumbers
  · obtain ⟨chunk, hc, rfl⟩ := List.mem_map.mp hp
    rcases List.mem_cons.mp hc with rfl | hc
    · exact of_tagChunk _ _
    · rcases List.mem_cons.mp hc with rfl | hc
      · exact .bytes _
      · exact hnumbers chunk hc

theorem of_storedPieces (hf : field ∈ fields) (hh : field.isHandled = false) (block : Bytes) :
    ∀ piece ∈ field.storedPieces block, piece.Of fields := by
  have hvalue := of_valuePieces hf hh
  have hempty : ∀ piece ∈ ([] : List (Piece Ref)), piece.Of fields := List.forall_mem_nil _
  unfold storedPieces
  split
  · refine Piece.of_look (field.dataOnly_slot block) fun count => ?_
    split
    · exact hempty
    · split
      · intro piece hp
        cases List.mem_singleton.mp hp
        exact .failure ⟨nofun, nofun⟩
      · split
        · exact field.of_packedPieces block count
        · exact mem_elementsOf (fun reason h => .failure h) hvalue 0 count
  · refine Piece.of_look (field.dataOnly_isPresent block) fun present => ?_
    split
    · exact Piece.of_look (field.dataOnly_load field.data block) hvalue
    · exact hempty

theorem of_pieces (hf : field ∈ fields) (block : Bytes) : ∀ piece ∈ field.pieces block, piece.Of fields := by
  unfold pieces
  split
  · next hh =>
    refine Piece.of_look (field.dataOnly_handlerSlot block) fun slot => ?_
    split
    · exact List.forall_mem_nil _
    · intro piece hp
      cases List.mem_singleton.mp hp
      exact .handler slot hf hh
  · next hh => exact of_storedPieces hf (eq_false_of_ne_true hh) block

end Field

theorem Schema.of_pieces (schema : Schema Ref) (config : EncodeConfig) (levels : Nat) (ref : Ref) (block : Bytes) :
    ∀ piece ∈ schema.pieces config levels ref block, piece.Of (schema ref).fields := by
  cases levels with
  | zero =>
    intro piece hp
    cases List.mem_singleton.mp hp
    exact .failure ⟨nofun, nofun⟩
  | succ levels =>
    refine Piece.of_look ((schema ref).dataOnly_checkBlock block) fun _ piece hp => ?_
    obtain ⟨field, hf, hp⟩ := List.mem_flatMap.mp hp
    exact Field.of_pieces hf block piece hp

end

end BlockCodec
