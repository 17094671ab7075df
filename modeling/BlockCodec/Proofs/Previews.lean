import BlockCodec.Text.Preview
import BlockCodec.Proofs.Restoring

/-!
# What a preview shows

A payload that fits is shown as text if it is one and in hexadecimal if not. A longer one is cut first and
looked at afterwards, so a text of which a character lies across the cut is taken for something else:
`Text.preview_exact`.
-/

namespace BlockCodec

variable {text : String} {payload : Bytes} {count : Nat}

-- ---------------------------------------------------------------------------
-- Texts that are cut
-- ---------------------------------------------------------------------------

namespace Bytes

theorem ofText_append (front back : String) : ofText (front ++ back) = ofText front ++ ofText back := by
  simp only [ofText, String.toUTF8_eq_toByteArray, String.toByteArray_append, ByteArray.data_append,
    Array.toList_append]

theorem text?_eq_some_iff : text? payload = some text ↔ payload = ofText text :=
  ⟨fun h => (ofText_of_text? h).symm, fun h => h ▸ text?_ofText text⟩

/-- Bytes are cut off a text as a text only between two characters. -/
theorem exists_append_of_take {front : String} (h : (ofText text).take count = ofText front) :
    ∃ back, text = front ++ back := by
  have hbytes : front.toByteArray ++ ⟨((ofText text).drop count).toArray⟩ = text.toByteArray := by
    refine ByteArray.ext (Array.ext' ?_)
    rw [ByteArray.data_append, Array.toList_append]
    exact (congrArg (· ++ _) h.symm).trans (List.take_append_drop count _)
  obtain ⟨chars, hchars⟩ : front.toList <+: text.toList := by
    refine List.isPrefix_of_utf8Encode_append_eq_utf8Encode ⟨((ofText text).drop count).toArray⟩ ?_
    rwa [← String.toByteArray_ofList, ← String.toByteArray_ofList, String.ofList_toList, String.ofList_toList]
  refine ⟨String.ofList chars, ?_⟩
  rw [← String.ofList_toList (s := text), ← hchars, String.ofList_append, String.ofList_toList]

/-- A cut leaves a text where it falls on the end of a character, and then the text before it. -/
theorem take_ofText_eq_iff {front : String} (hle : count ≤ (ofText text).length) :
    (ofText text).take count = ofText front ↔ ∃ back, text = front ++ back ∧ (ofText front).length = count := by
  constructor
  · intro h
    obtain ⟨back, hback⟩ := exists_append_of_take h
    exact ⟨back, hback, by rw [← h, List.length_take_of_le hle]⟩
  · rintro ⟨back, rfl, rfl⟩
    rw [ofText_append, List.take_left]

end Bytes

-- ---------------------------------------------------------------------------
-- Previews
-- ---------------------------------------------------------------------------

namespace Text

/-- A text without control characters. -/
def Plain (text : String) : Prop := text.toList.any isControl = false

theorem Plain.of_append {front back : String} (h : Plain (front ++ back)) : Plain front := by
  rw [Plain, String.toList_append, List.any_append, Bool.or_eq_false_iff] at h
  exact h.1

theorem plainText?_eq_some_iff : plainText? payload = some text ↔ Plain text ∧ payload = Bytes.ofText text := by
  rw [plainText?, Option.filter_eq_some_iff, Bytes.text?_eq_some_iff, and_comm]
  simp [Plain]

/-- The dots behind a payload that is not shown whole. -/
def dots (payload : Bytes) : String := if previewLimit < payload.length then ".." else ""

theorem preview_eq (payload : Bytes) :
    preview payload =
      (match plainText? (payload.take previewLimit) with
        | some text => quote text
        | none => "0x" ++ Hex.encode (payload.take previewLimit)) ++ dots payload := by
  have hcut : (payload.take previewLimit).length < payload.length ↔ previewLimit < payload.length := by
    rw [List.length_take]
    omega
  unfold preview dots
  simp only [hcut]
  split
  · rfl
  · exact String.append_empty.symm

/-- What is left of a payload is quoted as the text that it is. -/
theorem preview_of_plain (hplain : Plain text) (h : payload.take previewLimit = Bytes.ofText text) :
    preview payload = quote text ++ dots payload := by
  rw [preview_eq, plainText?_eq_some_iff.mpr ⟨hplain, h⟩]

/-- What is left of a payload is shown in hexadecimal where it is no such text. -/
theorem preview_of_not_plain (h : ¬∃ text, Plain text ∧ payload.take previewLimit = Bytes.ofText text) :
    preview payload = "0x" ++ Hex.encode (payload.take previewLimit) ++ dots payload := by
  have hnone : plainText? (payload.take previewLimit) = none := by
    rw [Option.eq_none_iff_forall_ne_some]
    exact fun text htext => h ⟨text, plainText?_eq_some_iff.mp htext⟩
  rw [preview_eq, hnone]

/-- How a payload is shown. One that fits is quoted if it is a text without control characters, and shown in
hexadecimal if it is not. A longer one that is such a text is quoted up to its 32nd byte if that ends a
character, and the front of it is shown in hexadecimal if not; dots stand behind either. -/
theorem preview_exact (payload : Bytes) :
    (payload.length ≤ 32 →
      (∀ text, Plain text → payload = Bytes.ofText text → preview payload = quote text) ∧
      ((¬∃ text, Plain text ∧ payload = Bytes.ofText text) →
        preview payload = "0x" ++ Hex.encode payload)) ∧
    (32 < payload.length → ∀ text, Plain text → payload = Bytes.ofText text →
      (∀ front back, text = front ++ back → (Bytes.ofText front).length = 32 →
        preview payload = quote front ++ "..") ∧
      ((¬∃ front back, text = front ++ back ∧ (Bytes.ofText front).length = 32) →
        preview payload = "0x" ++ Hex.encode (payload.take 32) ++ "..")) := by
  refine ⟨fun hle => ?_, fun hlt text hplain htext => ?_⟩
  · have hwhole : payload.take previewLimit = payload := List.take_of_length_le hle
    have hdots : dots payload = "" := if_neg (Nat.not_lt.mpr hle)
    constructor
    · intro text hplain htext
      rw [preview_of_plain hplain (hwhole.trans htext), hdots, String.append_empty]
    · intro hnone
      rw [← hwhole] at hnone
      rw [preview_of_not_plain hnone, hdots, String.append_empty, hwhole]
  · have hdots : dots payload = ".." := if_pos hlt
    have hcut : ∀ front, payload.take previewLimit = Bytes.ofText front ↔
        ∃ back, text = front ++ back ∧ (Bytes.ofText front).length = 32 := fun front => by
      rw [htext] at hlt ⊢
      exact Bytes.take_ofText_eq_iff (Nat.le_of_lt hlt)
    constructor
    · intro front back hsplit hlength
      rw [hsplit] at hplain
      rw [preview_of_plain hplain.of_append ((hcut front).mpr ⟨back, hsplit, hlength⟩), hdots]
    · intro hnone
      rw [preview_of_not_plain, hdots]
      · rfl
      · rintro ⟨front, -, hfront⟩
        exact hnone ⟨front, (hcut front).mp hfront⟩

/-- A payload that is no text, one that is, and the front of one that is too long. -/
theorem preview_exact_pangram :
    preview [0x08, 0xff] = "0x08ff" ∧ preview (Bytes.ofText "Viktor") = quote "Viktor" ∧
      preview (Bytes.ofText "Zwölf Boxkämpfer jagen Viktor quer") =
        quote "Zwölf Boxkämpfer jagen Viktor " ++ ".." := by
  have hnone : ¬∃ text, Plain text ∧ [0x08, 0xff] = Bytes.ofText text := by
    rintro ⟨text, -, htext⟩
    have hsome := Bytes.text?_eq_some_iff.mpr htext
    have hother : Bytes.text? [0x08, 0xff] = none := by cbv
    simp [hother] at hsome
  refine ⟨?_, ?_, ?_⟩
  · exact ((preview_exact [0x08, 0xff]).1 (by decide)).2 hnone
  · exact ((preview_exact _).1 (by decide +kernel)).1 "Viktor" (by cbv) rfl
  · exact ((preview_exact _).2 (by decide +kernel) "Zwölf Boxkämpfer jagen Viktor quer" (by cbv) rfl).1
      "Zwölf Boxkämpfer jagen Viktor " "quer" (by decide +kernel) (by decide +kernel)

/-- A text of 33 bytes, with a character that lies across the cut, is not shown as a text. -/
theorem preview_splits_character :
    let text := "aaaaaaaaaaaaaaaaaaaaaaaaaaaaaaaé"
    Plain text ∧ (Bytes.ofText text).length = 33 ∧
      preview (Bytes.ofText text) =
        "0x61616161616161616161616161616161616161616161616161616161616161c3.." := by
  exact ⟨by cbv, by decide +kernel, by decide +kernel⟩

end Text

end BlockCodec
