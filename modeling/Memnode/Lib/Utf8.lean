/-
Memnode.Lib.Utf8 — texts as bytes.

`encode` and `decode` are `str.encode("utf-8")` and
`bytes.decode("utf-8")`, for texts without surrogates. The lengths are
what a limit on bytes says about a text: one to four bytes for each
character, one for each ASCII character.
-/
import Mathlib.Data.List.Basic

namespace Lib.Utf8

def encode (t : List Char) : List UInt8 := (String.ofList t).toByteArray.data.toList

/-- `none` is a `UnicodeDecodeError`. -/
def decode (raw : List UInt8) : Option (List Char) :=
  (String.fromUTF8? ⟨raw.toArray⟩).map String.toList

theorem decode_encode (t : List Char) : decode (encode t) = some t := by
  have harr : (⟨(encode t).toArray⟩ : ByteArray) = (String.ofList t).toByteArray := by simp [encode]
  rw [decode, harr, String.fromUTF8?, dif_pos (String.ofList t).isValidUTF8]
  exact congrArg some String.toList_ofList

theorem encode_eq_flatMap (t : List Char) : encode t = t.flatMap String.utf8EncodeChar := by
  rw [encode, String.toByteArray_ofList, List.utf8Encode]
  simp

theorem encode_of_decode {raw : List UInt8} {t : List Char} (h : decode raw = some t) :
    encode t = raw := by
  obtain ⟨s, hs, rfl⟩ := Option.map_eq_some_iff.mp h
  rw [String.fromUTF8?] at hs
  split at hs
  · cases hs
    rw [encode, String.ofList_toList]
    exact List.toList_toArray
  · cases hs

theorem length_encode_cons (c : Char) (t : List Char) :
    (encode (c :: t)).length = c.utf8Size + (encode t).length := by
  simp [encode_eq_flatMap]

theorem length_le_encode (t : List Char) : t.length ≤ (encode t).length := by
  induction t with
  | nil => simp
  | cons c t ih =>
    have hpos := c.utf8Size_pos
    rw [length_encode_cons, List.length_cons]
    omega

theorem length_encode_le (t : List Char) : (encode t).length ≤ 4 * t.length := by
  induction t with
  | nil => simp [encode_eq_flatMap]
  | cons c t ih =>
    have hle := c.utf8Size_le_four
    rw [length_encode_cons, List.length_cons]
    omega

theorem length_encode_ascii {t : List Char} (h : ∀ c ∈ t, c.toNat < 0x80) :
    (encode t).length = t.length := by
  induction t with
  | nil => simp [encode_eq_flatMap]
  | cons c t ih =>
    have hc : c.utf8Size = 1 := by
      have hlt : c.val.toNat < 128 := h c (by simp)
      have hmax : (127 : UInt32).toNat = 127 := rfl
      rw [Char.utf8Size_eq_one_iff, UInt32.le_iff_toNat_le]
      omega
    rw [length_encode_cons, hc, ih (fun c' hc' => h c' (List.mem_cons_of_mem c hc')),
      List.length_cons]
    omega

/-- A text has at most as many characters as bytes. -/
theorem length_le_of_decode {raw : List UInt8} {t : List Char} (h : decode raw = some t) :
    t.length ≤ raw.length := encode_of_decode h ▸ length_le_encode t

end Lib.Utf8
