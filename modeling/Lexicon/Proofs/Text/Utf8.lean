import Lexicon.Text.Utf8

/-!
# Text and its bytes

A text is decoded from its own bytes and from no others (`decode_eq_ok_iff`), so different texts
have different bytes.
-/

namespace Lexicon

theorem toList_loop (b : ByteArray) (i : Nat) (front : List UInt8) :
    ByteArray.toList.loop b i front = front.reverse ++ b.data.toList.drop i := by
  fun_induction ByteArray.toList.loop b i front with
  | case1 i front hlt ih =>
    have hbound : i < b.data.toList.length := by simpa using hlt
    have hget : b.get! i = b.data.toList[i] := by simp [ByteArray.get!, hlt]
    rw [ih, List.reverse_cons, List.append_assoc, List.singleton_append, hget,
      ← List.drop_eq_getElem_cons]
  | case2 i front hend =>
    rw [List.drop_of_length_le (by simpa using hend), List.append_nil]

/-- The bytes of a text, from the array that keeps them. -/
theorem Bytes.ofString_eq (s : String) : Bytes.ofString s = s.toByteArray.data.toList := by
  rw [ofString]
  exact toList_loop s.toByteArray 0 []

theorem Bytes.ofString_empty : Bytes.ofString "" = [] := ofString_eq ""

theorem Bytes.ofString_inj {s t : String} (h : Bytes.ofString s = Bytes.ofString t) : s = t := by
  rw [ofString_eq, ofString_eq, Array.toList_inj] at h
  exact String.toByteArray_inj.mp (ByteArray.ext h)

namespace Text.Utf8

/-- **A text is decoded from its own bytes and no others.** -/
theorem decode_eq_ok_iff {bs : Bytes} {s : String} : decode bs = .ok s ↔ bs = Bytes.ofString s := by
  have hbytes : bs.toByteArray.data.toList = bs := rfl
  unfold decode String.fromUTF8?
  constructor
  · intro h
    split at h
    next text htext =>
      split at htext <;> cases htext
      cases h
      rw [Bytes.ofString_eq]
      exact hbytes.symm
    next => cases h
  · rintro rfl
    have hsame : (Bytes.ofString s).toByteArray = s.toByteArray := by
      rw [Bytes.ofString_eq]
      rfl
    rw [hsame, dif_pos s.isValidUTF8]
    rfl

end Text.Utf8

end Lexicon
