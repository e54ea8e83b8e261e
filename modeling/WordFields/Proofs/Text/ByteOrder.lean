import Mathlib.Tactic.SplitIfs
import WordFields.NameMap

/-!
# The order of names is the order of their bytes

Strings are compared by code points. In UTF-8 a character with the larger code point has the larger
bytes: either both characters have the same number of bytes, which are the digits of their code
points, or the one with more bytes starts with the larger byte. So comparing the bytes of two names
gives the same order.
-/

set_option autoImplicit false

namespace WordFields.Text

/-- The bytes of a text in UTF-8. -/
def bytes (text : String) : List UInt8 := text.toUTF8.data.toList

theorem bytes_eq (text : String) : bytes text = text.toList.flatMap String.utf8EncodeChar := by
  have encoded : text.toByteArray = (text.toList.flatMap String.utf8EncodeChar).toByteArray :=
    text.utf8Encode_toList.symm
  rw [bytes, String.toUTF8_eq_toByteArray, encoded, List.toList_data_toByteArray]

theorem cons_ofNat_lt {m n : Nat} {l r : List UInt8} (smallM : m < 256) (smallN : n < 256) :
    UInt8.ofNat m :: l < UInt8.ofNat n :: r ↔ m < n ∨ m = n ∧ l < r := by
  rw [List.cons_lt_cons_iff, UInt8.lt_iff_toNat_lt, ← UInt8.toNat_inj, UInt8.toNat_ofNat',
    UInt8.toNat_ofNat', Nat.mod_eq_of_lt smallM, Nat.mod_eq_of_lt smallN]

theorem encodeChar_lt {c d : Char} (below : c < d) (l r : List UInt8) :
    String.utf8EncodeChar c ++ l < String.utf8EncodeChar d ++ r := by
  have codes : c.val.toNat < d.val.toNat := below
  have bound : d.val.toNat < 0x110000 := by
    have valid := d.valid
    simp only [UInt32.isValidChar, Nat.isValidChar] at valid
    omega
  unfold String.utf8EncodeChar
  generalize c.val.toNat = m at codes ⊢
  generalize d.val.toNat = n at codes bound ⊢
  -- all bytes from the digits to base 64, so that they can be compared digit by digit
  have second (v : Nat) : v / 4096 = v / 64 / 64 := by omega
  have third (v : Nat) : v / 262144 = v / 64 / 64 / 64 := by omega
  simp only [second, third]
  split_ifs <;>
    simp (disch := omega) only [List.cons_append, List.nil_append, cons_ofNat_lt] <;>
    omega

theorem encode_lt {cs ds : List Char} (below : cs < ds) :
    cs.flatMap String.utf8EncodeChar < ds.flatMap String.utf8EncodeChar := by
  induction below with
  | @nil d ds =>
    obtain ⟨byte, bytes, encoded⟩ :=
      List.exists_cons_of_ne_nil (String.utf8EncodeChar_ne_nil (c := d))
    rw [List.flatMap_nil, List.flatMap_cons, encoded]
    exact .nil
  | rel below =>
    rw [List.flatMap_cons, List.flatMap_cons]
    exact encodeChar_lt below _ _
  | cons _ ih =>
    rw [List.flatMap_cons, List.flatMap_cons]
    exact List.append_left_lt ih

/-- Texts are ordered as their bytes are. -/
theorem lt_iff_bytes_lt {a b : String} : a < b ↔ bytes a < bytes b := by
  have encoded : ∀ {a b : String}, a < b → bytes a < bytes b := by
    intro a b below
    rw [bytes_eq, bytes_eq]
    exact encode_lt below
  refine ⟨encoded, fun below => Decidable.byContradiction fun notBelow => ?_⟩
  by_cases same : a = b
  · rw [same] at below
    exact List.lt_irrefl _ below
  · have above := encoded (NameMap.lt_of_not_lt_of_ne notBelow same)
    exact List.lt_irrefl _ (List.lt_trans below above)

end WordFields.Text
