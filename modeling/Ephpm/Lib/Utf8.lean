import Mathlib.Data.List.Basic
import Mathlib.Data.String.Basic

/-!
# Texts and their bytes

A text is a list of characters; programs that scan it look at its UTF-8 bytes.  What makes such
a scan safe is that **a byte below 128 stands for itself**: the bytes of any other character are
all above, so a scan for an ASCII byte never stops inside a character.
-/

namespace Lib.Utf8

/-- The bytes of a text. -/
def bytes (cs : List Char) : List UInt8 := cs.flatMap String.utf8EncodeChar

@[simp] theorem bytes_cons (c : Char) (cs : List Char) :
    bytes (c :: cs) = String.utf8EncodeChar c ++ bytes cs := rfl

@[simp] theorem bytes_append (cs ds : List Char) : bytes (cs ++ ds) = bytes cs ++ bytes ds :=
  List.flatMap_append

/-- The bytes of a string are those of its characters. -/
theorem toUTF8_ofList (cs : List Char) : (String.ofList cs).toUTF8.data.toList = bytes cs := by
  simp [bytes, String.toUTF8, List.utf8Encode]

theorem fromUTF8_toUTF8 (s : String) : String.fromUTF8? s.toUTF8 = some s :=
  dif_pos s.isValidUTF8

theorem encode_ascii {c : Char} (h : c.toNat < 128) :
    String.utf8EncodeChar c = [UInt8.ofNat c.toNat] := by
  have hle : c.val.toNat ≤ 127 := Nat.le_of_lt_succ h
  exact if_pos hle

/-- The bytes of another character are all above 127. -/
theorem encode_high {c : Char} (h : 128 ≤ c.toNat) :
    ∀ b ∈ String.utf8EncodeChar c, 128 ≤ b.toNat := by
  have hgt : ¬ c.val.toNat ≤ 127 := not_le.mpr h
  intro b hb
  unfold String.utf8EncodeChar at hb
  simp only [hgt, if_false] at hb
  split_ifs at hb <;>
    · simp only [List.mem_cons, List.not_mem_nil, or_false] at hb
      rcases hb with rfl | rfl | rfl | rfl <;>
        · simp only [UInt8.toNat_ofNat']
          omega

theorem toNat_ofNat_ascii {k : UInt8} (hk : k.toNat < 128) :
    (Char.ofNat k.toNat).toNat = k.toNat := by
  have hvalid : k.toNat.isValidChar := Or.inl (by omega)
  rw [Char.ofNat, dif_pos hvalid]
  rfl

theorem encode_ofNat {k : UInt8} (hk : k.toNat < 128) :
    String.utf8EncodeChar (Char.ofNat k.toNat) = [k] := by
  rw [encode_ascii (by rw [toNat_ofNat_ascii hk]; exact hk), toNat_ofNat_ascii hk,
    UInt8.ofNat_toNat]

theorem mem_encode_iff {k : UInt8} (hk : k.toNat < 128) {c : Char} :
    k ∈ String.utf8EncodeChar c ↔ c = Char.ofNat k.toNat := by
  constructor
  · intro hmem
    by_cases h : c.toNat < 128
    · rw [encode_ascii h, List.mem_singleton] at hmem
      rw [hmem, UInt8.toNat_ofNat', Nat.mod_eq_of_lt (by omega), Char.ofNat_toNat]
    · exact absurd hk (not_lt.mpr (encode_high (not_lt.mp h) k hmem))
  · rintro rfl
    rw [encode_ofNat hk]
    exact List.mem_singleton_self k

end Lib.Utf8
