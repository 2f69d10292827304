import Mathlib.Algebra.Order.Ring.Nat
import Mathlib.Data.List.DropRight
import Mathlib.Data.List.TakeDrop
import Ephpm.Lib.Utf8

/-!
# Texts among bytes

Bytes are a **text** if they are the bytes of characters.  A text may be cut before and behind any
ASCII byte, and nowhere else need it be cut to be scanned for ASCII bytes.  What follows a text in
a text is a text too, so a text and one byte of another character are not one.
-/

namespace Lib.Utf8

/-- The bytes are a text in UTF-8. -/
def IsText (b : List UInt8) : Prop := ∃ cs, bytes cs = b

namespace IsText

variable {a rest : List UInt8} {b : UInt8}

theorem nil : IsText [] := ⟨[], rfl⟩

theorem encode (c : Char) : IsText (String.utf8EncodeChar c) := ⟨[c], List.append_nil _⟩

theorem append (h : IsText a) (h' : IsText rest) : IsText (a ++ rest) := by
  obtain ⟨cs, rfl⟩ := h
  obtain ⟨ds, rfl⟩ := h'
  exact ⟨cs ++ ds, bytes_append cs ds⟩

theorem ascii (h : b.toNat < 128) : IsText [b] := by
  refine ⟨[Char.ofNat b.toNat], ?_⟩
  rw [bytes_cons, encode_ofNat h]
  rfl

theorem of_ascii (h : ∀ b ∈ a, b.toNat < 128) : IsText a := by
  induction a with
  | nil => exact nil
  | cons b a ih =>
    exact (ascii (h b List.mem_cons_self)).append (ih fun b' hb' => h b' (List.mem_cons_of_mem _ hb'))

/-- Before and behind an ASCII byte of a text there is a text. -/
theorem split (h : IsText (a ++ b :: rest)) (hb : b.toNat < 128) : IsText a ∧ IsText rest := by
  obtain ⟨cs, hcs⟩ := h
  induction cs generalizing a with
  | nil => simp [bytes] at hcs
  | cons c cs ih =>
    rw [bytes_cons] at hcs
    rcases List.append_eq_append_iff.mp hcs with ⟨a', rfl, hrest⟩ | ⟨tail, hencode, hrest⟩
    · exact ⟨(encode c).append (ih hrest).1, (ih hrest).2⟩
    · cases tail with
      | nil =>
        rw [List.append_nil] at hencode
        rw [List.nil_append] at hrest
        have hfirst : IsText [] ∧ IsText rest := ih hrest.symm
        exact ⟨hencode ▸ encode c, hfirst.2⟩
      | cons b' tail =>
        obtain ⟨rfl, rfl⟩ := List.cons.inj hrest
        have hmem : b ∈ String.utf8EncodeChar c := by
          rw [hencode]
          exact List.mem_append_right _ List.mem_cons_self
        rw [(mem_encode_iff hb).mp hmem, encode_ofNat hb] at hencode
        obtain ⟨rfl, htail⟩ : a = [] ∧ tail = [] := by
          have := congrArg List.length hencode
          simp only [List.length_append, List.length_cons, List.length_nil] at this
          exact ⟨List.length_eq_zero_iff.mp (by omega), List.length_eq_zero_iff.mp (by omega)⟩
        exact ⟨nil, htail ▸ ⟨cs, rfl⟩⟩

/-- A text may be taken up at an ASCII byte. -/
theorem of_suffix (h : IsText (a ++ b :: rest)) (hb : b.toNat < 128) : IsText (b :: rest) :=
  (ascii hb).append (h.split hb).2

theorem tail (h : IsText (b :: rest)) (hb : b.toNat < 128) : IsText rest :=
  (@split [] rest b h hb).2

/-- What is left when ASCII bytes are dropped. -/
theorem dropWhile (h : IsText a) {p : UInt8 → Bool} (hp : ∀ b, p b = true → b.toNat < 128) :
    IsText (a.dropWhile p) := by
  induction a with
  | nil => exact nil
  | cons b a ih =>
    rw [List.dropWhile_cons]
    split
    next hb => exact ih (h.tail (hp b hb))
    next => exact h

theorem rdropWhile (h : IsText a) {p : UInt8 → Bool} (hp : ∀ b, p b = true → b.toNat < 128) :
    IsText (a.rdropWhile p) := by
  induction a using List.reverseRecOn with
  | nil => exact nil
  | append_singleton a b ih =>
    by_cases hb : p b = true
    · rw [List.rdropWhile_concat_pos _ _ _ hb]
      exact ih (h.split (hp b hb)).1
    · rw [List.rdropWhile_concat_neg _ _ _ hb]
      exact h

theorem of_append (h : IsText a) (hall : IsText (a ++ rest)) : IsText rest := by
  obtain ⟨cs, rfl⟩ := h
  obtain ⟨ds, hds⟩ := hall
  induction cs generalizing ds with
  | nil => exact ⟨ds, hds⟩
  | cons c cs ih =>
    rw [bytes_cons, List.append_assoc] at hds
    cases ds with
    | nil =>
      have hnil := congrArg List.length hds
      have hpos := List.length_pos_iff.mpr (String.utf8EncodeChar_ne_nil (c := c))
      simp only [bytes, List.flatMap_nil, List.length_nil, List.length_append] at hnil
      omega
    | cons d ds =>
      -- A character is decoded from its bytes, whatever follows them.
      have hdecode : ∀ (c : Char) (l : List UInt8),
          (String.utf8EncodeChar c ++ l).toByteArray.utf8DecodeChar? 0 = some c := by
        intro c l
        rw [List.toByteArray_append]
        exact ByteArray.utf8DecodeChar?_utf8EncodeChar_append
      rw [bytes_cons] at hds
      have hcd : d = c := by
        have := hdecode d (bytes ds)
        rw [hds, hdecode] at this
        exact (Option.some.inj this).symm
      subst hcd
      exact ih ds (List.append_cancel_left hds)

/-- A text is not followed by a byte that is not ASCII, alone. -/
theorem not_concat (h : IsText a) (hb : 128 ≤ b.toNat) : ¬IsText (a ++ [b]) := by
  intro hall
  obtain ⟨cs, hcs⟩ := h.of_append hall
  cases cs with
  | nil => cases hcs
  | cons c cs =>
    rw [bytes_cons] at hcs
    by_cases hc : c.toNat < 128
    · rw [encode_ascii hc] at hcs
      obtain ⟨rfl, -⟩ := List.cons.inj hcs
      rw [UInt8.toNat_ofNat'] at hb
      omega
    · have hlong : 2 ≤ (String.utf8EncodeChar c).length := by
        have hgt : ¬c.val.toNat ≤ 127 := fun hle => hc (Nat.lt_succ_of_le hle)
        unfold String.utf8EncodeChar
        simp only [hgt, if_false]
        split_ifs <;> simp
      have := congrArg List.length hcs
      rw [List.length_append, List.length_singleton] at this
      omega

end IsText

theorem fromUTF8?_of_isText {b : List UInt8} (h : IsText b) :
    ∃ s, String.fromUTF8? ⟨b.toArray⟩ = some s ∧ s.toUTF8.data.toList = b := by
  obtain ⟨cs, rfl⟩ := h
  refine ⟨String.ofList cs, ?_, toUTF8_ofList cs⟩
  have hbytes : (⟨(bytes cs).toArray⟩ : ByteArray) = (String.ofList cs).toUTF8 := by
    rw [← toUTF8_ofList]
  rw [hbytes, fromUTF8_toUTF8]

theorem isText_toUTF8 (s : String) : IsText s.toUTF8.data.toList := by
  refine ⟨s.toList, ?_⟩
  rw [← toUTF8_ofList, String.ofList_toList]

/-- Decoding fails on anything else. -/
theorem fromUTF8?_eq_none {b : List UInt8} (h : ¬IsText b) :
    String.fromUTF8? ⟨b.toArray⟩ = none := by
  refine dif_neg fun hvalid => h ?_
  exact isText_toUTF8 (String.fromUTF8 _ hvalid)

end Lib.Utf8
