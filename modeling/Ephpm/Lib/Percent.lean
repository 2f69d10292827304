import Mathlib.Data.Fin.Basic
import Mathlib.Data.List.Basic

/-!
# Percent encoding

A byte outside the unreserved set is written as `%` and two hexadecimal digits.  The bytes of an
encoded text are unreserved or `%`, so it may be put between any separators that are neither, and
**decoding gives the text back** whatever follows it.
-/

namespace Lib.Percent

/-- The percent sign. -/
def percent : UInt8 := 0x25

/-- The unreserved bytes: letters, digits, `-`, `.`, `_` and `~`. -/
def isUnreserved (b : UInt8) : Bool :=
  (0x30 ≤ b && b ≤ 0x39) || (0x41 ≤ b && b ≤ 0x5A) || (0x61 ≤ b && b ≤ 0x7A) ||
    b == 0x2D || b == 0x2E || b == 0x5F || b == 0x7E

/-- A hexadecimal digit. -/
def hex (n : Fin 16) : UInt8 := UInt8.ofNat (if n.val < 10 then 0x30 + n.val else 0x37 + n.val)

/-- What a hexadecimal digit stands for. -/
def hexValue (b : UInt8) : Option ℕ :=
  if 0x30 ≤ b ∧ b ≤ 0x39 then some (b.toNat - 0x30)
  else if 0x41 ≤ b ∧ b ≤ 0x46 then some (b.toNat - 0x37)
  else if 0x61 ≤ b ∧ b ≤ 0x66 then some (b.toNat - 0x57)
  else none

theorem hexValue_hex : ∀ n : Fin 16, hexValue (hex n) = some n.val := by decide

theorem isUnreserved_hex : ∀ n : Fin 16, isUnreserved (hex n) = true := by decide

/-- The upper four bits. -/
def high (b : UInt8) : Fin 16 := ⟨b.toNat / 16, Nat.div_lt_of_lt_mul b.toNat_lt⟩

/-- The lower four bits. -/
def low (b : UInt8) : Fin 16 := ⟨b.toNat % 16, Nat.mod_lt _ (by decide)⟩

/-- A byte stands for itself or is written in hexadecimal. -/
def encodeByte (b : UInt8) : List UInt8 :=
  if isUnreserved b then [b] else [percent, hex (high b), hex (low b)]

/-- Percent-encoding. -/
def encode (bs : List UInt8) : List UInt8 := bs.flatMap encodeByte

/-- Decoding.  A `%` without two digits is an error. -/
def decode : List UInt8 → Option (List UInt8)
  | [] => some []
  | b :: rest =>
    if b = percent then
      match rest with
      | h :: l :: rest =>
        match hexValue h, hexValue l, decode rest with
        | some h, some l, some bs => some (UInt8.ofNat (16 * h + l) :: bs)
        | _, _, _ => none
      | _ => none
    else (decode rest).map (b :: ·)

theorem mem_encode {bs : List UInt8} {c : UInt8} (h : c ∈ encode bs) :
    isUnreserved c = true ∨ c = percent := by
  obtain ⟨b, -, hc⟩ := List.mem_flatMap.mp h
  rw [encodeByte] at hc
  split_ifs at hc with hb
  · exact .inl (List.mem_singleton.mp hc ▸ hb)
  · simp only [List.mem_cons, List.not_mem_nil, or_false] at hc
    rcases hc with rfl | rfl | rfl
    · exact .inr rfl
    · exact .inl (isUnreserved_hex _)
    · exact .inl (isUnreserved_hex _)

/-- A byte that is neither unreserved nor `%` separates encoded texts. -/
theorem notMem_encode {c : UInt8} (hc : isUnreserved c = false) (hpercent : c ≠ percent)
    (bs : List UInt8) : c ∉ encode bs := by
  intro hmem
  rcases mem_encode hmem with h | h
  · rw [hc] at h
    cases h
  · exact hpercent h

theorem decode_encodeByte (b : UInt8) (rest : List UInt8) :
    decode (encodeByte b ++ rest) = (decode rest).map (b :: ·) := by
  rw [encodeByte]
  split_ifs with hb
  · have hne : b ≠ percent := by
      rintro rfl
      exact absurd hb (by decide)
    rw [List.singleton_append, decode.eq_def]
    simp only [if_neg hne]
  · have hvalue : UInt8.ofNat (16 * (high b).val + (low b).val) = b := by
      rw [show 16 * (high b).val + (low b).val = b.toNat from Nat.div_add_mod _ _]
      exact UInt8.ofNat_toNat
    rw [List.cons_append, List.cons_append, List.singleton_append, decode, if_pos rfl]
    simp only [hexValue_hex]
    cases decode rest with
    | none => rfl
    | some bs => exact congrArg (fun c => some (c :: bs)) hvalue

/-- **Decoding undoes encoding.** -/
theorem decode_encode (bs : List UInt8) : decode (encode bs) = some bs := by
  induction bs with
  | nil => rfl
  | cons b bs ih => rw [encode, List.flatMap_cons, decode_encodeByte, ← encode, ih, Option.map_some]

end Lib.Percent
