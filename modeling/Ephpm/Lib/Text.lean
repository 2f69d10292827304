import Mathlib.Data.List.DropRight
import Mathlib.Data.List.Infix

/-!
# Texts

A text is a list of characters.  White space is that of Unicode or that of ASCII, upper and lower
case are those of ASCII.

`trimBy` takes away what is of a kind at both ends of a list.
-/

namespace Lib

/-- A string as the list of its characters. -/
abbrev Text := List Char

/-- Whether a text is one of a list of texts is decided by comparing it with each. -/
instance lawfulBEqChars : LawfulBEq Text := inferInstance

/-! ## Characters -/

/-- The single quote. -/
def quote : Char := Char.ofNat 0x27

/-- The double quote. -/
def doubleQuote : Char := Char.ofNat 0x22

/-- The backtick. -/
def backtick : Char := Char.ofNat 0x60

/-- The backslash. -/
def backslash : Char := Char.ofNat 0x5C

/-- The line feed. -/
def newline : Char := Char.ofNat 0x0A

/-- The carriage return. -/
def carriageReturn : Char := Char.ofNat 0x0D

/-- The tabulator. -/
def tab : Char := Char.ofNat 0x09

/-- `char::is_whitespace`: the property `White_Space` of Unicode. -/
def isWhite (c : Char) : Bool :=
  (0x09 ≤ c.toNat && c.toNat ≤ 0x0D) || c.toNat == 0x20 || c.toNat == 0x85 || c.toNat == 0xA0 ||
    c.toNat == 0x1680 || (0x2000 ≤ c.toNat && c.toNat ≤ 0x200A) || c.toNat == 0x2028 ||
    c.toNat == 0x2029 || c.toNat == 0x202F || c.toNat == 0x205F || c.toNat == 0x3000

/-- `char::is_ascii_whitespace`. -/
def isAsciiWhite (c : Char) : Bool :=
  c == ' ' || c == tab || c == newline || c == Char.ofNat 0x0C || c == carriageReturn

/-! ## Trimming -/

section Trim

variable {α : Type*} (p : α → Bool)

/-- The list without what satisfies `p` at its ends. -/
def trimBy (l : List α) : List α := (l.dropWhile p).rdropWhile p

variable {p}

/-- What satisfies `p` at the front makes no difference. -/
theorem trimBy_append_left {l : List α} (h : ∀ a ∈ l, p a = true) (rest : List α) :
    trimBy p (l ++ rest) = trimBy p rest := by
  rw [trimBy, trimBy, List.dropWhile_append_of_pos h]

/-- A list with ends of another kind is trimmed. -/
theorem trimBy_eq_self {l : List α} (hhead : ∀ a ∈ l.head?, p a = false)
    (hlast : ∀ a ∈ l.getLast?, p a = false) : trimBy p l = l := by
  have hdrop : l.dropWhile p = l := by
    cases l with
    | nil => rfl
    | cons a l => exact List.dropWhile_cons_of_neg (by rw [hhead a rfl]; decide)
  rw [trimBy, hdrop]
  rcases List.eq_nil_or_concat' l with rfl | ⟨l, a, rfl⟩
  · rfl
  · exact List.rdropWhile_concat_neg _ _ _ (by rw [hlast a (by simp)]; decide)

end Trim

/-- `trim_start`. -/
def trimStart (s : Text) : Text := s.dropWhile isWhite

/-! ## Upper and lower case -/

/-- `to_ascii_uppercase`. -/
def upper (s : Text) : Text := s.map Char.toUpper

/-- `to_ascii_lowercase`. -/
def lower (s : Text) : Text := s.map Char.toLower

/-- `eq_ignore_ascii_case`. -/
def eqIgnoreCase (a b : Text) : Bool := lower a == lower b

theorem eqIgnoreCase_self (a : Text) : eqIgnoreCase a a = true := beq_self_eq_true _

/-- Texts of different length are different, in any case. -/
theorem eqIgnoreCase_eq_false {a b : Text} (h : a.length ≠ b.length) :
    eqIgnoreCase a b = false := by
  rw [eqIgnoreCase, beq_eq_false_iff_ne]
  intro heq
  have := congrArg List.length heq
  rw [lower, lower, List.length_map, List.length_map] at this
  exact h this

end Lib
