import Ephpm.Server.SnapshotVetting

/-!
# How an engine reads a text

The text that a client sends is cut into statements by the server and, once more, by the engine that
runs it. The engine reads it in one of two dialects: that of SQLite or that of MySQL.  This module
has **the two readings**, to be compared with what the server makes of a text.

They differ from each other, and from any simple scan:

* SQLite reads names in brackets, in which a quote or a semicolon is a letter like any other.
* MySQL reads `#` as the start of a comment, and `--` only if white space follows.
* A bare name may have letters beyond ASCII, and MySQL knows escapes in quoted names.
-/

namespace Ephpm.Bridge

open Lib Lib.Lexer Server

/-- How an engine reads a text: with its lexer. -/
abbrev Reading := Rules

/-- White space between words. -/
def isSpace (c : Char) : Bool := c == ' ' || (0x09 ≤ c.toNat && c.toNat ≤ 0x0D)

/-- A comment that ends with the line, for MySQL: `#`, or `--` with white space or a control
character behind it. -/
def mysqlLine : Text → Bool
  | '#' :: _ => true
  | '-' :: '-' :: [] => true
  | '-' :: '-' :: c :: _ => c.toNat ≤ 0x20 || c.toNat == 0x7F
  | _ => false

/-- What the lexer of MySQL knows. -/
def mysqlRules : Rules where
  region c :=
    if c = quote ∨ c = doubleQuote then some ⟨c, true, some backslash⟩
    else if c = backtick then some (quoted c)
    else none
  lineComment := mysqlLine
  openEnd := true

/-- As SQLite reads. -/
def sqlite : Reading := sqliteRules

/-- As MySQL reads. -/
def mysql : Reading := mysqlRules

namespace Reading

variable (r : Reading)

/-- The statements of a text. -/
def statements (sql : Text) : List Text := (r.split sql).all

/-- White space and comments are nothing. -/
def noise (s : Text) : Text := strip isSpace r.lineComment s

/-- What follows the word that a text starts with, if it is the given one. -/
def after (word : String) (s : Text) : Option Text :=
  let place := r.noise s
  if upper (place.takeWhile isIdChar) = word.toList then some (place.dropWhile isIdChar) else none

end Reading

theorem isWhite_of_isSpace {c : Char} (h : isSpace c = true) : isWhite c = true := by
  simp only [isSpace, Bool.or_eq_true, beq_iff_eq, Bool.and_eq_true, decide_eq_true_eq] at h
  rcases h with rfl | ⟨hlow, hhigh⟩
  · decide
  · simp [isWhite, hlow, hhigh]

theorem isAlpha_of_toUpper {c : Char} (h : c.toUpper.isAlpha = true) : c.isAlpha = true := by
  unfold Char.toUpper at h
  split_ifs at h with hlower
  · have hlow : c.isLower = true :=
      Bool.and_eq_true_iff.mpr ⟨decide_eq_true hlower.1, decide_eq_true hlower.2⟩
    exact Bool.or_eq_true_iff.mpr (.inr hlow)
  · exact h

end Ephpm.Bridge
