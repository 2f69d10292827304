import Mathlib.Data.List.Infix
import Ephpm.Lib.Utf8

/-!
# Quoted regions and comments

A quoted region ends at its closing quote.  A doubled quote belongs to it, and so does a symbol
behind the escape symbol, if there is one.  A comment ends at a symbol or at a pair of symbols.
-/

namespace Lib

section Skip

variable {α : Type*} [DecidableEq α]

/-- What follows a quoted region, whose opening quote has been read.  There is nothing if the
region does not end. -/
def skipQuoted (quote : α) (escape : Option α) : List α → Option (List α)
  | [] => none
  | c :: rest =>
    if escape = some c then
      match rest with
      | [] => none
      | _ :: rest => skipQuoted quote escape rest
    else if c = quote then
      match rest with
      | [] => some []
      | d :: rest => if d = quote then skipQuoted quote escape rest else some (d :: rest)
    else skipQuoted quote escape rest

variable {quote : α} {escape : Option α}

theorem skipQuoted_cons_of_ne {c : α} (hescape : escape ≠ some c) (hquote : c ≠ quote)
    (rest : List α) : skipQuoted quote escape (c :: rest) = skipQuoted quote escape rest := by
  cases rest <;> simp only [skipQuoted, if_neg hescape, if_neg hquote]

theorem skipQuoted_escape {c : α} (hescape : escape = some c) (d : α) (rest : List α) :
    skipQuoted quote escape (c :: d :: rest) = skipQuoted quote escape rest := by
  rw [skipQuoted, if_pos hescape]

theorem skipQuoted_double (hescape : escape ≠ some quote) (rest : List α) :
    skipQuoted quote escape (quote :: quote :: rest) = skipQuoted quote escape rest := by
  rw [skipQuoted, if_neg hescape, if_pos rfl, if_pos rfl]

theorem skipQuoted_close (hescape : escape ≠ some quote) {rest : List α}
    (hrest : rest.head? ≠ some quote) :
    skipQuoted quote escape (quote :: rest) = some rest := by
  cases rest with
  | nil => rw [skipQuoted, if_neg hescape, if_pos rfl]
  | cons d rest =>
    rw [skipQuoted, if_neg hescape, if_pos rfl]
    exact if_neg fun h => hrest (by rw [h]; rfl)

/-- What follows a region is a suffix, behind the closing quote. -/
theorem skipQuoted_eq_some {s rest : List α} (h : skipQuoted quote escape s = some rest) :
    ∃ region, s = region ++ quote :: rest := by
  induction s using skipQuoted.induct quote escape with
  | case1 => cases h
  | case2 c hescape => simp [skipQuoted, hescape] at h
  | case3 c hescape d tail ih =>
    rw [skipQuoted_escape hescape] at h
    obtain ⟨region, rfl⟩ := ih h
    exact ⟨c :: d :: region, rfl⟩
  | case4 hescape =>
    rw [skipQuoted_close hescape (by simp)] at h
    obtain rfl := Option.some.inj h
    exact ⟨[], rfl⟩
  | case5 tail hescape ih =>
    rw [skipQuoted_double hescape] at h
    obtain ⟨region, rfl⟩ := ih h
    exact ⟨quote :: quote :: region, rfl⟩
  | case6 d tail hd hescape =>
    rw [skipQuoted_close hescape (by simpa using hd)] at h
    obtain rfl := Option.some.inj h
    exact ⟨[], rfl⟩
  | case7 c tail hescape hquote ih =>
    rw [skipQuoted_cons_of_ne hescape hquote] at h
    obtain ⟨region, rfl⟩ := ih h
    exact ⟨c :: region, rfl⟩

omit [DecidableEq α] in
theorem getLast?_of_suffix {s t : List α} (h : t <:+ s) {x : α} (hx : x ∈ t.getLast?) :
    x ∈ s.getLast? := by
  obtain ⟨front, rfl⟩ := h
  rw [List.getLast?_append, Option.mem_def.mp hx]
  rfl

/-- The first place where two symbols follow each other, or the end. -/
def seekPair (a b : α) : List α → List α
  | c :: d :: rest => if c = a ∧ d = b then c :: d :: rest else seekPair a b (d :: rest)
  | [_] => []
  | [] => []

theorem seekPair_suffix (a b : α) (s : List α) : seekPair a b s <:+ s := by
  induction s using seekPair.induct a b with
  | case1 c d rest h =>
    rw [seekPair, if_pos h]
  | case2 c d rest h ih =>
    rw [seekPair, if_neg h]
    exact ih.trans (List.suffix_cons _ _)
  | case3 c => exact List.nil_suffix
  | case4 => exact List.suffix_refl _

end Skip

end Lib
