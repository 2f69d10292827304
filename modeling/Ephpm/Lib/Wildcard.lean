import Mathlib.Data.List.Forall2

/-!
# Patterns with stars, and why the last star is enough

A pattern is a list of tokens: `none` is a star, which stands for any word, and `some p` takes one
letter that `p` accepts.  `Fits` says when a word fits a pattern.

A matcher with one way back keeps, for the last star it met, the pattern after the star and the
word from where the star ends.  Since every other token takes exactly one letter, what was read
since the star is as long as the tokens that read it (`Attempt`), and so

* a star that is met makes all earlier ones forgettable (`Attempt.star`);
* a mismatch lets the last star take one letter more (`Attempt.mismatch`);
* when the word ends, no other end of the last star can help (`Attempt.ended`).
-/

namespace Lib.Wildcard

variable {α : Type*}

/-- A star, or a test for one letter. -/
abbrev Token (α : Type*) := Option (α → Bool)

/-- The word fits the pattern. -/
inductive Fits : List (Token α) → List α → Prop
  | nil : Fits [] []
  | star {ts : List (Token α)} {w : List α} (skipped : List α) :
      Fits ts w → Fits (none :: ts) (skipped ++ w)
  | one {p : α → Bool} {c : α} {ts : List (Token α)} {w : List α} :
      p c = true → Fits ts w → Fits (some p :: ts) (c :: w)

variable {ts ts' : List (Token α)} {w w' : List α}

@[simp] theorem fits_nil_iff : Fits ([] : List (Token α)) w ↔ w = [] := by
  constructor
  · rintro ⟨⟩
    rfl
  · rintro rfl
    exact .nil

theorem fits_star_iff : Fits (none :: ts) w ↔ ∃ skipped rest, w = skipped ++ rest ∧ Fits ts rest := by
  constructor
  · rintro ⟨⟩
    next rest skipped fits => exact ⟨skipped, rest, rfl, fits⟩
  · rintro ⟨skipped, rest, rfl, fits⟩
    exact .star skipped fits

@[simp] theorem fits_one_cons_iff {p : α → Bool} {c : α} :
    Fits (some p :: ts) (c :: w) ↔ p c = true ∧ Fits ts w := by
  constructor
  · rintro ⟨⟩
    next accepted fits => exact ⟨accepted, fits⟩
  · rintro ⟨accepted, fits⟩
    exact .one accepted fits

theorem not_fits_one_nil {p : α → Bool} : ¬ Fits (some p :: ts) [] := by
  rintro ⟨⟩

/-- A star takes the next letter or none. -/
theorem fits_star_cons_iff {c : α} :
    Fits (none :: ts) (c :: w) ↔ Fits ts (c :: w) ∨ Fits (none :: ts) w := by
  constructor
  · intro fits
    obtain ⟨skipped, rest, hw, inner⟩ := fits_star_iff.mp fits
    cases skipped with
    | nil =>
      rw [List.nil_append] at hw
      exact .inl (hw ▸ inner)
    | cons d skipped =>
      obtain ⟨-, rfl⟩ := List.cons.inj hw
      exact .inr (.star skipped inner)
  · rintro (fits | fits)
    · exact .star [] fits
    · obtain ⟨skipped, rest, rfl, inner⟩ := fits_star_iff.mp fits
      exact .star (c :: skipped) inner

theorem Fits.star_append (fits : Fits (none :: ts) w) (more : List α) :
    Fits (none :: ts) (more ++ w) := by
  obtain ⟨skipped, rest, rfl, inner⟩ := fits_star_iff.mp fits
  rw [← List.append_assoc]
  exact .star _ inner

theorem fits_star_star_iff : Fits (none :: none :: ts) w ↔ Fits (none :: ts) w := by
  constructor
  · intro fits
    obtain ⟨skipped, rest, hw, fits⟩ := fits_star_iff.mp fits
    rw [hw]
    exact fits.star_append skipped
  · exact .star []

theorem fits_last_star : Fits [none] w := by
  rw [← List.append_nil w]
  exact .star w .nil

/-- Only stars fit the empty word. -/
theorem fits_nil_word_iff : Fits ts [] ↔ ∀ t ∈ ts, t = none := by
  induction ts with
  | nil => simp
  | cons t ts ih =>
    cases t with
    | none =>
      rw [fits_star_iff]
      simp [ih]
    | some p => simp [not_fits_one_nil]

theorem fits_tests_iff {tests : List (α → Bool)} :
    Fits (tests.map some ++ ts) w ↔ ∃ letters rest, w = letters ++ rest ∧
      List.Forall₂ (fun p c => p c = true) tests letters ∧ Fits ts rest := by
  induction tests generalizing w with
  | nil => simp
  | cons p tests ih =>
    rw [List.map_cons, List.cons_append]
    cases w with
    | nil =>
      refine iff_of_false not_fits_one_nil ?_
      rintro ⟨letters, rest, hw, read, -⟩
      obtain ⟨rfl, -⟩ := List.append_eq_nil_iff.mp hw.symm
      cases read
    | cons c w =>
      rw [fits_one_cons_iff, ih]
      constructor
      · rintro ⟨accepted, letters, rest, rfl, read, fits⟩
        exact ⟨c :: letters, rest, rfl, .cons accepted read, fits⟩
      · rintro ⟨letters, rest, hw, read, fits⟩
        cases read with
        | cons accepted read =>
          obtain ⟨rfl, rfl⟩ := List.cons.inj hw
          exact ⟨accepted, _, rest, rfl, read, fits⟩

/-! ## Reading on from a star -/

/-- Tests for one letter have read on from one place in pattern and word to another. -/
def Attempt (ts' : List (Token α)) (w' : List α) (ts : List (Token α)) (w : List α) : Prop :=
  ∃ tests letters, ts' = tests.map some ++ ts ∧ w' = letters ++ w ∧
    List.Forall₂ (fun p c => p c = true) tests letters

theorem Attempt.refl (ts : List (Token α)) (w : List α) : Attempt ts w ts w :=
  ⟨[], [], rfl, rfl, .nil⟩

theorem Attempt.read {p : α → Bool} {c : α} (attempt : Attempt ts' w' (some p :: ts) (c :: w))
    (accepted : p c = true) : Attempt ts' w' ts w := by
  obtain ⟨tests, letters, rfl, rfl, read⟩ := attempt
  refine ⟨tests ++ [p], letters ++ [c], by simp, by simp, ?_⟩
  exact List.rel_append read (.cons accepted .nil)

/-- The place that was reached is the only one that the tests can reach. -/
theorem Attempt.fits_iff (attempt : Attempt ts' w' ts w) : Fits ts' w' ↔ Fits ts w := by
  obtain ⟨tests, letters, rfl, rfl, read⟩ := attempt
  rw [fits_tests_iff]
  constructor
  · rintro ⟨letters', rest, hw, read', fits⟩
    have hlength := read.length_eq.symm.trans read'.length_eq
    obtain ⟨-, rfl⟩ := List.append_inj hw hlength
    exact fits
  · intro fits
    exact ⟨letters, w, rfl, read, fits⟩

/-- **A star makes the earlier ones forgettable**: wherever an earlier star ends, the tests after
it end where the later star may still skip to. -/
theorem Attempt.star (attempt : Attempt ts' w' (none :: ts) w) :
    Fits (none :: ts') w' ↔ Fits (none :: ts) w := by
  constructor
  · intro fits
    obtain ⟨skipped, rest, hskipped, fits⟩ := fits_star_iff.mp fits
    obtain ⟨tests, letters, rfl, hw, read⟩ := attempt
    obtain ⟨letters', rest', rfl, read', fits⟩ := fits_tests_iff.mp fits
    have hlength := read.length_eq.symm.trans read'.length_eq
    have hsuffix : rest' <:+ w := by
      refine @List.suffix_of_suffix_length_le _ _ w' _ ⟨skipped ++ letters', ?_⟩
        ⟨letters, hw.symm⟩ ?_
      · rw [hskipped, List.append_assoc]
      · have := congrArg List.length (hw.symm.trans hskipped)
        simp only [List.length_append] at this
        omega
    obtain ⟨more, rfl⟩ := hsuffix
    exact fits.star_append more
  · intro fits
    exact .star [] (attempt.fits_iff.mpr fits)

/-- **A mismatch lets the last star take one letter more.** -/
theorem Attempt.mismatch {c : α} (attempt : Attempt ts' (c :: w') ts w) (misfit : ¬ Fits ts w) :
    Fits (none :: ts') (c :: w') ↔ Fits (none :: ts') w' := by
  rw [fits_star_cons_iff, attempt.fits_iff]
  exact or_iff_right misfit

/-- **At the end of the word no other end of the last star helps**: what is left for the tests
would be too short. -/
theorem Attempt.ended (attempt : Attempt ts' w' ts []) : Fits (none :: ts') w' ↔ Fits ts [] := by
  constructor
  · intro fits
    obtain ⟨skipped, rest, hskipped, inner⟩ := fits_star_iff.mp fits
    have hrest : rest = w' := by
      obtain ⟨tests, letters, rfl, rfl, read⟩ := attempt
      obtain ⟨letters', rest', rfl, read', -⟩ := fits_tests_iff.mp inner
      have hlength := read.length_eq.symm.trans read'.length_eq
      have hwhole := congrArg List.length hskipped
      simp only [List.length_append, List.length_nil] at hwhole
      obtain rfl : skipped = [] := List.eq_nil_of_length_eq_zero (by omega)
      exact hskipped.symm
    exact attempt.fits_iff.mp (hrest ▸ inner)
  · intro fits
    exact .star [] (attempt.fits_iff.mpr fits)

end Lib.Wildcard
