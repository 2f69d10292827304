import Mathlib.Algebra.Order.Ring.Defs
import Mathlib.Data.List.Pairwise
import Mathlib.Tactic.Linarith
import Mathlib.Tactic.Positivity
import Mathlib.Tactic.Ring

/-!
# The ideal token bucket

A bucket holds at most `burst` tokens and gets `rate` more per unit of time.  A call takes one token
if there is one, and is told whether there was.  Nothing is rounded and nothing is forgotten.

**What it allows is bounded over every window**: between `t₀` and `t₁` at most
`burst + rate * (t₁ - t₀)` calls (`IdealBucket.allowed_le`), whatever was called before.
-/

namespace Lib.IdealBucket

variable {K : Type*} [CommRing K] [LinearOrder K] (rate burst : K)

/-- The level after some time. -/
def refill (level elapsed : K) : K := min burst (level + rate * elapsed)

/-- The calls at the given times with their answers, for a bucket that had `level` tokens at the
time `last`. -/
def calls : K → K → List K → List (K × Bool)
  | _, _, [] => []
  | level, last, t :: ts =>
    let refilled := refill rate burst level (t - last)
    if 1 ≤ refilled then (t, true) :: calls (refilled - 1) t ts
    else (t, false) :: calls refilled t ts

omit [CommRing K] in
/-- The calls from `t₀` to `t₁` that are allowed. -/
def allowed (t₀ t₁ : K) (log : List (K × Bool)) : ℕ :=
  log.countP fun call => decide (t₀ ≤ call.1) && decide (call.1 ≤ t₁) && call.2

variable {rate burst}

theorem calls_cons_of_le {level last t : K} (ts : List K)
    (h : 1 ≤ refill rate burst level (t - last)) :
    calls rate burst level last (t :: ts) =
      (t, true) :: calls rate burst (refill rate burst level (t - last) - 1) t ts := by
  simp only [calls, if_pos h]

theorem calls_cons_of_lt {level last t : K} (ts : List K)
    (h : ¬ 1 ≤ refill rate burst level (t - last)) :
    calls rate burst level last (t :: ts) =
      (t, false) :: calls rate burst (refill rate burst level (t - last)) t ts := by
  simp only [calls, if_neg h]

/-- The answers are about the calls that were made. -/
theorem calls_map_fst (level last : K) (ts : List K) :
    (calls rate burst level last ts).map Prod.fst = ts := by
  induction ts generalizing level last with
  | nil => rfl
  | cons t ts ih =>
    by_cases h : 1 ≤ refill rate burst level (t - last)
    · rw [calls_cons_of_le ts h, List.map_cons, ih]
    · rw [calls_cons_of_lt ts h, List.map_cons, ih]

theorem refill_le (level elapsed : K) : refill rate burst level elapsed ≤ burst := min_le_left _ _

omit [CommRing K] in
theorem allowed_cons (t₀ t₁ : K) (call : K × Bool) (log : List (K × Bool)) :
    allowed t₀ t₁ (call :: log) =
      allowed t₀ t₁ log + if t₀ ≤ call.1 ∧ call.1 ≤ t₁ ∧ call.2 = true then 1 else 0 := by
  rw [allowed, List.countP_cons, allowed]
  by_cases h : t₀ ≤ call.1 ∧ call.1 ≤ t₁ ∧ call.2 = true
  · simp [h.1, h.2.1, h.2.2]
  · rw [if_neg h, if_neg]
    simp only [Bool.and_eq_true, decide_eq_true_eq]
    exact fun hall => h ⟨hall.1.1, hall.1.2, hall.2⟩

/-- Once a call comes after a window, no later call is in it. -/
theorem allowed_calls_of_lt {t₀ t₁ level last t : K} {ts : List K}
    (hsorted : (t :: ts).Pairwise (· ≤ ·)) (hafter : t₁ < t) :
    allowed t₀ t₁ (calls rate burst level last (t :: ts)) = 0 := by
  rw [allowed, List.countP_eq_zero]
  intro call hcall
  have hmem := List.mem_map_of_mem (f := Prod.fst) hcall
  rw [calls_map_fst] at hmem
  have hlt : t₁ < call.1 := by
    rcases List.mem_cons.mp hmem with heq | hmem
    · exact heq ▸ hafter
    · exact lt_of_lt_of_le hafter ((List.pairwise_cons.mp hsorted).1 _ hmem)
  simp [not_le.mpr hlt]

section Window

variable [IsStrictOrderedRing K] (hrate : 0 ≤ rate) (hburst : 0 ≤ burst)

include hrate

/-- Time that passes in two pieces fills the bucket as much as at once. -/
theorem refill_refill {level elapsed elapsed' : K} (h : 0 ≤ elapsed') :
    refill rate burst (refill rate burst level elapsed) elapsed' =
      refill rate burst level (elapsed + elapsed') := by
  have hgain : 0 ≤ rate * elapsed' := by positivity
  rw [refill, refill, refill, min_add, ← min_assoc, min_eq_left (le_add_of_nonneg_right hgain),
    add_assoc, ← mul_add]

include hburst

theorem refill_nonneg {level elapsed : K} (hlevel : 0 ≤ level) (helapsed : 0 ≤ elapsed) :
    0 ≤ refill rate burst level elapsed :=
  le_min hburst (by positivity)

/-- From a time within the window the bucket gives away no more than what it has and what it gets.
-/
theorem allowed_le_level (t₀ t₁ : K) :
    ∀ {ts : List K} {level last : K}, 0 ≤ level → last ≤ t₁ → (last :: ts).Pairwise (· ≤ ·) →
      (allowed t₀ t₁ (calls rate burst level last ts) : K) ≤ level + rate * (t₁ - last) := by
  intro ts
  induction ts with
  | nil =>
    intro level last hlevel hlast _
    have hgain : 0 ≤ rate * (t₁ - last) := mul_nonneg hrate (sub_nonneg.mpr hlast)
    simpa [allowed, calls] using add_nonneg hlevel hgain
  | cons t ts ih =>
    intro level last hlevel hlast hsorted
    obtain ⟨hfirst, hrest⟩ := List.pairwise_cons.mp hsorted
    have hlt : last ≤ t := hfirst t (by simp)
    by_cases hwindow : t ≤ t₁
    · have hrefill : refill rate burst level (t - last) ≤ level + rate * (t - last) := min_le_right _ _
      have hsplit : rate * (t₁ - last) = rate * (t - last) + rate * (t₁ - t) := by ring
      by_cases htoken : 1 ≤ refill rate burst level (t - last)
      · rw [calls_cons_of_le ts htoken, allowed_cons]
        have hle := ih (sub_nonneg.mpr htoken) hwindow hrest
        split_ifs <;> push_cast <;> linarith
      · rw [calls_cons_of_lt ts htoken, allowed_cons, if_neg (by simp)]
        have hle := ih (refill_nonneg hrate hburst hlevel (sub_nonneg.mpr hlt)) hwindow hrest
        push_cast
        linarith
    · rw [allowed_calls_of_lt hrest (not_le.mp hwindow)]
      have hgain : 0 ≤ rate * (t₁ - last) := mul_nonneg hrate (sub_nonneg.mpr hlast)
      simpa using add_nonneg hlevel hgain

/-- **A window lets no more calls through than `burst` and what comes in during it.** -/
theorem allowed_le {t₀ t₁ : K} (hwindow : t₀ ≤ t₁) :
    ∀ {ts : List K} {level last : K}, 0 ≤ level → level ≤ burst → (last :: ts).Pairwise (· ≤ ·) →
      (allowed t₀ t₁ (calls rate burst level last ts) : K) ≤ burst + rate * (t₁ - t₀) := by
  intro ts
  have hgain : 0 ≤ rate * (t₁ - t₀) := mul_nonneg hrate (sub_nonneg.mpr hwindow)
  induction ts with
  | nil =>
    intro level last _ _ _
    simpa [allowed, calls] using add_nonneg hburst hgain
  | cons t ts ih =>
    intro level last hlevel hle hsorted
    obtain ⟨hfirst, hrest⟩ := List.pairwise_cons.mp hsorted
    have hlevel' := refill_nonneg hrate hburst hlevel (sub_nonneg.mpr (hfirst t (by simp)))
    have hle' : refill rate burst level (t - last) ≤ burst := refill_le _ _
    rcases lt_or_ge t t₀ with hbefore | hstarted
    · -- the call is before the window, and leaves a bucket like the one before it
      by_cases htoken : 1 ≤ refill rate burst level (t - last)
      · rw [calls_cons_of_le ts htoken, allowed_cons, if_neg (by simp [not_le.mpr hbefore]), add_zero]
        exact ih (sub_nonneg.mpr htoken) (by linarith) hrest
      · rw [calls_cons_of_lt ts htoken, allowed_cons, if_neg (by simp), add_zero]
        exact ih hlevel' hle' hrest
    · rcases le_or_gt t t₁ with hinside | hafter
      · have hsub : rate * (t₁ - t) ≤ rate * (t₁ - t₀) :=
          mul_le_mul_of_nonneg_left (by linarith) hrate
        by_cases htoken : 1 ≤ refill rate burst level (t - last)
        · rw [calls_cons_of_le ts htoken, allowed_cons]
          have hlater := allowed_le_level hrate hburst t₀ t₁ (sub_nonneg.mpr htoken) hinside hrest
          split_ifs <;> push_cast <;> linarith
        · rw [calls_cons_of_lt ts htoken, allowed_cons, if_neg (by simp)]
          have hlater := allowed_le_level hrate hburst t₀ t₁ hlevel' hinside hrest
          push_cast
          linarith
      · rw [allowed_calls_of_lt hrest hafter]
        simpa using add_nonneg hburst hgain

end Window

end Lib.IdealBucket
