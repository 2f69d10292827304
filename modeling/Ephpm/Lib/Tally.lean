import Mathlib.Algebra.BigOperators.Group.List.Basic
import Mathlib.Data.Multiset.AddSub

/-!
# Sums over the elements of a list

What the elements of a list hold together, and how it changes when one of them is replaced,
added or removed.
-/

namespace Lib

variable {α M : Type*} [AddCommMonoid M]

/-- What the elements hold together. -/
def tally (f : α → M) (l : List α) : M := (l.map f).sum

variable {f : α → M} {l : List α} {i : ℕ} {a : α}

theorem tally_append (l₁ l₂ : List α) : tally f (l₁ ++ l₂) = tally f l₁ + tally f l₂ := by
  rw [tally, List.map_append, List.sum_append]
  rfl

theorem tally_concat (l : List α) (a : α) : tally f (l ++ [a]) = tally f l + f a := by
  rw [tally_append, tally, tally, List.map_singleton, List.sum_singleton]

/-- One that is replaced by one that holds as much. -/
theorem tally_set_eq (h : l[i]? = some a) {b : α} (hb : f b = f a) :
    tally f (l.set i b) = tally f l := by
  induction l generalizing i with
  | nil => cases h
  | cons c l ih =>
    cases i with
    | zero =>
      obtain rfl := Option.some.inj h
      change f b + tally f l = f c + tally f l
      rw [hb]
    | succ i =>
      change f c + tally f (l.set i b) = f c + tally f l
      rw [ih h]

/-- One that is removed takes what it held with it. -/
theorem tally_eraseIdx (h : l[i]? = some a) : tally f (l.eraseIdx i) + f a = tally f l := by
  induction l generalizing i with
  | nil => cases h
  | cons c l ih =>
    cases i with
    | zero =>
      obtain rfl := Option.some.inj h
      exact add_comm _ _
    | succ i =>
      change f c + tally f (l.eraseIdx i) + f a = f c + tally f l
      rw [add_assoc, ih h]

/-- One that is replaced, against the list without it. -/
theorem tally_set_eraseIdx (h : l[i]? = some a) (b : α) :
    tally f (l.set i b) = tally f (l.eraseIdx i) + f b := by
  obtain ⟨hi, -⟩ := List.getElem?_eq_some_iff.mp h
  have hset : (l.set i b)[i]? = some b := List.getElem?_set_self hi
  rw [← tally_eraseIdx hset, List.eraseIdx_set_eq]

end Lib
