import Mathlib.Data.List.TakeWhile
import Ephpm.Lib.Text

/-!
# Cutting a list at a separator

The first step of splitting a text into fields.  The cut is made at **the first separator**, so
the part before it never contains one, and putting a text together from parts and cutting it
again gives the first part back exactly if that is free of separators.

`chunks` cuts a list by length instead, and what it cuts is nothing but the list.
-/

namespace Lib

variable {α : Type*} [DecidableEq α] {sep : α} {xs first rest : List α}

/-- The parts before and after the first separator, if there is one. -/
def cutAt (sep : α) (xs : List α) : Option (List α × List α) :=
  match xs.dropWhile (· ≠ sep) with
  | [] => none
  | _ :: rest => some (xs.takeWhile (· ≠ sep), rest)

omit [DecidableEq α] in
/-- What is taken does not go past an element that stops it. -/
theorem takeWhile_append_cons {p : α → Bool} {x : α} (hx : p x = false) (l rest : List α) :
    (l ++ x :: rest).takeWhile p = l.takeWhile p := by
  induction l with
  | nil => simp [hx]
  | cons y l ih => simp only [List.cons_append, List.takeWhile_cons, ih]

omit [DecidableEq α] in
theorem dropWhile_append_cons {p : α → Bool} {x : α} (hx : p x = false) (l rest : List α) :
    (l ++ x :: rest).dropWhile p = l.dropWhile p ++ x :: rest := by
  induction l with
  | nil => simp [hx]
  | cons y l ih =>
    simp only [List.cons_append, List.dropWhile_cons, ih]
    split <;> rfl

/-- A list is cut where its first part ends, if that contains no separator. -/
theorem cutAt_append (h : sep ∉ first) : cutAt sep (first ++ sep :: rest) = some (first, rest) := by
  have hfree : ∀ x ∈ first, decide (x ≠ sep) = true := by
    intro x hx
    rw [decide_eq_true_eq]
    rintro rfl
    exact h hx
  have hdrop : (first ++ sep :: rest).dropWhile (· ≠ sep) = sep :: rest := by
    rw [List.dropWhile_append_of_pos hfree]
    simp
  have htake : (first ++ sep :: rest).takeWhile (· ≠ sep) = first := by
    rw [List.takeWhile_append_of_pos hfree]
    simp
  simp only [cutAt, hdrop, htake]

/-- A list without a separator is not cut. -/
theorem cutAt_eq_none (h : sep ∉ xs) : cutAt sep xs = none := by
  have hdrop : xs.dropWhile (· ≠ sep) = [] := by
    rw [List.dropWhile_eq_nil_iff]
    intro x hx
    rw [decide_eq_true_eq]
    rintro rfl
    exact h hx
  simp only [cutAt, hdrop]

/-- Where a list was cut, the parts and the separator make it up. -/
theorem cutAt_eq_some (h : cutAt sep xs = some (first, rest)) : xs = first ++ sep :: rest := by
  unfold cutAt at h
  split at h
  · cases h
  next x rest' hdrop =>
    obtain ⟨rfl, rfl⟩ := Prod.mk.inj (Option.some.inj h)
    have hsep : x = sep := by
      have hhead := List.head?_dropWhile_not (· ≠ sep) xs
      rw [hdrop] at hhead
      simpa using hhead
    rw [hsep] at hdrop
    rw [← hdrop, List.takeWhile_append_dropWhile]

/-- The first part contains no separator. -/
theorem sep_notMem_of_cutAt (h : cutAt sep xs = some (first, rest)) : sep ∉ first := by
  unfold cutAt at h
  split at h
  · cases h
  · obtain ⟨rfl, rfl⟩ := Prod.mk.inj (Option.some.inj h)
    intro hmem
    have := List.mem_takeWhile_imp hmem
    simp at this

/-! ## Words -/

omit [DecidableEq α] in
/-- The first part ends where the first separator is. -/
theorem exists_splitOnP_eq (p : α → Bool) (xs : List α) :
    ∃ parts, xs.splitOnP p = xs.takeWhile (fun x => !p x) :: parts := by
  induction xs with
  | nil => exact ⟨[], rfl⟩
  | cons x xs ih =>
    rw [List.splitOnP_cons_eq_if_modifyHead]
    split_ifs with hx
    · exact ⟨_, by rw [List.takeWhile_cons_of_neg (by simp [hx])]⟩
    · obtain ⟨parts, hxs⟩ := ih
      refine ⟨parts, ?_⟩
      rw [hxs, List.modifyHead_cons, List.takeWhile_cons_of_pos (by simp [hx])]

/-! ## Pieces of one length -/

section Chunks

variable {β : Type*} {size : ℕ}

/-- The pieces of a length, the last one maybe shorter. -/
def chunks (size : ℕ) (l : List β) : List (List β) :=
  if _h : l = [] ∨ size = 0 then [] else l.take size :: chunks size (l.drop size)
  termination_by l.length
  decreasing_by
    have hpos : 0 < l.length := List.length_pos_iff.mpr fun h => _h (Or.inl h)
    rw [List.length_drop]
    omega

theorem chunks_nil (size : ℕ) : chunks size ([] : List β) = [] := by
  rw [chunks, dif_pos (Or.inl rfl)]

theorem chunks_cons (hsize : size ≠ 0) {l : List β} (hl : l ≠ []) :
    chunks size l = l.take size :: chunks size (l.drop size) := by
  rw [chunks, dif_neg (not_or.mpr ⟨hl, hsize⟩)]

/-- **The pieces make up the list**, and none of them is empty. -/
theorem chunks_spec (hsize : size ≠ 0) (l : List β) :
    (chunks size l).flatten = l ∧ ∀ piece ∈ chunks size l, piece ≠ [] := by
  induction hn : l.length using Nat.strong_induction_on generalizing l with
  | _ n ih =>
    by_cases hl : l = []
    · rw [hl, chunks_nil]
      exact ⟨rfl, fun _ h => absurd h List.not_mem_nil⟩
    · have hpos : 0 < l.length := List.length_pos_iff.mpr hl
      have hless : (l.drop size).length < n := by
        rw [List.length_drop]
        omega
      obtain ⟨hflat, hne⟩ := ih _ hless (l.drop size) rfl
      rw [chunks_cons hsize hl]
      refine ⟨?_, List.forall_mem_cons.mpr ⟨?_, hne⟩⟩
      · rw [List.flatten_cons, hflat, List.take_append_drop]
      · rw [Ne, List.take_eq_nil_iff]
        exact not_or.mpr ⟨hsize, hl⟩

end Chunks

end Lib
