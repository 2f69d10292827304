import Mathlib.Algebra.Order.Ring.Nat
import Mathlib.Algebra.Order.Sub.Basic
import Mathlib.Data.List.Induction
import Mathlib.Data.Nat.SuccPred

/-!
# Greatest and least elements of a list

`maxBy` and `minBy` pick an element by a comparison function, in one pass: of several elements
that compare equal, the last greatest and the first least one.  Where the comparison is that of
a **key** in a linear order, what they pick is an upper (lower) bound of the keys; where keys
tell the elements apart, it is the only one.

`keepGreater` is the same pass one offer at a time, from nothing: of several elements with the
greatest key it ends at the first (`foldl_keepGreater_eq_some_iff`).
-/

namespace Lib

universe u v

variable {α : Type u} {β : Type v}

/-- The greatest element, the last one of those that compare equal. -/
def maxBy (cmp : α → α → Ordering) : List α → Option α
  | [] => none
  | x :: xs => some (xs.foldl (fun best y => if cmp best y = .gt then best else y) x)

/-- The least element, the first one of those that compare equal. -/
def minBy (cmp : α → α → Ordering) : List α → Option α
  | [] => none
  | x :: xs => some (xs.foldl (fun best y => if cmp best y = .gt then y else best) x)

/-- A fold that keeps one of two elements, and loses to neither, ends at an upper bound. -/
theorem foldl_pick_spec [Preorder β] {key : α → β} {pick : α → α → α}
    (hpick : ∀ a b, (pick a b = a ∨ pick a b = b) ∧ key a ≤ key (pick a b) ∧
      key b ≤ key (pick a b)) (first : α) (rest : List α) :
    rest.foldl pick first ∈ first :: rest ∧
      ∀ y ∈ first :: rest, key y ≤ key (rest.foldl pick first) := by
  induction rest generalizing first with
  | nil => simp
  | cons second rest ih =>
    obtain ⟨hmem, hbound⟩ := ih (pick first second)
    obtain ⟨heither, hfirst, hsecond⟩ := hpick first second
    have hbest := hbound _ List.mem_cons_self
    refine ⟨?_, fun y hy => ?_⟩
    · rcases List.mem_cons.mp hmem with heq | hrest
      · rw [List.foldl_cons, heq]
        rcases heither with hleft | hright
        · rw [hleft]
          exact List.mem_cons_self
        · rw [hright]
          exact List.mem_cons_of_mem _ List.mem_cons_self
      · exact List.mem_cons_of_mem _ (List.mem_cons_of_mem _ hrest)
    · rcases List.mem_cons.mp hy with rfl | hy
      · exact hfirst.trans hbest
      · rcases List.mem_cons.mp hy with rfl | hy
        · exact hsecond.trans hbest
        · exact hbound y (List.mem_cons_of_mem _ hy)

section Keys

variable [LinearOrder β] {key : α → β} {cmp : α → α → Ordering}
  (hcmp : ∀ a b, cmp a b = compare (key a) (key b))
include hcmp

theorem maxBy_spec {xs : List α} {x : α} (h : maxBy cmp xs = some x) :
    x ∈ xs ∧ ∀ y ∈ xs, key y ≤ key x := by
  cases xs with
  | nil => cases h
  | cons first rest =>
    obtain rfl := Option.some.inj h
    refine foldl_pick_spec (fun a b => ?_) first rest
    rw [hcmp]
    split
    next hgt => exact ⟨Or.inl rfl, le_rfl, (compare_gt_iff_gt.mp hgt).le⟩
    next hle =>
      exact ⟨Or.inr rfl, not_lt.mp fun hlt => hle (compare_gt_iff_gt.mpr hlt), le_rfl⟩

theorem minBy_spec {xs : List α} {x : α} (h : minBy cmp xs = some x) :
    x ∈ xs ∧ ∀ y ∈ xs, key x ≤ key y := by
  cases xs with
  | nil => cases h
  | cons first rest =>
    obtain rfl := Option.some.inj h
    -- a lower bound is an upper bound of the dual order
    refine @foldl_pick_spec α βᵒᵈ _ (OrderDual.toDual ∘ key)
      (fun best y => if cmp best y = .gt then y else best) (fun a b => ?_) first rest
    simp only [Function.comp_apply, OrderDual.toDual_le_toDual]
    rw [hcmp]
    split
    next hgt => exact ⟨Or.inr rfl, (compare_gt_iff_gt.mp hgt).le, le_rfl⟩
    next hle =>
      exact ⟨Or.inl rfl, le_rfl, not_lt.mp fun hlt => hle (compare_gt_iff_gt.mpr hlt)⟩

/-- Where keys tell elements apart, the greatest one is the only upper bound. -/
theorem maxBy_eq_some_iff {xs : List α} (hinj : ∀ a ∈ xs, ∀ b ∈ xs, key a = key b → a = b) {x : α} :
    maxBy cmp xs = some x ↔ x ∈ xs ∧ ∀ y ∈ xs, key y ≤ key x := by
  refine ⟨maxBy_spec hcmp, fun ⟨hmem, hbound⟩ => ?_⟩
  cases hmax : maxBy cmp xs with
  | none =>
    cases xs with
    | nil => exact absurd hmem List.not_mem_nil
    | cons first rest => cases hmax
  | some z =>
    obtain ⟨hz, hupper⟩ := maxBy_spec hcmp hmax
    rw [hinj z hz x hmem (le_antisymm (hbound z hz) (hupper x hmem))]

end Keys

section KeepGreater

variable [LinearOrder β] {key : α → β}

/-- Keep what is there unless the newcomer's key is strictly greater. -/
def keepGreater (key : α → β) (best : Option α) (x : α) : Option α :=
  if best.all (fun b => decide (key b < key x)) then some x else best

/-- `x` has the greatest key of the list, and nothing before it has as great a one. -/
def Leads (key : α → β) (xs : List α) (x : α) : Prop :=
  ∃ i : ℕ, xs[i]? = some x ∧ ∀ (j : ℕ) (y : α), xs[j]? = some y → key y ≤ key x ∧ (j < i → key y < key x)

theorem Leads.unique {xs : List α} {x y : α} (hx : Leads key xs x) (hy : Leads key xs y) :
    x = y := by
  obtain ⟨i, hi, hleft⟩ := hx
  obtain ⟨j, hj, hright⟩ := hy
  rcases lt_trichotomy i j with hlt | rfl | hgt
  · exact absurd ((hright i x hi).2 hlt) (not_lt.mpr (hleft j y hj).1)
  · exact Option.some.inj (hi.symm.trans hj)
  · exact absurd ((hleft j y hj).2 hgt) (not_lt.mpr (hright i x hi).1)

/-- One more element: it leads if its key beats the leader's, and changes nothing otherwise. -/
theorem Leads.concat {xs : List α} {x y : α} (h : Leads key xs x) :
    Leads key (xs ++ [y]) (if key x < key y then y else x) := by
  obtain ⟨i, hi, hbest⟩ := h
  have hin : i < xs.length := (List.getElem?_eq_some_iff.mp hi).1
  have hcases : ∀ (j : ℕ) (z : α), (xs ++ [y])[j]? = some z →
      xs[j]? = some z ∨ j = xs.length ∧ z = y := by
    intro j z hz
    rcases lt_or_ge j xs.length with hlt | hge
    · exact Or.inl (by rwa [List.getElem?_append_left hlt] at hz)
    · rw [List.getElem?_append_right hge] at hz
      have hat : j - xs.length = 0 := by
        have := (List.getElem?_eq_some_iff.mp hz).1
        simpa using this
      rw [hat] at hz
      exact Or.inr ⟨by omega, (Option.some.inj hz).symm⟩
  split
  next hbeats =>
    refine ⟨xs.length, by simp, fun j z hz => ?_⟩
    rcases hcases j z hz with hold | ⟨rfl, rfl⟩
    · have hlt := (hbest j z hold).1.trans_lt hbeats
      exact ⟨hlt.le, fun _ => hlt⟩
    · exact ⟨le_rfl, fun hlt => absurd hlt (lt_irrefl _)⟩
  next hloses =>
    refine ⟨i, by rw [List.getElem?_append_left hin, hi], fun j z hz => ?_⟩
    rcases hcases j z hz with hold | ⟨rfl, rfl⟩
    · exact hbest j z hold
    · exact ⟨not_lt.mp hloses, fun hlt => absurd hlt (by omega)⟩

/-- Offering the elements one by one ends at the one that leads. -/
theorem foldl_keepGreater_eq_some_iff {xs : List α} {x : α} :
    xs.foldl (keepGreater key) none = some x ↔ Leads key xs x := by
  -- the fold ends at a leader unless there is nothing to offer; leaders are unique
  have hfold : xs = [] ∨ ∃ z, xs.foldl (keepGreater key) none = some z ∧ Leads key xs z := by
    induction xs using List.reverseRecOn with
    | nil => exact Or.inl rfl
    | append_singleton xs y ih =>
      refine Or.inr ?_
      rw [List.foldl_append]
      rcases ih with rfl | ⟨z, hz, hleads⟩
      · refine ⟨y, rfl, 0, rfl, fun j w hw => ?_⟩
        obtain ⟨rfl, rfl⟩ : j = 0 ∧ w = y := by
          cases j with
          | zero => exact ⟨rfl, (Option.some.inj hw).symm⟩
          | succ j => cases hw
        exact ⟨le_rfl, fun hlt => absurd hlt (lt_irrefl _)⟩
      · refine ⟨_, ?_, hleads.concat⟩
        rw [hz, List.foldl_cons, List.foldl_nil, keepGreater]
        by_cases hlt : key z < key y
        · simp [hlt]
        · simp [hlt]
  rcases hfold with rfl | ⟨z, hz, hleads⟩
  · refine ⟨fun h => (by cases h), fun h => ?_⟩
    obtain ⟨i, hi, -⟩ := h
    cases hi
  · rw [hz]
    exact ⟨fun h => Option.some.inj h ▸ hleads, fun h => congrArg some (hleads.unique h)⟩

end KeepGreater

theorem minBy_isSome {cmp : α → α → Ordering} {xs : List α} (h : xs ≠ []) :
    (minBy cmp xs).isSome = true := by
  cases xs with
  | nil => exact absurd rfl h
  | cons first rest => rfl

end Lib
