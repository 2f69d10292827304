import Mathlib.Logic.Relation

/-!
# Paths of a step relation

A computation that is hard to read as a function is often easy to read as a path:
a finite sequence of steps of a small relation.  What one step does under an
invariant then says what the whole computation does.  The two rules here are the
only inductions over paths a client needs.
-/

namespace Lib

universe u

variable {α : Type u}

/-- A finite sequence of steps. -/
abbrev Path (Step : α → α → Prop) : α → α → Prop := Relation.ReflTransGen Step

namespace Path

variable {Step : α → α → Prop} {Inv : α → Prop} {a b : α}

/-- An invariant kept by every step is kept by every path. -/
theorem preserves (hstep : ∀ a b, Inv a → Step a b → Inv b) (path : Path Step a b)
    (inv : Inv a) : Inv b := by
  induction path with
  | refl => exact inv
  | tail _ step ih => exact hstep _ _ ih step

/-- A reflexive and transitive relation that holds across every step from a state
with the invariant holds across every path from one. -/
theorem relates {R : α → α → Prop} (hinv : ∀ a b, Inv a → Step a b → Inv b)
    (hrefl : ∀ a, R a a) (htrans : ∀ a b c, R a b → R b c → R a c)
    (hstep : ∀ a b, Inv a → Step a b → R a b) (path : Path Step a b) (inv : Inv a) :
    R a b := by
  induction path with
  | refl => exact hrefl _
  | tail before step ih =>
    exact htrans _ _ _ ih (hstep _ _ (preserves hinv before inv) step)

theorem of_foldlM {ε : Type*} {step : α → ε → Option α} {events : List ε}
    (h : events.foldlM step a = some b) : Path (fun a b => ∃ e, step a e = some b) a b := by
  induction events generalizing a with
  | nil =>
    obtain rfl := Option.some.inj h
    exact .refl
  | cons e events ih =>
    rw [List.foldlM_cons] at h
    obtain ⟨c, hfirst, hrest⟩ := Option.bind_eq_some_iff.mp h
    exact .head ⟨e, hfirst⟩ (ih hrest)

/-- The same with a condition on every event. -/
theorem of_guarded_foldlM {ε : Type*} {P : α → ε → Prop} [∀ a e, Decidable (P a e)]
    {step : α → ε → Option α} {events : List ε}
    (h : events.foldlM (fun a e => if P a e then step a e else none) a = some b) :
    Path (fun a b => ∃ e, P a e ∧ step a e = some b) a b := by
  refine Relation.ReflTransGen.mono ?_ _ _ (of_foldlM h)
  rintro a b ⟨e, he⟩
  split at he
  next hP => exact ⟨e, hP, he⟩
  next => cases he

end Path

end Lib
