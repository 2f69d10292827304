import Mathlib.Algebra.Order.Group.Multiset

/-!
# Departures that are made good by a check

Members leave a group, and each one looks **after it has left** whether enough are still there:
it reads the count, later reads what is needed, and either is content or owes a replacement, which
comes later still.  All the reads are stale by the time they are used.  Still the group is not
left short: when nobody is between its departure and the end of its check, there are enough.

The reason is an order.  Put those who have left and not looked yet, and those who have looked,
into a row, where **one who looks goes to its end**.  The count that a member has seen can only
have gone down by departures of members that stand behind it, so a member that is content leaves
behind it enough members for what is missing.
-/

namespace Lib

/-- Where one that has left is: it has not looked, it has seen a count, or it owes a
replacement. -/
inductive Check where
  | unread
  | read (count : ℕ)
  | owed
deriving DecidableEq

/-- What the count must still account for, for the sake of one in the row. -/
def Check.bound (need : ℕ) : Check → ℕ
  | .read count => min count need
  | _ => 0

theorem Check.bound_le (need : ℕ) (x : Check) : x.bound need ≤ need := by
  cases x with
  | read count => exact Nat.min_le_right _ _
  | unread => exact Nat.zero_le _
  | owed => exact Nat.zero_le _

theorem Check.bound_add {need need' k : ℕ} (h : need' ≤ need + k) (x : Check) :
    x.bound need' ≤ x.bound need + k := by
  cases x with
  | read count =>
    simp only [Check.bound]
    omega
  | unread => exact Nat.zero_le _
  | owed => exact Nat.zero_le _

/-- Whatever one in the row has seen is there, or is to come from those behind it. -/
def Seen (need count : ℕ) : List Check → Prop
  | [] => True
  | x :: row => x.bound need ≤ count + row.length ∧ Seen need count row

variable {need need' count count' : ℕ} {row : List Check}

theorem seen_append (row₁ row₂ : List Check) :
    Seen need count (row₁ ++ row₂)
      ↔ Seen need (count + row₂.length) row₁ ∧ Seen need count row₂ := by
  induction row₁ with
  | nil => exact (and_iff_right trivial).symm
  | cons x row₁ ih =>
    have hlen : count + (row₁ ++ row₂).length = count + row₂.length + row₁.length := by
      rw [List.length_append]
      omega
    simp only [List.cons_append, Seen, ih, hlen, and_assoc]

theorem Seen.mono (h : Seen need count row) {k : ℕ} (hneed : need' ≤ need + k)
    (hcount : count + k ≤ count') : Seen need' count' row := by
  induction row with
  | nil => trivial
  | cons x row ih =>
    have hx := x.bound_add hneed
    have := h.1
    exact ⟨by omega, ih h.2⟩

theorem Seen.more (h : Seen need count row) (hcount : count ≤ count') : Seen need count' row :=
  h.mono (Nat.le_add_right need 0) hcount

theorem seen_of_le (h : need ≤ count) : Seen need count row := by
  induction row with
  | nil => trivial
  | cons x row ih =>
    have := x.bound_le need
    exact ⟨by omega, ih⟩

/-- There are enough, with the checks that are still to come, in some order of them. -/
def Balanced (need count : ℕ) (checks : Multiset Check) : Prop :=
  ∃ row : List Check, (row : Multiset Check) = checks ∧ need ≤ count + row.length ∧
    Seen need count row

theorem exists_split {α : Type*} {row : List α} {rest : Multiset α} {x : α}
    (h : (row : Multiset α) = rest + {x}) :
    ∃ row₁ row₂, row = row₁ ++ x :: row₂ ∧ ((row₁ ++ row₂ : List α) : Multiset α) = rest := by
  have hmem : x ∈ row := by
    rw [← Multiset.mem_coe, h]
    exact Multiset.mem_add.mpr (.inr (Multiset.mem_singleton_self x))
  obtain ⟨row₁, row₂, rfl⟩ := List.append_of_mem hmem
  refine ⟨row₁, row₂, rfl, ?_⟩
  have hmiddle : ((row₁ ++ x :: row₂ : List α) : Multiset α) = ↑(x :: (row₁ ++ row₂)) :=
    Multiset.coe_eq_coe.mpr List.perm_middle
  rw [hmiddle, ← Multiset.cons_coe, ← Multiset.singleton_add, add_comm] at h
  exact add_right_cancel h

namespace Balanced

variable {rest : Multiset Check}

theorem start (h : need ≤ count) : Balanced need count 0 := ⟨[], rfl, h, trivial⟩

/-- Nobody is between its departure and the end of its check. -/
theorem enough (h : Balanced need count 0) : need ≤ count := by
  obtain ⟨row, hrow, htotal, -⟩ := h
  obtain rfl := Multiset.coe_eq_zero _ |>.mp hrow
  exact htotal

/-- What is needed grows by no more than what is there. -/
theorem mono (h : Balanced need count rest) {k : ℕ} (hneed : need' ≤ need + k)
    (hcount : count + k ≤ count') : Balanced need' count' rest := by
  obtain ⟨row, hrow, htotal, hseen⟩ := h
  exact ⟨row, hrow, by omega, hseen.mono hneed hcount⟩

theorem leave (h : Balanced need (count + 1) rest) : Balanced need count (rest + {.unread}) := by
  obtain ⟨row, rfl, htotal, hseen⟩ := h
  refine ⟨row ++ [.unread], ?_, ?_, (seen_append _ _).mpr ⟨hseen, Nat.zero_le _, trivial⟩⟩
  · rw [← Multiset.coe_add]
    rfl
  · rw [List.length_append, List.length_singleton]
    omega

/-- One who looks goes to the end of the row. -/
theorem look (h : Balanced need count (rest + {.unread})) {seen : ℕ} (hle : seen ≤ count) :
    Balanced need count (rest + {.read seen}) := by
  obtain ⟨row, hrow, htotal, hseen⟩ := h
  obtain ⟨row₁, row₂, rfl, rfl⟩ := exists_split hrow
  obtain ⟨hseen₁, -, hseen₂⟩ := (seen_append _ _).mp hseen
  have hlast : (Check.read seen).bound need ≤ count + 0 := by
    simp only [Check.bound]
    omega
  refine ⟨row₁ ++ row₂ ++ [.read seen], ?_, ?_, (seen_append _ _).mpr ⟨?_, hlast, trivial⟩⟩
  · rw [← Multiset.coe_add]
    rfl
  · simp only [List.length_append, List.length_cons, List.length_nil] at htotal ⊢
    omega
  · refine (seen_append _ _).mpr ⟨hseen₁.more ?_, hseen₂.more (Nat.le_add_right _ _)⟩
    simp only [List.length_cons, List.length_nil]
    omega

theorem skip {seen : ℕ} (h : Balanced need count (rest + {.read seen})) (hle : need ≤ seen) :
    Balanced need count rest := by
  obtain ⟨row, hrow, -, hseen⟩ := h
  obtain ⟨row₁, row₂, rfl, rfl⟩ := exists_split hrow
  obtain ⟨-, hbound, hseen₂⟩ := (seen_append _ _).mp hseen
  have hbehind : need ≤ count + row₂.length := by
    simp only [Check.bound] at hbound
    omega
  refine ⟨row₁ ++ row₂, rfl, ?_, (seen_append _ _).mpr ⟨seen_of_le hbehind, hseen₂⟩⟩
  rw [List.length_append]
  omega

theorem owe {seen : ℕ} (h : Balanced need count (rest + {.read seen})) :
    Balanced need count (rest + {.owed}) := by
  obtain ⟨row, hrow, htotal, hseen⟩ := h
  obtain ⟨row₁, row₂, rfl, rfl⟩ := exists_split hrow
  obtain ⟨hseen₁, -, hseen₂⟩ := (seen_append _ _).mp hseen
  refine ⟨row₁ ++ .owed :: row₂, ?_, ?_, (seen_append _ _).mpr ⟨hseen₁, Nat.zero_le _, hseen₂⟩⟩
  · rw [add_comm, Multiset.singleton_add, Multiset.cons_coe]
    exact Multiset.coe_eq_coe.mpr List.perm_middle
  · simpa only [List.length_append, List.length_cons] using htotal

theorem replace (h : Balanced need count (rest + {.owed})) : Balanced need (count + 1) rest := by
  obtain ⟨row, hrow, htotal, hseen⟩ := h
  obtain ⟨row₁, row₂, rfl, rfl⟩ := exists_split hrow
  obtain ⟨hseen₁, -, hseen₂⟩ := (seen_append _ _).mp hseen
  rw [List.length_append, List.length_cons] at htotal
  refine ⟨row₁ ++ row₂, rfl, ?_, (seen_append _ _).mpr ⟨hseen₁.more ?_, hseen₂.more ?_⟩⟩
  · rw [List.length_append]
    omega
  · rw [List.length_cons]
    omega
  · exact Nat.le_add_right _ _

end Balanced

end Lib
