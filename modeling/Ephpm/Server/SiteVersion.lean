import Mathlib.Algebra.Order.Ring.Nat
import Mathlib.Data.Prod.Lex
import Mathlib.Tactic.Common

/-!
# Versions of a site

In per-site mode every node that has owned a site keeps its own log of changes, and the numbers of
one log mean nothing in another.  To tell which of two copies is fresher, a copy has a **version**:
the epoch of the ownership that it descends from, and the head of the log within it.  Versions are
ordered by the epoch first.

An epoch is raised when a node settles as a new owner (`nextOwnerEpoch`), above its own and above
the best one it knows of.  A node that holds data and owns the site serves it only if no peer is
ahead (`decideWarmSettle`).
-/

namespace Ephpm.Server

/-- `SiteVersion`: the epoch of the ownership, and the greatest change of the node's log. -/
structure SiteVersion where
  epoch : ℕ
  head : ℤ
deriving DecidableEq, Repr

namespace SiteVersion

/-- The version as a pair that is compared by its first component first. -/
def key (v : SiteVersion) : ℕ ×ₗ ℤ := toLex (v.epoch, v.head)

theorem key_injective : Function.Injective key := by
  rintro ⟨e, h⟩ ⟨e', h'⟩ heq
  have hpair : (e, h) = (e', h') := toLex.injective heq
  rw [Prod.mk.injEq] at hpair
  rw [hpair.1, hpair.2]

/-- `Ord for SiteVersion`. -/
instance : LinearOrder SiteVersion := LinearOrder.lift' key key_injective

theorem le_iff {v w : SiteVersion} :
    v ≤ w ↔ v.epoch < w.epoch ∨ v.epoch = w.epoch ∧ v.head ≤ w.head :=
  Prod.Lex.toLex_le_toLex

theorem lt_iff {v w : SiteVersion} :
    v < w ↔ v.epoch < w.epoch ∨ v.epoch = w.epoch ∧ v.head < w.head :=
  Prod.Lex.toLex_lt_toLex

end SiteVersion

/-- `next_owner_epoch`.  The addition saturates. -/
def nextOwnerEpoch (own bestPeer : ℕ) : ℕ := min (max own bestPeer + 1) (2 ^ 64 - 1)

/-- `fold_best_version`: the highest of what is advertised and what the peers have. -/
def foldBestVersion (advert : Option SiteVersion) (peers : List SiteVersion) : Option SiteVersion :=
  peers.foldl (fun acc v => some (acc.elim v fun a => max a v)) advert

/-- `WarmSettle`. -/
inductive WarmSettle where
  | settled
  | awaitMembership
  | blocked
deriving DecidableEq, Repr

/-- `decide_warm_settle`. -/
def decideWarmSettle (converged isOwner : Bool) (own : SiteVersion) (bestPeer : Option SiteVersion) :
    WarmSettle :=
  if !converged then .awaitMembership
  else if !isOwner then .settled
  else match bestPeer with
    | some peer => if own < peer then .blocked else .settled
    | none => .settled

/-- The best version is a bound of all that were folded. -/
theorem le_foldBestVersion {advert : Option SiteVersion} {peers : List SiteVersion} {v : SiteVersion}
    (hv : v ∈ peers ∨ v ∈ advert) : ∃ best, foldBestVersion advert peers = some best ∧ v ≤ best := by
  unfold foldBestVersion
  induction peers generalizing advert v with
  | nil =>
    rcases hv with hv | hv
    · exact absurd hv List.not_mem_nil
    · exact ⟨v, hv, le_rfl⟩
  | cons p peers ih =>
    rw [List.foldl_cons]
    rcases hv with hv | hv
    · rcases List.mem_cons.mp hv with rfl | hv
      · cases advert with
        | none => exact ih (Or.inr rfl)
        | some a =>
          have hmax : max a v ∈ peers ∨ max a v ∈ some (max a v) := Or.inr rfl
          obtain ⟨best, hbest, hle⟩ := ih hmax
          exact ⟨best, hbest, (le_max_right a v).trans hle⟩
      · exact ih (Or.inl hv)
    · obtain rfl := Option.mem_def.mp hv
      have hmax : max v p ∈ peers ∨ max v p ∈ some (max v p) := Or.inr rfl
      obtain ⟨best, hbest, hle⟩ := ih hmax
      exact ⟨best, hbest, (le_max_left v p).trans hle⟩

theorem mem_of_foldBestVersion {advert : Option SiteVersion} {peers : List SiteVersion}
    {best : SiteVersion} (h : foldBestVersion advert peers = some best) :
    best ∈ peers ∨ best ∈ advert := by
  unfold foldBestVersion at h
  induction peers generalizing advert with
  | nil => exact Or.inr h
  | cons p peers ih =>
    rw [List.foldl_cons] at h
    rcases ih h with hmem | hmem
    · exact Or.inl (List.mem_cons_of_mem _ hmem)
    · cases advert with
      | none =>
        obtain rfl : p = best := Option.some.inj hmem
        exact Or.inl List.mem_cons_self
      | some a =>
        obtain rfl : max a p = best := Option.some.inj hmem
        rcases le_total a p with hle | hle
        · rw [max_eq_right hle]
          exact Or.inl List.mem_cons_self
        · rw [max_eq_left hle]
          exact Or.inr rfl

/-- **Some version is ahead exactly if the best one is.** -/
theorem foldBestVersion_ahead {advert : Option SiteVersion} {peers : List SiteVersion}
    {own : SiteVersion} :
    (∃ best ∈ foldBestVersion advert peers, own < best) ↔
      ∃ v, (v ∈ peers ∨ v ∈ advert) ∧ own < v := by
  constructor
  · rintro ⟨best, hbest, hlt⟩
    exact ⟨best, mem_of_foldBestVersion hbest, hlt⟩
  · rintro ⟨v, hv, hlt⟩
    obtain ⟨best, hbest, hle⟩ := le_foldBestVersion hv
    exact ⟨best, hbest, hlt.trans_le hle⟩

/-- A copy is thrown away exactly by an owner that knows the members and is behind. -/
theorem decideWarmSettle_blocked_iff {converged isOwner : Bool} {own : SiteVersion}
    {bestPeer : Option SiteVersion} :
    decideWarmSettle converged isOwner own bestPeer = .blocked ↔
      converged = true ∧ isOwner = true ∧ ∃ best ∈ bestPeer, own < best := by
  unfold decideWarmSettle
  cases converged with
  | false => simp
  | true =>
    cases isOwner with
    | false => simp
    | true =>
      cases bestPeer with
      | none => simp
      | some best =>
        by_cases hlt : own < best
        · simp [hlt]
        · simp [hlt]

/-- **An owner settles exactly if it is not behind** the best version, once the members are known.
-/
theorem decideWarmSettle_owner_iff {own : SiteVersion} {bestPeer : Option SiteVersion} :
    decideWarmSettle true true own bestPeer = .settled ↔ ∀ peer ∈ bestPeer, peer ≤ own := by
  cases bestPeer with
  | none => exact iff_of_true rfl (by simp)
  | some peer =>
    show (if own < peer then _ else _) = _ ↔ _
    split_ifs with hlt
    · refine iff_of_false (by simp) fun h => ?_
      exact absurd (h peer rfl) (not_le.mpr hlt)
    · exact iff_of_true rfl fun p hp => by rw [← Option.some.inj hp]; exact not_lt.mp hlt

end Ephpm.Server
