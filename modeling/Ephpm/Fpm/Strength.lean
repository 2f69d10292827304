import Mathlib.Tactic.FinCases
import Ephpm.Fpm.Pool
import Ephpm.Lib.Compensation
import Ephpm.Lib.Tally

/-!
# The pool never stays below strength

**What is needed** is `thread_count` threads that serve, and one more for every hung thread up to
`thread_count` of them: past that a hung thread is not replaced.  **What is there** is `live`,
with the spawns that `note_hung` and `FpmPool::spawn` are committed to.  A thread that leaves
`live` looks at the counters afterwards, so the pool is a group whose departures are made good by
a check, and `Lib.Balanced` is the invariant.

That covers **every** exit alike, and so it does not matter if `claim_surplus` was right: a
surplus thread checks as well, and if it left by mistake it spawns its own replacement.  The
counter `retiring` does not occur in the invariant at all.

For `hung` it is enough that every task gives back what it has counted, and no more:
`release_hung` would leave the counter alone at zero, but the task that calls it still has its
own mark there.
-/

namespace Ephpm.Fpm

open Lib

/-- The check that a thread still has to make after it has left. -/
def Thread.checks : Thread → Multiset Check
  | .retired => {.unread}
  | .checking => {.unread}
  | .countLive => {.unread}
  | .countHung live => {.read live}
  | .respawning => {.owed}
  | _ => 0

/-- A thread between the claim of its exit and the end of its check. -/
def Thread.Exiting : Thread → Prop
  | .leaving _ => True
  | thread => thread.checks ≠ 0

/-- The reply for the mark has not been observed. -/
def Mark.unobserved (mark : Mark) : ℕ := if mark = .observed then 0 else 1

namespace FpmPool

/-- The marks whose reply has not been observed. -/
def unobserved (s : FpmPool) : ℕ := tally Mark.unobserved s.marks

/-- The serving threads that the pool must have, and the hung ones that it replaces. -/
def need (s : FpmPool) : ℕ := s.threadCount + min s.hung s.threadCount

/-- What is there or is sure to come. -/
def committed (s : FpmPool) : ℕ := s.live + tally Mark.spawns s.marks + s.starting

/-- The invariant of the pool. -/
structure Sound (s : FpmPool) : Prop where
  balanced : Balanced s.need s.committed (tally Thread.checks s.threads)
  live_eq : s.live = tally Thread.counted s.threads
  hung_eq : s.hung = s.unobserved

variable {s s' : FpmPool} {w m : ℕ} {thread next : Thread} {mark : Mark} {outcome : Outcome}

theorem Sound.new (threadCount : ℕ) : (new threadCount).Sound where
  balanced := .start (by simp only [need, committed, FpmPool.new]; omega)
  live_eq := rfl
  hung_eq := rfl

/-! ## Threads -/

/-- A thread goes on, and is counted and owes what it was and did. -/
theorem Sound.move (h : s.Sound) (hw : s.threads[w]? = some thread)
    (hchecks : next.checks = thread.checks) (hcounted : next.counted = thread.counted) :
    (s.setThread w next).Sound where
  balanced := by
    have := h.balanced
    rwa [← tally_set_eq hw hchecks] at this
  live_eq := h.live_eq.trans (tally_set_eq hw hcounted).symm
  hung_eq := h.hung_eq

/-- No counter but `live` and `hung` matters. -/
theorem Sound.setRetiring (h : s.Sound) (retiring : ℕ) : { s with retiring }.Sound :=
  ⟨h.balanced, h.live_eq, h.hung_eq⟩

theorem Sound.check (h : s.Sound) (hw : s.threads[w]? = some thread)
    (hcounted : next.counted = thread.counted)
    (hbalanced : ∀ rest, Balanced s.need s.committed (rest + thread.checks) →
      Balanced s.need s.committed (rest + next.checks)) :
    (s.setThread w next).Sound where
  balanced := by
    have hset := tally_set_eraseIdx (f := Thread.checks) hw next
    have := h.balanced
    rw [← tally_eraseIdx hw] at this
    have := hbalanced _ this
    rwa [← hset] at this
  live_eq := h.live_eq.trans (tally_set_eq hw hcounted).symm
  hung_eq := h.hung_eq

theorem Sound.leave (h : s.Sound) {exit : ThreadExit} (hw : s.threads[w]? = some (.leaving exit))
    (hchecks : next.checks = {.unread}) (hcounted : next.counted = 0) :
    { s.setThread w next with live := s.live - 1 }.Sound := by
  have hlive : s.live = tally Thread.counted (s.threads.eraseIdx w) + 1 :=
    h.live_eq.trans (tally_eraseIdx hw).symm
  refine ⟨?_, ?_, h.hung_eq⟩
  · have hset := tally_set_eraseIdx (f := Thread.checks) hw next
    rw [hchecks] at hset
    have hrest : tally Thread.checks (s.threads.eraseIdx w) = tally Thread.checks s.threads := by
      rw [← tally_eraseIdx (f := Thread.checks) hw]
      exact (add_zero _).symm
    have hcommitted : s.committed
        = s.live - 1 + tally Mark.spawns s.marks + s.starting + 1 := by
      rw [committed]
      omega
    have := h.balanced
    rw [hcommitted] at this
    have := this.leave
    rw [← hrest, ← hset] at this
    exact this
  · have hset := tally_set_eraseIdx (f := Thread.counted) hw next
    rw [hcounted] at hset
    change s.live - 1 = tally Thread.counted (s.threads.set w next)
    omega

theorem live_spawnThread (h : s.live = tally Thread.counted s.threads) :
    s.spawnThread.live = tally Thread.counted s.spawnThread.threads := by
  have hadd := tally_concat (f := Thread.counted) s.threads .spawning
  change s.live + 1 = tally Thread.counted (s.threads ++ [.spawning])
  rw [hadd, h]
  rfl

theorem checks_spawnThread :
    tally Thread.checks s.spawnThread.threads = tally Thread.checks s.threads :=
  (tally_concat (f := Thread.checks) s.threads .spawning).trans (add_zero _)

theorem committed_spawnThread : s.spawnThread.committed = s.committed + 1 := by
  simp only [committed, spawnThread]
  omega

theorem Sound.respawn (h : s.Sound) (hw : s.threads[w]? = some .respawning) :
    (s.setThread w .gone).spawnThread.Sound := by
  refine ⟨?_, live_spawnThread (h.live_eq.trans (tally_set_eq hw ?_).symm), h.hung_eq⟩
  · have hset : tally Thread.checks (s.threads.set w .gone)
        = tally Thread.checks (s.threads.eraseIdx w) :=
      (tally_set_eraseIdx hw .gone).trans (add_zero _)
    have := h.balanced
    rw [← tally_eraseIdx hw] at this
    have := this.replace
    rw [← hset] at this
    rw [checks_spawnThread, committed_spawnThread]
    exact this
  · rfl

theorem Sound.skip (h : s.Sound) {live : ℕ} (hw : s.threads[w]? = some (.countHung live))
    (hle : s.threadCount ≤ live - s.hung) : (s.setThread w .gone).Sound := by
  refine h.check hw rfl fun rest hrest => ?_
  have hrest := hrest.skip (show s.need ≤ live by rw [need]; omega)
  rwa [← add_zero rest] at hrest

theorem Sound.run (h : s.Sound) (hdraining : s.draining = false)
    (hw : s.threads[w]? = some thread) (hspawn : s.spawnFails (.run w outcome) = false)
    (hrun : s.run w thread outcome = some s') : s'.Sound := by
  cases thread <;> cases outcome <;>
    simp only [FpmPool.run, hdraining, Bool.false_eq_true, if_false, reduceCtorEq,
      Option.some.injEq] at hrun
  case spawning.failed => exact absurd (decide_eq_true hw) (Bool.not_eq_true _ |>.mpr hspawn)
  case leaving.ok exit =>
      subst hrun
      split
      · exact h.leave hw rfl rfl
      · exact h.leave hw rfl rfl
  case countLive.ok =>
      subst hrun
      refine h.check hw rfl fun rest hrest => hrest.look ?_
      rw [committed]
      omega
  case countHung.ok live =>
      subst hrun
      split
      next hle => exact h.skip hw hle
      next => exact h.check hw rfl fun rest hrest => hrest.owe
  case respawning.ok => exact hrun ▸ h.respawn hw
  case swapRetiring.ok claimed =>
      split at hrun
      · have hnext : (s.setThread w (.leaving .surplus)).Sound := h.move hw rfl rfl
        exact Option.some.inj hrun ▸ hnext.setRetiring _
      · exact Option.some.inj hrun ▸ h.move hw rfl rfl
  case loadHung.ok claimed live =>
      subst hrun
      split
      · exact h.move hw rfl rfl
      · exact h.move hw rfl rfl
  case retired.ok =>
      have hnext : (s.setThread w .checking).Sound := h.move hw rfl rfl
      exact hrun ▸ hnext.setRetiring _
  -- Everything else is neither counted nor checked differently.
  all_goals exact hrun ▸ h.move hw rfl rfl

/-! ## Marks -/

theorem Sound.noteHung (h : s.Sound) : s.noteHung.Sound := by
  have hhung : s.noteHung.hung = s.noteHung.unobserved := by
    have hadd := tally_concat (f := Mark.unobserved) s.marks
      (if s.threadCount < s.hung + 1 then .awaiting else .noting)
    have hone :
        Mark.unobserved (if s.threadCount < s.hung + 1 then .awaiting else .noting) = 1 := by
      split <;> rfl
    rw [hone] at hadd
    rw [unobserved, FpmPool.noteHung, hadd, h.hung_eq]
    rfl
  refine ⟨?_, h.live_eq, hhung⟩
  have hadd := tally_concat (f := Mark.spawns) s.marks
    (if s.threadCount < s.hung + 1 then .awaiting else .noting)
  by_cases hcap : s.threadCount < s.hung + 1
  · -- Past the cap nothing more is needed.
    refine h.balanced.mono (k := 0) ?_ ?_
    · simp only [need, FpmPool.noteHung]
      omega
    · rw [if_pos hcap] at hadd
      simp only [committed, FpmPool.noteHung, if_pos hcap, hadd]
      omega
  · refine h.balanced.mono (k := 1) ?_ ?_
    · simp only [need, FpmPool.noteHung]
      omega
    · rw [if_neg hcap] at hadd
      simp only [committed, FpmPool.noteHung, if_neg hcap, hadd, Mark.spawns]
      omega

/-- A task goes on, with its mark and what it is committed to. -/
theorem Sound.moveMark (h : s.Sound) (hm : s.marks[m]? = some mark) {next : Mark}
    (hspawns : next.spawns = mark.spawns) (hunobserved : next.unobserved = mark.unobserved) :
    (s.setMark m next).Sound where
  balanced := by
    have := h.balanced
    rwa [committed, ← tally_set_eq hm hspawns] at this
  live_eq := h.live_eq
  hung_eq := h.hung_eq.trans (tally_set_eq hm hunobserved).symm

/-- The spawn that a task was committed to. -/
theorem Sound.replaceHung (h : s.Sound) (hm : s.marks[m]? = some .replacing) :
    (s.setMark m .awaiting).spawnThread.Sound := by
  have hspawns := tally_set_eraseIdx (f := Mark.spawns) hm .awaiting
  have hbefore := tally_eraseIdx (f := Mark.spawns) hm
  simp only [Mark.spawns] at hspawns hbefore
  refine ⟨?_, live_spawnThread h.live_eq, h.hung_eq.trans (tally_set_eq hm ?_).symm⟩
  · rw [checks_spawnThread, committed_spawnThread]
    refine h.balanced.mono (k := 0) le_rfl ?_
    simp only [committed, setMark]
    omega
  · rfl

/-- A task that has its mark in the counter finds it there. -/
theorem Sound.hung_pos (h : s.Sound) (hm : s.marks[m]? = some mark) (hmark : mark ≠ .observed) :
    0 < s.hung := by
  have hbefore := tally_eraseIdx (f := Mark.unobserved) hm
  rw [Mark.unobserved, if_neg hmark] at hbefore
  have := h.hung_eq
  rw [unobserved] at this
  omega

theorem Sound.release (h : s.Sound) {current : ℕ} (hm : s.marks[m]? = some (.swapHung current)) :
    { s.setMark m .observed with hung := s.hung - 1 }.Sound := by
  have hset := tally_set_eraseIdx (f := Mark.unobserved) hm .observed
  have hbefore := tally_eraseIdx (f := Mark.unobserved) hm
  have hspawns : tally Mark.spawns (s.marks.set m .observed) = tally Mark.spawns s.marks :=
    tally_set_eq hm rfl
  simp only [Mark.unobserved, if_true, reduceCtorEq, if_false] at hset hbefore
  refine ⟨h.balanced.mono (k := 0) ?_ ?_, h.live_eq, ?_⟩
  · simp only [need, setMark]
    omega
  · simp only [committed, setMark, hspawns]
    omega
  · have := h.hung_eq
    rw [unobserved] at this ⊢
    change s.hung - 1 = tally Mark.unobserved (s.marks.set m .observed)
    omega

theorem Sound.watch (h : s.Sound) (hdraining : s.draining = false)
    (hm : s.marks[m]? = some mark) (hwatch : s.watch m mark outcome = some s') : s'.Sound := by
  -- The counter is read while the task still has its mark in it, so the loop goes on.
  have hreleasing : mark ≠ .observed → releasing s.hung = .swapHung s.hung := by
    intro hmark
    exact if_neg (Nat.pos_iff_ne_zero.mp (h.hung_pos hm hmark))
  cases mark <;> cases outcome <;>
    simp only [FpmPool.watch, hdraining, Bool.false_eq_true, if_false, reduceCtorEq,
      Option.some.injEq] at hwatch
  case noting.ok => exact hwatch ▸ h.moveMark hm rfl rfl
  case replacing.ok => exact hwatch ▸ h.replaceHung hm
  case awaiting.ok => exact hwatch ▸ h.moveMark hm rfl rfl
  case loadHung.ok =>
      rw [hreleasing Mark.noConfusion] at hwatch
      exact hwatch ▸ h.moveMark hm rfl rfl
  case swapHung.ok current =>
      rw [hreleasing Mark.noConfusion] at hwatch
      split at hwatch
      next heq => exact Option.some.inj hwatch ▸ heq ▸ h.release hm
      next => exact Option.some.inj hwatch ▸ h.moveMark hm rfl rfl
  case swapHung.failed current =>
      rw [hreleasing Mark.noConfusion] at hwatch
      exact hwatch ▸ h.moveMark hm rfl rfl

/-! ## Runs -/

/-- An access while the pool is not draining, and in which the system does not refuse a thread. -/
def Step (s s' : FpmPool) : Prop :=
  ∃ e, (s.draining = false ∧ s.spawnFails e = false) ∧ s.step e = some s'

theorem Sound.start (h : s.Sound) (hstarting : s.starting ≠ 0) :
    { s.spawnThread with starting := s.starting - 1 }.Sound := by
  refine ⟨?_, live_spawnThread h.live_eq, h.hung_eq⟩
  have hchecks := checks_spawnThread (s := s)
  change Balanced s.need _ (tally Thread.checks s.spawnThread.threads)
  rw [hchecks]
  refine h.balanced.mono (k := 0) le_rfl ?_
  have hpos := Nat.pos_of_ne_zero hstarting
  simp only [committed, spawnThread]
  omega

theorem Sound.step (h : s.Sound) (hstep : Step s s') : s'.Sound := by
  obtain ⟨e, ⟨hdraining, hspawn⟩, hstep⟩ := hstep
  obtain ⟨rfl, hstarting, rfl⟩ | ⟨w, outcome, thread, rfl, hw, hrun⟩ | ⟨rfl, rfl⟩ |
    ⟨m, outcome, mark, rfl, hm, hwatch⟩ | ⟨rfl, rfl⟩ := step_cases hstep
  · exact h.start hstarting
  · exact h.run hdraining hw hspawn hrun
  · exact h.noteHung
  · exact h.watch hdraining hm hwatch
  · exact ⟨h.balanced, h.live_eq, h.hung_eq⟩

theorem Sound.of_path {threadCount : ℕ} (path : Path Step (FpmPool.new threadCount) s) : s.Sound :=
  Path.preserves (fun _ _ h hstep => h.step hstep) path (.new threadCount)

theorem checks_eq_zero {threads : List Thread} (h : ∀ thread ∈ threads, ¬ thread.Exiting) :
    tally Thread.checks threads = 0 := by
  refine List.sum_eq_zero fun checks hchecks => ?_
  obtain ⟨thread, hmem, rfl⟩ := List.mem_map.mp hchecks
  have hthread := h thread hmem
  cases thread with
  | leaving exit => rfl
  | _ => exact not_not.mp hthread

/-- While no mark is being taken back, the ones that were not observed are awaited. -/
theorem unobserved_of_quiet {marks : List Mark}
    (h : ∀ mark ∈ marks, mark = .awaiting ∨ mark = .observed) :
    tally Mark.unobserved marks = marks.count .awaiting := by
  induction marks with
  | nil => rfl
  | cons mark marks ih =>
    have hrest := ih fun other hother => h other (List.mem_cons_of_mem _ hother)
    change mark.unobserved + tally Mark.unobserved marks = _
    rw [hrest, List.count_cons, add_comm]
    congr 1
    obtain rfl | rfl := h mark List.mem_cons_self
    · rfl
    · rfl

/-- **The pool never stays below strength.**  From `FpmPool::spawn`, by accesses to the counters
in any order, while the pool is not draining and no thread is refused: when `spawn` has returned,
no thread is between the claim of its exit and the end of its respawn check, and no `note_hung`
is under way, there are `thread_count` serving threads, but for the hung ones past
`thread_count`.  And `hung` is the number of marks whose reply was not observed, which is the
number of tasks that wait for a reply as long as no `note_recovered` is under way. -/
theorem strength_kept {threadCount : ℕ} (path : Path Step (new threadCount) s)
    (hstarted : s.starting = 0) (hexits : ∀ thread ∈ s.threads, ¬ thread.Exiting)
    (hmarks : ∀ mark ∈ s.marks, mark ≠ .noting ∧ mark ≠ .replacing) :
    (s.live : ℤ) - s.hung ≥ s.threadCount - (s.hung - s.threadCount : ℕ) ∧
      s.hung = s.unobserved ∧
      ((∀ mark ∈ s.marks, mark = .awaiting ∨ mark = .observed) →
        s.hung = s.marks.count .awaiting) := by
  have h := Sound.of_path path
  have hspawns : tally Mark.spawns s.marks = 0 := by
    refine List.sum_eq_zero fun spawns hspawns => ?_
    obtain ⟨mark, hmem, rfl⟩ := List.mem_map.mp hspawns
    obtain ⟨hnoting, hreplacing⟩ := hmarks mark hmem
    cases mark with
    | noting => exact absurd rfl hnoting
    | replacing => exact absurd rfl hreplacing
    | _ => rfl
  have henough := h.balanced
  rw [checks_eq_zero hexits] at henough
  have hle := henough.enough
  rw [need, committed, hspawns, hstarted] at hle
  exact ⟨by omega, h.hung_eq, fun hquiet => h.hung_eq.trans (unobserved_of_quiet hquiet)⟩

/-- One thread: a request hangs, the thread is replaced, and then a crash is contained on it. -/
theorem strength_kept_sample :
    ∃ s : FpmPool, Path Step (new 1) s ∧ s.threadCount = 1 ∧ s.hung = 1 ∧
      (s.live : ℤ) - s.hung ≥ 1 ∧ s.unobserved = 1 := by
  let s : FpmPool :=
    { threadCount := 1, live := 2, hung := 1, retiring := 0, draining := false, starting := 0
      threads := [.gone, .spawning, .spawning], marks := [.awaiting] }
  have hrun : ([.start, .run 0 .ok, .run 0 .ok, .run 0 .ok, .run 0 .ok, .run 0 .ok, .run 0 .ok,
      .run 0 .ok, .expire, .watch 0 .ok, .watch 0 .ok, .run 0 .contained, .run 0 .ok, .run 0 .ok,
      .run 0 .ok, .run 0 .ok, .run 0 .ok] : List Event).foldlM
        (fun s e => if s.draining = false ∧ s.spawnFails e = false then s.step e else none)
        (new 1) = some s := by decide
  have path : Path Step (new 1) s :=
    Path.of_guarded_foldlM
      (P := fun (s : FpmPool) e => s.draining = false ∧ s.spawnFails e = false) hrun
  have hexits : ∀ thread ∈ s.threads, ¬ thread.Exiting := by
    intro thread hmem
    fin_cases hmem <;> exact not_not.mpr rfl
  obtain ⟨hlive, hhung, -⟩ := strength_kept path rfl hexits (by decide)
  exact ⟨s, path, rfl, rfl, hlive, hhung.symm⟩

end FpmPool

end Ephpm.Fpm
