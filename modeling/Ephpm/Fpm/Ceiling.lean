import Mathlib.Algebra.Order.BigOperators.Group.List
import Mathlib.Algebra.Order.Ring.Nat
import Ephpm.Fpm.Pool
import Ephpm.Lib.Tally

/-!
# How many threads the pool can have

`note_hung` replaces a hung thread as long as no more than `thread_count` of them are hung, and its
documentation concludes that at most twice as many threads are alive.  But a thread that was hung
and has answered is not hung any more, and it is **still there until some thread finds time to
retire**, which is between two jobs.  If the threads are hung again before that, they are replaced
again.  So the pool outgrows the bound (`one_thread_becomes_three`), and goes on growing.

The **strength** of a pool is the number of its threads, with those that it is committed to spawn.
A thread that leaves spawns at most its own replacement, so only `note_hung` adds to it.  If it is
called within the cap only when there is no surplus, which is one thread for each of `thread_count`
and one for each that is hung, then the bound holds (`ceiling_kept`).
-/

namespace Ephpm.Fpm

open Lib

/-- The thread exists. -/
def Thread.present (thread : Thread) : ℕ := if thread = .gone then 0 else 1

namespace FpmPool

/-- The threads that exist and those that are sure to come. -/
def strength (s : FpmPool) : ℕ :=
  tally Thread.present s.threads + tally Mark.spawns s.marks + s.starting

/-- What happens finds no surplus: a deadline that passes within the cap does so while there is one
thread for each of `thread_count` and one for each that is hung. -/
def NoSurplus (s : FpmPool) (e : Event) : Prop :=
  e = .expire → s.hung + 1 ≤ s.threadCount → s.strength ≤ s.threadCount + s.hung

instance decidableNoSurplus (s : FpmPool) (e : Event) : Decidable (s.NoSurplus e) :=
  inferInstanceAs (Decidable (_ → _ → _))

/-- An access that finds no surplus. -/
def SteadyStep (s s' : FpmPool) : Prop := ∃ e, s.NoSurplus e ∧ s.step e = some s'

/-- What is true of a pool of `n` threads. -/
structure Capped (n : ℕ) (s : FpmPool) : Prop where
  threadCount_eq : s.threadCount = n
  strength_le : s.strength ≤ 2 * n
  live_le : s.live ≤ tally Thread.counted s.threads

variable {n : ℕ} {s s' : FpmPool} {w m : ℕ} {thread next : Thread} {mark : Mark}
  {outcome : Outcome}

theorem Capped.new (n : ℕ) : Capped n (new n) := by
  refine ⟨rfl, ?_, le_rfl⟩
  change 0 + 0 + n ≤ 2 * n
  omega

/-- Counters other than `live` do not matter. -/
theorem Capped.of_eq (h : Capped n s) (hcount : s'.threadCount = s.threadCount)
    (hthreads : s'.threads = s.threads) (hmarks : s'.marks = s.marks)
    (hstarting : s'.starting = s.starting) (hlive : s'.live ≤ s.live) : Capped n s' := by
  refine ⟨hcount.trans h.threadCount_eq, ?_, hthreads ▸ hlive.trans h.live_le⟩
  rw [strength, hthreads, hmarks, hstarting]
  exact h.strength_le

theorem Capped.move (h : Capped n s) (hw : s.threads[w]? = some thread)
    (hpresent : next.present ≤ thread.present) (hcounted : next.counted = thread.counted) :
    Capped n (s.setThread w next) := by
  have hset := tally_set_eraseIdx (f := Thread.present) hw next
  have hbefore := tally_eraseIdx (f := Thread.present) hw
  have hle := h.strength_le
  refine ⟨h.threadCount_eq, ?_, h.live_le.trans (tally_set_eq hw hcounted).ge⟩
  simp only [strength, setThread] at hle ⊢
  omega

theorem Capped.leave (h : Capped n s) (hw : s.threads[w]? = some thread)
    (hpresent : next.present ≤ thread.present) (hthread : thread.counted = 1)
    (hnext : next.counted = 0) : Capped n { s.setThread w next with live := s.live - 1 } := by
  have hset := tally_set_eraseIdx (f := Thread.present) hw next
  have hbefore := tally_eraseIdx (f := Thread.present) hw
  have hcounted := tally_set_eraseIdx (f := Thread.counted) hw next
  have hcounted' := tally_eraseIdx (f := Thread.counted) hw
  have hle := h.strength_le
  have hlive := h.live_le
  refine ⟨h.threadCount_eq, ?_, ?_⟩
  · simp only [strength, setThread] at hle ⊢
    omega
  · change s.live - 1 ≤ tally Thread.counted (s.threads.set w next)
    omega

theorem Capped.spawn (h : Capped n s) (hstrength : s'.strength + 1 ≤ s.strength)
    (hcount : s'.threadCount = s.threadCount)
    (hlive : s'.live ≤ tally Thread.counted s'.threads) : Capped n s'.spawnThread := by
  have hpresent := tally_concat (f := Thread.present) s'.threads .spawning
  have hcounted := tally_concat (f := Thread.counted) s'.threads .spawning
  have hle := h.strength_le
  refine ⟨hcount.trans h.threadCount_eq, ?_, ?_⟩
  · simp only [strength, spawnThread, hpresent, Thread.present, reduceCtorEq, if_false] at *
    omega
  · simp only [spawnThread, hcounted, Thread.counted]
    omega

theorem Capped.run (h : Capped n s) (hw : s.threads[w]? = some thread)
    (hrun : s.run w thread outcome = some s') : Capped n s' := by
  have hone : ∀ t : Thread, t.present ≤ 1 := fun t => by
    rw [Thread.present]
    split <;> decide
  have hpresent : ∀ {t : Thread}, thread ≠ .gone → t.present ≤ thread.present := fun {t} hne => by
    rw [show thread.present = 1 from if_neg hne]
    exact hone t
  cases thread <;> cases outcome <;>
    simp only [FpmPool.run, reduceCtorEq, Option.some.injEq] at hrun
  case spawning.failed => exact hrun ▸ h.leave hw (hpresent Thread.noConfusion) rfl rfl
  case leaving.ok exit =>
      subst hrun
      split
      · exact h.leave hw (hpresent Thread.noConfusion) rfl rfl
      · exact h.leave hw (hpresent Thread.noConfusion) rfl rfl
  case respawning.ok =>
      have hset := tally_set_eraseIdx (f := Thread.present) hw .gone
      have hbefore := tally_eraseIdx (f := Thread.present) hw
      simp only [Thread.present, reduceCtorEq, if_true, if_false] at hset hbefore
      have hcounted : tally Thread.counted (s.threads.set w .gone) = tally Thread.counted s.threads :=
        tally_set_eq hw rfl
      refine hrun ▸ h.spawn ?_ rfl (h.live_le.trans hcounted.ge)
      simp only [strength, setThread]
      omega
  case swapRetiring.ok claimed =>
      split at hrun
      · have hnext : Capped n (s.setThread w (.leaving .surplus)) :=
          h.move hw (hpresent Thread.noConfusion) rfl
        exact Option.some.inj hrun ▸ hnext.of_eq rfl rfl rfl rfl le_rfl
      · exact Option.some.inj hrun ▸ h.move hw (hpresent Thread.noConfusion) rfl
  case retired.ok =>
      have hnext : Capped n (s.setThread w .checking) :=
        h.move hw (hpresent Thread.noConfusion) rfl
      exact hrun ▸ hnext.of_eq rfl rfl rfl rfl le_rfl
  case waiting.failed =>
      split at hrun
      · exact Option.some.inj hrun ▸ h.move hw (hpresent Thread.noConfusion) rfl
      · cases hrun
  -- Everything else is counted as before.
  all_goals
    subst hrun
    refine h.move hw (hpresent Thread.noConfusion) ?_
    first | rfl | split <;> rfl

/-- A deadline passes: past the cap nothing is spawned, and below it there is room. -/
theorem Capped.noteHung (h : Capped n s) (hsteady : s.NoSurplus .expire) :
    Capped n s.noteHung := by
  have hadd := tally_concat (f := Mark.spawns) s.marks
    (if s.threadCount < s.hung + 1 then .awaiting else .noting)
  have hle := h.strength_le
  have hcount := h.threadCount_eq
  refine ⟨hcount, ?_, h.live_le⟩
  by_cases hcap : s.threadCount < s.hung + 1
  · rw [if_pos hcap] at hadd
    simp only [strength, FpmPool.noteHung, if_pos hcap, hadd, Mark.spawns] at hle ⊢
    omega
  · have hroom := hsteady rfl (Nat.le_of_not_lt hcap)
    rw [if_neg hcap] at hadd
    simp only [strength, FpmPool.noteHung, if_neg hcap, hadd, Mark.spawns] at hroom ⊢
    omega

/-- A task goes on, with what it is committed to or without it. -/
theorem Capped.moveMark (h : Capped n s) (hm : s.marks[m]? = some mark) {next : Mark}
    (hspawns : next.spawns ≤ mark.spawns) : Capped n (s.setMark m next) := by
  have hset := tally_set_eraseIdx (f := Mark.spawns) hm next
  have hbefore := tally_eraseIdx (f := Mark.spawns) hm
  have hle := h.strength_le
  refine ⟨h.threadCount_eq, ?_, h.live_le⟩
  simp only [strength, setMark] at hle ⊢
  omega

theorem Capped.watch (h : Capped n s) (hm : s.marks[m]? = some mark)
    (hwatch : s.watch m mark outcome = some s') : Capped n s' := by
  have hreleasing : ∀ current, (releasing current).spawns = 0 := fun current => by
    rw [releasing]
    split <;> rfl
  cases mark <;> cases outcome <;>
    simp only [FpmPool.watch, reduceCtorEq, Option.some.injEq] at hwatch
  case noting.ok =>
      subst hwatch
      refine h.moveMark hm ?_
      split <;> decide
  case replacing.ok =>
      have hset := tally_set_eraseIdx (f := Mark.spawns) hm .awaiting
      have hbefore := tally_eraseIdx (f := Mark.spawns) hm
      simp only [Mark.spawns] at hset hbefore
      refine hwatch ▸ h.spawn ?_ rfl h.live_le
      simp only [strength, setMark]
      omega
  case awaiting.ok => exact hwatch ▸ h.moveMark hm le_rfl
  case loadHung.ok => exact hwatch ▸ h.moveMark hm (hreleasing _).le
  case swapHung.ok current =>
      split at hwatch
      · have hnext : Capped n (s.setMark m .observed) := h.moveMark hm le_rfl
        exact Option.some.inj hwatch ▸ hnext.of_eq rfl rfl rfl rfl le_rfl
      · exact Option.some.inj hwatch ▸ h.moveMark hm (hreleasing _).le
  case swapHung.failed current => exact hwatch ▸ h.moveMark hm (hreleasing _).le

/-! ## Runs -/

theorem Capped.step (h : Capped n s) (hstep : SteadyStep s s') : Capped n s' := by
  obtain ⟨e, hsteady, hstep⟩ := hstep
  obtain ⟨rfl, hstarting, rfl⟩ | ⟨w, outcome, thread, rfl, hw, hrun⟩ | ⟨rfl, rfl⟩ |
    ⟨m, outcome, mark, rfl, hm, hwatch⟩ | ⟨rfl, rfl⟩ := step_cases hstep
  · have hfewer : Capped n { s with starting := s.starting - 1 }.spawnThread := by
      refine h.spawn ?_ rfl h.live_le
      simp only [strength]
      omega
    exact hfewer
  · exact h.run hw hrun
  · exact h.noteHung hsteady
  · exact h.watch hm hwatch
  · exact h.of_eq rfl rfl rfl rfl le_rfl

theorem counted_le_present (thread : Thread) : thread.counted ≤ thread.present := by
  cases thread <;> simp [Thread.counted, Thread.present]

theorem tally_counted_le (threads : List Thread) :
    tally Thread.counted threads ≤ tally Thread.present threads :=
  List.sum_le_sum fun thread _ => counted_le_present thread

/-- **The pool never grows past twice its size** if every deadline that passes within the cap finds
no surplus: neither the counter of live threads nor the threads that have not ended. -/
theorem ceiling_kept {threadCount : ℕ} (path : Path SteadyStep (new threadCount) s) :
    s.live ≤ 2 * threadCount ∧ tally Thread.present s.threads ≤ 2 * threadCount := by
  have h : Capped threadCount s :=
    Path.preserves (fun _ _ h hstep => h.step hstep) path (.new threadCount)
  have hle := h.strength_le
  have hlive := h.live_le.trans (tally_counted_le s.threads)
  simp only [strength] at hle
  exact ⟨by omega, by omega⟩

/-- From its spawn to a job. -/
def bootEvents (w : ℕ) : List Event := List.replicate 7 (.run w .ok)

/-- A deadline passes, and the thread is replaced. -/
def replaceEvents (m : ℕ) : List Event := [.expire, .watch m .ok, .watch m .ok]

/-- One thread: it is hung and replaced, and that makes two. -/
theorem ceiling_kept_sample :
    ∃ s : FpmPool, Path SteadyStep (new 1) s ∧ s.live = 2 ∧ s.live ≤ 2 * 1 := by
  let s : FpmPool :=
    { threadCount := 1, live := 2, hung := 1, retiring := 0, draining := false, starting := 0
      threads := [.running, .spawning], marks := [.awaiting] }
  have hrun : (Event.start :: bootEvents 0 ++ replaceEvents 0).foldlM
      (fun s e => if s.NoSurplus e then s.step e else none) (new 1) = some s := by decide
  have path : Path SteadyStep (new 1) s := Path.of_guarded_foldlM (P := NoSurplus) hrun
  exact ⟨s, path, rfl, (ceiling_kept path).1⟩

/-- **A pool of one thread becomes three.**  The first thread is hung and replaced, answers, and has
taken the next job when its mark is taken back, so nobody retires.  Then a thread is hung
again. -/
theorem one_thread_becomes_three :
    ∃ s : FpmPool, (Event.start :: bootEvents 0 ++ replaceEvents 0 ++ bootEvents 1 ++
      List.replicate 6 (Event.run 0 .ok) ++ List.replicate 3 (Event.watch 0 .ok) ++
      replaceEvents 1).foldlM FpmPool.step (new 1) = some s ∧
      s.threadCount = 1 ∧ s.live = 3 ∧ tally Thread.present s.threads = 3 := by
  refine ⟨{ threadCount := 1, live := 3, hung := 1, retiring := 0, draining := false
            starting := 0, threads := [.running, .running, .spawning]
            marks := [.observed, .awaiting] }, ?_⟩
  decide

end FpmPool

end Ephpm.Fpm
