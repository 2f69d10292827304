import Mathlib.Tactic.Common
import Ephpm.Lib.Path

/-!
# The threads of the per-request pool, and its counters

A thread of the pool runs one job after the other.  It leaves the loop if a job panics, if a
crash was contained on it, or if it claims to be one too many, and on its way out it looks whether
to spawn a replacement.  A request that is still running at its deadline marks its thread as hung,
which spawns a replacement as well, and a task of its own then waits for the reply and takes the
mark back.

All of this meets in **three counters** and nothing else: `live`, `hung` and `retiring`.  Here
**one access to a counter is one step**, and everything may happen between two of them.  What a
thread or a task has read is part of where it is.

Readiness, thread ids, the backoffs before a respawn and the handoff of the jobs are left out: no
counter depends on them.  A deadline can pass for a request of any thread at any time, whatever
the thread is doing by then, since its reply may be on its way already.
-/

namespace Ephpm.Fpm

/-- `ThreadExit`, with the exit of a thread that could not register. -/
inductive ThreadExit where
  | drain
  | surplus
  | panicked
  | poisoned
  | bootFailed
deriving DecidableEq

/-- Where a thread is: what comes next. -/
inductive Thread where
  /-- Counted as live; the system is asked for it. -/
  | spawning
  /-- It registers. -/
  | booting
  /-- At the head of its loop: `claim_surplus` looks if the pool is draining. -/
  | between
  /-- `claim_surplus` loads `retiring`, then `live`, then `hung`, and swaps `retiring`. -/
  | loadRetiring
  | loadLive (claimed : ℕ)
  | loadHung (claimed live : ℕ)
  | swapRetiring (claimed : ℕ)
  /-- In `recv`. -/
  | waiting
  | running
  /-- Out of the loop, and still counted as live. -/
  | leaving (exit : ThreadExit)
  /-- A surplus thread that is not live any more, and still counted as retiring. -/
  | retired
  /-- `respawn_if_running` looks if the pool is draining, loads `live`, then `hung`, and
  spawns. -/
  | checking
  | countLive
  | countHung (live : ℕ)
  | respawning
  | gone
deriving DecidableEq

/-- Where the task is that marks a thread and waits for its reply: what comes next. -/
inductive Mark where
  /-- `note_hung`, after it has counted the thread: it looks if the pool is draining. -/
  | noting
  /-- It spawns a replacement. -/
  | replacing
  /-- The reply has not come. -/
  | awaiting
  /-- `release_hung` loads `hung`, and swaps it. -/
  | loadHung
  | swapHung (current : ℕ)
  /-- The reply was observed: the mark is taken back. -/
  | observed
deriving DecidableEq

/-- The thread is counted in `live`. -/
def Thread.counted : Thread → ℕ
  | .retired => 0
  | .checking => 0
  | .countLive => 0
  | .countHung _ => 0
  | .respawning => 0
  | .gone => 0
  | _ => 1

/-- The spawns that a task is committed to. -/
def Mark.spawns : Mark → ℕ
  | .noting => 1
  | .replacing => 1
  | _ => 0

/-- `FpmPool` with its `PoolState`, its threads and the tasks that have marked one.  `starting`
are the threads that `FpmPool::spawn` has still to spawn before it returns. -/
structure FpmPool where
  threadCount : ℕ
  live : ℕ
  hung : ℕ
  retiring : ℕ
  draining : Bool
  starting : ℕ
  threads : List Thread
  marks : List Mark
deriving DecidableEq

/-- What becomes of what a thread or a task does next.  A weak compare-exchange may fail for no
reason. -/
inductive Outcome where
  | ok
  | failed
  /-- A crash was contained. -/
  | contained
deriving DecidableEq

/-- What a thread, a guard or the scheduler does next. -/
inductive Event where
  /-- `FpmPool::spawn` spawns its next thread. -/
  | start
  /-- The next access of a thread. -/
  | run (thread : ℕ) (outcome : Outcome)
  /-- A deadline passes: the first access of `note_hung`. -/
  | expire
  /-- The next access of a task that has marked a thread; from `awaiting` it is the reply. -/
  | watch (mark : ℕ) (outcome : Outcome)
  | drain
deriving DecidableEq

namespace FpmPool

/-- The pool that `FpmPool::spawn` builds, before its loop. -/
def new (threadCount : ℕ) : FpmPool where
  threadCount
  live := 0
  hung := 0
  retiring := 0
  draining := false
  starting := threadCount
  threads := []
  marks := []

/-- A thread changes. -/
def setThread (s : FpmPool) (w : ℕ) (thread : Thread) : FpmPool :=
  { s with threads := s.threads.set w thread }

/-- A mark changes. -/
def setMark (s : FpmPool) (m : ℕ) (mark : Mark) : FpmPool :=
  { s with marks := s.marks.set m mark }

/-- `spawn_thread`, up to the answer of the system. -/
def spawnThread (s : FpmPool) : FpmPool :=
  { s with live := s.live + 1, threads := s.threads ++ [.spawning] }

/-- `thread_main` with `claim_surplus` and `respawn_if_running`, access by access. -/
def run (s : FpmPool) (w : ℕ) (thread : Thread) (outcome : Outcome) : Option FpmPool :=
  match thread, outcome with
  | .spawning, .ok => some (s.setThread w .booting)
  | .spawning, .failed => some { s.setThread w .gone with live := s.live - 1 }
  | .booting, .ok => some (s.setThread w .between)
  | .booting, .failed => some (s.setThread w (.leaving .bootFailed))
  | .between, .ok => some (s.setThread w (if s.draining then .waiting else .loadRetiring))
  | .loadRetiring, .ok => some (s.setThread w (.loadLive s.retiring))
  | .loadLive claimed, .ok => some (s.setThread w (.loadHung claimed s.live))
  | .loadHung claimed live, .ok =>
    some (s.setThread w
      (if live - s.hung - claimed ≤ s.threadCount then .waiting else .swapRetiring claimed))
  | .swapRetiring claimed, .ok =>
    if s.retiring = claimed then
      some { s.setThread w (.leaving .surplus) with retiring := claimed + 1 }
    else some (s.setThread w (.loadLive s.retiring))
  | .swapRetiring _, .failed => some (s.setThread w (.loadLive s.retiring))
  | .waiting, .ok => some (s.setThread w .running)
  | .waiting, .failed => if s.draining then some (s.setThread w (.leaving .drain)) else none
  | .running, .ok => some (s.setThread w .between)
  | .running, .failed => some (s.setThread w (.leaving .panicked))
  | .running, .contained => some (s.setThread w (.leaving .poisoned))
  | .leaving exit, .ok =>
    some { s.setThread w (if exit = .surplus then .retired else .checking) with
      live := s.live - 1 }
  | .retired, .ok => some { s.setThread w .checking with retiring := s.retiring - 1 }
  | .checking, .ok => some (s.setThread w (if s.draining then .gone else .countLive))
  | .countLive, .ok => some (s.setThread w (.countHung s.live))
  | .countHung live, .ok =>
    some (s.setThread w (if s.threadCount ≤ live - s.hung then .gone else .respawning))
  | .respawning, .ok => some (s.setThread w .gone).spawnThread
  | _, _ => none

/-- The first access of `note_hung`.  Past the cap the thread is counted but not replaced. -/
def noteHung (s : FpmPool) : FpmPool :=
  { s with
    hung := s.hung + 1
    marks := s.marks ++ [if s.threadCount < s.hung + 1 then .awaiting else .noting] }

/-- The loop of `release_hung`, after it has read `hung`. -/
def releasing (current : ℕ) : Mark := if current = 0 then .observed else .swapHung current

/-- The rest of `note_hung`, the wait for the reply, and `release_hung`. -/
def watch (s : FpmPool) (m : ℕ) (mark : Mark) (outcome : Outcome) : Option FpmPool :=
  match mark, outcome with
  | .noting, .ok => some (s.setMark m (if s.draining then .awaiting else .replacing))
  | .replacing, .ok => some (s.setMark m .awaiting).spawnThread
  | .awaiting, .ok => some (s.setMark m .loadHung)
  | .loadHung, .ok => some (s.setMark m (releasing s.hung))
  | .swapHung current, .ok =>
    if s.hung = current then some { s.setMark m .observed with hung := current - 1 }
    else some (s.setMark m (releasing s.hung))
  | .swapHung _, .failed => some (s.setMark m (releasing s.hung))
  | _, _ => none

/-- One access. -/
def step (s : FpmPool) : Event → Option FpmPool
  | .start =>
    if s.starting = 0 then none else some { s.spawnThread with starting := s.starting - 1 }
  | .run w outcome => s.threads[w]?.bind fun thread => s.run w thread outcome
  | .expire => some s.noteHung
  | .watch m outcome => s.marks[m]?.bind fun mark => s.watch m mark outcome
  | .drain => some { s with draining := true }

/-- What an access can be, and what it makes of the pool. -/
theorem step_cases {s s' : FpmPool} {e : Event} (h : s.step e = some s') :
    (e = .start ∧ s.starting ≠ 0 ∧ s' = { s.spawnThread with starting := s.starting - 1 }) ∨
      (∃ w outcome thread, e = .run w outcome ∧ s.threads[w]? = some thread ∧
        s.run w thread outcome = some s') ∨
      (e = .expire ∧ s' = s.noteHung) ∨
      (∃ m outcome mark, e = .watch m outcome ∧ s.marks[m]? = some mark ∧
        s.watch m mark outcome = some s') ∨
      e = .drain ∧ s' = { s with draining := true } := by
  cases e with
  | start =>
    rw [step] at h
    split at h
    next => cases h
    next hstarting => exact .inl ⟨rfl, hstarting, (Option.some.inj h).symm⟩
  | run w outcome =>
    obtain ⟨thread, hw, hrun⟩ := Option.bind_eq_some_iff.mp h
    exact .inr (.inl ⟨w, outcome, thread, rfl, hw, hrun⟩)
  | expire => exact .inr (.inr (.inl ⟨rfl, (Option.some.inj h).symm⟩))
  | watch m outcome =>
    obtain ⟨mark, hm, hwatch⟩ := Option.bind_eq_some_iff.mp h
    exact .inr (.inr (.inr (.inl ⟨m, outcome, mark, rfl, hm, hwatch⟩)))
  | drain => exact .inr (.inr (.inr (.inr ⟨rfl, (Option.some.inj h).symm⟩)))

/-- The system refuses a thread. -/
def spawnFails (s : FpmPool) : Event → Bool
  | .run w .failed => decide (s.threads[w]? = some .spawning)
  | _ => false

end FpmPool

end Ephpm.Fpm
