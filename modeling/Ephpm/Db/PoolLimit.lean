import Mathlib.Algebra.Order.BigOperators.Group.List
import Mathlib.Algebra.Order.Ring.Nat
import Ephpm.Db.PoolTasks

/-!
# How many connections there are

Permits bound what is checked out.  They are meant to bound also how many connections there are: an
acquire opens one only if none is idle, and then those in use are all there are.

For that **nobody else may have connections or be about to open some**.  A health check has the
whole queue in its hands, so an acquire that finds the queue empty meanwhile opens a connection too
many.  A `warm` opens as many as there was room for when it began, and an acquire does not know
about that.  Two calls that overlap in these ways are what `Orderly` excludes.  Otherwise the limit
holds (`connection_limit`), because a quantity that also counts connections to come stays below it
(`load`).

A permit is not a checked-out connection: the acquires under way that have one count as well.
-/

namespace Ephpm.Db.Pooling

namespace Task

/-- How many connections a task has. -/
def connections : Task → ℕ
  | validating _ | out _ | resetting _ => 1
  | checking slot slots healthy => (checking slot slots healthy).underCheck.length
  | _ => 0

/-- How many connections a task is going to open. -/
def pending : Task → ℕ
  | connecting => 1
  | warming more => more + 1
  | _ => 0

/-- A checkout, also while it is being given back. -/
def isCheckout : Task → Bool
  | out _ | resetting _ => true
  | _ => false

/-- An acquire under way that has a permit. -/
def isAcquire : Task → Bool
  | granted | validating _ | connecting => true
  | _ => false

/-- A task of a client needs a permit for every connection. -/
theorem connections_le_of_ofClient {task : Task} (h : task.ofClient = true) :
    task.connections + task.pending ≤ if task.hasPermit then 1 else 0 := by
  cases task with
  | warming | checking => cases h
  | waiting | granted | connecting => decide
  | validating | out | resetting => exact le_rfl

end Task

namespace State

variable (cfg : PoolConfig) (s : State)

/-- The connections of the pool: checked out, idle or at a ping. -/
def live : ℕ := s.idle.length + (s.tasks.map Task.connections).sum

/-- The same with those that are being opened. -/
def load : ℕ := s.idle.length + (s.tasks.map fun task => task.connections + task.pending).sum

/-- The tasks with a permit. -/
def holders : ℕ := s.tasks.countP Task.hasPermit

/-- Neither `warm` nor `health_check` is under way. -/
def Quiet : Prop := ∀ task ∈ s.tasks, task.ofClient = true

instance : Decidable s.Quiet := inferInstanceAs (Decidable (∀ task ∈ s.tasks, _))

/-- An acquire opens a connection, and `warm` begins, only when there is no `warm` and no
`health_check` under way. -/
def Orderly (e : Event) : Prop := s.dials cfg e = true ∨ e = .warm → s.Quiet

instance (e : Event) : Decidable (s.Orderly cfg e) := inferInstanceAs (Decidable (_ → _))

/-- A step under the condition. -/
def OrderlyStep (s s' : State) : Prop := ∃ e, s.Orderly cfg e ∧ s.step cfg e = some s'

variable {cfg s} {s' : State} {e : Event} {task : Task}

/-! ## Permits -/

/-- A task begins, with a permit or without. -/
theorem holders_begins (task : Task) :
    (s.begins task).holders = s.holders + if task.hasPermit then 1 else 0 :=
  List.countP_cons

/-- A task ends, with a permit or without. -/
theorem holders_ends (h : s.ends task = some s') :
    s.holders = s'.holders + if task.hasPermit then 1 else 0 := by
  rw [holders, (ends_eq_some h).1.countP_eq, List.countP_cons, holders]

/-- The end of a task frees no permit by itself. -/
theorem permits_ends (h : s.ends task = some s') : s'.permits = s.permits := by
  rw [(ends_eq_some h).2]

/-- Looking for a connection takes up one permit. -/
theorem holders_seek (cfg : PoolConfig) (s : State) :
    (s.seek cfg).permits = s.permits ∧ (s.seek cfg).holders = s.holders + 1 := by
  rcases seek_cases cfg s with ⟨-, heq⟩ | ⟨_, _, _, -, rfl | rfl, heq⟩ <;> rw [heq, holders_begins] <;>
    exact ⟨rfl, rfl⟩

/-- Filling up takes up no permit. -/
theorem holders_warmOn (needed : ℕ) :
    (s.warmOn needed).permits = s.permits ∧ (s.warmOn needed).holders = s.holders := by
  cases needed with
  | zero => exact ⟨rfl, rfl⟩
  | succ more =>
    rw [warmOn]
    split_ifs
    · exact ⟨rfl, rfl⟩
    · exact ⟨rfl, holders_begins _⟩

/-- Checking takes up no permit. -/
theorem holders_checkOn (slots healthy : List Slot) :
    (s.checkOn slots healthy).permits = s.permits ∧
      (s.checkOn slots healthy).holders = s.holders := by
  cases slots with
  | nil => exact ⟨rfl, rfl⟩
  | cons slot slots => exact ⟨rfl, holders_begins _⟩

/-- **Every permit is free or has a holder.** -/
theorem permits_step (h : s.step cfg e = some s') :
    s'.permits + s'.holders = s.permits + s.holders := by
  cases step_move h with
  | refused | full | pruneIdle | close | tick => rfl
  | waits => exact congrArg _ (holders_begins _)
  | acquires _ some =>
    obtain ⟨hpermits, hholders⟩ := holders_seek cfg { s with permits := s.permits - 1 }
    rw [hpermits, hholders, show holders { s with permits := s.permits - 1 } = s.holders from rfl]
    show s.permits - 1 + (s.holders + 1) = s.permits + s.holders
    omega
  | @grant t some ends =>
    have hpermits := permits_ends ends
    rw [holders_begins, holders_ends ends, ← hpermits]
    rw [← hpermits] at some
    show t.permits - 1 + (t.holders + 1) = t.permits + (t.holders + 0)
    omega
  | resume ends | invalid ends =>
    obtain ⟨hpermits, hholders⟩ := holders_seek cfg _
    rw [hpermits, hholders, permits_ends ends, holders_ends ends]
    rfl
  | valid ends | connected ends | reset ends =>
    rw [holders_begins, holders_ends ends, ← permits_ends ends]
    rfl
  | @dropped t task _ ends =>
    rw [holders_ends ends, ← permits_ends ends]
    show (if task.hasPermit then t.permits + 1 else t.permits) + t.holders = _
    split_ifs <;> omega
  | @recycle t _ ends | @wasReset t _ ends =>
    rw [holders_ends ends, ← permits_ends ends]
    show t.permits + 1 + t.holders = t.permits + (t.holders + 1)
    omega
  | warm =>
    obtain ⟨hpermits, hholders⟩ := holders_warmOn (s := s) (s.needed cfg)
    rw [hpermits, hholders]
  | @warmed t more ends =>
    obtain ⟨hpermits, hholders⟩ := holders_warmOn (s := t.parked) more
    rw [hpermits, hholders, holders_ends ends, ← permits_ends ends]
    rfl
  | @unwarmed t more ends =>
    obtain ⟨hpermits, hholders⟩ := holders_warmOn (s := t) more
    rw [hpermits, hholders, holders_ends ends, ← permits_ends ends]
    rfl
  | healthCheck =>
    obtain ⟨hpermits, hholders⟩ := holders_checkOn (s := { s with idle := [] }) s.idle []
    rw [hpermits, hholders]
    rfl
  | alive ends | dead ends =>
    obtain ⟨hpermits, hholders⟩ := holders_checkOn _ _
    rw [hpermits, hholders, holders_ends ends, ← permits_ends ends]
    rfl

/-! ## Connections -/

/-- What a task adds to the load. -/
theorem load_begins (task : Task) :
    (s.begins task).load = s.load + (task.connections + task.pending) := by
  simp only [load, begins, List.map_cons, List.sum_cons]
  omega

/-- What a task leaves of the load. -/
theorem load_ends (h : s.ends task = some s') :
    s.load = s'.load + (task.connections + task.pending) := by
  obtain ⟨hperm, heq⟩ := ends_eq_some h
  have hidle : s'.idle = s.idle := by rw [heq]
  rw [load, load, (hperm.map _).sum_eq, List.map_cons, List.sum_cons, hidle]
  omega

/-- Idle connections are part of the load. -/
theorem load_add_length (h : s'.tasks = s.tasks) :
    s'.load + s.idle.length = s.load + s'.idle.length := by
  rw [load, load, h]
  omega

/-- The load covers the connections. -/
theorem live_le_load (s : State) : s.live ≤ s.load := by
  exact Nat.add_le_add_left (List.sum_le_sum fun task _ => Nat.le_add_right _ _) _

/-- A task of a client has one connection at most, and a permit. -/
theorem sum_le_countP (tasks : List Task) (h : ∀ task ∈ tasks, task.ofClient = true) :
    (tasks.map fun task => task.connections + task.pending).sum ≤ tasks.countP Task.hasPermit := by
  induction tasks with
  | nil => exact le_rfl
  | cons task tasks ih =>
    have hfirst := Task.connections_le_of_ofClient (h task List.mem_cons_self)
    have hrest := ih fun task hmem => h task (List.mem_cons_of_mem _ hmem)
    rw [List.map_cons, List.sum_cons, List.countP_cons]
    omega

/-- A pool without `warm` and `health_check` under way. -/
theorem load_le_of_quiet (h : s.Quiet) : s.load ≤ s.idle.length + s.holders :=
  Nat.add_le_add_left (sum_le_countP s.tasks h) _

/-- The end of a task disturbs nothing. -/
theorem quiet_ends (h : s.ends task = some s') (hquiet : s.Quiet) : s'.Quiet := by
  intro task' hmem
  exact hquiet task' ((ends_eq_some h).1.mem_iff.mpr (List.mem_cons_of_mem _ hmem))

/-- An acquire that finds a connection. -/
theorem load_seek_le (h : s.fromCandidate cfg ≠ []) : (s.seek cfg).load ≤ s.load := by
  rcases seek_cases cfg s with ⟨hnone, -⟩ | ⟨slot, rest, task, hfirst, htask, heq⟩
  · exact absurd hnone h
  · have hlength : (slot :: rest).length ≤ s.idle.length := hfirst ▸ fromCandidate_sublist.length_le
    have hone : task.connections + task.pending = 1 := by rcases htask with rfl | rfl <;> rfl
    have hload : load { s with idle := rest } + s.idle.length = s.load + rest.length :=
      load_add_length rfl
    rw [heq, load_begins, hone]
    rw [List.length_cons] at hlength
    omega

/-- An acquire that opens one, when nobody else does and no health check is under way. -/
theorem load_seek_le_holders (h : s.fromCandidate cfg = []) (hquiet : s.Quiet) :
    (s.seek cfg).load ≤ (s.seek cfg).holders := by
  rcases seek_cases cfg s with ⟨-, heq⟩ | ⟨slot, rest, _, hfirst, -, -⟩
  · have hle : load { s with idle := [] } ≤ 0 + s.holders := load_le_of_quiet hquiet
    rw [heq, load_begins, holders_begins]
    show _ + 1 ≤ s.holders + 1
    omega
  · rw [hfirst] at h
    cases h

/-- A connection that is given back is part of the load. -/
theorem load_recycled (checkout : Checkout) : (s.recycled checkout).load = s.load + 1 := by
  simp only [load, recycled, List.length_append, List.length_singleton]
  omega

/-- A connection that is opened ahead is part of the load. -/
theorem load_parked : s.parked.load = s.load + 1 := by
  simp only [load, parked, List.length_append, List.length_singleton]
  omega

/-- Filling up adds what is needed. -/
theorem load_warmOn_le (needed : ℕ) : (s.warmOn needed).load ≤ s.load + needed := by
  cases needed with
  | zero => exact le_rfl
  | succ more =>
    rw [warmOn]
    split_ifs
    · exact Nat.le_add_right _ _
    · rw [load_begins]
      exact le_of_eq (congrArg _ (Nat.zero_add _))

/-- A health check ends with the queue overwritten, or goes on with what it has. -/
theorem load_checkOn_le (slots healthy : List Slot) :
    (s.checkOn slots healthy).load ≤ s.load + (healthy.length + slots.length) := by
  cases slots with
  | nil =>
    simp only [checkOn, load, List.length_nil]
    omega
  | cons slot slots =>
    refine le_of_eq ((load_begins _).trans (congrArg _ ?_))
    simp [Task.connections, Task.pending, Task.underCheck]

/-- **Connections and permits stay within the limit in an orderly step.** -/
theorem load_step {max : ℕ} (hpermits : s.permits + s.holders = max) (hle : s.load ≤ max)
    (horderly : s.Orderly cfg e) (h : s.step cfg e = some s') : s'.load ≤ max := by
  -- where an acquire looks for a connection, from a state that differs in permits and tasks
  have hseek : ∀ t : State, s.seeks e = true → t.fromCandidate cfg = s.fromCandidate cfg →
      (s.Quiet → t.Quiet) → s' = t.seek cfg → t.load ≤ s.load → s'.load ≤ max := by
    rintro t hseeks hcand hquiet rfl hload
    by_cases hnone : t.fromCandidate cfg = []
    · have hholders := load_seek_le_holders hnone (hquiet (horderly (Or.inl ?_)))
      · have := permits_step h
        omega
      · simp [dials, hseeks, ← hcand, hnone]
    · exact (load_seek_le hnone).trans (hload.trans hle)
  cases step_move h with
  | refused | full | tick => exact hle
  | waits => rwa [load_begins]
  | acquires isOpen some =>
    exact hseek { s with permits := s.permits - 1 } (by simp [seeks, isOpen, some]) rfl id rfl le_rfl
  | @grant t _ ends =>
    have hload := load_ends ends
    rw [load_begins]
    show t.load + 0 ≤ max
    omega
  | @resume t ends =>
    have heq := (ends_eq_some ends).2
    refine hseek t rfl (by rw [heq]; rfl) (quiet_ends ends) rfl ?_
    rw [load_ends ends]
    exact Nat.le_add_right _ _
  | @invalid t _ ends =>
    have heq := (ends_eq_some ends).2
    refine hseek t rfl (by rw [heq]; rfl) (quiet_ends ends) rfl ?_
    rw [load_ends ends]
    exact Nat.le_add_right _ _
  | @valid t _ ends | @connected t ends | @reset t _ ends =>
    have hload : s.load = t.load + 1 := load_ends ends
    rw [load_begins]
    show t.load + 1 ≤ max
    omega
  | @dropped t task _ ends =>
    have hload := load_ends ends
    show t.load ≤ max
    omega
  | @recycle t _ ends | @wasReset t _ ends =>
    have hload : s.load = t.load + 1 := load_ends ends
    rw [load_recycled]
    omega
  | pruneIdle =>
    have hload : load { s with idle := s.idle.filter (cfg.keeps s.now) } + s.idle.length =
      s.load + (s.idle.filter (cfg.keeps s.now)).length := load_add_length rfl
    have hlength := List.length_filter_le (cfg.keeps s.now) s.idle
    omega
  | warm =>
    have hquiet := load_le_of_quiet (horderly (Or.inr rfl))
    have hload := load_warmOn_le (s := s) (s.needed cfg)
    simp only [needed] at hload ⊢
    omega
  | @warmed t more ends =>
    have hload : s.load = t.load + (0 + (more + 1)) := load_ends ends
    have hon := load_warmOn_le (s := t.parked) more
    rw [load_parked] at hon
    omega
  | @unwarmed t more ends =>
    have hload : s.load = t.load + (0 + (more + 1)) := load_ends ends
    have hon := load_warmOn_le (s := t) more
    omega
  | healthCheck =>
    have hload : load { s with idle := [] } + s.idle.length = s.load + 0 := load_add_length rfl
    have hon := load_checkOn_le (s := { s with idle := [] }) s.idle []
    rw [List.length_nil] at hon
    omega
  | @alive t slot slots healthy ends =>
    have hload : s.load = t.load + ((healthy ++ slot :: slots).length + 0) := load_ends ends
    have hon := load_checkOn_le (s := t) slots (healthy ++ [slot])
    rw [List.length_append, List.length_cons] at hload
    rw [List.length_append, List.length_singleton] at hon
    omega
  | @dead t slot slots healthy ends =>
    have hload : s.load = t.load + ((healthy ++ slot :: slots).length + 0) := load_ends ends
    have hon := load_checkOn_le (s := t) slots healthy
    rw [List.length_append, List.length_cons] at hload
    omega
  | close =>
    have hload : load { s with closed := true, idle := [] } + s.idle.length = s.load + 0 :=
      load_add_length rfl
    omega

end State

open State

variable {cfg : PoolConfig} {s : State}

/-- Every permit of the pool is accounted for. -/
def Accounted (cfg : PoolConfig) (s : State) : Prop := s.permits + s.holders = cfg.maxConnections

/-- There are not too many connections, also when those that are being opened are there. -/
structure Within (cfg : PoolConfig) (s : State) : Prop where
  accounted : Accounted cfg s
  load : s.load ≤ cfg.maxConnections

/-- **A step keeps the permits accounted for.** -/
theorem Accounted.step {s' : State} (h : Accounted cfg s)
    (hstep : ∃ e, s.step cfg e = some s') : Accounted cfg s' := by
  obtain ⟨e, hstep⟩ := hstep
  exact (permits_step hstep).trans h

/-- **An orderly step stays within the limit.** -/
theorem Within.step {s' : State} (h : Within cfg s) (hstep : OrderlyStep cfg s s') :
    Within cfg s' := by
  obtain ⟨e, horderly, hstep⟩ := hstep
  exact ⟨h.accounted.step ⟨e, hstep⟩, load_step h.accounted h.load horderly hstep⟩

/-- At the beginning there is nothing. -/
theorem within_start (cfg : PoolConfig) : Within cfg (start cfg) := ⟨rfl, Nat.zero_le _⟩

/-- Whoever has a permit is a checkout or an acquire. -/
theorem holders_eq (s : State) :
    s.holders = s.tasks.countP Task.isCheckout + s.tasks.countP Task.isAcquire := by
  rw [holders]
  induction s.tasks with
  | nil => rfl
  | cons task tasks ih =>
    have hone : (if task.hasPermit then 1 else 0) =
        (if task.isCheckout then 1 else 0) + if task.isAcquire then 1 else 0 := by
      cases task <;> rfl
    simp only [List.countP_cons]
    omega

/-- **Permits and connections.**  In every run each permit is free, or belongs to a connection that
is checked out or to an acquire under way.  In every run in which no acquire opens a connection and
no `warm` begins while a `warm` or a health check is under way, there are never more connections
than the limit allows. -/
theorem connection_limit (cfg : PoolConfig) :
    (∀ s, Lib.Path (fun a b => ∃ e, a.step cfg e = some b) (start cfg) s →
      s.permits ≤ cfg.maxConnections ∧ cfg.maxConnections - s.permits =
        s.tasks.countP Task.isCheckout + s.tasks.countP Task.isAcquire) ∧
    ∀ s, Lib.Path (OrderlyStep cfg) (start cfg) s → s.live ≤ cfg.maxConnections := by
  constructor
  · intro s path
    have hpermits : Accounted cfg s :=
      Lib.Path.preserves (fun _ _ h hstep => h.step hstep) path (within_start cfg).accounted
    rw [Accounted, holders_eq] at hpermits
    omega
  · intro s path
    have hwithin : Within cfg s :=
      Lib.Path.preserves (fun _ _ h hstep => h.step hstep) path (within_start cfg)
    exact (live_le_load s).trans hwithin.load

/-- A pool for a single connection. -/
def singlePool : PoolConfig := ⟨0, 1, 1000000000000, 1000000000000⟩

/-- A connection is given back, checked and taken again. -/
theorem connection_limit_single :
    ∃ s : State, Lib.Path (OrderlyStep singlePool) (start singlePool) s ∧ s.live = 1 ∧
      s.live ≤ singlePool.maxConnections := by
  have hrun : ([.acquire, .connected, .recycle ⟨0, 0⟩, .healthCheck,
        .checked ⟨0, 0, 0⟩ [] [] true, .acquire] : List Event).foldlM
      (fun (s : State) e => if s.Orderly singlePool e then s.step singlePool e else none)
      (start singlePool) = some ⟨[], 0, false, [.out ⟨0, 0⟩], 0, 1, {0}⟩ := by decide +kernel
  have hpath := Lib.Path.of_guarded_foldlM hrun
  exact ⟨_, hpath, rfl, (connection_limit singlePool).2 _ hpath⟩

/-- **An acquire that opens a connection has a permit and nothing is checked out.**  And while a
health check has the only connection in its hands, another is opened. -/
theorem permit_without_checkout_and_limit_passed :
    (∃ s : State, [Event.acquire].foldlM (State.step singlePool) (start singlePool) = some s ∧
      singlePool.maxConnections - s.permits = 1 ∧ s.tasks.countP Task.isCheckout = 0) ∧
    ∃ s : State, [.acquire, .connected, .recycle ⟨0, 0⟩, .healthCheck, .acquire, .connected].foldlM
      (State.step singlePool) (start singlePool) = some s ∧ s.live = 2 := by
  constructor
  · exact ⟨⟨[], 0, false, [.connecting], 0, 0, ∅⟩, by decide +kernel, rfl, rfl⟩
  · exact ⟨⟨[], 0, false, [.out ⟨1, 0⟩, .checking ⟨0, 0, 0⟩ [] []], 0, 2, {0}⟩, by decide +kernel, rfl⟩

end Ephpm.Db.Pooling
