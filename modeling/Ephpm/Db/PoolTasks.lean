import Mathlib.Data.List.Perm.Basic
import Mathlib.Data.List.TakeWhile
import Mathlib.Data.Finset.Insert
import Ephpm.Db.Pool
import Ephpm.Lib.Path

/-!
# The pool, one await at a time

`Pool` takes an acquire as one step.  In fact it waits up to three times, for a permit, for a ping
and for a new connection, and so do the calls that fill the pool and check it.  Whatever else
happens to the pool may happen in between.

A call that has begun and is waiting is a `Task`, with what it has in its hands, and **a step of the
pool is what one of the calls does until it waits again**.  A checkout counts as a task as well: it
is waiting for its client.  Any number of calls of every kind may be under way.

A task that belongs to a client can end at any time, because it waited too long, because the backend
refuses the connection, or because nobody wants the result any more.  All that this does is to close
the connection that it has and to free its permit (`Event.dropped`).

Connections are numbered as they are opened.  Which of them were ever given back is written down in
`returned`, which nothing in the code reads.  `acquires_alone` says that an acquire that nobody
interrupts is the one of `Pool`.
-/

namespace Ephpm.Db.Pooling

/-- `Checkout`: a connection in use. -/
structure Checkout where
  connection : ℕ
  createdAt : ℕ
deriving DecidableEq, Repr

/-- A call that is waiting, or a checkout. -/
inductive Task
  /-- `acquire` without a permit -/
  | waiting
  /-- `acquire` that was given a permit and has not run since -/
  | granted
  /-- `acquire` at the ping -/
  | validating (slot : Slot)
  /-- `acquire` that opens a connection -/
  | connecting
  | out (checkout : Checkout)
  /-- `recycle_with_reset` at the reset -/
  | resetting (checkout : Checkout)
  /-- `warm` that opens a connection, with so many to come -/
  | warming (more : ℕ)
  /-- `health_check` at the ping of a slot, with those to come and those that are healthy -/
  | checking (slot : Slot) (slots healthy : List Slot)
deriving DecidableEq, Repr

namespace Task

/-- Tasks that hold a permit. -/
def hasPermit : Task → Bool
  | granted | validating _ | connecting | out _ | resetting _ => true
  | _ => false

/-- The task belongs to a client. -/
def ofClient : Task → Bool
  | warming _ | checking .. => false
  | _ => true

/-- What a health check has in its hands. -/
def underCheck : Task → List Slot
  | checking slot slots healthy => healthy ++ slot :: slots
  | _ => []

end Task

/-- A pool with the tasks that work on it. -/
structure State where
  idle : List Slot
  /-- free permits -/
  permits : ℕ
  closed : Bool
  tasks : List Task
  now : ℕ
  /-- how many connections were ever opened -/
  opened : ℕ
  /-- the connections that `recycle` has put into the queue -/
  returned : Finset ℕ
deriving DecidableEq

/-- What a task does next. -/
inductive Event
  | acquire
  | grant
  | resume
  | pinged (slot : Slot) (alive : Bool)
  | connected
  | dropped (task : Task)
  | recycle (checkout : Checkout)
  | reset (checkout : Checkout)
  | wasReset (checkout : Checkout)
  | pruneIdle
  | warm
  | warmed (more : ℕ) (success : Bool)
  | healthCheck
  | checked (slot : Slot) (slots healthy : List Slot) (alive : Bool)
  | close
  | tick (now : ℕ)
deriving DecidableEq, Repr

namespace State

/-- `Pool::new`. -/
def start (cfg : PoolConfig) : State := ⟨[], cfg.maxConnections, false, [], 0, 0, ∅⟩

variable (cfg : PoolConfig) (s : State)

/-- A task goes on, or ends. -/
def ends (task : Task) : Option State :=
  if task ∈ s.tasks then some { s with tasks := s.tasks.erase task } else none

/-- A task is there from now on. -/
def begins (task : Task) : State := { s with tasks := task :: s.tasks }

/-- The idle connections from the first that is neither too old nor idle for too long. -/
def fromCandidate : List Slot := s.idle.dropWhile fun slot => !cfg.keeps s.now slot

/-- The loop of `acquire`, until it waits or is done. -/
def seek : State :=
  match s.fromCandidate cfg with
  | [] => { s with idle := [] }.begins .connecting
  | slot :: rest =>
    { s with idle := rest }.begins
      (if s.now - slot.lastUsed < validateAfterIdle then .out ⟨slot.connection, slot.createdAt⟩
        else .validating slot)

/-- `recycle`. -/
def recycled (checkout : Checkout) : State :=
  { s with
    idle := s.idle ++ [⟨checkout.connection, checkout.createdAt, s.now⟩]
    permits := s.permits + 1
    returned := insert checkout.connection s.returned }

/-- A new connection of `warm`. -/
def parked : State :=
  { s with idle := s.idle ++ [⟨s.opened, s.now, s.now⟩], opened := s.opened + 1 }

/-- `warm` at the head of its loop. -/
def warmOn : ℕ → State
  | 0 => s
  | more + 1 => if s.closed then s else s.begins (.warming more)

/-- How many connections `warm` wants to open. -/
def needed : ℕ := min (cfg.minConnections - s.idle.length) (s.permits - s.idle.length)

/-- `health_check` at the head of its loop. -/
def checkOn (slots healthy : List Slot) : State :=
  match slots with
  | [] => { s with idle := healthy }
  | slot :: slots => s.begins (.checking slot slots healthy)

/-- What a task does until it waits again. -/
def step : Event → Option State
  | .acquire =>
    if s.closed then some s
    else if s.permits = 0 then some (s.begins .waiting)
    else some ({ s with permits := s.permits - 1 }.seek cfg)
  | .grant =>
    if s.permits = 0 then none
    else (s.ends .waiting).map fun s => { s with permits := s.permits - 1 }.begins .granted
  | .resume => (s.ends .granted).map fun s => s.seek cfg
  | .pinged slot alive =>
    (s.ends (.validating slot)).map fun s =>
      if alive then s.begins (.out ⟨slot.connection, slot.createdAt⟩) else s.seek cfg
  | .connected =>
    (s.ends .connecting).map fun s =>
      { s with opened := s.opened + 1 }.begins (.out ⟨s.opened, s.now⟩)
  | .dropped task =>
    if task.ofClient then
      (s.ends task).map fun s =>
        { s with permits := if task.hasPermit then s.permits + 1 else s.permits }
    else none
  | .recycle checkout => (s.ends (.out checkout)).map fun s => s.recycled checkout
  | .reset checkout => (s.ends (.out checkout)).map fun s => s.begins (.resetting checkout)
  | .wasReset checkout => (s.ends (.resetting checkout)).map fun s => s.recycled checkout
  | .pruneIdle => some { s with idle := s.idle.filter (cfg.keeps s.now) }
  | .warm =>
    if cfg.minConnections ≤ s.idle.length then some s else some (s.warmOn (s.needed cfg))
  | .warmed more success =>
    (s.ends (.warming more)).map fun s => (if success then s.parked else s).warmOn more
  | .healthCheck => some ({ s with idle := [] }.checkOn s.idle [])
  | .checked slot slots healthy alive =>
    (s.ends (.checking slot slots healthy)).map fun s =>
      s.checkOn slots (if alive then healthy ++ [slot] else healthy)
  | .close => some { s with closed := true, idle := [] }
  | .tick now => if s.now ≤ now then some { s with now := now } else none

/-- Whether an acquire looks through the idle connections in a step. -/
def seeks : Event → Bool
  | .acquire => !s.closed && s.permits ≠ 0
  | .resume => true
  | .pinged _ alive => !alive
  | _ => false

/-- Whether an acquire opens a connection because it has found none. -/
def dials (e : Event) : Bool := s.seeks e && (s.fromCandidate cfg).isEmpty

variable {cfg s} {s' : State} {task : Task}

/-! ## What the helpers do -/

theorem ends_eq_some (h : s.ends task = some s') :
    s.tasks.Perm (task :: s'.tasks) ∧ s' = { s with tasks := s'.tasks } := by
  simp only [ends] at h
  split_ifs at h with hmem
  obtain rfl := Option.some.inj h
  exact ⟨List.perm_cons_erase hmem, rfl⟩

theorem ends_begins (task : Task) : (s.begins task).ends task = some s := by
  simp [ends, begins]

/-- An acquire finds a connection or opens one, and in any case the idle connections before it were
beyond a limit. -/
theorem seek_cases (cfg : PoolConfig) (s : State) :
    (s.fromCandidate cfg = [] ∧ s.seek cfg = { s with idle := [] }.begins .connecting) ∨
    ∃ slot rest task, s.fromCandidate cfg = slot :: rest ∧
      (task = .out ⟨slot.connection, slot.createdAt⟩ ∨ task = .validating slot) ∧
      s.seek cfg = { s with idle := rest }.begins task := by
  cases h : s.fromCandidate cfg with
  | nil =>
    left
    exact ⟨rfl, by rw [seek, h]⟩
  | cons slot rest =>
    right
    refine ⟨slot, rest, _, rfl, ?_, by rw [seek, h]⟩
    split_ifs
    · exact Or.inl rfl
    · exact Or.inr rfl

theorem fromCandidate_sublist : (s.fromCandidate cfg).Sublist s.idle := List.dropWhile_sublist _

/-- What an acquire passes over is beyond a limit. -/
theorem mem_fromCandidate {slot : Slot} (hmem : slot ∈ s.idle) :
    slot ∈ s.fromCandidate cfg ∨ cfg.keeps s.now slot = false := by
  rw [← List.takeWhile_append_dropWhile (p := fun slot => !cfg.keeps s.now slot) (l := s.idle),
    List.mem_append] at hmem
  rcases hmem with hmem | hmem
  · right
    simpa using List.mem_takeWhile_imp hmem
  · exact Or.inl hmem

/-! ## What a step can do -/

/-- The ways in which a step can go. -/
inductive Move (cfg : PoolConfig) (s : State) : Event → State → Prop
  | refused (closed : s.closed = true) : Move cfg s .acquire s
  | waits (none : s.permits = 0) : Move cfg s .acquire (s.begins .waiting)
  | acquires (isOpen : s.closed = false) (some : s.permits ≠ 0) :
      Move cfg s .acquire ({ s with permits := s.permits - 1 }.seek cfg)
  | grant {t} (some : s.permits ≠ 0) (ends : s.ends .waiting = .some t) :
      Move cfg s .grant ({ t with permits := t.permits - 1 }.begins .granted)
  | resume {t} (ends : s.ends .granted = some t) : Move cfg s .resume (t.seek cfg)
  | valid {t slot} (ends : s.ends (.validating slot) = some t) :
      Move cfg s (.pinged slot true) (t.begins (.out ⟨slot.connection, slot.createdAt⟩))
  | invalid {t slot} (ends : s.ends (.validating slot) = some t) :
      Move cfg s (.pinged slot false) (t.seek cfg)
  | connected {t} (ends : s.ends .connecting = some t) :
      Move cfg s .connected ({ t with opened := t.opened + 1 }.begins (.out ⟨t.opened, t.now⟩))
  | dropped {t task} (client : task.ofClient = true) (ends : s.ends task = some t) :
      Move cfg s (.dropped task)
        { t with permits := if task.hasPermit then t.permits + 1 else t.permits }
  | recycle {t checkout} (ends : s.ends (.out checkout) = some t) :
      Move cfg s (.recycle checkout) (t.recycled checkout)
  | reset {t checkout} (ends : s.ends (.out checkout) = some t) :
      Move cfg s (.reset checkout) (t.begins (.resetting checkout))
  | wasReset {t checkout} (ends : s.ends (.resetting checkout) = some t) :
      Move cfg s (.wasReset checkout) (t.recycled checkout)
  | pruneIdle : Move cfg s .pruneIdle { s with idle := s.idle.filter (cfg.keeps s.now) }
  | full : Move cfg s .warm s
  | warm : Move cfg s .warm (s.warmOn (s.needed cfg))
  | warmed {t more} (ends : s.ends (.warming more) = some t) :
      Move cfg s (.warmed more true) (t.parked.warmOn more)
  | unwarmed {t more} (ends : s.ends (.warming more) = some t) :
      Move cfg s (.warmed more false) (t.warmOn more)
  | healthCheck : Move cfg s .healthCheck ({ s with idle := [] }.checkOn s.idle [])
  | alive {t slot slots healthy} (ends : s.ends (.checking slot slots healthy) = some t) :
      Move cfg s (.checked slot slots healthy true) (t.checkOn slots (healthy ++ [slot]))
  | dead {t slot slots healthy} (ends : s.ends (.checking slot slots healthy) = some t) :
      Move cfg s (.checked slot slots healthy false) (t.checkOn slots healthy)
  | close : Move cfg s .close { s with closed := true, idle := [] }
  | tick {now} (later : s.now ≤ now) : Move cfg s (.tick now) { s with now := now }

theorem step_move {e : Event} (h : s.step cfg e = some s') : Move cfg s e s' := by
  cases e with
  | acquire =>
    simp only [step] at h
    split_ifs at h with hclosed hpermits <;> obtain rfl := Option.some.inj h
    · exact .refused hclosed
    · exact .waits hpermits
    · exact .acquires (Bool.eq_false_iff.mpr hclosed) hpermits
  | grant =>
    simp only [step] at h
    split_ifs at h with hpermits
    obtain ⟨t, hends, rfl⟩ := Option.map_eq_some_iff.mp h
    exact .grant hpermits hends
  | resume =>
    obtain ⟨t, hends, rfl⟩ := Option.map_eq_some_iff.mp h
    exact .resume hends
  | pinged slot alive =>
    obtain ⟨t, hends, rfl⟩ := Option.map_eq_some_iff.mp h
    cases alive with
    | true => exact .valid hends
    | false => exact .invalid hends
  | connected =>
    obtain ⟨t, hends, rfl⟩ := Option.map_eq_some_iff.mp h
    exact .connected hends
  | dropped task =>
    rw [step] at h
    by_cases hclient : task.ofClient = true
    · rw [if_pos hclient] at h
      obtain ⟨t, hends, rfl⟩ := Option.map_eq_some_iff.mp h
      exact .dropped hclient hends
    · rw [if_neg hclient] at h
      cases h
  | recycle checkout =>
    obtain ⟨t, hends, rfl⟩ := Option.map_eq_some_iff.mp h
    exact .recycle hends
  | reset checkout =>
    obtain ⟨t, hends, rfl⟩ := Option.map_eq_some_iff.mp h
    exact .reset hends
  | wasReset checkout =>
    obtain ⟨t, hends, rfl⟩ := Option.map_eq_some_iff.mp h
    exact .wasReset hends
  | pruneIdle =>
    obtain rfl := Option.some.inj h
    exact .pruneIdle
  | warm =>
    simp only [step] at h
    split_ifs at h <;> obtain rfl := Option.some.inj h
    · exact .full
    · exact .warm
  | warmed more success =>
    obtain ⟨t, hends, rfl⟩ := Option.map_eq_some_iff.mp h
    cases success with
    | true => exact .warmed hends
    | false => exact .unwarmed hends
  | healthCheck =>
    obtain rfl := Option.some.inj h
    exact .healthCheck
  | checked slot slots healthy alive =>
    obtain ⟨t, hends, rfl⟩ := Option.map_eq_some_iff.mp h
    cases alive with
    | true => exact .alive hends
    | false => exact .dead hends
  | close =>
    obtain rfl := Option.some.inj h
    exact .close
  | tick now =>
    simp only [step] at h
    split_ifs at h with hlater
    obtain rfl := Option.some.inj h
    exact .tick hlater

/-! ## An acquire that nobody interrupts -/

/-- The queue and the permits, as `Pool` has them. -/
def pool (s : State) : Pool := ⟨s.idle, s.permits⟩

/-- The steps of `acquire` once it has a permit: it pings what has rested for longer, until one
answers, and opens a connection if there is none left. -/
def ownSteps (cfg : PoolConfig) (now : ℕ) (alive : ℕ → Bool) : List Slot → List Event
  | [] => [.connected]
  | slot :: rest =>
    if cfg.keeps now slot then
      if now - slot.lastUsed < validateAfterIdle then []
      else .pinged slot (alive slot.connection) ::
        if alive slot.connection then [] else ownSteps cfg now alive rest
    else ownSteps cfg now alive rest

/-- The state when `acquire` is done: the queue and the permits are those of `Pool.acquire`, and what
that hands out is checked out.  It is a new connection if no idle one can be used. -/
def acquired (cfg : PoolConfig) (alive : ℕ → Bool) (s : State) : State :=
  let slot := s.pool.handsOut cfg s.now alive s.opened
  { s with
    idle := (s.pool.acquire cfg s.now alive).idle
    permits := (s.pool.acquire cfg s.now alive).permits
    opened := if s.idle.any (cfg.usable s.now alive) then s.opened else s.opened + 1 }.begins
    (.out ⟨slot.connection, slot.createdAt⟩)

/-- A slot that cannot be used is passed over. -/
theorem acquired_cons_of_not_usable {alive : ℕ → Bool} {slot : Slot} {rest : List Slot}
    (hidle : s.idle = slot :: rest) (husable : ¬ cfg.usable s.now alive slot = true) :
    s.acquired cfg alive = { s with idle := rest }.acquired cfg alive := by
  simp [acquired, pool, Pool.acquire, Pool.handsOut, hidle, husable]

theorem acquired_cons_of_usable {alive : ℕ → Bool} {slot : Slot} {rest : List Slot}
    (hidle : s.idle = slot :: rest) (husable : cfg.usable s.now alive slot = true) :
    s.acquired cfg alive = { s with idle := rest, permits := s.permits - 1 }.begins
      (.out ⟨slot.connection, slot.createdAt⟩) := by
  simp [acquired, pool, Pool.acquire, Pool.handsOut, hidle, husable]

/-- The loop of `acquire`, by induction on the queue. -/
theorem seek_run (alive : ℕ → Bool) (s : State) :
    (ownSteps cfg s.now alive s.idle).foldlM (fun t e => t.step cfg e)
      ({ s with permits := s.permits - 1 }.seek cfg) = some (s.acquired cfg alive) := by
  obtain ⟨idle, permits, closed, tasks, now, opened, returned⟩ := s
  induction idle with
  | nil =>
    have hseek : seek cfg ⟨[], permits - 1, closed, tasks, now, opened, returned⟩ =
        begins ⟨[], permits - 1, closed, tasks, now, opened, returned⟩ .connecting := rfl
    simp only [ownSteps, List.foldlM_cons, List.foldlM_nil, hseek, step, ends_begins]
    rfl
  | cons slot rest ih =>
    by_cases hkeeps : cfg.keeps now slot = true
    · have hseek : seek cfg ⟨slot :: rest, permits - 1, closed, tasks, now, opened, returned⟩ =
          begins ⟨rest, permits - 1, closed, tasks, now, opened, returned⟩
            (if now - slot.lastUsed < validateAfterIdle then .out ⟨slot.connection, slot.createdAt⟩
              else .validating slot) := by
        simp [seek, fromCandidate, hkeeps]
      simp only [ownSteps, hkeeps, if_true, hseek]
      by_cases hrecent : now - slot.lastUsed < validateAfterIdle
      · have husable : cfg.usable now alive slot = true := by
          simp [PoolConfig.usable, hkeeps, hrecent]
        rw [if_pos hrecent, if_pos hrecent, acquired_cons_of_usable rfl husable]
        rfl
      · rw [if_neg hrecent, if_neg hrecent, List.foldlM_cons, step, ends_begins]
        by_cases halive : alive slot.connection = true
        · have husable : cfg.usable now alive slot = true := by
            simp [PoolConfig.usable, hkeeps, halive]
          rw [acquired_cons_of_usable rfl husable, if_pos halive]
          simp [halive]
        · have husable : ¬ cfg.usable now alive slot = true := by
            simp [PoolConfig.usable, hkeeps, halive, hrecent]
          rw [acquired_cons_of_not_usable rfl husable, if_neg halive, Option.map_some, if_neg halive]
          exact ih
    · have husable : ¬ cfg.usable now alive slot = true := by simp [PoolConfig.usable, hkeeps]
      have hseek : seek cfg ⟨slot :: rest, permits - 1, closed, tasks, now, opened, returned⟩ =
          seek cfg ⟨rest, permits - 1, closed, tasks, now, opened, returned⟩ := by
        simp [seek, fromCandidate, hkeeps]
      rw [acquired_cons_of_not_usable rfl husable]
      simp only [ownSteps, hkeeps, if_false, hseek, Bool.false_eq_true]
      exact ih

/-- **An acquire that has a permit and is alone with the pool does what `Pool.acquire` does.**  Its
own steps, with the pings answered as `alive` says, lead to the queue, the permits and the connection
of the atomic acquire, and to nothing else. -/
theorem acquires_alone (alive : ℕ → Bool) (hopen : s.closed = false) (hpermit : s.permits ≠ 0) :
    (.acquire :: ownSteps cfg s.now alive s.idle).foldlM (fun t e => t.step cfg e) s =
      some (s.acquired cfg alive) := by
  have hfirst : s.step cfg .acquire = some ({ s with permits := s.permits - 1 }.seek cfg) := by
    rw [step, hopen, if_neg Bool.false_ne_true, if_neg hpermit]
  rw [List.foldlM_cons, hfirst]
  exact seek_run alive s

/-- The first idle connection is too old, the second does not answer the ping, the third does. -/
theorem acquires_alone_sample :
    let cfg : PoolConfig := ⟨0, 4, 1000000000, 1000000000⟩
    let s : State := ⟨[⟨0, 0, 0⟩, ⟨1, 600000000, 600000000⟩, ⟨2, 600000000, 600000000⟩], 1, false,
      [], 1200000000, 3, ∅⟩
    [Event.acquire, .pinged ⟨1, 600000000, 600000000⟩ false,
        .pinged ⟨2, 600000000, 600000000⟩ true].foldlM (fun t e => t.step cfg e) s =
      some ⟨[], 0, false, [.out ⟨2, 600000000⟩], 1200000000, 3, ∅⟩ := by
  intro cfg s
  have hsteps : ownSteps cfg s.now (· == 2) s.idle = [.pinged ⟨1, 600000000, 600000000⟩ false,
      .pinged ⟨2, 600000000, 600000000⟩ true] := by decide
  have hacquired : s.acquired cfg (· == 2) =
      ⟨[], 0, false, [.out ⟨2, 600000000⟩], 1200000000, 3, ∅⟩ := by decide
  rw [← hsteps, ← hacquired]
  exact @acquires_alone cfg s (· == 2) rfl Nat.one_ne_zero

end State

end Ephpm.Db.Pooling
