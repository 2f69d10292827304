import Mathlib.Data.List.Basic

/-!
# The pool of backend connections

The database proxy keeps connections to its backends that nobody uses at the moment in a queue.  A
connection is taken from the front and given back to the end.  One that is too old, or that does not
answer a ping after a longer rest, is dropped, and if none is left a new one is opened.

**Whose connection it was before** plays no role: whoever comes next gets what stands in front.

Connections have numbers here, and times are in nanoseconds.
-/

namespace Ephpm.Db

/-- `Slot`: an idle connection. -/
structure Slot where
  connection : ℕ
  createdAt : ℕ
  lastUsed : ℕ
deriving DecidableEq, Repr

/-- `PoolConfig`, as far as it concerns the queue. -/
structure PoolConfig where
  minConnections : ℕ
  maxConnections : ℕ
  idleTimeout : ℕ
  maxLifetime : ℕ

/-- `VALIDATE_AFTER_IDLE`. -/
def validateAfterIdle : ℕ := 500000000

namespace PoolConfig

variable (cfg : PoolConfig) (now : ℕ)

/-- Neither too old nor idle for too long. -/
def keeps (slot : Slot) : Bool :=
  now - slot.createdAt < cfg.maxLifetime && now - slot.lastUsed < cfg.idleTimeout

/-- A connection that may be handed out, given which ones answer a ping. -/
def usable (alive : ℕ → Bool) (slot : Slot) : Bool :=
  cfg.keeps now slot && (now - slot.lastUsed < validateAfterIdle || alive slot.connection)

end PoolConfig

/-- `Pool`, as far as `acquire` is concerned. -/
structure Pool where
  idle : List Slot
  /-- free permits, one for each connection that may be in use -/
  permits : ℕ

namespace Pool

variable (cfg : PoolConfig) (now : ℕ) (alive : ℕ → Bool) (p : Pool)

/-- The connection that `acquire` hands out.  A new one gets the number `fresh`. -/
def handsOut (fresh : ℕ) : Slot :=
  match p.idle.find? (cfg.usable now alive) with
  | some slot => slot
  | none => ⟨fresh, now, now⟩

/-- `Pool::acquire`, once there is a permit. -/
def acquire : Pool :=
  { p with
    idle := (p.idle.dropWhile fun slot => !cfg.usable now alive slot).tail
    permits := p.permits - 1 }

end Pool

end Ephpm.Db
