import Ephpm.Kv.Strings

/-!
# Operations, steps and runs

One type for everything a client or the background task can ask of a store, one
function that carries it out, and runs: finite sequences of operations, each with
the clock reading it works with.

**Coverage.**  `Op` has a constructor for every operation of a standalone store
that reads or changes its state.  `get` and the other reads are included
because reading reaps: a lazily expired key disappears when it is looked at.
-/

namespace Ephpm.Kv

open Lib

/-- What can be asked of a store. -/
inductive Op where
  | get (key : String)
  | existsKey (key : String)
  | pttl (key : String)
  | ttl (key : String)
  | keys (matching : String → Bool)
  | scan (cursor : ℕ) (matching : String → Bool) (count : ℕ) (kind : Option KeyKind)
  | wait (key : String) (lastVersion : ℕ)
  | type (key : String)
  | set (key : String) (value : Bytes) (ttl : Option Duration)
  | setNx (key : String) (value : Bytes) (ttl : Option Duration)
  | setIfEq (key : String) (expected value : Bytes) (ttl : SetTtl)
  | delIfEq (key : String) (token : Bytes)
  | getdel (key : String)
  | getex (key : String) (expiry : GetExpiry)
  | incrBy (key : String) (delta : ℤ) (ttl : Option Duration)
  | append (key : String) (value : Bytes)
  | expire (key : String) (ttl : Duration)
  | expireLocal (key : String) (ttl : Duration)
  | persist (key : String)
  | persistString (key : String)
  | del (keys : List String)
  | removeString (key : String)
  | rename (oldKey newKey : String)
  | flush
  | restoreString (key : String) (data : Bytes) (compressed : Bool)
      (expiresAt : Option Instant)
  | restoreRecord (valueAlgo : CompressionAlgo) (key : String) (data : Bytes)
      (compressed : Bool) (remaining : Option Duration)
  | restoreHash (key : String) (fields : List (String × HashField))
      (expiresAt : Option Instant)
  | hget (key field : String)
  | hmget (key : String) (fields : List String)
  | hgetall (key : String)
  | hkeys (key : String)
  | hvals (key : String)
  | hlen (key : String)
  | hexists (key field : String)
  | hstrlen (key field : String)
  | hpttl (key : String) (fields : List String)
  | hset (key : String) (pairs : List (String × Bytes))
  | hsetnx (key field : String) (value : Bytes)
  | hdel (key : String) (fields : List String)
  | hincrBy (key field : String) (delta : ℤ)
  | hincrByFloat (key field : String) (delta : UInt64)
  | hexpire (key : String) (fields : List String) (remaining : Duration)
      (cond : ExpireCondition)
  | hpersist (key : String) (fields : List String)
  | applyHashField (key field : String) (state : HashFieldState)
  | expireCycle
  | expireRound

/-- What a client sees.  Memory figures and the number of reaped keys are not
among it. -/
inductive Reply where
  | done
  | flag (b : Bool)
  | count (n : ℕ)
  | int (n : ℤ)
  | ints (ns : List ℤ)
  | bytes (value : Option Bytes)
  | bytesList (values : List (Option Bytes))
  | pairs (fields : List (String × Bytes))
  | names (keys : List String)
  | page (page : ScanPage)
  | changed (version : Option (ℕ × Option Bytes))
  | keyType (kind : KeyType)
  | setNx (outcome : SetNxOutcome)
  | setIfEq (outcome : SetIfEqOutcome)
  | length (n : Option ℕ)
  | number (n : Except String ℤ)
  | text (t : Except String Bytes)
  | hashCount (n : Except HashWriteError ℕ)
  | hashFlag (b : Except HashWriteError Bool)
  | codes (codes : List FieldCode)
  | renamed (reply : Store.RenameReply)
deriving DecidableEq

/-- Wrap the first component of a result. -/
def answer {R : Type} (wrap : R → Reply) (r : R × Store) : Reply × Store := (wrap r.1, r.2)

@[simp] theorem answer_snd {R : Type} (wrap : R → Reply) (r : R × Store) :
    (answer wrap r).2 = r.2 := rfl

namespace Store

/-- The wire value of `PTTL`. -/
def pttlReply (ms : Option ℤ) : ℤ := ms.getD (-2)

/-- The wire value of `TTL`. -/
def ttlReply (ms : Option ℤ) : ℤ :=
  let ms := pttlReply ms
  if 0 ≤ ms then ms / 1000 else ms

variable [P : Platform]

/-- Carry out one operation at the clock reading `now`. -/
def step (now : Instant) (op : Op) (s : Store) : Reply × Store :=
  match op with
  | .get key => answer .bytes (s.get now key)
  | .existsKey key => answer .flag (s.existsKey now key)
  | .pttl key => answer (.int ∘ pttlReply) (s.pttl now key)
  | .ttl key => answer (.int ∘ ttlReply) (s.pttl now key)
  | .keys matching => (.names (s.keys now matching), s)
  | .scan cursor matching count kind => (.page (s.scan now cursor matching count kind), s)
  | .wait key lastVersion => answer .changed (s.waitForChange now key lastVersion)
  | .type key => answer .keyType (s.type now key)
  | .set key value ttl => answer .flag (s.setLocal now key value ttl)
  | .setNx key value ttl => answer .setNx (s.setNxOutcomeLocal now key value ttl)
  | .setIfEq key expected value ttl =>
    answer .setIfEq (s.setIfEqLocal now key expected value ttl)
  | .delIfEq key token => answer .flag (s.delIfEqLocal now key token)
  | .getdel key => answer .bytes (s.getdel now key)
  | .getex key expiry => answer .bytes (s.getex now key expiry)
  | .incrBy key delta ttl => answer .number (s.incrByWithTtl now key delta ttl)
  | .append key value => answer .length (s.append now key value)
  | .expire key ttl => answer .flag (s.expire now key ttl)
  | .expireLocal key ttl => answer .flag (s.expireLocal now key ttl)
  | .persist key => answer .flag (s.persist now key)
  | .persistString key => answer .flag (s.persistString now key)
  | .del keys => answer .count (s.del now keys)
  | .removeString key => answer .flag (s.removeStringLocal key)
  | .rename oldKey newKey => answer .renamed (s.rename now oldKey newKey)
  | .flush => (.done, s.flush)
  | .restoreString key data compressed expiresAt =>
    answer .flag (s.restoreString now key data compressed expiresAt)
  | .restoreRecord valueAlgo key data compressed remaining =>
    answer .flag (s.restoreRecord now valueAlgo key data compressed remaining)
  | .restoreHash key fields expiresAt =>
    answer .flag (s.restoreHash now key fields expiresAt)
  | .hget key field => answer .bytes (s.hget now key field)
  | .hmget key fields => answer .bytesList (s.hmget now key fields)
  | .hgetall key => answer .pairs (s.hgetall now key)
  | .hkeys key => answer .names (s.hkeys now key)
  | .hvals key => answer (.bytesList ∘ List.map some) (s.hvals now key)
  | .hlen key => answer .count (s.hlen now key)
  | .hexists key field => answer .flag (s.hexists now key field)
  | .hstrlen key field => answer .count (s.hstrlen now key field)
  | .hpttl key fields => answer .ints (s.hpttl now key fields)
  | .hset key pairs => answer .hashCount (s.hsetMany now key pairs)
  | .hsetnx key field value => answer .hashFlag (s.hsetnx now key field value)
  | .hdel key fields => answer .count (s.hdelFields now key fields)
  | .hincrBy key field delta => answer .number (s.hincrBy now key field delta)
  | .hincrByFloat key field delta => answer .text (s.hincrByFloat now key field delta)
  | .hexpire key fields remaining cond =>
    answer .codes (s.hexpire now key fields remaining cond)
  | .hpersist key fields => answer .codes (s.hpersist now key fields)
  | .applyHashField key field state =>
    answer .flag (s.applyHashFieldLocal now key field state)
  | .expireCycle => (.done, (s.activeExpireCycle now).2)
  | .expireRound => (.done, (s.expireRound now).2)

/-- Carry out a sequence of operations, each at its own clock reading. -/
def run : List (Instant × Op) → Store → List Reply × Store
  | [], s => ([], s)
  | (now, op) :: rest, s =>
    let first := s.step now op
    let others := run rest first.2
    (first.1 :: others.1, others.2)

/-- The state a run ends in. -/
def runState (ops : List (Instant × Op)) (s : Store) : Store := (s.run ops).2

@[simp] theorem runState_nil (s : Store) : s.runState [] = s := rfl

theorem runState_cons (now : Instant) (op : Op) (rest : List (Instant × Op)) (s : Store) :
    s.runState ((now, op) :: rest) = (s.step now op).2.runState rest := rfl

theorem runState_append (first second : List (Instant × Op)) (s : Store) :
    s.runState (first ++ second) = (s.runState first).runState second := by
  induction first generalizing s with
  | nil => rfl
  | cons head rest ih =>
    obtain ⟨now, op⟩ := head
    rw [List.cons_append, runState_cons, runState_cons, ih]

/-- Every step of a run meets a condition on the state before it. -/
def Along (C : Instant → Op → Store → Prop) : List (Instant × Op) → Store → Prop
  | [], _ => True
  | (now, op) :: rest, s => C now op s ∧ Along C rest (s.step now op).2

/-- **The induction over runs**: what holds at the start and is kept by every step
that meets the condition holds in every state of a run whose steps all meet it. -/
theorem Along.holds {C : Instant → Op → Store → Prop} (Holds : Store → Prop)
    (hstep : ∀ s now op, Holds s → C now op s → Holds (s.step now op).2)
    {ops : List (Instant × Op)} {s : Store} (along : Along C ops s) (hs : Holds s) (n : ℕ) :
    Holds (s.runState (ops.take n)) := by
  induction ops generalizing s n with
  | nil =>
    rw [List.take_nil]
    exact hs
  | cons head rest ih =>
    obtain ⟨now, op⟩ := head
    cases n with
    | zero => exact hs
    | succ n =>
      rw [List.take_succ_cons, runState_cons]
      exact ih along.2 (hstep s now op hs along.1) n

end Store

end Ephpm.Kv
