import Ephpm.Kv.Room

/-!
# Hash operations

The hash commands of a standalone store (`store/hash.rs`).  All mutations go
through `hashWrite`, which resets a key-expired hash, purges expired fields, runs
the mutation and settles the byte counter and the expiry index; all reads go
through `hashRead`, which reaps a key-expired hash on the way.

A standalone store has no replicator, so a field operation is its local
mutation and no value is too large for a field.
-/

namespace Ephpm.Kv

open Lib

/-- Why a hash write was refused.  The refusal for a value that is too large to
replicate needs a cluster. -/
inductive HashWriteError where
  | outOfMemory
deriving DecidableEq, Repr

/-- The out-of-memory error of the wire protocol. -/
def oomError : String := "OOM command not allowed when used memory > 'maxmemory'"

/-- Error text when `HINCRBY` meets a non-integer field. -/
def hashNotInteger : String := "ERR hash value is not an integer"

/-- Error text when `HINCRBYFLOAT` meets a non-float field. -/
def hashNotFloat : String := "ERR hash value is not a float"

/-- Error text for an increment that overflows `i64`. -/
def incrOverflow : String := "ERR increment or decrement would overflow"

/-- Error text for a float increment that leaves the finite range. -/
def incrNanOrInf : String := "ERR increment would produce NaN or Infinity"

/-- Per-field reply codes of the field-expiry commands. -/
inductive FieldCode where
  | noField
  | noExpiry
  | conditionNotMet
  | updated
  | deleted
deriving DecidableEq, Repr

/-- The wire value of a field code. -/
def FieldCode.toInt : FieldCode → ℤ
  | .noField => -2
  | .noExpiry => -1
  | .conditionNotMet => 0
  | .updated => 1
  | .deleted => 2

/-- The `NX`/`XX`/`GT`/`LT` condition of an expire command. -/
inductive ExpireCondition where
  | always
  | nx
  | xx
  | gt
  | lt
deriving DecidableEq, Repr

/-- Whether moving from `current` to `new` expiry is allowed; `none` is no
expiry or one too far to represent. -/
def ExpireCondition.allows : ExpireCondition → Option Instant → Option Instant → Bool
  | .always, _, _ => true
  | .nx, current, _ => current.isNone
  | .xx, current, _ => current.isSome
  | .gt, none, _ => false
  | .gt, some _, none => true
  | .gt, some current, some new => current < new
  | .lt, none, _ => true
  | .lt, some _, none => false
  | .lt, some current, some new => new < current

/-- The replicable state of one hash field; durations are remaining
lifetimes. -/
structure HashFieldState where
  value : Option Bytes
  fieldTtl : Option Duration
  hashTtl : Option Duration
deriving DecidableEq, Repr

/-- `Duration::as_millis` as an `i64`, saturating. -/
def millis (d : Duration) : ℤ := min (d / 1000000 : ℕ) (2 ^ 63 - 1)

namespace Store

/-! ## Internal machinery -/

/-- The part of `hash_write` that holds the entry: bring it up to date, run `op`,
settle the counter, drop an emptied hash or note its deadline. -/
def hashWriteOn {R : Type} (now : Instant) (key : String) (create : Bool)
    (op : HashEntry → R × HashEntry) (h : HashEntry) (s : Store) : Option R × Store :=
  let before := h.mem
  let h :=
    if h.keyExpired now then h.reset (hashBaseCost key) else (h.purgeExpiredFields now).2
  if !create && h.fields.entries.isEmpty then
    -- Nothing live to operate on: settle the accounting and drop it.
    let s := { s with hashes := s.hashes.insert key h }.memSub (before - h.mem)
    (none, s.dropEmptyHash key)
  else
    let ran := op (h.touch (s.nowNanos now))
    let h := ran.2
    let s := { s with hashes := s.hashes.insert key h }
    let s := if before < h.mem then s.memAdd (h.mem - before) else s.memSub (before - h.mem)
    let s :=
      if h.fields.entries.isEmpty then s.dropEmptyHash key
      else match h.earliestDeadline with
        | some deadline => s.hashIndexNote key deadline
        | none => s
    (some ran.1, s)

/-- Run `op` on `key`'s hash, creating it when `create` is set.  `none` when the
hash does not exist and `create` is not set. -/
def hashWrite {R : Type} (now : Instant) (key : String) (create : Bool)
    (op : HashEntry → R × HashEntry) (s : Store) : Option R × Store :=
  match s.hashes.get key with
  | some h => s.hashWriteOn now key create op h
  | none =>
    if create then
      let h := HashEntry.new key (s.nowNanos now)
      { s with hashes := s.hashes.insert key h }.memAdd (hashBaseCost key)
        |>.hashWriteOn now key create op h
    else (none, s)

/-- Run `read` on `key`'s live hash, touching its access clock.  `none` when
there is no live hash; a key-expired one is reaped. -/
def hashRead {R : Type} (now : Instant) (key : String) (read : HashEntry → R) (s : Store) :
    Option R × Store :=
  match s.hashes.get key with
  | none => (none, s)
  | some h =>
    if h.keyExpired now then (none, (s.reapHash now key).2)
    else if h.isLive now then
      (some (read h),
        { s with hashes := s.hashes.insert key (h.touch (s.nowNanos now)) })
    else (none, s)

/-- Whether `key` is a live hash. -/
def isHash (now : Instant) (key : String) (s : Store) : Bool × Store :=
  match s.hashes.get key with
  | none => (false, s)
  | some h =>
    if h.keyExpired now then (false, (s.reapHash now key).2) else (h.isLive now, s)

/-- The key expiry of `key`'s live hash: `some none` is no expiry. -/
def hashKeyExpiry (now : Instant) (key : String) (s : Store) : Option (Option Instant) :=
  (s.hashes.get key).bind fun h => if h.isLive now then some h.expiresAt else none

/-- The mutation behind `hash_set_key_expiry`. -/
def keyExpiryOp (deadline : Option Instant) (h : HashEntry) : Bool × HashEntry :=
  if deadline.isNone && h.expiresAt.isNone then (false, h) else (true, h.withExpiry deadline)

/-- Set the key expiry of `key`'s hash, or clear it.  Returns whether a live
hash existed and, for clearing, had an expiry. -/
def hashSetKeyExpiry (now : Instant) (key : String) (deadline : Option Instant) (s : Store) :
    Bool × Store :=
  let written := s.hashWrite now key false (keyExpiryOp deadline)
  let changed := written.1.getD false
  if changed && deadline.isNone then
    -- The hint may now be the cleared key deadline: rebuild it.
    let rebuilt := (written.2.hashes.get key).bind HashEntry.earliestDeadline
    (changed, written.2.hashIndexSet key rebuilt)
  else (changed, written.2)

/-! ## Reads -/

/-- `hget`. -/
def hget (now : Instant) (key field : String) (s : Store) : Option Bytes × Store :=
  let r := s.hashRead now key fun h => (h.live field now).map (·.value)
  (r.1.join, r.2)

/-- `hmget`. -/
def hmget (now : Instant) (key : String) (fields : List String) (s : Store) :
    List (Option Bytes) × Store :=
  let r := s.hashRead now key fun h => fields.map fun f => (h.live f now).map (·.value)
  (r.1.getD (fields.map fun _ => none), r.2)

/-- `hgetall`. -/
def hgetall (now : Instant) (key : String) (s : Store) : List (String × Bytes) × Store :=
  let r := s.hashRead now key fun h =>
    (h.liveFields now).map fun field => (field.1, field.2.value)
  (r.1.getD [], r.2)

/-- `hkeys`. -/
def hkeys (now : Instant) (key : String) (s : Store) : List String × Store :=
  let r := s.hashRead now key fun h => (h.liveFields now).map Prod.fst
  (r.1.getD [], r.2)

/-- `hvals`. -/
def hvals (now : Instant) (key : String) (s : Store) : List Bytes × Store :=
  let r := s.hashRead now key fun h => (h.liveFields now).map (·.2.value)
  (r.1.getD [], r.2)

/-- `hlen`. -/
def hlen (now : Instant) (key : String) (s : Store) : ℕ × Store :=
  let r := s.hashRead now key fun h => h.liveLen now
  (r.1.getD 0, r.2)

/-- `hexists`. -/
def hexists (now : Instant) (key field : String) (s : Store) : Bool × Store :=
  let r := s.hashRead now key fun h => (h.live field now).isSome
  (r.1.getD false, r.2)

/-- `hstrlen`. -/
def hstrlen (now : Instant) (key field : String) (s : Store) : ℕ × Store :=
  let r := s.hashRead now key fun h => (h.live field now).elim 0 (·.value.length)
  (r.1.getD 0, r.2)

/-- `HPTTL`: remaining milliseconds per field, `-2` no field, `-1` no expiry. -/
def hpttl (now : Instant) (key : String) (fields : List String) (s : Store) :
    List ℤ × Store :=
  let r := s.hashRead now key fun h => fields.map fun field =>
    match h.live field now with
    | none => FieldCode.noField.toInt
    | some f => f.expiresAt.elim FieldCode.noExpiry.toInt fun deadline => millis (deadline - now)
  (r.1.getD (fields.map fun _ => FieldCode.noField.toInt), r.2)

variable [P : Platform]

/-! ## Writes -/

/-- Reserve room for one field write to `key`. -/
def reserveField (now : Instant) (key field : String) (valueLen : ℕ) (s : Store) :
    Bool × Store :=
  let base := if (s.hashes.get key).isSome then 0 else hashBaseCost key
  s.reserve now (hashFieldCost field valueLen + base)

/-- `HSET`: set several fields, clearing their TTLs.  The budget is checked per
field, so a refusal stops the write with the earlier fields already stored. -/
def hsetMany (now : Instant) (key : String) :
    List (String × Bytes) → Store → Except HashWriteError ℕ × Store
  | [], s => (.ok 0, s)
  | (field, value) :: rest, s =>
    let reserved := s.reserveField now key field value.length
    if reserved.1 then
      let written := reserved.2.hashWrite now key true fun h => h.putField field value none now
      let created := written.1.getD false
      let others := hsetMany now key rest (written.2.notifyWrite key)
      (others.1.map fun n => (if created then 1 else 0) + n, others.2)
    else (.error .outOfMemory, reserved.2)

omit P in
/-- The mutation behind `HSETNX`. -/
def hsetnxOp (now : Instant) (field : String) (value : Bytes) (h : HashEntry) :
    Bool × HashEntry :=
  if (h.live field now).isSome then (false, h)
  else (true, (h.putField field value none now).2)

/-- `HSETNX`: set a field only if it does not exist. -/
def hsetnx (now : Instant) (key field : String) (value : Bytes) (s : Store) :
    Except HashWriteError Bool × Store :=
  let present := s.hexists now key field
  if present.1 then (.ok false, present.2)
  else
    let reserved := present.2.reserveField now key field value.length
    if reserved.1 then
      let written := reserved.2.hashWrite now key true (hsetnxOp now field value)
      let set := written.1.getD false
      (.ok set, if set then written.2.notifyWrite key else written.2)
    else (.error .outOfMemory, reserved.2)

omit P in
/-- The mutation behind `HDEL`: take a field out. -/
def takeOp (field : String) (h : HashEntry) : Bool × HashEntry :=
  match h.takeField field with
  | some (_, h) => (true, h)
  | none => (false, h)

omit P in
/-- The loop of `hdel_fields`: how many fields were removed. -/
def hdelLoop (now : Instant) (key : String) : List String → Store → ℕ × Store
  | [], s => (0, s)
  | field :: rest, s =>
    let written := s.hashWrite now key false (takeOp field)
    let others := hdelLoop now key rest written.2
    ((if written.1.getD false then 1 else 0) + others.1, others.2)

omit P in
/-- `HDEL`. -/
def hdelFields (now : Instant) (key : String) (fields : List String) (s : Store) : ℕ × Store :=
  let removed := s.hdelLoop now key fields
  (removed.1, if 0 < removed.1 then removed.2.notifyWrite key else removed.2)

omit P in
/-- The shared shape of the two field increments: read the live field, compute
the new text, store it keeping the field's TTL. -/
def incrOp {R : Type} (now : Instant) (field : String)
    (compute : Option Bytes → Except String (R × Bytes)) (h : HashEntry) :
    Except String R × HashEntry :=
  match compute ((h.live field now).map (·.value)) with
  | .error e => (.error e, h)
  | .ok (result, text) =>
    let ttl := (h.live field now).bind (·.expiresAt)
    (.ok result, (h.putField field text ttl now).2)

/-- Reserve `size` bytes of value and run a field increment. -/
def incrField {R : Type} (now : Instant) (key field : String) (size : ℕ)
    (compute : Option Bytes → Except String (R × Bytes)) (s : Store) :
    Except String R × Store :=
  let reserved := s.reserveField now key field size
  if reserved.1 then
    let written := reserved.2.hashWrite now key true (incrOp now field compute)
    let result := written.1.getD (.error oomError)
    (result, if result.isOk then written.2.notifyWrite key else written.2)
  else (.error oomError, reserved.2)

omit P in
/-- What `HINCRBY` computes from the live value: a missing field counts as
`0`. -/
def addInt (delta : ℤ) (current : Option Bytes) : Except String (ℤ × Bytes) :=
  match current.elim (some 0) parseI64 with
  | none => .error hashNotInteger
  | some current =>
    match checkedAddI64 current delta with
    | none => .error incrOverflow
    | some next => .ok (next, formatI64 next)

/-- `HINCRBY`.  An `i64` is at most 20 bytes of text. -/
def hincrBy (now : Instant) (key field : String) (delta : ℤ) (s : Store) :
    Except String ℤ × Store :=
  s.incrField now key field 20 (addInt delta)

/-- What `HINCRBYFLOAT` computes from the live value. -/
def addFloat (delta : UInt64) (current : Option Bytes) : Except String (Bytes × Bytes) :=
  match current.elim (some 0) P.floatParse with
  | none => .error hashNotFloat
  | some current =>
    let next := P.floatAdd current delta
    if P.floatIsFinite next then .ok (P.floatFormat next, P.floatFormat next)
    else .error incrNanOrInf

/-- `HINCRBYFLOAT`: the stored text. -/
def hincrByFloat (now : Instant) (key field : String) (delta : UInt64) (s : Store) :
    Except String Bytes × Store :=
  if P.floatIsFinite delta then s.incrField now key field 64 (addFloat delta)
  else (.error incrNanOrInf, s)

/-! ## Field expiry -/

/-- The mutation behind `HEXPIRE` on one field. -/
def hexpireOp (now : Instant) (field : String) (remaining : Duration)
    (cond : ExpireCondition) (h : HashEntry) : FieldCode × HashEntry :=
  match h.live field now with
  | none => (.noField, h)
  | some f =>
    let deadline := checkedAdd now remaining
    if cond.allows f.expiresAt deadline then
      if remaining = 0 then (.deleted, (takeOp field h).2)
      else (.updated, h.setFieldExpiry field deadline)
    else (.conditionNotMet, h)

/-- The loop of `hexpire`: one code per field. -/
def hexpireLoop (now : Instant) (key : String) (remaining : Duration)
    (cond : ExpireCondition) : List String → Store → List FieldCode × Store
  | [], s => ([], s)
  | field :: rest, s =>
    let written := s.hashWrite now key false (hexpireOp now field remaining cond)
    let others := hexpireLoop now key remaining cond rest written.2
    (written.1.getD .noField :: others.1, others.2)

/-- `HEXPIRE` and its relatives.  A zero `remaining` deletes the field. -/
def hexpire (now : Instant) (key : String) (fields : List String) (remaining : Duration)
    (cond : ExpireCondition) (s : Store) : List FieldCode × Store :=
  let codes := s.hexpireLoop now key remaining cond fields
  (codes.1, if FieldCode.deleted ∈ codes.1 then codes.2.notifyWrite key else codes.2)

omit P in
/-- The mutation behind `HPERSIST` on one field. -/
def hpersistOp (now : Instant) (field : String) (h : HashEntry) : FieldCode × HashEntry :=
  match h.live field now with
  | none => (.noField, h)
  | some f =>
    if f.expiresAt.isNone then (.noExpiry, h)
    else (.updated, h.setFieldExpiry field none)

omit P in
/-- `HPERSIST`: remove the expiry of each field. -/
def hpersist (now : Instant) (key : String) : List String → Store → List FieldCode × Store
  | [], s => ([], s)
  | field :: rest, s =>
    let written := s.hashWrite now key false (hpersistOp now field)
    let others := hpersist now key rest written.2
    (written.1.getD .noField :: others.1, others.2)

/-! ## Replication receive side -/

/-- The mutation behind a replicated field value: the field with its lifetime, and the
key expiry that came with it. -/
def applyOp (now : Instant) (field : String) (value : Bytes) (fieldTtl hashTtl : Option Duration)
    (h : HashEntry) : Unit × HashEntry :=
  let fieldAt := fieldTtl.bind (checkedAdd now)
  let h := (h.putField field value fieldAt now).2
  ((), h.withExpiry (hashTtl.bind (checkedAdd now)))

/-- Apply a replicated field state from a peer.  `false` when a value could not
be stored. -/
def applyHashFieldLocal (now : Instant) (key field : String) (state : HashFieldState)
    (s : Store) : Bool × Store :=
  let gone := state.fieldTtl = some 0 ∨ state.hashTtl = some 0
  match state.value with
  | some value =>
    if gone then removeField key field s
    else
      let reserved := s.reserveField now key field value.length
      if reserved.1 then
        let written := reserved.2.hashWrite now key true
          (applyOp now field value state.fieldTtl state.hashTtl)
        (true, written.2.notifyWrite key)
      else (false, reserved.2)
  | none => removeField key field s
where
  /-- A tombstone: take the field out. -/
  removeField (key field : String) (s : Store) : Bool × Store :=
    let written := s.hashWrite now key false (takeOp field)
    (true, if written.1.getD false then written.2.notifyWrite key else written.2)

end Store

end Ephpm.Kv
