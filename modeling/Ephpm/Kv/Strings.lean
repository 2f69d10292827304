import Ephpm.Kv.Hashes

/-!
# String and key operations

The string commands, the commands on whole names and the snapshot restore of a
standalone store (`store/mod.rs`, `store/strings.rs`, `store/scan.rs`), and the
commands of the wire protocol that combine several of them (`command.rs`).

The writes share one order of work: decide what the write adds, reserve that many
bytes — which may reap and evict anything, the key being written included — and
only then look at the key again and change it.
-/

namespace Ephpm.Kv

open Lib

/-- Error text when `INCR` meets a value that is not an integer. -/
def notInteger : String := "ERR value is not an integer or out of range"

/-- Error text when a stored value cannot be decompressed. -/
def failedToDecompress : String := "ERR failed to decompress value"

/-- Outcome of a conditional insert. -/
inductive SetNxOutcome where
  | inserted
  | exists
  | outOfMemory
deriving DecidableEq, Repr

/-- Outcome of a compare-and-set. -/
inductive SetIfEqOutcome where
  | set
  | notSet
  | outOfMemory
deriving DecidableEq, Repr

/-- What a compare-and-set does to the expiry. -/
inductive SetTtl where
  | persist
  | after (ttl : Duration)
  | keep
deriving DecidableEq, Repr

/-- Whether a compare-and-set asks for a new expiry. -/
def SetTtl.setsTtl : SetTtl → Bool
  | .after _ => true
  | _ => false

/-- The expiry a compare-and-set gives the new entry. -/
def SetTtl.deadline [Platform] (ttl : SetTtl) (now : Instant) (current : Entry) :
    Option Instant :=
  match ttl with
  | .persist => none
  | .after ttl => checkedAdd now ttl
  | .keep => current.expiresAt

/-- What `GETEX` does to the expiry after reading. -/
inductive GetExpiry where
  | after (ttl : Duration)
  | persist
  | delete
deriving DecidableEq, Repr

/-- Which keys a `SCAN` returns. -/
inductive KeyKind where
  | string
  | hash
  | other
deriving DecidableEq, Repr

/-- What `TYPE` answers. -/
inductive KeyType where
  | hash
  | string
  | none
deriving DecidableEq, Repr

/-- One page of a `SCAN`; cursor `0` ends it. -/
structure ScanPage where
  cursor : ℕ
  keys : List String
deriving DecidableEq, Repr

namespace Store

/-! ## Reads of names -/

/-- The entry under `key` and what it was observed to expire at, when it has. -/
def observedExpiry (now : Instant) (e : Entry) : Option Instant :=
  if e.isExpired now then e.expiresAt else none

/-- The lazy-expiry cleanup of the read paths. -/
def reapObserved (now : Instant) (key : String) (e : Entry) (s : Store) : Store :=
  match observedExpiry now e with
  | some observed => (s.reapIfExpired key observed).2
  | none => s

/-- Whether a key exists, as a string or as a hash. -/
def existsKey (now : Instant) (key : String) (s : Store) : Bool × Store :=
  match s.data.get key with
  | some e => if e.isExpired now then (s.reapObserved now key e).isHash now key else (true, s)
  | none => s.isHash now key

/-- Remaining TTL in milliseconds: `some (-1)` no expiry, `some (-2)` an expired
string, `none` no key. -/
def pttl (now : Instant) (key : String) (s : Store) : Option ℤ × Store :=
  match s.data.get key with
  | none =>
    ((s.hashKeyExpiry now key).map fun expiry =>
      expiry.elim (-1) fun deadline => millis (deadline - now), s)
  | some e =>
    if e.isExpired now then (some (-2), s.reapObserved now key e)
    else (some (e.expiresAt.elim (-1) fun deadline => millis (deadline - now)), s)

/-- `KEYS`: the live keys of both maps that match. -/
def keys (now : Instant) (matching : String → Bool) (s : Store) : List String :=
  (collectKeys s.data (fun e => !e.isExpired now)).filter matching ++
    (collectKeys s.hashes (fun h => h.isLive now)).filter matching

/-- `copy_shard`: the live keys of one shard and how many entries it held. -/
def copyShard {V : Type} (map : BucketMap String V) (index : ℕ) (isLive : V → Bool) :
    ℕ × List String :=
  match map.shards[index]? with
  | none => (0, [])
  | some table =>
    (table.entries.length, (table.entries.filter fun e => isLive e.2).map Prod.fst)

/-- What `SCAN` finds at one position of the sequence string shards, then hash
shards. -/
def scanShard (now : Instant) (kind : Option KeyKind) (position : ℕ) (s : Store) :
    ℕ × List String :=
  let dataShards := s.data.shards.length
  if position < dataShards then
    if kind.all (· = .string) then copyShard s.data position fun e => !e.isExpired now
    else (0, [])
  else if kind.all (· = .hash) then
    copyShard s.hashes (position - dataShards) fun h => h.isLive now
  else (0, [])

/-- The loop of `scan`: walk whole shards until `want` entries were examined or
the `shards` left are done.  Returns how many shards were walked. -/
def scanLoop (now : Instant) (kind : Option KeyKind) (want : ℕ) (s : Store) :
    ℕ → ℕ → ℕ → ℕ × List String
  | 0, _, _ => (0, [])
  | shards + 1, position, examined =>
    if examined < want then
      let found := s.scanShard now kind position
      let rest := scanLoop now kind want s shards (position + 1) (examined + found.1)
      (rest.1 + 1, found.2 ++ rest.2)
    else (0, [])

/-- One `SCAN` step from `cursor`. -/
def scan (now : Instant) (cursor : ℕ) (matching : String → Bool) (count : ℕ)
    (kind : Option KeyKind) (s : Store) : ScanPage :=
  let total := s.data.shards.length + s.hashes.shards.length
  if total ≤ cursor then ⟨0, []⟩
  else
    let walked := s.scanLoop now kind (max count 1) (total - cursor) cursor 0
    let position := cursor + walked.1
    ⟨if total ≤ position then 0 else position, walked.2.filter matching⟩

variable [P : Platform]

/-! ## Reads of values -/

/-- The logical value of an entry equals `expected`. -/
def entryEquals (s : Store) (e : Entry) (expected : Bytes) : Bool :=
  e.plain s.config.compression.algo = some expected

/-- `GET`: missing and expired keys read as `none`. -/
def get (now : Instant) (key : String) (s : Store) : Option Bytes × Store :=
  match s.data.get key with
  | none => (none, s)
  | some e =>
    if e.isExpired now then (none, s.reapObserved now key e)
    else
      (e.plain s.config.compression.algo,
        { s with data := s.data.insert key (e.touch (s.nowNanos now)) })

/-- One look of a waiter: the slot is created on the first look, and the answer
is the version and value once the version exceeds `lastVersion`.  A waiter that
blocks is one whose first look answers `none`. -/
def waitForChange (now : Instant) (key : String) (lastVersion : ℕ) (s : Store) :
    Option (ℕ × Option Bytes) × Store :=
  let slot := s.watchSlot key
  if lastVersion < slot.1 then
    let value := slot.2.get now key
    (some (slot.1, value.1), value.2)
  else (none, slot.2)

/-! ## Writes -/

omit P in
/-- The atomic replace of `set_local`: index, map, counter, waiters. -/
def storeEntry (key : String) (entry : Entry) (s : Store) : Store :=
  let s := s.ttlIndexPut key entry.expiresAt
  let previous := s.data.get key
  let s := { s with data := s.data.insert key entry }.memAdd entry.memSize
  -- Reconcile from what was actually replaced.
  let s := match previous with
    | some old => s.memSub old.memSize
    | none => s
  s.notifyWrite key

/-- Put `entry` under `key` whatever is there: the shared body of `set_local` and
`restore_string`. -/
def replaceEntry (now : Instant) (key : String) (entry : Entry) (s : Store) : Bool × Store :=
  let old := s.data.get key
  let oldSize := old.elim 0 (·.memSize)
  let oldHadTtl := old.any (·.expiresAt.isSome)
  -- A TTL'd write onto a key without one also adds a TTL-index hint.
  let indexGrowth := if entry.expiresAt.isSome && !oldHadTtl then ttlIndexCost key else 0
  let reserved := s.reserve now (entry.memSize + indexGrowth - oldSize)
  if reserved.1 then (true, reserved.2.storeEntry key entry) else (false, reserved.2)

/-- `SET`. -/
def setLocal (now : Instant) (key : String) (value : Bytes) (ttl : Option Duration)
    (s : Store) : Bool × Store :=
  let encoded := encodeValue s.config value
  s.replaceEntry now key
    (Entry.new encoded.1 (keyLen key) encoded.2 (ttl.map (now + ·)) (s.nowNanos now))

/-- Put a string entry back exactly as a snapshot recorded it. -/
def restoreString (now : Instant) (key : String) (data : Bytes) (compressed : Bool)
    (expiresAt : Option Instant) (s : Store) : Bool × Store :=
  s.replaceEntry now key
    (Entry.new data (keyLen key) compressed expiresAt (s.nowNanos now))

omit P in
/-- Insert `entry` where there is no entry or an expired one: the last part of
`set_nx_outcome_local` and the create path of `incr_by_with_ttl`. -/
def createEntry (key : String) (entry : Entry) (s : Store) : Store :=
  let s := match s.data.get key with
    | some old => (s.memSub old.memSize).memAdd entry.memSize
    | none => s.memAdd entry.memSize
  ({ s with data := s.data.insert key entry }.ttlIndexPut key entry.expiresAt).notifyWrite key

/-- `SETNX`. -/
def setNxOutcomeLocal (now : Instant) (key : String) (value : Bytes)
    (ttl : Option Duration) (s : Store) : SetNxOutcome × Store :=
  -- Fast path: a live key answers before any room is made.
  if (s.data.get key).any (!·.isExpired now) then (.exists, s)
  else
    let encoded := encodeValue s.config value
    let entry :=
      Entry.new encoded.1 (keyLen key) encoded.2 (ttl.map (now + ·)) (s.nowNanos now)
    let index := if entry.expiresAt.isSome then ttlIndexCost key else 0
    let reserved := s.reserve now (entry.memSize + index)
    if reserved.1 then
      if (reserved.2.data.get key).any (!·.isExpired now) then (.exists, reserved.2)
      else (.inserted, reserved.2.createEntry key entry)
    else (.outOfMemory, reserved.2)

omit P in
/-- The replace of `set_if_eq_local` over the entry `current`. -/
def swapEntry (key : String) (current entry : Entry) (s : Store) : Store :=
  let s := { s with data := s.data.insert key entry }
  let s := (s.memAdd entry.memSize).memSub current.memSize
  let s := if entry.expiresAt ≠ current.expiresAt then s.ttlIndexPut key entry.expiresAt else s
  s.notifyWrite key

/-- `SET key value IFEQ expected`. -/
def setIfEqLocal (now : Instant) (key : String) (expected value : Bytes) (ttl : SetTtl)
    (s : Store) : SetIfEqOutcome × Store :=
  match s.data.get key with
  | none => (.notSet, s)
  | some old =>
    if !old.isExpired now && s.entryEquals old expected then
      let encoded := encodeValue s.config value
      let entry := Entry.new encoded.1 (keyLen key) encoded.2 none (s.nowNanos now)
      let indexGrowth := if ttl.setsTtl && !old.expiresAt.isSome then ttlIndexCost key else 0
      let reserved := s.reserve now (entry.memSize + indexGrowth - old.memSize)
      if reserved.1 then
        -- The authoritative compare and the replace.
        match reserved.2.data.get key with
        | none => (.notSet, reserved.2)
        | some current =>
          if current.isExpired now || !reserved.2.entryEquals current expected then
            (.notSet, reserved.2)
          else
            let deadline := ttl.deadline now current
            (.set, reserved.2.swapEntry key current { entry with expiresAt := deadline })
      else (.outOfMemory, reserved.2)
    else (.notSet, s)

/-- `DELIFEQ`: delete only while the live value equals `token`. -/
def delIfEqLocal (now : Instant) (key : String) (token : Bytes) (s : Store) : Bool × Store :=
  match s.data.get key with
  | none => (false, s)
  | some old =>
    if !old.isExpired now && s.entryEquals old token then
      (true, (s.dropEntry key old).notifyWrite key)
    else (false, s)

/-- `GETDEL`: remove a string key and return the value it held. -/
def getdel (now : Instant) (key : String) (s : Store) : Option Bytes × Store :=
  match s.data.get key with
  | none => (none, s)
  | some old =>
    if old.isExpired now then (none, s)
    else (old.plain s.config.compression.algo, (s.dropEntry key old).notifyWrite key)

omit P in
/-- Give the live entry `e` another expiry, in the map and in the index. -/
def retimeEntry (key : String) (e : Entry) (deadline : Option Instant) (s : Store) : Store :=
  { s with data := s.data.insert key { e with expiresAt := deadline } }.ttlIndexPut key deadline

omit P in
/-- Set the expiry of a string key. -/
def expireLocal (now : Instant) (key : String) (ttl : Duration) (s : Store) : Bool × Store :=
  match s.data.get key with
  | none => (false, s)
  | some e =>
    if e.isExpired now then (false, (s.removeLocal now key).2)
    else (true, s.retimeEntry key e (some (now + ttl)))

/-- `EXPIRE`: the string and the hash of that name. -/
def expire (now : Instant) (key : String) (ttl : Duration) (s : Store) : Bool × Store :=
  let s := (s.isHash now key).2
  let string := s.expireLocal now key ttl
  let hash := string.2.hashSetKeyExpiry now key (checkedAdd now ttl)
  (string.1 || hash.1, hash.2)

omit P in
/-- Remove the expiry of a string key. -/
def persistString (now : Instant) (key : String) (s : Store) : Bool × Store :=
  match s.data.get key with
  | none => (false, s)
  | some e =>
    if e.isExpired now then (false, (s.removeLocal now key).2)
    else if e.expiresAt.isSome then (true, s.retimeEntry key e none)
    else (false, { s with data := s.data.insert key { e with expiresAt := none } })

omit P in
/-- `PERSIST`: the string and the hash of that name. -/
def persist (now : Instant) (key : String) (s : Store) : Bool × Store :=
  let s := (s.isHash now key).2
  let string := s.persistString now key
  let hash := string.2.hashSetKeyExpiry now key none
  (string.1 || hash.1, hash.2)

/-- `GETEX`: read a string key and change its expiry. -/
def getex (now : Instant) (key : String) (expiry : GetExpiry) (s : Store) :
    Option Bytes × Store :=
  let value := s.get now key
  match value.1 with
  | none => (none, value.2)
  | some found =>
    let s := value.2
    (some found, match expiry with
      | .after ttl => (s.expireLocal now key ttl).2
      | .persist => (s.persistString now key).2
      | .delete => (s.removeLocal now key).2)

/-- Replace the value of an existing entry in place, as `INCR` and `APPEND` do:
the expiry stays. -/
def rewriteEntry (now : Instant) (key : String) (e : Entry) (value : Bytes) (s : Store) :
    Store :=
  let encoded := encodeValue s.config value
  let new : Entry :=
    { e with
      data := encoded.1
      compressed := encoded.2
      memSize := Entry.estimateSize (keyLen key) encoded.1.length
      lastAccessed := touchClock e.lastAccessed (s.nowNanos now) }
  let s := { s with data := s.data.insert key new }
  let s :=
    if e.memSize < new.memSize then s.memAdd (new.memSize - e.memSize)
    else s.memSub (e.memSize - new.memSize)
  s.notifyWrite key

/-- The update path of `incr_by_with_ttl` on the live entry `e`. -/
def incrUpdate (now : Instant) (key : String) (delta : ℤ) (e : Entry) (s : Store) :
    Except String ℤ × Store :=
  match e.plain s.config.compression.algo with
  | none => (.error failedToDecompress, s)
  | some data =>
    match parseI64 data with
    | none => (.error notInteger, s)
    | some current =>
      match checkedAddI64 current delta with
      | none => (.error incrOverflow, s)
      | some next => (.ok next, s.rewriteEntry now key e (formatI64 next))

/-- The create path of `incr_by_with_ttl`. -/
def incrCreate (now : Instant) (key : String) (delta : ℤ) (ttl : Option Duration)
    (s : Store) : Except String ℤ × Store :=
  (.ok delta, s.createEntry key
    (Entry.new (formatI64 delta) (keyLen key) false (ttl.map (now + ·)) (s.nowNanos now)))

/-- `INCRBY`: an integer in decimal text; `ttl` applies only to a key this call
creates. -/
def incrByWithTtl (now : Instant) (key : String) (delta : ℤ) (ttl : Option Duration)
    (s : Store) : Except String ℤ × Store :=
  let needsCreate := (s.data.get key).all (·.isExpired now)
  let createSize := Entry.estimateSize (keyLen key) (formatI64 delta).length
  let index := if ttl.isSome then ttlIndexCost key else 0
  let reserved : Bool × Store :=
    if needsCreate then s.reserve now (createSize + index) else (true, s)
  if reserved.1 then
    match reserved.2.data.get key with
    | none => reserved.2.incrCreate now key delta ttl
    | some e =>
      if e.isExpired now then reserved.2.incrCreate now key delta ttl
      else reserved.2.incrUpdate now key delta e
  else (.error oomError, reserved.2)

/-- The create path of `append_inner`. -/
def appendCreate (now : Instant) (key : String) (value : Bytes) (s : Store) :
    Option ℕ × Store :=
  let written := s.setLocal now key value none
  (if written.1 then some value.length else none, written.2)

/-- `APPEND`: the new length, or `none` when the budget refused the write. -/
def append (now : Instant) (key : String) (value : Bytes) (s : Store) : Option ℕ × Store :=
  let live := (s.data.get key).any (!·.isExpired now)
  let reserved : Bool × Store := if live then s.reserve now value.length else (true, s)
  if reserved.1 then
    match reserved.2.data.get key with
    | none => reserved.2.appendCreate now key value
    | some e =>
      if e.isExpired now then (reserved.2.removeLocal now key).2.appendCreate now key value
      else
        let s := reserved.2
        -- A payload that cannot be decoded is appended to as it is.
        let data := (e.plain s.config.compression.algo).getD e.data
        (some (data ++ value).length, s.rewriteEntry now key e (data ++ value))
  else (none, reserved.2)

omit P in
/-- `FLUSHALL`: every slot that is watched is bumped and stays. -/
def flush (s : Store) : Store :=
  { s with
    data := s.data.filter fun _ _ => false
    hashes := s.hashes.filter fun _ _ => false
    hashTtlKeys := s.hashTtlKeys.filter fun _ _ => false
    ttlKeys := s.ttlKeys.filter fun _ _ => false
    memUsed := 0
    watchers := if s.watchSlots = 0 then s.watchers else s.watchers.map fun _ v => bump v }

/-! ## Snapshot restore -/

omit P in
/-- The replace of `restore_hash`: map, counter, index, waiters. -/
def storeHash (key : String) (entry : HashEntry) (s : Store) : Store :=
  let previous := s.hashes.get key
  let s := { s with hashes := s.hashes.insert key entry }.memAdd entry.mem
  let s := match previous with
    | some old => s.memSub old.mem
    | none => s
  (s.hashIndexSet key entry.earliestDeadline).notifyWrite key

/-- Put a hash back as a snapshot recorded it, replacing any hash at `key`. -/
def restoreHash (now : Instant) (key : String) (fields : List (String × HashField))
    (expiresAt : Option Instant) (s : Store) : Bool × Store :=
  match HashEntry.fromParts key fields expiresAt now (s.nowNanos now) with
  | none => (false, s)
  | some entry =>
    let oldSize := (s.hashes.get key).elim 0 (·.mem)
    let reserved := s.reserve now (entry.mem - oldSize)
    if reserved.1 then (true, reserved.2.storeHash key entry) else (false, reserved.2)

/-- `LoadClock::deadline` on what is left of a record's lifetime; `none` when it
has expired. -/
def loadDeadline (now : Instant) (remaining : Option Duration) : Option (Option Instant) :=
  if remaining = some 0 then none else some (remaining.map (now + ·))

/-- The string branch of `apply_block`: a record of a snapshot taken under
`valueAlgo`.  A value compressed by another algorithm than the store's is decoded
and written anew. -/
def restoreRecord (now : Instant) (valueAlgo : CompressionAlgo) (key : String)
    (data : Bytes) (compressed : Bool) (remaining : Option Duration) (s : Store) :
    Bool × Store :=
  match loadDeadline now remaining with
  | none => (false, s)
  | some expiresAt =>
    if compressed && decide (valueAlgo ≠ s.config.compression.algo) then
      match decompressValue data valueAlgo with
      | some raw => s.setLocal now key raw (expiresAt.map (· - now))
      | none => (false, s)
    else s.restoreString now key data compressed expiresAt

/-! ## Commands -/

omit P in
/-- `DEL`: how many of the names were removed. -/
def del (now : Instant) : List String → Store → ℕ × Store
  | [], s => (0, s)
  | key :: rest, s =>
    let removed := s.removeLocal now key
    let others := del now rest removed.2
    ((if removed.1 then 1 else 0) + others.1, others.2)

omit P in
/-- `type`. -/
def type (now : Instant) (key : String) (s : Store) : KeyType × Store :=
  let hash := s.isHash now key
  if hash.1 then (.hash, hash.2)
  else
    let any := hash.2.existsKey now key
    (if any.1 then .string else .none, any.2)

/-- What `RENAME` answers. -/
inductive RenameReply where
  | ok
  | noSuchKey
  | outOfMemory
deriving DecidableEq, Repr

omit P in
/-- The TTL `RENAME` gives the new name: what `PTTL` reports, if it is positive. -/
def renameTtl (left : Option ℤ) : Option Duration :=
  left.bind fun ms => if 0 < ms then some (ms.toNat * 1000000) else none

/-- `RENAME`: copy the value with its remaining whole milliseconds, then remove
the old name. -/
def rename (now : Instant) (oldKey newKey : String) (s : Store) : RenameReply × Store :=
  let value := s.get now oldKey
  match value.1 with
  | none => (.noSuchKey, value.2)
  | some found =>
    let left := value.2.pttl now oldKey
    let written := left.2.setLocal now newKey found (renameTtl left.1)
    if written.1 then (.ok, (written.2.removeLocal now oldKey).2)
    else (.outOfMemory, written.2)

/-! ## What the cluster reads

A string with what is left of its lifetime, the state of a field of a hash, and a walk over the
strings of a certain length.  None of these changes the store, not even by reaping. -/

omit P in
/-- What is left of a lifetime, or `none` if nothing is. -/
def remaining (now : Instant) (expiresAt : Option Instant) : Option (Option Duration) :=
  match expiresAt with
  | none => some none
  | some deadline => if deadline - now = 0 then none else some (some (deadline - now))

/-- `get_with_ttl`. -/
def getWithTtl (now : Instant) (key : String) (s : Store) : Option (Bytes × Option Duration) :=
  (s.data.get key).bind fun e =>
    (remaining now e.expiresAt).bind fun ttl =>
      (e.plain s.config.compression.algo).map fun value => (value, ttl)

omit P in
/-- `hash_field_state`. -/
def hashFieldState (now : Instant) (key field : String) (s : Store) : HashFieldState :=
  match s.hashes.get key with
  | none => ⟨none, none, none⟩
  | some h =>
    if h.keyExpired now then ⟨none, none, none⟩
    else
      match h.live field now with
      | some f => ⟨some f.value, f.expiresAt.map (· - now), h.expiresAt.map (· - now)⟩
      | none => ⟨none, none, h.expiresAt.map (· - now)⟩

/-- `scan_strings_decoded`: the live strings whose value has at least `minLen` bytes. -/
def scanStringsDecoded (now : Instant) (minLen : ℕ) (s : Store) : List String :=
  s.data.entries.filterMap fun entry =>
    (remaining now entry.2.expiresAt).bind fun _ =>
      (entry.2.plain s.config.compression.algo).bind fun value =>
        if value.length < minLen then none else some entry.1

end Store

end Ephpm.Kv
