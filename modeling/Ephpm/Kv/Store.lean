import Ephpm.Kv.HashEntry
import Ephpm.Lib.BucketScan

/-!
# The store and its bookkeeping

The state of a store (`store/mod.rs`) and the helpers every operation is built
from: the byte counter, the two expiry indexes, the watch registry and the
bucket walk.  The operations themselves are in the modules that import this one.

**What a store is.**  Strings and hashes live in two maps and a name may be in
both.  Beside them stand two expiry indexes, the counter `memUsed`, the sampling
state of active expiry and eviction, and a registry of watched keys.  The model
is the standalone store: no replicator is installed, so `set` is `set_local` and
so on.

**What is chosen outside.**  How the maps lay out their buckets, how many rounds
the clock grants a loop with a time budget, and where the sampling generator
starts are parts of the state that nothing constrains.  A statement about every
store is therefore a statement about all of those choices.

**The history.**  `events` is a ghost: a log, newest first, of the evictions and
of every subtraction that would have taken `memUsed` below zero.  Operations
append to it and never read it.
-/

namespace Ephpm.Kv

open Lib

/-! ## Walking a map -/

/-- A position in a map's bucket space. -/
structure MapCursor where
  shard : ℕ
  bucket : ℕ
deriving DecidableEq, Repr

namespace MapCursor

/-- Pack into one `u64`, the shard in the top 16 bits.  The two parts occupy
different bits, so their disjunction is a sum. -/
def pack (c : MapCursor) : ℕ := c.shard * 2 ^ 48 % 2 ^ 64 + c.bucket % 2 ^ 48

/-- The inverse of `pack`. -/
def unpack (v : ℕ) : MapCursor := ⟨v / 2 ^ 48, v % 2 ^ 48⟩

end MapCursor

/-- Buckets of each shard of a map. -/
def tableLens {V : Type} (map : BucketMap String V) : List ℕ := map.shards.map List.length

/-- What the bucket at a position holds. -/
def slotAt {V : Type} (map : BucketMap String V) (pos : ℕ × ℕ) : Option (String × V) :=
  (map.shards.getD pos.1 [])[pos.2]?.join

/-- The positions pass `pass` of a scan examines: the first shard from `start`,
every other shard whole, the first shard again up to `start`.  A shard without
entries is skipped. -/
def scanPass {V : Type} (map : BucketMap String V) (first start pass : ℕ) : List (ℕ × ℕ) :=
  let shardCount := map.shards.length
  let shard := (first + pass) % shardCount
  let table := map.shards.getD shard []
  if table.entries.isEmpty then []
  else
    let buckets := table.length
    let lo := if pass = 0 then start % buckets else 0
    let hi := if pass = shardCount then min (start % buckets) buckets else buckets
    (List.range' lo (hi - lo)).map (Prod.mk shard)

/-- `scan_map`: visit up to `want` entries in bucket order from `cursor`.  Returns
the entries visited and the position just past the last one. -/
def scanMap {V : Type} (map : BucketMap String V) (cursor : MapCursor) (want : ℕ) :
    List (String × V) × MapCursor :=
  let shardCount := map.shards.length
  if shardCount = 0 ∨ want = 0 then ([], cursor)
  else
    let first := cursor.shard % shardCount
    let start := cursor.bucket
    let places := (List.range (shardCount + 1)).flatMap (scanPass map first start)
    match walk (slotAt map) places want with
    | (visited, some stop) =>
      let next := following (tableLens map) stop
      (visited, ⟨next.1, next.2⟩)
    -- The whole map was walked.
    | (visited, none) => (visited, ⟨first, start⟩)

/-- What a bucket holds is an entry of the map. -/
theorem get_of_slotAt {V : Type} {map : BucketMap String V} {pos : ℕ × ℕ} {entry : String × V}
    (h : slotAt map pos = some entry) : map.get entry.1 = some entry.2 := by
  rw [slotAt, Option.join_eq_some_iff] at h
  have mem : some entry ∈ map.shards.getD pos.1 [] := List.mem_of_getElem? h
  rw [List.getD_eq_getElem?_getD] at mem
  cases hshard : map.shards[pos.1]? with
  | none =>
    rw [hshard] at mem
    cases mem
  | some table =>
    rw [hshard] at mem
    exact BucketMap.get_eq_some_iff.mpr (List.reduceOption_mem_iff.mpr
      (List.mem_flatten.mpr ⟨table, List.mem_of_getElem? hshard, mem⟩))

/-- **A scan visits entries of the map.** -/
theorem get_of_mem_scanMap {V : Type} {map : BucketMap String V} {cursor : MapCursor} {want : ℕ}
    {entry : String × V} (mem : entry ∈ (scanMap map cursor want).1) :
    map.get entry.1 = some entry.2 := by
  unfold scanMap at mem
  simp only at mem
  split at mem
  · cases mem
  · have hwalked : entry ∈ (walk (slotAt map) ((List.range (map.shards.length + 1)).flatMap
        (scanPass map (cursor.shard % map.shards.length) cursor.bucket)) want).1 := by
      split at mem
      next visited stop heq => rwa [heq]
      next visited heq => rwa [heq]
    obtain ⟨pos, -, hslot⟩ := mem_of_mem_walk hwalked
    exact get_of_slotAt hslot

/-- `collect_keys` without a pattern: the live keys, shard by shard. -/
def collectKeys {V : Type} (map : BucketMap String V) (isLive : V → Bool) : List String :=
  (map.entries.filter fun entry => isLive entry.2).map Prod.fst

/-! ## The state -/

/-- What the history records. -/
inductive Event where
  /-- A subtraction from `memUsed` saturated at zero. -/
  | clamped
  /-- A string was evicted; its entry expired then. -/
  | evictedString (key : String) (expiresAt : Option Instant)
  /-- A hash was evicted. -/
  | evictedHash (key : String)
deriving DecidableEq, Repr

/-- The state of a standalone store. -/
structure Store where
  data : BucketMap String Entry
  hashes : BucketMap String HashEntry
  hashTtlKeys : BucketMap String Instant
  hashExpireCursor : ℕ
  ttlKeys : BucketMap String Instant
  expireCursor : ℕ
  rng : UInt64
  evictionPool : List Victim
  memUsed : ℕ
  config : StoreConfig
  anchor : Instant
  /-- The version of each watched key. -/
  watchers : BucketMap String ℕ
  watchSlots : ℕ
  /-- How many further rounds the clock grants each budgeted loop to come. -/
  budgets : ℕ → ℕ
  /-- Ghost: the history, newest first. -/
  events : List Event

namespace Store

/-- A store before its first operation. -/
def IsNew (s : Store) : Prop :=
  s.data.entries = [] ∧ s.hashes.entries = [] ∧ s.hashTtlKeys.entries = [] ∧
    s.ttlKeys.entries = [] ∧ s.watchers.entries = [] ∧ s.hashExpireCursor = 0 ∧
    s.expireCursor = 0 ∧ s.evictionPool = [] ∧ s.memUsed = 0 ∧ s.watchSlots = 0 ∧
    s.events = []

/-- `Store::new`, laid out in the simplest way: one shard per map, a bucket of its
own for each entry, and no time for further rounds in the loops to come. -/
def new (config : StoreConfig) : Store where
  data := BucketMap.empty 0 (fun _ => 0) fun _ => Placement.append
  hashes := BucketMap.empty 0 (fun _ => 0) fun _ => Placement.append
  hashTtlKeys := BucketMap.empty 0 (fun _ => 0) fun _ => Placement.append
  hashExpireCursor := 0
  ttlKeys := BucketMap.empty 0 (fun _ => 0) fun _ => Placement.append
  expireCursor := 0
  rng := 0
  evictionPool := []
  memUsed := 0
  config := config
  anchor := 0
  watchers := BucketMap.empty 0 (fun _ => 0) fun _ => Placement.append
  watchSlots := 0
  budgets := fun _ => 0
  events := []

theorem new_isNew (config : StoreConfig) : (new config).IsNew := by
  simp [IsNew, new]

/-- Current time as nanoseconds since the store anchor. -/
def nowNanos (s : Store) (now : Instant) : ℕ := min (now - s.anchor) u64Max

/-! ## The byte counter -/

/-- `mem_add`. -/
def memAdd (n : ℕ) (s : Store) : Store := { s with memUsed := s.memUsed + n }

/-- `mem_sub`, which saturates; the history records when it does. -/
def memSub (n : ℕ) (s : Store) : Store :=
  { s with
    memUsed := s.memUsed - n
    events := if n ≤ s.memUsed then s.events else .clamped :: s.events }

/-- Whether `needed` more bytes fit under the memory limit. -/
def fits (needed : ℕ) (s : Store) : Bool :=
  s.config.memoryLimit = 0 ∨ s.memUsed + needed ≤ s.config.memoryLimit

/-! ## Watches -/

/-- `WatchSlot::bump`: versions are `u64` and saturate. -/
def bump (version : ℕ) : ℕ := min (version + 1) u64Max

/-- Bump the watch version of `key` if it is being watched. -/
def notifyWrite (key : String) (s : Store) : Store :=
  if s.watchSlots = 0 then s
  else
    match s.watchers.get key with
    | none => s
    | some version => { s with watchers := s.watchers.insert key (bump version) }

/-- Waking waiters changes the versions only. -/
theorem notifyWrite_eq (key : String) (s : Store) :
    s.notifyWrite key = { s with watchers := (s.notifyWrite key).watchers } := by
  unfold notifyWrite
  split
  · rfl
  · split <;> rfl

section

variable (key : String) (s : Store)

@[simp] theorem notifyWrite_data : (s.notifyWrite key).data = s.data := by
  rw [notifyWrite_eq]

@[simp] theorem notifyWrite_hashes : (s.notifyWrite key).hashes = s.hashes := by
  rw [notifyWrite_eq]

@[simp] theorem notifyWrite_ttlKeys : (s.notifyWrite key).ttlKeys = s.ttlKeys := by
  rw [notifyWrite_eq]

@[simp] theorem notifyWrite_hashTtlKeys :
    (s.notifyWrite key).hashTtlKeys = s.hashTtlKeys := by
  rw [notifyWrite_eq]

@[simp] theorem notifyWrite_memUsed : (s.notifyWrite key).memUsed = s.memUsed := by
  rw [notifyWrite_eq]

@[simp] theorem notifyWrite_config : (s.notifyWrite key).config = s.config := by
  rw [notifyWrite_eq]

@[simp] theorem notifyWrite_anchor : (s.notifyWrite key).anchor = s.anchor := by
  rw [notifyWrite_eq]

@[simp] theorem notifyWrite_events : (s.notifyWrite key).events = s.events := by
  rw [notifyWrite_eq]

end

/-- Get or create the watch slot of `key`. -/
def watchSlot (key : String) (s : Store) : ℕ × Store :=
  match s.watchers.get key with
  | some version => (version, s)
  | none =>
    (1, { s with watchSlots := s.watchSlots + 1, watchers := s.watchers.insert key 1 })

/-! ## The expiry index of strings -/

/-- Per-hint overhead of the TTL index beyond the key bytes. -/
def ttlIndexSlotOverhead : ℕ := 56

/-- Bytes charged for one TTL-index hint on `key`. -/
def ttlIndexCost (key : String) : ℕ := keyLen key + ttlIndexSlotOverhead

/-- Record `key`'s expiry in the TTL index, or drop its hint. -/
def ttlIndexPut (key : String) (deadline : Option Instant) (s : Store) : Store :=
  match deadline with
  | some deadline =>
    match s.ttlKeys.get key with
    | some _ => { s with ttlKeys := s.ttlKeys.insert key deadline }
    | none => { s with ttlKeys := s.ttlKeys.insert key deadline }.memAdd (ttlIndexCost key)
  | none =>
    match s.ttlKeys.get key with
    | some _ => { s with ttlKeys := s.ttlKeys.erase key }.memSub (ttlIndexCost key)
    | none => s

/-- Drop `key`'s TTL hint if it still records `deadline`. -/
def ttlIndexDrop (key : String) (deadline : Option Instant) (s : Store) : Store :=
  match deadline with
  | none => s
  | some deadline =>
    if s.ttlKeys.get key = some deadline then
      { s with ttlKeys := s.ttlKeys.erase key }.memSub (ttlIndexCost key)
    else s

/-! ## The expiry index of hashes -/

/-- Record that `key`'s hash has something expiring at `deadline`, keeping the
earlier of an existing hint. -/
def hashIndexNote (key : String) (deadline : Instant) (s : Store) : Store :=
  match s.hashTtlKeys.get key with
  | some hint =>
    if deadline < hint then { s with hashTtlKeys := s.hashTtlKeys.insert key deadline } else s
  | none =>
    { s with hashTtlKeys := s.hashTtlKeys.insert key deadline }.memAdd (ttlIndexCost key)

/-- Drop `key`'s hint. -/
def hashIndexDrop (key : String) (s : Store) : Store :=
  match s.hashTtlKeys.get key with
  | some _ => { s with hashTtlKeys := s.hashTtlKeys.erase key }.memSub (ttlIndexCost key)
  | none => s

/-- Replace `key`'s hint with exactly `deadline`, or drop it. -/
def hashIndexSet (key : String) (deadline : Option Instant) (s : Store) : Store :=
  match deadline with
  | none => s.hashIndexDrop key
  | some deadline =>
    match s.hashTtlKeys.get key with
    | some _ => { s with hashTtlKeys := s.hashTtlKeys.insert key deadline }
    | none =>
      { s with hashTtlKeys := s.hashTtlKeys.insert key deadline }.memAdd (ttlIndexCost key)

/-! ## Removing and reaping -/

/-- Take a string out of the map, the counter and the index: what the source
does wherever it has just removed the entry `old`. -/
def dropEntry (key : String) (old : Entry) (s : Store) : Store :=
  ({ s with data := s.data.erase key }.memSub old.memSize).ttlIndexDrop key old.expiresAt

/-- Remove `key`'s hash entirely.  Returns whether a live hash was removed. -/
def hashRemove (now : Instant) (key : String) (s : Store) : Bool × Store :=
  match s.hashes.get key with
  | none => (false, s)
  | some old =>
    (old.isLive now,
      ({ s with hashes := s.hashes.erase key }.memSub old.mem).hashIndexDrop key)

/-- Remove a name from both maps. -/
def removeLocal (now : Instant) (key : String) (s : Store) : Bool × Store :=
  let string : Bool × Store := match s.data.get key with
    | some old => (true, s.dropEntry key old)
    | none => (false, s)
  let hash := hashRemove now key string.2
  let removed := string.1 || hash.1
  (removed, if removed then hash.2.notifyWrite key else hash.2)

/-- Remove the string `key`, leaving a hash of the same name alone. -/
def removeStringLocal (key : String) (s : Store) : Bool × Store :=
  match s.data.get key with
  | none => (false, s)
  | some old => (true, (s.dropEntry key old).notifyWrite key)

/-- Compare-and-remove an entry observed to expire at `observed`.  The hint is
dropped whether or not the entry was still there. -/
def reapIfExpired (key : String) (observed : Instant) (s : Store) : Bool × Store :=
  match s.data.get key with
  | some old =>
    if old.expiresAt = some observed then
      let s := { s with data := s.data.erase key }.ttlIndexDrop key (some observed)
      (true, (s.memSub old.memSize).notifyWrite key)
    else (false, s.ttlIndexDrop key (some observed))
  | none => (false, s.ttlIndexDrop key (some observed))

/-- Remove `key`'s hash if it holds no fields. -/
def dropEmptyHash (key : String) (s : Store) : Store :=
  match s.hashes.get key with
  | none => s
  | some old =>
    if old.fields.entries.isEmpty then
      ({ s with hashes := s.hashes.erase key }.memSub old.mem).hashIndexDrop key
    else s

/-- Reap whatever has expired in `key`'s hash.  Returns whether something was
removed. -/
def reapHash (now : Instant) (key : String) (s : Store) : Bool × Store :=
  match s.hashes.get key with
  | none => (false, s.hashIndexDrop key)
  | some h =>
    let purged := h.purgeExpiredFields now
    let removedAny := h.keyExpired now || decide (0 < purged.1)
    -- A key-expired hash is left as it is here and removed whole below.
    let after := if h.keyExpired now then h else purged.2
    let whole := h.keyExpired now || after.fields.entries.isEmpty
    let s := { s with hashes := s.hashes.insert key after }.memSub (h.mem - after.mem)
    let s :=
      if whole then ({ s with hashes := s.hashes.erase key }.memSub after.mem).hashIndexDrop key
      else s.hashIndexSet key after.earliestDeadline
    (removedAny, if removedAny then s.notifyWrite key else s)

end Store

end Ephpm.Kv
