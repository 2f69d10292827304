import Ephpm.Kv.Store

/-!
# Making room

Active expiry, eviction and `ensure_memory` (`store/mod.rs`): everything a store
removes on its own account.

A round of active expiry examines the next twenty hints of each expiry index from
the cursor it saved and reaps what is due.  `ensure_memory` reclaims expired keys
first and then evicts by the configured policy until the write fits.  The
eviction pool of the two LRU policies outlives the call: a candidate sampled for
one write may be taken for a later one.

**Clock and budget.**  The loops with a time budget take the number of further
rounds the clock will grant from `budgets`; they always make at least one.  The
eviction loop has no clock.  It removes an entry or counts a miss in every turn,
so `evictFuel` turns are enough for it to end by itself.
-/

namespace Ephpm.Kv

open Lib

/-- TTL hints examined per active-expiry round. -/
def expireSampleKeys : ℕ := 20

/-- A cycle keeps going while more than this percentage of a round was
expired. -/
def expireAcceptableStalePercent : ℕ := 10

/-- Floor on the bytes one write may evict before it concludes that others take
the room as fast as it is freed. -/
def evictionMinRetryBytes : ℕ := 64 * 1024

/-- Consecutive vanished candidates after which the write is refused. -/
def evictionMaxMisses : ℕ := 1024

/-- String keys sampled per LRU eviction step. -/
def evictionSamples : ℕ := 16

/-- Hashes sampled per `allkeys-lru` eviction step. -/
def evictionHashSamples : ℕ := 4

/-- Best candidates the LRU eviction pool keeps across steps. -/
def evictionPoolSize : ℕ := 16

/-- A shard's table is only shrunk once it has at least this many slots. -/
def shrinkMinCapacity : ℕ := 64

/-- And holds fewer than one entry per this many slots. -/
def shrinkSparseness : ℕ := 4

/-- What one active-expiry round saw. -/
structure SampleRound where
  sampled : ℕ
  expired : ℕ
deriving DecidableEq, Repr

/-- Whether another round is likely to pay. -/
def SampleRound.worthContinuing (r : SampleRound) : Bool :=
  0 < r.sampled ∧ r.sampled * expireAcceptableStalePercent < r.expired * 100

namespace Store

/-! ## Active expiry -/

/-- Reap each of a list of observed deadlines. -/
def reapAll : List (String × Instant) → Store → Store
  | [], s => s
  | (key, deadline) :: rest, s => reapAll rest (s.reapIfExpired key deadline).2

/-- Reap each of a list of hashes; how many lost something. -/
def reapHashes (now : Instant) : List String → Store → ℕ × Store
  | [], s => (0, s)
  | key :: rest, s =>
    let reaped := s.reapHash now key
    let others := reapHashes now rest reaped.2
    ((if reaped.1 then 1 else 0) + others.1, others.2)

/-- The hash half of a round. -/
def hashExpireRound (now : Instant) (s : Store) : SampleRound × Store :=
  if s.hashTtlKeys.entries.isEmpty then (⟨0, 0⟩, s)
  else
    let scan := scanMap s.hashTtlKeys (MapCursor.unpack s.hashExpireCursor) expireSampleKeys
    let due := (scan.1.filter fun hint => hint.2 ≤ now).map Prod.fst
    let reaped := reapHashes now due { s with hashExpireCursor := scan.2.pack }
    (⟨scan.1.length, reaped.1⟩, reaped.2)

/-- Examine the next hints from the expiry cursors and reap every expired
one. -/
def expireRound (now : Instant) (s : Store) : SampleRound × Store :=
  let scan := scanMap s.ttlKeys (MapCursor.unpack s.expireCursor) expireSampleKeys
  let expired := scan.1.filter fun hint => hint.2 ≤ now
  let s := reapAll expired { s with expireCursor := scan.2.pack }
  let hashes := hashExpireRound now s
  (⟨scan.1.length + hashes.1.sampled, expired.length + hashes.1.expired⟩, hashes.2)

/-- How many further rounds the clock grants the loop that asks. -/
def takeBudget (s : Store) : ℕ × Store :=
  (s.budgets 0, { s with budgets := fun n => s.budgets (n + 1) })

/-- Rounds while they pay and the clock allows; what was reaped. -/
def expireRounds (now : Instant) : ℕ → Store → ℕ × Store
  | 0, s =>
    let round := s.expireRound now
    (round.1.expired, round.2)
  | rounds + 1, s =>
    let round := s.expireRound now
    if round.1.worthContinuing then
      let rest := expireRounds now rounds round.2
      (round.1.expired + rest.1, rest.2)
    else (round.1.expired, round.2)

/-- `active_expire_rounds`: as long as a round finds many that have expired. -/
def activeExpireRounds (now : Instant) (s : Store) : ℕ × Store :=
  let budget := s.takeBudget
  expireRounds now budget.1 budget.2

/-- Whether a table is mostly empty. -/
def sparse (capacity len : ℕ) : Bool :=
  shrinkMinCapacity ≤ capacity ∧ len * shrinkSparseness < capacity

/-- `shrink_sparse_tables`. -/
def shrinkSparseTables (s : Store) : Store :=
  { s with
    data := s.data.shrinkWhere sparse
    ttlKeys := s.ttlKeys.shrinkWhere sparse
    hashes := s.hashes.shrinkWhere sparse
    hashTtlKeys := s.hashTtlKeys.shrinkWhere sparse }

/-- `active_expire_cycle`: adaptive rounds, then the tables give memory back. -/
def activeExpireCycle (now : Instant) (s : Store) : ℕ × Store :=
  let reaped := s.activeExpireRounds now
  (reaped.1, reaped.2.shrinkSparseTables)

/-- Rounds until `needed` more bytes fit, a round no longer pays or the clock
ends them. -/
def reclaimRounds (now : Instant) (needed : ℕ) : ℕ → Store → Store
  | 0, s => (s.expireRound now).2
  | rounds + 1, s =>
    let round := s.expireRound now
    if round.2.fits needed ∨ ¬ round.1.worthContinuing then round.2
    else reclaimRounds now needed rounds round.2

/-- `reclaim_expired_for`: what has expired goes first. -/
def reclaimExpiredFor (now : Instant) (needed : ℕ) (s : Store) : Store :=
  let budget := s.takeBudget
  reclaimRounds now needed budget.1 budget.2

/-! ## Eviction -/

/-- Next value of the splitmix64 generator. -/
def nextRand (s : Store) : UInt64 × Store :=
  let z := s.rng
  let z := (z ^^^ (z >>> 30)) * 0xBF58476D1CE4E5B9
  let z := (z ^^^ (z >>> 27)) * 0x94D049BB133111EB
  (z ^^^ (z >>> 31), { s with rng := s.rng + 0x9E3779B97F4A7C15 })

/-- A random position in a map's bucket space. -/
def randomCursor (s : Store) : MapCursor × Store :=
  let r := s.nextRand
  (⟨(r.1 >>> 48).toNat, r.1.toNat⟩, r.2)

/-- `allkeys-random`: the string at a random position, or a hash once no string
is left. -/
def randomVictim (s : Store) : Option Victim × Store :=
  let position := s.randomCursor
  let s := position.2
  match (scanMap s.data position.1 1).1.head? with
  | some (key, _) => (some ⟨key, false, 0⟩, s)
  | none =>
    let position := s.randomCursor
    let s := position.2
    match (scanMap s.hashes position.1 1).1.head? with
    | some (key, _) => (some ⟨key, true, 0⟩, s)
    | none => (none, s)

/-- `u64::saturating_add` of one. -/
def rankOf (lastAccessed : ℕ) : ℕ := min (lastAccessed + 1) u64Max

/-- The candidates a `volatile-lru` step samples, all from the TTL index. -/
def sampleVolatile (now : Instant) (s : Store) : List Victim × Store :=
  let position := s.randomCursor
  let s := position.2
  let picked := (scanMap s.ttlKeys position.1 evictionSamples).1
  (picked.filterMap fun hint =>
    if hint.2 ≤ now then some ⟨hint.1, false, 0⟩
    else (s.data.get hint.1).map fun e => ⟨hint.1, false, rankOf e.lastAccessed⟩, s)

/-- The candidates an `allkeys-lru` step samples, strings and hashes. -/
def sampleAll (now : Instant) (s : Store) : List Victim × Store :=
  let position := s.randomCursor
  let s := position.2
  let strings := (scanMap s.data position.1 evictionSamples).1.map fun entry =>
    (⟨entry.1, false, if entry.2.isExpired now then 0 else rankOf entry.2.lastAccessed⟩ : Victim)
  let position := s.randomCursor
  let s := position.2
  let hashes := (scanMap s.hashes position.1 evictionHashSamples).1.map fun entry =>
    (⟨entry.1, true, rankOf entry.2.lastAccessed⟩ : Victim)
  (strings ++ hashes, s)

/-- Merge a sampled candidate into the pool: one that is already there has its
rank refreshed, a new one goes to the end. -/
def mergeVictim : List Victim → Victim → List Victim
  | [], victim => [victim]
  | p :: rest, victim =>
    if p.key = victim.key ∧ p.hash = victim.hash then
      { p with idleRank := victim.idleRank } :: rest
    else p :: mergeVictim rest victim

variable [P : Platform]

/-- The pool after a sample: merged, sorted by rank and cut to its size. -/
def refreshPool (pool fresh : List Victim) : List Victim :=
  (P.sortByRank (fresh.foldl mergeVictim pool)).take evictionPoolSize

/-- The LRU victim through the eviction pool. -/
def lruVictim (now : Instant) (volatileOnly : Bool) (s : Store) : Option Victim × Store :=
  let sample := if volatileOnly then s.sampleVolatile now else s.sampleAll now
  match refreshPool sample.2.evictionPool sample.1 with
  | [] => (none, { sample.2 with evictionPool := [] })
  | victim :: rest => (some victim, { sample.2 with evictionPool := rest })

/-- Pick the next eviction victim for the configured policy. -/
def nextVictim (now : Instant) (s : Store) : Option Victim × Store :=
  match s.config.evictionPolicy with
  | .noEviction => (none, s)
  | .allKeysRandom => s.randomVictim
  | .allKeysLru => s.lruVictim now false
  | .volatileLru => s.lruVictim now true

omit P in
/-- Remove an eviction victim from the map it came from.  Returns the bytes its
entry was charged, or `none` if it was already gone. -/
def evictVictim (victim : Victim) (s : Store) : Option ℕ × Store :=
  if victim.hash then
    match s.hashes.get victim.key with
    | none => (none, s)
    | some old =>
      let s := { s with events := .evictedHash victim.key :: s.events }
      let s := { s with hashes := s.hashes.erase victim.key }.memSub old.mem
      (some old.mem, (s.hashIndexDrop victim.key).notifyWrite victim.key)
  else
    match s.data.get victim.key with
    | none => (none, s)
    | some old =>
      let s := { s with events := .evictedString victim.key old.expiresAt :: s.events }
      (some old.memSize, (s.dropEntry victim.key old).notifyWrite victim.key)

/-- The eviction loop: `freed` bytes so far, `misses` candidates in a row that
were already gone. -/
def evictLoop (now : Instant) (needed giveUpAfter : ℕ) : ℕ → ℕ → ℕ → Store → Bool × Store
  | 0, _, _, s => (s.fits needed, s)
  | fuel + 1, freed, misses, s =>
    if s.fits needed then (true, s)
    else if giveUpAfter ≤ freed ∨ evictionMaxMisses ≤ misses then (false, s)
    else
      let picked := s.nextVictim now
      match picked.1 with
      | none => (false, picked.2)
      | some victim =>
        let evicted := picked.2.evictVictim victim
        match evicted.1 with
        | some bytes => evictLoop now needed giveUpAfter fuel (freed + bytes) 0 evicted.2
        | none => evictLoop now needed giveUpAfter fuel freed (misses + 1) evicted.2

omit P in
/-- Turns after which the eviction loop has ended by itself: each one removes an
entry or adds to a run of misses. -/
def evictFuel (s : Store) : ℕ := (s.data.len + s.hashes.len + 1) * (evictionMaxMisses + 1)

/-- Evict keys until `needed` more bytes fit. -/
def evict (now : Instant) (needed : ℕ) (s : Store) : Bool × Store :=
  let limit := s.config.memoryLimit
  if limit < needed then (false, s)
  else
    let shortfall := s.memUsed + needed - limit
    let giveUpAfter := max (shortfall + needed) evictionMinRetryBytes
    evictLoop now needed giveUpAfter s.evictFuel 0 0 s

/-- Ensure there is room for `needed` bytes: expired keys first, then eviction. -/
def ensureMemory (now : Instant) (needed : ℕ) (s : Store) : Bool × Store :=
  if s.fits needed then (true, s)
  else
    let s := s.reclaimExpiredFor now needed
    if s.fits needed then (true, s)
    else
      match s.config.evictionPolicy with
      | .noEviction => (false, s)
      | _ => s.evict now needed

/-- Reserve `needed` more bytes for a write. -/
def reserve (now : Instant) (needed : ℕ) (s : Store) : Bool × Store := s.ensureMemory now needed

end Store

end Ephpm.Kv
