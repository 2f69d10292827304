import Ephpm.Cluster.GossipWire

/-!
# The hot-key cache and its invalidation

A node that keeps fetching the same large value from its peers puts a copy into a cache of its
own.  The copy is good for `hot_key_local_ttl_secs`; a peer that overwrites the key is to end it
earlier, by publishing a version number for the key's hash that the node watches for.

**Three places have to agree**: the key and text a bump is published under
(`maybeBumpHotVersion`), the keys and texts the watcher is called for (`deliver`), and the
version a copy is stored with.  They do not.  A bump goes out through the key-value tier, under
`kv:hot:{hash}` and with the version packed into the tier's format, and the watcher is
subscribed to `hot:` and reads a plain number.  A plain bump would end every older copy; the one
that is published ends none (`deliver_bump`), so a copy goes when its own time is over and not
before (`bump_invalidates_iff`).

**Left out.**  What a node holds outside the cache (the gossip tier, its local store, the answer
of the replicas) is an argument of each read.  The event also reaches the applier of the
key-value tier, which changes the local store and never the cache.
-/

namespace Ephpm.Cluster

open Kv Lib

/-! ## Changes -/

/-- A change of a node's gossip state, as its peers are told of it. -/
structure KeyChange where
  key : List Char
  value : List Char

/-- `subscribe_event` of the gossip library.  As documented, a subscriber is called for the keys
that start with its mark, with the mark taken off, and for no others. -/
structure Subscription where
  calls : List Char → KeyChange → Option (List Char × List Char)
  called : ∀ mark rest value, calls mark ⟨mark ++ rest, value⟩ = some (rest, value)
  not_called : ∀ mark event, ¬mark <+: event.key → calls mark event = none

/-- Each change is held against the mark. -/
def Subscription.byMark : Subscription where
  calls mark event :=
    if mark.isPrefixOf event.key then some (event.key.drop mark.length, event.value) else none
  called mark rest value := by simp
  not_called mark event hmark := by simp [hmark]

/-! ## The cache -/

/-- The parts of the configuration that the cache reads; times are in milliseconds. -/
structure HotConfig where
  hotKeyCache : Bool
  hotKeyThreshold : ℕ
  hotKeyWindow : ℕ
  hotKeyLocalTtl : ℕ
  hotKeyMaxMemory : ℕ
  /-- `hash_key`: the standard library's hash of a key. -/
  hashKey : String → ℕ
  base64 : Base64
  subscription : Subscription

/-- A local copy of a hot remote key. -/
structure CachedValue where
  data : Bytes
  cachedAt : ℕ
  version : ℕ
  key : String

/-- How often a key was fetched in the current window. -/
structure HitCounter where
  count : ℕ
  windowStart : ℕ

/-- What a node keeps about hot keys, by the hash of the key. -/
structure HotNode where
  hitCounters : Assoc ℕ HitCounter
  hotCache : Assoc ℕ CachedValue
  hotCacheMem : ℕ

/-- `hot_entry_bytes`: what an entry is charged. -/
def hotEntryBytes (entry : CachedValue) : ℕ :=
  entry.data.length + entry.key.utf8ByteSize + 64

namespace HotNode

/-- `evict_hot_entry`. -/
def evictHotEntry (node : HotNode) (hash : ℕ) : HotNode :=
  match node.hotCache.get hash with
  | some entry =>
    { node with
      hotCache := node.hotCache.erase hash
      hotCacheMem := (node.hotCacheMem + 2 ^ 64 - hotEntryBytes entry) % 2 ^ 64 }
  | none => node

/-- `promote_to_hot_cache`: the value is kept if it fits. -/
def promoteToHotCache (c : HotConfig) (now : ℕ) (key : String) (value : Bytes) (node : HotNode) :
    HotNode :=
  let entry : CachedValue := ⟨value, now, 0, key⟩
  if c.hotKeyMaxMemory < saturatingAdd node.hotCacheMem (hotEntryBytes entry) then node
  else
    let freed := ((node.hotCache.get (c.hashKey key)).map hotEntryBytes).getD 0
    { node with
      hotCache := node.hotCache.insert (c.hashKey key) entry
      hotCacheMem := (node.hotCacheMem + 2 ^ 64 - freed + hotEntryBytes entry) % 2 ^ 64 }

/-- `track_remote_fetch`: a key that is fetched often enough is kept. -/
def trackRemoteFetch (c : HotConfig) (now : ℕ) (key : String) (value : Bytes) (node : HotNode) :
    HotNode :=
  if c.hotKeyCache then
    let counter := (node.hitCounters.get (c.hashKey key)).getD ⟨0, now⟩
    let counter := if c.hotKeyWindow < now - counter.windowStart then ⟨0, now⟩ else counter
    let counter := { counter with count := counter.count + 1 }
    let node := { node with hitCounters := node.hitCounters.insert (c.hashKey key) counter }
    if c.hotKeyThreshold ≤ counter.count then node.promoteToHotCache c now key value else node
  else node

/-! ## Reads -/

/-- Where a read got its answer. -/
inductive Answer where
  | gossip (value : Bytes)
  | stored (value : Bytes)
  | cached (value : Bytes)
  | fetched (value : Option Bytes)
deriving DecidableEq

/-- The look into the cache that both reads make: a copy that is too old, or another key's, is
thrown out. -/
def lookCached (c : HotConfig) (now : ℕ) (key : String) (node : HotNode) :
    Option Bytes × HotNode :=
  if c.hotKeyCache then
    match node.hotCache.get (c.hashKey key) with
    | some copy =>
      if now - copy.cachedAt < c.hotKeyLocalTtl ∧ copy.key = key then (some copy.data, node)
      else (none, node.evictHotEntry (c.hashKey key))
    | none => (none, node)
  else (none, node)

/-- `fetch_through`, with what the replicas would answer. -/
def fetchThrough (c : HotConfig) (now : ℕ) (key : String) (remote : Option Bytes)
    (node : HotNode) : Answer × HotNode :=
  match node.lookCached c now key with
  | (some data, node) => (.cached data, node)
  | (none, node) =>
    (.fetched remote, (remote.map fun value => node.trackRemoteFetch c now key value).getD node)

/-- `get`: the gossip tier and the local store come first. -/
def get (c : HotConfig) (now : ℕ) (key : String) (gossip stored remote : Option Bytes)
    (node : HotNode) : Answer × HotNode :=
  match gossip, stored with
  | some value, _ => (.gossip value, node)
  | none, some value => (.stored value, node)
  | none, none => node.fetchThrough c now key remote

/-! ## Bumps -/

/-- `HOT_PREFIX`. -/
def hotMark : List Char := "hot:".toList

/-- A text of digits as bytes. -/
def asBytes (text : List Char) : Bytes := text.map fun c => UInt8.ofNat c.toNat

/-- Bytes as a text. -/
def asText (bytes : Bytes) : List Char := bytes.map fun b => Char.ofNat b.toNat

/-- `gossip_set` with the write number its stamp got: no expiry, in the key-value tier. -/
def gossipSet (c : HotConfig) (key : List Char) (value : Bytes) (write : ℕ) : KeyChange :=
  ⟨kvMarker ++ key, encodeValue c.base64 value 0 write⟩

/-- `maybe_bump_hot_version`, with the version the gossip tier has for the key: the new version,
and what is published. -/
def maybeBumpHotVersion (c : HotConfig) (key : String) (known : Option Bytes) (write : ℕ)
    (node : HotNode) : Option (ℕ × KeyChange) :=
  let hash := c.hashKey key
  if (node.hitCounters.get hash).isSome ∨ (node.hotCache.get hash).isSome then
    let current := (known.bind fun bytes => parseU64 (asText bytes)).getD 0
    let version := (current + 1) % 2 ^ 64
    some (version, gossipSet c (hotMark ++ Nat.toDigits 10 hash) (asBytes (Nat.toDigits 10 version))
      write)
  else none

/-- The watcher of `init_hot_key_watcher`. -/
def watch (node : HotNode) (hashText versionText : List Char) : HotNode :=
  match parseU64 hashText, parseU64 versionText with
  | some hash, some version =>
    match node.hotCache.get hash with
    | some copy => if copy.version < version then node.evictHotEntry hash else node
    | none => node
  | _, _ => node

/-- A change arrives, and the watcher is called if it has subscribed to the key. -/
def deliver (c : HotConfig) (event : KeyChange) (node : HotNode) : HotNode :=
  (c.subscription.calls hotMark event).elim node fun call => node.watch call.1 call.2

/-! ## What a bump achieves -/

variable {c : HotConfig} {node : HotNode} {key : String}

/-- **A published bump does not.**  It is published under a key the watcher is not called
for. -/
theorem deliver_bump {publisher : HotNode} {known : Option Bytes} {write version : ℕ}
    {event : KeyChange}
    (h : publisher.maybeBumpHotVersion c key known write = some (version, event)) :
    node.deliver c event = node := by
  simp only [maybeBumpHotVersion] at h
  split at h
  · obtain ⟨-, rfl⟩ := Prod.mk.inj (Option.some.inj h)
    rw [deliver, c.subscription.not_called _ _ fun hmark => ?_, Option.elim_none]
    exact absurd (List.cons_prefix_cons.mp hmark).1 (by decide)
  · cases h

theorem lookCached_eq_some_iff {now : ℕ} {data : Bytes} :
    (node.lookCached c now key).1 = some data ↔
      c.hotKeyCache = true ∧ ∃ copy, node.hotCache.get (c.hashKey key) = some copy ∧
        now - copy.cachedAt < c.hotKeyLocalTtl ∧ copy.key = key ∧ copy.data = data := by
  unfold lookCached
  split
  next hon =>
    split
    next copy hcopy =>
      split
      next hyoung => simp [hon, hcopy, hyoung]
      next hold =>
        simp only [hon, hcopy, Option.some.injEq, reduceCtorEq, true_and, false_iff]
        rintro ⟨_, rfl, hyoung, hkey, -⟩
        exact hold ⟨hyoung, hkey⟩
    next hnone => simp [hnone]
  next hoff => simp [hoff]

theorem fetchThrough_eq_cached_iff {now : ℕ} {remote : Option Bytes} {data : Bytes} :
    (node.fetchThrough c now key remote).1 = .cached data ↔
      (node.lookCached c now key).1 = some data := by
  unfold fetchThrough
  split
  next hlook => simp [hlook]
  next hlook => simp [hlook]

theorem get_eq_cached {now : ℕ} {gossip stored remote : Option Bytes} {data : Bytes}
    (h : (node.get c now key gossip stored remote).1 = .cached data) :
    (node.lookCached c now key).1 = some data := by
  cases gossip with
  | some value => cases h
  | none =>
    cases stored with
    | some value => cases h
    | none => exact fetchThrough_eq_cached_iff.mp h

/-- An older copy of the key is not served at `now`, once the bump has been delivered. -/
def Invalidated (c : HotConfig) (key : String) (version : ℕ) (event : KeyChange) (now : ℕ)
    (node : HotNode) : Prop :=
  ∀ copy, node.hotCache.get (c.hashKey key) = some copy → copy.key = key →
    copy.version < version → ∀ gossip stored remote,
      ((node.deliver c event).fetchThrough c now key remote).1 ≠ .cached copy.data ∧
        ((node.deliver c event).get c now key gossip stored remote).1 ≠ .cached copy.data

/-- **A copy goes when its own time is over.**  A delivered bump keeps an older copy from being
served exactly if the cache is off or the copy is past its local lifetime anyway. -/
theorem bump_invalidates_iff {publisher : HotNode} {known : Option Bytes} {write version : ℕ}
    {event : KeyChange}
    (h : publisher.maybeBumpHotVersion c key known write = some (version, event)) (now : ℕ) :
    node.Invalidated c key version event now ↔
      ∀ copy, node.hotCache.get (c.hashKey key) = some copy → copy.key = key →
        copy.version < version → c.hotKeyCache = true → c.hotKeyLocalTtl ≤ now - copy.cachedAt := by
  simp only [Invalidated, deliver_bump h]
  constructor
  · intro hinv copy hcopy hkey hver hon
    by_contra hyoung
    refine (hinv copy hcopy hkey hver none none none).1 ?_
    rw [fetchThrough_eq_cached_iff, lookCached_eq_some_iff]
    exact ⟨hon, copy, hcopy, by omega, hkey, rfl⟩
  · intro hold copy hcopy hkey hver gossip stored remote
    have hlook : (node.lookCached c now key).1 ≠ some copy.data := by
      intro hserved
      obtain ⟨hon, copy', hcopy', hyoung, -, -⟩ := lookCached_eq_some_iff.mp hserved
      obtain rfl := Option.some.inj (hcopy.symm.trans hcopy')
      have hpast := hold copy hcopy hkey hver hon
      omega
    exact ⟨fun hfetch => hlook (fetchThrough_eq_cached_iff.mp hfetch),
      fun hget => hlook (get_eq_cached hget)⟩

/-! ## A copy that stays -/

/-- A cache whose copies live for thirty seconds; keys are hashed to their length. -/
def sampleConfig : HotConfig :=
  ⟨true, 5, 10000, 30000, 1000, String.length, .standard, .byMark⟩

/-- A node that cached `page` at time zero. -/
def sampleHolder : HotNode :=
  promoteToHotCache sampleConfig 0 "page" [1] ⟨Assoc.empty, Assoc.empty, 0⟩

/-- What the node publishes when it overwrites the key itself. -/
def sampleEvent : KeyChange :=
  gossipSet sampleConfig (hotMark ++ ['4']) (asBytes ['1']) 7

/-- The bump is published, and after the copy's thirty seconds nothing is left to end. -/
theorem bump_invalidates_late :
    sampleHolder.maybeBumpHotVersion sampleConfig "page" none 7 = some (1, sampleEvent) ∧
      sampleHolder.Invalidated sampleConfig "page" 1 sampleEvent 30000 := by
  have hbump : sampleHolder.maybeBumpHotVersion sampleConfig "page" none 7 =
      some (1, sampleEvent) := rfl
  refine ⟨hbump, (bump_invalidates_iff hbump 30000).mpr ?_⟩
  intro copy hcopy
  obtain rfl := Option.some.inj hcopy
  decide

/-- **Served after the bump.**  A second after the bump has been delivered, the old value is
still what a read returns. -/
theorem served_after_bump :
    sampleHolder.maybeBumpHotVersion sampleConfig "page" none 7 = some (1, sampleEvent) ∧
      ¬sampleHolder.Invalidated sampleConfig "page" 1 sampleEvent 1000 := by
  refine ⟨rfl, fun hinv => ?_⟩
  exact (hinv ⟨[1], 0, 0, "page"⟩ rfl rfl (by decide) none none none).1 rfl

end HotNode

end Ephpm.Cluster
