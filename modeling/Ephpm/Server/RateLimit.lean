import Mathlib.Algebra.Order.Ring.Unbundled.Rat
import Ephpm.Lib.AssocList

/-!
# The rate and connection limiter

The server limits how many connections are open, altogether and per IP, and how many requests come
in: per IP, and per site for those that run PHP.  A request takes a token out of a bucket that fills
up with time.

**Entries are lazy in both directions.**  A bucket is refilled by the request that looks at it and
by nothing else, and the entry of an IP or a site comes into being, with a full bucket, when it is
first asked for.  A sweep removes the entries that have no connection and a full bucket.  Tables are
bounded: whoever has no entry when a table is full is refused.

Tokens are counted in thousandths.  The code has them as `u64` and multiplies the rate as `f64`;
here they are rationals, and what becomes of the product by the cast is a parameter `asU64`, so that
the same definitions can be read with and without the fraction that it cuts off.  Saturation plays
no role, since a bucket is capped at its burst.  Counters are integers, so that a decrement below
zero would show.

The functions run one after the other, at the time `nowMs` of a clock in milliseconds that `wait`
advances.
-/

namespace Ephpm.Server.RateLimit

open Lib

/-- `MAX_TRACKED_IPS`. -/
def maxTrackedIps : ℕ := 100000

/-- `MAX_TRACKED_SITES`. -/
def maxTrackedSites : ℕ := 10000

/-- `ResolvedLimits`.  Zero means no limit, except for the bursts. -/
structure ResolvedLimits where
  maxConnections : ℕ
  perIpMaxConnections : ℕ
  perIpRate : ℚ
  perIpBurst : ℕ
  perSiteRate : ℚ
  perSiteBurst : ℕ

/-- `take_one_token`: tokens are counted in thousandths. -/
def takeOneToken (tokens : ℚ) : Option ℚ := if 1000 ≤ tokens then some (tokens - 1000) else none

/-- The cast to `u64` as it is: it cuts off the fraction. -/
def truncate (q : ℚ) : ℚ := q.floor

/-! ## Buckets -/

/-- `TokenBucket`. -/
structure TokenBucket where
  tokens : ℚ
  lastRefillMs : ℕ
deriving DecidableEq, Repr

namespace TokenBucket

/-- A bucket that is full. -/
def full (burstTokens : ℚ) (nowMs : ℕ) : TokenBucket := ⟨burstTokens, nowMs⟩

/-- The first half of `try_take`: the time that has passed becomes tokens. -/
def refilled (asU64 : ℚ → ℚ) (b : TokenBucket) (nowMs : ℕ) (rate burstTokens : ℚ) : TokenBucket :=
  let elapsedMs := nowMs - b.lastRefillMs
  let newTokens := asU64 (rate * elapsedMs)
  if 0 < elapsedMs ∧ 0 < newTokens then ⟨min (b.tokens + newTokens) burstTokens, nowMs⟩ else b

/-- `try_take`: the bucket is filled up and a token is taken, if there is one. -/
def tryTake (asU64 : ℚ → ℚ) (b : TokenBucket) (nowMs : ℕ) (rate burstTokens : ℚ) :
    Bool × TokenBucket :=
  let r := b.refilled asU64 nowMs rate burstTokens
  match takeOneToken r.tokens with
  | some tokens => (true, { r with tokens := tokens })
  | none => (false, r)

/-- `is_full`. -/
def isFull (b : TokenBucket) (burstTokens : ℚ) : Bool := burstTokens ≤ b.tokens

end TokenBucket

/-! ## Tables -/

/-- The loop of `get_or_create_ip` and `get_or_create_site`: at most `retries` times an entry is
looked for and, if there is room, made. -/
def getOrCreate {K V : Type} [DecidableEq K] (cap : ℕ) (fresh : V) (key : K) :
    ℕ → Assoc K V → Option V × Assoc K V
  | 0, table => (none, table)
  | retries + 1, table =>
    match table.get key with
    | some value => (some value, table)
    | none =>
      if cap ≤ table.len then (none, table)
      else getOrCreate cap fresh key retries (table.insert key fresh)

/-- The second round of the loop finds what the first one has made. -/
theorem getOrCreate_three {K V : Type} [DecidableEq K] (cap : ℕ) (fresh : V) (key : K)
    (table : Assoc K V) :
    getOrCreate cap fresh key 3 table =
      match table.get key with
      | some value => (some value, table)
      | none =>
        if cap ≤ table.len then (none, table) else (some fresh, table.insert key fresh) := by
  rw [getOrCreate]
  cases table.get key with
  | some value => rfl
  | none =>
    dsimp only
    split_ifs with h
    · rfl
    · rw [getOrCreate, Assoc.get_insert, if_pos rfl]

/-- What is known of an address. -/
structure IpState where
  connections : ℤ
  bucket : TokenBucket
deriving DecidableEq, Repr

/-- `ConnectionGuard`: the right of a connection to be open. -/
structure ConnectionGuard (I : Type) where
  ip : I
  counted : Bool
deriving DecidableEq, Repr

/-- `Limiter`. -/
structure Limiter (I S : Type) where
  globalConnections : ℤ
  perIp : Assoc I IpState
  perSite : Assoc S TokenBucket

namespace Limiter

variable {I S : Type} [DecidableEq I] [DecidableEq S]

/-- A limiter that has seen nobody. -/
def new : Limiter I S := ⟨0, .empty, .empty⟩

variable (asU64 : ℚ → ℚ) (cfg : ResolvedLimits) (nowMs : ℕ) (l : Limiter I S)

/-- `ip_burst_tokens`. -/
def ipBurstTokens : ℚ := cfg.perIpBurst * 1000

/-- `site_burst_tokens`. -/
def siteBurstTokens : ℚ := cfg.perSiteBurst * 1000

/-- `get_or_create_ip`. -/
def getOrCreateIp (ip : I) : Option IpState × Limiter I S :=
  let found := getOrCreate maxTrackedIps ⟨0, .full (ipBurstTokens cfg) nowMs⟩ ip 3 l.perIp
  (found.1, { l with perIp := found.2 })

/-- `get_or_create_site`. -/
def getOrCreateSite (key : S) : Option TokenBucket × Limiter I S :=
  let found := getOrCreate maxTrackedSites (.full (siteBurstTokens cfg) nowMs) key 3 l.perSite
  (found.1, { l with perSite := found.2 })

/-- `fetch_add` and `fetch_sub` on the counter of all connections. -/
def addGlobal (n : ℤ) : Limiter I S := { l with globalConnections := l.globalConnections + n }

/-- The entry of an IP is changed in place. -/
def setIp (ip : I) (state : IpState) : Limiter I S := { l with perIp := l.perIp.insert ip state }

/-- The bucket of a site is changed in place. -/
def setSite (key : S) (bucket : TokenBucket) : Limiter I S :=
  { l with perSite := l.perSite.insert key bucket }

/-- `try_acquire_connection`. -/
def tryAcquireConnection (ip : I) : Option (ConnectionGuard I) × Limiter I S :=
  let added := l.addGlobal 1
  if 0 < cfg.maxConnections ∧ cfg.maxConnections ≤ l.globalConnections then
    (none, added.addGlobal (-1))
  else if 0 < cfg.perIpMaxConnections then
    match added.getOrCreateIp cfg nowMs ip with
    | (none, l) => (none, l.addGlobal (-1))
    | (some state, l) =>
      let raised := l.setIp ip { state with connections := state.connections + 1 }
      if cfg.perIpMaxConnections ≤ state.connections then
        (none, (raised.setIp ip { state with connections := state.connections + 1 - 1 }).addGlobal (-1))
      else (some ⟨ip, true⟩, raised)
  else
    match added.perIp.get ip with
    | some state =>
      (some ⟨ip, true⟩, added.setIp ip { state with connections := state.connections + 1 })
    | none => (some ⟨ip, false⟩, added)

/-- `ConnectionGuard::drop`. -/
def dropGuard (guard : ConnectionGuard I) : Limiter I S :=
  let l := l.addGlobal (-1)
  if guard.counted then
    match l.perIp.get guard.ip with
    | some state => l.setIp guard.ip { state with connections := state.connections - 1 }
    | none => l
  else l

/-- `check_rate`. -/
def checkRate (ip : I) : Bool × Limiter I S :=
  if cfg.perIpRate ≤ 0 then (true, l)
  else
    match l.getOrCreateIp cfg nowMs ip with
    | (none, l) => (false, l)
    | (some state, l) =>
      let taken := state.bucket.tryTake asU64 nowMs cfg.perIpRate (ipBurstTokens cfg)
      (taken.1, l.setIp ip { state with bucket := taken.2 })

/-- `check_site_rate`. -/
def checkSiteRate (key : S) : Bool × Limiter I S :=
  if cfg.perSiteRate ≤ 0 then (true, l)
  else
    match l.getOrCreateSite cfg nowMs key with
    | (none, l) => (false, l)
    | (some bucket, l) =>
      let taken := bucket.tryTake asU64 nowMs cfg.perSiteRate (siteBurstTokens cfg)
      (taken.1, l.setSite key taken.2)

/-- `cleanup_stale`. -/
def cleanupStale : Limiter I S :=
  { l with
    perIp := l.perIp.retain fun _ state =>
      0 < state.connections || !state.bucket.isFull (ipBurstTokens cfg)
    perSite := l.perSite.retain fun _ bucket => !bucket.isFull (siteBurstTokens cfg) }

end Limiter

/-! ## Runs -/

/-- What a bucket is for. -/
inductive Key (I S : Type) where
  | ip (ip : I)
  | site (key : S)
deriving DecidableEq, Repr

/-- What happens to the limiter. -/
inductive Event (I S : Type) where
  | wait (ms : ℕ)
  | tryAcquireConnection (ip : I)
  /-- one of the guards that are alive is dropped -/
  | dropGuard (index : ℕ)
  /-- `check_rate` or `check_site_rate` -/
  | check (key : Key I S)
  | cleanupStale
deriving DecidableEq, Repr

/-- The limiter with the clock and the guards that are alive. -/
structure State (I S : Type) where
  nowMs : ℕ
  limiter : Limiter I S
  guards : List (ConnectionGuard I)

namespace State

variable {I S : Type} [DecidableEq I] [DecidableEq S] (asU64 : ℚ → ℚ) (cfg : ResolvedLimits)

/-- At the beginning. -/
def start : State I S := ⟨0, .new, []⟩

/-- What a check says. -/
def checked (s : State I S) : Key I S → Bool × Limiter I S
  | .ip ip => s.limiter.checkRate asU64 cfg s.nowMs ip
  | .site key => s.limiter.checkSiteRate asU64 cfg s.nowMs key

/-- One event. -/
def step (s : State I S) : Event I S → State I S
  | .wait ms => { s with nowMs := s.nowMs + ms }
  | .tryAcquireConnection ip =>
    let acquired := s.limiter.tryAcquireConnection cfg s.nowMs ip
    { s with limiter := acquired.2, guards := acquired.1.toList ++ s.guards }
  | .dropGuard index =>
    match s.guards[index]? with
    | some guard => { s with limiter := s.limiter.dropGuard guard, guards := s.guards.eraseIdx index }
    | none => s
  | .check key => { s with limiter := (s.checked asU64 cfg key).2 }
  | .cleanupStale => { s with limiter := s.limiter.cleanupStale cfg }

/-- The state after a history. -/
def run (s : State I S) (events : List (Event I S)) : State I S := events.foldl (step asU64 cfg) s

end State

/-! ## The bucket of a key

Every function does one of four things to the bucket of a key: nothing, make it, take from it, or
remove it when it is full. -/

section View

variable {I S : Type} [DecidableEq I] [DecidableEq S]

namespace ResolvedLimits

variable (cfg : ResolvedLimits)

/-- The rate of a key, per second. -/
def rate : Key I S → ℚ
  | .ip _ => cfg.perIpRate
  | .site _ => cfg.perSiteRate

/-- The burst of a key. -/
def burst : Key I S → ℕ
  | .ip _ => cfg.perIpBurst
  | .site _ => cfg.perSiteBurst

end ResolvedLimits

namespace Limiter

variable (l : Limiter I S)

/-- The bucket of a key, if it is tracked. -/
def bucket : Key I S → Option TokenBucket
  | .ip ip => (l.perIp.get ip).map (·.bucket)
  | .site key => l.perSite.get key

/-- There is no entry for a key and none can be made. -/
def noRoom : Key I S → Bool
  | .ip ip => (l.perIp.get ip).isNone && decide (maxTrackedIps ≤ l.perIp.len)
  | .site key => (l.perSite.get key).isNone && decide (maxTrackedSites ≤ l.perSite.len)

@[simp] theorem bucket_addGlobal (n : ℤ) (key : Key I S) :
    (l.addGlobal n).bucket key = l.bucket key := by
  cases key <;> rfl

@[simp] theorem bucket_setIp (ip : I) (state : IpState) (key : Key I S) :
    (l.setIp ip state).bucket key = if key = .ip ip then some state.bucket else l.bucket key := by
  cases key with
  | ip ip' => by_cases h : ip' = ip <;> simp [bucket, setIp, h]
  | site key => simp [bucket, setIp]

/-- The connections of an IP have nothing to do with its bucket. -/
theorem bucket_setIp_of_get {l : Limiter I S} {ip : I} {state : IpState}
    (h : l.perIp.get ip = some state) (n : ℤ) (key : Key I S) :
    (l.setIp ip { state with connections := n }).bucket key = l.bucket key := by
  rw [bucket_setIp]
  split_ifs with hkey
  · rw [hkey, bucket, h, Option.map_some]
  · rfl

@[simp] theorem bucket_setSite (site : S) (b : TokenBucket) (key : Key I S) :
    (l.setSite site b).bucket key = if key = .site site then some b else l.bucket key := by
  cases key with
  | ip ip => simp [bucket, setSite]
  | site key => by_cases h : key = site <;> simp [bucket, setSite, h]

variable (asU64 : ℚ → ℚ) (cfg : ResolvedLimits) (nowMs : ℕ)

/-- The entry of an IP is there, or there is no room for it, or it is made. -/
theorem getOrCreateIp_cases (ip : I) :
    (∃ state, l.perIp.get ip = some state ∧ l.getOrCreateIp cfg nowMs ip = (some state, l)) ∨
      (l.perIp.get ip = none ∧ l.noRoom (.ip ip) = true ∧
        l.getOrCreateIp cfg nowMs ip = (none, l)) ∨
      (l.perIp.get ip = none ∧ l.noRoom (.ip ip) = false ∧
        l.getOrCreateIp cfg nowMs ip =
          (some ⟨0, .full (ipBurstTokens cfg) nowMs⟩,
            l.setIp ip ⟨0, .full (ipBurstTokens cfg) nowMs⟩)) := by
  simp only [getOrCreateIp, getOrCreate_three]
  cases hget : l.perIp.get ip with
  | some state => exact .inl ⟨state, rfl, rfl⟩
  | none =>
    by_cases hcap : maxTrackedIps ≤ l.perIp.len
    · exact .inr (.inl ⟨rfl, by simp [noRoom, hget, hcap], by simp [hcap]⟩)
    · exact .inr (.inr ⟨rfl, by simp [noRoom, hcap], by simp [hcap, setIp]⟩)

/-- The bucket of a site is there, or there is no room for it, or it is made. -/
theorem getOrCreateSite_cases (key : S) :
    (∃ b, l.perSite.get key = some b ∧ l.getOrCreateSite cfg nowMs key = (some b, l)) ∨
      (l.perSite.get key = none ∧ l.noRoom (.site key) = true ∧
        l.getOrCreateSite cfg nowMs key = (none, l)) ∨
      (l.perSite.get key = none ∧ l.noRoom (.site key) = false ∧
        l.getOrCreateSite cfg nowMs key =
          (some (.full (siteBurstTokens cfg) nowMs),
            l.setSite key (.full (siteBurstTokens cfg) nowMs))) := by
  simp only [getOrCreateSite, getOrCreate_three]
  cases hget : l.perSite.get key with
  | some b => exact .inl ⟨b, rfl, rfl⟩
  | none =>
    by_cases hcap : maxTrackedSites ≤ l.perSite.len
    · exact .inr (.inl ⟨rfl, by simp [noRoom, hget, hcap], by simp [hcap]⟩)
    · exact .inr (.inr ⟨rfl, by simp [noRoom, hcap], by simp [hcap, setSite]⟩)

/-- A full bucket of a key. -/
def fullBucket (key : Key I S) : TokenBucket := .full (cfg.burst key * 1000) nowMs

/-- A connection makes a bucket at most. -/
theorem bucket_tryAcquireConnection (ip : I) (key : Key I S) :
    (l.tryAcquireConnection cfg nowMs ip).2.bucket key = l.bucket key ∨
      l.bucket key = none ∧
        (l.tryAcquireConnection cfg nowMs ip).2.bucket key = some (fullBucket cfg nowMs key) := by
  simp only [tryAcquireConnection]
  split_ifs with hglobal hlimit
  · exact .inl (by simp)
  · rcases (l.addGlobal 1).getOrCreateIp_cases cfg nowMs ip with
      ⟨state, hget, heq⟩ | ⟨-, -, heq⟩ | ⟨hget, -, heq⟩
    · left
      rw [heq]
      dsimp only
      have hraised := bucket_setIp_of_get hget (state.connections + 1) key
      split_ifs
      · have hback := bucket_setIp_of_get hget (state.connections + 1 - 1) key
        rw [bucket_addGlobal, bucket_setIp, hraised, ← bucket_setIp, hback, bucket_addGlobal]
      · rw [hraised, bucket_addGlobal]
    · exact .inl (by rw [heq]; simp)
    · have hnone : key = .ip ip → l.bucket key = none := by
        rintro rfl
        exact congrArg (Option.map (·.bucket)) hget
      by_cases hkey : key = .ip ip
      · refine .inr ⟨hnone hkey, ?_⟩
        rw [heq]
        dsimp only
        split_ifs <;> simp [hkey, fullBucket, ipBurstTokens, ResolvedLimits.burst]
      · left
        rw [heq]
        dsimp only
        split_ifs <;> simp [hkey]
  · left
    cases hget : (l.addGlobal 1).perIp.get ip with
    | none => simp
    | some state => exact (bucket_setIp_of_get hget _ key).trans (bucket_addGlobal _ _ _)

theorem bucket_dropGuard (guard : ConnectionGuard I) (key : Key I S) :
    (l.dropGuard guard).bucket key = l.bucket key := by
  simp only [dropGuard]
  split_ifs
  · cases hget : (l.addGlobal (-1)).perIp.get guard.ip with
    | none => simp
    | some state => exact (bucket_setIp_of_get hget _ key).trans (bucket_addGlobal _ _ _)
  · simp

theorem bucket_cleanupStale (key : Key I S) :
    (l.cleanupStale cfg).bucket key = l.bucket key ∨
      (l.cleanupStale cfg).bucket key = none ∧
        ∃ b, l.bucket key = some b ∧ b.isFull (cfg.burst key * 1000) = true := by
  cases key with
  | ip ip =>
    cases hget : l.perIp.get ip with
    | none => exact .inl (by simp [bucket, cleanupStale, hget])
    | some state =>
      by_cases hkeep : (decide (0 < state.connections) ||
          !state.bucket.isFull (ipBurstTokens cfg)) = true
      · exact .inl (by simp only [bucket, cleanupStale, Assoc.get_retain, hget, Option.filter, hkeep,
          if_true])
      · refine .inr ⟨by simp only [bucket, cleanupStale, Assoc.get_retain, hget, Option.filter,
          if_neg hkeep, Option.map_none], state.bucket, by simp [bucket, hget], ?_⟩
        simp only [Bool.or_eq_true, not_or, Bool.not_eq_true', Bool.not_eq_false] at hkeep
        exact hkeep.2
  | site key =>
    cases hget : l.perSite.get key with
    | none => exact .inl (by simp [bucket, cleanupStale, hget])
    | some b =>
      by_cases hfull : b.isFull (siteBurstTokens cfg) = true
      · exact .inr ⟨by simp [bucket, cleanupStale, hget, hfull], b, by simp [bucket, hget], hfull⟩
      · exact .inl (by simp [bucket, cleanupStale, hget, hfull])

end Limiter

namespace State

variable (asU64 : ℚ → ℚ) (cfg : ResolvedLimits) (s : State I S)

/-- The bucket that a check looks at: the one of the key, or a new one. -/
def found (key : Key I S) : TokenBucket :=
  (s.limiter.bucket key).getD (Limiter.fullBucket cfg s.nowMs key)

/-- What `try_take` makes of it. -/
def taken (key : Key I S) : Bool × TokenBucket :=
  (s.found cfg key).tryTake asU64 s.nowMs (cfg.rate key) (cfg.burst key * 1000)

/-- A check without a limit looks at nothing. -/
theorem checked_of_rate_le {key : Key I S} (h : cfg.rate key ≤ 0) :
    s.checked asU64 cfg key = (true, s.limiter) := by
  cases key with
  | ip ip => exact if_pos h
  | site key => exact if_pos h

theorem checked_of_noRoom {key : Key I S} (hrate : 0 < cfg.rate key)
    (h : s.limiter.noRoom key = true) : s.checked asU64 cfg key = (false, s.limiter) := by
  cases key with
  | ip ip =>
    simp only [checked, Limiter.checkRate, if_neg (not_le.mpr hrate : ¬ cfg.perIpRate ≤ 0)]
    rcases s.limiter.getOrCreateIp_cases cfg s.nowMs ip with
      ⟨state, hget, heq⟩ | ⟨-, -, heq⟩ | ⟨-, hroom, -⟩
    · simp [Limiter.noRoom, hget] at h
    · rw [heq]
    · rw [h] at hroom
      cases hroom
  | site key =>
    simp only [checked, Limiter.checkSiteRate, if_neg (not_le.mpr hrate : ¬ cfg.perSiteRate ≤ 0)]
    rcases s.limiter.getOrCreateSite_cases cfg s.nowMs key with
      ⟨b, hget, heq⟩ | ⟨-, -, heq⟩ | ⟨-, hroom, -⟩
    · simp [Limiter.noRoom, hget] at h
    · rw [heq]
    · rw [h] at hroom
      cases hroom

/-- **A check takes from the bucket of its key**, and from no other. -/
theorem checked_of_room {key : Key I S} (hrate : 0 < cfg.rate key)
    (h : s.limiter.noRoom key = false) :
    (s.checked asU64 cfg key).1 = (s.taken asU64 cfg key).1 ∧
      ∀ key', (s.checked asU64 cfg key).2.bucket key' =
        if key' = key then some (s.taken asU64 cfg key).2 else s.limiter.bucket key' := by
  cases key with
  | ip ip =>
    simp only [checked, Limiter.checkRate, if_neg (not_le.mpr hrate : ¬ cfg.perIpRate ≤ 0)]
    rcases s.limiter.getOrCreateIp_cases cfg s.nowMs ip with
      ⟨state, hget, heq⟩ | ⟨-, hroom, -⟩ | ⟨hget, -, heq⟩
    · have hfound : s.found cfg (.ip ip) = state.bucket := by
        simp [found, Limiter.bucket, hget]
      rw [heq, taken, hfound]
      exact ⟨rfl, fun key' => Limiter.bucket_setIp _ _ _ _⟩
    · rw [h] at hroom
      cases hroom
    · have hfound : s.found cfg (.ip ip) = .full (Limiter.ipBurstTokens cfg) s.nowMs := by
        simp [found, Limiter.bucket, hget, Limiter.fullBucket, Limiter.ipBurstTokens,
          ResolvedLimits.burst]
      rw [heq, taken, hfound]
      refine ⟨rfl, fun key' => ?_⟩
      by_cases hkey : key' = .ip ip <;>
        simp [hkey, ResolvedLimits.rate, ResolvedLimits.burst, Limiter.ipBurstTokens]
  | site key =>
    simp only [checked, Limiter.checkSiteRate, if_neg (not_le.mpr hrate : ¬ cfg.perSiteRate ≤ 0)]
    rcases s.limiter.getOrCreateSite_cases cfg s.nowMs key with
      ⟨b, hget, heq⟩ | ⟨-, hroom, -⟩ | ⟨hget, -, heq⟩
    · have hfound : s.found cfg (.site key) = b := by
        simp [found, Limiter.bucket, hget]
      rw [heq, taken, hfound]
      exact ⟨rfl, fun key' => Limiter.bucket_setSite _ _ _ _⟩
    · rw [h] at hroom
      cases hroom
    · have hfound : s.found cfg (.site key) = .full (Limiter.siteBurstTokens cfg) s.nowMs := by
        simp [found, Limiter.bucket, hget, Limiter.fullBucket, Limiter.siteBurstTokens,
          ResolvedLimits.burst]
      rw [heq, taken, hfound]
      refine ⟨rfl, fun key' => ?_⟩
      by_cases hkey : key' = .site key <;>
        simp [hkey, ResolvedLimits.rate, ResolvedLimits.burst, Limiter.siteBurstTokens]

/-- What happens to the bucket of a key without a request of it: nothing, or it is made, or it is
swept because it is full. -/
theorem bucket_step (key : Key I S) (e : Event I S)
    (he : e = .check key → cfg.rate key ≤ 0 ∨ s.limiter.noRoom key = true) :
    (s.step asU64 cfg e).limiter.bucket key = s.limiter.bucket key ∨
      (s.limiter.bucket key = none ∧
        (s.step asU64 cfg e).limiter.bucket key = some (Limiter.fullBucket cfg s.nowMs key)) ∨
      ((s.step asU64 cfg e).limiter.bucket key = none ∧
        ∃ b, s.limiter.bucket key = some b ∧ b.isFull (cfg.burst key * 1000) = true) := by
  cases e with
  | wait ms => exact .inl rfl
  | tryAcquireConnection ip =>
    rcases s.limiter.bucket_tryAcquireConnection cfg s.nowMs ip key with hsame | hmade
    · exact .inl hsame
    · exact .inr (.inl hmade)
  | dropGuard index =>
    left
    simp only [step]
    cases s.guards[index]? with
    | none => rfl
    | some guard => exact s.limiter.bucket_dropGuard guard key
  | check key' =>
    left
    simp only [step]
    by_cases hunlimited : cfg.rate key' ≤ 0
    · rw [checked_of_rate_le asU64 cfg s hunlimited]
    · cases hroom : s.limiter.noRoom key' with
      | true => rw [checked_of_noRoom asU64 cfg s (not_le.mp hunlimited) hroom]
      | false =>
        rw [(checked_of_room asU64 cfg s (not_le.mp hunlimited) hroom).2, if_neg]
        rintro rfl
        rcases he rfl with hle | hnone
        · exact hunlimited hle
        · rw [hroom] at hnone
          cases hnone
  | cleanupStale =>
    rcases s.limiter.bucket_cleanupStale cfg key with hsame | hgone
    · exact .inl hsame
    · exact .inr (.inr hgone)

end State

end View

end Ephpm.Server.RateLimit
