import Ephpm.Server.BucketExactness
import Ephpm.Server.ConnectionLimits

/-!
# Which entries of the limiter are reclaimed

A sweep removes an entry whose bucket is full, and it looks at the tokens that the bucket holds, not
at what has come in since.  But a bucket is refilled by requests only, and a request takes a token.
**So a bucket that was asked once is never full again in the eyes of the sweep**, however long the
client stays away: its entry is there for good, and occupies one of the places of the table.

What is reclaimed (`cleanupStale_reclaims`) are entries that were never asked since they were made,
which a connection does, and buckets with a burst of zero, which are full when they are empty.
-/

namespace Ephpm.Server.RateLimit

open Lib

variable {I S : Type} [DecidableEq I] [DecidableEq S]

namespace State

variable (asU64 : ℚ → ℚ) (cfg : ResolvedLimits) (key : Key I S)

/-- An IP has no open connection. -/
def Disconnected (s : State I S) : Key I S → Prop
  | .ip ip => ∀ guard ∈ s.guards, guard.ip ≠ ip
  | .site _ => True

/-- A key is tracked, has no open connection, and enough time has passed for its bucket to be full
again. -/
def Idle (s : State I S) : Prop :=
  (s.limiter.bucket key).isSome ∧ s.Disconnected key ∧ s.level cfg key = cfg.burst key

/-- A key has an open connection, or its bucket is not full again. -/
def Active (s : State I S) : Prop := ¬ s.Disconnected key ∨ s.level cfg key < cfg.burst key

/-- Since a key had no entry for the last time it has sent no request. -/
def Unasked (events : List (Event I S)) : Prop :=
  ∃ before after, events = before ++ after ∧
    (State.start.run asU64 cfg before).limiter.bucket key = none ∧ .check key ∉ after

/-- What makes a sweep see that a key is idle: its bucket has no size, its requests are not limited,
or it has sent none. -/
def Visible (events : List (Event I S)) : Prop :=
  cfg.burst key = 0 ∨ cfg.rate key ≤ 0 ∨ Unasked asU64 cfg key events

variable {asU64 cfg key} {s : State I S}

theorem run_append (s : State I S) (before after : List (Event I S)) :
    s.run asU64 cfg (before ++ after) = (s.run asU64 cfg before).run asU64 cfg after :=
  List.foldl_append

theorem run_concat (s : State I S) (events : List (Event I S)) (e : Event I S) :
    s.run asU64 cfg (events ++ [e]) = (s.run asU64 cfg events).step asU64 cfg e :=
  run_append s events [e]

/-! ## What the sweep sees -/

/-- A sweep removes the entry of a key without connections exactly if its bucket is full. -/
theorem cleanupStale_bucket_eq_none_iff (hs : s.Exact cfg) (hconn : s.Disconnected key)
    {b : TokenBucket} (hb : s.limiter.bucket key = some b) :
    (s.limiter.cleanupStale cfg).bucket key = none ↔ b.isFull (cfg.burst key * 1000) = true := by
  constructor
  · intro hnone
    rcases s.limiter.bucket_cleanupStale cfg key with hsame | ⟨-, b', hb', hfull⟩
    · rw [hnone, hb] at hsame
      cases hsame
    · rw [hb] at hb'
      obtain rfl := Option.some.inj hb'
      exact hfull
  · intro hfull
    cases key with
    | ip ip =>
      obtain ⟨state, hget, rfl⟩ := Option.map_eq_some_iff.mp hb
      have hcount : state.connections = s.counted ip :=
        hs.eq_counted (Limiter.connections_of_get hget)
      have hzero : s.counted ip = 0 := by
        rw [counted, List.countP_eq_zero]
        intro guard hguard
        simp [hconn guard hguard]
      have hfull' : state.bucket.isFull (Limiter.ipBurstTokens cfg) = true := hfull
      simp [Limiter.bucket, Limiter.cleanupStale, hget, hcount, hzero, hfull']
    | site key =>
      have hget : s.limiter.perSite.get key = some b := hb
      have hfull' : b.isFull (Limiter.siteBurstTokens cfg) = true := hfull
      simp [Limiter.bucket, Limiter.cleanupStale, hget, hfull']

/-! ## What a bucket holds -/

/-- A bucket holds between nothing and its burst. -/
def Bounded (cfg : ResolvedLimits) (key : Key I S) (s : State I S) : Prop :=
  ∀ b, s.limiter.bucket key = some b → 0 ≤ b.tokens ∧ b.tokens ≤ cfg.burst key * 1000

theorem Bounded.found (hs : Bounded cfg key s) :
    0 ≤ (s.found cfg key).tokens ∧ (s.found cfg key).tokens ≤ cfg.burst key * 1000 := by
  cases hb : s.limiter.bucket key with
  | none =>
    have hfound : s.found cfg key = Limiter.fullBucket cfg s.nowMs key := by simp [State.found, hb]
    rw [hfound]
    exact ⟨by simp [Limiter.fullBucket, TokenBucket.full], le_rfl⟩
  | some b =>
    have hfound : s.found cfg key = b := by simp [State.found, hb]
    rw [hfound]
    exact hs b hb

theorem Bounded.refilled (asU64 : ℚ → ℚ) (hs : Bounded cfg key s) :
    let r := (s.found cfg key).refilled asU64 s.nowMs (cfg.rate key) (cfg.burst key * 1000)
    0 ≤ r.tokens ∧ r.tokens ≤ cfg.burst key * 1000 := by
  obtain ⟨hlow, hhigh⟩ := hs.found
  simp only [TokenBucket.refilled]
  split_ifs with hnew
  · exact ⟨le_min (by linarith [hnew.2]) (by positivity), min_le_right _ _⟩
  · exact ⟨hlow, hhigh⟩

/-- **A bucket that was just asked is within its bounds, and not full** unless it has no size. -/
theorem Bounded.taken (hs : Bounded cfg key s) :
    (0 ≤ (s.taken asU64 cfg key).2.tokens ∧
      (s.taken asU64 cfg key).2.tokens ≤ cfg.burst key * 1000) ∧
      (cfg.burst key ≠ 0 → (s.taken asU64 cfg key).2.isFull (cfg.burst key * 1000) = false) := by
  have hr := hs.refilled asU64
  simp only at hr
  obtain ⟨hlow, hhigh⟩ := hr
  rw [State.taken, TokenBucket.tryTake, takeOneToken]
  by_cases htoken : 1000 ≤
      ((s.found cfg key).refilled asU64 s.nowMs (cfg.rate key) (cfg.burst key * 1000)).tokens
  · rw [if_pos htoken]
    refine ⟨⟨by simpa using htoken, by simpa using by linarith⟩, fun _ => ?_⟩
    exact decide_eq_false (by simpa using by linarith)
  · rw [if_neg htoken]
    refine ⟨⟨hlow, hhigh⟩, fun hburst => decide_eq_false (not_le.mpr ?_)⟩
    have hone : (1 : ℚ) ≤ cfg.burst key := by exact_mod_cast Nat.one_le_iff_ne_zero.mpr hburst
    linarith

theorem Bounded.step (hs : Bounded cfg key s) (e : Event I S) :
    Bounded cfg key (s.step asU64 cfg e) := by
  intro b hb
  by_cases hasked : e = .check key ∧ 0 < cfg.rate key ∧ s.limiter.noRoom key = false
  · obtain ⟨rfl, hrate, hroom⟩ := hasked
    simp only [State.step, (checked_of_room asU64 cfg s hrate hroom).2, if_true] at hb
    obtain rfl := Option.some.inj hb
    exact hs.taken.1
  · have hcases := bucket_step asU64 cfg s key e fun he => by
      by_contra hnot
      simp only [not_or, not_le, Bool.not_eq_true] at hnot
      exact hasked ⟨he, hnot⟩
    rcases hcases with hsame | ⟨-, hmade⟩ | ⟨hgone, -⟩
    · exact hs b (hsame ▸ hb)
    · rw [hmade] at hb
      obtain rfl := Option.some.inj hb
      exact ⟨by simp [Limiter.fullBucket, TokenBucket.full], le_rfl⟩
    · rw [hgone] at hb
      cases hb

theorem Bounded.run (hs : Bounded cfg key s) (events : List (Event I S)) :
    Bounded cfg key (s.run asU64 cfg events) := by
  induction events generalizing s with
  | nil => exact hs
  | cons e events ih => exact ih (hs.step e)

theorem bucket_start (key : Key I S) : (start : State I S).limiter.bucket key = none := by
  cases key <;> rfl

theorem bounded_run (events : List (Event I S)) :
    Bounded cfg key (State.start.run asU64 cfg events) := by
  refine Bounded.run (fun b hb => ?_) events
  rw [bucket_start] at hb
  cases hb

/-! ## Full buckets and requests -/

theorem isFull_run {events : List (Event I S)} (hs : ∀ b, s.limiter.bucket key = some b →
      b.isFull (cfg.burst key * 1000) = true)
    (h : cfg.rate key ≤ 0 ∨ .check key ∉ events) :
    ∀ b, (s.run asU64 cfg events).limiter.bucket key = some b →
      b.isFull (cfg.burst key * 1000) = true := by
  induction events generalizing s with
  | nil => exact hs
  | cons e events ih =>
    refine ih (fun b hb => ?_) (h.imp_right fun hnot hmem => hnot (by simp [hmem]))
    have hcases := bucket_step asU64 cfg s key e fun he =>
      .inl (h.resolve_right fun hnot => hnot (by simp [he]))
    rcases hcases with hsame | ⟨-, hmade⟩ | ⟨hgone, -⟩
    · exact hs b (hsame ▸ hb)
    · rw [hmade] at hb
      obtain rfl := Option.some.inj hb
      exact decide_eq_true le_rfl
    · rw [hgone] at hb
      cases hb

/-- **A bucket that is full was not asked since it was made**, if requests are limited and it has a
size. -/
theorem unasked_of_isFull (hrate : 0 < cfg.rate key) (hburst : cfg.burst key ≠ 0)
    (events : List (Event I S)) {b : TokenBucket}
    (hb : (State.start.run asU64 cfg events).limiter.bucket key = some b)
    (hfull : b.isFull (cfg.burst key * 1000) = true) : Unasked asU64 cfg key events := by
  induction events using List.reverseRecOn generalizing b with
  | nil =>
    rw [show (State.start.run asU64 cfg []) = (start : State I S) from rfl, bucket_start] at hb
    cases hb
  | append_singleton events e ih =>
    rw [run_concat] at hb
    -- a request would have left the bucket below its burst
    have hasked : ¬ (e = .check key ∧
        (State.start.run asU64 cfg events).limiter.noRoom key = false) := by
      rintro ⟨rfl, hroom⟩
      simp only [State.step, (checked_of_room asU64 cfg _ hrate hroom).2, if_true] at hb
      obtain rfl := Option.some.inj hb
      rw [(bounded_run events).taken.2 hburst] at hfull
      cases hfull
    by_cases hnone : (State.start.run asU64 cfg events).limiter.bucket key = none
    · refine ⟨events, [e], rfl, hnone, fun hmem => ?_⟩
      have he : e = .check key := (List.mem_singleton.mp hmem).symm
      have hroom : (State.start.run asU64 cfg events).limiter.noRoom key = true := by
        simpa [he] using hasked
      subst he
      simp only [State.step, checked_of_noRoom asU64 cfg _ hrate hroom, hnone] at hb
      cases hb
    · have hcases := bucket_step asU64 cfg (State.start.run asU64 cfg events) key e
        fun he => .inr (by simpa [he] using hasked)
      rcases hcases with hsame | ⟨hno, -⟩ | ⟨hgone, -⟩
      · obtain ⟨before, after, rfl, hstart, hnot⟩ := ih (hsame ▸ hb) hfull
        refine ⟨before, after ++ [e], by simp, hstart, fun hmem => ?_⟩
        rcases List.mem_append.mp hmem with hmem | hmem
        · exact hnot hmem
        · have he : e = .check key := (List.mem_singleton.mp hmem).symm
          have hroom : (State.start.run asU64 cfg (before ++ after)).limiter.noRoom key = true := by
            simpa [he] using hasked
          -- without room there is no entry
          cases key with
          | ip ip =>
            rw [Limiter.noRoom, Bool.and_eq_true, Option.isNone_iff_eq_none] at hroom
            exact hnone (by rw [Limiter.bucket, hroom.1, Option.map_none])
          | site site =>
            rw [Limiter.noRoom, Bool.and_eq_true, Option.isNone_iff_eq_none] at hroom
            exact hnone hroom.1
      · exact absurd hno hnone
      · rw [hgone] at hb
        cases hb

/-- A bucket is full exactly if nothing hides that its key is idle. -/
theorem isFull_iff_visible (events : List (Event I S)) {b : TokenBucket}
    (hb : (State.start.run asU64 cfg events).limiter.bucket key = some b) :
    b.isFull (cfg.burst key * 1000) = true ↔ Visible asU64 cfg key events := by
  constructor
  · intro hfull
    by_cases hburst : cfg.burst key = 0
    · exact .inl hburst
    · by_cases hrate : cfg.rate key ≤ 0
      · exact .inr (.inl hrate)
      · exact .inr (.inr (unasked_of_isFull (not_le.mp hrate) hburst events hb hfull))
  · rintro (hburst | hrate | ⟨before, after, rfl, hnone, hnot⟩)
    · have hlow := (bounded_run events b hb).1
      exact decide_eq_true (by simpa [hburst] using hlow)
    · refine isFull_run (fun b hb => ?_) (.inl hrate) b hb
      rw [bucket_start] at hb
      cases hb
    · rw [run_append] at hb
      refine isFull_run (fun b hb => ?_) (.inr hnot) b hb
      rw [hnone] at hb
      cases hb

/-! ## Places in the tables -/

theorem active_of_not_idle (hsome : (s.limiter.bucket key).isSome) (h : ¬ s.Idle cfg key) :
    s.Active cfg key := by
  by_cases hconn : s.Disconnected key
  · exact .inr (lt_of_le_of_ne (s.level_le cfg key) fun hlevel => h ⟨hsome, hconn, hlevel⟩)
  · exact .inl hconn

/-- What is still tracked after a sweep was tracked before. -/
theorem isSome_of_cleanupStale (h : ((s.limiter.cleanupStale cfg).bucket key).isSome) :
    (s.limiter.bucket key).isSome := by
  rcases s.limiter.bucket_cleanupStale cfg key with hsame | ⟨hgone, -⟩
  · rwa [hsame] at h
  · rw [hgone] at h
    cases h

end State

/-- **When an idle entry is reclaimed.**  In every history, a sweep removes the entry of a key that
is idle exactly if nothing hides this: its burst is zero, its requests are not limited, or it has
sent none since its entry was made.  If this is so for every idle key, then after a sweep someone is
refused for lack of a place only while as many IPs, or sites, are active as there are places. -/
theorem cleanupStale_reclaims (asU64 : ℚ → ℚ) (cfg : ResolvedLimits) (events : List (Event I S)) :
    let s : State I S := State.start.run asU64 cfg events
    let swept := s.limiter.cleanupStale cfg
    (∀ key, s.Idle cfg key →
      (swept.bucket key = none ↔ State.Visible asU64 cfg key events)) ∧
      ((∀ key, s.Idle cfg key → State.Visible asU64 cfg key events) →
        (∀ ip, swept.noRoom (.ip ip) = true → ∃ active : List I,
          active.Nodup ∧ maxTrackedIps ≤ active.length ∧ ∀ a ∈ active, s.Active cfg (.ip a)) ∧
        ∀ key, swept.noRoom (.site key) = true → ∃ active : List S,
          active.Nodup ∧ maxTrackedSites ≤ active.length ∧
            ∀ a ∈ active, s.Active cfg (.site a)) := by
  intro s swept
  have hexact : s.Exact cfg := State.Exact.start.run asU64 events
  have hiff : ∀ key, s.Idle cfg key →
      (swept.bucket key = none ↔ State.Visible asU64 cfg key events) := by
    rintro key ⟨hsome, hconn, -⟩
    obtain ⟨b, hb⟩ := Option.isSome_iff_exists.mp hsome
    rw [State.cleanupStale_bucket_eq_none_iff hexact hconn hb, State.isFull_iff_visible events hb]
  refine ⟨hiff, fun hvisible => ?_⟩
  have hactive : ∀ key, (swept.bucket key).isSome → s.Active cfg key := by
    intro key hsome
    refine State.active_of_not_idle (State.isSome_of_cleanupStale hsome) fun hidle => ?_
    rw [(hiff key hidle).mpr (hvisible key hidle)] at hsome
    cases hsome
  refine ⟨fun ip hroom => ⟨swept.perIp.entries.map Prod.fst, swept.perIp.nodup, ?_, fun a ha => ?_⟩,
    fun key hroom => ⟨swept.perSite.entries.map Prod.fst, swept.perSite.nodup, ?_, fun a ha => ?_⟩⟩
  · rw [Limiter.noRoom, Bool.and_eq_true, decide_eq_true_eq] at hroom
    simpa [Assoc.len] using hroom.2
  · refine hactive (.ip a) ?_
    rw [Limiter.bucket, Option.isSome_map]
    exact Option.isSome_iff_ne_none.mpr fun hnone => Assoc.get_eq_none_iff.mp hnone ha
  · rw [Limiter.noRoom, Bool.and_eq_true, decide_eq_true_eq] at hroom
    simpa [Assoc.len] using hroom.2
  · refine hactive (.site a) ?_
    exact Option.isSome_iff_ne_none.mpr fun hnone => Assoc.get_eq_none_iff.mp hnone ha

/-- One request a second and a bucket of one token: a client that sends one request and stays away
for a minute is idle, and its entry is not swept. -/
theorem idle_entry_kept :
    let cfg : ResolvedLimits := ⟨0, 0, 1, 1, 0, 0⟩
    let key : Key ℕ ℕ := .ip 7
    let s : State ℕ ℕ := State.start.run truncate cfg [.check key, .wait 60000]
    s.Idle cfg key ∧ (s.limiter.cleanupStale cfg).bucket key = some ⟨0, 0⟩ := by
  intro cfg key s
  have hguards : s.guards = [] := by decide +kernel
  refine ⟨⟨by decide +kernel, fun guard hguard => ?_, by decide +kernel⟩, by decide +kernel⟩
  rw [hguards] at hguard
  cases hguard

end Ephpm.Server.RateLimit
