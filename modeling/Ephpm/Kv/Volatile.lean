import Ephpm.Kv.Completeness

/-!
# Eviction under `volatile-lru`

The policy samples its candidates from the TTL index, so a candidate names a string
with an expiry — when it is sampled.  The pool of candidates outlives the call that
filled it, and in between `PERSIST` or a `SET` without a TTL may take the expiry away;
`evictVictim` does not look again.  `persisted_string_evicted` is such a run.

What does hold is `evictions_volatile`: as long as no candidate in the pool names a
string that has lost its expiry when an operation starts, every string that is evicted
has an expiry at that moment, and no hash ever is.  The argument has two halves.

* `Ready` is what eviction relies on: the pool names no hash and no string without an
  expiry.  Making room keeps it, and whatever it evicts then is volatile
  (`ensureMemory_ready`).
* Every operation makes its room **before** it can take an expiry away: what it does
  early keeps the pool ready (`Change.ready`), what it does late leaves history and
  pool alone (`Change.quiet`).
-/

namespace Ephpm.Kv

open Lib

/-- The event is not the eviction of a hash or of a string without an expiry. -/
def Event.Volatile : Event → Prop
  | .clamped => True
  | .evictedString _ expiresAt => expiresAt.isSome = true
  | .evictedHash _ => False

namespace Store

/-! ## The pool -/

/-- No candidate in the pool names a string that has no expiry. -/
def PoolTimed (s : Store) : Prop :=
  ∀ victim ∈ s.evictionPool, victim.hash = false →
    ∀ e ∈ s.data.get victim.key, e.expiresAt.isSome = true

instance (s : Store) : Decidable s.PoolTimed :=
  inferInstanceAs (Decidable (∀ victim ∈ s.evictionPool, victim.hash = false →
    ∀ e ∈ s.data.get victim.key, e.expiresAt.isSome = true))

/-- No candidate in the pool is a hash. -/
def PoolStrings (s : Store) : Prop := ∀ victim ∈ s.evictionPool, victim.hash = false

/-- What eviction under `volatile-lru` relies on. -/
structure Ready [Platform] (s : Store) : Prop where
  inv : Inv s
  policy : s.config.evictionPolicy = .volatileLru
  strings : s.PoolStrings
  timed : s.PoolTimed

/-- The evictions on record since `s` took volatile strings only. -/
def VolatileSince (s s' : Store) : Prop :=
  ∃ new, s'.events = new ++ s.events ∧ ∀ event ∈ new, event.Volatile

/-- History and pool are the same. -/
structure Quiet (s s' : Store) : Prop where
  events : s'.events = s.events
  pool : s'.evictionPool = s.evictionPool

/-- History and pool are the same and no string has lost its expiry. -/
structure Calm (s s' : Store) : Prop extends Quiet s s' where
  config : s'.config = s.config
  timed : ∀ key e', s'.data.get key = some e' → e'.expiresAt = none →
    ∃ e, s.data.get key = some e ∧ e.expiresAt = none

section Relations

variable {s s' s'' : Store}

theorem VolatileSince.refl (s : Store) : VolatileSince s s := ⟨[], rfl, fun _ mem => by cases mem⟩

/-- What was evicted in two stretches was evicted in one of them. -/
theorem VolatileSince.trans (h : VolatileSince s s') (h' : VolatileSince s' s'') :
    VolatileSince s s'' := by
  obtain ⟨first, hfirst, hvolatile⟩ := h
  obtain ⟨second, hsecond, hvolatile'⟩ := h'
  refine ⟨second ++ first, by rw [hsecond, hfirst, List.append_assoc], fun event mem => ?_⟩
  rcases List.mem_append.mp mem with hnew | hold
  · exact hvolatile' event hnew
  · exact hvolatile event hold

theorem Quiet.refl (s : Store) : Quiet s s := ⟨rfl, rfl⟩

theorem Quiet.trans (h : Quiet s s') (h' : Quiet s' s'') : Quiet s s'' :=
  ⟨h'.events.trans h.events, h'.pool.trans h.pool⟩

/-- Where nothing is evicted, nothing was that had no expiry. -/
theorem Quiet.volatileSince (h : Quiet s s') : VolatileSince s s' :=
  ⟨[], h.events, fun _ mem => by cases mem⟩

/-- The pool is the same, so it still names strings only. -/
theorem Quiet.strings (h : Quiet s s') (hstrings : s.PoolStrings) : s'.PoolStrings := by
  rw [PoolStrings, h.pool]
  exact hstrings

theorem Calm.refl (s : Store) : Calm s s :=
  { Quiet.refl s with
    config := rfl
    timed := fun _ e' hget hnone => ⟨e', hget, hnone⟩ }

/-- Calm changes add up. -/
theorem Calm.trans (h : Calm s s') (h' : Calm s' s'') : Calm s s'' :=
  { h.toQuiet.trans h'.toQuiet with
    config := h'.config.trans h.config
    timed := fun key e'' hget hnone => by
      obtain ⟨e', hget', hnone'⟩ := h'.timed key e'' hget hnone
      exact h.timed key e' hget' hnone' }

/-- A calm change leaves eviction what it relies on. -/
theorem Calm.ready [Platform] (h : Calm s s') (ready : Ready s) (inv : Inv s') : Ready s' where
  inv := inv
  policy := by rw [h.config, ready.policy]
  strings := h.toQuiet.strings ready.strings
  timed victim mem hkind e' hget := by
    by_contra htimed
    rw [Bool.not_eq_true, Option.isSome_eq_false_iff, Option.isNone_iff_eq_none] at htimed
    obtain ⟨e, hold, hnone⟩ := h.timed victim.key e' hget htimed
    have hsome := ready.timed victim (h.pool ▸ mem) hkind e hold
    rw [hnone] at hsome
    cases hsome

end Relations

/-! ## What the elementary changes leave alone -/

section Elementary

variable (s : Store) (key : String)

/-- A write evicts nothing. -/
theorem writeString_quiet (entry : Option Entry) : Quiet s (s.writeString key entry) :=
  ⟨by simp, by simp⟩

theorem wake_calm (changed : Bool) : Calm s (s.wake changed key) :=
  ⟨⟨by simp, by simp⟩, by simp, fun _ e' hget hnone => ⟨e', by simpa using hget, hnone⟩⟩

theorem notifyWrite_calm : Calm s (s.notifyWrite key) := s.wake_calm key true

/-- Strings keep their expiries when a hash is put. -/
theorem putHash_calm (entry : Option HashEntry) (hint : Option Instant) :
    Calm s (s.putHash key entry hint) :=
  ⟨⟨rfl, rfl⟩, rfl, fun _ e' hget hnone => ⟨e', hget, hnone⟩⟩

/-- A reap of a hash is calm. -/
theorem reaped_calm (now : Instant) (h : HashEntry) : Calm s (s.reaped now key h) :=
  (s.putHash_calm key _ _).trans (wake_calm _ key _)

/-- A string that is gone has lost no expiry. -/
theorem removeString_calm : Calm s (s.writeString key none) := by
  refine ⟨s.writeString_quiet key none, by simp, fun other e' hget hnone => ?_⟩
  rw [writeString_data, BucketMap.get_set] at hget
  split at hget
  · cases hget
  · exact ⟨e', hget, hnone⟩

variable {s key}

/-- Another deadline is calm, unless it takes the expiry away. -/
theorem putString_calm {e e' : Entry} (hget : s.data.get key = some e)
    (htimed : e'.expiresAt = none → e.expiresAt = none) : Calm s (s.putString key (some e')) := by
  refine ⟨⟨rfl, rfl⟩, rfl, fun other e'' hother hnone => ?_⟩
  simp only [putString, BucketMap.get_set] at hother
  split at hother
  next heq =>
    obtain rfl := Option.some.inj hother
    exact ⟨e, heq ▸ hget, htimed hnone⟩
  next => exact ⟨e'', hother, hnone⟩

/-- A reap is calm. -/
theorem ReapStep.calm {now : Instant} {s' : Store} (step : ReapStep now s s') : Calm s s' := by
  cases step with
  | string hget hexp => exact removeString_calm _ _
  | hash hget => exact reaped_calm _ _ _ _
  | advance _ _ _ => exact ⟨⟨rfl, rfl⟩, rfl, fun _ e' hget hnone => ⟨e', hget, hnone⟩⟩

/-- Reaping is calm. -/
theorem Reaps.calm {now : Instant} {s' : Store} (reaps : Reaps now s s') : Calm s s' := by
  induction reaps with
  | refl => exact Calm.refl s
  | tail _ step ih => exact ih.trans step.calm

/-- Reading is calm. -/
theorem ReadStep.calm {now : Instant} {s' : Store} (step : ReadStep now s s') : Calm s s' := by
  cases step with
  | reap step => exact step.calm
  | touchString _ hget => exact putString_calm hget id
  | touchHash _ hget => exact putHash_calm _ _ _ _
  | watch hget =>
    rw [watchSlot, hget]
    exact ⟨⟨rfl, rfl⟩, rfl, fun _ e' hget hnone => ⟨e', hget, hnone⟩⟩

end Elementary

/-! ## Making room -/

section Room

variable [P : Platform] {s : Store} {now : Instant}

/-- A candidate whose eviction is volatile. -/
def TimedVictim (s : Store) (key : String) (hash : Bool) : Prop :=
  hash = false ∧ ∀ e ∈ s.data.get key, e.expiresAt.isSome = true

/-- Picking a victim keeps what eviction relies on, and the victim is volatile. -/
theorem nextVictim_ready (ready : Ready s) (now : Instant) :
    Ready (s.nextVictim now).2 ∧ (s.nextVictim now).2.events = s.events ∧
      ∀ v, (s.nextVictim now).1 = some v → (s.nextVictim now).2.TimedVictim v.key v.hash := by
  obtain ⟨hpool, hvictim⟩ := nextVictim_forall now ready.inv ready.policy (p := s.TimedVictim)
    (fun v mem => ⟨ready.strings v mem, ready.timed v mem (ready.strings v mem)⟩)
    fun key e hget hexpires => ⟨rfl, fun e' hget' => by
      obtain rfl := Option.some.inj (hget.symm.trans hget')
      exact hexpires⟩
  obtain ⟨rng, pool, hsame⟩ := nextVictim_reseed now (s := s)
  rw [hsame] at hpool ⊢
  refine ⟨?_, rfl, hvictim⟩
  exact
    { inv := { ready.inv with }
      policy := ready.policy
      strings := fun v mem => (hpool v mem).1
      timed := fun v mem _ => (hpool v mem).2 }

/-- Evicting a victim with an expiry leaves the pool ready. -/
theorem evictVictim_ready (ready : Ready s) {victim : Victim}
    (htimed : s.TimedVictim victim.key victim.hash) :
    Ready (s.evictVictim victim).2 ∧ VolatileSince s (s.evictVictim victim).2 := by
  rw [evictVictim_eq ready.inv, htimed.1]
  simp only [Bool.false_eq_true, if_false]
  cases hget : s.data.get victim.key with
  | none => exact ⟨ready, VolatileSince.refl s⟩
  | some e =>
    have hrecord : Ready (s.record (.evictedString victim.key e.expiresAt)) :=
      { inv := ready.inv.record (by simp)
        policy := ready.policy
        strings := ready.strings
        timed := ready.timed }
    refine ⟨(removeString_calm _ _).ready hrecord (hrecord.inv.writeString _ nofun), ?_⟩
    refine ⟨[.evictedString victim.key e.expiresAt], by simp [record], fun event mem => ?_⟩
    obtain rfl := List.mem_singleton.mp mem
    exact htimed.2 e hget

/-- The eviction loop evicts nothing else. -/
theorem evictLoop_ready (ready : Ready s) (now : Instant) (needed giveUpAfter fuel freed misses : ℕ) :
    Ready (evictLoop now needed giveUpAfter fuel freed misses s).2 ∧
      VolatileSince s (evictLoop now needed giveUpAfter fuel freed misses s).2 := by
  induction fuel generalizing s freed misses with
  | zero => exact ⟨ready, VolatileSince.refl s⟩
  | succ fuel ih =>
    obtain ⟨hpicked, hevents, hvictim⟩ := nextVictim_ready ready now
    have hsince : VolatileSince s (s.nextVictim now).2 := ⟨[], hevents, nofun⟩
    rw [evictLoop]
    split
    · exact ⟨ready, VolatileSince.refl s⟩
    · split
      · exact ⟨ready, VolatileSince.refl s⟩
      · simp only
        split
        · exact ⟨hpicked, hsince⟩
        next victim hpick =>
          obtain ⟨hevicted, hmore⟩ := evictVictim_ready hpicked (hvictim victim hpick)
          split
          · obtain ⟨hlast, hrest⟩ := ih hevicted _ 0
            exact ⟨hlast, (hsince.trans hmore).trans hrest⟩
          · obtain ⟨hlast, hrest⟩ := ih hevicted freed _
            exact ⟨hlast, (hsince.trans hmore).trans hrest⟩

/-- **Making room under `volatile-lru` evicts volatile strings only**, and leaves the
pool fit for the next time. -/
theorem ensureMemory_ready (ready : Ready s) (now : Instant) (needed : ℕ) :
    Ready (s.ensureMemory now needed).2 ∧ VolatileSince s (s.ensureMemory now needed).2 := by
  have hreclaim : Reaps now s (s.reclaimExpiredFor now needed) :=
    reclaimExpiredFor_reaps ready.inv needed
  have hready : Ready (s.reclaimExpiredFor now needed) :=
    hreclaim.calm.ready ready (hreclaim.inv ready.inv)
  have hsince : VolatileSince s (s.reclaimExpiredFor now needed) :=
    hreclaim.calm.toQuiet.volatileSince
  unfold ensureMemory
  split
  · exact ⟨ready, VolatileSince.refl s⟩
  · simp only
    split
    · exact ⟨hready, hsince⟩
    · split
      · exact ⟨hready, hsince⟩
      · unfold evict
        simp only
        split
        · exact ⟨hready, hsince⟩
        · obtain ⟨hlast, hrest⟩ := evictLoop_ready hready now needed _ _ 0 0
          exact ⟨hlast, hsince.trans hrest⟩

end Room

/-! ## Operations -/

section Scripts

variable [P : Platform] {s s' : Store} {now : Instant}

/-- **An early change keeps what eviction relies on**, and what it evicts is volatile. -/
theorem Change.ready (change : Change now .early s s') (ready : Ready s) :
    Ready s' ∧ VolatileSince s s' := by
  have calm (h : Calm s s') : Ready s' ∧ VolatileSince s s' :=
    ⟨h.ready ready (change.inv ready.inv), h.toQuiet.volatileSince⟩
  cases change with
  | string change =>
    cases change with
    | room needed => exact ensureMemory_ready ready now needed
    | remove => exact calm (removeString_calm s _)
    | retime hget _ _ _ htimed => exact calm (putString_calm hget (htimed rfl))
  | read step => exact calm step.calm
  | hash _ _ _ => exact calm (s.putHash_calm _ _ _)
  | notify key => exact calm (s.notifyWrite_calm key)

/-- **A late change leaves history and pool alone.** -/
theorem Change.quiet (change : Change now .late s s') : Quiet s s' := by
  cases change with
  | string change =>
    cases change with
    | remove => exact s.writeString_quiet _ none
    | retime _ _ _ _ _ => exact ⟨rfl, rfl⟩
    | write _ => exact s.writeString_quiet _ _
  | read step => exact step.calm.toQuiet
  | hash _ _ _ => exact ⟨rfl, rfl⟩
  | notify key => exact (s.notifyWrite_calm key).toQuiet
  | flush => exact ⟨rfl, rfl⟩
  | shrink => exact ⟨rfl, rfl⟩

/-- **Every operation makes its room first**: under what eviction relies on, and the rest leaves
history and pool alone. -/
theorem step_guarded (ready : Ready s) (now : Instant) (op : Op) :
    ∃ middle, Ready middle ∧ VolatileSince s middle ∧ Quiet middle (s.step now op).2 := by
  obtain ⟨middle, early, late⟩ := step_script ready.inv now op
  have hstep : ∀ a b, Ready a ∧ VolatileSince s a → Change now .early a b →
      Ready b ∧ VolatileSince s b := by
    rintro a b ⟨hready, hsince⟩ change
    obtain ⟨hready', hmore⟩ := change.ready hready
    exact ⟨hready', hsince.trans hmore⟩
  have along {a b : Store} (late : Path (Change now .late) a b) : Quiet a b := by
    induction late with
    | refl => exact Quiet.refl a
    | tail _ change ih => exact ih.trans change.quiet
  obtain ⟨hready, hsince⟩ := Path.preserves hstep early ⟨ready, VolatileSince.refl s⟩
  exact ⟨middle, hready, hsince, along late⟩

end Scripts

/-- **`volatile-lru` evicts volatile strings only**, in every run at each of whose steps
no candidate in the pool names a string that has lost its expiry. -/
theorem evictions_volatile [Platform] (s : Store) (hnew : s.IsNew)
    (hpolicy : s.config.evictionPolicy = .volatileLru) (ops : List (Instant × Op))
    (hops : Along (fun _ _ t => t.PoolTimed) ops s) (n : ℕ) :
    ∀ event ∈ (s.runState (ops.take n)).events, event.Volatile := by
  have hempty : s.evictionPool = [] := hnew.2.2.2.2.2.2.2.1
  have hnone : s.events = [] := hnew.2.2.2.2.2.2.2.2.2.2
  have hall := hops.holds
    (fun t => Inv t ∧ t.config = s.config ∧ t.PoolStrings ∧ ∀ event ∈ t.events, event.Volatile)
    (fun t now op ⟨inv, hconfig, hstrings, hevents⟩ htimed => by
      have hmoves := step_moves inv now op
      have ready : Ready t := ⟨inv, by rw [hconfig, hpolicy], hstrings, htimed⟩
      obtain ⟨middle, hready, ⟨new, hnew', hvolatile⟩, hquiet⟩ := step_guarded ready now op
      refine ⟨Moves.inv hmoves inv, (Moves.config hmoves).trans hconfig,
        hquiet.strings hready.strings, fun event mem => ?_⟩
      rw [hquiet.events, hnew'] at mem
      rcases List.mem_append.mp mem with hlast | hold
      · exact hvolatile event hlast
      · exact hevents event hold)
    ⟨hnew.inv, rfl, by rw [PoolStrings, hempty]; exact nofun, by rw [hnone]; exact nofun⟩ n
  exact hall.2.2.2

/-- Two volatile strings are evicted to let a third and a fourth in. -/
theorem evictions_volatile_sample :
    letI := Platform.small
    let s := new ⟨450, .volatileLru, CompressionConfig.default⟩
    let ops : List (Instant × Op) := [(0, .set "a" [1] (some 90)), (1, .set "b" [1] (some 90)),
      (2, .set "c" [1] (some 90)), (4, .set "d" [1] (some 90))]
    (s.runState ops).events = [.evictedString "b" (some 91), .evictedString "a" (some 90)] ∧
      ∀ event ∈ (s.runState (ops.take 4)).events, event.Volatile := by
  let _ := Platform.small
  have hops : Along (fun _ _ t => t.PoolTimed)
      [(0, .set "a" [1] (some 90)), (1, .set "b" [1] (some 90)), (2, .set "c" [1] (some 90)),
        (4, .set "d" [1] (some 90))] (new ⟨450, .volatileLru, CompressionConfig.default⟩) := by
    refine ⟨?_, ?_, ?_, ?_, trivial⟩ <;> decide
  exact ⟨by decide, evictions_volatile (new ⟨450, .volatileLru, CompressionConfig.default⟩)
    (new_isNew _) rfl _ hops 4⟩

/-- **A persisted string can be evicted**: `PERSIST` leaves its candidate in the pool. -/
theorem persisted_string_evicted :
    letI := Platform.small
    ¬ ∀ (s : Store) (ops : List (Instant × Op)), s.IsNew →
        s.config.evictionPolicy = .volatileLru →
          ∀ event ∈ (s.runState ops).events, event.Volatile := by
  let _ := Platform.small
  intro hclaim
  have hvolatile := hclaim (new ⟨450, .volatileLru, CompressionConfig.default⟩)
    [(0, .set "a" [1] (some 90)), (1, .set "b" [1] (some 90)), (2, .set "c" [1] (some 90)),
      (3, .persist "b"), (4, .set "d" [1] (some 90))] (new_isNew _) rfl
    (.evictedString "b" none) (by decide)
  cases hvolatile

end Store

end Ephpm.Kv
