import Ephpm.Kv.NormalForm
import Ephpm.Lib.Path

/-!
# What making room can do

Reserving memory runs rounds of active expiry and an eviction loop over sampled
candidates.  Whatever they sample and however often they go round, each of their
turns is one of a handful of changes: an expired string is reaped, a hash is
reaped, a string or a hash is evicted, or only the sampling state moves.
`ReapStep` and `RoomStep` list them; `expireRound_reaps`, `ensureMemory_room` and
their relatives say that nothing else happens.

What a client needs to know about making room follows from the list, one case
each:

* the invariant holds throughout (`Room.inv`),
* a string that is gone had expired or its eviction is on record, and what a
  reader sees of a hash changes only by an eviction that is on record
  (`Room.spared`, which also says that the counter never goes up),
* a reservation that fits is granted as it is (`ensureMemory_of_fits`), and the
  eviction loop ends by itself (`evictLoop_ends`).
-/

namespace Ephpm.Kv

open Lib

namespace Store

/-- The store with other sampling state. -/
def resample (s : Store) (hashExpireCursor expireCursor : ℕ) (rng : UInt64)
    (evictionPool : List Victim) (budgets : ℕ → ℕ) : Store :=
  { s with
    hashExpireCursor := hashExpireCursor
    expireCursor := expireCursor
    rng := rng
    evictionPool := evictionPool
    budgets := budgets }

/-- The store with one more event in its history. -/
def record (s : Store) (event : Event) : Store := { s with events := event :: s.events }

/-- A hash after a reap at `now`. -/
def reaped (now : Instant) (key : String) (h : HashEntry) (s : Store) : Store :=
  let left := settled now h
  (s.putHash key left (left.bind HashEntry.earliestDeadline)).wake (losesSome now h) key

/-- One change that active expiry can make: it reaps, or its cursors and budgets
move. -/
inductive ReapStep (now : Instant) : Store → Store → Prop
  | string {s : Store} {key : String} {e : Entry} :
      s.data.get key = some e → e.isExpired now = true →
        ReapStep now s (s.writeString key none)
  | hash {s : Store} {key : String} {h : HashEntry} :
      s.hashes.get key = some h → ReapStep now s (s.reaped now key h)
  | advance {s : Store} (hashExpireCursor expireCursor : ℕ) (budgets : ℕ → ℕ) :
        ReapStep now s
          (s.resample hashExpireCursor expireCursor s.rng s.evictionPool budgets)

/-- Any number of those changes. -/
abbrev Reaps (now : Instant) : Store → Store → Prop := Path (ReapStep now)

/-- One change that making room can make: active expiry, an eviction, or a move of
the sampling state. -/
inductive RoomStep (now : Instant) : Store → Store → Prop
  | reap {s s' : Store} : ReapStep now s s' → RoomStep now s s'
  | evictString {s : Store} {key : String} {e : Entry} :
      s.data.get key = some e →
        RoomStep now s ((s.record (.evictedString key e.expiresAt)).writeString key none)
  | evictHash {s : Store} {key : String} {h : HashEntry} :
      s.hashes.get key = some h →
        RoomStep now s
          (((s.record (.evictedHash key)).putHash key none none).notifyWrite key)
  | sample {s : Store} (rng : UInt64) (evictionPool : List Victim) :
        RoomStep now s
          (s.resample s.hashExpireCursor s.expireCursor rng evictionPool s.budgets)

/-- Any number of those changes. -/
abbrev Room (now : Instant) : Store → Store → Prop := Path (RoomStep now)

/-- Reaping is one way to make room. -/
theorem Reaps.room {now : Instant} {s s' : Store} (reaps : Reaps now s s') : Room now s s' :=
  Relation.ReflTransGen.mono (fun _ _ step => RoomStep.reap step) _ _ reaps

section Steps

variable [P : Platform] {now : Instant} {s s' : Store}

/-! ## The invariant -/

omit P in
/-- What a reap leaves of a hash is charged right. -/
theorem settled_charged {key : String} {h left : HashEntry} (charged : h.Charged key)
    (hleft : settled now h = some left) : left.Charged key := by
  unfold settled at hleft
  split at hleft
  · cases hleft
  · split at hleft
    · cases hleft
    · obtain rfl := Option.some.inj hleft
      exact charged.purgeExpiredFields now

/-- The hint a reaped hash is left with is its own earliest deadline. -/
theorem Inv.reaped (inv : Inv s) {key : String} {h : HashEntry}
    (hget : s.hashes.get key = some h) : Inv (s.reaped now key h) := by
  refine (inv.putHash key ?_ ?_ ?_).wake _ key
  · intro left hleft
    exact settled_charged (inv.charged key h hget) hleft
  · intro left hleft
    rw [hleft, Option.bind_some]
    exact NotLater.refl _
  · intro hnone
    rw [hnone, Option.bind_none]

theorem Inv.record (inv : Inv s) {event : Event} (h : event ≠ .clamped) :
    Inv (s.record event) :=
  { inv with
    unclamped := by
      intro mem
      rcases List.mem_cons.mp mem with heq | hold
      · exact h heq.symm
      · exact inv.unclamped hold }

/-- Nothing depends on the state of the sampling. -/
theorem Inv.resample (inv : Inv s) (hashExpireCursor expireCursor : ℕ) (rng : UInt64)
    (evictionPool : List Victim) (budgets : ℕ → ℕ) :
    Inv (s.resample hashExpireCursor expireCursor rng evictionPool budgets) := { inv with }

/-- A reap keeps the invariant. -/
theorem ReapStep.inv (step : ReapStep now s s') (inv : Inv s) : Inv s' := by
  cases step with
  | string hget hexp => exact (inv.removeString _).notifyWrite _
  | hash hget => exact inv.reaped hget
  | advance _ _ _ => exact inv.resample _ _ _ _ _

/-- Reaping keeps the invariant. -/
theorem Reaps.inv (reaps : Reaps now s s') (inv : Inv s) : Inv s' :=
  Path.preserves (fun _ _ inv step => step.inv inv) reaps inv

/-- A step of making room keeps the invariant. -/
theorem RoomStep.inv (step : RoomStep now s s') (inv : Inv s) : Inv s' := by
  cases step with
  | reap step => exact step.inv inv
  | evictString hget => exact ((inv.record (by simp)).removeString _).notifyWrite _
  | evictHash hget => exact ((inv.record (by simp)).removeHash _).notifyWrite _
  | sample _ _ => exact inv.resample _ _ _ _ _

/-- Making room keeps the invariant. -/
theorem Room.inv (room : Room now s s') (inv : Inv s) : Inv s' :=
  Path.preserves (fun _ _ inv step => step.inv inv) room inv

/-! ## Active expiry only reaps -/

/-- A string whose hint is due is removed if it has expired. -/
theorem reapIfExpired_reaps (inv : Inv s) (key : String) {observed : Instant}
    (hdue : observed ≤ now) : Reaps now s (s.reapIfExpired key observed).2 := by
  rw [reapIfExpired_eq inv]
  split
  next hexp =>
    obtain ⟨e, hget, hobserved⟩ := Option.bind_eq_some_iff.mp hexp
    exact Relation.ReflTransGen.single
      (.string hget (Entry.isExpired_iff.mpr ⟨observed, hobserved, hdue⟩))
  next => exact .refl

/-- A reap settles the hash, if there is one. -/
theorem reapHash_snd (inv : Inv s) (key : String) :
    (s.reapHash now key).2 =
      match s.hashes.get key with
      | none => s
      | some h => s.reaped now key h := by
  rw [reapHash_eq inv]
  cases s.hashes.get key <;> rfl

/-- Reaping one hash is a reap. -/
theorem reapHash_reaps (inv : Inv s) (key : String) : Reaps now s (s.reapHash now key).2 := by
  rw [reapHash_snd inv]
  cases hget : s.hashes.get key with
  | none => exact .refl
  | some h => exact Relation.ReflTransGen.single (.hash hget)

/-- Following the hints of strings is a path of reaps. -/
theorem reapAll_reaps : ∀ (due : List (String × Instant)) {s : Store}, Inv s →
    (∀ hint ∈ due, hint.2 ≤ now) → Reaps now s (reapAll due s)
  | [], _, _, _ => .refl
  | (key, deadline) :: rest, s, inv, hdue => by
      have hfirst := reapIfExpired_reaps inv key (hdue _ List.mem_cons_self)
      exact hfirst.trans (reapAll_reaps rest (hfirst.inv inv)
        fun hint mem => hdue hint (List.mem_cons_of_mem _ mem))

/-- Following the hints of hashes is a path of reaps. -/
theorem reapHashes_reaps : ∀ (due : List String) {s : Store}, Inv s →
    Reaps now s (reapHashes now due s).2
  | [], _, _ => .refl
  | key :: rest, s, inv => by
      have hfirst : Reaps now s (s.reapHash now key).2 := reapHash_reaps inv key
      exact hfirst.trans (reapHashes_reaps rest (hfirst.inv inv))

/-- A round over the hashes only reaps. -/
theorem hashExpireRound_reaps (inv : Inv s) : Reaps now s (s.hashExpireRound now).2 := by
  unfold hashExpireRound
  split
  · exact .refl
  · have hmove : ReapStep now s _ := .advance
      (scanMap s.hashTtlKeys (MapCursor.unpack s.hashExpireCursor) expireSampleKeys).2.pack
      s.expireCursor s.budgets
    exact Relation.ReflTransGen.head hmove (reapHashes_reaps _ (hmove.inv inv))

/-- **A round of active expiry only reaps.** -/
theorem expireRound_reaps (inv : Inv s) : Reaps now s (s.expireRound now).2 := by
  have hmove : ReapStep now s _ := .advance s.hashExpireCursor
    (scanMap s.ttlKeys (MapCursor.unpack s.expireCursor) expireSampleKeys).2.pack s.budgets
  have hboth : Reaps now s (reapAll ((scanMap s.ttlKeys (MapCursor.unpack s.expireCursor)
      expireSampleKeys).1.filter fun hint => hint.2 ≤ now) _) :=
    .head hmove (reapAll_reaps _ (hmove.inv inv)
      fun hint mem => by simpa using (List.mem_filter.mp mem).2)
  exact hboth.trans (hashExpireRound_reaps (hboth.inv inv))

/-- Several rounds only reap. -/
theorem expireRounds_reaps : ∀ (rounds : ℕ) {s : Store}, Inv s →
    Reaps now s (expireRounds now rounds s).2
  | 0, _, inv => expireRound_reaps inv
  | rounds + 1, s, inv => by
      have hfirst : Reaps now s _ := expireRound_reaps inv
      rw [expireRounds]
      simp only
      split
      · exact hfirst.trans (expireRounds_reaps rounds (hfirst.inv inv))
      · exact hfirst

omit P in
theorem takeBudget_step : ReapStep now s s.takeBudget.2 :=
  .advance s.hashExpireCursor s.expireCursor fun n => s.budgets (n + 1)

/-- A cycle of active expiry only reaps. -/
theorem activeExpireRounds_reaps (inv : Inv s) : Reaps now s (s.activeExpireRounds now).2 := by
  have hmove : ReapStep now s s.takeBudget.2 := takeBudget_step
  exact .head hmove (expireRounds_reaps _ (hmove.inv inv))

/-- Rounds for memory only reap. -/
theorem reclaimRounds_reaps (needed : ℕ) : ∀ (rounds : ℕ) {s : Store}, Inv s →
    Reaps now s (reclaimRounds now needed rounds s)
  | 0, _, inv => expireRound_reaps inv
  | rounds + 1, s, inv => by
      have hfirst : Reaps now s _ := expireRound_reaps inv
      rw [reclaimRounds]
      split
      · exact hfirst
      · exact hfirst.trans (reclaimRounds_reaps needed rounds (hfirst.inv inv))

/-- Reclaiming what has expired only reaps. -/
theorem reclaimExpiredFor_reaps (inv : Inv s) (needed : ℕ) :
    Reaps now s (s.reclaimExpiredFor now needed) := by
  have hmove : ReapStep now s s.takeBudget.2 := takeBudget_step
  exact .head hmove (reclaimRounds_reaps needed _ (hmove.inv inv))

omit P in
/-- A reap evicts nothing. -/
theorem ReapStep.events (step : ReapStep now s s') : s'.events = s.events := by
  cases step with
  | string hget hexp => exact writeString_events _ _ _
  | hash hget => exact wake_events _ _ _
  | advance _ _ _ => rfl

/-! ## Eviction is a sequence of steps -/

/-- The store with the generator at another point. -/
def reseed (s : Store) (rng : UInt64) : Store := { s with rng := rng }

omit P in
/-- Drawing a cursor changes the generator only. -/
theorem randomCursor_reseed (rng : UInt64) :
    ∃ next, (s.reseed rng).randomCursor.2 = s.reseed next := ⟨_, rfl⟩

omit P in
/-- Drawing a victim changes the generator only. -/
theorem randomVictim_reseed : ∃ rng, s.randomVictim.2 = s.reseed rng := by
  obtain ⟨first, hfirst⟩ := randomCursor_reseed (s := s) s.rng
  obtain ⟨second, hsecond⟩ := randomCursor_reseed (s := s) first
  change s.randomCursor.2 = _ at hfirst
  unfold randomVictim
  simp only [hfirst, hsecond]
  split
  · exact ⟨first, rfl⟩
  · split <;> exact ⟨second, rfl⟩

omit P in
/-- Sampling candidates only moves the generator. -/
theorem sample_reseed (now : Instant) (volatileOnly : Bool) :
    ∃ rng, (if volatileOnly = true then s.sampleVolatile now
      else s.sampleAll now).2 = s.reseed rng := by
  obtain ⟨first, hfirst⟩ := randomCursor_reseed (s := s) s.rng
  obtain ⟨second, hsecond⟩ := randomCursor_reseed (s := s) first
  change s.randomCursor.2 = _ at hfirst
  split
  · exact ⟨first, hfirst⟩
  · refine ⟨second, ?_⟩
    rw [sampleAll]
    simp only [hfirst, hsecond]

/-- Looking for an old victim changes the generator and the pool. -/
theorem lruVictim_reseed (now : Instant) (volatileOnly : Bool) :
    ∃ rng pool, (s.lruVictim now volatileOnly).2 =
      { s.reseed rng with evictionPool := pool } := by
  obtain ⟨rng, hrng⟩ := sample_reseed now volatileOnly (s := s)
  unfold lruVictim
  simp only [hrng]
  split <;> exact ⟨rng, _, rfl⟩

/-- Picking a victim only moves the sampling state. -/
theorem nextVictim_reseed (now : Instant) :
    ∃ rng pool, (s.nextVictim now).2 = { s.reseed rng with evictionPool := pool } := by
  unfold nextVictim
  split
  · exact ⟨s.rng, s.evictionPool, rfl⟩
  · obtain ⟨rng, heq⟩ := randomVictim_reseed (s := s)
    exact ⟨rng, s.evictionPool, heq⟩
  · exact lruVictim_reseed now false
  · exact lruVictim_reseed now true

/-- The choice of a victim is a step of sampling. -/
theorem nextVictim_step : RoomStep now s (s.nextVictim now).2 := by
  obtain ⟨rng, pool, heq⟩ := nextVictim_reseed now (s := s)
  rw [heq]
  exact .sample rng pool

/-- Removing a victim in normal form. -/
theorem evictVictim_eq (inv : Inv s) (victim : Victim) :
    s.evictVictim victim =
      if victim.hash then
        match s.hashes.get victim.key with
        | none => (none, s)
        | some h => (some h.mem, ((s.record (.evictedHash victim.key)).putHash
            victim.key none none).notifyWrite victim.key)
      else
        match s.data.get victim.key with
        | none => (none, s)
        | some e => (some e.memSize,
            (s.record (.evictedString victim.key e.expiresAt)).writeString victim.key none) := by
  unfold evictVictim
  split
  · cases hget : s.hashes.get victim.key with
    | none => rfl
    | some h =>
      have invRecord : Inv (s.record (.evictedHash victim.key)) := inv.record (by simp)
      have hdrop := dropHash_eq (s := s.record (.evictedHash victim.key)) invRecord hget
      exact congrArg (fun t => (some h.mem, notifyWrite victim.key t)) hdrop
  · cases hget : s.data.get victim.key with
    | none => rfl
    | some e =>
      have invRecord : Inv (s.record (.evictedString victim.key e.expiresAt)) :=
        inv.record (by simp)
      have hdrop := dropEntry_eq (s := s.record (.evictedString victim.key e.expiresAt))
        invRecord hget
      exact congrArg (fun t => (some e.memSize, notifyWrite victim.key t)) hdrop

/-- An eviction makes room, if the victim is still there. -/
theorem evictVictim_room (inv : Inv s) (victim : Victim) :
    Room now s (s.evictVictim victim).2 := by
  rw [evictVictim_eq inv]
  split
  · cases hget : s.hashes.get victim.key with
    | none => exact .refl
    | some h => exact Relation.ReflTransGen.single (.evictHash hget)
  · cases hget : s.data.get victim.key with
    | none => exact .refl
    | some e => exact Relation.ReflTransGen.single (.evictString hget)

/-- The eviction loop makes room. -/
theorem evictLoop_room (needed giveUpAfter : ℕ) :
    ∀ (fuel freed misses : ℕ) {s : Store}, Inv s →
      Room now s (evictLoop now needed giveUpAfter fuel freed misses s).2
  | 0, _, _, _, _ => .refl
  | fuel + 1, freed, misses, s, inv => by
      have hpick : RoomStep now s (s.nextVictim now).2 := nextVictim_step
      rw [evictLoop]
      split
      · exact .refl
      · split
        · exact .refl
        · simp only
          split
          · exact Relation.ReflTransGen.single hpick
          next victim hvictim =>
            have hevict : Room now s ((s.nextVictim now).2.evictVictim victim).2 :=
              .head hpick (evictVictim_room (hpick.inv inv) victim)
            split
            · exact hevict.trans
                (evictLoop_room needed giveUpAfter fuel _ _ (hevict.inv inv))
            · exact hevict.trans
                (evictLoop_room needed giveUpAfter fuel _ _ (hevict.inv inv))

/-- Eviction makes room. -/
theorem evict_room (inv : Inv s) (needed : ℕ) : Room now s (s.evict now needed).2 := by
  unfold evict
  simp only
  split
  · exact .refl
  · exact evictLoop_room _ _ _ _ _ inv

/-- **Reserving memory only makes room.** -/
theorem ensureMemory_room (inv : Inv s) (needed : ℕ) :
    Room now s (s.ensureMemory now needed).2 := by
  have hreclaim : Room now s _ := (reclaimExpiredFor_reaps inv needed).room
  unfold ensureMemory
  split
  · exact .refl
  · simp only
    split
    · exact hreclaim
    · split
      · exact hreclaim
      · exact hreclaim.trans (evict_room (hreclaim.inv inv) needed)

/-! ## What making room leaves alone -/

omit P in
/-- What a reader at `now` sees of the hash at `key`. -/
def hashView (now : Instant) (key : String) (s : Store) :
    Option (Assoc String HashField × Option Instant) :=
  (s.hashes.get key).bind (·.liveView now)

omit P in
/-- The string at `key` is as before, or it is gone because it had expired or was
evicted in one of the events `new`. -/
def StringSpared (now : Instant) (new : List Event) (key : String) (s s' : Store) : Prop :=
  s'.data.get key = s.data.get key ∨
    s'.data.get key = none ∧ ∃ e, s.data.get key = some e ∧
      (e.isExpired now = true ∨ .evictedString key e.expiresAt ∈ new)

omit P in
/-- A reader sees the hash at `key` as before, or it was evicted. -/
def HashSpared (now : Instant) (new : List Event) (key : String) (s s' : Store) : Prop :=
  s'.hashView now key = s.hashView now key ∨
    s'.hashView now key = none ∧ .evictedHash key ∈ new

omit P in
/-- **What making room leaves alone**: the configuration; the counter but for a
decrease; every string and every hash but for those that had expired or whose
eviction is on record. -/
structure Spared (now : Instant) (s s' : Store) : Prop where
  config : s'.config = s.config
  anchor : s'.anchor = s.anchor
  used : s'.memUsed ≤ s.memUsed
  log : ∃ new, s'.events = new ++ s.events ∧
    ∀ key, StringSpared now new key s s' ∧ HashSpared now new key s s'

omit P in
theorem Spared.refl (s : Store) : Spared now s s :=
  ⟨rfl, rfl, le_rfl, [], rfl, fun _ => ⟨Or.inl rfl, Or.inl rfl⟩⟩

omit P in
/-- What spares a string twice spares it. -/
theorem StringSpared.trans {first second : List Event} {key : String} {a b c : Store}
    (hab : StringSpared now first key a b) (hbc : StringSpared now second key b c) :
    StringSpared now (second ++ first) key a c := by
  rcases hbc with hsame | ⟨hgone, e, hget, hwhy⟩
  · rcases hab with hbefore | ⟨hgone, e, hget, hwhy⟩
    · exact Or.inl (hsame.trans hbefore)
    · exact Or.inr ⟨hsame.trans hgone, e, hget, hwhy.imp_right (List.mem_append_right _)⟩
  · rcases hab with hbefore | ⟨hgone', -⟩
    · exact Or.inr ⟨hgone, e, hbefore ▸ hget, hwhy.imp_right (List.mem_append_left _)⟩
    · rw [hgone'] at hget
      cases hget

omit P in
/-- What spares a hash twice spares it. -/
theorem HashSpared.trans {first second : List Event} {key : String} {a b c : Store}
    (hab : HashSpared now first key a b) (hbc : HashSpared now second key b c) :
    HashSpared now (second ++ first) key a c := by
  rcases hbc with hsame | ⟨hgone, hevicted⟩
  · rcases hab with hbefore | ⟨hgone, hevicted⟩
    · exact Or.inl (hsame.trans hbefore)
    · exact Or.inr ⟨hsame.trans hgone, List.mem_append_right _ hevicted⟩
  · exact Or.inr ⟨hgone, List.mem_append_left _ hevicted⟩

omit P in
/-- Sparing goes on, with the events of both. -/
theorem Spared.trans {a b c : Store} (hab : Spared now a b) (hbc : Spared now b c) :
    Spared now a c := by
  obtain ⟨first, hfirst, hkeys⟩ := hab.log
  obtain ⟨second, hsecond, hkeys'⟩ := hbc.log
  refine ⟨hbc.config.trans hab.config, hbc.anchor.trans hab.anchor, hbc.used.trans hab.used,
    second ++ first, by rw [hsecond, hfirst, List.append_assoc], fun key => ?_⟩
  exact ⟨(hkeys key).1.trans (hkeys' key).1, (hkeys key).2.trans (hkeys' key).2⟩

/-- Reaping a hash gives bytes back: fields can only go, and a hint that is left
was there before. -/
theorem Inv.settled_cost_le (inv : Inv s) (now : Instant) {key : String} {h : HashEntry}
    (hget : s.hashes.get key = some h) :
    hashCost key (settled now h) ((settled now h).bind HashEntry.earliestDeadline) ≤
      hashCost key (some h) (s.hashTtlKeys.get key) := by
  unfold settled
  split
  · exact Nat.zero_le _
  · split
    · exact Nat.zero_le _
    · have hmem := purge_mem_le h now
      rw [Option.bind_some, hashCost_some, hashCost_some]
      cases hdeadline : (h.purgeExpiredFields now).2.earliestDeadline with
      | none =>
        rw [hintCost_none]
        omega
      | some deadline =>
        obtain ⟨earliest, hearliest⟩ := Option.isSome_iff_exists.mp
          (HashEntry.earliestDeadline_purgeExpiredFields (h := h) (Option.isSome_of_eq_some hdeadline))
        obtain ⟨hint, hhint, -⟩ := inv.hinted key h hget earliest hearliest
        rw [hhint]
        change _ + ttlIndexCost key ≤ _ + ttlIndexCost key
        omega

omit P in
/-- **Reaping does not change what a reader sees of a hash.** -/
theorem liveView_settled (now : Instant) (h : HashEntry) :
    (settled now h).bind (·.liveView now) = h.liveView now := by
  unfold settled
  split
  next hkey =>
    have hdead : h.isLive now = false := by simp [HashEntry.isLive, hkey]
    simp [HashEntry.liveView, hdead]
  next hkey =>
    split
    next hempty =>
      have hdead : h.isLive now ≠ true := fun hlive => by
        rw [HashEntry.purgeExpiredFields_fields, HashEntry.liveOnly_entries,
          List.isEmpty_iff] at hempty
        exact (HashEntry.isLive_iff.mp hlive).2 hempty
      simp [HashEntry.liveView, hdead]
    next => exact HashEntry.liveView_purgeExpiredFields h now

omit P in
/-- Whatever happens to the hash at `key`, the other hashes look the same. -/
theorem hashView_putHash (now : Instant) (key other : String) (entry : Option HashEntry)
    (hint : Option Instant) (s : Store) :
    (s.putHash key entry hint).hashView now other =
      if other = key then entry.bind (·.liveView now) else s.hashView now other := by
  simp only [hashView, putHash, BucketMap.get_set]
  split <;> rfl

/-- A reap spares whatever is live. -/
theorem ReapStep.spared (step : ReapStep now s s') (inv : Inv s) : Spared now s s' := by
  cases step with
  | @string key e hget hexp =>
    refine ⟨by simp, by simp, ?_, [], by simp,
      fun other => ⟨?_, Or.inl (by simp [hashView])⟩⟩
    · simp
    · simp only [StringSpared, writeString_data, BucketMap.get_set]
      split
      next heq => exact Or.inr ⟨rfl, e, heq ▸ hget, Or.inl hexp⟩
      next => exact Or.inl rfl
  | @hash key h hget =>
    have hcost := inv.settled_cost_le now hget
    refine ⟨by simp [reaped, putHash], by simp [reaped, putHash], ?_, [],
      by simp [reaped, putHash],
      fun other => ⟨Or.inl (by simp [reaped, putHash]), Or.inl ?_⟩⟩
    · simp only [reaped, wake_memUsed, putHash, hget]
      omega
    · rw [reaped, hashView, wake_hashes, ← hashView, hashView_putHash]
      split
      next hother => rw [hother, hashView, hget, Option.bind_some, liveView_settled]
      next => rfl
  | advance _ _ _ => exact ⟨rfl, rfl, le_rfl, [], rfl, fun _ => ⟨Or.inl rfl, Or.inl rfl⟩⟩

/-- **One step of making room spares what it should.** -/
theorem RoomStep.spared (step : RoomStep now s s') (inv : Inv s) : Spared now s s' := by
  cases step with
  | reap step => exact step.spared inv
  | @evictString key e hget =>
    refine ⟨by simp [record], by simp [record], by simp [record],
      [.evictedString key e.expiresAt], by simp [record],
      fun other => ⟨?_, Or.inl (by simp [hashView, record])⟩⟩
    · simp only [StringSpared, writeString_data, record, BucketMap.get_set]
      split
      next heq => exact Or.inr ⟨rfl, e, heq ▸ hget, Or.inr (by simp [heq])⟩
      next => exact Or.inl rfl
  | @evictHash key h hget =>
    refine ⟨by simp [putHash, record], by simp [putHash, record], ?_, [.evictedHash key],
      by simp [putHash, record], fun other => ⟨Or.inl (by simp [putHash, record]), ?_⟩⟩
    · simp only [notifyWrite_memUsed, putHash, record, hashCost_none]
      omega
    · have hview : (((s.record (.evictedHash key)).putHash key none none).notifyWrite
          key).hashView now other = if other = key then none else s.hashView now other := by
        rw [hashView, notifyWrite_hashes, ← hashView, hashView_putHash]
        rfl
      rw [HashSpared, hview]
      split
      next heq => exact Or.inr ⟨rfl, by simp [heq]⟩
      next => exact Or.inl rfl
  | sample _ _ => exact ⟨rfl, rfl, le_rfl, [], rfl, fun _ => ⟨Or.inl rfl, Or.inl rfl⟩⟩

/-- **Making room spares what it should**: everything but the expired and what was
evicted on record. -/
theorem Room.spared (room : Room now s s') (inv : Inv s) : Spared now s s' :=
  Path.relates (fun _ _ inv step => step.inv inv) Spared.refl (fun _ _ _ => Spared.trans)
    (fun _ _ inv step => step.spared inv) room inv

/-- Making room spares whatever it does not evict. -/
theorem ensureMemory_spared (inv : Inv s) (needed : ℕ) :
    Spared now s (s.ensureMemory now needed).2 := (ensureMemory_room inv needed).spared inv

/-- Making room keeps the invariant. -/
theorem Inv.ensureMemory (inv : Inv s) (now : Instant) (needed : ℕ) :
    Inv (s.ensureMemory now needed).2 := (ensureMemory_room inv needed).inv inv

/-! ## What making room achieves -/

/-- Turns the eviction loop can still take: one per miss that is left in the
current run of them, and a whole run per entry. -/
def turnsLeft (s : Store) (misses : ℕ) : ℕ :=
  (s.data.len + s.hashes.len) * (evictionMaxMisses + 1) + (evictionMaxMisses - misses)

/-- A victim that was there is one entry less. -/
theorem evictVictim_hit (inv : Inv s) {victim : Victim} {bytes : ℕ}
    (h : (s.evictVictim victim).1 = some bytes) :
    (s.evictVictim victim).2.data.len + (s.evictVictim victim).2.hashes.len + 1 =
      s.data.len + s.hashes.len := by
  rw [evictVictim_eq inv] at h ⊢
  split at h
  next hkind =>
    rw [if_pos hkind]
    cases hget : s.hashes.get victim.key with
    | none =>
      rw [hget] at h
      cases h
    | some old =>
      have hlen := BucketMap.len_set_none hget
      simp only [notifyWrite_data, notifyWrite_hashes, putHash, record]
      omega
  next hkind =>
    rw [if_neg hkind]
    cases hget : s.data.get victim.key with
    | none =>
      rw [hget] at h
      cases h
    | some old =>
      have hlen := BucketMap.len_set_none hget
      simp only [writeString_data, writeString_hashes, record]
      omega

omit P in
/-- A victim that was already gone changes nothing. -/
theorem evictVictim_miss {victim : Victim} (h : (s.evictVictim victim).1 = none) :
    (s.evictVictim victim).2 = s := by
  unfold evictVictim at h ⊢
  split at h
  next hkind =>
    rw [if_pos hkind]
    cases hget : s.hashes.get victim.key with
    | none => rfl
    | some old =>
      rw [hget] at h
      cases h
  next hkind =>
    rw [if_neg hkind]
    cases hget : s.data.get victim.key with
    | none => rfl
    | some old =>
      rw [hget] at h
      cases h

/-- **The eviction loop ends by itself**: with more turns than it has left, giving
it others changes nothing. -/
theorem evictLoop_ends {needed giveUpAfter fuel fuel' freed misses : ℕ} (inv : Inv s)
    (henough : s.turnsLeft misses < fuel) (hle : fuel ≤ fuel') :
    evictLoop now needed giveUpAfter fuel' freed misses s =
      evictLoop now needed giveUpAfter fuel freed misses s := by
  induction fuel generalizing fuel' freed misses s with
  | zero => exact absurd henough (Nat.not_lt_zero _)
  | succ fuel ih =>
    obtain ⟨fuel', rfl⟩ := Nat.exists_eq_add_of_lt hle
    have hpick : RoomStep now s (s.nextVictim now).2 := nextVictim_step
    obtain ⟨rng, pool, heq⟩ := nextVictim_reseed now (s := s)
    have hdata : (s.nextVictim now).2.data = s.data := by rw [heq]; rfl
    have hhashes : (s.nextVictim now).2.hashes = s.hashes := by rw [heq]; rfl
    rw [evictLoop, evictLoop]
    split
    · rfl
    · split
      · rfl
      next hgive =>
        rw [not_or, not_le, not_le] at hgive
        simp only
        split
        · rfl
        next victim hvictim =>
          have hevict : Room now s ((s.nextVictim now).2.evictVictim victim).2 :=
            .head hpick (evictVictim_room (hpick.inv inv) victim)
          split
          next bytes hhit =>
            have hlen := evictVictim_hit (hpick.inv inv) hhit
            refine ih (hevict.inv inv) ?_ (by omega)
            rw [hdata, hhashes] at hlen
            rw [turnsLeft, ← hlen, Nat.succ_mul] at henough
            rw [turnsLeft]
            omega
          next hmiss =>
            refine ih (hevict.inv inv) ?_ (by omega)
            rw [turnsLeft] at henough
            rw [evictVictim_miss hmiss, turnsLeft, hdata, hhashes]
            omega

/-- The turns `evict` gives its loop are enough. -/
theorem evictLoop_evictFuel {needed giveUpAfter fuel : ℕ} (inv : Inv s)
    (hle : s.evictFuel ≤ fuel) :
    evictLoop now needed giveUpAfter fuel 0 0 s =
      evictLoop now needed giveUpAfter s.evictFuel 0 0 s := by
  refine evictLoop_ends inv ?_ hle
  rw [turnsLeft, evictFuel, Nat.succ_mul]
  omega

/-- Where there is room, none is made. -/
theorem ensureMemory_of_fits {needed : ℕ} (h : s.fits needed = true) :
    s.ensureMemory now needed = (true, s) := by
  rw [ensureMemory, if_pos h]

/-- A store without a limit always has room. -/
theorem ensureMemory_unlimited (h : s.config.memoryLimit = 0) (now : Instant) (needed : ℕ) :
    s.ensureMemory now needed = (true, s) := ensureMemory_of_fits (by simp [fits, h])

end Steps

end Store

end Ephpm.Kv
