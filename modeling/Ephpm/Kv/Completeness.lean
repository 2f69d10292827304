import Ephpm.Kv.Expiry

/-!
# Making room succeeds

Under a policy that may evict every key, a reservation is refused only if it could never be granted.
The eviction loop has three ways of giving up, and none of them is taken too early:

* **Bytes.**  It stops once it has freed what was missing and `needed` bytes more.  The counter is
  exact, so the reservation fits as soon as what was missing has been freed.
* **Misses.**  It stops after `evictionMaxMisses` candidates in a row that were already gone.  Such
  candidates come from the pool only, a sample never adds one (`stale_refreshPool`), and a pool has
  `evictionPoolSize` candidates at most once it has been refreshed.
* **No candidate.**  A sample of a map that holds something is not empty (`scanMap_ne_nil`).  So
  nothing is left, and the counter is zero.

A policy that may only evict what has an expiry gives up when nothing of the kind is left.
-/

namespace Ephpm.Kv

open Lib

/-- **A scan finds something wherever there is something.** -/
theorem scanMap_ne_nil {V : Type} {m : BucketMap String V} {key : String} {value : V}
    (hget : m.get key = some value) (cursor : MapCursor) {want : ℕ} (hwant : 0 < want) :
    (scanMap m cursor want).1 ≠ [] := by
  obtain ⟨pos, hpos, hslot⟩ := exists_slotAt hget
  have hplace : pos ∈ sweep (tableLens m) cursor.shard cursor.bucket :=
    (mem_sweep (tableLens_pos m)).mpr hpos
  have hvisited : (scanMap m cursor want).1 =
      (walk (slotAt m) (sweep (tableLens m) cursor.shard cursor.bucket) want).1 := by
    rw [scanMap_eq m cursor hwant]
    split
    next heq => rw [heq]
    next heq => rw [heq]
  rw [hvisited]
  exact walk_ne_nil hplace hslot want

namespace Store

/-! ## Candidates that are gone -/

/-- Whether a candidate is still in the map that it came from. -/
def there (s : Store) (victim : Victim) : Bool :=
  if victim.hash then (s.hashes.get victim.key).isSome else (s.data.get victim.key).isSome

/-- The candidates of a pool that are gone. -/
def stale (s : Store) (pool : List Victim) : ℕ := pool.countP fun victim => !s.there victim

/-- Merging a candidate that is there adds none that is gone. -/
theorem stale_mergeVictim {s : Store} {victim : Victim} (hthere : s.there victim = true)
    (pool : List Victim) : s.stale (mergeVictim pool victim) ≤ s.stale pool := by
  induction pool with
  | nil => simp [stale, mergeVictim, hthere]
  | cons p rest ih =>
    rw [mergeVictim]
    split
    · -- A new rank does not change where the candidate is.
      exact le_of_eq rfl
    · simp only [stale, List.countP_cons]
      exact Nat.add_le_add_right ih _

section Sampling

variable [P : Platform] {s : Store} {now : Instant} {needed : ℕ}

/-- **A sample of candidates that are there adds none that is gone.** -/
theorem stale_refreshPool {fresh : List Victim} (hfresh : ∀ victim ∈ fresh, s.there victim = true)
    (pool : List Victim) :
    s.stale (refreshPool pool fresh) ≤ min evictionPoolSize (s.stale pool) := by
  have hmerged : s.stale (fresh.foldl mergeVictim pool) ≤ s.stale pool := by
    induction fresh generalizing pool with
    | nil => exact le_rfl
    | cons victim rest ih =>
      have hrest : ∀ v ∈ rest, s.there v = true := fun v mem =>
        hfresh v (List.mem_cons_of_mem _ mem)
      exact (ih hrest _).trans (stale_mergeVictim (hfresh victim List.mem_cons_self) pool)
  have hsorted : s.stale (P.sortByRank (fresh.foldl mergeVictim pool)) =
      s.stale (fresh.foldl mergeVictim pool) := (P.sortByRank_perm _).countP_eq _
  refine le_min ?_ ?_
  · exact List.countP_le_length.trans (List.length_take_le _ _)
  · refine ((List.take_sublist _ _).countP_le).trans ?_
    exact hsorted.le.trans hmerged

omit P in
theorem mergeVictim_ne_nil (pool : List Victim) (victim : Victim) :
    mergeVictim pool victim ≠ [] := by
  cases pool with
  | nil => exact List.cons_ne_nil _ _
  | cons p rest =>
    rw [mergeVictim]
    split
    · exact List.cons_ne_nil _ _
    · exact List.cons_ne_nil _ _

theorem refreshPool_ne_nil {fresh : List Victim} (hfresh : fresh ≠ []) (pool : List Victim) :
    refreshPool pool fresh ≠ [] := by
  have hmerged : fresh.foldl mergeVictim pool ≠ [] := by
    obtain ⟨front, last, rfl⟩ := List.eq_nil_or_concat fresh |>.resolve_left hfresh
    rw [List.concat_eq_append, List.foldl_concat]
    exact mergeVictim_ne_nil _ _
  intro hnil
  rcases List.take_eq_nil_iff.mp hnil with hsize | hsorted
  · cases hsize
  · exact hmerged (List.perm_nil.mp (hsorted ▸ (P.sortByRank_perm _).symm))

omit P in
theorem mergeVictim_forall {p : String → Bool → Prop} {victim : Victim} :
    ∀ {pool : List Victim}, (∀ v ∈ pool, p v.key v.hash) → p victim.key victim.hash →
      ∀ v ∈ mergeVictim pool victim, p v.key v.hash
  | [], _, hvictim, v, mem => by
      obtain rfl := List.mem_singleton.mp mem
      exact hvictim
  | head :: rest, hpool, hvictim, v, mem => by
      rw [mergeVictim] at mem
      split at mem
      · rcases List.mem_cons.mp mem with rfl | hrest
        · exact hpool head List.mem_cons_self
        · exact hpool v (List.mem_cons_of_mem _ hrest)
      · rcases List.mem_cons.mp mem with rfl | hrest
        · exact hpool v List.mem_cons_self
        · exact mergeVictim_forall (fun w hw => hpool w (List.mem_cons_of_mem _ hw)) hvictim v hrest

/-- Whatever holds of the names in the pool and in the sample holds in the refreshed
pool. -/
theorem refreshPool_forall {p : String → Bool → Prop} {fresh pool : List Victim}
    (hpool : ∀ v ∈ pool, p v.key v.hash) (hfresh : ∀ v ∈ fresh, p v.key v.hash) :
    ∀ v ∈ refreshPool pool fresh, p v.key v.hash := by
  have hmerged : ∀ v ∈ fresh.foldl mergeVictim pool, p v.key v.hash := by
    induction fresh generalizing pool with
    | nil => exact hpool
    | cons head rest ih =>
      exact ih (mergeVictim_forall hpool (hfresh head List.mem_cons_self))
        fun v hv => hfresh v (List.mem_cons_of_mem _ hv)
  intro v mem
  exact hmerged v ((P.sortByRank_perm _).subset (List.mem_of_mem_take mem))

omit P in
/-- A sample of the strings and the hashes is there. -/
theorem sampleAll_there : ∀ victim ∈ (s.sampleAll now).1, s.there victim = true := by
  intro victim mem
  obtain ⟨first, hfirst⟩ := randomCursor_reseed (s := s) s.rng
  obtain ⟨second, hsecond⟩ := randomCursor_reseed (s := s) first
  change s.randomCursor.2 = _ at hfirst
  simp only [sampleAll, hfirst, hsecond] at mem
  rcases List.mem_append.mp mem with hstring | hhash
  · obtain ⟨entry, hentry, rfl⟩ := List.mem_map.mp hstring
    have hget : s.data.get entry.1 = some entry.2 := get_of_mem_scanMap hentry
    simp [there, hget]
  · obtain ⟨entry, hentry, rfl⟩ := List.mem_map.mp hhash
    have hget : s.hashes.get entry.1 = some entry.2 := get_of_mem_scanMap hentry
    simp [there, hget]

theorem Inv.get_of_hint (inv : Inv s) {key : String} {deadline : Instant}
    (hhint : s.ttlKeys.get key = some deadline) :
    ∃ e, s.data.get key = some e ∧ e.expiresAt = some deadline := by
  rw [inv.indexed] at hhint
  exact Option.bind_eq_some_iff.mp hhint

/-- The TTL index is exact, so a sample of it names strings with an expiry. -/
theorem mem_sampleVolatile (inv : Inv s) {victim : Victim}
    (mem : victim ∈ (s.sampleVolatile now).1) :
    victim.hash = false ∧ ∃ e, s.data.get victim.key = some e ∧ e.expiresAt.isSome = true := by
  obtain ⟨rng, hrng⟩ := randomCursor_reseed (s := s) s.rng
  change s.randomCursor.2 = _ at hrng
  simp only [sampleVolatile, hrng] at mem
  obtain ⟨hint, hhint, hvictim⟩ := List.mem_filterMap.mp mem
  obtain ⟨e, hget, hexpires⟩ := inv.get_of_hint (get_of_mem_scanMap hhint)
  have hnamed : victim.key = hint.1 ∧ victim.hash = false := by
    split at hvictim
    · obtain rfl := Option.some.inj hvictim
      exact ⟨rfl, rfl⟩
    · obtain ⟨e', -, rfl⟩ := Option.map_eq_some_iff.mp hvictim
      exact ⟨rfl, rfl⟩
  exact ⟨hnamed.2, e, by rw [hnamed.1, hget], by rw [hexpires]; rfl⟩

theorem sampleVolatile_there (inv : Inv s) :
    ∀ victim ∈ (s.sampleVolatile now).1, s.there victim = true := by
  intro victim mem
  obtain ⟨hhash, e, hget, -⟩ := mem_sampleVolatile inv mem
  simp [there, hhash, hget]

omit P in
theorem sampleAll_ne_nil
    (hsome : (∃ key e, s.data.get key = some e) ∨ ∃ key h, s.hashes.get key = some h) :
    (s.sampleAll now).1 ≠ [] := by
  obtain ⟨first, hfirst⟩ := randomCursor_reseed (s := s) s.rng
  obtain ⟨second, hsecond⟩ := randomCursor_reseed (s := s) first
  change s.randomCursor.2 = _ at hfirst
  simp only [sampleAll, hfirst, hsecond, ne_eq, List.append_eq_nil_iff, List.map_eq_nil_iff,
    not_and_or]
  rcases hsome with ⟨key, e, hget⟩ | ⟨key, h, hget⟩
  · exact Or.inl (scanMap_ne_nil (m := s.data) hget _ (by decide))
  · exact Or.inr (scanMap_ne_nil (m := s.hashes) hget _ (by decide))

theorem sampleVolatile_ne_nil (inv : Inv s)
    (hsome : ∃ key e, s.data.get key = some e ∧ e.expiresAt ≠ none) :
    (s.sampleVolatile now).1 ≠ [] := by
  obtain ⟨key, e, hget, hexpires⟩ := hsome
  obtain ⟨deadline, hdeadline⟩ := Option.ne_none_iff_exists'.mp hexpires
  have hhint : s.ttlKeys.get key = some deadline := by
    rw [inv.indexed, hget, Option.bind_some, hdeadline]
  obtain ⟨rng, hrng⟩ := randomCursor_reseed (s := s) s.rng
  change s.randomCursor.2 = _ at hrng
  have hpicked : (scanMap s.ttlKeys s.randomCursor.1 evictionSamples).1 ≠ [] :=
    scanMap_ne_nil hhint _ (by decide)
  obtain ⟨hint, mem⟩ := List.exists_mem_of_ne_nil _ hpicked
  obtain ⟨found, hfound, -⟩ := inv.get_of_hint (get_of_mem_scanMap mem)
  simp only [sampleVolatile, hrng]
  -- The string of the first hint becomes a candidate, expired or not.
  intro hnil
  have hnone := List.filterMap_eq_nil_iff.mp hnil hint mem
  split at hnone
  · cases hnone
  · rw [Option.map_eq_none_iff] at hnone
    exact Option.some_ne_none _ (hfound.symm.trans hnone)

/-! ## Picking a victim -/

/-- What a policy may evict is left. -/
def Eligible (s : Store) : Prop :=
  match s.config.evictionPolicy with
  | .noEviction => False
  | .volatileLru => ∃ key e, s.data.get key = some e ∧ e.expiresAt ≠ none
  | _ => (∃ key e, s.data.get key = some e) ∨ ∃ key h, s.hashes.get key = some h

/-- What picking a victim did: there was nothing to pick, or what it picked is there, or it has one
candidate less that is gone. -/
inductive Picked (s : Store) : Option Victim × Store → Prop
  | nothing {s' : Store} (hnone : ¬ s.Eligible) : Picked s (none, s')
  | hit {victim : Victim} {s' : Store} (hthere : s.there victim = true) : Picked s (some victim, s')
  | miss {victim : Victim} {s' : Store} (hgone : s.there victim = false)
      (hfewer : s.stale s'.evictionPool + 1 ≤ min evictionPoolSize (s.stale s.evictionPool)) :
      Picked s (some victim, s')

theorem lruVictim_picked (volatileOnly : Bool)
    (hthere : ∀ victim ∈ (if volatileOnly then s.sampleVolatile now else s.sampleAll now).1,
      s.there victim = true)
    (hsome : s.Eligible → (if volatileOnly then s.sampleVolatile now else s.sampleAll now).1 ≠ []) :
    Picked s (s.lruVictim now volatileOnly) := by
  have hpool : (if volatileOnly then s.sampleVolatile now else s.sampleAll now).2.evictionPool =
      s.evictionPool := by
    obtain ⟨rng, hrng⟩ := sample_reseed now volatileOnly (s := s)
    rw [hrng]
    rfl
  have hstale := stale_refreshPool hthere s.evictionPool
  unfold lruVictim
  simp only [hpool]
  cases hrefreshed : refreshPool s.evictionPool
      (if volatileOnly then s.sampleVolatile now else s.sampleAll now).1 with
  | nil => exact .nothing fun heligible => refreshPool_ne_nil (hsome heligible) _ hrefreshed
  | cons victim rest =>
    rw [hrefreshed, stale, List.countP_cons] at hstale
    cases hvictim : s.there victim with
    | true => exact .hit hvictim
    | false =>
      refine .miss hvictim ?_
      rw [hvictim] at hstale
      exact hstale

omit P in
/-- A random victim is there. -/
theorem randomVictim_picked (hsome : s.Eligible →
      (∃ key e, s.data.get key = some e) ∨ ∃ key h, s.hashes.get key = some h) :
    Picked s s.randomVictim := by
  obtain ⟨first, hfirst⟩ := randomCursor_reseed (s := s) s.rng
  obtain ⟨second, hsecond⟩ := randomCursor_reseed (s := s) first
  change s.randomCursor.2 = _ at hfirst
  unfold randomVictim
  simp only [hfirst, hsecond]
  split
  next key e hstring =>
    have hget : s.data.get key = some e := get_of_mem_scanMap (List.mem_of_mem_head? hstring)
    exact .hit (by simp [there, hget])
  next hnone =>
    split
    next key h hhash =>
      have hget : s.hashes.get key = some h := get_of_mem_scanMap (List.mem_of_mem_head? hhash)
      exact .hit (by simp [there, hget])
    next hnone' =>
      refine .nothing fun heligible => ?_
      rcases hsome heligible with ⟨key, e, hget⟩ | ⟨key, h, hget⟩
      · exact scanMap_ne_nil (m := s.data) hget _ Nat.one_pos (List.head?_eq_none_iff.mp hnone)
      · exact scanMap_ne_nil (m := s.hashes) hget _ Nat.one_pos (List.head?_eq_none_iff.mp hnone')

/-- **Picking a victim finds one where there is one**, and wears out those that are gone. -/
theorem nextVictim_picked (inv : Inv s) : Picked s (s.nextVictim now) := by
  unfold nextVictim
  cases hpolicy : s.config.evictionPolicy with
  | noEviction =>
    refine .nothing ?_
    rw [Eligible, hpolicy]
    exact id
  | allKeysRandom =>
    refine randomVictim_picked fun heligible => ?_
    rw [Eligible, hpolicy] at heligible
    exact heligible
  | allKeysLru =>
    refine lruVictim_picked false sampleAll_there fun heligible => ?_
    rw [Eligible, hpolicy] at heligible
    exact sampleAll_ne_nil heligible
  | volatileLru =>
    refine lruVictim_picked true (sampleVolatile_there inv) fun heligible => ?_
    rw [Eligible, hpolicy] at heligible
    exact sampleVolatile_ne_nil inv heligible

/-- Under `volatile-lru` whatever holds of the names in the pool and of the strings with an expiry
holds of the victim, and of the pool that is left. -/
theorem nextVictim_forall {p : String → Bool → Prop} (now : Instant) (inv : Inv s)
    (hpolicy : s.config.evictionPolicy = .volatileLru) (hpool : ∀ v ∈ s.evictionPool, p v.key v.hash)
    (hvolatile : ∀ key e, s.data.get key = some e → e.expiresAt.isSome = true → p key false) :
    (∀ v ∈ (s.nextVictim now).2.evictionPool, p v.key v.hash) ∧
      ∀ v, (s.nextVictim now).1 = some v → p v.key v.hash := by
  have hall : ∀ v ∈ refreshPool s.evictionPool (s.sampleVolatile now).1, p v.key v.hash := by
    refine refreshPool_forall hpool fun v mem => ?_
    obtain ⟨hhash, e, hget, hexpires⟩ := mem_sampleVolatile inv mem
    rw [hhash]
    exact hvolatile v.key e hget hexpires
  obtain ⟨rng, hrng⟩ : ∃ rng, (s.sampleVolatile now).2 = s.reseed rng :=
    randomCursor_reseed (s := s) s.rng
  have hsame : (s.reseed rng).evictionPool = s.evictionPool := rfl
  simp only [nextVictim, hpolicy, lruVictim, if_true, hrng, hsame]
  cases hrefreshed : refreshPool s.evictionPool (s.sampleVolatile now).1 with
  | nil => exact ⟨nofun, nofun⟩
  | cons victim rest =>
    rw [hrefreshed] at hall
    refine ⟨fun v mem => hall v (List.mem_cons_of_mem _ mem), fun v hv => ?_⟩
    obtain rfl := Option.some.inj hv
    exact hall victim List.mem_cons_self

/-! ## What an eviction gives back -/

/-- A store that holds nothing uses nothing. -/
theorem Inv.memUsed_eq_zero (inv : Inv s) (hdata : ∀ key, s.data.get key = none)
    (hhashes : ∀ key, s.hashes.get key = none) : s.memUsed = 0 := by
  have httl : ∀ key, s.ttlKeys.get key = none := fun key => by
    rw [inv.indexed, hdata, Option.bind_none]
  rw [inv.accounted, footprint, s.data.weight_eq_zero hdata, s.hashes.weight_eq_zero hhashes,
    s.ttlKeys.weight_eq_zero httl, s.hashTtlKeys.weight_eq_zero fun key =>
      inv.hintOwned key (hhashes key)]

/-- The bytes that evicting a candidate gives back, none if it is gone. -/
def charge (victim : Victim) (s : Store) : ℕ :=
  if victim.hash then
    hashCost victim.key (s.hashes.get victim.key) (s.hashTtlKeys.get victim.key)
  else stringCost victim.key (s.data.get victim.key)

theorem evictVictim_memUsed (inv : Inv s) (victim : Victim) :
    (s.evictVictim victim).2.memUsed + s.charge victim = s.memUsed := by
  rw [evictVictim_eq inv, charge]
  split
  · have hle := inv.hashCost_le victim.key
    cases hget : s.hashes.get victim.key with
    | none =>
      rw [inv.hintOwned _ hget]
      rfl
    | some h =>
      rw [hget] at hle
      simp only [notifyWrite_memUsed, putHash, record, hget, hashCost_none]
      omega
  · have hle := inv.stringCost_le victim.key
    cases hget : s.data.get victim.key with
    | none => rfl
    | some e =>
      rw [hget] at hle
      simp only [writeString_memUsed, record, hget, stringCost_none]
      omega

/-- A candidate that is there is charged at least what its eviction reports. -/
theorem evictVictim_there (inv : Inv s) {victim : Victim} (hthere : s.there victim = true) :
    ∃ bytes, (s.evictVictim victim).1 = some bytes ∧ bytes ≤ s.charge victim := by
  rw [evictVictim_eq inv, charge]
  rw [there] at hthere
  split at hthere
  next hhash =>
    obtain ⟨h, hget⟩ := Option.isSome_iff_exists.mp hthere
    simp only [hhash, if_true, hget, hashCost_some]
    exact ⟨h.mem, rfl, Nat.le_add_right _ _⟩
  next hhash =>
    obtain ⟨e, hget⟩ := Option.isSome_iff_exists.mp hthere
    simp only [hhash, Bool.false_eq_true, if_false, hget, stringCost_some]
    exact ⟨e.memSize, rfl, Nat.le_add_right _ _⟩

omit P in
theorem evictVictim_gone {victim : Victim} (hgone : s.there victim = false) :
    s.evictVictim victim = (none, s) := by
  unfold evictVictim
  rw [there] at hgone
  split at hgone
  next hhash =>
    rw [Option.isSome_eq_false_iff, Option.isNone_iff_eq_none] at hgone
    simp only [hhash, if_true, hgone]
  next hhash =>
    rw [Option.isSome_eq_false_iff, Option.isNone_iff_eq_none] at hgone
    simp only [hhash, Bool.false_eq_true, if_false, hgone]

/-! ## The loop -/

/-- The eviction loop without its counters: victims are taken one after the other, until `needed`
more bytes fit or there is no candidate. -/
def takeVictims (now : Instant) (needed : ℕ) : ℕ → Store → Bool × Store
  | 0, s => (s.fits needed, s)
  | fuel + 1, s =>
    if s.fits needed then (true, s)
    else
      let picked := s.nextVictim now
      match picked.1 with
      | none => (false, picked.2)
      | some victim => takeVictims now needed fuel (picked.2.evictVictim victim).2

/-- **The loop does not give up early**: its counters never come to their bounds.  What it has freed
and what is still used add up to at most `start`, and the misses in a row to at most
`evictionPoolSize` with those that the pool still holds. -/
theorem evictLoop_eq_takeVictims {giveUpAfter fuel freed misses start : ℕ} (inv : Inv s)
    (hfreed : s.memUsed + freed ≤ start)
    (hgive : start + needed - s.config.memoryLimit ≤ giveUpAfter)
    (hmisses : misses + min evictionPoolSize (s.stale s.evictionPool) ≤ evictionPoolSize) :
    evictLoop now needed giveUpAfter fuel freed misses s = takeVictims now needed fuel s := by
  induction fuel generalizing freed misses s with
  | zero => rfl
  | succ fuel ih =>
    have hpicked : Picked s (s.nextVictim now) := nextVictim_picked inv
    have hpick : RoomStep now s (s.nextVictim now).2 := nextVictim_step
    obtain ⟨rng, pool, hsame⟩ := nextVictim_reseed now (s := s)
    rw [evictLoop, takeVictims]
    split
    · rfl
    next hfull =>
      have hshort : s.config.memoryLimit ≠ 0 ∧ s.config.memoryLimit < s.memUsed + needed := by
        simpa [fits] using hfull
      have hpool : evictionPoolSize < evictionMaxMisses := by decide
      have hgoes : ¬ (giveUpAfter ≤ freed ∨ evictionMaxMisses ≤ misses) := by omega
      have hinv := hpick.inv inv
      rw [if_neg hgoes]
      cases hvictim : s.nextVictim now with
      | mk picked after =>
        rw [hvictim] at hpicked hsame hinv
        simp only at hsame hinv ⊢
        subst hsame
        cases hpicked with
        | nothing hnone => rfl
        | @hit victim _ hthere =>
          obtain ⟨bytes, hbytes, hle⟩ := evictVictim_there hinv hthere
          have hused := evictVictim_memUsed hinv victim
          have hroom : Room now _ _ := evictVictim_room hinv victim
          simp only [hbytes]
          change _ = s.memUsed at hused
          refine ih (hroom.inv hinv) ?_ ?_ ?_
          · omega
          · rw [(hroom.spared hinv).config]
            exact hgive
          · omega
        | @miss victim _ hgone hfewer =>
          have hmiss := evictVictim_gone (s := { s.reseed rng with evictionPool := pool }) hgone
          simp only [hmiss]
          refine ih hinv hfreed hgive ?_
          change misses + 1 + min evictionPoolSize (s.stale pool) ≤ _
          change s.stale pool + 1 ≤ _ at hfewer
          omega

/-- Turns that are left: one for each candidate in the pool that is gone, and a whole pool of them
for each entry. -/
def picksLeft (s : Store) : ℕ :=
  (s.data.len + s.hashes.len) * (evictionPoolSize + 1) +
    min evictionPoolSize (s.stale s.evictionPool)

omit P in
theorem picksLeft_lt_evictFuel (s : Store) : s.picksLeft < s.evictFuel := by
  have hpool : evictionPoolSize < evictionMaxMisses := by decide
  have hmul : (s.data.len + s.hashes.len) * (evictionPoolSize + 1) ≤
      (s.data.len + s.hashes.len) * (evictionMaxMisses + 1) :=
    Nat.mul_le_mul_left _ (Nat.succ_le_succ hpool.le)
  rw [evictFuel, Nat.succ_mul, picksLeft]
  omega

/-- **A refusal means that nothing is left to evict.** -/
theorem takeVictims_exhausted {fuel : ℕ} (inv : Inv s) (hfuel : s.picksLeft < fuel)
    (hrefused : (takeVictims now needed fuel s).1 = false) :
    ¬ (takeVictims now needed fuel s).2.Eligible ∧
      (takeVictims now needed fuel s).2.fits needed = false := by
  induction fuel generalizing s with
  | zero => exact absurd hfuel (Nat.not_lt_zero _)
  | succ fuel ih =>
    have hpicked : Picked s (s.nextVictim now) := nextVictim_picked inv
    have hpick : RoomStep now s (s.nextVictim now).2 := nextVictim_step
    obtain ⟨rng, pool, hsame⟩ := nextVictim_reseed now (s := s)
    rw [takeVictims] at hrefused ⊢
    split at hrefused
    · cases hrefused
    next hfull =>
      have hinv := hpick.inv inv
      rw [if_neg hfull]
      cases hvictim : s.nextVictim now with
      | mk picked after =>
        rw [hvictim] at hpicked hsame hinv hrefused
        simp only at hsame hinv hrefused ⊢
        subst hsame
        cases hpicked with
        | nothing hnone => exact ⟨hnone, Bool.not_eq_true _ ▸ hfull⟩
        | @hit victim _ hthere =>
          obtain ⟨bytes, hbytes, -⟩ := evictVictim_there hinv hthere
          have hlen := evictVictim_hit hinv hbytes
          have hroom : Room now _ _ := evictVictim_room hinv victim
          change _ = s.data.len + s.hashes.len at hlen
          refine ih (hroom.inv hinv) ?_ hrefused
          rw [picksLeft, ← hlen, Nat.succ_mul] at hfuel
          rw [picksLeft]
          omega
        | @miss victim _ hgone hfewer =>
          have hmiss := evictVictim_gone (s := { s.reseed rng with evictionPool := pool }) hgone
          simp only [hmiss] at hrefused ⊢
          refine ih hinv ?_ hrefused
          change (s.data.len + s.hashes.len) * _ + min evictionPoolSize (s.stale pool) < fuel
          change s.stale pool + 1 ≤ _ at hfewer
          rw [picksLeft] at hfuel
          omega

/-! ## Making room -/

/-- **Making room, in short**: what fits is granted, what is more than the limit is refused, and
otherwise victims are taken once the expired keys are reclaimed. -/
theorem ensureMemory_eq (inv : Inv s) (needed : ℕ) :
    s.ensureMemory now needed =
      if s.fits needed then (true, s)
      else if s.config.memoryLimit < needed then (false, s.reclaimExpiredFor now needed)
      else takeVictims now needed (s.reclaimExpiredFor now needed).evictFuel
        (s.reclaimExpiredFor now needed) := by
  have hreclaim : Reaps now s _ := reclaimExpiredFor_reaps inv needed
  have hconfig := (hreclaim.room.spared inv).config
  unfold ensureMemory
  set reclaimed := s.reclaimExpiredFor now needed
  split
  · rfl
  next hfull =>
    have hshort : s.config.memoryLimit ≠ 0 ∧ s.config.memoryLimit < s.memUsed + needed := by
      simpa [fits] using hfull
    obtain ⟨fuel, hfuel⟩ : ∃ fuel, reclaimed.evictFuel = fuel + 1 :=
      Nat.exists_eq_succ_of_ne_zero (Nat.zero_lt_of_lt reclaimed.picksLeft_lt_evictFuel).ne'
    by_cases hlimit : s.config.memoryLimit < needed
    · have hfull' : reclaimed.fits needed = false := by
        simp [fits, hconfig, hshort.1]
        omega
      have hlimit' : reclaimed.config.memoryLimit < needed := by rwa [hconfig]
      simp only [hfull', Bool.false_eq_true, if_false, if_pos hlimit, evict, if_pos hlimit']
      cases reclaimed.config.evictionPolicy <;> rfl
    · have hlimit' : ¬ reclaimed.config.memoryLimit < needed := by rwa [hconfig]
      have hloop : reclaimed.evict now needed =
          takeVictims now needed reclaimed.evictFuel reclaimed := by
        rw [evict, if_neg hlimit']
        refine evictLoop_eq_takeVictims (hreclaim.inv inv) le_rfl ?_ (by omega)
        exact (Nat.le_add_right _ _).trans (le_max_left _ _)
      simp only [if_neg hlimit, hloop, hfuel, takeVictims]
      split
      · rfl
      · cases hpolicy : reclaimed.config.evictionPolicy with
        | noEviction => simp only [nextVictim, hpolicy]
        | allKeysLru | allKeysRandom | volatileLru => rfl

/-- A reservation that is granted fits. -/
theorem ensureMemory_fits (inv : Inv s) (hgranted : (s.ensureMemory now needed).1 = true) :
    (s.ensureMemory now needed).2.fits needed = true := by
  have hloop : ∀ (fuel : ℕ) (t : Store), (takeVictims now needed fuel t).1 = true →
      (takeVictims now needed fuel t).2.fits needed = true := by
    intro fuel
    induction fuel with
    | zero => exact fun t h => h
    | succ fuel ih =>
      intro t h
      rw [takeVictims] at h ⊢
      split at h
      next hfits => rwa [if_pos hfits]
      next hfull =>
        rw [if_neg hfull]
        simp only at h ⊢
        split at h
        · cases h
        · exact ih _ h
  rw [ensureMemory_eq inv] at hgranted ⊢
  split at hgranted
  next hfits => rwa [if_pos hfits]
  next hfull =>
    rw [if_neg hfull]
    split at hgranted
    · cases hgranted
    next hlimit =>
      rw [if_neg hlimit]
      exact hloop _ _ hgranted

/-- **A reservation that could be granted is refused only when nothing is left that the policy may
evict.** -/
theorem not_eligible_of_refused (inv : Inv s) (hneeded : needed ≤ s.config.memoryLimit)
    (hrefused : (s.ensureMemory now needed).1 = false) :
    ¬ (s.ensureMemory now needed).2.Eligible ∧
      (s.ensureMemory now needed).2.fits needed = false := by
  have hreclaim : Reaps now s _ := reclaimExpiredFor_reaps inv needed
  rw [ensureMemory_eq inv] at hrefused ⊢
  split at hrefused
  · cases hrefused
  next hfull =>
    rw [if_neg hfull, if_neg (Nat.not_lt_of_le hneeded)] at *
    exact takeVictims_exhausted (hreclaim.inv inv) (picksLeft_lt_evictFuel _) hrefused

/-- Where every key may be evicted, nothing that fits under the limit is refused. -/
theorem ensureMemory_of_allKeys (inv : Inv s)
    (hpolicy : s.config.evictionPolicy = .allKeysLru ∨ s.config.evictionPolicy = .allKeysRandom)
    (hneeded : needed ≤ s.config.memoryLimit) : (s.ensureMemory now needed).1 = true := by
  by_contra hrefused
  rw [Bool.not_eq_true] at hrefused
  obtain ⟨hnone, hfull⟩ := not_eligible_of_refused inv hneeded hrefused
  have hspared : Spared now s _ := ensureMemory_spared inv needed
  have hempty : ¬ ((∃ key e, (s.ensureMemory now needed).2.data.get key = some e) ∨
      ∃ key h, (s.ensureMemory now needed).2.hashes.get key = some h) := by
    rw [Eligible, hspared.config] at hnone
    rcases hpolicy with h | h <;> simpa [h] using hnone
  simp only [not_or, not_exists, ← Option.eq_none_iff_forall_ne_some] at hempty
  have hzero := (inv.ensureMemory now needed).memUsed_eq_zero hempty.1 hempty.2
  simp [fits, hzero, hspared.config, hneeded] at hfull

end Sampling

/-- **Making room succeeds, and ends.**  In every state that a run from a new store reaches, and for
every reservation that is not larger than the limit:

* under a policy that may evict every key it is granted,
* one that is granted fits afterwards,
* under `volatile-lru` it is refused only if no string with an expiry is left,
* the eviction loop ends by itself: with more turns than the model gives it, it does the same. -/
theorem ensureMemory_complete [Platform] (s : Store) (hnew : s.IsNew) (ops : List (Instant × Op))
    (now : Instant) {needed : ℕ} (hneeded : needed ≤ s.config.memoryLimit) :
    (s.config.evictionPolicy = .allKeysLru ∨ s.config.evictionPolicy = .allKeysRandom →
      ((s.runState ops).ensureMemory now needed).1 = true) ∧
      (((s.runState ops).ensureMemory now needed).1 = true →
        ((s.runState ops).ensureMemory now needed).2.fits needed = true) ∧
      (s.config.evictionPolicy = .volatileLru →
        ((s.runState ops).ensureMemory now needed).1 = false →
          ∀ key e, ((s.runState ops).ensureMemory now needed).2.data.get key = some e →
            e.expiresAt = none) ∧
      ∀ giveUpAfter fuel, ((s.runState ops).reclaimExpiredFor now needed).evictFuel ≤ fuel →
        evictLoop now needed giveUpAfter fuel 0 0 ((s.runState ops).reclaimExpiredFor now needed) =
          evictLoop now needed giveUpAfter ((s.runState ops).reclaimExpiredFor now needed).evictFuel
            0 0 ((s.runState ops).reclaimExpiredFor now needed) := by
  have inv : Inv (s.runState ops) := hnew.inv.runState ops
  have hconfig : (s.runState ops).config = s.config := Moves.config (runState_moves hnew.inv ops)
  rw [← hconfig] at hneeded ⊢
  refine ⟨fun hpolicy => ensureMemory_of_allKeys inv hpolicy hneeded, ensureMemory_fits inv, ?_, ?_⟩
  · intro hpolicy hrefused key e hget
    have hnone := (not_eligible_of_refused inv hneeded hrefused).1
    rw [Eligible, (ensureMemory_spared inv needed).config, hpolicy] at hnone
    by_contra hexpires
    exact hnone ⟨key, e, hget, hexpires⟩
  · intro giveUpAfter fuel hle
    exact evictLoop_evictFuel ((reclaimExpiredFor_reaps inv needed).inv inv) hle

/-- A string and a hash make way for a reservation of nearly the whole limit. -/
theorem ensureMemory_complete_sample :
    letI := Platform.small
    let s := (new ⟨720, .allKeysLru, CompressionConfig.default⟩).runState
      [(0, .set "a" [1, 2, 3, 4, 5] (some 50)), (1, .hset "h" [("f", [1, 2]), ("g", [3])])]
    s.fits 700 = false ∧ (s.ensureMemory 2 700).1 = true ∧
      (s.ensureMemory 2 700).2.fits 700 = true := by
  let _ := Platform.small
  have hneeded : 700 ≤ (new ⟨720, .allKeysLru, CompressionConfig.default⟩).config.memoryLimit := by
    decide
  have hcomplete := ensureMemory_complete _ (new_isNew _) [(0, .set "a" [1, 2, 3, 4, 5] (some 50)),
    (1, .hset "h" [("f", [1, 2]), ("g", [3])])] 2 hneeded
  have hgranted := hcomplete.1 (Or.inl rfl)
  exact ⟨by decide, hgranted, hcomplete.2.1 hgranted⟩

end Store

end Ephpm.Kv
