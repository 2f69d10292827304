import Ephpm.Kv.Operations

/-!
# Watched keys

A waiter holds the version it last saw of a key and asks to be woken once the
version is greater (`store/watch.rs`).  What it may conclude from a version that
stands still is a statement about all writes, reaps, evictions and flushes
together: none of them changes the stored string without a bump.

`Tracked` relates two states of a store that way and is a preorder, so it suffices
to look at one move at a time (`Move.tracked`).  Versions are `u64` and saturate,
and a version at the maximum is where the guarantee ends: from there on writes go
unnoticed (`exists_saturated_version`).
-/

namespace Ephpm.Kv

open Lib

namespace Store

/-- What is stored under `key` as a string: the bytes and whether they are
compressed. -/
def storedValue (key : String) (s : Store) : Option (Bytes × Bool) :=
  (s.data.get key).map fun e => (e.data, e.compressed)

/-- **Nothing happened to a watched key without a bump** on the way from `s` to
`s'`: its slot is still there, its version did not go down, and it went up if the
stored string is another one, unless it could not go up any more. -/
def Tracked (s s' : Store) : Prop :=
  ∀ key version, s.watchers.get key = some version →
    ∃ version', s'.watchers.get key = some version' ∧ version ≤ version' ∧
      (s'.storedValue key ≠ s.storedValue key → version < version' ∨ version = u64Max)

theorem Tracked.refl (s : Store) : Tracked s s :=
  fun _ version hget => ⟨version, hget, le_rfl, fun h => absurd rfl h⟩

theorem Tracked.trans {a b c : Store} (hab : Tracked a b) (hbc : Tracked b c) :
    Tracked a c := by
  intro key version hget
  obtain ⟨middle, hmiddle, hle, hchange⟩ := hab key version hget
  obtain ⟨last, hlast, hle', hchange'⟩ := hbc key middle hmiddle
  refine ⟨last, hlast, hle.trans hle', fun hdiffer => ?_⟩
  by_cases hfirst : b.storedValue key = a.storedValue key
  · rcases hchange' (hfirst ▸ hdiffer) with hlt | hmax
    · exact Or.inl (hle.trans_lt hlt)
    · rcases hle.lt_or_eq with hlt | heq
      · exact Or.inl (hlt.trans_le hle')
      · exact Or.inr (heq.trans hmax)
  · exact (hchange hfirst).imp_left fun hlt => hlt.trans_le hle'

section Moves

variable [P : Platform] {s s' : Store}

omit P in
theorem le_bump {version : ℕ} (h : version ≤ u64Max) : version ≤ bump version :=
  le_min (Nat.le_succ version) h

omit P in
theorem lt_bump_or_eq {version : ℕ} (h : version ≤ u64Max) :
    version < bump version ∨ version = u64Max := by
  rcases h.lt_or_eq with hlt | heq
  · exact Or.inl (lt_min (Nat.lt_succ_self version) hlt)
  · exact Or.inr heq

/-- Waking the waiters of `key` bumps its version, if it has one. -/
theorem Inv.notifyWrite_get (inv : Inv s) (key other : String) :
    (s.notifyWrite key).watchers.get other =
      if other = key then (s.watchers.get other).map bump else s.watchers.get other := by
  unfold Store.notifyWrite
  by_cases hslots : s.watchSlots = 0
  · rw [if_pos hslots, inv.watched hslots other]
    simp
  · rw [if_neg hslots]
    by_cases heq : other = key
    · subst heq
      cases hget : s.watchers.get other <;> simp [hget]
    · cases s.watchers.get key <;> simp [heq]

/-- A change that bumps the versions of some keys `B` and stores nothing new under
any other key is tracked. -/
theorem Inv.tracked_of_bump (inv : Inv s) {B : String → Prop} [DecidablePred B]
    (hversions : ∀ key, s'.watchers.get key =
      if B key then (s.watchers.get key).map bump else s.watchers.get key)
    (hothers : ∀ key, ¬ B key → s'.storedValue key = s.storedValue key) :
    Tracked s s' := by
  intro key version hget
  have hle := inv.versioned key version hget
  have hversion := hversions key
  split at hversion
  next =>
    rw [hget, Option.map_some] at hversion
    exact ⟨bump version, hversion, le_bump hle, fun _ => lt_bump_or_eq hle⟩
  next hkey =>
    exact ⟨version, hversion.trans hget, le_rfl, fun h => absurd (hothers key hkey) h⟩

/-- A change of neither versions nor stored strings is tracked. -/
theorem Inv.tracked_of_same (inv : Inv s) (hversions : s'.watchers = s.watchers)
    (hstored : ∀ key, s'.storedValue key = s.storedValue key) : Tracked s s' :=
  inv.tracked_of_bump (B := fun _ => False) (fun key => by rw [hversions, if_neg id])
    fun key _ => hstored key

/-- **A move is tracked.** -/
theorem Move.tracked (move : Move s s') (inv : Inv s) : Tracked s s' := by
  cases move with
  | @write key entry sized =>
    refine inv.tracked_of_bump (B := (· = key)) (fun other => ?_) fun other hother => ?_
    · exact (inv.putString key sized).notifyWrite_get key other
    · simp [storedValue, hother]
  | @retime key e e' hget hdata hcompressed hmem =>
    refine inv.tracked_of_same rfl fun other => ?_
    simp only [storedValue, putString, BucketMap.get_set]
    split
    next heq => rw [heq, hget, Option.map_some, Option.map_some, hdata, hcompressed]
    next => rfl
  | hash _ _ _ => exact inv.tracked_of_same rfl fun _ => rfl
  | notify key =>
    exact inv.tracked_of_bump (B := (· = key)) (inv.notifyWrite_get key)
      fun other _ => by simp [storedValue]
  | @watch key hget =>
    intro other version hother
    have hne : other ≠ key := by
      rintro rfl
      rw [hget] at hother
      cases hother
    refine ⟨version, ?_, le_rfl, fun h => absurd ?_ h⟩
    · rw [watchSlot, hget]
      simpa [hne] using hother
    · rw [watchSlot, hget]
      rfl
  | flush =>
    intro key version hget
    have hle := inv.versioned key version hget
    have hslots : s.watchSlots ≠ 0 := fun hzero => by
      rw [inv.watched hzero key] at hget
      cases hget
    refine ⟨bump version, ?_, le_bump hle, fun _ => lt_bump_or_eq hle⟩
    rw [Store.flush]
    simp only [if_neg hslots]
    rw [BucketMap.get_map, hget, Option.map_some]
  | shrink =>
    exact inv.tracked_of_same rfl fun key => by simp [storedValue, shrinkSparseTables]
  | record _ => exact inv.tracked_of_same rfl fun _ => rfl
  | resample _ _ _ _ _ => exact inv.tracked_of_same rfl fun _ => rfl

theorem Moves.tracked (moves : Moves s s') (inv : Inv s) : Tracked s s' :=
  Path.relates (fun _ _ inv move => move.inv inv) Tracked.refl (fun _ _ _ => Tracked.trans)
    (fun _ _ inv move => move.tracked inv) moves inv

/-- A look that finds no greater version finds the version it was given, or a
smaller one. -/
theorem le_of_waitForChange_none {now : Instant} {key : String} {last version : ℕ}
    (hget : s.watchers.get key = some version)
    (hnone : (s.waitForChange now key last).1 = none) : version ≤ last := by
  rw [waitForChange, watchSlot, hget] at hnone
  simp only at hnone
  split at hnone
  · cases hnone
  next h => exact not_lt.mp h

end Moves

/-- **A version vouches for the stored string.**  From a state of a run to any later
one, a slot is never lost and its version never goes down; if the string stored
under the key is another one, the version has gone up, unless it stood at the
largest `u64` already.  So a waiter that is told of no greater version may conclude
that the string did not change. -/
theorem version_vouches [Platform] (s : Store) (hnew : s.IsNew)
    (ops more : List (Instant × Op)) (key : String) (version : ℕ)
    (hget : (s.runState ops).watchers.get key = some version) :
    (∃ version', ((s.runState ops).runState more).watchers.get key = some version' ∧
      version ≤ version' ∧
      (((s.runState ops).runState more).storedValue key ≠ (s.runState ops).storedValue key →
        version < version' ∨ version = u64Max)) ∧
    ∀ now, version ≠ u64Max →
      (((s.runState ops).runState more).waitForChange now key version).1 = none →
        ((s.runState ops).runState more).storedValue key = (s.runState ops).storedValue key := by
  have inv := hnew.inv.runState ops
  have htracked := (runState_moves inv more).tracked inv key version hget
  refine ⟨htracked, fun now hmax hnone => ?_⟩
  obtain ⟨version', hget', -, hchange⟩ := htracked
  have hle := le_of_waitForChange_none hget' hnone
  by_contra hdiffer
  rcases hchange hdiffer with hlt | heq
  · exact absurd hle (not_le.mpr hlt)
  · exact hmax heq

/-- A watched key is written, read and left to expire: two bumps. -/
theorem version_vouches_sample :
    letI := Platform.small
    let s := new StoreConfig.default
    let watched := s.runState [(0, .set "k" [1] none), (1, .wait "k" 0)]
    let later := watched.runState [(2, .set "k" [2] (some 5)), (9, .get "k")]
    watched.watchers.get "k" = some 1 ∧ later.watchers.get "k" = some 3 ∧
      ∃ version', later.watchers.get "k" = some version' ∧ 1 ≤ version' ∧
        (later.storedValue "k" ≠ watched.storedValue "k" → 1 < version' ∨ 1 = u64Max) := by
  let _ := Platform.small
  exact ⟨by decide, by decide,
    (version_vouches (new StoreConfig.default) (new_isNew _)
      [(0, .set "k" [1] none), (1, .wait "k" 0)]
      [(2, .set "k" [2] (some 5)), (9, .get "k")] "k" 1 (by decide)).1⟩

/-! ## Where the guarantee ends -/

section Saturation

variable [P : Platform] {s : Store} {now : Instant} {key : String}

theorem setLocal_unlimited (inv : Inv s) (hlimit : s.config.memoryLimit = 0) (value : Bytes)
    (ttl : Option Duration) :
    s.setLocal now key value ttl =
      (true, s.writeString key (some (s.written now key value (ttl.map (now + ·))))) := by
  have hfits : ∀ n, s.fits n = true := fun n => by simp [fits, hlimit]
  change s.replaceEntry now key (s.written now key value (ttl.map (now + ·))) = _
  rw [replaceEntry_eq inv, ensureMemory_of_fits (hfits _)]
  rfl

/-- Writing the same key over and over counts its version up to the largest
`u64`, where it stays. -/
theorem version_after_sets (inv : Inv s) (hlimit : s.config.memoryLimit = 0) {version : ℕ}
    (hget : s.watchers.get key = some version) (value : Bytes) (n : ℕ) :
    (s.runState (List.replicate n (now, .set key value none))).watchers.get key =
      some (min (version + n) u64Max) := by
  induction n generalizing s version with
  | zero =>
    rw [Nat.add_zero, min_eq_left (inv.versioned key version hget)]
    exact hget
  | succ n ih =>
    have hstep : (s.step now (.set key value none)).2 =
        s.writeString key (some (s.written now key value none)) :=
      congrArg Prod.snd (setLocal_unlimited inv hlimit value none)
    have invStep := (step_moves inv now (.set key value none)).inv inv
    rw [List.replicate_succ, runState_cons]
    rw [hstep] at invStep ⊢
    have hbumped : (s.writeString key (some (s.written now key value none))).watchers.get key =
        some (bump version) := by
      rw [writeString, (inv.putString key (by rintro _ ⟨⟩; rfl)).notifyWrite_get, if_pos rfl]
      exact congrArg (Option.map bump) hget
    rw [ih invStep (by rw [writeString_config]; exact hlimit) hbumped, bump]
    congr 1
    omega

/-- Without a memory limit, what is stored after a plain write is the encoded
value. -/
theorem stored_after_set (inv : Inv s) (hlimit : s.config.memoryLimit = 0) (now : Instant)
    (key : String) (value : Bytes) :
    (s.step now (.set key value none)).2.storedValue key =
      some (encodeValue s.config value) := by
  have hstep : (s.step now (.set key value none)).2 =
      s.writeString key (some (s.written now key value none)) :=
    congrArg Prod.snd (setLocal_unlimited inv hlimit value none)
  rw [hstep, storedValue, writeString_data, BucketMap.get_set, if_pos rfl]
  rfl

end Saturation

/-- **The guarantee ends at the largest version**: a run long enough leaves a slot
there, and the next write changes the stored string under an unchanged version. -/
theorem exists_saturated_version :
    letI := Platform.small
    ¬ ∀ (s : Store), s.IsNew → ∀ (ops more : List (Instant × Op)) (key : String)
        (version version' : ℕ),
      (s.runState ops).watchers.get key = some version →
      ((s.runState ops).runState more).watchers.get key = some version' →
      ((s.runState ops).runState more).storedValue key ≠ (s.runState ops).storedValue key →
        version < version' := by
  let _ := Platform.small
  intro hclaim
  obtain ⟨n, hn⟩ : ∃ n, n + 1 = u64Max := ⟨2 ^ 64 - 2, rfl⟩
  set start := new ⟨0, .allKeysLru, CompressionConfig.default⟩ with hstart
  have hisNew : start.IsNew := new_isNew _
  have invWatched : Inv (start.runState [(0, .wait "k" 0)]) := hisNew.inv.runState _
  have hconfig : ∀ ops : List (Instant × Op), (start.runState ops).config = start.config :=
    fun ops => Moves.config (runState_moves hisNew.inv ops)
  have hlimit : ∀ ops : List (Instant × Op), (start.runState ops).config.memoryLimit = 0 :=
    fun ops => congrArg StoreConfig.memoryLimit (hconfig ops)
  -- One write short of the largest version, then the write that reaches it.
  set most := [(0, .wait "k" 0)] ++ List.replicate n ((0, .set "k" [1] none) : Instant × Op)
    with hmost
  have hall : start.runState (most ++ [(0, .set "k" [1] none)]) =
      (start.runState [(0, .wait "k" 0)]).runState
        (List.replicate (n + 1) (0, .set "k" [1] none)) := by
    rw [hmost, List.append_assoc, ← List.replicate_succ', runState_append]
  have hversion : (start.runState (most ++ [(0, .set "k" [1] none)])).watchers.get "k" =
      some u64Max := by
    have hslot : (start.runState [(0, .wait "k" 0)]).watchers.get "k" = some 1 := by decide
    rw [hall, version_after_sets invWatched (hlimit _) hslot, hn]
    rfl
  have hstored : (start.runState (most ++ [(0, .set "k" [1] none)])).storedValue "k" =
      some ([1], false) := by
    have hlast := stored_after_set (hisNew.inv.runState most) (hlimit most) 0 "k" [1]
    rw [hconfig] at hlast
    rw [runState_append]
    exact hlast
  set full := most ++ [((0, .set "k" [1] none) : Instant × Op)] with hfull
  have invFull : Inv (start.runState full) := hisNew.inv.runState full
  refine absurd (hclaim start hisNew full [(0, .set "k" [2] none)] "k" u64Max u64Max hversion
    ?_ ?_) (lt_irrefl _)
  · exact version_after_sets invFull (hlimit full) hversion [2] 1
  · have hlast := stored_after_set invFull (hlimit full) 0 "k" [2]
    rw [hconfig] at hlast
    rw [hstored]
    exact fun heq => absurd (hlast.symm.trans heq) (by decide)

end Store

end Ephpm.Kv
