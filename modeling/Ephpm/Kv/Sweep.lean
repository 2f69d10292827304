import Ephpm.Kv.Expiry

/-!
# What a sweep of a map visits

`scan_map` walks the buckets of a map from a cursor and stops when it has visited enough entries.
The **stops** of a cursor are the occupied buckets in the order of that walk, once around.  A scan
visits the first of them, as many as are wanted (`scanMap_visited`), and leaves a cursor just past
the last one.

If there are fewer entries than wanted the walk comes round without stopping, and the cursor stays
where it was.  That is not just past the last entry, but the **ring** of entries from there is the
same, and the next scan begins with the same one.  So every scan turns the ring by what it has
visited (`ring_next`), and scans one after the other read along the ring (`getElem?_visits`).
-/

namespace Ephpm.Kv

open Lib

variable {V : Type}

/-- The occupied buckets from a cursor, once around. -/
def stops (map : BucketMap String V) (cursor : MapCursor) : List (ℕ × ℕ) :=
  (sweep (tableLens map) cursor.shard cursor.bucket).filter fun pos => (slotAt map pos).isSome

/-- The entries from a cursor, once around. -/
def ring (map : BucketMap String V) (cursor : MapCursor) : List (String × V) :=
  (stops map cursor).filterMap (slotAt map)

/-- What successive scans visit. -/
def visits (map : BucketMap String V) : MapCursor → List ℕ → List (String × V)
  | _, [] => []
  | cursor, want :: wants =>
    (scanMap map cursor want).1 ++ visits map (scanMap map cursor want).2 wants

/-! ## One scan -/

theorem length_ring (map : BucketMap String V) (cursor : MapCursor) :
    (ring map cursor).length = (stops map cursor).length := by
  rw [ring, List.length_filterMap_eq_countP, List.countP_eq_length]
  exact fun pos hpos => (List.mem_filter.mp hpos).2

theorem ring_eq (map : BucketMap String V) (cursor : MapCursor) :
    ring map cursor =
      (sweep (tableLens map) cursor.shard cursor.bucket).filterMap (slotAt map) :=
  filterMap_filter_isSome _ _

/-- The entries of one shard in table order. -/
theorem filterMap_shardPositions (map : BucketMap String V) (shard : ℕ) :
    (shardPositions (tableLens map) shard).filterMap (slotAt map) =
      (map.shards.getD shard []).entries := by
  have htable : (List.range (map.shards.getD shard []).length).map
      (fun bucket => (map.shards.getD shard [])[bucket]?.join) = map.shards.getD shard [] := by
    refine List.ext_getElem (by simp) fun i hi hi' => ?_
    rw [List.getElem_map, List.getElem_range, List.getElem?_eq_getElem hi']
    rfl
  rw [shardPositions, bucketsOf_tableLens, List.filterMap_map, Table.entries, List.reduceOption]
  conv_rhs => rw [← htable, List.filterMap_map]
  rfl

theorem filterMap_positions (map : BucketMap String V) :
    (positions (tableLens map)).filterMap (slotAt map) = map.entries := by
  have hshards : (List.range map.shards.length).map (fun shard => map.shards.getD shard []) =
      map.shards := by
    refine List.ext_getElem (by simp) fun i hi hi' => ?_
    rw [List.getElem_map, List.getElem_range, List.getD_eq_getElem _ _ hi']
  rw [positions, List.filterMap_flatMap, length_tableLens, BucketMap.entries_eq_flatMap]
  conv_rhs => rw [← hshards, List.flatMap_map]
  exact List.flatMap_congr fun shard _ => filterMap_shardPositions map shard

/-- **The ring holds every entry once**, whatever the cursor. -/
theorem ring_perm (map : BucketMap String V) (cursor : MapCursor) :
    (ring map cursor).Perm map.entries := by
  rw [ring_eq, ← filterMap_positions, sweep_eq_rotate (tableLens_pos map)]
  exact (List.rotate_perm _ _).filterMap _

/-- **What a scan visits**: the first entries of the ring, as many as are wanted. -/
theorem scanMap_visited (map : BucketMap String V) (cursor : MapCursor) (want : ℕ) :
    (scanMap map cursor want).1 = (ring map cursor).take want := by
  rcases Nat.eq_zero_or_pos want with rfl | hwant
  · rw [List.take_zero]
    exact congrArg Prod.fst (if_pos (Or.inr rfl))
  · rw [ring_eq, ← (walk_visited hwant).1, scanMap_eq map cursor hwant]
    split
    next heq => rw [heq]
    next heq => rw [heq]

/-- **Where a scan leaves the cursor**: just past the last stop, or where it was. -/
theorem scanMap_cursor (map : BucketMap String V) (cursor : MapCursor) {want : ℕ}
    (hwant : 0 < want) : (scanMap map cursor want).2 =
      (stops map cursor)[want - 1]?.elim ⟨cursor.shard % map.shards.length, cursor.bucket⟩
        fun stop => ⟨(following (tableLens map) stop).1, (following (tableLens map) stop).2⟩ := by
  rw [stops, ← (walk_visited hwant).2, scanMap_eq map cursor hwant]
  split
  next heq =>
    rw [heq]
    rfl
  next heq =>
    rw [heq]
    rfl

/-- **A scan turns the ring** by what it has visited. -/
theorem ring_next (map : BucketMap String V) (cursor : MapCursor) (want : ℕ) :
    ring map (scanMap map cursor want).2 =
      (ring map cursor).rotate (min want (ring map cursor).length) := by
  rcases Nat.eq_zero_or_pos want with rfl | hwant
  · have hsame : (scanMap map cursor 0).2 = cursor := congrArg Prod.snd (if_pos (Or.inr rfl))
    rw [hsame, Nat.zero_min, List.rotate_zero]
  have hpos := tableLens_pos map
  have hstop := (@walk_visited _ (slotAt map)
    (sweep (tableLens map) cursor.shard cursor.bucket) _ hwant).2
  have hlength := length_ring map cursor
  rw [scanMap_cursor map cursor hwant]
  cases hlast : (stops map cursor)[want - 1]? with
  | none =>
    -- the walk has come round
    have hall := List.getElem?_eq_none_iff.mp hlast
    have hround : sweep (tableLens map) (cursor.shard % map.shards.length) cursor.bucket =
        sweep (tableLens map) cursor.shard cursor.bucket := by
      rw [sweep_eq_rotate hpos, sweep_eq_rotate hpos, length_tableLens, Nat.mod_mod]
    have hring : ring map ⟨cursor.shard % map.shards.length, cursor.bucket⟩ =
        ring map cursor := by
      rw [ring_eq, ring_eq, hround]
    rw [Nat.min_eq_right (by omega), List.rotate_length]
    exact hring
  | some stop =>
    have hwalk := hstop.trans hlast
    obtain ⟨before, after, hsweep, hvisited⟩ := walk_some hwalk
    have hnext := sweep_following hpos hsweep
    have hlt := (List.getElem?_eq_some_iff.mp hlast).1
    have htake : (before ++ [stop]).filterMap (slotAt map) = (ring map cursor).take want := by
      rw [← hvisited, (walk_visited hwant).1, ring_eq]
    have hring : ring map cursor = (before ++ [stop]).filterMap (slotAt map) ++
        after.filterMap (slotAt map) := by
      rw [ring_eq, hsweep, ← List.filterMap_append, List.append_assoc]
      rfl
    have hmin : min want (ring map cursor).length =
        ((before ++ [stop]).filterMap (slotAt map)).length := by
      rw [htake, List.length_take]
    rw [hmin, hring, List.rotate_append_length_eq, ← List.filterMap_append, ← hnext]
    exact ring_eq map _

/-! ## Scan after scan -/

theorem length_ring_eq (map : BucketMap String V) (cursor : MapCursor) :
    (ring map cursor).length = map.len := (ring_perm map cursor).length_eq

/-- **Scans one after the other read along the ring.** -/
theorem getElem?_visits (map : BucketMap String V) (cursor : MapCursor) (wants : List ℕ) {i : ℕ}
    (hi : i < (visits map cursor wants).length) :
    (visits map cursor wants)[i]? = (ring map cursor)[i % map.len]? := by
  induction wants generalizing cursor i with
  | nil => exact absurd hi (Nat.not_lt_zero i)
  | cons want wants ih =>
    have hlen := length_ring_eq map cursor
    rw [visits, scanMap_visited, List.length_append, List.length_take, hlen] at hi
    rw [visits, scanMap_visited]
    rcases Nat.lt_or_ge i (min want map.len) with hlt | hge
    · have hlt' : i < want ∧ i < map.len := Nat.lt_min.mp hlt
      rw [List.getElem?_append_left (by rwa [List.length_take, hlen]),
        List.getElem?_take_of_lt hlt'.1, Nat.mod_eq_of_lt hlt'.2]
    · have hrest := @ih (scanMap map cursor want).2 (i - min want map.len) (by omega)
      have hpos : 0 < map.len := by
        have hsome : (visits map (scanMap map cursor want).2 wants)[i - min want map.len]? ≠
            none := by
          rw [Ne, List.getElem?_eq_none_iff]
          omega
        by_contra hzero
        have hempty : ring map (scanMap map cursor want).2 = [] :=
          List.eq_nil_of_length_eq_zero (by rw [length_ring_eq]; omega)
        rw [hrest, hempty] at hsome
        exact hsome rfl
      rw [List.getElem?_append_right (by rw [List.length_take, hlen]; exact hge),
        List.length_take, hlen, hrest, ring_next, hlen,
        List.getElem?_rotate (by rw [hlen]; exact Nat.mod_lt _ hpos), hlen]
      congr 1
      rw [Nat.mod_add_mod, Nat.sub_add_cancel hge]

theorem cycle_eq_rotate (map : BucketMap String V) (cursor : MapCursor) (wants : List ℕ) {i : ℕ}
    (hi : i + map.len ≤ (visits map cursor wants).length) :
    ((visits map cursor wants).drop i).take map.len = (ring map cursor).rotate i := by
  have hlen := length_ring_eq map cursor
  refine List.ext_getElem? fun j => ?_
  rcases Nat.lt_or_ge j map.len with hj | hj
  · rw [List.getElem?_take_of_lt hj, List.getElem?_drop,
      getElem?_visits map cursor wants (by omega), List.getElem?_rotate (by omega), hlen,
      Nat.add_comm j i]
  · rw [List.getElem?_eq_none (by rw [List.length_take]; omega),
      List.getElem?_eq_none (by rw [List.length_rotate]; omega)]

theorem mem_positions_of_slotAt {map : BucketMap String V} {pos : ℕ × ℕ}
    (h : (slotAt map pos).isSome) : pos ∈ positions (tableLens map) := by
  obtain ⟨entry, hentry⟩ := Option.isSome_iff_exists.mp h
  rw [slotAt, Option.join_eq_some_iff] at hentry
  have hbucket := (List.getElem?_eq_some_iff.mp hentry).1
  rw [← bucketsOf_tableLens] at hbucket
  refine mem_positions.mpr ⟨?_, hbucket⟩
  by_contra hshard
  rw [bucketsOf, List.getD_eq_default _ _ (Nat.le_of_not_lt hshard)] at hbucket
  exact Nat.not_lt_zero _ hbucket

theorem mem_stops {map : BucketMap String V} {cursor : MapCursor} {pos : ℕ × ℕ} :
    pos ∈ stops map cursor ↔ (slotAt map pos).isSome := by
  rw [stops, List.mem_filter, mem_sweep (tableLens_pos map)]
  exact ⟨fun h => h.2, fun h => ⟨mem_positions_of_slotAt h, h⟩⟩

theorem stops_nodup (map : BucketMap String V) (cursor : MapCursor) :
    (stops map cursor).Nodup := by
  rw [stops, sweep_eq_rotate (tableLens_pos map)]
  exact (List.nodup_rotate.mpr (positions_nodup _)).filter _

/-- **A sweep.**  The stops of a cursor are the occupied buckets in the order of the table, turned
to where the cursor points, each of them once.  A scan visits the entries of the first stops, as
many as are wanted.  The cursor that it leaves is just past the last stop, and where it was, with
its shard wrapped, if there were fewer than wanted.  Successive scans of the same map go round, and
visit every entry exactly once per cycle, from whichever visit the cycle is counted. -/
theorem sweeps_visit (map : BucketMap String V) (cursor : MapCursor) :
    (stops map cursor = ((positions (tableLens map)).rotate
        (shardOffset (tableLens map) (cursor.shard % map.shards.length) +
          startBucket (tableLens map) (cursor.shard % map.shards.length) cursor.bucket)).filter
          fun pos => (slotAt map pos).isSome) ∧
      (stops map cursor).Nodup ∧ (∀ pos, pos ∈ stops map cursor ↔ (slotAt map pos).isSome) ∧
      (stops map cursor).length = map.len ∧
      (∀ want, (scanMap map cursor want).1 =
        ((stops map cursor).take (min want map.len)).filterMap (slotAt map)) ∧
      (scanMap map cursor 0).2 = cursor ∧
      (∀ want, 0 < want → (scanMap map cursor want).2 =
        (stops map cursor)[want - 1]?.elim ⟨cursor.shard % map.shards.length, cursor.bucket⟩
          fun stop => ⟨(following (tableLens map) stop).1, (following (tableLens map) stop).2⟩) ∧
      ∀ wants, (∀ i, i < (visits map cursor wants).length →
          (visits map cursor wants)[i]? = (ring map cursor)[i % map.len]?) ∧
        ∀ i, i + map.len ≤ (visits map cursor wants).length →
          (((visits map cursor wants).drop i).take map.len).Perm map.entries := by
  have hlength : (stops map cursor).length = map.len :=
    (length_ring map cursor).symm.trans (length_ring_eq map cursor)
  refine ⟨?_, stops_nodup map cursor, fun pos => mem_stops, hlength, fun want => ?_,
    congrArg Prod.snd (if_pos (Or.inr rfl)), fun want => scanMap_cursor map cursor,
    fun wants => ⟨fun i => getElem?_visits map cursor wants, fun i hi => ?_⟩⟩
  · rw [stops, sweep_eq_rotate (tableLens_pos map), length_tableLens]
  · have htake : (stops map cursor).take want = (stops map cursor).take (min want map.len) := by
      rw [← hlength, List.take_eq_take_iff]
      omega
    rw [scanMap_visited, ring, take_filterMap fun pos hpos => mem_stops.mp hpos, htake]
  · rw [cycle_eq_rotate map cursor wants hi]
    exact (List.rotate_perm _ _).trans (ring_perm map cursor)

/-- One shard of two buckets, with one entry. -/
def halfEmpty : BucketMap String ℕ where
  shardOf _ := 0
  shards := [[some ("a", 0), none]]
  coming _ := .append
  shardOf_lt _ := Nat.one_pos
  nodup := by simp [KeysNodup]
  home := by
    intro i table htable entry _
    cases i with
    | zero => rfl
    | succ i => cases htable

/-- **A walk that comes round leaves the cursor where it was.**  Two entries are wanted and there is
one, in the first of two buckets: just past it is the second one. -/
theorem scanMap_comes_round :
    scanMap halfEmpty ⟨0, 0⟩ 2 = ([("a", 0)], ⟨0, 0⟩) ∧ slotAt halfEmpty (0, 0) = some ("a", 0) ∧
      following (tableLens halfEmpty) (0, 0) = (0, 1) := by
  decide

end Ephpm.Kv
