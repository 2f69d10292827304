import Mathlib.Data.List.GetD
import Ephpm.Kv.Operations

/-!
# Active expiry reaches everything

A round of active expiry looks at twenty hints of each index and remembers where
it stopped.  Nothing in a round says that an expired key is ever looked at; that
follows from three facts which this file puts together.

* **The indexes are complete.**  `Inv` says that `ttlKeys` lists the deadline of
  each string that has one, and that the hint of a hash is no later than the first
  moment anything in it expires (`Inv.hint_le`).  A deadline nobody wrote down would
  never be found.
* **Reaping is in place.**  A reaped hint leaves an empty bucket and a corrected
  one stays in its bucket (`InPlace`), so the cursor of the last round still points
  at where the round stopped.
* **A sweep comes round.**  `scanMap` walks the ring of buckets from the cursor
  (`scanMap_eq`).  What it walked over holds only hints that are still to come, so
  the part of the ring that may hold a hint due at `t` shrinks by a bucket or more
  in each round (`Behind.after_round`).

Between rounds the cursor is packed into one word, a shard number of 16 bits and a
bucket number of 48.  The source relies on no map having anywhere near that many
shards; `Packable` states the range, and a map beyond it would not be swept whole.
-/

namespace Ephpm.Kv

open Lib

section Places

variable {V : Type}

/-! ## Buckets under in-place changes -/

/-- `map'` has the layout of `map`: what is left of an entry stands where the entry
stood, and no key was added. -/
structure InPlace (map map' : BucketMap String V) : Prop where
  lens : tableLens map' = tableLens map
  slots : ∀ pos, slotAt map' pos =
    (slotAt map pos).bind fun entry => (map'.get entry.1).map (Prod.mk entry.1)
  absent : ∀ key, map.get key = none → map'.get key = none

theorem InPlace.refl (map : BucketMap String V) : InPlace map map := by
  refine ⟨rfl, fun pos => ?_, fun _ h => h⟩
  cases hslot : slotAt map pos with
  | none => rfl
  | some entry => simp [get_of_slotAt hslot]

/-- Changes in place go on being in place. -/
theorem InPlace.trans {map map' map'' : BucketMap String V} (h : InPlace map map')
    (h' : InPlace map' map'') : InPlace map map'' := by
  refine ⟨h'.lens.trans h.lens, fun pos => ?_, fun key hkey => h'.absent key (h.absent key hkey)⟩
  rw [h'.slots, h.slots]
  cases slotAt map pos with
  | none => rfl
  | some entry =>
    cases hkept : map'.get entry.1 with
    | none => simp [hkept, h'.absent entry.1 hkept]
    | some value => simp [hkept]

/-- A filter leaves the buckets where they are. -/
theorem tableLens_filterMap (map : BucketMap String V) (f : String → V → Option V) :
    tableLens (map.filterMap f) = tableLens map := by
  simp [tableLens, BucketMap.filterMap, Table.filterMap, Function.comp_def]

/-- A filter looks at each bucket on its own. -/
theorem slotAt_filterMap (map : BucketMap String V) (f : String → V → Option V)
    (pos : ℕ × ℕ) :
    slotAt (map.filterMap f) pos =
      (slotAt map pos).bind fun entry => (f entry.1 entry.2).map (Prod.mk entry.1) := by
  simp only [slotAt, BucketMap.filterMap, List.getD_eq_getElem?_getD, List.getElem?_map]
  cases map.shards[pos.1]? with
  | none => rfl
  | some table =>
    simp only [Option.map_some, Option.getD_some, Table.filterMap, List.getElem?_map]
    cases table[pos.2]? with
    | none => rfl
    | some slot => cases slot <;> rfl

/-- A filter is a change in place. -/
theorem inPlace_filterMap (map : BucketMap String V) (f : String → V → Option V) :
    InPlace map (map.filterMap f) := by
  refine ⟨tableLens_filterMap map f, fun pos => ?_, fun key hkey => by simp [hkey]⟩
  rw [slotAt_filterMap]
  cases hslot : slotAt map pos with
  | none => rfl
  | some entry => simp [get_of_slotAt hslot]

/-- Storing a key that is there and removing a key are in place. -/
theorem inPlace_set (map : BucketMap String V) (key : String) (value : Option V)
    (hpresent : value.isSome = true → (map.get key).isSome = true) :
    InPlace map (map.set key value) := by
  cases value with
  | none => exact inPlace_filterMap map _
  | some new =>
    obtain ⟨old, hold⟩ := Option.isSome_iff_exists.mp (hpresent rfl)
    rw [BucketMap.set_some, BucketMap.insert, dif_pos (BucketMap.mem_keys_of_get hold)]
    exact inPlace_filterMap map _

/-- An entry stands in a bucket. -/
theorem exists_slotAt {map : BucketMap String V} {key : String} {value : V}
    (hget : map.get key = some value) :
    ∃ pos ∈ positions (tableLens map), slotAt map pos = some (key, value) := by
  rw [BucketMap.get_eq_some_iff, BucketMap.entries_eq_flatMap, List.mem_flatMap] at hget
  obtain ⟨table, htable, hentry⟩ := hget
  obtain ⟨shard, hshard⟩ := List.mem_iff_getElem?.mp htable
  obtain ⟨bucket, hbucket⟩ := List.mem_iff_getElem?.mp (List.reduceOption_mem_iff.mp hentry)
  obtain ⟨hlt, rfl⟩ := List.getElem?_eq_some_iff.mp hshard
  obtain ⟨hin, -⟩ := List.getElem?_eq_some_iff.mp hbucket
  refine ⟨(shard, bucket), mem_positions.mpr ⟨?_, ?_⟩, ?_⟩
  · simpa [tableLens] using hlt
  · simpa [tableLens, bucketsOf, hlt] using hin
  · simp [slotAt, hlt, hbucket]

/-! ## A scan is a walk along the ring -/

/-- Whether the shard of a position holds any entry. -/
def occupied (map : BucketMap String V) (pos : ℕ × ℕ) : Bool :=
  !(map.shards.getD pos.1 []).entries.isEmpty

/-- A bucket that is not occupied is empty. -/
theorem slotAt_of_not_occupied {map : BucketMap String V} (pos : ℕ × ℕ)
    (h : occupied map pos = false) : slotAt map pos = none := by
  rw [occupied, Bool.not_eq_false', List.isEmpty_iff] at h
  cases hslot : slotAt map pos with
  | none => rfl
  | some entry =>
    rw [slotAt, Option.join_eq_some_iff] at hslot
    have mem : entry ∈ Table.entries (map.shards.getD pos.1 []) :=
      List.reduceOption_mem_iff.mpr (List.mem_of_getElem? hslot)
    rw [h] at mem
    cases mem

/-- The number of buckets of a shard. -/
theorem bucketsOf_tableLens (map : BucketMap String V) (shard : ℕ) :
    bucketsOf (tableLens map) shard = (map.shards.getD shard []).length := by
  simp only [bucketsOf, tableLens, List.getD_eq_getElem?_getD, List.getElem?_map]
  cases map.shards[shard]? <;> rfl

/-- Buckets of one shard are all in an occupied shard or all in an empty one. -/
private theorem filter_occupied (map : BucketMap String V) (shard : ℕ) (buckets : List ℕ) :
    (buckets.map (Prod.mk shard)).filter (occupied map) =
      if (map.shards.getD shard []).entries.isEmpty then []
      else buckets.map (Prod.mk shard) := by
  cases hempty : (map.shards.getD shard []).entries.isEmpty with
  | true =>
    rw [if_pos rfl, List.filter_eq_nil_iff]
    intro pos mem
    obtain ⟨bucket, -, rfl⟩ := List.mem_map.mp mem
    rw [occupied, hempty]
    decide
  | false =>
    rw [if_neg (by decide), List.filter_eq_self]
    intro pos mem
    obtain ⟨bucket, -, rfl⟩ := List.mem_map.mp mem
    rw [occupied, hempty]
    rfl

/-- The positions of a shard from a bucket on. -/
private theorem drop_shardPositions (lens : List ℕ) (shard start : ℕ) :
    (shardPositions lens shard).drop start =
      (List.range' start (bucketsOf lens shard - start)).map (Prod.mk shard) := by
  rw [shardPositions, ← List.map_drop, List.range_eq_range', List.drop_range']
  simp

/-- The positions of a shard before a bucket. -/
private theorem take_shardPositions (lens : List ℕ) (shard start : ℕ) :
    (shardPositions lens shard).take start =
      (List.range' 0 (min start (bucketsOf lens shard))).map (Prod.mk shard) := by
  rw [shardPositions, ← List.map_take, List.take_range, ← List.range_eq_range']

/-- The cursor's bucket is wrapped in the same way on both sides once there is a
bucket. -/
private theorem startBucket_eq {map : BucketMap String V} {shard : ℕ} (start : ℕ)
    (h : (map.shards.getD shard []).entries.isEmpty = false) :
    startBucket (tableLens map) shard start = start % (map.shards.getD shard []).length := by
  have hpos : 0 < (map.shards.getD shard []).length := by
    rw [List.length_pos_iff]
    intro hnil
    rw [hnil] at h
    cases h
  rw [startBucket, bucketsOf_tableLens, max_eq_right hpos]

section Passes

variable {map : BucketMap String V} {first : ℕ} (hfirst : first < map.shards.length)
  (start : ℕ)

include hfirst

/-- The first pass goes from the cursor to the end of its shard. -/
private theorem scanPass_first :
    scanPass map first start 0 =
      ((shardPositions (tableLens map) first).drop
        (startBucket (tableLens map) first start)).filter (occupied map) := by
  have hne : ¬ 0 = map.shards.length := by omega
  rw [drop_shardPositions, filter_occupied, scanPass]
  simp only [Nat.add_zero, Nat.mod_eq_of_lt hfirst, if_true, if_neg hne]
  cases hempty : (map.shards.getD first []).entries.isEmpty with
  | true => rfl
  | false => rw [startBucket_eq start hempty, bucketsOf_tableLens]

omit hfirst in
/-- A pass in between goes over a whole shard. -/
private theorem scanPass_middle {pass : ℕ} (hpos : 0 < pass) (hlt : pass < map.shards.length) :
    scanPass map first start pass =
      (shardPositions (tableLens map) ((first + pass) % map.shards.length)).filter
        (occupied map) := by
  rw [shardPositions, filter_occupied, scanPass, bucketsOf_tableLens, List.range_eq_range']
  simp only [if_neg hpos.ne', if_neg hlt.ne, Nat.sub_zero]

/-- The last pass goes over what stands before the cursor in its shard. -/
private theorem scanPass_last :
    scanPass map first start map.shards.length =
      ((shardPositions (tableLens map) first).take
        (startBucket (tableLens map) first start)).filter (occupied map) := by
  have hne : ¬ map.shards.length = 0 := by omega
  rw [take_shardPositions, filter_occupied, scanPass]
  simp only [Nat.add_mod_right, Nat.mod_eq_of_lt hfirst, if_true, if_neg hne, Nat.sub_zero]
  cases hempty : (map.shards.getD first []).entries.isEmpty with
  | true => rfl
  | false => rw [startBucket_eq start hempty, bucketsOf_tableLens]

end Passes

theorem length_tableLens (map : BucketMap String V) :
    (tableLens map).length = map.shards.length := List.length_map ..

theorem shards_pos (map : BucketMap String V) : 0 < map.shards.length :=
  Nat.zero_lt_of_lt (map.shardOf_lt "")

theorem tableLens_pos (map : BucketMap String V) : 0 < (tableLens map).length := by
  rw [length_tableLens]
  exact shards_pos map

/-- **The places of a scan are the ring from its cursor**, without the shards that
hold nothing. -/
theorem scanPass_places (map : BucketMap String V) (shard start : ℕ) :
    (List.range (map.shards.length + 1)).flatMap
        (scanPass map (shard % map.shards.length) start) =
      (sweep (tableLens map) shard start).filter (occupied map) := by
  have hfirst : shard % map.shards.length < map.shards.length :=
    Nat.mod_lt _ (shards_pos map)
  have hpasses : List.range (map.shards.length + 1) =
      0 :: (List.range (map.shards.length - 1)).map (· + 1) ++ [map.shards.length] := by
    obtain ⟨n, hn⟩ : ∃ n, map.shards.length = n + 1 := ⟨map.shards.length - 1, by omega⟩
    rw [hn, List.range_succ, List.range_succ_eq_map, Nat.add_sub_cancel]
  have hmiddle : ((List.range (map.shards.length - 1)).map (· + 1)).flatMap
      (scanPass map (shard % map.shards.length) start) =
      ((List.range (map.shards.length - 1)).flatMap fun pass =>
        shardPositions (tableLens map)
          ((shard % map.shards.length + (pass + 1)) % map.shards.length)).filter
        (occupied map) := by
    rw [List.flatMap_map, List.filter_flatMap]
    refine List.flatMap_congr fun pass mem => ?_
    have hlt := List.mem_range.mp mem
    exact scanPass_middle start (Nat.succ_pos pass) (by omega)
  rw [hpasses, List.flatMap_append, List.flatMap_cons, hmiddle, scanPass_first hfirst,
    List.flatMap_singleton, scanPass_last hfirst, sweep, length_tableLens, List.filter_append,
    List.filter_append]

/-- **A scan, read along the ring.** -/
theorem scanMap_eq (map : BucketMap String V) (cursor : MapCursor) {want : ℕ}
    (hwant : 0 < want) :
    scanMap map cursor want =
      match walk (slotAt map) (sweep (tableLens map) cursor.shard cursor.bucket) want with
      | (visited, some stop) =>
        (visited, ⟨(following (tableLens map) stop).1, (following (tableLens map) stop).2⟩)
      | (visited, none) => (visited, ⟨cursor.shard % map.shards.length, cursor.bucket⟩) := by
  have hshards := shards_pos map
  have hwalk : walk (slotAt map) ((List.range (map.shards.length + 1)).flatMap
      (scanPass map (cursor.shard % map.shards.length) cursor.bucket)) want =
        walk (slotAt map) (sweep (tableLens map) cursor.shard cursor.bucket) want := by
    rw [scanPass_places, walk_filter slotAt_of_not_occupied]
  rw [← hwalk]
  exact if_neg (by omega)

end Places

/-! ## Sweeping an index -/

/-- A hint that is not due at `now`, or no hint. -/
def Coming (now : Instant) (hint : Option Instant) : Prop := ∀ d, hint = some d → now < d

/-- What reaping at `now` does to an index: hints go or are corrected to a later
moment, all in place. -/
structure Thins (now : Instant) (map map' : BucketMap String Instant) : Prop
    extends InPlace map map' where
  kept : ∀ key, map'.get key = map.get key ∨ Coming now (map'.get key)

theorem Thins.refl (now : Instant) (map : BucketMap String Instant) : Thins now map map :=
  { InPlace.refl map with kept := fun _ => .inl rfl }

/-- What was thinned out twice was thinned out. -/
theorem Thins.trans {now : Instant} {map map' map'' : BucketMap String Instant}
    (h : Thins now map map') (h' : Thins now map' map'') : Thins now map map'' := by
  refine { h.toInPlace.trans h'.toInPlace with kept := fun key => ?_ }
  rcases h'.kept key with hsame | hcoming
  · rw [hsame]
    exact h.kept key
  · exact .inr hcoming

/-- What is not due stays so. -/
theorem Thins.coming {now : Instant} {map map' : BucketMap String Instant}
    (h : Thins now map map') {key : String} (hcoming : Coming now (map.get key)) :
    Coming now (map'.get key) := by
  rcases h.kept key with hsame | hlater
  · rwa [hsame]
  · exact hlater

/-- The bucket at `pos` holds no hint that is due at `t`. -/
def Clean (t : Instant) (map : BucketMap String Instant) (pos : ℕ × ℕ) : Prop :=
  ∀ hint, slotAt map pos = some hint → t < hint.2

/-- All but the next `n` buckets from `cursor` are clean. -/
def Behind (t : Instant) (map : BucketMap String Instant) (cursor : MapCursor) (n : ℕ) :
    Prop :=
  CleanBehind (Clean t map) (tableLens map) (cursor.shard, cursor.bucket) n

section Sweep

variable {t now : Instant} {map map' : BucketMap String Instant} {cursor : MapCursor} {n : ℕ}

/-- At first nothing is known of any bucket. -/
theorem behind_start (t : Instant) (map : BucketMap String Instant) (cursor : MapCursor) :
    Behind t map cursor (tableLens map).sum := by
  intro pos mem
  have hpos := tableLens_pos map
  rw [← length_sweep hpos cursor.shard cursor.bucket, List.drop_length] at mem
  cases mem

/-- A smaller rest is within a greater one. -/
theorem Behind.mono {m : ℕ} (h : Behind t map cursor n) (hle : n ≤ m) : Behind t map cursor m :=
  fun pos mem => h pos (List.drop_subset_drop_left _ hle mem)

/-- Once every bucket is clean the cursor is of no account. -/
theorem behind_of_all (h : ∀ pos ∈ positions (tableLens map), Clean t map pos)
    (cursor : MapCursor) (n : ℕ) : Behind t map cursor n := by
  intro pos mem
  have hpos := tableLens_pos map
  exact h pos ((mem_sweep hpos).mp (List.mem_of_mem_drop mem))

/-- An index all of whose buckets are clean has no hint due at `t`. -/
theorem Behind.coming (h : Behind t map cursor 0) (key : String) : Coming t (map.get key) := by
  intro d hget
  obtain ⟨pos, hmem, hslot⟩ := exists_slotAt hget
  have hpos := tableLens_pos map
  exact h pos ((mem_sweep hpos).mpr hmem) _ hslot

/-- A bucket is clean once the hint of the key it held is not due. -/
theorem Thins.clean (thins : Thins now map map') (hle : t ≤ now) {pos : ℕ × ℕ}
    (h : ∀ hint, slotAt map pos = some hint → t < hint.2 ∨ Coming now (map'.get hint.1)) :
    Clean t map' pos := by
  intro hint' hslot'
  rw [thins.slots, Option.bind_eq_some_iff] at hslot'
  obtain ⟨hint, hslot, hkept⟩ := hslot'
  obtain ⟨d, hget, rfl⟩ := Option.map_eq_some_iff.mp hkept
  rcases h hint hslot with hlater | hcoming
  · rcases thins.kept hint.1 with hsame | hcoming
    · rw [hsame, get_of_slotAt hslot] at hget
      exact Option.some.inj hget ▸ hlater
    · exact hle.trans_lt (hcoming d hget)
  · exact hle.trans_lt (hcoming d hget)

/-- **A round makes progress.**  If no hint that a scan has met is due afterwards,
one bucket fewer is in doubt. -/
theorem Behind.after_round (h : Behind t map cursor n) (hle : t ≤ now)
    (thins : Thins now map map') {want : ℕ} (hwant : 0 < want)
    (hmet : ∀ hint ∈ (scanMap map cursor want).1, Coming now (map'.get hint.1)) :
    Behind t map' (scanMap map cursor want).2 (n - 1) := by
  have hpos := tableLens_pos map
  have hkept : ∀ pos, Clean t map pos → Clean t map' pos := fun pos hclean =>
    thins.clean hle fun hint hslot => .inl (hclean hint hslot)
  have hwalked : ∀ places : List (ℕ × ℕ),
      (scanMap map cursor want).1 = places.filterMap (slotAt map) →
        ∀ pos ∈ places, Clean t map' pos := by
    intro places hvisited pos mem
    refine thins.clean hle fun hint hslot => .inr (hmet hint ?_)
    rw [hvisited]
    exact List.mem_filterMap.mpr ⟨pos, mem, hslot⟩
  rw [scanMap_eq map cursor hwant] at hwalked ⊢
  cases hwalk : walk (slotAt map) (sweep (tableLens map) cursor.shard cursor.bucket) want with
  | mk visited stop =>
    simp only [hwalk] at hwalked ⊢
    cases stop with
    | none =>
      -- the scan went once around
      have hall : visited = _ := congrArg Prod.fst hwalk ▸ walk_none (by rw [hwalk])
      refine behind_of_all (fun pos mem => ?_) _ _
      rw [thins.lens] at mem
      exact hwalked _ hall pos ((mem_sweep hpos).mpr mem)
    | some stop =>
      obtain ⟨before, after, hsweep, hall⟩ := walk_some (congrArg Prod.snd hwalk)
      rw [hwalk] at hall
      rw [Behind, thins.lens]
      exact CleanBehind.after_walk hpos (h.mono (by omega : n ≤ n - 1 + 1)) hsweep hkept
        (hwalked _ hall)

end Sweep

/-! ## Cursors in one word -/

/-- Shard and bucket numbers of a map fit into a packed cursor. -/
def Packable {V : Type} (map : BucketMap String V) : Prop :=
  map.shards.length ≤ 2 ^ 16 ∧ ∀ len ∈ tableLens map, len ≤ 2 ^ 48

instance {V : Type} (map : BucketMap String V) : Decidable (Packable map) :=
  inferInstanceAs (Decidable (_ ∧ _))

/-- A change in place leaves a map in range. -/
theorem Packable.inPlace {V : Type} {map map' : BucketMap String V} (h : Packable map)
    (same : InPlace map map') : Packable map' := by
  rw [Packable, ← length_tableLens, same.lens, length_tableLens]
  exact h

namespace MapCursor

/-- A cursor within range survives packing. -/
theorem unpack_pack {c : MapCursor} (hshard : c.shard < 2 ^ 16) (hbucket : c.bucket < 2 ^ 48) :
    unpack c.pack = c := by
  obtain ⟨shard, bucket⟩ := c
  simp only [unpack, pack, MapCursor.mk.injEq] at *
  omega

theorem unpack_bucket_lt (v : ℕ) : (unpack v).bucket < 2 ^ 48 := Nat.mod_lt _ (by decide)

end MapCursor

/-- The cursor a scan leaves survives packing. -/
theorem Packable.unpack_scanMap {V : Type} {map : BucketMap String V} (h : Packable map)
    (v : ℕ) {want : ℕ} (hwant : 0 < want) :
    MapCursor.unpack (scanMap map (.unpack v) want).2.pack = (scanMap map (.unpack v) want).2 := by
  have hshards := shards_pos map
  have hmod : ∀ i, i % map.shards.length < 2 ^ 16 := fun i =>
    (Nat.mod_lt i hshards).trans_le h.1
  rw [scanMap_eq map _ hwant]
  cases hwalk : walk (slotAt map)
      (sweep (tableLens map) (MapCursor.unpack v).shard (MapCursor.unpack v).bucket) want with
  | mk visited stop =>
    cases stop with
    | none => exact MapCursor.unpack_pack (hmod _) (MapCursor.unpack_bucket_lt v)
    | some stop =>
      obtain ⟨before, after, hsweep, -⟩ := walk_some (congrArg Prod.snd hwalk)
      have hstop : stop ∈ positions (tableLens map) := by
        rw [← mem_sweep (tableLens_pos map), hsweep]
        simp
      obtain ⟨hshard, hbucket⟩ := mem_positions.mp hstop
      have hlen : bucketsOf (tableLens map) stop.1 ≤ 2 ^ 48 := by
        refine h.2 _ ?_
        rw [bucketsOf, List.getD_eq_getElem _ _ hshard]
        exact List.getElem_mem hshard
      rw [length_tableLens] at hshard
      refine MapCursor.unpack_pack ?_ ?_
      · show (following (tableLens map) stop).1 < 2 ^ 16
        unfold following
        split
        · exact hshard.trans_le h.1
        · rw [length_tableLens]
          exact hmod _
      · show (following (tableLens map) stop).2 < 2 ^ 48
        unfold following
        split
        · omega
        · exact Nat.two_pow_pos 48

namespace Store

variable [P : Platform] {s : Store} {now t : Instant}

/-! ## Rounds -/

/-- Every deadline in a hash is hinted at: some hint is no later. -/
theorem Inv.hint_le (inv : Inv s) {key : String} {h : HashEntry}
    (hget : s.hashes.get key = some h) {d : Instant}
    (hd : h.expiresAt = some d ∨ ∃ name f, h.fields.get name = some f ∧ f.expiresAt = some d) :
    ∃ hint, s.hashTtlKeys.get key = some hint ∧ hint ≤ d := by
  have hearliest : NotLater h.earliestDeadline (some d) := by
    rcases hd with hkey | ⟨name, f, hfield, hf⟩
    · exact hkey ▸ minDeadline_left _ _
    · exact hf ▸ (minDeadline_right _ _).trans (h.next_notLater name f hfield)
  exact (inv.hinted key h hget).trans hearliest d rfl

omit P in
/-- The field hint of a purged hash is not due, whether it was recomputed or had
not passed. -/
theorem purge_coming (h : HashEntry) :
    Coming now (h.purgeExpiredFields now).2.nextFieldExpiry := by
  intro d hd
  unfold HashEntry.purgeExpiredFields at hd
  split at hd
  next =>
    obtain ⟨field, mem, hfield⟩ := exists_of_earliestExpiry hd
    rw [Assoc.retain_entries, List.mem_filter] at mem
    simpa [HashField.isLive, hfield] using mem.2
  next hhint =>
    change h.nextFieldExpiry = some d at hd
    simpa [HashEntry.mayHaveExpiredFields, hd] using hhint

omit P in
/-- What a reap leaves of a hash has nothing due. -/
theorem settled_coming (h : HashEntry) :
    Coming now ((settled now h).bind HashEntry.earliestDeadline) := by
  intro d hd
  obtain ⟨left, hleft, hearliest⟩ := Option.bind_eq_some_iff.mp hd
  unfold settled at hleft
  split at hleft
  · cases hleft
  next hkey =>
    split at hleft
    · cases hleft
    · obtain rfl := Option.some.inj hleft
      rw [HashEntry.earliestDeadline] at hearliest
      rcases minDeadline_cases (h.purgeExpiredFields now).2.expiresAt
          (h.purgeExpiredFields now).2.nextFieldExpiry with hfst | hsnd
      · rw [hfst, HashEntry.purgeExpiredFields_expiresAt] at hearliest
        simpa [HashEntry.keyExpired, hearliest] using hkey
      · exact purge_coming h d (hsnd ▸ hearliest)

omit P in
/-- A reap gives no hash a deadline. -/
theorem settled_deadline {h : HashEntry}
    (hsome : ((settled now h).bind HashEntry.earliestDeadline).isSome = true) :
    h.earliestDeadline.isSome = true := by
  unfold settled at hsome
  split at hsome
  · cases hsome
  · split at hsome
    · cases hsome
    · exact HashEntry.earliestDeadline_purgeExpiredFields hsome

/-- Reaping a string thins out its index, and the key observed to be due is not due
any more. -/
theorem reapIfExpired_thins (inv : Inv s) {key : String} {observed : Instant}
    (hobserved : s.ttlKeys.get key = some observed ∨ Coming now (s.ttlKeys.get key)) :
    Thins now s.ttlKeys (s.reapIfExpired key observed).2.ttlKeys ∧
      Coming now ((s.reapIfExpired key observed).2.ttlKeys.get key) := by
  rw [reapIfExpired_eq inv, ← inv.indexed]
  split
  next hhint =>
    have hgone : Coming now ((s.ttlKeys.set key none).get key) := by
      rw [BucketMap.get_set, if_pos rfl]
      intro d hd
      cases hd
    rw [writeString, notifyWrite_ttlKeys]
    refine ⟨{ inPlace_set s.ttlKeys key none (fun h => by cases h) with
      kept := fun key' => ?_ }, hgone⟩
    by_cases hkey : key' = key
    · subst hkey
      exact .inr hgone
    · left
      exact (s.ttlKeys.get_set key none key').trans (if_neg hkey)
  next hother =>
    exact ⟨Thins.refl now _, hobserved.resolve_left hother⟩

/-- After a reap the hint of a hash is still to come, and no other one has changed. -/
theorem reapHash_thins (now : Instant) (inv : Inv s) (key : String) :
    Thins now s.hashTtlKeys (s.reapHash now key).2.hashTtlKeys ∧
      Coming now ((s.reapHash now key).2.hashTtlKeys.get key) := by
  rw [reapHash_snd inv]
  cases hget : s.hashes.get key with
  | none =>
    refine ⟨Thins.refl now _, fun d hd => ?_⟩
    rw [inv.hintOwned key hget] at hd
    cases hd
  | some h =>
    set hint := (settled now h).bind HashEntry.earliestDeadline with hhint
    have hcoming : Coming now ((s.hashTtlKeys.set key hint).get key) := by
      rw [BucketMap.get_set, if_pos rfl]
      exact settled_coming h
    have hmap : (s.reaped now key h).hashTtlKeys = s.hashTtlKeys.set key hint := by
      rw [reaped, wake_hashTtlKeys]
      rfl
    show Thins now s.hashTtlKeys (s.reaped now key h).hashTtlKeys ∧
      Coming now ((s.reaped now key h).hashTtlKeys.get key)
    rw [hmap]
    refine ⟨{ inPlace_set s.hashTtlKeys key hint (fun hsome => ?_) with
      kept := fun key' => ?_ }, hcoming⟩
    · -- a hash that keeps a deadline had one, and so a hint
      obtain ⟨earliest, hearliest⟩ := Option.isSome_iff_exists.mp (settled_deadline hsome)
      obtain ⟨old, hold, -⟩ := inv.hinted key h hget earliest hearliest
      exact Option.isSome_of_eq_some hold
    · by_cases hkey : key' = key
      · subst hkey
        exact .inr hcoming
      · left
        exact (s.hashTtlKeys.get_set key hint key').trans (if_neg hkey)

/-- After a batch of reaps the hints of its strings are still to come. -/
theorem reapAll_thins : ∀ (due : List (String × Instant)) {s : Store}, Inv s →
    (∀ hint ∈ due, hint.2 ≤ now ∧
      (s.ttlKeys.get hint.1 = some hint.2 ∨ Coming now (s.ttlKeys.get hint.1))) →
    Thins now s.ttlKeys (reapAll due s).ttlKeys ∧
      ∀ hint ∈ due, Coming now ((reapAll due s).ttlKeys.get hint.1)
  | [], s, _, _ => ⟨Thins.refl now _, fun _ mem => by cases mem⟩
  | (key, deadline) :: rest, s, inv, hdue => by
      obtain ⟨hpassed, hobserved⟩ := hdue _ List.mem_cons_self
      obtain ⟨hfirst, hgone⟩ := reapIfExpired_thins inv hobserved
      have hreaps : Reaps now s (s.reapIfExpired key deadline).2 :=
        reapIfExpired_reaps inv key hpassed
      obtain ⟨hrest, hmet⟩ := reapAll_thins rest (hreaps.inv inv) fun hint mem => by
        obtain ⟨hle, hthere⟩ := hdue hint (List.mem_cons_of_mem _ mem)
        refine ⟨hle, ?_⟩
        rcases hfirst.kept hint.1 with hsame | hcoming
        · rwa [hsame]
        · exact .inr hcoming
      refine ⟨hfirst.trans hrest, fun hint mem => ?_⟩
      rcases List.mem_cons.mp mem with rfl | hmem
      · exact hrest.coming hgone
      · exact hmet hint hmem

/-- After a batch of reaps the hints of its hashes are still to come. -/
theorem reapHashes_thins (now : Instant) : ∀ (due : List String) {s : Store}, Inv s →
    Thins now s.hashTtlKeys (reapHashes now due s).2.hashTtlKeys ∧
      ∀ key ∈ due, Coming now ((reapHashes now due s).2.hashTtlKeys.get key)
  | [], s, _ => ⟨Thins.refl now _, fun _ mem => by cases mem⟩
  | key :: rest, s, inv => by
      obtain ⟨hfirst, hgone⟩ := reapHash_thins now inv key
      have hreaps : Reaps now s (s.reapHash now key).2 := reapHash_reaps inv key
      obtain ⟨hrest, hmet⟩ := reapHashes_thins now rest (hreaps.inv inv)
      refine ⟨hfirst.trans hrest, fun key' mem => ?_⟩
      rcases List.mem_cons.mp mem with rfl | hmem
      · exact hrest.coming hgone
      · exact hmet key' hmem

/-- Reaping strings leaves the index of the hashes and the cursors alone. -/
theorem reapAll_frame : ∀ (due : List (String × Instant)) {s : Store}, Inv s →
    (∀ hint ∈ due, hint.2 ≤ now) →
    (reapAll due s).hashTtlKeys = s.hashTtlKeys ∧
      (reapAll due s).expireCursor = s.expireCursor ∧
      (reapAll due s).hashExpireCursor = s.hashExpireCursor
  | [], s, _, _ => ⟨rfl, rfl, rfl⟩
  | (key, deadline) :: rest, s, inv, hdue => by
      have hreaps : Reaps now s (s.reapIfExpired key deadline).2 :=
        reapIfExpired_reaps inv key (hdue _ List.mem_cons_self)
      obtain ⟨hhints, hstrings, hhashes⟩ := reapAll_frame rest (hreaps.inv inv) fun hint mem =>
        hdue hint (List.mem_cons_of_mem _ mem)
      have hone : (s.reapIfExpired key deadline).2.hashTtlKeys = s.hashTtlKeys ∧
          (s.reapIfExpired key deadline).2.expireCursor = s.expireCursor ∧
          (s.reapIfExpired key deadline).2.hashExpireCursor = s.hashExpireCursor := by
        rw [reapIfExpired_eq inv]
        split
        · rw [writeString, notifyWrite_eq]
          exact ⟨rfl, rfl, rfl⟩
        · exact ⟨rfl, rfl, rfl⟩
      exact ⟨hhints.trans hone.1, hstrings.trans hone.2.1, hhashes.trans hone.2.2⟩

/-- Reaping hashes leaves the index of the strings and the cursors alone. -/
theorem reapHashes_frame (now : Instant) : ∀ (due : List String) {s : Store}, Inv s →
    (reapHashes now due s).2.ttlKeys = s.ttlKeys ∧
      (reapHashes now due s).2.expireCursor = s.expireCursor ∧
      (reapHashes now due s).2.hashExpireCursor = s.hashExpireCursor
  | [], s, _ => ⟨rfl, rfl, rfl⟩
  | key :: rest, s, inv => by
      have hreaps : Reaps now s (s.reapHash now key).2 := reapHash_reaps inv key
      obtain ⟨hhints, hstrings, hhashes⟩ := reapHashes_frame now rest (hreaps.inv inv)
      have hone : (s.reapHash now key).2.ttlKeys = s.ttlKeys ∧
          (s.reapHash now key).2.expireCursor = s.expireCursor ∧
          (s.reapHash now key).2.hashExpireCursor = s.hashExpireCursor := by
        rw [reapHash_snd inv]
        cases s.hashes.get key with
        | none => exact ⟨rfl, rfl, rfl⟩
        | some h =>
          show (s.reaped now key h).ttlKeys = _ ∧ (s.reaped now key h).expireCursor = _ ∧
            (s.reaped now key h).hashExpireCursor = _
          rw [reaped, wake_eq]
          exact ⟨rfl, rfl, rfl⟩
      exact ⟨hhints.trans hone.1, hstrings.trans hone.2.1, hhashes.trans hone.2.2⟩

/-- Buckets of the two indexes that may still hold a hint due at `t`, counted from
the cursors. -/
structure Sweeping (t : Instant) (n : ℕ) (s : Store) : Prop where
  strings : Behind t s.ttlKeys (.unpack s.expireCursor) n
  hashes : Behind t s.hashTtlKeys (.unpack s.hashExpireCursor) n
  stringsPackable : Packable s.ttlKeys
  hashesPackable : Packable s.hashTtlKeys

omit P in
/-- If no hint that was due is due afterwards, no hint the scan met is. -/
theorem met_coming {map map' : BucketMap String Instant} {cursor : MapCursor} {want : ℕ}
    (thins : Thins now map map')
    (hdue : ∀ hint ∈ (scanMap map cursor want).1.filter (fun hint => hint.2 ≤ now),
      Coming now (map'.get hint.1)) :
    ∀ hint ∈ (scanMap map cursor want).1, Coming now (map'.get hint.1) := by
  intro hint mem
  by_cases hle : hint.2 ≤ now
  · exact hdue hint (List.mem_filter.mpr ⟨mem, by simpa using hle⟩)
  · refine thins.coming fun d hd => ?_
    rw [get_of_mem_scanMap mem] at hd
    exact Option.some.inj hd ▸ Nat.lt_of_not_le hle

/-- A round over the hashes brings their sweep forward. -/
theorem hashExpireRound_sweeping {n : ℕ} (inv : Inv s) (hle : t ≤ now)
    (h : Behind t s.hashTtlKeys (.unpack s.hashExpireCursor) n) (hpack : Packable s.hashTtlKeys) :
    Behind t (s.hashExpireRound now).2.hashTtlKeys
        (.unpack (s.hashExpireRound now).2.hashExpireCursor) (n - 1) ∧
      Packable (s.hashExpireRound now).2.hashTtlKeys := by
  unfold hashExpireRound
  split
  next hempty =>
    refine ⟨behind_of_all (fun pos _ hint hslot => ?_) _ _, hpack⟩
    have hmem := BucketMap.get_eq_some_iff.mp (get_of_slotAt hslot)
    rw [List.isEmpty_iff.mp hempty] at hmem
    cases hmem
  next =>
    set scan := scanMap s.hashTtlKeys (.unpack s.hashExpireCursor) expireSampleKeys with hscan
    set due := (scan.1.filter fun hint => hint.2 ≤ now).map Prod.fst
    have hinv : Inv { s with hashExpireCursor := scan.2.pack } := { inv with }
    obtain ⟨thins, hmet⟩ := reapHashes_thins now due hinv
    obtain ⟨-, -, hcursor⟩ := reapHashes_frame now due hinv
    refine ⟨?_, hpack.inPlace thins.toInPlace⟩
    rw [hcursor, hpack.unpack_scanMap _ (by decide)]
    exact h.after_round hle thins (by decide) (met_coming thins fun hint mem =>
      hmet hint.1 (List.mem_map_of_mem mem))

/-- A round over the hashes leaves the sweep of the strings alone. -/
theorem hashExpireRound_frame (now : Instant) (inv : Inv s) :
    (s.hashExpireRound now).2.ttlKeys = s.ttlKeys ∧
      (s.hashExpireRound now).2.expireCursor = s.expireCursor := by
  unfold hashExpireRound
  split
  · exact ⟨rfl, rfl⟩
  · set scan := scanMap s.hashTtlKeys (.unpack s.hashExpireCursor) expireSampleKeys
    have hinv : Inv { s with hashExpireCursor := scan.2.pack } := { inv with }
    obtain ⟨httl, hexpire, -⟩ := reapHashes_frame now
      ((scan.1.filter fun hint => hint.2 ≤ now).map Prod.fst) hinv
    exact ⟨httl, hexpire⟩

/-- **One round leaves one bucket fewer in doubt.** -/
theorem expireRound_sweeping {n : ℕ} (inv : Inv s) (hle : t ≤ now) (h : Sweeping t n s) :
    Sweeping t (n - 1) (s.expireRound now).2 := by
  set scan := scanMap s.ttlKeys (.unpack s.expireCursor) expireSampleKeys with hscan
  set due := scan.1.filter fun hint => hint.2 ≤ now with hdue
  set mid := reapAll due { s with expireCursor := scan.2.pack } with hmid
  have hstart : Inv { s with expireCursor := scan.2.pack } := { inv with }
  have hpassed : ∀ hint ∈ due, hint.2 ≤ now := fun hint mem => by
    simpa using (List.mem_filter.mp mem).2
  obtain ⟨thins, hmet⟩ := reapAll_thins due hstart fun hint mem =>
    ⟨hpassed hint mem, .inl (get_of_mem_scanMap (List.mem_filter.mp mem).1)⟩
  obtain ⟨hhints, hcursor, hhashCursor⟩ := reapAll_frame due hstart hpassed
  have hinv : Inv mid := by
    have hreaps : Reaps now { s with expireCursor := scan.2.pack } mid :=
      reapAll_reaps due hstart hpassed
    exact hreaps.inv hstart
  have hstrings : Behind t mid.ttlKeys (.unpack mid.expireCursor) (n - 1) := by
    rw [hcursor, h.stringsPackable.unpack_scanMap _ (by decide)]
    exact h.strings.after_round hle thins (by decide) (met_coming thins hmet)
  have hhashes := hashExpireRound_sweeping (n := n) hinv hle
    (by rw [hhints, hhashCursor]; exact h.hashes) (by rw [hhints]; exact h.hashesPackable)
  obtain ⟨hframe, hframeCursor⟩ := hashExpireRound_frame now hinv
  show Sweeping t (n - 1) (mid.hashExpireRound now).2
  refine ⟨?_, hhashes.1, ?_, hhashes.2⟩
  · rw [hframe, hframeCursor]
    exact hstrings
  · rw [hframe]
    exact h.stringsPackable.inPlace thins.toInPlace

/-- Rounds of active expiry at the given times, each going on where the last one
stopped. -/
def sweepRounds : List Instant → Store → Store
  | [], s => s
  | now :: times, s => sweepRounds times (s.expireRound now).2

/-- Nothing that had expired by `t` is left. -/
def Reaped (t : Instant) (s : Store) : Prop :=
  (∀ key e, s.data.get key = some e → e.isExpired t = false) ∧
    ∀ key h, s.hashes.get key = some h → h.keyExpired t = false ∧
      ∀ name f, h.fields.get name = some f → f.isLive t = true

/-- Each round brings both sweeps forward. -/
theorem sweepRounds_sweeping (times : List Instant) {n : ℕ} (inv : Inv s)
    (hle : ∀ now ∈ times, t ≤ now) (h : Sweeping t n s) :
    Inv (sweepRounds times s) ∧ Sweeping t (n - times.length) (sweepRounds times s) := by
  induction times generalizing s n with
  | nil => exact ⟨inv, h⟩
  | cons now rest ih =>
    have hreaps : Reaps now s (s.expireRound now).2 := expireRound_reaps inv
    obtain ⟨hinv, hsweep⟩ := ih (hreaps.inv inv)
      (fun later mem => hle later (List.mem_cons_of_mem _ mem))
      (expireRound_sweeping inv (hle now List.mem_cons_self) h)
    refine ⟨hinv, ?_⟩
    rw [List.length_cons, Nat.add_comm, ← Nat.sub_sub]
    exact hsweep

/-- An index without a due hint vouches for the store: nothing has expired. -/
theorem Sweeping.reaped (inv : Inv s) (h : Sweeping t 0 s) : s.Reaped t := by
  refine ⟨fun key e hget => ?_, fun key entry hget => ?_⟩
  · by_contra hexp
    obtain ⟨d, hd, hle⟩ := Entry.isExpired_iff.mp (by simpa using hexp)
    have hlt := h.strings.coming key d (by rw [inv.indexed, hget]; exact hd)
    exact absurd hle (Nat.not_le_of_lt hlt)
  · have hlater : ∀ d, (entry.expiresAt = some d ∨
        ∃ name f, entry.fields.get name = some f ∧ f.expiresAt = some d) → t < d := by
      intro d hd
      obtain ⟨hint, hhint, hle⟩ := inv.hint_le hget hd
      exact (h.hashes.coming key hint hhint).trans_le hle
    constructor
    · cases hexp : entry.expiresAt with
      | none => simp [HashEntry.keyExpired, hexp]
      | some d => simpa [HashEntry.keyExpired, hexp] using hlater d (.inl hexp)
    · intro name f hfield
      cases hexp : f.expiresAt with
      | none => simp [HashField.isLive, hexp]
      | some d => simpa [HashField.isLive, hexp] using hlater d (.inr ⟨name, f, hfield, hexp⟩)

/-- **The indexes agree with the maps, and so active expiry reaches everything.**
In every state of a run: `ttlKeys` holds the deadline of each string that has one
and nothing else, each deadline in a hash has a hint no later than it, no hint is
without a hash, and enough rounds of active expiry, at whatever times from `t` on,
leave nothing that had expired by `t`. -/
theorem indexes_agree (s : Store) (hnew : s.IsNew) (ops : List (Instant × Op)) :
    let s := s.runState ops
    (∀ key, s.ttlKeys.get key = (s.data.get key).bind (·.expiresAt)) ∧
      (∀ key h d, s.hashes.get key = some h →
        (h.expiresAt = some d ∨ ∃ name f, h.fields.get name = some f ∧ f.expiresAt = some d) →
          ∃ hint, s.hashTtlKeys.get key = some hint ∧ hint ≤ d) ∧
      (∀ key, s.hashes.get key = none → s.hashTtlKeys.get key = none) ∧
      (Packable s.ttlKeys → Packable s.hashTtlKeys → ∀ t, ∃ enough, ∀ times : List Instant,
        enough ≤ times.length → (∀ now ∈ times, t ≤ now) → (s.sweepRounds times).Reaped t) := by
  intro s
  have inv : Inv s := hnew.inv.runState ops
  refine ⟨inv.indexed, fun key h d hget => inv.hint_le hget, inv.hintOwned, ?_⟩
  intro hstrings hhashes t
  refine ⟨(tableLens s.ttlKeys).sum + (tableLens s.hashTtlKeys).sum, fun times henough hle => ?_⟩
  have hstart : Sweeping t ((tableLens s.ttlKeys).sum + (tableLens s.hashTtlKeys).sum) s :=
    ⟨(behind_start t _ _).mono (Nat.le_add_right _ _),
      (behind_start t _ _).mono (Nat.le_add_left _ _), hstrings, hhashes⟩
  obtain ⟨hinv, hsweep⟩ := sweepRounds_sweeping times inv hle hstart
  rw [Nat.sub_eq_zero_of_le henough] at hsweep
  exact hsweep.reaped hinv

omit P in
/-- Two strings and a hash with deadlines, and one string without. -/
theorem indexes_agree_sample :
    letI := Platform.small
    let s := (new ⟨0, .noEviction, ⟨.none, 6, 4⟩⟩).runState
      [(0, .set "a" [1] (some 50)), (0, .set "b" [2] none), (1, .hset "h" [("f", [1])]),
        (2, .hexpire "h" ["f"] 10 .always), (3, .set "c" [3] (some 90))]
    (Packable s.ttlKeys ∧ Packable s.hashTtlKeys) ∧ s.ttlKeys.get "a" = some 50 ∧
      s.hashTtlKeys.get "h" = some 12 ∧ (s.sweepRounds [60]).data.get "a" = none ∧
      ∃ enough, ∀ times : List Instant, enough ≤ times.length → (∀ now ∈ times, 60 ≤ now) →
        (s.sweepRounds times).Reaped 60 := by
  let _ := Platform.small
  have hpack : Packable ((new ⟨0, .noEviction, ⟨.none, 6, 4⟩⟩).runState
      [(0, .set "a" [1] (some 50)), (0, .set "b" [2] none), (1, .hset "h" [("f", [1])]),
        (2, .hexpire "h" ["f"] 10 .always), (3, .set "c" [3] (some 90))]).ttlKeys ∧
      Packable ((new ⟨0, .noEviction, ⟨.none, 6, 4⟩⟩).runState
      [(0, .set "a" [1] (some 50)), (0, .set "b" [2] none), (1, .hset "h" [("f", [1])]),
        (2, .hexpire "h" ["f"] 10 .always), (3, .set "c" [3] (some 90))]).hashTtlKeys := by decide
  exact ⟨hpack, by decide, by decide, by decide,
    (indexes_agree _ (new_isNew _) _).2.2.2 hpack.1 hpack.2 60⟩

end Store

end Ephpm.Kv
