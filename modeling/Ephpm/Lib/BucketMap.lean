import Mathlib.Data.List.ReduceOption
import Mathlib.Data.Nat.SuccPred
import Ephpm.Lib.AssocList

/-!
# Sharded bucket tables

A concurrent hash map keeps its entries in a fixed array of *shards*, each an
open-addressing table of *buckets*.  A program that only looks keys up never
sees the buckets; one that walks the table a few buckets at a time, keeping a
cursor between calls, does.  `BucketMap` is the map at the level where both can
be said: the shards, the row of buckets of each, and which bucket holds what.

**What is left open.**  Where a new key goes is the business of the hash
function, the probe sequence, the tombstones and the growth policy.  None of
that is modelled.  A `Placement` is one choice the table makes — the row after
one insertion, or after one rehash — constrained only by the fact that a table
neither loses nor invents keys.  A map carries the stream `coming` of the
choices still to be made, so a statement about every map is a statement about
every layout a table could ever choose.

**What is fixed.**  Replacing a value and removing a key happen in place and
leave every other bucket alone; the shard of a key is a function of the key.

The results used by clients are `get_set` and `weight_set`, which read one
update back through lookups and through a per-entry cost, and `set_set`, which
says that the last update of a key counts.
-/

namespace Lib

universe u

/-! ## Tables -/

/-- The buckets of one shard, in table order. -/
abbrev Table (K V : Type u) := List (Option (K × V))

namespace Table

variable {K V W : Type u}

/-- The entries of the full buckets, in table order. -/
def entries (table : Table K V) : List (K × V) := table.reduceOption

/-- The keys in their buckets: what a placement sees of a table. -/
def row (table : Table K V) : List (Option K) := table.map (Option.map Prod.fst)

/-- Rewrite or empty every bucket in place. -/
def filterMap (table : Table K V) (f : K → V → Option W) : Table K W :=
  table.map fun slot => slot.bind fun entry => (f entry.1 entry.2).map (Prod.mk entry.1)

/-- Put the values back into a row of keys. -/
def fill (read : K → Option V) (row : List (Option K)) : Table K V :=
  row.map fun slot => slot.bind fun key => (read key).map (Prod.mk key)

/-- Buckets that are mapped one by one, read as a list. -/
private theorem reduceOption_map_bind {α β : Type u} (g : α → Option β) :
    ∀ slots : List (Option α),
      (slots.map fun slot => slot.bind g).reduceOption = slots.reduceOption.filterMap g
  | [] => rfl
  | none :: rest => by
      simpa [List.reduceOption_cons_of_none] using reduceOption_map_bind g rest
  | some a :: rest => by
      have ih := reduceOption_map_bind g rest
      cases h : g a with
      | none =>
        simp [List.reduceOption_cons_of_some, List.reduceOption_cons_of_none, h, ih]
      | some b => simp [List.reduceOption_cons_of_some, h, ih]

/-- The entries of a table, mapped. -/
theorem entries_filterMap (table : Table K V) (f : K → V → Option W) :
    (table.filterMap f).entries = mapEntries f table.entries :=
  reduceOption_map_bind _ table

/-- The entries of a row of keys that is filled. -/
theorem entries_fill (read : K → Option V) (row : List (Option K)) :
    (fill read row).entries =
      row.reduceOption.filterMap fun key => (read key).map (Prod.mk key) :=
  reduceOption_map_bind _ row

/-- The keys of a row are those of the entries. -/
theorem reduceOption_row (table : Table K V) :
    table.row.reduceOption = table.entries.map Prod.fst := by
  simp [row, entries, List.reduceOption_map]

/-- Two maps are one. -/
theorem filterMap_filterMap {X : Type u} (table : Table K V) (f : K → V → Option W)
    (g : K → W → Option X) :
    (table.filterMap f).filterMap g =
      table.filterMap fun key value => (f key value).bind (g key) := by
  simp only [filterMap, List.map_map]
  refine List.map_congr_left fun slot _ => ?_
  cases slot with
  | none => rfl
  | some entry => cases h : f entry.1 entry.2 <;> simp [h]

/-- A map that keeps every entry keeps the table. -/
theorem filterMap_eq_self {table : Table K V} {f : K → V → Option V}
    (h : ∀ entry ∈ table.entries, f entry.1 entry.2 = some entry.2) :
    table.filterMap f = table := by
  conv_rhs => rw [← List.map_id table]
  refine List.map_congr_left fun slot mem => ?_
  cases slot with
  | none => rfl
  | some entry =>
    have hentry := h entry (List.reduceOption_mem_iff.mpr mem)
    simp [hentry]

/-- Only what a map does to the entries counts. -/
theorem filterMap_congr {table : Table K V} {f g : K → V → Option W}
    (h : ∀ entry ∈ table.entries, f entry.1 entry.2 = g entry.1 entry.2) :
    table.filterMap f = table.filterMap g := by
  refine List.map_congr_left fun slot mem => ?_
  cases slot with
  | none => rfl
  | some entry =>
    have hentry := h entry (List.reduceOption_mem_iff.mpr mem)
    simp [hentry]

/-- Reading a keyed list back key by key gives the list. -/
private theorem filterMap_lookup_keys [DecidableEq K] {entries : List (K × V)}
    (nodup : KeysNodup entries) :
    (entries.map Prod.fst).filterMap
      (fun key => (lookup entries key).map (Prod.mk key)) = entries := by
  rw [List.filterMap_map]
  conv_rhs => rw [← List.filterMap_some (l := entries)]
  refine List.filterMap_congr fun entry mem => ?_
  have hfound : lookup entries entry.1 = some entry.2 :=
    (lookup_eq_some_iff nodup).mpr mem
  simp [hfound]

end Table

/-! ## Placements -/

/-- One layout decision of a table: the row after inserting a key that was not
there, the row after a rehash that adds nothing, and the number of entries the
table could take before it would grow. -/
structure Placement (K : Type u) where
  place : List (Option K) → K → List (Option K)
  place_perm : ∀ row key,
    (place row key).reduceOption.Perm (key :: row.reduceOption)
  rehash : List (Option K) → List (Option K)
  rehash_perm : ∀ row, (rehash row).reduceOption.Perm row.reduceOption
  capacity : List (Option K) → ℕ

namespace Placement

variable {K V W : Type u} [DecidableEq K]

/-- The placement that opens a new last bucket for every new key. -/
def append : Placement K where
  place row key := row ++ [some key]
  place_perm row key := by
    simp [List.reduceOption_append, List.reduceOption_singleton]
  rehash row := row
  rehash_perm _ := List.Perm.refl _
  capacity row := row.length

/-- Insert an absent key into a table. -/
def insertInto (p : Placement K) (table : Table K V) (key : K) (value : V) : Table K V :=
  Table.fill (fun key' => if key' = key then some value else lookup table.entries key')
    (p.place table.row key)

/-- Lay a table out afresh. -/
def relayout (p : Placement K) (table : Table K V) : Table K V :=
  Table.fill (lookup table.entries) (p.rehash table.row)

/-- A new row has the new entry and the old ones. -/
theorem insertInto_entries_perm (p : Placement K) {table : Table K V} {key : K}
    (nodup : KeysNodup table.entries) (absent : key ∉ table.entries.map Prod.fst)
    (value : V) :
    (p.insertInto table key value).entries.Perm ((key, value) :: table.entries) := by
  rw [insertInto, Table.entries_fill]
  refine ((p.place_perm table.row key).filterMap _).trans ?_
  rw [Table.reduceOption_row, List.filterMap_cons]
  simp only [if_true, Option.map_some]
  refine List.Perm.cons _ (List.Perm.of_eq ?_)
  conv_rhs => rw [← Table.filterMap_lookup_keys nodup]
  refine List.filterMap_congr fun key' mem => ?_
  have hne : key' ≠ key := by
    rintro rfl
    exact absent mem
  simp [hne]

/-- A new layout has the same entries. -/
theorem relayout_entries_perm (p : Placement K) {table : Table K V}
    (nodup : KeysNodup table.entries) :
    (p.relayout table).entries.Perm table.entries := by
  rw [relayout, Table.entries_fill]
  refine ((p.rehash_perm table.row).filterMap _).trans (List.Perm.of_eq ?_)
  rw [Table.reduceOption_row, Table.filterMap_lookup_keys nodup]

end Placement

/-! ## Maps -/

/-- A sharded map.  `coming` are the layout decisions still to be made. -/
@[ext] structure BucketMap (K V : Type u) [DecidableEq K] where
  shardOf : K → ℕ
  shards : List (Table K V)
  coming : ℕ → Placement K
  shardOf_lt : ∀ key, shardOf key < shards.length
  nodup : KeysNodup shards.flatten.reduceOption
  home : ∀ i table, shards[i]? = some table → ∀ entry ∈ table.entries, shardOf entry.1 = i

namespace BucketMap

variable {K V W : Type u} [DecidableEq K]

/-- All entries, shard by shard in table order. -/
def entries (m : BucketMap K V) : List (K × V) := m.shards.flatten.reduceOption

/-- The value stored under `key`. -/
def get (m : BucketMap K V) (key : K) : Option V := lookup m.entries key

/-- Number of entries. -/
def len (m : BucketMap K V) : ℕ := m.entries.length

/-- Total charge of the entries under `f`. -/
def weight (m : BucketMap K V) (f : K → V → ℕ) : ℕ := Lib.weight f m.entries

/-- No key is there twice. -/
theorem entries_nodup (m : BucketMap K V) : KeysNodup m.entries := m.nodup

/-- What is found is an entry. -/
theorem get_eq_some_iff {m : BucketMap K V} {key : K} {value : V} :
    m.get key = some value ↔ (key, value) ∈ m.entries := lookup_eq_some_iff m.nodup

/-- A key that is not found is in no entry. -/
theorem get_eq_none_iff {m : BucketMap K V} {key : K} :
    m.get key = none ↔ key ∉ m.entries.map Prod.fst := lookup_eq_none_iff

theorem mem_keys_of_get {m : BucketMap K V} {key : K} {value : V}
    (h : m.get key = some value) : key ∈ m.entries.map Prod.fst :=
  List.mem_map_of_mem (f := Prod.fst) (get_eq_some_iff.mp h)

omit [DecidableEq K] in
/-- The entries of all shards, one shard after the other. -/
private theorem entries_flatten (shards : List (Table K V)) :
    shards.flatten.reduceOption = shards.flatMap Table.entries := by
  induction shards with
  | nil => rfl
  | cons table rest ih =>
    simp [List.reduceOption_append, ih, Table.entries]

/-- The entries are those of the shards. -/
theorem entries_eq_flatMap (m : BucketMap K V) :
    m.entries = m.shards.flatMap Table.entries := entries_flatten m.shards

/-- An entry of a shard is an entry of the map. -/
theorem mem_entries_of_shard {m : BucketMap K V} {i : ℕ} {table : Table K V}
    (hshard : m.shards[i]? = some table) {entry : K × V} (mem : entry ∈ table.entries) :
    entry ∈ m.entries := by
  rw [entries_eq_flatMap]
  exact List.mem_flatMap.mpr ⟨table, List.mem_of_getElem? hshard, mem⟩

/-- No key is in a shard twice. -/
theorem table_nodup (m : BucketMap K V) {table : Table K V} (mem : table ∈ m.shards) :
    KeysNodup table.entries := by
  have hall : KeysNodup (m.shards.flatMap Table.entries) := by
    rw [← entries_flatten]
    exact m.nodup
  obtain ⟨front, back, split⟩ := List.append_of_mem mem
  rw [split] at hall
  simp only [KeysNodup, List.flatMap_append, List.flatMap_cons, List.map_append] at hall
  exact (List.nodup_append.mp (List.nodup_append.mp hall).2.1).1

/-- A map with no entry and `count + 1` empty shards. -/
def empty (count : ℕ) (shardOf : K → Fin (count + 1)) (coming : ℕ → Placement K) :
    BucketMap K V where
  shardOf key := (shardOf key).val
  shards := List.replicate (count + 1) []
  coming := coming
  shardOf_lt key := by simpa using (shardOf key).isLt
  nodup := by
    have : (List.replicate (count + 1) ([] : Table K V)).flatten = [] := by
      simp
    rw [this]
    exact List.nodup_nil
  home i table hshard entry mem := by
    have hempty : table = [] := by
      have := List.mem_of_getElem? hshard
      exact List.eq_of_mem_replicate this
    subst hempty
    cases mem

@[simp] theorem entries_empty (count : ℕ) (shardOf : K → Fin (count + 1))
    (coming : ℕ → Placement K) :
    (empty count shardOf coming : BucketMap K V).entries = [] := by
  simp [entries, empty, List.reduceOption_nil]

/-! ### In-place operations -/

omit [DecidableEq K] in
/-- A map of every shard maps the entries. -/
private theorem flatten_filterMap (shards : List (Table K V)) (f : K → V → Option W) :
    (shards.map fun table => table.filterMap f).flatten.reduceOption =
      mapEntries f shards.flatten.reduceOption := by
  have hflat : (shards.map fun table => table.filterMap f).flatten =
      Table.filterMap shards.flatten f := by
    rw [Table.filterMap, List.map_flatten]
    rfl
  rw [hflat]
  exact Table.entries_filterMap shards.flatten f

/-- Rewrite or drop every entry in place. -/
def filterMap (m : BucketMap K V) (f : K → V → Option W) : BucketMap K W where
  shardOf := m.shardOf
  shards := m.shards.map fun table => table.filterMap f
  coming := m.coming
  shardOf_lt key := by simpa using m.shardOf_lt key
  nodup := by
    rw [flatten_filterMap]
    exact m.nodup.mapEntries f
  home i table hshard entry mem := by
    rw [List.getElem?_map, Option.map_eq_some_iff] at hshard
    obtain ⟨old, hold, rfl⟩ := hshard
    rw [Table.entries_filterMap] at mem
    have hkey : entry.1 ∈ old.entries.map Prod.fst :=
      (mapEntries_keys_sublist f old.entries).subset (List.mem_map_of_mem mem)
    obtain ⟨oldEntry, hmem, hfst⟩ := List.mem_map.mp hkey
    rw [← hfst]
    exact m.home i old hold oldEntry hmem

/-- Rewrite every value in place. -/
def map (m : BucketMap K V) (f : K → V → W) : BucketMap K W :=
  m.filterMap fun key value => some (f key value)

/-- Keep the entries that satisfy `p`. -/
def filter (m : BucketMap K V) (p : K → V → Bool) : BucketMap K V :=
  m.filterMap fun key value => if p key value then some value else none

/-- Remove `key`. -/
def erase (m : BucketMap K V) (key : K) : BucketMap K V :=
  m.filterMap (setEntry key none)

theorem entries_filterMap (m : BucketMap K V) (f : K → V → Option W) :
    (m.filterMap f).entries = mapEntries f m.entries := flatten_filterMap m.shards f

/-- A lookup in a mapped table. -/
@[simp] theorem get_filterMap (m : BucketMap K V) (f : K → V → Option W) (key : K) :
    (m.filterMap f).get key = (m.get key).bind (f key) := by
  rw [get, entries_filterMap, lookup_mapEntries m.entries_nodup]
  rfl

@[simp] theorem get_map (m : BucketMap K V) (f : K → V → W) (key : K) :
    (m.map f).get key = (m.get key).map (f key) := by
  rw [map, get_filterMap]
  cases m.get key <;> rfl

@[simp] theorem get_filter (m : BucketMap K V) (p : K → V → Bool) (key : K) :
    (m.filter p).get key = (m.get key).filter (p key) := by
  rw [filter, get_filterMap]
  cases m.get key <;> rfl

theorem filterMap_filterMap {X : Type u} (m : BucketMap K V) (f : K → V → Option W)
    (g : K → W → Option X) :
    (m.filterMap f).filterMap g =
      m.filterMap fun key value => (f key value).bind (g key) := by
  ext1
  · rfl
  · simp [filterMap, List.map_map, Table.filterMap_filterMap]
  · rfl

theorem filterMap_congr {m : BucketMap K V} {f g : K → V → Option W}
    (h : ∀ key value, m.get key = some value → f key value = g key value) :
    m.filterMap f = m.filterMap g := by
  ext1
  · rfl
  · refine List.map_congr_left fun table mem => Table.filterMap_congr fun entry hentry => ?_
    obtain ⟨i, hi⟩ := List.mem_iff_getElem?.mp mem
    exact h entry.1 entry.2 (get_eq_some_iff.mpr (mem_entries_of_shard hi hentry))
  · rfl

/-- In-place rewriting that changes no present entry is the identity. -/
theorem filterMap_eq_self {m : BucketMap K V} {f : K → V → Option V}
    (h : ∀ key value, m.get key = some value → f key value = some value) :
    m.filterMap f = m := by
  rw [filterMap_congr (g := fun _ value => some value) h]
  ext1
  · rfl
  · simp only [filterMap]
    conv_rhs => rw [← List.map_id m.shards]
    exact List.map_congr_left fun table _ => Table.filterMap_eq_self fun _ _ => rfl
  · rfl

/-! ### Storing one key -/

/-- The table of the shard `key` belongs to. -/
def shard (m : BucketMap K V) (key : K) : Table K V := m.shards.getD (m.shardOf key) []

/-- The shard of a key is there. -/
theorem getElem?_shard (m : BucketMap K V) (key : K) :
    m.shards[m.shardOf key]? = some (m.shard key) := by
  rw [shard, List.getD_eq_getElem?_getD, List.getElem?_eq_getElem (m.shardOf_lt key)]
  rfl

/-- No key is twice in the shard of a key. -/
theorem shard_nodup (m : BucketMap K V) (key : K) : KeysNodup (m.shard key).entries :=
  m.table_nodup (List.mem_of_getElem? (m.getElem?_shard key))

/-- A key that is nowhere is not in its shard. -/
theorem shard_absent {m : BucketMap K V} {key : K} (absent : key ∉ m.entries.map Prod.fst) :
    key ∉ (m.shard key).entries.map Prod.fst := by
  intro h
  obtain ⟨entry, hentry, rfl⟩ := List.mem_map.mp h
  exact absent (List.mem_map_of_mem (mem_entries_of_shard (m.getElem?_shard _) hentry))

omit [DecidableEq K] in
/-- Replacing the table of one shard by one with a further entry adds that
entry to the map. -/
private theorem flatMap_set_perm {shards : List (Table K V)} {i : ℕ}
    {table table' : Table K V} {entry : K × V} (hshard : shards[i]? = some table)
    (perm : table'.entries.Perm (entry :: table.entries)) :
    ((shards.set i table').flatMap Table.entries).Perm
      (entry :: shards.flatMap Table.entries) := by
  obtain ⟨hlt, rfl⟩ := List.getElem?_eq_some_iff.mp hshard
  rw [List.set_eq_take_append_cons_drop, if_pos hlt]
  conv_rhs => rw [← List.take_append_drop i shards, List.drop_eq_getElem_cons hlt]
  simp only [List.flatMap_append, List.flatMap_cons]
  refine ((perm.append_right _).append_left _).trans ?_
  rw [List.cons_append]
  exact List.perm_middle

/-- Insert a key that is not there: the next placement decides the layout of
its shard. -/
def insertNew (m : BucketMap K V) (key : K) (value : V)
    (absent : key ∉ m.entries.map Prod.fst) : BucketMap K V where
  shardOf := m.shardOf
  shards := m.shards.set (m.shardOf key) ((m.coming 0).insertInto (m.shard key) key value)
  coming n := m.coming (n + 1)
  shardOf_lt key' := by simpa using m.shardOf_lt key'
  nodup := by
    have hperm := flatMap_set_perm (m.getElem?_shard key)
      ((m.coming 0).insertInto_entries_perm (m.shard_nodup key) (shard_absent absent) value)
    rw [entries_flatten]
    refine (hperm.map Prod.fst).symm.nodup ?_
    rw [List.map_cons, ← entries_flatten]
    exact List.nodup_cons.mpr ⟨absent, m.nodup⟩
  home i table hshard entry mem := by
    by_cases hi : i = m.shardOf key
    · subst hi
      rw [List.getElem?_set_self (m.shardOf_lt key), Option.some.injEq] at hshard
      subst hshard
      have hperm := (m.coming 0).insertInto_entries_perm (m.shard_nodup key)
        (shard_absent absent) value
      rcases List.mem_cons.mp (hperm.mem_iff.mp mem) with rfl | hold
      · rfl
      · exact m.home _ _ (m.getElem?_shard key) entry hold
    · rw [List.getElem?_set_ne (Ne.symm hi)] at hshard
      exact m.home i table hshard entry mem

/-- A new key adds one entry. -/
theorem entries_insertNew_perm (m : BucketMap K V) (key : K) (value : V)
    (absent : key ∉ m.entries.map Prod.fst) :
    (m.insertNew key value absent).entries.Perm ((key, value) :: m.entries) := by
  rw [entries_eq_flatMap, entries_eq_flatMap]
  exact flatMap_set_perm (m.getElem?_shard key)
    ((m.coming 0).insertInto_entries_perm (m.shard_nodup key) (shard_absent absent) value)

/-- Store `value` under `key`: in place when the key is there. -/
def insert (m : BucketMap K V) (key : K) (value : V) : BucketMap K V :=
  if absent : key ∈ m.entries.map Prod.fst then
    m.filterMap (setEntry key (some value))
  else
    m.insertNew key value absent

/-- Make `value` what the map holds under `key`; `none` removes the key. -/
def set (m : BucketMap K V) (key : K) : Option V → BucketMap K V
  | some value => m.insert key value
  | none => m.erase key

theorem set_none (m : BucketMap K V) (key : K) : m.set key none = m.erase key := rfl

theorem set_some (m : BucketMap K V) (key : K) (value : V) :
    m.set key (some value) = m.insert key value := rfl

/-- A lookup after an insertion. -/
@[simp] theorem get_insert (m : BucketMap K V) (key : K) (value : V) (key' : K) :
    (m.insert key value).get key' = if key' = key then some value else m.get key' := by
  unfold insert
  split
  next present =>
    rw [get_filterMap]
    by_cases h : key' = key
    · subst h
      obtain ⟨old, hold⟩ := Option.ne_none_iff_exists'.mp
        fun hnone => get_eq_none_iff.mp hnone present
      simp [hold, setEntry]
    · cases m.get key' <;> simp [setEntry, h]
  next absent =>
    rw [get, lookup_perm (entries_nodup _) (m.entries_insertNew_perm key value absent),
      lookup_cons]
    by_cases h : key' = key
    · simp [h]
    · rw [if_neg h, if_neg (fun e => h e.symm)]
      rfl

/-- A lookup after a removal. -/
@[simp] theorem get_erase (m : BucketMap K V) (key key' : K) :
    (m.erase key).get key' = if key' = key then none else m.get key' := by
  rw [erase, get_filterMap]
  by_cases h : key' = key
  · cases m.get key' <;> simp [setEntry, h]
  · cases m.get key' <;> simp [setEntry, h]

/-- **One update, read back through lookups.** -/
@[simp] theorem get_set (m : BucketMap K V) (key : K) (value : Option V) (key' : K) :
    (m.set key value).get key' = if key' = key then value else m.get key' := by
  cases value with
  | none => exact m.get_erase key key'
  | some new => exact m.get_insert key new key'

/-- **One update, read back through a per-entry cost.** -/
theorem weight_set (m : BucketMap K V) (f : K → V → ℕ) (key : K) (value : Option V) :
    (m.set key value).weight f + (m.get key).elim 0 (f key) =
      m.weight f + value.elim 0 (f key) := by
  cases hget : m.get key with
  | some old =>
    have hweight := weight_setEntry f m.nodup hget value
    cases value with
    | none =>
      rw [set_none, erase, weight, entries_filterMap]
      exact hweight
    | some new =>
      rw [set_some, insert, dif_pos (mem_keys_of_get hget), weight, entries_filterMap]
      exact hweight
  | none =>
    have absent := get_eq_none_iff.mp hget
    cases value with
    | none =>
      rw [set_none, erase, weight, entries_filterMap,
        mapEntries_setEntry_of_notMem absent none]
      rfl
    | some new =>
      rw [set_some, insert, dif_neg absent, weight,
        weight_perm f (m.entries_insertNew_perm key new absent), weight_cons]
      simp only [Option.elim_none, Option.elim_some, add_zero]
      exact Nat.add_comm _ _

/-- The weight covers each entry. -/
theorem elim_get_le_weight (m : BucketMap K V) (f : K → V → ℕ) (key : K) :
    (m.get key).elim 0 (f key) ≤ m.weight f := by
  cases hget : m.get key with
  | none => exact Nat.zero_le _
  | some value => exact le_weight_of_mem f (get_eq_some_iff.mp hget)

/-- A map that holds nothing weighs nothing. -/
theorem weight_eq_zero (m : BucketMap K V) (hnone : ∀ key, m.get key = none) (f : K → V → ℕ) :
    m.weight f = 0 := by
  have hentries : m.entries = [] := by
    refine List.eq_nil_iff_forall_not_mem.mpr fun entry mem => ?_
    have hget := get_eq_some_iff.mpr mem
    rw [hnone] at hget
    cases hget
  rw [weight, hentries]
  rfl

/-- Taking out a key that is there leaves one entry less. -/
theorem len_set_none {m : BucketMap K V} {key : K} {value : V} (h : m.get key = some value) :
    (m.set key none).len + 1 = m.len := by
  have hlen : ∀ n : BucketMap K V, n.weight (fun _ _ => 1) = n.len := fun n => by
    simp [weight, Lib.weight, len]
  have hweight := m.weight_set (fun _ _ => 1) key none
  rw [h, hlen, hlen] at hweight
  exact hweight

/-- Storing what is already there changes nothing, not even the layout. -/
theorem set_eq_self {m : BucketMap K V} {key : K} {value : Option V}
    (h : m.get key = value) : m.set key value = m := by
  cases value with
  | none =>
    refine filterMap_eq_self fun key' value' hget => ?_
    have hne : key' ≠ key := by
      rintro rfl
      rw [h] at hget
      cases hget
    simp [setEntry, hne]
  | some value =>
    rw [set_some, insert, dif_pos (mem_keys_of_get h)]
    refine filterMap_eq_self fun key' value' hget => ?_
    by_cases hkey : key' = key
    · subst hkey
      rw [h] at hget
      simp [setEntry, Option.some.inj hget]
    · simp [setEntry, hkey]

/-- The last update counts. -/
theorem set_set {m : BucketMap K V} {key : K} {old : V} (h : m.get key = some old)
    (first : V) (second : Option V) :
    (m.set key (some first)).set key second = m.set key second := by
  have hone : m.set key (some first) = m.filterMap (setEntry key (some first)) := by
    rw [set_some, insert, dif_pos (mem_keys_of_get h)]
  have hkey : (m.set key (some first)).get key = some first := by simp
  have hcompose : ∀ value : Option V,
      (m.set key (some first)).filterMap (setEntry key value) =
        m.filterMap (setEntry key value) := by
    intro value
    rw [hone, filterMap_filterMap]
    refine filterMap_congr fun key' value' _ => ?_
    by_cases e : key' = key <;> simp [setEntry, e]
  cases second with
  | none => exact hcompose none
  | some new =>
    rw [set_some _ key new, insert, dif_pos (mem_keys_of_get hkey), hcompose,
      set_some, insert, dif_pos (mem_keys_of_get h)]

/-! ### Laying shards out afresh -/

/-- Whether the table of shard `i` meets `sparse`, a test on its capacity and
its number of entries. -/
def sparseAt (m : BucketMap K V) (sparse : ℕ → ℕ → Bool) (i : ℕ) (table : Table K V) : Bool :=
  sparse ((m.coming i).capacity table.row) table.entries.length

omit [DecidableEq K] in
/-- Shards that are laid out anew have the same entries. -/
private theorem flatMap_mapIdx_perm {shards : List (Table K V)}
    {f : ℕ → Table K V → Table K V}
    (perm : ∀ i, ∀ table ∈ shards, (f i table).entries.Perm table.entries) :
    ((shards.mapIdx f).flatMap Table.entries).Perm (shards.flatMap Table.entries) := by
  induction shards generalizing f with
  | nil => exact List.Perm.refl _
  | cons table rest ih =>
    rw [List.mapIdx_cons, List.flatMap_cons, List.flatMap_cons]
    refine (perm 0 table List.mem_cons_self).append (ih fun i later mem => ?_)
    exact perm (i + 1) later (List.mem_cons_of_mem _ mem)

/-- Rehash every shard that meets `sparse`. -/
def shrinkWhere (m : BucketMap K V) (sparse : ℕ → ℕ → Bool) : BucketMap K V where
  shardOf := m.shardOf
  shards := m.shards.mapIdx fun i table =>
    if m.sparseAt sparse i table then (m.coming i).relayout table else table
  coming n := m.coming (m.shards.length + n)
  shardOf_lt key := by simpa using m.shardOf_lt key
  nodup := by
    rw [entries_flatten]
    refine ((flatMap_mapIdx_perm fun i table mem => ?_).map Prod.fst).symm.nodup
      (by rw [← entries_flatten]; exact m.nodup)
    split
    · exact (m.coming i).relayout_entries_perm (m.table_nodup mem)
    · exact List.Perm.refl _
  home i table hshard entry mem := by
    rw [List.getElem?_mapIdx, Option.map_eq_some_iff] at hshard
    obtain ⟨old, hold, rfl⟩ := hshard
    refine m.home i old hold entry ?_
    split at mem
    · exact ((m.coming i).relayout_entries_perm
        (m.table_nodup (List.mem_of_getElem? hold))).mem_iff.mp mem
    · exact mem

/-- A map that shrinks has the same entries. -/
theorem entries_shrinkWhere_perm (m : BucketMap K V) (sparse : ℕ → ℕ → Bool) :
    (m.shrinkWhere sparse).entries.Perm m.entries := by
  rw [entries_eq_flatMap, entries_eq_flatMap]
  refine flatMap_mapIdx_perm fun i table mem => ?_
  split
  · exact (m.coming i).relayout_entries_perm (m.table_nodup mem)
  · exact List.Perm.refl _

/-- A map that shrinks has the same lookups. -/
@[simp] theorem get_shrinkWhere (m : BucketMap K V) (sparse : ℕ → ℕ → Bool) (key : K) :
    (m.shrinkWhere sparse).get key = m.get key :=
  lookup_perm (entries_nodup _) (m.entries_shrinkWhere_perm sparse) key

/-- A map that shrinks has the same weight. -/
@[simp] theorem weight_shrinkWhere (m : BucketMap K V) (sparse : ℕ → ℕ → Bool)
    (f : K → V → ℕ) : (m.shrinkWhere sparse).weight f = m.weight f :=
  weight_perm f (m.entries_shrinkWhere_perm sparse)

end BucketMap

end Lib
