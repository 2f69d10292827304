import Mathlib.Algebra.Order.BigOperators.Group.List
import Mathlib.Algebra.Order.Ring.Nat
import Mathlib.Data.List.Nodup

/-!
# Association lists with distinct keys

A finite map in memory is, for everything an observer can ask of it, a list of
key/value pairs in which no key occurs twice.  This module is the small theory
of such lists that the bucket tables of `Lib.BucketMap` and the field maps of
a hash value are built on.

* `lookup` reads a key; under `KeysNodup` it is membership
  (`lookup_eq_some_iff`), so it does not see the order of the list
  (`lookup_perm`).
* `mapEntries f` rewrites or drops every pair **in place**: replacing a value,
  erasing a key, filtering and mapping are all instances of it, so their
  lookups come from the one lemma `lookup_mapEntries`.
* `weight f` is the total charge of the list under a per-entry cost, which is
  what a memory counter kept beside the map has to agree with.

`Assoc` bundles a list with the proof that its keys are distinct.
-/

namespace Lib

universe u

variable {K V W : Type u} [DecidableEq K]

/-! ## Raw lists -/

/-- No key occurs twice. -/
def KeysNodup (entries : List (K × V)) : Prop := (entries.map Prod.fst).Nodup

/-- The value stored under `key`. -/
def lookup (entries : List (K × V)) (key : K) : Option V :=
  (entries.find? fun entry => entry.1 = key).map Prod.snd

/-- Rewrite every entry where it stands; `none` drops it. -/
def mapEntries (f : K → V → Option W) (entries : List (K × V)) : List (K × W) :=
  entries.filterMap fun entry => (f entry.1 entry.2).map (Prod.mk entry.1)

/-- Total charge of the entries under the cost `f`. -/
def weight (f : K → V → ℕ) (entries : List (K × V)) : ℕ :=
  (entries.map fun entry => f entry.1 entry.2).sum

@[simp] theorem lookup_nil (key : K) : lookup ([] : List (K × V)) key = none := rfl

theorem lookup_cons (entry : K × V) (entries : List (K × V)) (key : K) :
    lookup (entry :: entries) key =
      if entry.1 = key then some entry.2 else lookup entries key := by
  by_cases h : entry.1 = key <;> simp [lookup, h]

/-- A pair that `lookup` finds is in the list. -/
theorem mem_of_lookup {entries : List (K × V)} {key : K} {value : V}
    (h : lookup entries key = some value) : (key, value) ∈ entries := by
  rw [lookup, Option.map_eq_some_iff] at h
  obtain ⟨entry, found, rfl⟩ := h
  have hkey : entry.1 = key := by simpa using List.find?_some found
  rw [← hkey]
  exact List.mem_of_find?_eq_some found

/-- What is not found is not a key. -/
theorem lookup_eq_none_iff {entries : List (K × V)} {key : K} :
    lookup entries key = none ↔ key ∉ entries.map Prod.fst := by
  simp [lookup, List.find?_eq_none]
  exact ⟨fun h value mem => h key value mem rfl, fun h a b mem e => h b (e ▸ mem)⟩

/-- With distinct keys, looking up is membership. -/
theorem lookup_eq_some_iff {entries : List (K × V)} (nodup : KeysNodup entries)
    {key : K} {value : V} :
    lookup entries key = some value ↔ (key, value) ∈ entries := by
  refine ⟨mem_of_lookup, fun mem => ?_⟩
  cases found : lookup entries key with
  | none =>
    exact absurd (List.mem_map_of_mem (f := Prod.fst) mem)
      (lookup_eq_none_iff.mp found)
  | some other =>
    have pairEq := List.inj_on_of_nodup_map nodup (mem_of_lookup found) mem rfl
    rw [(Prod.mk.inj pairEq).2]

/-- The order of the list is invisible to `lookup`. -/
theorem lookup_perm {entries entries' : List (K × V)} (nodup : KeysNodup entries)
    (perm : entries.Perm entries') (key : K) :
    lookup entries key = lookup entries' key := by
  have nodup' : KeysNodup entries' := (perm.map Prod.fst).nodup nodup
  apply Option.ext
  intro value
  rw [lookup_eq_some_iff nodup, lookup_eq_some_iff nodup', perm.mem_iff]

omit [DecidableEq K] in
/-- A map of the entries drops keys and adds none. -/
theorem mapEntries_keys_sublist (f : K → V → Option W) (entries : List (K × V)) :
    ((mapEntries f entries).map Prod.fst).Sublist (entries.map Prod.fst) := by
  induction entries with
  | nil => simp [mapEntries]
  | cons entry rest ih =>
    cases h : f entry.1 entry.2 with
    | none => simpa [mapEntries, h] using ih.cons entry.1
    | some value => simpa [mapEntries, h] using ih

omit [DecidableEq K] in
/-- A map of the entries keeps the keys distinct. -/
theorem KeysNodup.mapEntries {entries : List (K × V)} (nodup : KeysNodup entries)
    (f : K → V → Option W) : KeysNodup (mapEntries f entries) :=
  List.Nodup.sublist (mapEntries_keys_sublist f entries) nodup

/-- **In-place rewriting, read back.**  Every in-place operation is an
instance. -/
theorem lookup_mapEntries {entries : List (K × V)} (nodup : KeysNodup entries)
    (f : K → V → Option W) (key : K) :
    lookup (mapEntries f entries) key = (lookup entries key).bind (f key) := by
  apply Option.ext
  intro value
  rw [lookup_eq_some_iff (nodup.mapEntries f), Option.bind_eq_some_iff]
  simp only [mapEntries, List.mem_filterMap, Option.map_eq_some_iff,
    lookup_eq_some_iff nodup]
  constructor
  · rintro ⟨entry, mem, w, hw, pair⟩
    obtain ⟨rfl, rfl⟩ := Prod.mk.inj pair
    exact ⟨entry.2, mem, hw⟩
  · rintro ⟨v, mem, hv⟩
    exact ⟨(key, v), mem, value, hv, rfl⟩

omit [DecidableEq K] in
/-- In-place rewriting that leaves every present entry alone is the identity. -/
theorem mapEntries_eq_self {f : K → V → Option V} {entries : List (K × V)}
    (h : ∀ entry ∈ entries, f entry.1 entry.2 = some entry.2) :
    mapEntries f entries = entries := by
  induction entries with
  | nil => rfl
  | cons entry rest ih =>
    have hhead := h entry (by simp)
    have htail := ih fun e mem => h e (by simp [mem])
    simp only [mapEntries, List.filterMap_cons, hhead, Option.map_some]
    rw [mapEntries] at htail
    rw [htail]

/-! ### Weights -/

omit [DecidableEq K] in
@[simp] theorem weight_nil (f : K → V → ℕ) : weight f [] = 0 := rfl

omit [DecidableEq K] in
@[simp] theorem weight_cons (f : K → V → ℕ) (entry : K × V) (entries : List (K × V)) :
    weight f (entry :: entries) = f entry.1 entry.2 + weight f entries := by
  simp [weight]

omit [DecidableEq K] in
/-- The weight does not depend on the order. -/
theorem weight_perm (f : K → V → ℕ) {entries entries' : List (K × V)}
    (perm : entries.Perm entries') : weight f entries = weight f entries' :=
  (perm.map _).sum_eq

/-- The in-place update of one key: its value becomes `value`, or it goes. -/
def setEntry (key : K) (value : Option V) (key' : K) (old : V) : Option V :=
  if key' = key then value else some old

/-- Updating a key that is not there does nothing. -/
theorem mapEntries_setEntry_of_notMem {entries : List (K × V)} {key : K}
    (absent : key ∉ entries.map Prod.fst) (value : Option V) :
    mapEntries (setEntry key value) entries = entries := by
  refine mapEntries_eq_self fun entry mem => ?_
  have hne : entry.1 ≠ key := by
    rintro rfl
    exact absent (List.mem_map_of_mem mem)
  simp [setEntry, hne]

/-- Updating one present key moves the weight by the difference at that key. -/
theorem weight_setEntry (f : K → V → ℕ) {entries : List (K × V)}
    (nodup : KeysNodup entries) {key : K} {old : V}
    (found : lookup entries key = some old) (value : Option V) :
    weight f (mapEntries (setEntry key value) entries) + f key old =
      weight f entries + value.elim 0 (f key) := by
  induction entries with
  | nil => simp at found
  | cons entry rest ih =>
    obtain ⟨hhead, htail⟩ := List.nodup_cons.mp nodup
    by_cases hkey : entry.1 = key
    · have hold : entry.2 = old := by
        rw [lookup_cons, if_pos hkey] at found
        exact Option.some.inj found
      have hrest := mapEntries_setEntry_of_notMem (hkey ▸ hhead) value
      rw [mapEntries] at hrest
      cases value with
      | none =>
        simp only [mapEntries, List.filterMap_cons, setEntry, hkey, if_true,
          Option.map_none]
        simp only [setEntry] at hrest
        rw [hrest, weight_cons, hkey, hold]
        simp only [Option.elim_none]
        omega
      | some new =>
        simp only [mapEntries, List.filterMap_cons, setEntry, hkey, if_true,
          Option.map_some]
        simp only [setEntry] at hrest
        rw [hrest, weight_cons, weight_cons, hkey, hold]
        simp only [Option.elim_some]
        omega
    · rw [lookup_cons, if_neg hkey] at found
      have hstep := ih htail found
      simp only [mapEntries, List.filterMap_cons, setEntry, hkey, if_false,
        Option.map_some, weight_cons]
      simp only [mapEntries, setEntry] at hstep
      omega

omit [DecidableEq K] in
/-- One entry's charge is at most the whole weight. -/
theorem le_weight_of_mem (f : K → V → ℕ) {entries : List (K × V)} {entry : K × V}
    (mem : entry ∈ entries) : f entry.1 entry.2 ≤ weight f entries :=
  List.single_le_sum (by simp) _ (List.mem_map_of_mem mem)

/-! ## Bundled association lists -/

/-- A finite map: entries in insertion order, no key twice. -/
@[ext] structure Assoc (K V : Type u) where
  entries : List (K × V)
  nodup : KeysNodup entries

namespace Assoc

/-- The map with no entry. -/
def empty : Assoc K V := ⟨[], List.nodup_nil⟩

/-- The value under `key`. -/
def get (m : Assoc K V) (key : K) : Option V := lookup m.entries key

/-- Number of entries. -/
def len (m : Assoc K V) : ℕ := m.entries.length

/-- Rewrite or drop every entry in place. -/
def filterMap (m : Assoc K V) (f : K → V → Option W) : Assoc K W :=
  ⟨mapEntries f m.entries, m.nodup.mapEntries f⟩

/-- Keep the entries that satisfy `p` (`HashMap::retain`). -/
def retain (m : Assoc K V) (p : K → V → Bool) : Assoc K V :=
  m.filterMap fun key value => if p key value then some value else none

/-- Store `value` under `key`: in place when the key is there, at the end
otherwise. -/
def insert (m : Assoc K V) (key : K) (value : V) : Assoc K V :=
  if absent : key ∈ m.entries.map Prod.fst then
    m.filterMap (setEntry key (some value))
  else
    ⟨m.entries ++ [(key, value)], by
      simpa [KeysNodup, List.nodup_append] using
        ⟨m.nodup, fun a b mem e => absent (e ▸ List.mem_map_of_mem mem)⟩⟩

/-- Remove `key`. -/
def erase (m : Assoc K V) (key : K) : Assoc K V := m.filterMap (setEntry key none)

/-- Total charge under `f`. -/
def weight (m : Assoc K V) (f : K → V → ℕ) : ℕ := Lib.weight f m.entries

@[simp] theorem get_empty (key : K) : (empty : Assoc K V).get key = none := rfl

omit [DecidableEq K] in
@[simp] theorem weight_empty (f : K → V → ℕ) : (empty : Assoc K V).weight f = 0 := rfl

/-- A lookup in a mapped table. -/
@[simp] theorem get_filterMap (m : Assoc K V) (f : K → V → Option W) (key : K) :
    (m.filterMap f).get key = (m.get key).bind (f key) :=
  lookup_mapEntries m.nodup f key

/-- A lookup in what is retained. -/
@[simp] theorem get_retain (m : Assoc K V) (p : K → V → Bool) (key : K) :
    (m.retain p).get key = (m.get key).filter (p key) := by
  rw [retain, get_filterMap]
  cases m.get key <;> rfl

/-- A lookup after a removal. -/
@[simp] theorem get_erase (m : Assoc K V) (key key' : K) :
    (m.erase key).get key' = if key' = key then none else m.get key' := by
  rw [erase, get_filterMap]
  by_cases h : key' = key
  · cases m.get key' <;> simp [setEntry, h]
  · cases m.get key' <;> simp [setEntry, h]

/-- A key that is not found is in no entry. -/
theorem get_eq_none_iff {m : Assoc K V} {key : K} :
    m.get key = none ↔ key ∉ m.entries.map Prod.fst := lookup_eq_none_iff

/-- What is found is an entry. -/
theorem get_eq_some_iff {m : Assoc K V} {key : K} {value : V} :
    m.get key = some value ↔ (key, value) ∈ m.entries := lookup_eq_some_iff m.nodup

/-- A lookup after an insertion. -/
@[simp] theorem get_insert (m : Assoc K V) (key : K) (value : V) (key' : K) :
    (m.insert key value).get key' = if key' = key then some value else m.get key' := by
  unfold insert
  split
  next present =>
    rw [get_filterMap]
    by_cases h : key' = key
    · subst h
      obtain ⟨old, hold⟩ := Option.ne_none_iff_exists'.mp
        (fun hnone => get_eq_none_iff.mp hnone present)
      simp [hold, setEntry]
    · cases m.get key' <;> simp [setEntry, h]
  next absent =>
    apply Option.ext
    intro v
    rw [get_eq_some_iff]
    by_cases h : key' = key
    · subst h
      have hnone : ∀ w, (key', w) ∉ m.entries := fun w mem =>
        absent (List.mem_map_of_mem (f := Prod.fst) mem)
      simp [hnone, eq_comm]
    · simp [h, get_eq_some_iff]

/-- Storing moves the weight from the old charge of the key to the new one. -/
theorem weight_insert (m : Assoc K V) (f : K → V → ℕ) (key : K) (value : V) :
    (m.insert key value).weight f + (m.get key).elim 0 (f key) =
      m.weight f + f key value := by
  cases hget : m.get key with
  | some old =>
    have present : key ∈ m.entries.map Prod.fst := by
      by_contra h
      rw [get_eq_none_iff.mpr h] at hget
      cases hget
    rw [insert, dif_pos present]
    exact weight_setEntry f m.nodup hget (some value)
  | none =>
    rw [insert, dif_neg (get_eq_none_iff.mp hget)]
    simp [weight, Lib.weight]

/-- Removing gives back exactly the charge of the key. -/
theorem weight_erase (m : Assoc K V) (f : K → V → ℕ) (key : K) :
    (m.erase key).weight f + (m.get key).elim 0 (f key) = m.weight f := by
  cases hget : m.get key with
  | some old => exact weight_setEntry f m.nodup hget none
  | none =>
    have hrest := mapEntries_setEntry_of_notMem (get_eq_none_iff.mp hget) none
    simp [erase, filterMap, weight, hrest]

/-- The weight covers each entry. -/
theorem get_le_weight (m : Assoc K V) (f : K → V → ℕ) {key : K} {value : V}
    (h : m.get key = some value) : f key value ≤ m.weight f :=
  le_weight_of_mem f (get_eq_some_iff.mp h)

omit [DecidableEq K] in
/-- The entries that are retained. -/
theorem retain_entries (m : Assoc K V) (p : K → V → Bool) :
    (m.retain p).entries = m.entries.filter fun entry => p entry.1 entry.2 := by
  rw [← List.filterMap_eq_filter]
  refine List.filterMap_congr fun entry _ => ?_
  cases h : p entry.1 entry.2 <;> simp [Option.guard, h]

/-- Nothing changes if everything is retained. -/
theorem retain_eq_self {m : Assoc K V} {p : K → V → Bool}
    (h : ∀ key value, m.get key = some value → p key value = true) : m.retain p = m := by
  ext1
  rw [retain_entries, List.filter_eq_self]
  exact fun entry mem => h entry.1 entry.2 (get_eq_some_iff.mpr mem)

omit [DecidableEq K] in
/-- The charge of what a predicate keeps and of what it drops. -/
theorem weight_retain (m : Assoc K V) (p : K → V → Bool) (f : K → V → ℕ) :
    (m.retain p).weight f + m.weight (fun key value => if p key value then 0 else f key value) =
      m.weight f := by
  rw [weight, retain_entries, weight, weight]
  induction m.entries with
  | nil => rfl
  | cons head rest ih =>
    cases h : p head.1 head.2
    · rw [List.filter_cons_of_neg (by simp [h])]
      simp only [weight_cons, h, Bool.false_eq_true, if_false]
      omega
    · rw [List.filter_cons_of_pos (by simpa using h)]
      simp only [weight_cons, h, if_true]
      omega

end Assoc

end Lib
