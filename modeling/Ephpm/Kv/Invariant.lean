import Ephpm.Kv.Step

/-!
# The invariant of a store, and updates in normal form

The source adjusts the byte counter and the two expiry indexes by hand in every
operation, in different orders and with deltas computed before and after the maps
change.  This file says what all of that amounts to.

* `footprint` is what the counter should read: the charges of the entries and of
  the hints.
* `Inv` collects what holds of a store between operations: every entry is charged
  its estimate, the indexes agree with the maps, the counter is the footprint, and
  it never had to be clamped to get there.
* `putString` and `putHash` change one name in a map, its index and the counter in
  one go, and keep the invariant (`Inv.putString`, `Inv.putHash`).
-/

namespace Ephpm.Kv

open Lib

namespace Store

/-! ## What the counter should read -/

/-- Bytes charged for a hint under `key`. -/
def hintCost (key : String) (hint : Option Instant) : ℕ := hint.elim 0 fun _ => ttlIndexCost key

/-- Bytes charged for what a string key holds, its hint included. -/
def stringCost (key : String) (entry : Option Entry) : ℕ :=
  entry.elim 0 (·.memSize) + hintCost key (entry.bind (·.expiresAt))

/-- Bytes charged for what a hash key holds, its hint included. -/
def hashCost (key : String) (entry : Option HashEntry) (hint : Option Instant) : ℕ :=
  entry.elim 0 (·.mem) + hintCost key hint

@[simp] theorem hintCost_none (key : String) : hintCost key none = 0 := rfl

@[simp] theorem stringCost_none (key : String) : stringCost key none = 0 := rfl

@[simp] theorem stringCost_some (key : String) (e : Entry) :
    stringCost key (some e) = e.memSize + hintCost key e.expiresAt := rfl

@[simp] theorem hashCost_some (key : String) (h : HashEntry) (hint : Option Instant) :
    hashCost key (some h) hint = h.mem + hintCost key hint := rfl

@[simp] theorem hashCost_none (key : String) : hashCost key none none = 0 := rfl

/-- The charges of all entries and all hints. -/
def footprint (s : Store) : ℕ :=
  s.data.weight (fun _ e => e.memSize) + s.hashes.weight (fun _ h => h.mem) +
    s.ttlKeys.weight (fun key _ => ttlIndexCost key) +
    s.hashTtlKeys.weight (fun key _ => ttlIndexCost key)

/-- **The invariant of a store.** -/
structure Inv [Platform] (s : Store) : Prop where
  sized : ∀ key e, s.data.get key = some e → e.Sized key
  indexed : ∀ key, s.ttlKeys.get key = (s.data.get key).bind (·.expiresAt)
  charged : ∀ key h, s.hashes.get key = some h → h.Charged key
  hinted : ∀ key h, s.hashes.get key = some h →
    NotLater (s.hashTtlKeys.get key) h.earliestDeadline
  hintOwned : ∀ key, s.hashes.get key = none → s.hashTtlKeys.get key = none
  accounted : s.memUsed = s.footprint
  unclamped : Event.clamped ∉ s.events
  watched : s.watchSlots = 0 → ∀ key, s.watchers.get key = none
  versioned : ∀ key version, s.watchers.get key = some version → version ≤ u64Max

/-- A store that holds nothing satisfies the invariant if its counter reads zero. -/
theorem Inv.of_empty [Platform] {s : Store} (hdata : ∀ key, s.data.get key = none)
    (hhashes : ∀ key, s.hashes.get key = none) (httl : ∀ key, s.ttlKeys.get key = none)
    (hhints : ∀ key, s.hashTtlKeys.get key = none) (hmem : s.memUsed = 0)
    (unclamped : Event.clamped ∉ s.events)
    (watched : s.watchSlots = 0 → ∀ key, s.watchers.get key = none)
    (versioned : ∀ key version, s.watchers.get key = some version → version ≤ u64Max) : Inv s where
  sized key e hget := by
    rw [hdata] at hget
    cases hget
  indexed key := by
    rw [httl, hdata]
    rfl
  charged key h hget := by
    rw [hhashes] at hget
    cases hget
  hinted key h hget := by
    rw [hhashes] at hget
    cases hget
  hintOwned key _ := hhints key
  accounted := by
    rw [hmem, footprint, s.data.weight_eq_zero hdata, s.hashes.weight_eq_zero hhashes,
      s.ttlKeys.weight_eq_zero httl, s.hashTtlKeys.weight_eq_zero hhints]
  unclamped := unclamped
  watched := watched
  versioned := versioned

/-- A new store satisfies the invariant. -/
theorem IsNew.inv [Platform] {s : Store} (h : s.IsNew) : Inv s := by
  obtain ⟨hdata, hhashes, hhints, httl, hwatch, -, -, -, hmem, -, hevents⟩ := h
  have none_of {V : Type} {m : BucketMap String V} (hm : m.entries = []) (key : String) :
      m.get key = none := by
    rw [BucketMap.get, hm]
    rfl
  refine .of_empty (none_of hdata) (none_of hhashes) (none_of httl) (none_of hhints) hmem
    (by simp [hevents]) (fun _ => none_of hwatch) fun key version hget => ?_
  rw [none_of hwatch key] at hget
  cases hget

/-! ## Updates in normal form -/

/-- Let `key` hold `entry` as a string, or nothing: map, index and counter. -/
def putString (key : String) (entry : Option Entry) (s : Store) : Store :=
  { s with
    data := s.data.set key entry
    ttlKeys := s.ttlKeys.set key (entry.bind (·.expiresAt))
    memUsed := s.memUsed + stringCost key entry - stringCost key (s.data.get key) }

/-- Let `key` hold `entry` as a hash with the given hint, or nothing. -/
def putHash (key : String) (entry : Option HashEntry) (hint : Option Instant) (s : Store) :
    Store :=
  { s with
    hashes := s.hashes.set key entry
    hashTtlKeys := s.hashTtlKeys.set key hint
    memUsed := s.memUsed + hashCost key entry hint -
      hashCost key (s.hashes.get key) (s.hashTtlKeys.get key) }

/-- Change a string and wake its waiters. -/
def writeString (key : String) (entry : Option Entry) (s : Store) : Store :=
  (s.putString key entry).notifyWrite key

/-- Wake the waiters of `key` if something changed. -/
def wake (changed : Bool) (key : String) (s : Store) : Store :=
  if changed then s.notifyWrite key else s

section Fields

variable (key : String) (entry : Option Entry) (changed : Bool) (s : Store)

/-- Waking waiters changes the versions only. -/
theorem wake_eq : s.wake changed key = { s with watchers := (s.wake changed key).watchers } := by
  unfold wake
  split
  · exact notifyWrite_eq key s
  · rfl

/-- Waking changes no string. -/
@[simp] theorem wake_data : (s.wake changed key).data = s.data := by rw [wake_eq]

/-- Waking changes no hash. -/
@[simp] theorem wake_hashes : (s.wake changed key).hashes = s.hashes := by rw [wake_eq]

/-- Waking changes no hint. -/
@[simp] theorem wake_hashTtlKeys : (s.wake changed key).hashTtlKeys = s.hashTtlKeys := by
  rw [wake_eq]

/-- Waking costs nothing. -/
@[simp] theorem wake_memUsed : (s.wake changed key).memUsed = s.memUsed := by rw [wake_eq]

@[simp] theorem wake_config : (s.wake changed key).config = s.config := by rw [wake_eq]

@[simp] theorem wake_anchor : (s.wake changed key).anchor = s.anchor := by rw [wake_eq]

@[simp] theorem wake_events : (s.wake changed key).events = s.events := by rw [wake_eq]

@[simp] theorem wake_evictionPool : (s.wake changed key).evictionPool = s.evictionPool := by
  rw [wake_eq]

@[simp] theorem notifyWrite_evictionPool :
    (s.notifyWrite key).evictionPool = s.evictionPool := wake_evictionPool key true s

@[simp] theorem writeString_evictionPool :
    (s.writeString key entry).evictionPool = s.evictionPool := notifyWrite_evictionPool _ _

@[simp] theorem writeString_data :
    (s.writeString key entry).data = s.data.set key entry := notifyWrite_data _ _

@[simp] theorem writeString_hashes : (s.writeString key entry).hashes = s.hashes :=
  notifyWrite_hashes _ _

@[simp] theorem writeString_hashTtlKeys :
    (s.writeString key entry).hashTtlKeys = s.hashTtlKeys := notifyWrite_hashTtlKeys _ _

/-- A write charges for the new string and gives back the charge of the old one. -/
@[simp] theorem writeString_memUsed : (s.writeString key entry).memUsed =
    s.memUsed + stringCost key entry - stringCost key (s.data.get key) :=
  notifyWrite_memUsed _ _

@[simp] theorem writeString_config : (s.writeString key entry).config = s.config :=
  notifyWrite_config _ _

@[simp] theorem writeString_anchor : (s.writeString key entry).anchor = s.anchor :=
  notifyWrite_anchor _ _

@[simp] theorem writeString_events : (s.writeString key entry).events = s.events :=
  notifyWrite_events _ _

end Fields

section Updates

variable [P : Platform] {s : Store}

/-- The counter covers every string. -/
theorem Inv.stringCost_le (inv : Inv s) (key : String) :
    stringCost key (s.data.get key) ≤ s.memUsed := by
  have hdata := s.data.elim_get_le_weight (fun _ e => e.memSize) key
  have hhint := s.ttlKeys.elim_get_le_weight (fun key _ => ttlIndexCost key) key
  rw [inv.accounted, footprint, stringCost, hintCost, ← inv.indexed]
  omega

/-- The counter covers every hash. -/
theorem Inv.hashCost_le (inv : Inv s) (key : String) :
    hashCost key (s.hashes.get key) (s.hashTtlKeys.get key) ≤ s.memUsed := by
  have hdata := s.hashes.elim_get_le_weight (fun _ h => h.mem) key
  have hhint := s.hashTtlKeys.elim_get_le_weight (fun key _ => ttlIndexCost key) key
  rw [inv.accounted, footprint, hashCost, hintCost]
  omega

/-- **Changing a string keeps the invariant.** -/
theorem Inv.putString (inv : Inv s) (key : String) {entry : Option Entry}
    (sized : ∀ e, entry = some e → e.Sized key) : Inv (s.putString key entry) where
  sized key' e hget := by
    rw [Store.putString, BucketMap.get_set] at hget
    split at hget
    next heq => exact heq ▸ sized e hget
    next => exact inv.sized key' e hget
  indexed key' := by
    simp only [Store.putString, BucketMap.get_set]
    split
    · rfl
    · exact inv.indexed key'
  charged := inv.charged
  hinted := inv.hinted
  hintOwned := inv.hintOwned
  accounted := by
    have hdata := s.data.weight_set (fun _ e => e.memSize) key entry
    have hhint := s.ttlKeys.weight_set (fun key _ => ttlIndexCost key) key
      (entry.bind (·.expiresAt))
    have hle := inv.stringCost_le key
    have hold := inv.accounted
    rw [inv.indexed key] at hhint
    simp only [Store.putString, footprint, stringCost, hintCost] at hle hold ⊢
    omega
  unclamped := inv.unclamped
  watched := inv.watched
  versioned := inv.versioned

/-- **Changing a hash keeps the invariant**, as long as the hint is not late and
belongs to a hash. -/
theorem Inv.putHash (inv : Inv s) (key : String) {entry : Option HashEntry}
    {hint : Option Instant} (charged : ∀ h, entry = some h → h.Charged key)
    (hinted : ∀ h, entry = some h → NotLater hint h.earliestDeadline)
    (owned : entry = none → hint = none) : Inv (s.putHash key entry hint) where
  sized := inv.sized
  indexed := inv.indexed
  charged key' h hget := by
    rw [Store.putHash, BucketMap.get_set] at hget
    split at hget
    next heq => exact heq ▸ charged h hget
    next => exact inv.charged key' h hget
  hinted key' h hget := by
    simp only [Store.putHash, BucketMap.get_set] at hget ⊢
    split at hget
    next heq =>
      rw [if_pos heq]
      exact hinted h hget
    next hne =>
      rw [if_neg hne]
      exact inv.hinted key' h hget
  hintOwned key' hget := by
    simp only [Store.putHash, BucketMap.get_set] at hget ⊢
    split at hget
    next heq =>
      rw [if_pos heq]
      exact owned hget
    next hne =>
      rw [if_neg hne]
      exact inv.hintOwned key' hget
  accounted := by
    have hdata := s.hashes.weight_set (fun _ h => h.mem) key entry
    have hhint := s.hashTtlKeys.weight_set (fun key _ => ttlIndexCost key) key hint
    have hle := inv.hashCost_le key
    have hold := inv.accounted
    simp only [Store.putHash, footprint, hashCost, hintCost] at hle hold ⊢
    omega
  unclamped := inv.unclamped
  watched := inv.watched
  versioned := inv.versioned

/-- Removing a hash keeps the invariant. -/
theorem Inv.removeHash (inv : Inv s) (key : String) : Inv (s.putHash key none none) :=
  inv.putHash key (fun _ h => by cases h) (fun _ h => by cases h) fun _ => rfl

/-- Removing a string keeps the invariant. -/
theorem Inv.removeString (inv : Inv s) (key : String) : Inv (s.putString key none) :=
  inv.putString key fun _ h => by cases h

/-- Waking waiters keeps the invariant. -/
theorem Inv.notifyWrite (inv : Inv s) (key : String) : Inv (s.notifyWrite key) := by
  unfold Store.notifyWrite
  split
  · exact inv
  next hslots =>
    split
    · exact inv
    · refine { inv with
        watched := fun h => absurd h hslots
        versioned := fun other version hget => ?_ }
      rw [BucketMap.get_insert] at hget
      split at hget
      · obtain rfl := Option.some.inj hget
        exact min_le_right _ _
      · exact inv.versioned other version hget

/-- Waking keeps the invariant. -/
theorem Inv.wake (inv : Inv s) (changed : Bool) (key : String) : Inv (s.wake changed key) := by
  unfold Store.wake
  split
  · exact inv.notifyWrite key
  · exact inv

/-- Changing a string and waking its waiters keeps the invariant. -/
theorem Inv.writeString (inv : Inv s) (key : String) {entry : Option Entry}
    (sized : ∀ e, entry = some e → e.Sized key) : Inv (s.writeString key entry) :=
  (inv.putString key sized).notifyWrite key

end Updates

end Store

end Ephpm.Kv
