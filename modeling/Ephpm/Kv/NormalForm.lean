import Ephpm.Kv.Invariant

/-!
# Operations in normal form

On a store that satisfies the invariant, each bookkeeping helper of the source is
one `putString` or `putHash`, whatever the order in which it adjusts map, index
and counter.  The equations here say which; every later proof rewrites with them
and none unfolds the bookkeeping again.

The counter is where the work is.  Each helper adds and subtracts charges one by
one, and a subtraction that saturated would leave the counter wrong and a mark in
the history.  The invariant bounds every charge that is given back by the counter,
so no subtraction saturates and the sum of the steps is the difference of the
charges.
-/

namespace Ephpm.Kv

open Lib

namespace Store

/-! ## The bookkeeping helpers -/

/-- The store with other strings: the part the string bookkeeping works on. -/
def withStrings (s : Store) (data : BucketMap String Entry) (ttlKeys : BucketMap String Instant)
    (memUsed : ℕ) : Store :=
  { s with data := data, ttlKeys := ttlKeys, memUsed := memUsed }

/-- The store with other hashes: the part the hash bookkeeping works on. -/
def withHashes (s : Store) (hashes : BucketMap String HashEntry)
    (hashTtlKeys : BucketMap String Instant) (memUsed : ℕ) : Store :=
  { s with hashes := hashes, hashTtlKeys := hashTtlKeys, memUsed := memUsed }

section Bookkeeping

variable {s : Store} {key : String} {data : BucketMap String Entry}
  {hashes : BucketMap String HashEntry} {hints : BucketMap String Instant} {used n : ℕ}

/-- A subtraction that the counter covers is not clamped. -/
theorem withStrings_memSub (h : n ≤ used) :
    (s.withStrings data hints used).memSub n = s.withStrings data hints (used - n) := by
  rw [memSub, if_pos (by exact h)]
  rfl

/-- A subtraction that the counter covers is not clamped. -/
theorem withHashes_memSub (h : n ≤ used) :
    (s.withHashes hashes hints used).memSub n = s.withHashes hashes hints (used - n) := by
  rw [memSub, if_pos (by exact h)]
  rfl

/-- Recording a deadline moves the counter from the old hint to the new one. -/
theorem withStrings_ttlIndexPut (deadline : Option Instant)
    (hle : hintCost key (hints.get key) ≤ used) :
    (s.withStrings data hints used).ttlIndexPut key deadline =
      s.withStrings data (hints.set key deadline)
        (used + hintCost key deadline - hintCost key (hints.get key)) := by
  unfold ttlIndexPut
  cases deadline with
  | some deadline =>
    cases hget : hints.get key <;>
      simp [withStrings, hget, hintCost, BucketMap.set_some, memAdd]
  | none =>
    cases hget : hints.get key with
    | some hint =>
      simp only [hget, hintCost, Option.elim_some] at hle
      simp [withStrings, hget, hintCost, BucketMap.set_none, memSub, hle]
    | none => simp [withStrings, hget, hintCost, BucketMap.set_eq_self hget]

/-- Dropping a hint that records the deadline gives its charge back. -/
theorem withStrings_ttlIndexDrop {deadline : Option Instant} (hhint : hints.get key = deadline)
    (hle : hintCost key deadline ≤ used) :
    (s.withStrings data hints used).ttlIndexDrop key deadline =
      s.withStrings data (hints.set key none) (used - hintCost key deadline) := by
  unfold ttlIndexDrop
  cases deadline with
  | some deadline =>
    simp only [hintCost, Option.elim_some] at hle
    simp [withStrings, hhint, hintCost, BucketMap.set_none, memSub, hle]
  | none => simp [hintCost, BucketMap.set_eq_self hhint]

/-- Dropping the hint of a hash. -/
theorem withHashes_hashIndexDrop (hle : hintCost key (hints.get key) ≤ used) :
    (s.withHashes hashes hints used).hashIndexDrop key =
      s.withHashes hashes (hints.set key none) (used - hintCost key (hints.get key)) := by
  unfold hashIndexDrop
  cases hget : hints.get key with
  | some hint =>
    simp only [hget, hintCost, Option.elim_some] at hle
    simp [withHashes, hget, hintCost, BucketMap.set_none, memSub, hle]
  | none => simp [withHashes, hget, hintCost, BucketMap.set_eq_self hget]

/-- Setting the hint of a hash. -/
theorem withHashes_hashIndexSet (deadline : Option Instant)
    (hle : hintCost key (hints.get key) ≤ used) :
    (s.withHashes hashes hints used).hashIndexSet key deadline =
      s.withHashes hashes (hints.set key deadline)
        (used + hintCost key deadline - hintCost key (hints.get key)) := by
  cases deadline with
  | some deadline =>
    unfold hashIndexSet
    cases hget : hints.get key <;>
      simp [withHashes, hget, hintCost, BucketMap.set_some, memAdd]
  | none => rw [hashIndexSet, withHashes_hashIndexDrop hle, hintCost_none, Nat.add_zero]

/-- Noting a deadline keeps the earlier one. -/
theorem withHashes_hashIndexNote (deadline : Instant) :
    (s.withHashes hashes hints used).hashIndexNote key deadline =
      s.withHashes hashes (hints.set key (minDeadline (hints.get key) (some deadline)))
        (used + hintCost key (some deadline) - hintCost key (hints.get key)) := by
  unfold hashIndexNote
  cases hget : hints.get key with
  | some hint =>
    by_cases hlt : deadline < hint
    · simp [withHashes, hget, hlt, hintCost, minDeadline, BucketMap.set_some,
        min_eq_right hlt.le]
    · rw [minDeadline, min_eq_left (not_lt.mp hlt), BucketMap.set_eq_self hget]
      simp [withHashes, hget, hlt, hintCost]
  | none => simp [withHashes, hget, hintCost, minDeadline, BucketMap.set_some, memAdd]

end Bookkeeping

/-! ## Strings in normal form -/

section Strings

variable [P : Platform] {s : Store} {key : String}

/-- The index has the deadline of every string. -/
theorem Inv.hint_of_entry (inv : Inv s) {e : Entry}
    (hget : s.data.get key = some e) : s.ttlKeys.get key = e.expiresAt := by
  rw [inv.indexed, hget]
  rfl

/-- The counter covers a string with its hint. -/
theorem Inv.entryCost_le (inv : Inv s) {e : Entry} (hget : s.data.get key = some e) :
    e.memSize + hintCost key e.expiresAt ≤ s.memUsed := by
  have hle := inv.stringCost_le key
  rwa [hget] at hle

omit P in
/-- A change of a string's map and index is in normal form once the counter has
moved by the difference of the charges. -/
theorem withStrings_eq_putString {entry : Option Entry} {n : ℕ}
    (hn : n + stringCost key (s.data.get key) = s.memUsed + stringCost key entry) :
    s.withStrings (s.data.set key entry) (s.ttlKeys.set key (entry.bind (·.expiresAt))) n =
      s.putString key entry := by
  rw [putString, ← hn, Nat.add_sub_cancel]
  rfl

omit P in
/-- The same where the hint is already the one the entry asks for. -/
theorem withStrings_data_eq_putString {entry : Entry} {n : ℕ}
    (hhint : s.ttlKeys.get key = entry.expiresAt)
    (hn : n + stringCost key (s.data.get key) = s.memUsed + stringCost key (some entry)) :
    s.withStrings (s.data.set key (some entry)) s.ttlKeys n = s.putString key (some entry) := by
  rw [← withStrings_eq_putString hn, Option.bind_some, BucketMap.set_eq_self hhint]

/-- Dropping a string puts nothing in its place. -/
theorem dropEntry_eq (inv : Inv s) {old : Entry} (hget : s.data.get key = some old) :
    s.dropEntry key old = s.putString key none := by
  have hle := inv.entryCost_le hget
  change ((s.withStrings (s.data.set key none) s.ttlKeys s.memUsed).memSub
    old.memSize).ttlIndexDrop key old.expiresAt = _
  rw [withStrings_memSub (by omega),
    withStrings_ttlIndexDrop (inv.hint_of_entry hget) (by omega)]
  refine withStrings_eq_putString ?_
  rw [hget, stringCost_some, stringCost_none]
  omega

/-- Removing a string, in one piece. -/
theorem removeStringLocal_eq (inv : Inv s) :
    s.removeStringLocal key =
      if (s.data.get key).isSome then (true, s.writeString key none)
      else (false, s) := by
  unfold removeStringLocal
  cases hget : s.data.get key with
  | none => simp
  | some old => simp [dropEntry_eq inv hget, writeString]

/-- Reaping removes the entry that expires at the observed deadline and nothing
else. -/
theorem reapIfExpired_eq (inv : Inv s) (observed : Instant) :
    s.reapIfExpired key observed =
      if (s.data.get key).bind (·.expiresAt) = some observed then
        (true, s.writeString key none)
      else (false, s) := by
  have hhint := inv.indexed key
  have hmiss : (s.data.get key).bind (·.expiresAt) ≠ some observed →
      s.ttlIndexDrop key (some observed) = s := fun h => by rw [ttlIndexDrop, if_neg (hhint ▸ h)]
  unfold reapIfExpired
  cases hget : s.data.get key with
  | none =>
    rw [hget] at hmiss
    simp [hmiss]
  | some old =>
    rw [hget, Option.bind_some] at hmiss
    simp only [Option.bind_some]
    split
    next hexp =>
      have hle := inv.entryCost_le hget
      have hdrop : ({ s with data := s.data.erase key }.ttlIndexDrop key
          (some observed)).memSub old.memSize = s.putString key none := by
        rw [← hexp]
        change ((s.withStrings (s.data.set key none) s.ttlKeys s.memUsed).ttlIndexDrop key
          old.expiresAt).memSub old.memSize = _
        rw [withStrings_ttlIndexDrop (inv.hint_of_entry hget) (by omega),
          withStrings_memSub (by omega)]
        refine withStrings_eq_putString ?_
        rw [hget, stringCost_some, stringCost_none]
        omega
      rw [hdrop, writeString]
    next hother => rw [hmiss hother]

/-- A touch changes neither index nor counter. -/
theorem touchEntry_eq (inv : Inv s) {e : Entry} (hget : s.data.get key = some e)
    (nowNanos : ℕ) :
    { s with data := s.data.insert key (e.touch nowNanos) } =
      s.putString key (some (e.touch nowNanos)) := by
  have hhint : s.ttlKeys.get key = e.expiresAt := inv.hint_of_entry hget
  refine withStrings_data_eq_putString (s := s) (n := s.memUsed) hhint ?_
  rw [hget]
  rfl

/-- Storing is writing. -/
theorem storeEntry_eq (inv : Inv s) (entry : Entry) :
    s.storeEntry key entry = s.writeString key (some entry) := by
  have hle := inv.stringCost_le key
  have hhint := inv.indexed key
  have hhintLe : hintCost key (s.ttlKeys.get key) ≤ s.memUsed := by
    rw [hhint]
    exact (Nat.le_add_left _ _).trans hle
  obtain ⟨used, hused, hput⟩ : ∃ used,
      used + hintCost key (s.ttlKeys.get key) = s.memUsed + hintCost key entry.expiresAt ∧
        s.ttlIndexPut key entry.expiresAt =
          s.withStrings s.data (s.ttlKeys.set key entry.expiresAt) used :=
    ⟨_, by omega, withStrings_ttlIndexPut (s := s) entry.expiresAt hhintLe⟩
  unfold storeEntry
  rw [hput]
  refine congrArg (notifyWrite key) ?_
  have hdata : (s.withStrings s.data (s.ttlKeys.set key entry.expiresAt) used).data.get key =
      s.data.get key := rfl
  rw [hdata]
  cases hget : s.data.get key with
  | none =>
    show s.withStrings (s.data.set key (some entry)) (s.ttlKeys.set key entry.expiresAt)
      (used + entry.memSize) = _
    refine withStrings_eq_putString ?_
    rw [hhint, hget, Option.bind_none, hintCost_none] at hused
    rw [hget, stringCost_none, stringCost_some]
    omega
  | some old =>
    rw [hget, stringCost_some] at hle
    rw [hhint, hget, Option.bind_some] at hused
    show (s.withStrings (s.data.set key (some entry)) (s.ttlKeys.set key entry.expiresAt)
      (used + entry.memSize)).memSub old.memSize = _
    rw [withStrings_memSub (by omega)]
    refine withStrings_eq_putString ?_
    rw [hget, stringCost_some, stringCost_some]
    omega

/-- Creating is writing. -/
theorem createEntry_eq (inv : Inv s) (entry : Entry) :
    s.createEntry key entry = s.writeString key (some entry) := by
  have hle := inv.stringCost_le key
  have hhint := inv.indexed key
  unfold createEntry
  refine congrArg (notifyWrite key) ?_
  cases hget : s.data.get key with
  | none =>
    rw [hget, Option.bind_none] at hhint
    change (s.withStrings (s.data.set key (some entry)) s.ttlKeys
      (s.memUsed + entry.memSize)).ttlIndexPut key entry.expiresAt = _
    rw [withStrings_ttlIndexPut _ (by simp [hhint])]
    refine withStrings_eq_putString ?_
    rw [hget, hhint]
    simp only [hintCost_none, stringCost_none, stringCost_some]
    omega
  | some old =>
    rw [hget, stringCost_some] at hle
    rw [hget, Option.bind_some] at hhint
    have hmem : s.memSub old.memSize =
        s.withStrings s.data s.ttlKeys (s.memUsed - old.memSize) :=
      withStrings_memSub (s := s) (by omega)
    simp only [hmem]
    change (s.withStrings (s.data.set key (some entry)) s.ttlKeys
      (s.memUsed - old.memSize + entry.memSize)).ttlIndexPut key entry.expiresAt = _
    rw [withStrings_ttlIndexPut _ (by rw [hhint]; omega)]
    refine withStrings_eq_putString ?_
    rw [hget, hhint, stringCost_some, stringCost_some]
    omega

/-- Swapping is writing. -/
theorem swapEntry_eq (inv : Inv s) {current : Entry} (hget : s.data.get key = some current)
    (entry : Entry) :
    s.swapEntry key current entry = s.writeString key (some entry) := by
  have hle := inv.entryCost_le hget
  have hhint := inv.hint_of_entry hget
  have hmem : (s.withStrings (s.data.set key (some entry)) s.ttlKeys
      (s.memUsed + entry.memSize)).memSub current.memSize =
        s.withStrings (s.data.set key (some entry)) s.ttlKeys
          (s.memUsed + entry.memSize - current.memSize) :=
    withStrings_memSub (by omega)
  unfold swapEntry
  refine congrArg (notifyWrite key) ?_
  change (if entry.expiresAt ≠ current.expiresAt then
      ((s.withStrings (s.data.set key (some entry)) s.ttlKeys
        (s.memUsed + entry.memSize)).memSub current.memSize).ttlIndexPut key entry.expiresAt
    else (s.withStrings (s.data.set key (some entry)) s.ttlKeys
      (s.memUsed + entry.memSize)).memSub current.memSize) = _
  rw [hmem]
  split
  next =>
    rw [withStrings_ttlIndexPut _ (by rw [hhint]; omega)]
    refine withStrings_eq_putString ?_
    rw [hget, hhint, stringCost_some, stringCost_some]
    omega
  next hsame =>
    rw [not_not] at hsame
    refine withStrings_data_eq_putString (hhint.trans hsame.symm) ?_
    rw [hget, stringCost_some, stringCost_some, hsame]
    omega

/-- A string with another deadline, in one piece. -/
theorem retimeEntry_eq (inv : Inv s) {e : Entry} (hget : s.data.get key = some e)
    (deadline : Option Instant) :
    s.retimeEntry key e deadline =
      s.putString key (some { e with expiresAt := deadline }) := by
  have hle := inv.entryCost_le hget
  have hhint := inv.hint_of_entry hget
  change (s.withStrings (s.data.set key (some { e with expiresAt := deadline })) s.ttlKeys
    s.memUsed).ttlIndexPut key deadline = _
  rw [withStrings_ttlIndexPut _ (by rw [hhint]; omega)]
  refine withStrings_eq_putString ?_
  rw [hget, hhint, stringCost_some, stringCost_some]
  simp only
  omega

/-- The entry a rewrite in place leaves. -/
def rewritten (now : Instant) (key : String) (e : Entry) (value : Bytes) (s : Store) : Entry :=
  { e with
    data := (encodeValue s.config value).1
    compressed := (encodeValue s.config value).2
    memSize := Entry.estimateSize (keyLen key) (encodeValue s.config value).1.length
    lastAccessed := touchClock e.lastAccessed (s.nowNanos now) }

/-- Rewriting a value in place is writing. -/
theorem rewriteEntry_eq (inv : Inv s) {e : Entry} (hget : s.data.get key = some e)
    (now : Instant) (value : Bytes) :
    s.rewriteEntry now key e value =
      s.writeString key (some (s.rewritten now key e value)) := by
  have hle := inv.entryCost_le hget
  set new := s.rewritten now key e value with hnew
  have hexp : new.expiresAt = e.expiresAt := rfl
  change notifyWrite key (if e.memSize < new.memSize then
      (s.withStrings (s.data.set key (some new)) s.ttlKeys s.memUsed).memAdd (new.memSize - e.memSize)
    else (s.withStrings (s.data.set key (some new)) s.ttlKeys s.memUsed).memSub
      (e.memSize - new.memSize)) = _
  refine congrArg (notifyWrite key) ?_
  split
  next hgrow =>
    refine withStrings_data_eq_putString (s := s) (n := s.memUsed + (new.memSize - e.memSize))
      ((inv.hint_of_entry hget).trans hexp.symm) ?_
    rw [hget, stringCost_some, stringCost_some, hexp]
    omega
  next hshrink =>
    rw [withStrings_memSub (by omega)]
    refine withStrings_data_eq_putString ((inv.hint_of_entry hget).trans hexp.symm) ?_
    rw [hget, stringCost_some, stringCost_some, hexp]
    omega

end Strings

/-! ## Hashes in normal form -/

section Hashes

variable [P : Platform] {s : Store} {key : String}

omit P in
/-- A change of a hash's map and index is in normal form once the counter has
moved by the difference of the charges. -/
theorem withHashes_eq_putHash {entry : Option HashEntry} {hint : Option Instant} {n : ℕ}
    (hn : n + hashCost key (s.hashes.get key) (s.hashTtlKeys.get key) =
      s.memUsed + hashCost key entry hint) :
    s.withHashes (s.hashes.set key entry) (s.hashTtlKeys.set key hint) n =
      s.putHash key entry hint := by
  rw [putHash, ← hn, Nat.add_sub_cancel]
  rfl

/-- The counter covers a hash with its hint. -/
theorem Inv.heldCost_le (inv : Inv s) {h : HashEntry} (hget : s.hashes.get key = some h) :
    h.mem + hintCost key (s.hashTtlKeys.get key) ≤ s.memUsed := by
  have hle := inv.hashCost_le key
  rwa [hget] at hle

/-- Take a hash out, as the source does wherever it has just removed `old`. -/
theorem dropHash_eq (inv : Inv s) {old : HashEntry} (hget : s.hashes.get key = some old) :
    ({ s with hashes := s.hashes.erase key }.memSub old.mem).hashIndexDrop key =
      s.putHash key none none := by
  have hle := inv.heldCost_le hget
  change ((s.withHashes (s.hashes.set key none) s.hashTtlKeys s.memUsed).memSub
    old.mem).hashIndexDrop key = _
  rw [withHashes_memSub (by omega), withHashes_hashIndexDrop (by omega)]
  refine withHashes_eq_putHash ?_
  rw [hget, hashCost_some, hashCost_none]
  omega

/-- Removing a hash, in one piece. -/
theorem hashRemove_eq (inv : Inv s) (now : Instant) :
    s.hashRemove now key =
      match s.hashes.get key with
      | none => (false, s)
      | some old => (old.isLive now, s.putHash key none none) := by
  unfold hashRemove
  cases hget : s.hashes.get key with
  | none => rfl
  | some old =>
    simp only
    rw [dropHash_eq inv hget]

/-- What is not there has no hint to drop. -/
theorem hashIndexDrop_of_none (inv : Inv s) (hget : s.hashes.get key = none) :
    s.hashIndexDrop key = s := by
  rw [hashIndexDrop, inv.hintOwned key hget]

omit P in
/-- Give the hash at `key` a smaller value and settle the counter. -/
theorem settle_eq {old : HashEntry} (new : HashEntry) (hle : old.mem ≤ s.memUsed) :
    { s with hashes := s.hashes.insert key new }.memSub (old.mem - new.mem) =
      s.withHashes (s.hashes.set key (some new)) s.hashTtlKeys
        (s.memUsed - (old.mem - new.mem)) := by
  change (s.withHashes (s.hashes.set key (some new)) s.hashTtlKeys s.memUsed).memSub _ = _
  exact withHashes_memSub (by omega)

omit P in
/-- Taking out a hash that was just given a new value. -/
theorem settle_drop_eq {old : HashEntry} (hget : s.hashes.get key = some old)
    (new : HashEntry) {used : ℕ} (hused : used + old.mem = s.memUsed + new.mem)
    (hhint : hintCost key (s.hashTtlKeys.get key) + new.mem ≤ used) :
    ({ s.withHashes (s.hashes.set key (some new)) s.hashTtlKeys used with
        hashes := (s.hashes.set key (some new)).erase key }.memSub new.mem).hashIndexDrop key =
      s.putHash key none none := by
  change ((s.withHashes ((s.hashes.set key (some new)).set key none) s.hashTtlKeys
    used).memSub new.mem).hashIndexDrop key = _
  rw [withHashes_memSub (by omega), withHashes_hashIndexDrop (by omega),
    BucketMap.set_set hget]
  refine withHashes_eq_putHash ?_
  rw [hget, hashCost_some, hashCost_none]
  omega

/-- What is left of a hash once everything that has expired in it is reaped. -/
def settled (now : Instant) (h : HashEntry) : Option HashEntry :=
  if h.keyExpired now then none
  else if (h.purgeExpiredFields now).2.fields.entries.isEmpty then none
  else some (h.purgeExpiredFields now).2

/-- Whether reaping a hash removes something. -/
def losesSome (now : Instant) (h : HashEntry) : Bool :=
  h.keyExpired now || decide (0 < (h.purgeExpiredFields now).1)

omit P in
/-- A purge charges for nothing. -/
theorem purge_mem_le (h : HashEntry) (now : Instant) :
    (h.purgeExpiredFields now).2.mem ≤ h.mem := by
  unfold HashEntry.purgeExpiredFields
  split
  · exact Nat.sub_le _ _
  · exact le_rfl

/-- **Reaping a hash in normal form.** -/
theorem reapHash_eq (inv : Inv s) (now : Instant) :
    s.reapHash now key =
      match s.hashes.get key with
      | none => (false, s)
      | some h =>
        let left := settled now h
        let after := s.putHash key left (left.bind HashEntry.earliestDeadline)
        (losesSome now h, after.wake (losesSome now h) key) := by
  unfold reapHash
  cases hget : s.hashes.get key with
  | none =>
    simp only
    rw [hashIndexDrop_of_none inv hget]
  | some h =>
    have hle := inv.heldCost_le hget
    have hpurge := purge_mem_le h now
    have hnotify : ∀ t u : Store, t = u →
        (losesSome now h, if losesSome now h then t.notifyWrite key else t) =
          (losesSome now h, if losesSome now h then u.notifyWrite key else u) := by
      rintro t _ rfl
      rfl
    refine hnotify _ _ ?_
    unfold settled
    by_cases hkey : h.keyExpired now = true
    · -- The hash is put back as it was and removed whole.
      simp only [hkey, Bool.true_or, if_true, Option.bind_none]
      rw [settle_eq h (by omega)]
      exact settle_drop_eq hget h (by omega) (by omega)
    · simp only [hkey, Bool.false_or, Bool.false_eq_true, if_false]
      rw [settle_eq _ (by omega)]
      split
      · exact settle_drop_eq hget _ (by omega) (by omega)
      · rw [withHashes_hashIndexSet _ (by omega), Option.bind_some]
        refine withHashes_eq_putHash ?_
        rw [hget, hashCost_some, hashCost_some]
        omega

/-- The hash a write works on: a key-expired one is reset, of any other the
expired fields are purged. -/
def refreshed (now : Instant) (key : String) (h : HashEntry) : HashEntry :=
  if h.keyExpired now then h.reset (hashBaseCost key) else (h.purgeExpiredFields now).2

/-- A hash that holds no field is not kept. -/
def kept (h : HashEntry) : Option HashEntry :=
  if h.fields.entries.isEmpty then none else some h

omit P in
/-- Removing the hash `new` that was just put in the place of `old`, if it is
empty. -/
theorem dropEmptyHash_settled {old : HashEntry} (hget : s.hashes.get key = some old)
    (new : HashEntry) (hempty : new.fields.entries.isEmpty = true) {used : ℕ}
    (hused : used + old.mem = s.memUsed + new.mem)
    (hhint : hintCost key (s.hashTtlKeys.get key) + new.mem ≤ used) :
    (s.withHashes (s.hashes.set key (some new)) s.hashTtlKeys used).dropEmptyHash key =
      s.putHash key none none := by
  have hnew : (s.withHashes (s.hashes.set key (some new)) s.hashTtlKeys used).hashes.get key =
      some new := by simp [withHashes]
  unfold dropEmptyHash
  rw [hnew]
  simp only [hempty, if_true]
  exact settle_drop_eq hget new hused hhint

omit P in
/-- Putting `new` in the place of `old` moves the counter by the difference. -/
theorem settle_both_eq {old : HashEntry} (new : HashEntry) (hle : old.mem ≤ s.memUsed) :
    (if old.mem < new.mem then
        { s with hashes := s.hashes.insert key new }.memAdd (new.mem - old.mem)
      else { s with hashes := s.hashes.insert key new }.memSub (old.mem - new.mem)) =
      s.withHashes (s.hashes.set key (some new)) s.hashTtlKeys
        (s.memUsed + new.mem - old.mem) := by
  split
  next hgrow =>
    have hused : s.memUsed + new.mem - old.mem = s.memUsed + (new.mem - old.mem) := by omega
    rw [hused]
    rfl
  next hshrink =>
    have hused : s.memUsed + new.mem - old.mem = s.memUsed - (old.mem - new.mem) := by omega
    rw [hused]
    exact settle_eq new hle

/-- **A hash write in normal form**, on the hash that is there. -/
theorem hashWriteOn_eq {R : Type} (inv : Inv s) {h : HashEntry}
    (hget : s.hashes.get key = some h) (now : Instant) (create : Bool)
    (op : HashEntry → R × HashEntry) :
    s.hashWriteOn now key create op h =
      let base := refreshed now key h
      if !create && base.fields.entries.isEmpty then (none, s.putHash key none none)
      else
        let ran := op (base.touch (s.nowNanos now))
        (some ran.1, s.putHash key (kept ran.2) ((kept ran.2).bind fun left =>
          minDeadline (s.hashTtlKeys.get key) left.earliestDeadline)) := by
  have hle := inv.heldCost_le hget
  unfold hashWriteOn refreshed
  set base := if h.keyExpired now then h.reset (hashBaseCost key)
    else (h.purgeExpiredFields now).2 with hbase
  have hbaseMem : base.mem ≤ h.mem := by
    rw [hbase]
    split
    · have := inv.charged key h hget
      rw [HashEntry.Charged] at this
      change hashBaseCost key ≤ h.mem
      omega
    · exact purge_mem_le h now
  simp only
  split
  next hnothing =>
    rw [Bool.and_eq_true] at hnothing
    rw [settle_eq base (by omega)]
    exact congrArg (Prod.mk none)
      (dropEmptyHash_settled hget base hnothing.2 (by omega) (by omega))
  next =>
    set ran := op (base.touch (s.nowNanos now)) with hran
    refine congrArg (Prod.mk (some ran.1)) ?_
    rw [settle_both_eq ran.2 (by omega)]
    unfold kept
    split
    next hempty => exact dropEmptyHash_settled hget ran.2 hempty (by omega) (by omega)
    next =>
      rw [Option.bind_some]
      cases hdeadline : ran.2.earliestDeadline with
      | none =>
        have hkeep : minDeadline (s.hashTtlKeys.get key) none = s.hashTtlKeys.get key := by
          cases s.hashTtlKeys.get key <;> rfl
        rw [hkeep]
        simp only
        rw [← withHashes_eq_putHash (n := s.memUsed + ran.2.mem - h.mem) (by
          rw [hget, hashCost_some, hashCost_some]
          omega), BucketMap.set_eq_self rfl]
      | some deadline =>
        simp only
        rw [withHashes_hashIndexNote]
        refine withHashes_eq_putHash ?_
        rw [hget, hashCost_some, hashCost_some]
        have hcost : hintCost key (minDeadline (s.hashTtlKeys.get key) (some deadline)) =
            hintCost key (some deadline) := by
          cases s.hashTtlKeys.get key <;> rfl
        rw [hcost]
        omega

/-- The store in which a hash write finds its hash: one that may create it puts an
empty hash where there is none. -/
def opened (now : Instant) (key : String) (create : Bool) (s : Store) : Store :=
  if create && (s.hashes.get key).isNone then
    s.putHash key (some (HashEntry.new key (s.nowNanos now))) none
  else s

theorem Inv.opened (inv : Inv s) (now : Instant) (key : String) (create : Bool) :
    Inv (s.opened now key create) := by
  unfold Store.opened
  split
  · refine inv.putHash key ?_ ?_ ?_
    · rintro h ⟨⟩
      exact HashEntry.new_charged key _
    · rintro h ⟨⟩
      exact notLater_none _
    · intro hnone
      cases hnone
  · exact inv

/-- **A hash write in normal form.** -/
theorem hashWrite_eq {R : Type} (inv : Inv s) (now : Instant) (create : Bool)
    (op : HashEntry → R × HashEntry) :
    s.hashWrite now key create op =
      match (s.opened now key create).hashes.get key with
      | none => (none, s)
      | some h => (s.opened now key create).hashWriteOn now key create op h := by
  unfold hashWrite
  cases hget : s.hashes.get key with
  | some h =>
    have hopened : s.opened now key create = s := by simp [Store.opened, hget]
    rw [hopened, hget]
  | none =>
    cases create with
    | false =>
      have hopened : s.opened now key false = s := by simp [Store.opened]
      rw [hopened, hget]
      rfl
    | true =>
      have hopened : s.opened now key true =
          s.putHash key (some (HashEntry.new key (s.nowNanos now))) none := by
        simp [Store.opened, hget]
      have hfound : (s.opened now key true).hashes.get key =
          some (HashEntry.new key (s.nowNanos now)) := by
        rw [hopened, putHash, BucketMap.get_set, if_pos rfl]
      have hstate :
          { s with
            hashes := s.hashes.insert key
              (HashEntry.new key (s.nowNanos now)) }.memAdd (hashBaseCost key) =
            s.opened now key true := by
        rw [hopened]
        have hset := BucketMap.set_eq_self (inv.hintOwned key hget)
        rw [← withHashes_eq_putHash (n := s.memUsed + hashBaseCost key) (by
          rw [hget, inv.hintOwned key hget, hashCost_none, hashCost_some]
          rfl), hset]
        rfl
      rw [hfound]
      simp only [if_true]
      rw [hstate]

omit P in
/-- A touch changes neither index nor counter. -/
theorem touchHash_eq {h : HashEntry} (hget : s.hashes.get key = some h) (nowNanos : ℕ) :
    { s with hashes := s.hashes.insert key (h.touch nowNanos) } =
      s.putHash key (some (h.touch nowNanos)) (s.hashTtlKeys.get key) := by
  rw [← withHashes_eq_putHash (n := s.memUsed) (by rw [hget]; rfl), BucketMap.set_eq_self rfl]
  rfl

/-- Rebuilding the hint of a hash that is there. -/
theorem hashIndexSet_eq (inv : Inv s) {h : HashEntry} (hget : s.hashes.get key = some h)
    (deadline : Option Instant) :
    s.hashIndexSet key deadline = s.putHash key (some h) deadline := by
  have hle := inv.heldCost_le hget
  change (s.withHashes s.hashes s.hashTtlKeys s.memUsed).hashIndexSet key deadline = _
  rw [withHashes_hashIndexSet deadline (by omega)]
  rw [← withHashes_eq_putHash (n := s.memUsed + hintCost key deadline -
      hintCost key (s.hashTtlKeys.get key)) (by
    rw [hget, hashCost_some, hashCost_some]
    omega), BucketMap.set_eq_self hget]

/-- Storing a hash, in one piece. -/
theorem storeHash_eq (inv : Inv s) (entry : HashEntry) :
    s.storeHash key entry =
      (s.putHash key (some entry) entry.earliestDeadline).notifyWrite key := by
  have hle := inv.hashCost_le key
  unfold storeHash
  refine congrArg (notifyWrite key) ?_
  cases hget : s.hashes.get key with
  | none =>
    have hhint := inv.hintOwned key hget
    show hashIndexSet key entry.earliestDeadline (s.withHashes
      (s.hashes.set key (some entry)) s.hashTtlKeys (s.memUsed + entry.mem)) = _
    rw [withHashes_hashIndexSet _ (by rw [hhint]; exact Nat.zero_le _)]
    refine withHashes_eq_putHash ?_
    rw [hget, hhint, hashCost_none, hashCost_some, hintCost_none]
    omega
  | some old =>
    rw [hget, hashCost_some] at hle
    show hashIndexSet key entry.earliestDeadline ((s.withHashes
      (s.hashes.set key (some entry)) s.hashTtlKeys (s.memUsed + entry.mem)).memSub old.mem) = _
    rw [withHashes_memSub (by omega), withHashes_hashIndexSet _ (by omega)]
    refine withHashes_eq_putHash ?_
    rw [hget, hashCost_some, hashCost_some]
    omega

end Hashes

/-! ## Removing a name -/

section Removal

variable [P : Platform] {s : Store} {key : String}

/-- Removing a string that is not there changes nothing. -/
theorem putString_none_of_absent (inv : Inv s) (hget : s.data.get key = none) :
    s.putString key none = s := by
  have hhint : s.ttlKeys.get key = none := by rw [inv.indexed, hget, Option.bind_none]
  rw [putString, hget, Option.bind_none, BucketMap.set_eq_self hget,
    BucketMap.set_eq_self hhint, Nat.add_sub_cancel]

/-- Removing a hash that is not there changes nothing. -/
theorem putHash_none_of_absent (inv : Inv s) (hget : s.hashes.get key = none) :
    s.putHash key none none = s := by
  have hhint := inv.hintOwned key hget
  rw [putHash, hget, hhint, BucketMap.set_eq_self hget, BucketMap.set_eq_self hhint,
    Nat.add_sub_cancel]

/-- **Removing a name in normal form**: the string and the hash go, and the answer
is whether there was a string, expired or not, or a live hash. -/
theorem removeLocal_eq (inv : Inv s) (now : Instant) :
    s.removeLocal now key =
      let removed := (s.data.get key).isSome || (s.hashes.get key).any (·.isLive now)
      let after := (s.putString key none).putHash key none none
      (removed, after.wake removed key) := by
  have hhash : (s.putString key none).hashRemove now key =
      ((s.hashes.get key).any (·.isLive now), (s.putString key none).putHash key none none) := by
    have invAfter := inv.removeString key
    have hsame : (s.putString key none).hashes.get key = s.hashes.get key := rfl
    rw [hashRemove_eq invAfter, hsame]
    cases hget : s.hashes.get key with
    | none => simp [putHash_none_of_absent invAfter (hsame.trans hget)]
    | some old => simp
  unfold removeLocal
  cases hget : s.data.get key with
  | none =>
    rw [putString_none_of_absent inv hget] at hhash ⊢
    simp only [hhash, Option.isSome_none, wake]
  | some old => simp only [dropEntry_eq inv hget, hhash, Option.isSome_some, wake]

end Removal

end Store

end Ephpm.Kv
