import Ephpm.Kv.Reclaim

/-!
# The operations, one change at a time

Each operation of the store as what it decides and the changes it makes, in the
vocabulary of `putString`, `putHash` and `ensureMemory`.  These equations are what
the rest of the development knows about the operations.

**After making room.**  A write looks at its key twice, before it reserves memory
and after.  In between the key may have been reaped or evicted, but nothing can
have appeared under it (`Inv.get_room`), so the second look finds what the first
one found or nothing.  The equations have that second look resolved wherever it
can only come out one way.
-/

namespace Ephpm.Kv

open Lib

namespace Store

section Strings

variable [P : Platform] {s : Store} {now : Instant} {key : String}

/-! ## Reads of strings -/

/-- Reaping what was seen to be expired. -/
theorem reapObserved_eq (inv : Inv s) {e : Entry} (hget : s.data.get key = some e) :
    s.reapObserved now key e = if e.isExpired now then s.writeString key none else s := by
  unfold reapObserved observedExpiry
  by_cases hexp : e.isExpired now = true
  · obtain ⟨deadline, hdeadline, -⟩ := Entry.isExpired_iff.mp hexp
    simp only [hexp, if_true, hdeadline]
    rw [reapIfExpired_eq inv, hget, Option.bind_some, if_pos hdeadline]
  · simp only [hexp, Bool.false_eq_true, if_false]

/-- `get`, in one piece. -/
theorem get_eq (inv : Inv s) :
    s.get now key =
      match s.data.get key with
      | none => (none, s)
      | some e =>
        if e.isExpired now then (none, s.writeString key none)
        else (e.plain s.config.compression.algo,
          s.putString key (some (e.touch (s.nowNanos now)))) := by
  unfold get
  cases hget : s.data.get key with
  | none => rfl
  | some e =>
    simp only
    rw [reapObserved_eq inv hget, touchEntry_eq inv hget]
    split <;> rfl

/-- `exists`, in one piece. -/
theorem existsKey_eq (inv : Inv s) :
    s.existsKey now key =
      match s.data.get key with
      | none => s.isHash now key
      | some e =>
        if e.isExpired now then (s.writeString key none).isHash now key else (true, s) := by
  unfold existsKey
  cases hget : s.data.get key with
  | none => rfl
  | some e =>
    simp only
    rw [reapObserved_eq inv hget]
    split <;> rfl

/-- `pttl`, in one piece. -/
theorem pttl_eq (inv : Inv s) :
    s.pttl now key =
      match s.data.get key with
      | none =>
        ((s.hashKeyExpiry now key).map fun expiry =>
          expiry.elim (-1) fun deadline => millis (deadline - now), s)
      | some e =>
        if e.isExpired now then (some (-2), s.writeString key none)
        else (some (e.expiresAt.elim (-1) fun deadline => millis (deadline - now)), s) := by
  unfold pttl
  cases hget : s.data.get key with
  | none => rfl
  | some e =>
    simp only
    rw [reapObserved_eq inv hget]
    split <;> rfl

/-! ## After making room -/

/-- Making room never puts anything under a key. -/
theorem Inv.get_room (inv : Inv s) (now : Instant) (needed : ℕ) (key : String) :
    (s.ensureMemory now needed).2.data.get key = s.data.get key ∨
      (s.ensureMemory now needed).2.data.get key = none := by
  have hspared : Spared now s _ := ensureMemory_spared inv needed
  obtain ⟨new, -, hkeys⟩ := hspared.log
  rcases (hkeys key).1 with hsame | ⟨hgone, -⟩
  · exact Or.inl hsame
  · exact Or.inr hgone

/-- A live string is still itself after making room, or gone. -/
theorem Inv.room_of_live (inv : Inv s) {needed : ℕ} {e e' : Entry}
    (hget : s.data.get key = some e)
    (hafter : (s.ensureMemory now needed).2.data.get key = some e') : e' = e := by
  rcases inv.get_room now needed key with hsame | hgone
  · rw [hsame, hget] at hafter
    exact (Option.some.inj hafter).symm
  · rw [hgone] at hafter
    cases hafter

/-- A key without a live string has none after making room. -/
theorem Inv.room_dead (inv : Inv s) (needed : ℕ)
    (hdead : (s.data.get key).any (!·.isExpired now) = false) :
    ((s.ensureMemory now needed).2.data.get key).any (!·.isExpired now) = false := by
  rcases inv.get_room now needed key with hsame | hgone
  · rw [hsame, hdead]
  · rw [hgone]
    rfl

/-! ## Removing a name -/

omit P in
/-- Waking waiters commutes with changing a hash. -/
theorem notifyWrite_putHash (key key' : String) (entry : Option HashEntry)
    (hint : Option Instant) (s : Store) :
    (s.putHash key' entry hint).notifyWrite key = (s.notifyWrite key).putHash key' entry hint := by
  unfold notifyWrite
  by_cases hslots : s.watchSlots = 0
  · simp [putHash, hslots]
  · cases hget : s.watchers.get key <;> simp [putHash, hslots, hget]

/-- Removing a name takes the string and its waiters' patience, then the hash. -/
theorem removeLocal_snd (inv : Inv s) :
    (s.removeLocal now key).2 =
      if (s.data.get key).isSome then (s.writeString key none).putHash key none none
      else (s.putHash key none none).wake ((s.hashes.get key).any (·.isLive now)) key := by
  rw [removeLocal_eq inv]
  cases hget : s.data.get key with
  | none => simp [putString_none_of_absent inv hget]
  | some e => simp [wake, notifyWrite_putHash, writeString]

/-- After a removal the string is gone and the others are not. -/
theorem removeLocal_data_get (inv : Inv s) (now : Instant) (key name : String) :
    (s.removeLocal now key).2.data.get name = if name = key then none else s.data.get name := by
  rw [removeLocal_snd inv]
  split
  · simp [putHash]
  next habsent =>
    rw [wake_data]
    show s.data.get name = _
    split
    next hname => rw [hname, Option.not_isSome_iff_eq_none.mp habsent]
    next => rfl

/-! ## Writes of strings -/

omit P in
/-- The bytes a replace reserves: what the entry and a new hint cost beyond the
entry it replaces. -/
def replaceGrowth (key : String) (entry : Entry) (old : Option Entry) : ℕ :=
  entry.memSize +
      (if entry.expiresAt.isSome && !old.any (·.expiresAt.isSome) then ttlIndexCost key else 0) -
    old.elim 0 (·.memSize)

/-- A replacement makes its room and then writes. -/
theorem replaceEntry_eq (inv : Inv s) (entry : Entry) :
    s.replaceEntry now key entry =
      let room := s.ensureMemory now (replaceGrowth key entry (s.data.get key))
      (room.1, if room.1 then room.2.writeString key (some entry) else room.2) := by
  set room := s.ensureMemory now (replaceGrowth key entry (s.data.get key)) with hroom
  have invRoom : Inv room.2 := inv.ensureMemory now _
  change (if room.1 then (true, room.2.storeEntry key entry) else (false, room.2)) = _
  rw [storeEntry_eq invRoom]
  simp only
  split
  next h => rw [h]
  next h => rw [Bool.eq_false_iff.mpr h]

/-- The entry a plain write stores. -/
def written (now : Instant) (key : String) (value : Bytes) (expiresAt : Option Instant)
    (s : Store) : Entry :=
  Entry.new (encodeValue s.config value).1 (keyLen key) (encodeValue s.config value).2
    expiresAt (s.nowNanos now)

/-- `set_nx`, in one piece. -/
theorem setNxOutcomeLocal_eq (inv : Inv s) (value : Bytes) (ttl : Option Duration) :
    s.setNxOutcomeLocal now key value ttl =
      if (s.data.get key).any (!·.isExpired now) then (.exists, s)
      else
        let entry := s.written now key value (ttl.map (now + ·))
        let room := s.ensureMemory now (stringCost key (some entry))
        if room.1 then (.inserted, room.2.writeString key (some entry))
        else (.outOfMemory, room.2) := by
  unfold setNxOutcomeLocal reserve
  split
  · rfl
  next hdead =>
    set entry := s.written now key value (ttl.map (now + ·)) with hentry
    have hcost : entry.memSize + (if entry.expiresAt.isSome then ttlIndexCost key else 0) =
        stringCost key (some entry) := by
      cases ttl <;> rfl
    set room := s.ensureMemory now (stringCost key (some entry)) with hroom
    have invRoom : Inv room.2 := inv.ensureMemory now _
    have hdead' : (room.2.data.get key).any (!·.isExpired now) = false :=
      inv.room_dead _ (Bool.eq_false_iff.mpr hdead)
    have hnew : Entry.new (encodeValue s.config value).1 (keyLen key)
        (encodeValue s.config value).2 (ttl.map (now + ·)) (s.nowNanos now) = entry := rfl
    simp only [hnew, hcost, ← hroom, hdead', createEntry_eq invRoom]
    simp only [Bool.false_eq_true, if_false]

/-- The entry a record of a snapshot is restored as; `none` for one that has expired
or cannot be decoded. -/
def restoredEntry (now : Instant) (valueAlgo : CompressionAlgo) (key : String) (data : Bytes)
    (compressed : Bool) (remaining : Option Duration) (s : Store) : Option Entry :=
  (loadDeadline now remaining).bind fun expiresAt =>
    if compressed && decide (valueAlgo ≠ s.config.compression.algo) then
      (decompressValue data valueAlgo).map fun raw =>
        s.written now key raw ((expiresAt.map (· - now)).map (now + ·))
    else some (Entry.new data (keyLen key) compressed expiresAt (s.nowNanos now))

/-- Restoring a record, in one piece. -/
theorem restoreRecord_eq (valueAlgo : CompressionAlgo) (data : Bytes) (compressed : Bool)
    (remaining : Option Duration) :
    s.restoreRecord now valueAlgo key data compressed remaining =
      match s.restoredEntry now valueAlgo key data compressed remaining with
      | none => (false, s)
      | some entry => s.replaceEntry now key entry := by
  unfold restoreRecord restoredEntry
  cases loadDeadline now remaining with
  | none => rfl
  | some expiresAt =>
    simp only [Option.bind_some]
    split
    · cases decompressValue data valueAlgo <;> rfl
    · rfl

/-- A restored entry has its size written down. -/
theorem restoredEntry_sized {valueAlgo : CompressionAlgo} {data : Bytes} {compressed : Bool}
    {remaining : Option Duration} {entry : Entry}
    (h : s.restoredEntry now valueAlgo key data compressed remaining = some entry) :
    entry.Sized key := by
  obtain ⟨expiresAt, -, hentry⟩ := Option.bind_eq_some_iff.mp h
  split at hentry
  · obtain ⟨raw, -, rfl⟩ := Option.map_eq_some_iff.mp hentry
    exact Entry.new_sized _ _ _ _ _
  · obtain rfl := Option.some.inj hentry
    exact Entry.new_sized _ _ _ _ _

/-- The entry a compare-and-set stores over `old`. -/
def swapped (now : Instant) (key : String) (value : Bytes) (ttl : SetTtl) (old : Entry)
    (s : Store) : Entry :=
  { s.written now key value none with expiresAt := ttl.deadline now old }

/-- The bytes a compare-and-set reserves. -/
def swapGrowth (now : Instant) (key : String) (value : Bytes) (ttl : SetTtl) (old : Entry)
    (s : Store) : ℕ :=
  (s.written now key value none).memSize +
      (if ttl.setsTtl && !old.expiresAt.isSome then ttlIndexCost key else 0) - old.memSize

/-- `set_if_eq`, in one piece. -/
theorem setIfEqLocal_eq (inv : Inv s) (expected value : Bytes) (ttl : SetTtl) :
    s.setIfEqLocal now key expected value ttl =
      match s.data.get key with
      | none => (.notSet, s)
      | some old =>
        if !old.isExpired now && s.entryEquals old expected then
          let room := s.ensureMemory now (s.swapGrowth now key value ttl old)
          if room.1 then
            if (room.2.data.get key).isSome then
              (.set, room.2.writeString key (some (s.swapped now key value ttl old)))
            else (.notSet, room.2)
          else (.outOfMemory, room.2)
        else (.notSet, s) := by
  unfold setIfEqLocal reserve
  cases hget : s.data.get key with
  | none => rfl
  | some old =>
    set room := s.ensureMemory now (s.swapGrowth now key value ttl old) with hroom
    have hentry : Entry.new (encodeValue s.config value).1 (keyLen key)
        (encodeValue s.config value).2 none (s.nowNanos now) =
          s.written now key value none := rfl
    have hroom' : s.ensureMemory now ((s.written now key value none).memSize +
        (if ttl.setsTtl && !old.expiresAt.isSome then ttlIndexCost key else 0) -
          old.memSize) = room := rfl
    simp only [hentry, hroom']
    split
    next hmatch =>
      have invRoom : Inv room.2 := inv.ensureMemory now _
      cases hafter : room.2.data.get key with
      | none =>
        simp only [Option.isSome_none, Bool.false_eq_true, if_false]
        rfl
      | some current =>
        obtain rfl : current = old := inv.room_of_live hget hafter
        have hspared : Spared now s room.2 := ensureMemory_spared inv _
        have hequals : room.2.entryEquals current expected =
            s.entryEquals current expected := by rw [entryEquals, hspared.config, entryEquals]
        rw [Bool.and_eq_true] at hmatch
        have hlive : current.isExpired now = false := by simpa using hmatch.1
        simp only [hequals, hmatch.2, hlive, swapEntry_eq invRoom hafter]
        rfl
    next => rfl

/-- `del_if_eq`, in one piece. -/
theorem delIfEqLocal_eq (inv : Inv s) (token : Bytes) :
    s.delIfEqLocal now key token =
      match s.data.get key with
      | none => (false, s)
      | some old =>
        if !old.isExpired now && s.entryEquals old token then
          (true, s.writeString key none)
        else (false, s) := by
  unfold delIfEqLocal
  cases hget : s.data.get key with
  | none => rfl
  | some old =>
    simp only
    rw [dropEntry_eq inv hget]
    rfl

/-- `getdel`, in one piece. -/
theorem getdel_eq (inv : Inv s) :
    s.getdel now key =
      match s.data.get key with
      | none => (none, s)
      | some old =>
        if old.isExpired now then (none, s)
        else (old.plain s.config.compression.algo, s.writeString key none) := by
  unfold getdel
  cases hget : s.data.get key with
  | none => rfl
  | some old =>
    simp only
    rw [dropEntry_eq inv hget]
    rfl

/-- `expire`, of the string. -/
theorem expireLocal_eq (inv : Inv s) (ttl : Duration) :
    s.expireLocal now key ttl =
      match s.data.get key with
      | none => (false, s)
      | some e =>
        if e.isExpired now then (false, (s.removeLocal now key).2)
        else (true, s.putString key (some { e with expiresAt := some (now + ttl) })) := by
  unfold expireLocal
  cases hget : s.data.get key with
  | none => rfl
  | some e =>
    simp only
    rw [retimeEntry_eq inv hget]

/-- `persist`, of the string. -/
theorem persistString_eq (inv : Inv s) :
    s.persistString now key =
      match s.data.get key with
      | none => (false, s)
      | some e =>
        if e.isExpired now then (false, (s.removeLocal now key).2)
        else if e.expiresAt.isSome then
          (true, s.putString key (some { e with expiresAt := none }))
        else (false, s) := by
  unfold persistString
  cases hget : s.data.get key with
  | none => rfl
  | some e =>
    simp only
    rw [retimeEntry_eq inv hget]
    split
    · rfl
    · split
      · rfl
      next htimed =>
        -- Writing back an entry that had no expiry changes nothing.
        have hsame : s.data.insert key { e with expiresAt := none } = s.data := by
          rw [Option.not_isSome_iff_eq_none] at htimed
          rw [← htimed]
          exact BucketMap.set_eq_self hget
        rw [hsame]

/-- The entry `INCR` creates. -/
def counter (now : Instant) (key : String) (delta : ℤ) (ttl : Option Duration) (s : Store) :
    Entry :=
  Entry.new (formatI64 delta) (keyLen key) false (ttl.map (now + ·)) (s.nowNanos now)

/-- `INCR` on a key without a live string. -/
def incrFresh (now : Instant) (key : String) (delta : ℤ) (ttl : Option Duration) (s : Store) :
    Except String ℤ × Store :=
  let entry := s.counter now key delta ttl
  let room := s.ensureMemory now (stringCost key (some entry))
  if room.1 then (.ok delta, room.2.writeString key (some entry)) else (.error oomError, room.2)

/-- `incr_by`, in one piece. -/
theorem incrByWithTtl_eq (inv : Inv s) (delta : ℤ) (ttl : Option Duration) :
    s.incrByWithTtl now key delta ttl =
      match s.data.get key with
      | none => s.incrFresh now key delta ttl
      | some e =>
        if e.isExpired now then s.incrFresh now key delta ttl
        else s.incrUpdate now key delta e := by
  have hfresh : (s.data.get key).any (!·.isExpired now) = false →
      s.incrByWithTtl now key delta ttl = s.incrFresh now key delta ttl := by
    intro hdead
    have hcreate : (s.data.get key).all (·.isExpired now) = true := by
      cases hget : s.data.get key with
      | none => rfl
      | some e => simpa [hget] using hdead
    have hcost : Entry.estimateSize (keyLen key) (formatI64 delta).length +
        (if ttl.isSome then ttlIndexCost key else 0) =
          stringCost key (some (s.counter now key delta ttl)) := by
      cases ttl <;> rfl
    unfold incrByWithTtl incrFresh reserve
    simp only [hcreate, if_true, hcost]
    set room := s.ensureMemory now (stringCost key (some (s.counter now key delta ttl)))
      with hroom
    have invRoom : Inv room.2 := inv.ensureMemory now _
    have hnanos : room.2.nowNanos now = s.nowNanos now := by
      have hspared : Spared now s room.2 := ensureMemory_spared inv _
      rw [nowNanos, hspared.anchor, nowNanos]
    have hdead' := inv.room_dead (stringCost key (some (s.counter now key delta ttl))) hdead
    rw [← hroom] at hdead'
    have hcreated : room.2.incrCreate now key delta ttl =
        (.ok delta, room.2.writeString key (some (s.counter now key delta ttl))) := by
      rw [incrCreate, createEntry_eq invRoom, hnanos, counter]
    split
    · cases hafter : room.2.data.get key with
      | none => exact hcreated
      | some e =>
        rw [hafter, Option.any_some, Bool.not_eq_false'] at hdead'
        simp only [hdead', if_true]
        exact hcreated
    · rfl
  cases hget : s.data.get key with
  | none => exact hfresh (by rw [hget]; rfl)
  | some e =>
    simp only
    split
    next hexp => exact hfresh (by rw [hget, Option.any_some, hexp]; rfl)
    next hlive => simp [incrByWithTtl, hget, hlive]

/-- Incrementing a string that is there. -/
theorem incrUpdate_eq (inv : Inv s) {e : Entry} (hget : s.data.get key = some e) (delta : ℤ) :
    s.incrUpdate now key delta e =
      match e.plain s.config.compression.algo with
      | none => (.error failedToDecompress, s)
      | some data =>
        match parseI64 data with
        | none => (.error notInteger, s)
        | some current =>
          match checkedAddI64 current delta with
          | none => (.error incrOverflow, s)
          | some next => (.ok next,
              s.writeString key (some (s.rewritten now key e (formatI64 next)))) := by
  unfold incrUpdate
  cases e.plain s.config.compression.algo with
  | none => rfl
  | some data =>
    cases hparse : parseI64 data with
    | none => simp only [hparse]
    | some current =>
      cases hadd : checkedAddI64 current delta with
      | none => simp only [hparse, hadd]
      | some next => simp only [hparse, hadd, rewriteEntry_eq inv hget]

/-- `append`, in one piece. -/
theorem append_eq (inv : Inv s) (value : Bytes) :
    s.append now key value =
      match s.data.get key with
      | none => s.appendCreate now key value
      | some e =>
        if e.isExpired now then (s.removeLocal now key).2.appendCreate now key value
        else
          let room := s.ensureMemory now value.length
          if room.1 then
            if (room.2.data.get key).isSome then
              let data := (e.plain s.config.compression.algo).getD e.data
              (some (data ++ value).length,
                room.2.writeString key (some (s.rewritten now key e (data ++ value))))
            else room.2.appendCreate now key value
          else (none, room.2) := by
  unfold append reserve
  cases hget : s.data.get key with
  | none => simp [hget]
  | some e =>
    by_cases hexp : e.isExpired now = true
    · simp [hget, hexp]
    · simp only [Option.any_some, hexp, Bool.not_false, if_true, Bool.false_eq_true, if_false]
      set room := s.ensureMemory now value.length with hroom
      have invRoom : Inv room.2 := inv.ensureMemory now _
      have hspared : Spared now s room.2 := ensureMemory_spared inv _
      cases hafter : room.2.data.get key with
      | none => simp
      | some current =>
        obtain rfl : current = e := inv.room_of_live hget hafter
        have hrewritten : ∀ data, room.2.rewritten now key current data =
            s.rewritten now key current data := fun data => by
          simp only [rewritten, hspared.config, nowNanos, hspared.anchor]
        simp only [hexp, Bool.false_eq_true, if_false, hspared.config,
          rewriteEntry_eq invRoom hafter, hrewritten, Option.isSome_some, if_true]

end Strings

section Hashes

variable [P : Platform] {s : Store} {now : Instant} {key : String}

/-! ## Hashes -/

/-- Whether there is a hash, in one piece. -/
theorem isHash_eq (inv : Inv s) :
    s.isHash now key =
      match s.hashes.get key with
      | none => (false, s)
      | some h => if h.keyExpired now then (false, s.reaped now key h) else (h.isLive now, s) := by
  unfold isHash
  cases hget : s.hashes.get key with
  | none => rfl
  | some h =>
    simp only
    rw [reapHash_snd inv, hget]

/-- Reading a hash, in one piece. -/
theorem hashRead_eq {R : Type} (inv : Inv s) (read : HashEntry → R) :
    s.hashRead now key read =
      match s.hashes.get key with
      | none => (none, s)
      | some h =>
        if h.keyExpired now then (none, s.reaped now key h)
        else if h.isLive now then
          (some (read h), s.putHash key (some (h.touch (s.nowNanos now)))
            (s.hashTtlKeys.get key))
        else (none, s) := by
  unfold hashRead
  cases hget : s.hashes.get key with
  | none => rfl
  | some h =>
    simp only
    rw [reapHash_snd inv, hget, touchHash_eq hget]

/-- Rebuilding the hint of a hash from its deadlines. -/
theorem hashIndexRebuild_eq (inv : Inv s) :
    s.hashIndexSet key ((s.hashes.get key).bind HashEntry.earliestDeadline) =
      match s.hashes.get key with
      | none => s
      | some h => s.putHash key (some h) h.earliestDeadline := by
  cases hget : s.hashes.get key with
  | none => exact hashIndexDrop_of_none inv hget
  | some h => exact hashIndexSet_eq inv hget _

/-- Restoring a hash, in one piece. -/
theorem restoreHash_eq (inv : Inv s) (fields : List (String × HashField))
    (expiresAt : Option Instant) :
    s.restoreHash now key fields expiresAt =
      match HashEntry.fromParts key fields expiresAt now (s.nowNanos now) with
      | none => (false, s)
      | some entry =>
        let room := s.ensureMemory now (entry.mem - (s.hashes.get key).elim 0 (·.mem))
        (room.1, if room.1 then
          (room.2.putHash key (some entry) entry.earliestDeadline).notifyWrite key
        else room.2) := by
  unfold restoreHash reserve
  cases HashEntry.fromParts key fields expiresAt now (s.nowNanos now) with
  | none => rfl
  | some entry =>
    set room := s.ensureMemory now (entry.mem - (s.hashes.get key).elim 0 (·.mem)) with hroom
    have invRoom : Inv room.2 := inv.ensureMemory now _
    change (if room.1 then (true, room.2.storeHash key entry) else (false, room.2)) = _
    rw [storeHash_eq invRoom]
    simp only
    split
    next h => rw [h]
    next h => rw [Bool.eq_false_iff.mpr h]

end Hashes

end Store

end Ephpm.Kv
