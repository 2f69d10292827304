import Ephpm.Kv.Moves

/-!
# Every operation makes its room first

An operation of the store reads, reserves memory and writes.  This file puts each of
them down as a `Script`: a path of **early** changes, among which room may be made,
and then a path of **late** ones, among which it is not.  What can only be late is
what takes the expiry of a string away, or stores one without: no operation makes
room after that (`step_script`).

The scripts of the string operations name no other key and no hash
(`StringChange`).  The exceptions are the three operations that remove the whole
name when they find its string expired.

What holds of every change holds of every operation, and of every run: the
invariant (`Inv.runState`), an exact byte counter (`memUsed_eq_footprint`).
-/

namespace Ephpm.Kv

open Lib

namespace Store

/-- Whether an operation may still make room. -/
inductive Phase where
  | early
  | late

/-- One change of an operation on the string at `key`. -/
inductive StringChange [Platform] (now : Instant) (key : String) : Phase → Store → Store → Prop
  | room {s : Store} (needed : ℕ) : StringChange now key .early s (s.ensureMemory now needed).2
  | remove {phase : Phase} {s : Store} : StringChange now key phase s (s.writeString key none)
  | retime {phase : Phase} {s : Store} {e e' : Entry} :
      s.data.get key = some e → e'.data = e.data → e'.compressed = e.compressed →
        e'.memSize = e.memSize → (phase = .early → e'.expiresAt = none → e.expiresAt = none) →
          StringChange now key phase s (s.putString key (some e'))
  | write {s : Store} {e : Entry} :
      e.Sized key → StringChange now key .late s (s.writeString key (some e))

/-- One change of an operation. -/
inductive Change [Platform] (now : Instant) : Phase → Store → Store → Prop
  | string {phase : Phase} {s s' : Store} {key : String} :
      StringChange now key phase s s' → Change now phase s s'
  | read {phase : Phase} {s s' : Store} : ReadStep now s s' → Change now phase s s'
  | hash {phase : Phase} {s : Store} {key : String} {entry : Option HashEntry}
      {hint : Option Instant} :
      (∀ h, entry = some h → h.Charged key) →
        (∀ h, entry = some h → NotLater hint h.earliestDeadline) →
          (entry = none → hint = none) → Change now phase s (s.putHash key entry hint)
  | notify {phase : Phase} {s : Store} (key : String) : Change now phase s (s.notifyWrite key)
  | flush {s : Store} : Change now .late s s.flush
  | shrink {s : Store} : Change now .late s s.shrinkSparseTables

/-- Early changes, then late ones. -/
def Script (C : Phase → Store → Store → Prop) (s s' : Store) : Prop :=
  ∃ middle, Path (C .early) s middle ∧ Path (C .late) middle s'

namespace Script

variable {C : Phase → Store → Store → Prop} {s s' s'' : Store}

/-- Nothing at all is a script. -/
theorem refl : Script C s s := ⟨s, .refl, .refl⟩

/-- Early changes alone. -/
theorem ofEarly (early : Path (C .early) s s') : Script C s s' := ⟨s', early, .refl⟩

/-- Late changes alone. -/
theorem ofLate (late : Path (C .late) s s') : Script C s s' := ⟨s, .refl, late⟩

/-- Early changes before a script. -/
theorem after (early : Path (C .early) s s') (script : Script C s' s'') : Script C s s'' := by
  obtain ⟨middle, first, late⟩ := script
  exact ⟨middle, early.trans first, late⟩

/-- Late changes behind a script. -/
theorem followed (script : Script C s s') (late : Path (C .late) s' s'') : Script C s s'' := by
  obtain ⟨middle, early, first⟩ := script
  exact ⟨middle, early, first.trans late⟩

end Script

section Changes

variable [P : Platform] {s s' : Store} {now : Instant} {key : String} {phase : Phase}

/-! ## Changes are moves -/

/-- A change of a string is a path of moves. -/
theorem StringChange.moves (change : StringChange now key phase s s') (inv : Inv s) :
    Moves s s' := by
  cases change with
  | room needed => exact (ensureMemory_room inv needed).moves inv
  | remove => exact (remove_move key).moves
  | retime hget hdata hcompressed hmem _ => exact (Move.retime hget hdata hcompressed hmem).moves
  | write sized =>
    refine Move.moves (.write ?_)
    rintro _ ⟨⟩
    exact sized

/-- A change of a string keeps the invariant. -/
theorem StringChange.inv (change : StringChange now key phase s s') (inv : Inv s) : Inv s' :=
  Moves.inv (change.moves inv) inv

/-- **A change is a path of moves.** -/
theorem Change.moves (change : Change now phase s s') (inv : Inv s) : Moves s s' := by
  cases change with
  | string change => exact change.moves inv
  | read step => exact step.moves inv
  | hash charged hinted owned => exact (Move.hash charged hinted owned).moves
  | notify key => exact (Move.notify key).moves
  | flush => exact Move.flush.moves
  | shrink => exact Move.shrink.moves

/-- A change keeps the invariant. -/
theorem Change.inv (change : Change now phase s s') (inv : Inv s) : Inv s' :=
  Moves.inv (change.moves inv) inv

/-- Changes keep the invariant. -/
theorem changes_inv (changes : Path (Change now phase) s s') (inv : Inv s) : Inv s' :=
  Path.preserves (fun _ _ inv change => change.inv inv) changes inv

/-- Changes are a path of moves. -/
theorem changes_moves (changes : Path (Change now phase) s s') (inv : Inv s) : Moves s s' :=
  Path.relates (fun _ _ inv change => change.inv inv) (fun _ => .refl) (fun _ _ _ => .trans)
    (fun _ _ inv change => change.moves inv) changes inv

/-- A script is a path of moves. -/
theorem Script.moves (script : Script (Change now) s s') (inv : Inv s) : Moves s s' := by
  obtain ⟨middle, early, late⟩ := script
  exact (changes_moves early inv).trans (changes_moves late (changes_inv early inv))

/-- A script keeps the invariant. -/
theorem Script.inv (script : Script (Change now) s s') (inv : Inv s) : Inv s' :=
  Moves.inv (script.moves inv) inv

/-- Changes of a string are changes. -/
theorem string_changes (changes : Path (StringChange now key phase) s s') :
    Path (Change now phase) s s' := Relation.ReflTransGen.mono (fun _ _ => .string) _ _ changes

/-- The script of a string operation is a script. -/
theorem Script.string (script : Script (StringChange now key) s s') : Script (Change now) s s' := by
  obtain ⟨middle, early, late⟩ := script
  exact ⟨middle, string_changes early, string_changes late⟩

/-- Reading is early and late. -/
theorem Reads.changes (reads : Reads now s s') : Path (Change now phase) s s' :=
  Relation.ReflTransGen.mono (fun _ _ => .read) _ _ reads

/-- Making room is an early change, for whatever key. -/
theorem room_change (key : String) (needed : ℕ) :
    Change now .early s (s.ensureMemory now needed).2 := by
  have hroom : StringChange now key .early s (s.ensureMemory now needed).2 := .room needed
  exact .string hroom

/-- Waking is early and late. -/
theorem wake_changes (changed : Bool) (key : String) :
    Path (Change now phase) s (s.wake changed key) := by
  unfold wake
  split
  · exact .single (.notify key)
  · exact .refl

/-! ## Strings -/

/-- Room is made and then, if it was granted, an entry is written. -/
theorem reserved_script (needed : ℕ) {entry : Entry} (sized : entry.Sized key) :
    Script (StringChange now key) s (if (s.ensureMemory now needed).1 then
      (s.ensureMemory now needed).2.writeString key (some entry)
    else (s.ensureMemory now needed).2) := by
  have hroom : Path (StringChange now key .early) s (s.ensureMemory now needed).2 :=
    .single (.room needed)
  split
  · exact ⟨_, hroom, .single (.write sized)⟩
  · exact .ofEarly hroom

/-- A replacement makes its room and then writes. -/
theorem replaceEntry_script (inv : Inv s) {entry : Entry} (sized : entry.Sized key) :
    Script (StringChange now key) s (s.replaceEntry now key entry).2 := by
  rw [replaceEntry_eq inv]
  exact reserved_script _ sized

theorem setLocal_script (inv : Inv s) (value : Bytes) (ttl : Option Duration) :
    Script (StringChange now key) s (s.setLocal now key value ttl).2 :=
  replaceEntry_script inv (Entry.new_sized _ _ _ _ _)

/-- `set_nx` makes its room and then writes, or does nothing. -/
theorem setNxOutcomeLocal_script (inv : Inv s) (value : Bytes) (ttl : Option Duration) :
    Script (StringChange now key) s (s.setNxOutcomeLocal now key value ttl).2 := by
  rw [setNxOutcomeLocal_eq inv]
  split
  · exact .refl
  · simp only
    rw [apply_ite Prod.snd]
    exact reserved_script _ (Entry.new_sized _ _ _ _ _)

/-- `set_if_eq` makes its room and then writes, or does nothing. -/
theorem setIfEqLocal_script (inv : Inv s) (expected value : Bytes) (ttl : SetTtl) :
    Script (StringChange now key) s (s.setIfEqLocal now key expected value ttl).2 := by
  rw [setIfEqLocal_eq inv]
  split
  · exact .refl
  next old hget =>
    have hroom : Path (StringChange now key .early) s
        (s.ensureMemory now (s.swapGrowth now key value ttl old)).2 := .single (.room _)
    split
    · simp only
      split
      · split
        · exact ⟨_, hroom, .single (.write (Entry.new_sized _ key _ _ _))⟩
        · exact .ofEarly hroom
      · exact .ofEarly hroom
    · exact .refl

/-- `del_if_eq` removes the string or does nothing. -/
theorem delIfEqLocal_script (inv : Inv s) (token : Bytes) :
    Script (StringChange now key) s (s.delIfEqLocal now key token).2 := by
  rw [delIfEqLocal_eq inv]
  split
  · exact .refl
  · split
    · exact .ofLate (.single .remove)
    · exact .refl

/-- `getdel` removes the string or does nothing. -/
theorem getdel_script (inv : Inv s) : Script (StringChange now key) s (s.getdel now key).2 := by
  rw [getdel_eq inv]
  split
  · exact .refl
  · split
    · exact .refl
    · exact .ofLate (.single .remove)

/-- A string is removed if it is there. -/
theorem removeStringLocal_script (inv : Inv s) :
    Script (StringChange now key) s (s.removeStringLocal key).2 := by
  rw [removeStringLocal_eq inv]
  split
  · exact .ofLate (.single .remove)
  · exact .refl

/-- A value that is rewritten has its size written down. -/
theorem rewritten_sized (now : Instant) (key : String) (e : Entry) (value : Bytes) :
    (s.rewritten now key e value).Sized key := rfl

/-- `incr_by` makes room for a new string, and none for one that is there. -/
theorem incrByWithTtl_script (inv : Inv s) (delta : ℤ) (ttl : Option Duration) :
    Script (StringChange now key) s (s.incrByWithTtl now key delta ttl).2 := by
  have hfresh : Script (StringChange now key) s (s.incrFresh now key delta ttl).2 := by
    unfold incrFresh
    rw [apply_ite Prod.snd]
    exact reserved_script _ (Entry.new_sized _ _ _ _ _)
  rw [incrByWithTtl_eq inv]
  split
  · exact hfresh
  next e hget =>
    split
    · exact hfresh
    · rw [incrUpdate_eq inv hget]
      split
      · exact .refl
      · split
        · exact .refl
        · split
          · exact .refl
          · exact .ofLate (.single (.write (rewritten_sized _ _ _ _)))

/-- An append to a live string names no hash, wherever its room comes from. -/
theorem append_live_script (inv : Inv s) {e : Entry} (hget : s.data.get key = some e)
    (hlive : e.isExpired now = false) (value : Bytes) :
    Script (StringChange now key) s (s.append now key value).2 := by
  have hroom : Path (StringChange now key .early) s (s.ensureMemory now value.length).2 :=
    .single (.room _)
  rw [append_eq inv]
  simp only [hget, hlive, Bool.false_eq_true, if_false]
  split
  · split
    · exact ⟨_, hroom, .single (.write (rewritten_sized _ _ _ _))⟩
    · exact .after hroom (setLocal_script (inv.ensureMemory now _) value none)
  · exact .ofEarly hroom

/-- A deadline for a live string. -/
theorem expireLocal_live_change (inv : Inv s) {e : Entry} (hget : s.data.get key = some e)
    (hlive : e.isExpired now = false) (ttl : Duration) :
    StringChange now key phase s (s.expireLocal now key ttl).2 := by
  rw [expireLocal_eq inv]
  simp only [hget, hlive, Bool.false_eq_true, if_false]
  exact .retime hget rfl rfl rfl nofun

/-- `PERSIST` takes an expiry away, so it is late. -/
theorem persistString_live_changes (inv : Inv s) {e : Entry} (hget : s.data.get key = some e)
    (hlive : e.isExpired now = false) :
    Path (StringChange now key .late) s (s.persistString now key).2 := by
  rw [persistString_eq inv]
  simp only [hget, hlive, Bool.false_eq_true, if_false]
  split
  · exact .single (.retime hget rfl rfl rfl nofun)
  · exact .refl

/-! ## Names -/

/-- Removing a hash is early and late. -/
theorem removeHash_change (key : String) : Change now phase s (s.putHash key none none) :=
  .hash (fun _ h => by cases h) (fun _ h => by cases h) fun _ => rfl

/-- Removing a name is early and late. -/
theorem removeLocal_changes (inv : Inv s) :
    Path (Change now phase) s (s.removeLocal now key).2 := by
  have hremove : Change now phase s (s.writeString key none) := .string .remove
  rw [removeLocal_snd inv]
  split
  · exact .head hremove (.single (removeHash_change key))
  · exact .head (removeHash_change key) (wake_changes _ key)

/-- `append` may remove what has expired before it makes its room. -/
theorem append_script (inv : Inv s) (value : Bytes) :
    Script (Change now) s (s.append now key value).2 := by
  cases hget : s.data.get key with
  | none =>
    rw [append_eq inv]
    simp only [hget]
    exact (setLocal_script inv value none).string
  | some e =>
    cases hexp : e.isExpired now with
    | false => exact (append_live_script inv hget hexp value).string
    | true =>
      have hremove : Path (Change now .early) s (s.removeLocal now key).2 := removeLocal_changes inv
      rw [append_eq inv]
      simp only [hget, hexp, if_true]
      exact .after hremove (setLocal_script (changes_inv hremove inv) value none).string

/-- `expire` of a string is early and late. -/
theorem expireLocal_changes (inv : Inv s) (ttl : Duration) :
    Path (Change now phase) s (s.expireLocal now key ttl).2 := by
  cases hget : s.data.get key with
  | none =>
    rw [expireLocal_eq inv]
    simp only [hget]
    exact .refl
  | some e =>
    cases hexp : e.isExpired now with
    | false => exact .single (.string (expireLocal_live_change inv hget hexp ttl))
    | true =>
      rw [expireLocal_eq inv]
      simp only [hget, hexp, if_true]
      exact removeLocal_changes inv

/-- `persist` of a string is late. -/
theorem persistString_changes (inv : Inv s) :
    Path (Change now .late) s (s.persistString now key).2 := by
  cases hget : s.data.get key with
  | none =>
    rw [persistString_eq inv]
    simp only [hget]
    exact .refl
  | some e =>
    cases hexp : e.isExpired now with
    | false => exact string_changes (persistString_live_changes inv hget hexp)
    | true =>
      rw [persistString_eq inv]
      simp only [hget, hexp, if_true]
      exact removeLocal_changes inv

/-- `getex` reads, and then does one of three things. -/
theorem getex_script (inv : Inv s) (expiry : GetExpiry) :
    Script (Change now) s (s.getex now key expiry).2 := by
  have hread : Reads now s (s.get now key).2 := get_reads inv
  have invRead := hread.inv inv
  unfold getex
  simp only
  split
  · exact .ofLate hread.changes
  · refine .after hread.changes (.ofLate ?_)
    cases expiry with
    | after ttl => exact expireLocal_changes invRead ttl
    | persist => exact persistString_changes invRead
    | delete => exact removeLocal_changes invRead

/-- A restored string is a replacement, unless it has expired. -/
theorem restoreRecord_script (inv : Inv s) (valueAlgo : CompressionAlgo) (data : Bytes)
    (compressed : Bool) (remaining : Option Duration) :
    Script (Change now) s (s.restoreRecord now valueAlgo key data compressed remaining).2 := by
  rw [restoreRecord_eq]
  split
  · exact .refl
  next entry hentry => exact (replaceEntry_script inv (restoredEntry_sized hentry)).string

/-- Removing several names is early and late. -/
theorem del_changes : ∀ (keys : List String) {s : Store}, Inv s →
    Path (Change now phase) s (s.del now keys).2
  | [], _, _ => .refl
  | key :: rest, s, inv => by
      have hremove : Path (Change now phase) s (s.removeLocal now key).2 := removeLocal_changes inv
      exact hremove.trans (del_changes rest (changes_inv hremove inv))

/-- `rename` reads, writes the new name and removes the old one. -/
theorem rename_script (inv : Inv s) (oldKey newKey : String) :
    Script (Change now) s (s.rename now oldKey newKey).2 := by
  have hvalue : Reads now s (s.get now oldKey).2 := get_reads inv
  have hleft : Reads now s ((s.get now oldKey).2.pttl now oldKey).2 :=
    hvalue.trans (pttl_reads (hvalue.inv inv))
  have hset (value : Bytes) : Script (Change now) s
      (((s.get now oldKey).2.pttl now oldKey).2.setLocal now newKey value
        (renameTtl ((s.get now oldKey).2.pttl now oldKey).1)).2 :=
    .after hleft.changes (setLocal_script (hleft.inv inv) value _).string
  unfold rename
  dsimp only
  split
  next => exact .ofEarly hvalue.changes
  next value hfound =>
    split
    next => exact (hset value).followed (removeLocal_changes ((hset value).inv inv))
    next => exact hset value

/-! ## Hashes -/

/-- A mutation of a hash that keeps its charge right. -/
def ChargedOp {R : Type} (key : String) (op : HashEntry → R × HashEntry) : Prop :=
  ∀ h, h.Charged key → (op h).2.Charged key

omit P in
/-- The hash that a write works on is charged right. -/
theorem refreshed_charged (now : Instant) {h : HashEntry} (charged : h.Charged key) :
    (refreshed now key h).Charged key := by
  unfold refreshed
  split
  · exact HashEntry.reset_charged key h
  · exact charged.purgeExpiredFields now

omit P in
/-- What is kept of a hash is charged right. -/
theorem kept_charged {h left : HashEntry} (charged : h.Charged key)
    (hleft : kept h = some left) : left.Charged key := by
  unfold kept at hleft
  split at hleft
  · cases hleft
  · exact Option.some.inj hleft ▸ charged

/-- A write puts the hash once. -/
theorem hashWriteOn_change {R : Type} (inv : Inv s) {h : HashEntry}
    (hget : s.hashes.get key = some h) (create : Bool) {op : HashEntry → R × HashEntry}
    (hop : ChargedOp key op) : Change now phase s (s.hashWriteOn now key create op h).2 := by
  rw [hashWriteOn_eq inv hget]
  simp only
  split
  · exact removeHash_change key
  · have charged := hop _ ((refreshed_charged now (inv.charged key h hget)).touch
      (s.nowNanos now))
    refine .hash (fun left hleft => kept_charged charged hleft) (fun left hleft => ?_)
      fun hnone => ?_
    · rw [hleft, Option.bind_some]
      exact minDeadline_right _ _
    · rw [hnone, Option.bind_none]

/-- Opening a hash puts an empty one, or nothing. -/
theorem opened_changes (create : Bool) : Path (Change now phase) s (s.opened now key create) := by
  unfold opened
  split
  · refine .single (.hash ?_ ?_ nofun)
    · rintro h ⟨⟩
      exact HashEntry.new_charged key _
    · rintro h ⟨⟩
      exact notLater_none _
  · exact .refl

/-- **A hash write**: the hash is opened, and what the mutation left of it is put. -/
theorem hashWrite_changes {R : Type} (inv : Inv s) (now : Instant) (create : Bool)
    {op : HashEntry → R × HashEntry} (hop : ChargedOp key op) :
    Path (Change now phase) s (s.hashWrite now key create op).2 := by
  have hopened : Path (Change now phase) s (s.opened now key create) := opened_changes create
  rw [hashWrite_eq inv]
  split
  · exact .refl
  next h hget => exact hopened.tail (hashWriteOn_change (changes_inv hopened inv) hget create hop)

/-- Rebuilding a hint puts the hash as it is. -/
theorem hashIndexRebuild_changes (inv : Inv s) : Path (Change now phase) s
    (s.hashIndexSet key ((s.hashes.get key).bind HashEntry.earliestDeadline)) := by
  rw [hashIndexRebuild_eq inv]
  split
  · exact .refl
  next h hget =>
    refine .single (.hash ?_ ?_ nofun)
    · rintro _ ⟨⟩
      exact inv.charged key h hget
    · rintro _ ⟨⟩
      exact NotLater.refl _

omit P in
/-- The deadline of a hash costs nothing. -/
theorem keyExpiryOp_charged (key : String) (deadline : Option Instant) :
    ChargedOp key (keyExpiryOp deadline) := by
  intro h charged
  unfold keyExpiryOp
  split
  · exact charged
  · exact charged.withExpiry deadline

/-- The deadline of a hash is early and late. -/
theorem hashSetKeyExpiry_changes (inv : Inv s) (deadline : Option Instant) :
    Path (Change now phase) s (s.hashSetKeyExpiry now key deadline).2 := by
  have hwrite : Path (Change now phase) s _ :=
    hashWrite_changes inv now false (keyExpiryOp_charged key deadline)
  unfold hashSetKeyExpiry
  simp only
  split
  · exact hwrite.trans (hashIndexRebuild_changes (changes_inv hwrite inv))
  · exact hwrite

/-- `expire` is early and late. -/
theorem expire_changes (inv : Inv s) (ttl : Duration) :
    Path (Change now phase) s (s.expire now key ttl).2 := by
  have hhash : Reads now s (s.isHash now key).2 := isHash_reads inv
  have hstring : Path (Change now phase) s ((s.isHash now key).2.expireLocal now key ttl).2 :=
    hhash.changes.trans (expireLocal_changes (hhash.inv inv) ttl)
  unfold expire
  dsimp only
  exact hstring.trans (hashSetKeyExpiry_changes (changes_inv hstring inv) _)

/-- `persist` is late. -/
theorem persist_changes (inv : Inv s) : Path (Change now .late) s (s.persist now key).2 := by
  have hhash : Reads now s (s.isHash now key).2 := isHash_reads inv
  have hstring : Path (Change now .late) s ((s.isHash now key).2.persistString now key).2 :=
    hhash.changes.trans (persistString_changes (hhash.inv inv))
  unfold persist
  dsimp only
  exact hstring.trans (hashSetKeyExpiry_changes (changes_inv hstring inv) _)

/-- A restored hash has its room made first. -/
theorem restoreHash_script (inv : Inv s) (fields : List (String × HashField))
    (expiresAt : Option Instant) :
    Script (Change now) s (s.restoreHash now key fields expiresAt).2 := by
  rw [restoreHash_eq inv]
  split
  · exact .refl
  next entry hparts =>
    have hroom : Path (Change now .early) s
        (s.ensureMemory now (entry.mem - (s.hashes.get key).elim 0 (·.mem))).2 :=
      .single (room_change key _)
    refine .after hroom ?_
    simp only
    split
    · refine .ofLate (.head (.hash ?_ ?_ ?_) (.single (.notify key)))
      · rintro _ ⟨⟩
        exact (HashEntry.fromParts_charged hparts).1
      · rintro _ ⟨⟩
        exact NotLater.refl _
      · exact nofun
    · exact .refl

/-! ### The mutations keep the charge right -/

omit P in
theorem putOp_charged (key field : String) (value : Bytes) (expiresAt : Option Instant)
    (now : Instant) : ChargedOp key fun h => h.putField field value expiresAt now :=
  fun _ charged => charged.putField field value expiresAt now

omit P in
theorem hsetnxOp_charged (key : String) (now : Instant) (field : String) (value : Bytes) :
    ChargedOp key (hsetnxOp now field value) := by
  intro h charged
  unfold hsetnxOp
  split
  · exact charged
  · exact charged.putField _ _ _ now

theorem applyOp_charged (key : String) (now : Instant) (field : String) (value : Bytes)
    (fieldTtl hashTtl : Option Duration) :
    ChargedOp key (applyOp now field value fieldTtl hashTtl) :=
  fun _ charged => (charged.putField field value _ now).withExpiry _

omit P in
theorem takeOp_charged (key field : String) : ChargedOp key (takeOp field) := by
  intro h charged
  unfold takeOp
  split
  next old left htake =>
    unfold HashEntry.takeField at htake
    split at htake
    · cases htake
    next hget =>
      obtain ⟨rfl, rfl⟩ := Prod.mk.inj (Option.some.inj htake)
      exact charged.dropField hget
  next => exact charged

omit P in
theorem incrOp_charged {R : Type} (now : Instant) (field : String)
    (compute : Option Bytes → Except String (R × Bytes)) :
    ChargedOp key (incrOp now field compute) := by
  intro h charged
  unfold incrOp
  split
  · exact charged
  · exact charged.putField _ _ _ now

theorem hexpireOp_charged (key : String) (now : Instant) (field : String) (remaining : Duration)
    (cond : ExpireCondition) : ChargedOp key (hexpireOp now field remaining cond) := by
  intro h charged
  unfold hexpireOp
  split
  · exact charged
  · simp only
    split
    · split
      · exact takeOp_charged key field h charged
      · exact charged.setFieldExpiry field _
    · exact charged

omit P in
theorem hpersistOp_charged (key : String) (now : Instant) (field : String) :
    ChargedOp key (hpersistOp now field) := by
  intro h charged
  unfold hpersistOp
  split
  · exact charged
  · split
    · exact charged
    · exact charged.setFieldExpiry field none

/-! ### Hash commands -/

/-- Reserving for a field makes room. -/
theorem reserveField_changes (key field : String) (valueLen : ℕ) :
    Path (Change now .early) s (s.reserveField now key field valueLen).2 :=
  .single (room_change key _)

/-- Room is made for a field, then the hash is written and waiters are woken. -/
theorem fieldWrite_changes {R : Type} (inv : Inv s) (field : String) (valueLen : ℕ)
    {op : HashEntry → R × HashEntry} (hop : ChargedOp key op) (changed : Bool) :
    Path (Change now .early) s
      (((s.reserveField now key field valueLen).2.hashWrite now key true op).2.wake changed key) := by
  have hroom : Path (Change now .early) s (s.reserveField now key field valueLen).2 :=
    reserveField_changes key field valueLen
  exact (hroom.trans (hashWrite_changes (changes_inv hroom inv) now true hop)).trans
    (wake_changes changed key)

/-- `hset` is early: a hash is not looked at by the pool. -/
theorem hsetMany_changes : ∀ (pairs : List (String × Bytes)) {s : Store}, Inv s →
    Path (Change now .early) s (s.hsetMany now key pairs).2
  | [], _, _ => .refl
  | (field, value) :: rest, s, inv => by
      have hwrite : Path (Change now .early) s _ :=
        fieldWrite_changes inv field value.length (putOp_charged key field value none now) true
      rw [hsetMany]
      simp only
      split
      · exact hwrite.trans (hsetMany_changes rest (changes_inv hwrite inv))
      · exact reserveField_changes key field value.length

/-- `hsetnx` reads, and then writes if there is no such field. -/
theorem hsetnx_changes (inv : Inv s) (field : String) (value : Bytes) :
    Path (Change now .early) s (s.hsetnx now key field value).2 := by
  have hpresent : Reads now s (s.hexists now key field).2 := hashRead_reads inv _
  unfold hsetnx
  simp only
  split
  · exact hpresent.changes
  · refine hpresent.changes.trans ?_
    split
    · exact fieldWrite_changes (hpresent.inv inv) field value.length
        (hsetnxOp_charged key now field value) _
    · exact reserveField_changes key field value.length

/-- Removing fields is early and late. -/
theorem hdelLoop_changes : ∀ (fields : List String) {s : Store}, Inv s →
    Path (Change now phase) s (s.hdelLoop now key fields).2
  | [], _, _ => .refl
  | field :: rest, s, inv => by
      have hwrite : Path (Change now phase) s _ :=
        hashWrite_changes inv now false (takeOp_charged key field)
      exact hwrite.trans (hdelLoop_changes rest (changes_inv hwrite inv))

/-- `hdel` is early and late. -/
theorem hdelFields_changes (inv : Inv s) (fields : List String) :
    Path (Change now phase) s (s.hdelFields now key fields).2 := by
  have hloop : Path (Change now phase) s (s.hdelLoop now key fields).2 := hdelLoop_changes fields inv
  unfold hdelFields
  simp only
  split
  · exact hloop.tail (.notify key)
  · exact hloop

/-- Incrementing a field is early. -/
theorem incrField_changes {R : Type} (inv : Inv s) (field : String) (size : ℕ)
    (compute : Option Bytes → Except String (R × Bytes)) :
    Path (Change now .early) s (s.incrField now key field size compute).2 := by
  unfold incrField
  simp only
  split
  · exact fieldWrite_changes inv field size (incrOp_charged now field compute) _
  · exact reserveField_changes key field size

/-- `hincrbyfloat` is early. -/
theorem hincrByFloat_changes (inv : Inv s) (field : String) (delta : UInt64) :
    Path (Change now .early) s (s.hincrByFloat now key field delta).2 := by
  unfold hincrByFloat
  split
  · exact incrField_changes inv field 64 _
  · exact .refl

/-- Deadlines of fields are early and late. -/
theorem hexpireLoop_changes (remaining : Duration) (cond : ExpireCondition) :
    ∀ (fields : List String) {s : Store}, Inv s →
      Path (Change now phase) s (s.hexpireLoop now key remaining cond fields).2
  | [], _, _ => .refl
  | field :: rest, s, inv => by
      have hwrite : Path (Change now phase) s _ :=
        hashWrite_changes inv now false (hexpireOp_charged key now field remaining cond)
      exact hwrite.trans (hexpireLoop_changes remaining cond rest (changes_inv hwrite inv))

/-- `hexpire` is early and late. -/
theorem hexpire_changes (inv : Inv s) (fields : List String) (remaining : Duration)
    (cond : ExpireCondition) :
    Path (Change now phase) s (s.hexpire now key fields remaining cond).2 := by
  have hloop : Path (Change now phase) s (s.hexpireLoop now key remaining cond fields).2 :=
    hexpireLoop_changes remaining cond fields inv
  unfold hexpire
  simp only
  split
  · exact hloop.tail (.notify key)
  · exact hloop

/-- `hpersist` is early and late. -/
theorem hpersist_changes : ∀ (fields : List String) {s : Store}, Inv s →
    Path (Change now phase) s (s.hpersist now key fields).2
  | [], _, _ => .refl
  | field :: rest, s, inv => by
      have hwrite : Path (Change now phase) s _ :=
        hashWrite_changes inv now false (hpersistOp_charged key now field)
      exact hwrite.trans (hpersist_changes rest (changes_inv hwrite inv))

/-- A field from a peer is early. -/
theorem applyHashFieldLocal_changes (inv : Inv s) (field : String) (state : HashFieldState) :
    Path (Change now .early) s (s.applyHashFieldLocal now key field state).2 := by
  have hremove : Path (Change now .early) s (applyHashFieldLocal.removeField now key field s).2 :=
    (hashWrite_changes inv now false (takeOp_charged key field)).trans (wake_changes _ key)
  unfold applyHashFieldLocal
  simp only
  split
  next value hvalue =>
    split
    · exact hremove
    · split
      · exact fieldWrite_changes inv field value.length (applyOp_charged key now field value _ _) true
      · exact reserveField_changes key field value.length
  next => exact hremove

/-! ## Every operation -/

/-- **Every operation has a script**: it makes its room before it can take an expiry away. -/
theorem step_script (inv : Inv s) (now : Instant) (op : Op) :
    Script (Change now) s (s.step now op).2 := by
  cases op with
  | set key value ttl => exact (setLocal_script inv value ttl).string
  | setNx key value ttl => exact (setNxOutcomeLocal_script inv value ttl).string
  | setIfEq key expected value ttl => exact (setIfEqLocal_script inv expected value ttl).string
  | delIfEq key token => exact (delIfEqLocal_script inv token).string
  | getdel key => exact (getdel_script inv).string
  | getex key expiry => exact getex_script inv expiry
  | incrBy key delta ttl => exact (incrByWithTtl_script inv delta ttl).string
  | append key value => exact append_script inv value
  | expire key ttl =>
    rw [step, answer_snd]
    exact .ofLate (expire_changes inv ttl)
  | expireLocal key ttl => exact .ofLate (expireLocal_changes inv ttl)
  | persist key =>
    rw [step, answer_snd]
    exact .ofLate (persist_changes inv)
  | persistString key => exact .ofLate (persistString_changes inv)
  | del keys => exact .ofLate (del_changes keys inv)
  | removeString key =>
    have hremove : Script (StringChange now key) s _ := removeStringLocal_script inv
    exact hremove.string
  | rename oldKey newKey => exact rename_script inv oldKey newKey
  | flush => exact .ofLate (.single .flush)
  | restoreString key data compressed expiresAt =>
    exact (replaceEntry_script inv (Entry.new_sized _ _ _ _ _)).string
  | restoreRecord valueAlgo key data compressed remaining =>
    exact restoreRecord_script inv valueAlgo data compressed remaining
  | restoreHash key fields expiresAt => exact restoreHash_script inv fields expiresAt
  | hset key pairs => exact .ofEarly (hsetMany_changes pairs inv)
  | hsetnx key field value => exact .ofEarly (hsetnx_changes inv field value)
  | hdel key fields => exact .ofLate (hdelFields_changes inv fields)
  | hincrBy key field delta => exact .ofEarly (incrField_changes inv field 20 _)
  | hincrByFloat key field delta => exact .ofEarly (hincrByFloat_changes inv field delta)
  | hexpire key fields remaining cond =>
    exact .ofLate (hexpire_changes inv fields remaining cond)
  | hpersist key fields => exact .ofLate (hpersist_changes fields inv)
  | applyHashField key field state => exact .ofEarly (applyHashFieldLocal_changes inv field state)
  | expireCycle =>
    have hrounds : Reads now s (s.activeExpireRounds now).2 := (activeExpireRounds_reaps inv).reads
    exact .ofLate (hrounds.changes.tail .shrink)
  | expireRound => exact .ofLate (expireRound_reaps inv).reads.changes
  | _ => exact .ofLate (step_reads inv now rfl).changes

/-- **An operation is a path of moves.** -/
theorem step_moves (inv : Inv s) (now : Instant) (op : Op) : Moves s (s.step now op).2 :=
  (step_script inv now op).moves inv

/-- **A run is a path of moves.** -/
theorem runState_moves (inv : Inv s) (ops : List (Instant × Op)) : Moves s (s.runState ops) := by
  induction ops generalizing s with
  | nil => exact .refl
  | cons head rest ih =>
    obtain ⟨now, op⟩ := head
    have hstep := step_moves inv now op
    exact hstep.trans (ih (Moves.inv hstep inv))

/-- **The invariant holds in every state a run reaches.** -/
theorem Inv.runState (inv : Inv s) (ops : List (Instant × Op)) : Inv (s.runState ops) :=
  Moves.inv (runState_moves inv ops) inv

/-- **Reading and active expiry go unseen**: in every state that a store comes to, what a reader
would see of any key at that time is the same before and after. -/
theorem housekeeping_unseen (s : Store) (hnew : s.IsNew) (ops : List (Instant × Op))
    (now : Instant) (op : Op) (hop : isRead op = true ∨ op = .expireRound ∨ op = .expireCycle) :
    Unseen now (s.runState ops) ((s.runState ops).step now op).2 := by
  have inv : Inv (s.runState ops) := hnew.inv.runState ops
  rcases hop with hread | rfl | rfl
  · exact (step_reads inv now hread).unseen
  · exact (expireRound_reaps inv).reads.unseen
  · -- The tables that shrink keep their entries.
    intro key
    have hrounds : Reads now _ ((s.runState ops).activeExpireRounds now).2 :=
      (activeExpireRounds_reaps inv).reads
    rw [← (hrounds.unseen key).1, ← (hrounds.unseen key).2, step, activeExpireCycle]
    exact ⟨stringView_congr (BucketMap.get_shrinkWhere ..) rfl,
      by simp [hashView, shrinkSparseTables]⟩

omit P in
/-- A round that finds a string expired. -/
theorem housekeeping_unseen_sample :
    letI := Platform.small
    let s := (new ⟨0, .noEviction, ⟨.none, 6, 4⟩⟩).runState [(0, .set "a" [1] (some 50))]
    Unseen 60 s (s.step 60 .expireRound).2 :=
  letI := Platform.small
  housekeeping_unseen _ (new_isNew _) _ 60 .expireRound (.inr (.inl rfl))

end Changes

/-! ## The byte counter -/

/-- **The counter is exact.**  In every state a run from a new store reaches, the
counter is the sum of the charges of all strings, hashes and hints, and no
subtraction from it was ever clamped. -/
theorem memUsed_eq_footprint [Platform] (s : Store) (hnew : s.IsNew)
    (ops : List (Instant × Op)) :
    (s.runState ops).memUsed = (s.runState ops).footprint ∧
      Event.clamped ∉ (s.runState ops).events := by
  have inv := hnew.inv.runState ops
  exact ⟨inv.accounted, inv.unclamped⟩

/-- A run that writes, appends, times, evicts and reaps under a limit of 720
bytes. -/
theorem memUsed_eq_footprint_sample :
    letI := Platform.small
    let s := (new ⟨720, .allKeysLru, CompressionConfig.default⟩).runState
      [(0, .set "a" [1, 2, 3, 4, 5] (some 50)), (1, .hset "h" [("f", [1, 2]), ("g", [3])]),
        (2, .append "a" [9]), (3, .incrBy "n" 41 none), (4, .expire "h" 30),
        (5, .hexpire "h" ["f"] 3 .always), (6, .set "b" [1] none), (60, .expireRound)]
    s.memUsed = 277 ∧ s.events = [.evictedString "a" (some 50)] ∧
      s.memUsed = s.footprint ∧ Event.clamped ∉ s.events := by
  let _ := Platform.small
  exact ⟨by decide, by decide, memUsed_eq_footprint _ (new_isNew _) _⟩

end Store

end Ephpm.Kv
