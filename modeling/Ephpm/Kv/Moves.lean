import Ephpm.Kv.Reads

/-!
# Moves

A `Move` is one elementary change of a store: a string is written and its waiters
are woken, a string keeps its value and gets another deadline, a hash is put, a
slot is watched, and so on.  Making room and reading are paths of moves, and so is
every operation.

A fact about whole runs then needs a proof for one move only.  `Move.inv` is the
first of them: a move keeps the invariant.

The list of moves is short on purpose.  `retime` is the only one that changes an
entry without a wake-up, and it cannot change a value; the only move that forgets
anything about a watched key would be one that is not there.
-/

namespace Ephpm.Kv

open Lib

namespace Store

/-- One elementary change of a store. -/
inductive Move [Platform] : Store → Store → Prop
  | write {s : Store} {key : String} {entry : Option Entry} :
      (∀ e, entry = some e → e.Sized key) → Move s (s.writeString key entry)
  | retime {s : Store} {key : String} {e e' : Entry} :
      s.data.get key = some e → e'.data = e.data → e'.compressed = e.compressed →
        e'.memSize = e.memSize → Move s (s.putString key (some e'))
  | hash {s : Store} {key : String} {entry : Option HashEntry} {hint : Option Instant} :
      (∀ h, entry = some h → h.Charged key) →
        (∀ h, entry = some h → NotLater hint h.earliestDeadline) →
          (entry = none → hint = none) → Move s (s.putHash key entry hint)
  | notify {s : Store} (key : String) : Move s (s.notifyWrite key)
  | watch {s : Store} {key : String} :
      s.watchers.get key = none → Move s (s.watchSlot key).2
  | flush {s : Store} : Move s s.flush
  | shrink {s : Store} : Move s s.shrinkSparseTables
  | record {s : Store} {event : Event} : event ≠ .clamped → Move s (s.record event)
  | resample {s : Store} (hashExpireCursor expireCursor : ℕ) (rng : UInt64)
      (evictionPool : List Victim) (budgets : ℕ → ℕ) :
        Move s (s.resample hashExpireCursor expireCursor rng evictionPool budgets)

/-- Any number of moves. -/
abbrev Moves [Platform] : Store → Store → Prop := Path Move

section Invariant

variable [P : Platform] {s s' : Store} {now : Instant} {key : String}

/-! ## A move keeps the invariant -/

/-- A flush leaves an empty store. -/
theorem Inv.flush (inv : Inv s) : Inv s.flush := by
  have none_of {V : Type} (m : BucketMap String V) (other : String) :
      (m.filter fun _ _ => false).get other = none := by
    rw [BucketMap.get_filter]
    cases m.get other <;> rfl
  refine .of_empty (none_of s.data) (none_of s.hashes) (none_of s.ttlKeys) (none_of s.hashTtlKeys)
    rfl inv.unclamped (fun hslots other => ?_) fun other version hget => ?_
  · change (if s.watchSlots = 0 then s.watchers else _).get other = none
    rw [if_pos (show s.watchSlots = 0 from hslots)]
    exact inv.watched hslots other
  · change (if s.watchSlots = 0 then s.watchers else _).get other = some version at hget
    split at hget
    · exact inv.versioned other version hget
    · rw [BucketMap.get_map, Option.map_eq_some_iff] at hget
      obtain ⟨old, -, rfl⟩ := hget
      exact min_le_right _ _

/-- Tables that shrink keep their entries. -/
theorem Inv.shrinkSparseTables (inv : Inv s) : Inv s.shrinkSparseTables where
  sized key e hget := inv.sized key e (by simpa [Store.shrinkSparseTables] using hget)
  indexed key := by simpa [Store.shrinkSparseTables] using inv.indexed key
  charged key h hget := inv.charged key h (by simpa [Store.shrinkSparseTables] using hget)
  hinted key h hget := by
    simpa [Store.shrinkSparseTables] using
      inv.hinted key h (by simpa [Store.shrinkSparseTables] using hget)
  hintOwned key hget := by
    simpa [Store.shrinkSparseTables] using
      inv.hintOwned key (by simpa [Store.shrinkSparseTables] using hget)
  accounted := by
    simpa [Store.shrinkSparseTables, footprint] using inv.accounted
  unclamped := inv.unclamped
  watched := inv.watched
  versioned := inv.versioned

/-- **A move keeps the invariant.** -/
theorem Move.inv (move : Move s s') (inv : Inv s) : Inv s' := by
  cases move with
  | write sized => exact inv.writeString _ sized
  | retime hget hdata _ hmem => exact inv.retime hget hdata hmem
  | hash charged hinted owned => exact inv.putHash _ charged hinted owned
  | notify key => exact inv.notifyWrite key
  | watch hget => exact inv.watchSlot hget
  | flush => exact inv.flush
  | shrink => exact inv.shrinkSparseTables
  | record hevent => exact inv.record hevent
  | resample _ _ _ _ _ => exact inv.resample _ _ _ _ _

/-- Moves keep the invariant. -/
theorem Moves.inv (moves : Moves s s') (inv : Inv s) : Inv s' :=
  Path.preserves (fun _ _ inv move => move.inv inv) moves inv

omit P in
@[simp] theorem watchSlot_config (key : String) : (s.watchSlot key).2.config = s.config := by
  unfold watchSlot
  split <;> rfl

/-- A move leaves the configuration alone. -/
theorem Move.config (move : Move s s') : s'.config = s.config := by
  cases move with
  | write sized => exact writeString_config _ _ _
  | notify key => exact notifyWrite_config _ _
  | watch hget => exact watchSlot_config _
  | _ => rfl

/-- Moves leave the configuration alone. -/
theorem Moves.config (moves : Moves s s') : s'.config = s.config := by
  induction moves with
  | refl => rfl
  | tail _ move ih => exact move.config.trans ih

theorem Move.moves (move : Move s s') : Moves s s' := .single move

/-! ## Making room and reading -/

/-- Waking is a move, or none. -/
theorem wake_moves (changed : Bool) (key : String) : Moves s (s.wake changed key) := by
  unfold wake
  split
  · exact (Move.notify key).moves
  · exact .refl

/-- Removing a string is a move. -/
theorem remove_move (key : String) : Move s (s.writeString key none) :=
  .write fun _ h => by cases h

/-- Removing a hash is a move. -/
theorem removeHash_move (key : String) : Move s (s.putHash key none none) :=
  .hash (fun _ h => by cases h) (fun _ h => by cases h) fun _ => rfl

/-- A reap of a hash: the hash is put and, if it lost something, waiters wake. -/
theorem reaped_moves (inv : Inv s) {h : HashEntry} (hget : s.hashes.get key = some h) :
    Moves s (s.reaped now key h) := by
  refine .head (.hash (fun left hleft => ?_) (fun left hleft => ?_) fun hnone => ?_)
    (wake_moves _ key)
  · exact settled_charged (inv.charged key h hget) hleft
  · rw [hleft, Option.bind_some]
    exact NotLater.refl _
  · rw [hnone, Option.bind_none]

/-- A reap is a path of moves. -/
theorem ReapStep.moves (step : ReapStep now s s') (inv : Inv s) : Moves s s' := by
  cases step with
  | string hget hexp => exact (remove_move _).moves
  | hash hget => exact reaped_moves inv hget
  | advance _ _ _ => exact (Move.resample _ _ _ _ _).moves

/-- One step of making room is a path of moves. -/
theorem RoomStep.moves (step : RoomStep now s s') (inv : Inv s) : Moves s s' := by
  cases step with
  | reap step => exact step.moves inv
  | evictString hget => exact .head (.record (by simp)) (remove_move _).moves
  | evictHash hget =>
    exact .head (.record (by simp)) (.head (removeHash_move _) (Move.notify _).moves)
  | sample _ _ => exact (Move.resample _ _ _ _ _).moves

/-- **Making room is a path of moves.** -/
theorem Room.moves (room : Room now s s') (inv : Inv s) : Moves s s' :=
  Path.relates (fun _ _ inv step => step.inv inv) (fun _ => .refl) (fun _ _ _ => .trans)
    (fun _ _ inv step => step.moves inv) room inv

/-- **An effect of a read is a path of moves.** -/
theorem ReadStep.moves (step : ReadStep now s s') (inv : Inv s) : Moves s s' := by
  cases step with
  | reap step => exact step.moves inv
  | touchString _ hget => refine Move.moves (.retime hget ?_ ?_ ?_) <;> rfl
  | @touchHash key h nowNanos hget =>
    refine Move.moves (.hash ?_ ?_ nofun)
    · rintro _ ⟨⟩
      exact (inv.charged key h hget).touch nowNanos
    · rintro _ ⟨⟩
      exact inv.hinted key h hget
  | watch hget => exact (Move.watch hget).moves

end Invariant

end Store

end Ephpm.Kv
