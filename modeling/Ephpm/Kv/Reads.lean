import Ephpm.Kv.Forms

/-!
# What a read can do

Reading is not quite without effect: a read reaps what it finds expired, touches the
access clock of what it finds live, and a waiter's first look creates a slot.
`ReadStep` lists these effects, `step_reads` says that every read of the store is a
sequence of them, and `Reads.unseen` that no reader can tell.
-/

namespace Ephpm.Kv

open Lib

namespace Store

/-! ## What a reader sees of a string -/

section View

variable [P : Platform]

/-- What a reader at `now` sees of the string at `key`: its value and its expiry. -/
def stringView (now : Instant) (key : String) (s : Store) :
    Option (Option Bytes × Option Instant) :=
  ((s.data.get key).filter (!·.isExpired now)).map fun e =>
    (e.plain s.config.compression.algo, e.expiresAt)

/-- What a reader sees depends on the entry and on the algorithm only. -/
theorem stringView_congr {now : Instant} {key : String} {s t : Store}
    (hget : t.data.get key = s.data.get key) (hconfig : t.config.compression = s.config.compression) :
    t.stringView now key = s.stringView now key := by
  rw [stringView, stringView, hget, hconfig]

/-- A live string is seen. -/
theorem stringView_of_live {now : Instant} {key : String} {s : Store} {e : Entry}
    (hget : s.data.get key = some e) (hlive : e.isExpired now = false) :
    s.stringView now key = some (e.plain s.config.compression.algo, e.expiresAt) := by
  simp [stringView, hget, hlive]

/-- What is not there is not seen. -/
theorem stringView_of_absent {now : Instant} {key : String} {s : Store}
    (hget : s.data.get key = none) : s.stringView now key = none := by
  simp [stringView, hget]

/-- A write changes what a reader sees of its own key only. -/
theorem stringView_writeString (now : Instant) (key name : String) (entry : Option Entry)
    (s : Store) :
    (s.writeString key entry).stringView now name =
      if name = key then (entry.filter (!·.isExpired now)).map fun e =>
        (e.plain s.config.compression.algo, e.expiresAt)
      else s.stringView now name := by
  simp only [stringView, writeString_data, writeString_config, BucketMap.get_set]
  split <;> rfl

/-- A removal is seen at its own key only. -/
theorem stringView_removeLocal {s : Store} (inv : Inv s) (now : Instant) (key name : String) :
    (s.removeLocal now key).2.stringView now name =
      if name = key then none else s.stringView now name := by
  have hconfig : (s.removeLocal now key).2.config = s.config := by
    rw [removeLocal_snd inv]
    split <;> simp [putHash]
  simp only [stringView, removeLocal_data_get inv, hconfig]
  split <;> rfl

end View

/-! ## Effects of a read -/

/-- One effect of a read. -/
inductive ReadStep (now : Instant) : Store → Store → Prop
  | reap {s s' : Store} : ReapStep now s s' → ReadStep now s s'
  | touchString {s : Store} {key : String} {e : Entry} (nowNanos : ℕ) :
      s.data.get key = some e → ReadStep now s (s.putString key (some (e.touch nowNanos)))
  | touchHash {s : Store} {key : String} {h : HashEntry} (nowNanos : ℕ) :
      s.hashes.get key = some h →
        ReadStep now s (s.putHash key (some (h.touch nowNanos)) (s.hashTtlKeys.get key))
  | watch {s : Store} {key : String} :
      s.watchers.get key = none → ReadStep now s (s.watchSlot key).2

/-- Any number of those effects. -/
abbrev Reads (now : Instant) : Store → Store → Prop := Path (ReadStep now)

/-- The operations that only read. -/
def isRead : Op → Bool
  | .get _ | .existsKey _ | .pttl _ | .ttl _ | .keys _ | .scan _ _ _ _ | .wait _ _ | .type _ => true
  | .hget _ _ | .hmget _ _ | .hgetall _ | .hkeys _ | .hvals _ | .hlen _ => true
  | .hexists _ _ | .hstrlen _ _ | .hpttl _ _ => true
  | _ => false

section Reads

variable [P : Platform] {s s' : Store} {now : Instant} {key : String}

/-- A string with another deadline keeps the invariant. -/
theorem Inv.retime (inv : Inv s) {e e' : Entry} (hget : s.data.get key = some e)
    (hdata : e'.data = e.data) (hmem : e'.memSize = e.memSize) :
    Inv (s.putString key (some e')) := by
  refine inv.putString key ?_
  rintro _ ⟨⟩
  rw [Entry.Sized, hmem, hdata]
  exact inv.sized key e hget

/-- A slot of a key that was not watched keeps the invariant. -/
theorem Inv.watchSlot (inv : Inv s) (hget : s.watchers.get key = none) :
    Inv (s.watchSlot key).2 := by
  rw [Store.watchSlot, hget]
  refine { inv with
    watched := fun h => absurd h (Nat.succ_ne_zero _)
    versioned := fun other version hother => ?_ }
  rw [BucketMap.get_insert] at hother
  split at hother
  · obtain rfl := Option.some.inj hother
    decide
  · exact inv.versioned other version hother

/-- An effect of a read keeps the invariant. -/
theorem ReadStep.inv (step : ReadStep now s s') (inv : Inv s) : Inv s' := by
  cases step with
  | reap step => exact step.inv inv
  | touchString _ hget => exact inv.retime hget rfl rfl
  | @touchHash key h nowNanos hget =>
    refine inv.putHash key ?_ ?_ nofun
    · rintro _ ⟨⟩
      exact (inv.charged key h hget).touch nowNanos
    · rintro _ ⟨⟩
      show NotLater (s.hashTtlKeys.get key) h.earliestDeadline
      exact inv.hinted key h hget
  | watch hget => exact inv.watchSlot hget

/-- Reading keeps the invariant. -/
theorem Reads.inv (reads : Reads now s s') (inv : Inv s) : Inv s' :=
  Path.preserves (fun _ _ inv step => step.inv inv) reads inv

omit P in
theorem reap_reads (hreap : ReapStep now s s') : Reads now s s' :=
  Relation.ReflTransGen.single (.reap hreap)

/-- Asking for a hash only reads. -/
theorem isHash_reads (inv : Inv s) : Reads now s (s.isHash now key).2 := by
  rw [isHash_eq inv]
  split
  · exact .refl
  next h hget =>
    split
    · exact reap_reads (.hash hget)
    · exact .refl

/-- `exists` only reads. -/
theorem existsKey_reads (inv : Inv s) : Reads now s (s.existsKey now key).2 := by
  rw [existsKey_eq inv]
  split
  · exact isHash_reads inv
  next e hget =>
    split
    next hexp =>
      have hreap : ReadStep now s (s.writeString key none) := .reap (.string hget hexp)
      exact .head hreap (isHash_reads (hreap.inv inv))
    next => exact .refl

/-- `pttl` only reads. -/
theorem pttl_reads (inv : Inv s) : Reads now s (s.pttl now key).2 := by
  rw [pttl_eq inv]
  split
  · exact .refl
  next e hget =>
    split
    next hexp => exact reap_reads (.string hget hexp)
    next => exact .refl

/-- `get` only reads. -/
theorem get_reads (inv : Inv s) : Reads now s (s.get now key).2 := by
  rw [get_eq inv]
  split
  · exact .refl
  next e hget =>
    split
    next hexp => exact reap_reads (.string hget hexp)
    next => exact Relation.ReflTransGen.single (.touchString _ hget)

omit P in
/-- Watching only reads. -/
theorem watchSlot_reads : Reads now s (s.watchSlot key).2 := by
  cases hget : s.watchers.get key with
  | none => exact Relation.ReflTransGen.single (.watch hget)
  | some version =>
    rw [watchSlot, hget]

/-- Waiting only reads. -/
theorem waitForChange_reads (inv : Inv s) (lastVersion : ℕ) :
    Reads now s (s.waitForChange now key lastVersion).2 := by
  have hslot : Reads now s (s.watchSlot key).2 := watchSlot_reads
  unfold waitForChange
  simp only
  split
  · exact hslot.trans (get_reads (hslot.inv inv))
  · exact hslot

/-- `type` only reads. -/
theorem type_reads (inv : Inv s) : Reads now s (s.type now key).2 := by
  have hhash : Reads now s (s.isHash now key).2 := isHash_reads inv
  unfold type
  simp only
  split
  · exact hhash
  · exact hhash.trans (existsKey_reads (hhash.inv inv))

/-- Every read of a hash only reads. -/
theorem hashRead_reads {R : Type} (inv : Inv s) (read : HashEntry → R) :
    Reads now s (s.hashRead now key read).2 := by
  rw [hashRead_eq inv]
  split
  · exact .refl
  next h hget =>
    split
    · exact reap_reads (.hash hget)
    · split
      · exact Relation.ReflTransGen.single (.touchHash _ hget)
      · exact .refl

/-- **A read only reaps, touches and watches.** -/
theorem step_reads (inv : Inv s) (now : Instant) {op : Op} (hread : isRead op = true) :
    Reads now s (s.step now op).2 := by
  cases op with
  | get key => exact get_reads inv
  | existsKey key => exact existsKey_reads inv
  | pttl key => exact pttl_reads inv
  | ttl key => exact pttl_reads inv
  | keys matching => exact .refl
  | scan cursor matching count kind => exact .refl
  | wait key lastVersion => exact waitForChange_reads inv lastVersion
  | type key => exact type_reads inv
  | hget key field => exact hashRead_reads inv fun h => (h.live field now).map (·.value)
  | hmget key fields => exact hashRead_reads inv _
  | hgetall key => exact hashRead_reads inv _
  | hkeys key => exact hashRead_reads inv _
  | hvals key => exact hashRead_reads inv _
  | hlen key => exact hashRead_reads inv _
  | hexists key field => exact hashRead_reads inv _
  | hstrlen key field => exact hashRead_reads inv _
  | hpttl key fields => exact hashRead_reads inv _
  | _ => cases hread

/-- Every reader sees the same. -/
def Unseen (now : Instant) (s s' : Store) : Prop :=
  ∀ key, s'.stringView now key = s.stringView now key ∧ s'.hashView now key = s.hashView now key

/-- An effect of a read goes unseen. -/
theorem ReadStep.unseen (step : ReadStep now s s') : Unseen now s s' := by
  intro name
  cases step with
  | reap step =>
    cases step with
    | @string key e hget hexp =>
      refine ⟨?_, by simp [hashView]⟩
      rw [stringView_writeString]
      split
      next hname => simp [stringView, hname, hget, hexp]
      next => rfl
    | @hash key h hget =>
      refine ⟨stringView_congr (by simp [reaped, putHash]) (by simp [reaped, putHash]), ?_⟩
      rw [reaped, hashView, wake_hashes, ← hashView, hashView_putHash]
      split
      next hname => rw [hname, hashView, hget, Option.bind_some, liveView_settled]
      next => rfl
    | advance => exact ⟨rfl, rfl⟩
  | @touchString key e nowNanos hget =>
    refine ⟨?_, rfl⟩
    simp only [stringView, putString, BucketMap.get_set]
    split
    next hname =>
        rw [hname, hget, Option.filter_some, Option.filter_some, Entry.isExpired_touch]
        split <;> rfl
    next => rfl
  | @touchHash key h nowNanos hget =>
    refine ⟨stringView_congr rfl rfl, ?_⟩
    rw [hashView_putHash]
    split
    next hname =>
        rw [hname, hashView, hget]
        rfl
    next => rfl
  | watch hget =>
    rw [watchSlot, hget]
    exact ⟨rfl, rfl⟩

/-- Reading goes unseen. -/
theorem Reads.unseen (reads : Reads now s s') : Unseen now s s' := by
  induction reads with
  | refl => exact fun _ => ⟨rfl, rfl⟩
  | tail _ step ih =>
    exact fun key => ⟨(step.unseen key).1.trans (ih key).1, (step.unseen key).2.trans (ih key).2⟩

omit P in
/-- Reaping is one effect of reading. -/
theorem Reaps.reads (reaps : Reaps now s s') : Reads now s s' :=
  Relation.ReflTransGen.mono (fun _ _ => .reap) _ _ reaps

end Reads

end Store

end Ephpm.Kv
