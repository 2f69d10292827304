import Ephpm.Kv.Victims

/-!
# Writes under memory pressure

A write that needs room may have to evict for it, and nothing exempts the key that is
being written from the sample the victims are taken from.  This file compares each
write with the same write on the **unlimited** store, the same store without a memory
limit.

A write on a live string is `Sound` if it is refused and leaves the string alone, or
answers and stores what it would on the unlimited store, and if the value it is
computed from survives the making of room.  `sound_iff` says exactly when, in terms of
the state before (`Unharmed`): `INCR` is sound always; `APPEND` and a compare-and-set
unless the key is among the first candidates that cover what is missing; `SET` and
`RENAME`, which do not read the key again, unless the room is refused under
`volatile-lru` to the cost of the key.  `append_loses_value` is an append that loses
the value it appends to.
-/

namespace Ephpm.Kv

open Lib

namespace Store

/-! ## The unlimited store -/

/-- The same store without a memory limit. -/
def unlimited (s : Store) : Store := { s with config := { s.config with memoryLimit := 0 } }

section Unlimited

variable [P : Platform] {s : Store}

theorem Inv.unlimited (inv : Inv s) : Inv s.unlimited := { inv with }

/-- The unlimited store always has room. -/
theorem unlimited_ensureMemory (now : Instant) (needed : ℕ) :
    s.unlimited.ensureMemory now needed = (true, s.unlimited) := ensureMemory_unlimited rfl now needed

end Unlimited

/-! ## Sound writes -/

section Sound

variable [P : Platform]

/-- The writes on the string `key` that are compared. -/
inductive Presses (key : String) : Op → Prop
  | set (value : Bytes) (ttl : Option Duration) : Presses key (.set key value ttl)
  | setIfEq (expected value : Bytes) (ttl : SetTtl) : Presses key (.setIfEq key expected value ttl)
  | append (value : Bytes) : Presses key (.append key value)
  | incrBy (delta : ℤ) (ttl : Option Duration) : Presses key (.incrBy key delta ttl)
  | rename (newKey : String) : Presses key (.rename key newKey)

omit P in
/-- The answers by which those writes report that they were refused. -/
def refusal : Reply → Bool
  | .flag false => true
  | .setIfEq .outOfMemory => true
  | .length none => true
  | .number (.error text) => text = oomError
  | .renamed .outOfMemory => true
  | _ => false

omit P in
/-- The name a write on `key` leaves its result under. -/
def target (key : String) : Op → String
  | .rename _ newKey => newKey
  | _ => key

/-- The bytes a write reserves before it reads `key` once more to compute its
result. -/
def reads (now : Instant) (key : String) (op : Op) (s : Store) : Option ℕ :=
  match op with
  | .setIfEq _ expected value ttl =>
    (s.data.get key).bind fun e =>
      if s.entryEquals e expected then some (s.swapGrowth now key value ttl e) else none
  | .append _ value => some value.length
  | _ => none

/-- **A sound write**: it is refused and a reader sees the string at `key` as before,
or it answers and leaves what it would without a limit; and the value it is computed
from survives the making of room. -/
def Sound (now : Instant) (key : String) (op : Op) (s : Store) : Prop :=
  let after := s.step now op
  let ideal := s.unlimited.step now op
  (refusal after.1 = true ∧ after.2.stringView now key = s.stringView now key ∨
      after.1 = ideal.1 ∧ ∀ name ∈ [key, target key op],
        after.2.stringView now name = ideal.2.stringView now name) ∧
    ∀ needed ∈ s.reads now key op,
      (s.ensureMemory now needed).2.stringView now key = s.stringView now key

/-- The store once `key` was read: the access clock of a string that is there is set. -/
def touched (now : Instant) (key : String) (s : Store) : Store :=
  match s.data.get key with
  | none => s
  | some e => s.putString key (some (e.touch (s.nowNanos now)))

omit P in
/-- The deadline that `RENAME` carries over, through an answer in milliseconds. -/
def carried (now : Instant) (expiresAt : Option Instant) : Option Instant :=
  (renameTtl (some (expiresAt.elim (-1) fun deadline => millis (deadline - now)))).map (now + ·)

/-- The bytes `RENAME` reserves for the copy of a string under `newKey`. -/
def copyGrowth (now : Instant) (newKey : String) (value : Bytes) (expiresAt : Option Instant)
    (s : Store) : ℕ :=
  replaceGrowth newKey (s.written now newKey value (carried now expiresAt)) (s.data.get newKey)

/-- **When a write is sound**: the reservation of a write that reads the key again does not reach
it; for `SET` and `RENAME` a reservation that is refused is not at its cost. -/
def Unharmed (now : Instant) (key : String) (op : Op) (s : Store) : Prop :=
  match op with
  | .set _ value ttl =>
    let needed := replaceGrowth key (s.written now key value (ttl.map (now + ·))) (s.data.get key)
    s.Refuses now needed → ¬ s.Drains now needed (key, false)
  | .rename _ newKey =>
    ∀ e value, s.data.get key = some e → e.plain s.config.compression.algo = some value →
      let read := s.touched now key
      let needed := read.copyGrowth now newKey value e.expiresAt
      read.Refuses now needed → ¬ read.Drains now needed (key, false)
  | op => ∀ needed ∈ s.reads now key op, ¬ s.Reaches now needed (key, false)

variable {s : Store} {now : Instant} {key : String} {e : Entry} (inv : Inv s)
  (hget : s.data.get key = some e) (hlive : e.isExpired now = false)

include inv hget hlive

/-- A live string is seen as before unless making room reaches it. -/
theorem stringView_room_iff (needed : ℕ) :
    (s.ensureMemory now needed).2.stringView now key = s.stringView now key ↔
      ¬ s.Reaches now needed (key, false) := by
  rw [(views_ensureMemory inv now needed key).1, stringView_of_live hget hlive]
  split
  next hreached => simp [hreached]
  next hspared => simp [hspared]

omit inv in
theorem seen_of_live : s.Seen now (key, false) := by
  change (s.stringView now key).isSome = true
  rw [stringView_of_live hget hlive]
  rfl

theorem set_sound_iff (value : Bytes) (ttl : Option Duration) :
    s.Sound now key (.set key value ttl) ↔ s.Unharmed now key (.set key value ttl) := by
  set needed := replaceGrowth key (s.written now key value (ttl.map (now + ·)))
    (s.data.get key) with hneeded
  have hview := stringView_room_iff inv hget hlive needed
  have hspared : Spared now s (s.ensureMemory now needed).2 := ensureMemory_spared inv needed
  have hafter : s.step now (.set key value ttl) = answer .flag
      ((s.ensureMemory now needed).1, if (s.ensureMemory now needed).1 then
        (s.ensureMemory now needed).2.writeString key (some (s.written now key value
          (ttl.map (now + ·)))) else (s.ensureMemory now needed).2) :=
    congrArg (answer .flag) (replaceEntry_eq inv _)
  have hideal : s.unlimited.step now (.set key value ttl) = answer .flag
      (true, s.unlimited.writeString key (some (s.written now key value (ttl.map (now + ·))))) := by
    refine congrArg (answer .flag) ((replaceEntry_eq inv.unlimited _).trans ?_)
    simp only [unlimited_ensureMemory, if_true]
    rfl
  rw [Sound, hafter, hideal]
  have hrefuses := ensureMemory_refused_iff inv now needed
  cases hgranted : (s.ensureMemory now needed).1 with
  | true =>
    rw [hgranted] at hrefuses
    simp [Unharmed, answer, reads, target, stringView, hspared.config, unlimited, ← hneeded,
      ← hrefuses]
  | false =>
    have hrefused := hrefuses.mp hgranted
    have hdrains := refused_reaches_iff inv hrefused (seen_of_live hget hlive)
    simp [Unharmed, answer, reads, refusal, ← hneeded, hview, hrefused, hdrains]

/-- A write that reserves, looks at its key again and then replaces the entry is sound
exactly if the reservation does not evict the key. -/
theorem reread_sound_iff {op : Op} {needed : ℕ} {reply refused : Reply} {new : Entry}
    {lost : Reply × Store} (hreads : s.reads now key op = some needed)
    (htarget : target key op = key) (hrefused : refusal refused = true)
    (hafter : s.step now op =
      if (s.ensureMemory now needed).1 then
        if ((s.ensureMemory now needed).2.data.get key).isSome then
          (reply, (s.ensureMemory now needed).2.writeString key (some new))
        else lost
      else (refused, (s.ensureMemory now needed).2))
    (hideal : s.unlimited.step now op = (reply, s.unlimited.writeString key (some new))) :
    s.Sound now key op ↔ ¬ s.Reaches now needed (key, false) := by
  have hview := stringView_room_iff inv hget hlive needed
  have hspared : Spared now s (s.ensureMemory now needed).2 := ensureMemory_spared inv needed
  constructor
  · intro hsound
    exact hview.mp (hsound.2 needed hreads)
  · intro hkept
    have hstays : (s.ensureMemory now needed).2.data.get key = some e := by
      rcases inv.get_room now needed key with hsame | hgone
      · rw [hsame, hget]
      · have hsame := hview.mpr hkept
        rw [stringView_of_absent hgone, stringView_of_live hget hlive] at hsame
        cases hsame
    refine ⟨?_, fun needed' hneeded' => ?_⟩
    · rw [hafter, hideal]
      by_cases hgranted : (s.ensureMemory now needed).1 = true
      · refine Or.inr ⟨by simp [hgranted, hstays], fun name mem => ?_⟩
        obtain rfl : name = key := by simpa [htarget] using mem
        simp [hgranted, hstays, stringView, hspared.config, unlimited]
      · rw [if_neg hgranted]
        exact Or.inl ⟨hrefused, hview.mpr hkept⟩
    · obtain rfl : needed = needed' := by simpa [hreads] using hneeded'
      exact hview.mpr hkept

omit inv hget hlive in
/-- A write that does not look at the limit is sound. -/
theorem sound_of_same {op : Op} (hreads : s.reads now key op = none)
    (htarget : target key op = key)
    (hreply : (s.step now op).1 = (s.unlimited.step now op).1)
    (hview : (s.step now op).2.stringView now key = (s.unlimited.step now op).2.stringView now key) :
    s.Sound now key op := by
  refine ⟨Or.inr ⟨hreply, fun name mem => ?_⟩, fun needed mem => ?_⟩
  · obtain rfl : name = key := by simpa [htarget] using mem
    exact hview
  · rw [hreads] at mem
    cases mem

theorem setIfEq_sound_iff (expected value : Bytes) (ttl : SetTtl) :
    s.Sound now key (.setIfEq key expected value ttl) ↔
      s.Unharmed now key (.setIfEq key expected value ttl) := by
  have hafter : s.step now (.setIfEq key expected value ttl) = answer .setIfEq _ :=
    congrArg (answer .setIfEq) (setIfEqLocal_eq inv expected value ttl)
  have hideal : s.unlimited.step now (.setIfEq key expected value ttl) = answer .setIfEq _ :=
    congrArg (answer .setIfEq) (setIfEqLocal_eq inv.unlimited expected value ttl)
  have hget' : s.unlimited.data.get key = some e := hget
  have hequals : s.unlimited.entryEquals e expected = s.entryEquals e expected := rfl
  simp only [hget, hget', hlive, Bool.not_false, Bool.true_and, hequals] at hafter hideal
  by_cases hmatch : s.entryEquals e expected = true
  · have hreads : s.reads now key (.setIfEq key expected value ttl) =
        some (s.swapGrowth now key value ttl e) := by simp [reads, hget, hmatch]
    rw [if_pos hmatch] at hafter hideal
    simp only [unlimited_ensureMemory, hget', Option.isSome_some, if_true] at hideal
    rw [apply_ite (answer .setIfEq), apply_ite (answer .setIfEq)] at hafter
    have hiff := reread_sound_iff inv hget hlive hreads rfl rfl hafter hideal
    rw [hiff]
    simp [Unharmed, hreads]
  · have hreads : s.reads now key (.setIfEq key expected value ttl) = none := by
      simp [reads, hget, hmatch]
    rw [if_neg hmatch] at hafter hideal
    refine iff_of_true (sound_of_same hreads rfl ?_ ?_) ?_
    · rw [hafter, hideal]
      rfl
    · rw [hafter, hideal]
      rfl
    · simp [Unharmed, hreads]

theorem append_sound_iff (value : Bytes) :
    s.Sound now key (.append key value) ↔ s.Unharmed now key (.append key value) := by
  have hafter : s.step now (.append key value) = answer .length _ :=
    congrArg (answer .length) (append_eq inv value)
  have hideal : s.unlimited.step now (.append key value) = answer .length _ :=
    congrArg (answer .length) (append_eq inv.unlimited value)
  have hget' : s.unlimited.data.get key = some e := hget
  simp only [hget, hget', hlive, Bool.false_eq_true, if_false, unlimited_ensureMemory,
    Option.isSome_some, if_true] at hafter hideal
  rw [apply_ite (answer .length), apply_ite (answer .length)] at hafter
  have hiff := reread_sound_iff inv hget hlive rfl rfl rfl hafter hideal
  rw [hiff]
  simp [Unharmed, reads]

/-- An `INCR` that updates a number reserves nothing. -/
theorem incrBy_sound (delta : ℤ) (ttl : Option Duration) :
    s.Sound now key (.incrBy key delta ttl) := by
  have hupdate (t : Store) (invT : Inv t) (hgetT : t.data.get key = some e) :
      t.step now (.incrBy key delta ttl) = answer .number (t.incrUpdate now key delta e) := by
    refine congrArg (answer .number) ((incrByWithTtl_eq invT delta ttl).trans ?_)
    simp only [hgetT, hlive, Bool.false_eq_true, if_false]
  have hafter := hupdate s inv hget
  have hideal := hupdate s.unlimited inv.unlimited hget
  have hsame : s.stringView now key = s.unlimited.stringView now key := rfl
  rw [incrUpdate_eq inv hget] at hafter
  rw [incrUpdate_eq inv.unlimited hget] at hideal
  have halgo : s.unlimited.config.compression.algo = s.config.compression.algo := rfl
  rw [halgo] at hideal
  refine sound_of_same rfl rfl ?_ ?_
  · rw [hafter, hideal]
    split
    · rfl
    · split
      · rfl
      · split <;> rfl
  · rw [hafter, hideal]
    split
    · exact hsame
    · split
      · exact hsame
      · split
        · exact hsame
        · show (writeString key _ s).stringView now key = (writeString key _ s.unlimited).stringView now key
          rw [stringView_writeString, stringView_writeString]
          rfl

omit P inv hlive in
theorem touched_of_get : s.touched now key = s.putString key (some (e.touch (s.nowNanos now))) := by
  simp only [touched, hget]

omit P inv hlive in
theorem touched_get : (s.touched now key).data.get key = some (e.touch (s.nowNanos now)) := by
  simp [touched_of_get hget, putString]

omit hlive in
theorem Inv.touched : Inv (s.touched now key) := by
  rw [touched_of_get hget]
  exact inv.retime hget rfl rfl

/-- `RENAME` reads its key, makes room for the copy, writes it and removes the old name. -/
theorem rename_eq (newKey : String) {w : Bytes} (hvalue : e.plain s.config.compression.algo = some w) :
    s.rename now key newKey =
      let read := s.touched now key
      let room := read.ensureMemory now (read.copyGrowth now newKey w e.expiresAt)
      if room.1 then
        (.ok, ((room.2.writeString newKey
          (some (read.written now newKey w (carried now e.expiresAt)))).removeLocal now key).2)
      else (.outOfMemory, room.2) := by
  have hfirst : s.get now key = (some w, s.touched now key) := by
    rw [get_eq inv, touched_of_get hget]
    simp only [hget, hlive, Bool.false_eq_true, if_false, hvalue]
  have hleft : (s.touched now key).pttl now key =
      (some (e.expiresAt.elim (-1) fun deadline => millis (deadline - now)), s.touched now key) := by
    unfold pttl
    simp only [touched_get hget, Entry.isExpired_touch, hlive, Bool.false_eq_true, if_false]
    rfl
  set read := s.touched now key
  set room := read.ensureMemory now (read.copyGrowth now newKey w e.expiresAt) with hroom
  have hset : read.setLocal now newKey w
      (renameTtl (some (e.expiresAt.elim (-1) fun deadline => millis (deadline - now)))) =
        (room.1, if room.1 then room.2.writeString newKey
          (some (read.written now newKey w (carried now e.expiresAt))) else room.2) :=
    replaceEntry_eq (inv.touched hget) _
  unfold rename
  simp only [hfirst, hleft, hset]
  cases room.1 <;> rfl

omit inv hlive in
/-- Nobody sees that a string was read. -/
theorem touched_unseen : Unseen now s (s.touched now key) := by
  rw [touched_of_get hget]
  exact (ReadStep.touchString _ hget).unseen

theorem rename_sound_iff (newKey : String) {w : Bytes}
    (hvalue : e.plain s.config.compression.algo = some w) :
    s.Sound now key (.rename key newKey) ↔ s.Unharmed now key (.rename key newKey) := by
  have invRead : Inv (s.touched now key) := inv.touched hget
  have hsame : s.unlimited.touched now key = (s.touched now key).unlimited := by
    have hget' : s.unlimited.data.get key = some e := hget
    rw [touched_of_get hget, touched_of_get hget']
    rfl
  have hstep : s.step now (.rename key newKey) = answer .renamed _ :=
    congrArg (answer .renamed) (rename_eq inv hget hlive newKey hvalue)
  have hstep' : s.unlimited.step now (.rename key newKey) = answer .renamed _ :=
    congrArg (answer .renamed) (rename_eq (s := s.unlimited) inv.unlimited hget hlive newKey hvalue)
  rw [hsame] at hstep'
  set read := s.touched now key with hread
  set needed := read.copyGrowth now newKey w e.expiresAt with hneeded
  set entry := read.written now newKey w (carried now e.expiresAt)
  have hspared : Spared now read (read.ensureMemory now needed).2 := ensureMemory_spared invRead needed
  have hview := stringView_room_iff invRead (touched_get hget) hlive needed
  rw [(touched_unseen hget key).1] at hview
  have hunharmed : s.Unharmed now key (.rename key newKey) ↔
      (read.Refuses now needed → ¬ read.Drains now needed (key, false)) := by
    constructor
    · intro h
      exact h e w hget hvalue
    · rintro h e' w' hget' hvalue'
      obtain rfl := Option.some.inj (hget.symm.trans hget')
      obtain rfl := Option.some.inj (hvalue.symm.trans hvalue')
      exact h
  have hrefuses := ensureMemory_refused_iff invRead now needed
  simp only [unlimited_ensureMemory, if_true] at hstep'
  simp only [← hneeded] at hstep
  rw [hunharmed, Sound, hstep, hstep']
  cases hgranted : (read.ensureMemory now needed).1 with
  | true =>
    rw [hgranted] at hrefuses
    refine iff_of_true ⟨Or.inr ⟨rfl, fun name mem => ?_⟩, fun _ mem => by cases mem⟩ fun h =>
      absurd (hrefuses.mpr h) nofun
    have hsized : ∀ e', some entry = some e' → e'.Sized newKey := fun e' he' => by
      obtain rfl := Option.some.inj he'
      exact Entry.new_sized _ _ _ _ _
    show (removeLocal now key (writeString newKey (some entry) _)).2.stringView now name =
      (removeLocal now key (writeString newKey (some entry) _)).2.stringView now name
    rw [stringView_removeLocal ((invRead.ensureMemory now needed).writeString newKey hsized),
      stringView_removeLocal (invRead.unlimited.writeString newKey hsized)]
    split
    · rfl
    next hname =>
      obtain rfl : name = newKey := by simpa [hname, target] using mem
      rw [stringView_writeString, stringView_writeString, if_pos rfl, if_pos rfl, hspared.config]
      rfl
  | false =>
    have hrefused := hrefuses.mp hgranted
    have hdrains := refused_reaches_iff invRead hrefused (seen_of_live (touched_get hget) hlive)
    simp [answer, refusal, reads, hrefused, ← hdrains, ← hview]

omit hlive in
theorem unlimited_append (lossless : P.Lossless) (hlive : e.isExpired now = false) {w : Bytes}
    (hvalue : e.plain s.config.compression.algo = some w) (value : Bytes) :
    (s.unlimited.step now (.append key value)).1 = .length (some (w.length + value.length)) ∧
      (s.unlimited.step now (.append key value)).2.stringView now key =
        some (some (w ++ value), e.expiresAt) := by
  have hideal : s.unlimited.step now (.append key value) = answer .length _ :=
    congrArg (answer .length) (append_eq inv.unlimited value)
  have hget' : s.unlimited.data.get key = some e := hget
  have hvalue' : e.plain s.unlimited.config.compression.algo = some w := hvalue
  simp only [hget', hlive, Bool.false_eq_true, if_false, unlimited_ensureMemory,
    Option.isSome_some, if_true, hvalue', Option.getD_some, List.length_append] at hideal
  rw [hideal]
  refine ⟨rfl, ?_⟩
  set new := s.unlimited.rewritten now key e (w ++ value) with hnew
  have hplain : new.plain s.unlimited.config.compression.algo = some (w ++ value) :=
    encodeValue_plain lossless s.unlimited.config (w ++ value) rfl rfl
  have hnewLive : new.isExpired now = false := hlive
  show (s.unlimited.writeString key (some new)).stringView now key = _
  rw [stringView_writeString, if_pos rfl, Option.filter_some, hnewLive]
  show some (new.plain s.unlimited.config.compression.algo, e.expiresAt) = _
  rw [hplain]

end Sound

/-- **Writes under memory pressure.**  A write on a live string is sound exactly if the
room it asks for is not made by evicting that string: it is refused and leaves the
string alone, or it answers and stores what it would on the unlimited store, which for
an append is the concatenation and its length. -/
theorem sound_iff [P : Platform] (lossless : P.Lossless) {s : Store} (inv : Inv s) (now : Instant)
    (key : String) {e : Entry} {w : Bytes} (hget : s.data.get key = some e)
    (hlive : e.isExpired now = false) (hvalue : e.plain s.config.compression.algo = some w)
    (op : Op) (hop : Presses key op) :
    (s.Sound now key op ↔ s.Unharmed now key op) ∧
      ∀ value, op = .append key value →
        (s.unlimited.step now op).1 = .length (some (w.length + value.length)) ∧
          (s.unlimited.step now op).2.stringView now key =
            some (some (w ++ value), e.expiresAt) := by
  constructor
  · cases hop with
    | set value ttl => exact set_sound_iff inv hget hlive value ttl
    | setIfEq expected value ttl => exact setIfEq_sound_iff inv hget hlive expected value ttl
    | append value => exact append_sound_iff inv hget hlive value
    | incrBy delta ttl =>
      exact iff_of_true (incrBy_sound inv hget hlive delta ttl) fun _ mem => by cases mem
    | rename newKey => exact rename_sound_iff inv hget hlive newKey hvalue
  · rintro value rfl
    exact unlimited_append inv hget lossless hlive hvalue value

/-- An append that evicts an older key and keeps the one it appends to. -/
theorem sound_iff_sample :
    letI := Platform.small
    let s := (new ⟨283, .allKeysLru, CompressionConfig.default⟩).runState
      [(0, .set "a" [1] none), (200000000, .set "k" [2, 3] none)]
    s.Sound 200000001 "k" (.append "k" [4, 5, 6, 7, 8, 9, 10]) ∧
      (s.step 200000001 (.append "k" [4, 5, 6, 7, 8, 9, 10])).1 = .length (some 9) ∧
      (s.step 200000001 (.append "k" [4, 5, 6, 7, 8, 9, 10])).2.events =
        [.evictedString "a" none] := by
  let _ := Platform.small
  set s := (new ⟨283, .allKeysLru, CompressionConfig.default⟩).runState
    [(0, .set "a" [1] none), (200000000, .set "k" [2, 3] none)] with hs
  have inv : Inv s := (new_isNew _).inv.runState _
  have hget : s.data.get "k" = some ⟨[2, 3], false, none, 200000000, 139⟩ := by decide
  have hunharmed : s.Unharmed 200000001 "k" (.append "k" [4, 5, 6, 7, 8, 9, 10]) := by
    intro needed mem
    obtain rfl : 7 = needed := Option.some.inj mem
    decide
  exact ⟨(sound_iff Platform.small_lossless inv 200000001 "k" hget rfl rfl _ (.append _)).1.mpr
    hunharmed, by decide, by decide⟩

/-- **An append can lose the value it appends to**: the bytes are reserved by evicting
the key itself, and what is left is the appended part. -/
theorem append_loses_value :
    letI := Platform.small
    ¬ ∀ (s : Store) (e : Entry) (w : Bytes) (now : Instant) (key : String) (op : Op), Inv s →
        s.data.get key = some e → e.isExpired now = false →
          e.plain s.config.compression.algo = some w → Presses key op → s.Sound now key op := by
  let _ := Platform.small
  intro hclaim
  set s := (new ⟨142, .allKeysLru, CompressionConfig.default⟩).runState
    [(0, .set "k" [1] none)] with hs
  have hsound := hclaim s ⟨[1], false, none, 0, 138⟩ [1] 1 "k" (.append "k" [2, 3, 4, 5, 6])
    ((new_isNew _).inv.runState _) (by decide) rfl rfl (.append _)
  rcases hsound.1 with ⟨hrefused, -⟩ | ⟨hreply, -⟩
  · exact absurd hrefused (by decide)
  · -- Five bytes instead of six.
    exact absurd hreply (by decide)

end Store

end Ephpm.Kv
