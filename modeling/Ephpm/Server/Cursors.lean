import Ephpm.Lib.Path
import Mathlib.Logic.Function.Basic
import Mathlib.Tactic

/-!
# Cursors into the logs of other nodes

A replica follows the log of the owner of a site, and remembers how far it got: it has **one
watermark**, which moves with every batch that is applied, and a row that says which log the
watermark belongs to.  When the owner changes, the cursor into the old log is put aside in a table
with one mark per log, and the mark of the new log becomes the watermark
(`resolveSubscribeWatermark`).

A switch is made of several statements, and each is committed on its own.  The watermark is written
before the row that says whose it is.  So **a crash in between** leaves the cursor of the new log
under the name of the old one.  If it is greater than what the database has of the old log, then the
replica skips changes when it comes back to it (`cursor_misattributed`).  A second way is an install
that throws away the local tables: the marks of other logs stay, though the snapshot may know less
of these logs than the tables did.

Apart from these two, no cursor is ahead of the database (`cursor_within_contents`), and each of
them puts one ahead (`not_sound_of_harmful`).

**What the database has** of a log is not stored anywhere.  It is the ghost `contents`: all changes
of a log up to this number are in the tables.
-/

namespace Ephpm.Server

open Lib

/-! ## The bookkeeping -/

/-- The three tables of bookkeeping.  A table or row that is absent reads as `0` or `none`. -/
structure Bookkeeping (L : Type*) where
  /-- litewire's watermark -/
  watermark : ℕ
  /-- the log that the watermark belongs to -/
  source : Option L
  /-- the cursor that was put aside for each log -/
  marks : L → ℕ

/-- Statements, each of which is committed on its own outside of a transaction. -/
inductive Statement (L : Type*) where
  /-- `CREATE TABLE IF NOT EXISTS` -/
  | createTable
  | writeMark (log : L) (watermark : ℕ)
  | writeWatermark (watermark : ℕ)
  | writeSource (log : L)

section Resolve

variable {L : Type*} [DecidableEq L]

/-- What a statement does. -/
def Bookkeeping.exec (b : Bookkeeping L) : Statement L → Bookkeeping L
  | .createTable => b
  | .writeMark log watermark => { b with marks := Function.update b.marks log watermark }
  | .writeWatermark watermark => { b with watermark := watermark }
  | .writeSource log => { b with source := some log }

/-- What a sequence of statements does. -/
def Bookkeeping.execAll (b : Bookkeeping L) (statements : List (Statement L)) : Bookkeeping L :=
  statements.foldl Bookkeeping.exec b

/-- `store_log_watermark`. -/
def storeLogWatermark (log : L) (watermark : ℕ) : List (Statement L) :=
  [.createTable, .writeMark log watermark]

/-- `seed_watermark`. -/
def seedWatermark (watermark : ℕ) : List (Statement L) := [.createTable, .writeWatermark watermark]

/-- `set_source_log`. -/
def setSourceLog (log : L) : List (Statement L) := [.createTable, .writeSource log]

/-- `resolve_subscribe_watermark`: the statements that are run, and the watermark to subscribe with.
-/
def resolveSubscribeWatermark (b : Bookkeeping L) (log : L) : List (Statement L) × ℕ :=
  match b.source with
  | some current =>
    if current = log then ([], b.watermark)
    else
      (storeLogWatermark current b.watermark ++ seedWatermark (b.marks log) ++ setSourceLog log,
        b.marks log)
  | none => (storeLogWatermark log b.watermark ++ setSourceLog log, b.watermark)

/-- A resolution ends with the watermark and the source that it resolves to. -/
theorem execAll_resolve (b : Bookkeeping L) (log : L) :
    (b.execAll (resolveSubscribeWatermark b log).1).watermark = (resolveSubscribeWatermark b log).2 ∧
      (b.execAll (resolveSubscribeWatermark b log).1).source = some log := by
  unfold resolveSubscribeWatermark
  split
  next current hsource =>
    split
    next heq => exact ⟨rfl, by rw [← heq]; exact hsource⟩
    next hne => exact ⟨rfl, rfl⟩
  next hsource => exact ⟨rfl, rfl⟩

/-- The statements of an install behind the dump: the end of `apply_snapshot`. -/
def recordInstall (log : L) (watermark : ℕ) : List (Statement L) :=
  seedWatermark watermark ++ storeLogWatermark log watermark ++ setSourceLog log

end Resolve

/-! ## A replica -/

/-- A replica with its database. -/
structure Replica (L : Type*) where
  books : Bookkeeping L
  /-- all changes of a log up to this one are in the tables -/
  contents : L → ℕ
  /-- the log that is being followed -/
  session : Option L

/-- What happens to a replica. -/
inductive ReplicaEvent (L : Type*) where
  /-- the source for a session is resolved, and the session begins -/
  | subscribe (log : L)
  /-- the process stops after some statements of the resolution -/
  | crash (log : L) (done : ℕ)
  /-- the next transactions of the log that is followed, up to this change -/
  | batch (upTo : ℕ)
  /-- the session ends -/
  | disconnect
  /-- a snapshot of the owner of a log takes the place of the tables -/
  | install (log : L) (watermark : ℕ) (contents : L → ℕ)

namespace Replica

variable {L : Type*} [DecidableEq L]

/-- A database that has followed no log yet. -/
def fresh (contents : L → ℕ) : Replica L := ⟨⟨0, none, fun _ => 0⟩, contents, none⟩

/-- `apply_batch`: the rows and the watermark are written in one transaction.  A batch that is not
above the watermark is passed over.  The changes of a batch are those behind the watermark, so the
database has everything up to its end if it had everything up to the watermark. -/
def applyBatch (r : Replica L) (log : L) (upTo : ℕ) : Replica L :=
  if upTo ≤ r.books.watermark then r
  else
    { r with
      books := r.books.exec (.writeWatermark upTo)
      contents :=
        if r.books.watermark ≤ r.contents log then
          Function.update r.contents log (max (r.contents log) upTo)
        else r.contents }

/-- One step.  A snapshot is taken in one read view, so it has everything of its own log that its
header says.  A node that installs one subscribes anew. -/
def step (r : Replica L) : ReplicaEvent L → Option (Replica L)
  | .subscribe log =>
    some { r with
      books := r.books.execAll (resolveSubscribeWatermark r.books log).1
      session := some log }
  | .crash log done =>
    some { r with
      books := r.books.execAll ((resolveSubscribeWatermark r.books log).1.take done)
      session := none }
  | .batch upTo => r.session.map fun log => r.applyBatch log upTo
  | .disconnect => some { r with session := none }
  | .install log watermark contents =>
    if watermark ≤ contents log then
      some ⟨r.books.execAll (recordInstall log watermark), contents, none⟩
    else none

/-- **No change is skipped**: the watermark to subscribe with is not ahead of the database. -/
def Sound (r : Replica L) : Prop := ∀ log, (resolveSubscribeWatermark r.books log).2 ≤ r.contents log

/-- The events that do no harm: a crash between the new watermark and the new source only if the
database has as much of the old log, and an install only if the snapshot has as much of every other
log as was put aside for it. -/
def Harmless (r : Replica L) : ReplicaEvent L → Prop
  | .crash log done =>
    ∀ current, r.books.source = some current → current ≠ log → done = 4 ∨ done = 5 →
      r.books.marks log ≤ r.contents current
  | .install log _ contents => ∀ other, other ≠ log → r.books.marks other ≤ contents other
  | _ => True

/-- A step under the condition. -/
def HarmlessStep (r r' : Replica L) : Prop := ∃ e, r.Harmless e ∧ r.step e = some r'

/-! ## No cursor is ahead -/

/-- No cursor is ahead of the database. -/
structure Fits (b : Bookkeeping L) (contents : L → ℕ) : Prop where
  marks : ∀ log, b.marks log ≤ contents log
  watermark : ∀ log, b.source = some log → b.watermark ≤ contents log
  fresh : b.source = none → b.watermark = 0

/-- The invariant: no cursor is ahead, and a session follows the log that the watermark belongs to.
-/
structure Inv (r : Replica L) : Prop where
  fits : Fits r.books r.contents
  session : ∀ log, r.session = some log → r.books.source = some log

omit [DecidableEq L] in
theorem inv_fresh (contents : L → ℕ) : (fresh contents).Inv where
  fits := ⟨fun _ => Nat.zero_le _, fun _ h => (Option.noConfusion rfl (heq_of_eq h)), fun _ => rfl⟩
  session _ h := by cases h

theorem Inv.sound {r : Replica L} (h : r.Inv) : r.Sound := by
  intro log
  unfold resolveSubscribeWatermark
  split
  next current hsource =>
    split
    next heq => exact h.fits.watermark log (by rw [hsource, heq])
    next hne => exact h.fits.marks log
  next hsource =>
    show r.books.watermark ≤ _
    rw [h.fits.fresh hsource]
    exact Nat.zero_le _

section Fits

variable {b : Bookkeeping L} {contents : L → ℕ} {log : L} {w : ℕ}

/-- A cursor is put aside. -/
theorem Fits.mark (h : Fits b contents) (hw : w ≤ contents log) :
    Fits (b.exec (.writeMark log w)) contents where
  marks other := by
    show Function.update b.marks log w other ≤ _
    rcases eq_or_ne other log with rfl | hne
    · rw [Function.update_self]
      exact hw
    · rw [Function.update_of_ne hne]
      exact h.marks other
  watermark := h.watermark
  fresh := h.fresh

omit [DecidableEq L] in
theorem Fits.retarget (h : Fits b contents) (hw : w ≤ contents log) :
    Fits { b with watermark := w, source := some log } contents where
  marks := h.marks
  watermark other hsource := by
    obtain rfl : log = other := Option.some.inj hsource
    exact hw
  fresh hsource := by cases hsource

omit [DecidableEq L] in
/-- What a database has can only become more. -/
theorem Fits.mono (h : Fits b contents) {contents' : L → ℕ} (hle : ∀ log, contents log ≤ contents' log) :
    Fits b contents' :=
  ⟨fun log => (h.marks log).trans (hle log), fun log hsource => (h.watermark log hsource).trans (hle log),
    h.fresh⟩

/-- **A resolution that comes to its end** leaves no cursor ahead. -/
theorem Fits.resolve (h : Fits b contents) (log : L) :
    Fits (b.execAll (resolveSubscribeWatermark b log).1) contents := by
  unfold resolveSubscribeWatermark
  split
  next current hsource =>
    split
    next heq => exact h
    next hne => exact (h.mark (h.watermark current hsource)).retarget (h.marks log)
  next hsource =>
    have hw : b.watermark ≤ contents log := by
      rw [h.fresh hsource]
      exact Nat.zero_le _
    exact (h.mark hw).retarget hw

/-- **A resolution that is cut short** leaves no cursor ahead, unless it is cut between the
watermark and its source. -/
theorem Fits.interrupted (h : Fits b contents) {done : ℕ}
    (hwindow : ∀ current, b.source = some current → current ≠ log → done = 4 ∨ done = 5 →
      b.marks log ≤ contents current) :
    Fits (b.execAll ((resolveSubscribeWatermark b log).1.take done)) contents := by
  unfold resolveSubscribeWatermark
  split
  next current hsource =>
    split
    next heq =>
      rw [List.take_nil]
      exact h
    next hne =>
      have hmark := h.mark (h.watermark current hsource)
      match done, hwindow current hsource hne with
      | 0, _ => exact h
      | 1, _ => exact h
      | 2, _ => exact hmark
      | 3, _ => exact hmark
      | 4, hw | 5, hw =>
        -- the watermark of the new log stands under the name of the old one
        have hbooks := hmark.retarget (hw (by decide))
        rw [← hsource] at hbooks
        exact hbooks
      | done + 6, _ =>
        rw [List.take_of_length_le (by simp [storeLogWatermark, seedWatermark, setSourceLog])]
        exact hmark.retarget (h.marks log)
  next hsource =>
    have hw : b.watermark ≤ contents log := by
      rw [h.fresh hsource]
      exact Nat.zero_le _
    match done with
    | 0 => exact h
    | 1 => exact h
    | 2 => exact h.mark hw
    | 3 => exact h.mark hw
    | done + 4 =>
      rw [List.take_of_length_le (by simp [storeLogWatermark, setSourceLog])]
      exact (h.mark hw).retarget hw

theorem Fits.install (hmarks : ∀ other, other ≠ log → b.marks other ≤ contents other)
    (hw : w ≤ contents log) : Fits (b.execAll (recordInstall log w)) contents where
  marks other := by
    show Function.update b.marks log w other ≤ _
    rcases eq_or_ne other log with rfl | hne
    · rw [Function.update_self]
      exact hw
    · rw [Function.update_of_ne hne]
      exact hmarks other hne
  watermark other hsource := by
    obtain rfl : log = other := Option.some.inj hsource
    exact hw
  fresh hsource := by cases hsource

end Fits

theorem Inv.applyBatch {r : Replica L} (h : r.Inv) {log : L} (hsession : r.session = some log)
    (upTo : ℕ) : (r.applyBatch log upTo).Inv := by
  have hsource := h.session log hsession
  have hhas := h.fits.watermark log hsource
  unfold Replica.applyBatch
  split
  · exact h
  · have hgrows (other : L) :
        r.contents other ≤ Function.update r.contents log (max (r.contents log) upTo) other := by
      rcases eq_or_ne other log with rfl | hne
      · rw [Function.update_self]
        exact le_max_left _ _
      · rw [Function.update_of_ne hne]
    refine ⟨⟨fun other => (h.fits.marks other).trans (hgrows other), fun other hother => ?_,
      fun hnone => ?_⟩, h.session⟩
    · obtain rfl : log = other := Option.some.inj (hsource.symm.trans hother)
      show upTo ≤ Function.update r.contents log (max (r.contents log) upTo) log
      rw [Function.update_self]
      exact le_max_right _ _
    · exact absurd (hsource.symm.trans hnone) (by simp)

/-- **The invariant is kept** by every event that does no harm. -/
theorem Inv.step {r r' : Replica L} (h : r.Inv) (hstep : r.HarmlessStep r') : r'.Inv := by
  obtain ⟨e, hharmless, hstep⟩ := hstep
  cases e with
  | subscribe log =>
    obtain rfl := Option.some.inj hstep
    refine ⟨h.fits.resolve log, fun other hother => ?_⟩
    obtain rfl : log = other := Option.some.inj hother
    exact (execAll_resolve r.books log).2
  | crash log done =>
    obtain rfl := Option.some.inj hstep
    exact ⟨h.fits.interrupted hharmless, fun other hother => by cases hother⟩
  | batch upTo =>
    obtain ⟨log, hsession, rfl⟩ := Option.map_eq_some_iff.mp hstep
    exact h.applyBatch hsession upTo
  | disconnect =>
    obtain rfl := Option.some.inj hstep
    exact ⟨h.fits, fun other hother => by cases hother⟩
  | install log watermark contents =>
    simp only [Replica.step] at hstep
    split at hstep
    next hw =>
      obtain rfl := Option.some.inj hstep
      exact ⟨.install hharmless hw, fun other hother => by cases hother⟩
    next => cases hstep

/-- **Every other event does harm**: the cursor of some log is ahead behind it. -/
theorem not_sound_of_harmful {r r' : Replica L} {e : ReplicaEvent L} (hstep : r.step e = some r')
    (hharm : ¬ r.Harmless e) : ¬ r'.Sound := by
  intro hsound
  cases e with
  | subscribe log => exact hharm trivial
  | batch upTo => exact hharm trivial
  | disconnect => exact hharm trivial
  | crash log done =>
    obtain rfl := Option.some.inj hstep
    refine hharm fun current hsource hne hdone => ?_
    have hcurrent := hsound current
    have hstatements : (resolveSubscribeWatermark r.books log).1 =
        storeLogWatermark current r.books.watermark ++ seedWatermark (r.books.marks log) ++
          setSourceLog log := by
      rw [resolveSubscribeWatermark, hsource]
      dsimp only
      rw [if_neg hne]
    rw [hstatements] at hcurrent
    rcases hdone with rfl | rfl <;>
      simpa [resolveSubscribeWatermark, storeLogWatermark, seedWatermark, setSourceLog,
        Bookkeeping.execAll, Bookkeeping.exec, hsource] using hcurrent
  | install log watermark contents =>
    simp only [Replica.step] at hstep
    split at hstep
    next =>
      obtain rfl := Option.some.inj hstep
      refine hharm fun other hne => ?_
      have hother := hsound other
      simpa [resolveSubscribeWatermark, recordInstall, storeLogWatermark, seedWatermark, setSourceLog,
        Bookkeeping.execAll, Bookkeeping.exec, hne, Ne.symm hne] using hother
    next => cases hstep

/-- **No cursor is ahead of the database** in any run without a harmful event, from a database that
has followed no log yet: whichever log is resolved next, all its changes up to the watermark are
there. -/
theorem cursor_within_contents {contents : L → ℕ} {r : Replica L}
    (run : Path HarmlessStep (fresh contents) r) : r.Sound :=
  (Path.preserves (fun _ _ inv hstep => inv.step hstep) run (inv_fresh contents)).sound

/-- The first log is followed up to change 10 and the second one up to change 3.  A crash on the way
back comes before the watermark is written. -/
theorem cursor_within_contents_crash :
    ∃ r : Replica Bool, Path HarmlessStep (fresh fun _ => 0) r ∧ r.books.marks true = 3 ∧ r.Sound := by
  have run : Path HarmlessStep (fresh fun _ : Bool => 0) _ := .tail (.tail (.tail (.tail (.tail .refl
    ⟨.subscribe false, trivial, rfl⟩) ⟨.batch 10, trivial, rfl⟩) ⟨.subscribe true, trivial, rfl⟩)
    ⟨.batch 3, trivial, rfl⟩) ⟨.crash false 3, fun _ _ _ hdone => by omega, rfl⟩
  exact ⟨_, run, by decide, cursor_within_contents run⟩

/-- **A cursor under the wrong name.**  The same with a crash behind the watermark: it is 10 now,
and still said to be that of the second log. -/
theorem cursor_misattributed :
    ∃ r : Replica Bool, Path (fun r r' => ∃ e, r.step e = some r') (fresh fun _ => 0) r ∧
      r.contents true = 3 ∧ (resolveSubscribeWatermark r.books true).2 = 10 ∧ ¬ r.Sound := by
  have run : Path (fun r r' => ∃ e, r.step e = some r') (fresh fun _ : Bool => 0) _ :=
    .tail (.tail (.tail (.tail (.tail .refl
      ⟨.subscribe false, rfl⟩) ⟨.batch 10, rfl⟩) ⟨.subscribe true, rfl⟩) ⟨.batch 3, rfl⟩)
      ⟨.crash false 4, rfl⟩
  refine ⟨_, run, by decide, by decide, fun h => ?_⟩
  exact absurd (h true) (by decide)

end Replica

end Ephpm.Server
