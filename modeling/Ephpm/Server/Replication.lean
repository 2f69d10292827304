import Ephpm.Server.Cursors
import Mathlib.Data.Finmap

/-!
# Replication of a site

The owner of a site captures its changes in a log of its own.  A replica subscribes to the log of
the owner, from the cursor that it has for this log, and applies what comes.  It takes a snapshot
first only if it has nothing, or if a change did not go through because a table was there already.

So a replica that comes back to a log where it left it gets only the changes **of this log**.  What
the owner has got in between in another way is in no log that the replica follows: if the site was
owned by another node for a while, and the owner pulled that node's copy when it came back, then the
replica is at the head of the owner's log and does not have these rows (`replica_misses_stint`).

A replica has the rows of the owner once it is at the head, in every run in which the changes above
a cursor are all that separates the copies, whenever a log is taken up and whenever the owner's copy
changes in another way (`replica_converges`).  If such a change does not go through, the copies need
not agree, since the replica then starts over with a snapshot.

**Logs and nodes** are the same here: every node has one log.  The tables are finite maps, from
names to maps from rowids to rows.
-/

namespace Ephpm.Server

open Lib

/-! ## Tables and changes -/

/-- The tables of a tenant: the rows of each by rowid. -/
abbrev Tables (T R V : Type*) := Finmap fun _ : T => Finmap fun _ : R => V

/-- A change as the log has it. -/
inductive Change (T R V : Type*) where
  | createTable (table : T)
  | dropTable (table : T)
  | upsert (table : T) (rowid : R) (row : V)
  | delete (table : T) (rowid : R)

/-- Why a change does not go through. -/
inductive ApplyError where
  /-- "already exists" -/
  | alreadyExists
  /-- "no such table" -/
  | noSuchTable
deriving DecidableEq, Repr

section Changes

variable {T R V : Type*} [DecidableEq T] [DecidableEq R]

/-- A change is applied, or it does not fit. -/
def Change.apply (db : Tables T R V) : Change T R V → Except ApplyError (Tables T R V)
  | .createTable table => if table ∈ db then .error .alreadyExists else .ok (db.insert table ∅)
  | .dropTable table => if table ∈ db then .ok (db.erase table) else .error .noSuchTable
  | .upsert table rowid row =>
    match db.lookup table with
    | some rows => .ok (db.insert table (rows.insert rowid row))
    | none => .error .noSuchTable
  | .delete table rowid =>
    match db.lookup table with
    | some rows => .ok (db.insert table (rows.erase rowid))
    | none => .error .noSuchTable

/-- What a sequence of changes does. -/
def replay (changes : List (Change T R V)) (db : Tables T R V) : Except ApplyError (Tables T R V) :=
  changes.foldlM Change.apply db

theorem replay_append (first second : List (Change T R V)) (db : Tables T R V) :
    replay (first ++ second) db = (replay first db).bind (replay second) := by
  unfold replay
  rw [List.foldlM_append]
  rfl

theorem replay_append_ok {first second : List (Change T R V)} {db db' : Tables T R V}
    (h : replay (first ++ second) db = .ok db') :
    ∃ middle, replay first db = .ok middle ∧ replay second middle = .ok db' := by
  rw [replay_append] at h
  cases hfirst : replay first db with
  | error e =>
    rw [hfirst] at h
    cases h
  | ok middle =>
    rw [hfirst] at h
    exact ⟨middle, rfl, h⟩

end Changes

/-! ## Members -/

/-- Where a replica attempt is. -/
inductive Stage (N : Type*) where
  | idle
  /-- a snapshot of this node was installed -/
  | seeded (owner : N)
  /-- the log of this node is followed -/
  | following (owner : N)
deriving DecidableEq, Repr

/-- A node with its copy. -/
structure Member (N T R V : Type*) where
  tables : Tables T R V
  log : List (Change T R V)
  books : Bookkeeping N
  stage : Stage N
  /-- a change collided: the next attempt starts over -/
  forceReset : Bool

/-- `ReplicaAction`. -/
inductive ReplicaAction where
  | bootstrap (discardLocal : Bool)
  | tailOnly
deriving DecidableEq, Repr

/-- `plan_replica_attempt`. -/
def planReplicaAttempt {N : Type*} (forceReset : Bool) : (lineage : Option N) → ReplicaAction
  | none => .bootstrap false
  | some _ => if forceReset then .bootstrap true else .tailOnly

section Members

variable {N T R V : Type*} [DecidableEq N] [DecidableEq T] [DecidableEq R]

namespace Member

variable (m : Member N T R V)

/-- `local_db_is_cold`. -/
def cold : Bool := m.books.watermark = 0 ∧ m.tables.keys = ∅

/-- `site_data_lineage`: data that came from nowhere is this node's own, and is said to be from now
on. -/
def siteDataLineage (self : N) : Member N T R V × Option N :=
  match m.books.source with
  | some source => (m, some source)
  | none =>
    if m.cold then (m, none)
    else ({ m with books := m.books.execAll (setSourceLog self) }, some self)

/-- `install_snapshot`, of the copy of another node. -/
def install (source : N) (copy : Member N T R V) (stage : Stage N) : Member N T R V :=
  { m with
    tables := copy.tables
    books := m.books.execAll (recordInstall source copy.log.length)
    stage := stage }

/-- A subscription: the cursor is resolved. -/
def subscribe (owner : N) : Member N T R V :=
  { m with
    books := m.books.execAll (resolveSubscribeWatermark m.books owner).1
    stage := .following owner }

/-- `apply_batch`, and what the driver makes of an error. -/
def applyBatch (changes : List (Change T R V)) (upTo : ℕ) : Member N T R V :=
  if upTo ≤ m.books.watermark then m
  else match replay changes m.tables with
    | .ok tables => { m with tables := tables, books := m.books.exec (.writeWatermark upTo) }
    | .error .alreadyExists => { m with stage := .idle, forceReset := true }
    | .error .noSuchTable => { m with stage := .idle }

end Member

/-- The site: its owner and all nodes. -/
structure Replication (N T R V : Type*) where
  owner : N
  member : N → Member N T R V

/-- What happens. -/
inductive ReplicationEvent (N T R V : Type*) where
  /-- the owner makes a change -/
  | write (change : Change T R V)
  /-- the ownership moves -/
  | move (owner : N)
  /-- an owner that settles pulls the copy of a peer -/
  | pull (target source : N) (discardLocal : Bool)
  /-- a replica attempt takes a snapshot first -/
  | bootstrap (replica owner : N)
  /-- a replica attempt subscribes -/
  | subscribe (replica owner : N)
  /-- the next changes of the log that is followed -/
  | batch (replica : N) (upTo : ℕ)
  /-- an attempt ends, with the role of the node or for another reason -/
  | stop (replica : N) (roleChanged : Bool)

namespace Replication

variable (s : Replication N T R V)

/-- The site with one node changed. -/
def set (n : N) (m : Member N T R V) : Replication N T R V :=
  { s with member := Function.update s.member n m }

/-- A snapshot may take the place of the local tables.  One without tables may not, if there are
any. -/
def mayReplace (source : N) (discardLocal : Bool) : Bool :=
  !discardLocal || (s.member source).tables.keys ≠ ∅

/-- One event, if it can happen. -/
def step : ReplicationEvent N T R V → Option (Replication N T R V)
  | .write change =>
    let m := s.member s.owner
    match change.apply m.tables with
    | .ok tables => some (s.set s.owner { m with tables := tables, log := m.log ++ [change] })
    | .error _ => none
  | .move owner => some { s with owner := owner }
  | .pull target source discardLocal =>
    let m := s.member target
    if target ≠ source ∧ (discardLocal || m.cold) ∧ s.mayReplace source discardLocal then
      some (s.set target (m.install source (s.member source) .idle))
    else none
  | .bootstrap replica owner =>
    let (m, lineage) := (s.member replica).siteDataLineage replica
    match planReplicaAttempt m.forceReset lineage with
    | .bootstrap discardLocal =>
      if replica ≠ owner ∧ m.stage = .idle ∧ s.mayReplace owner discardLocal then
        some (s.set replica (m.install owner (s.member owner) (.seeded owner)))
      else none
    | .tailOnly => none
  | .subscribe replica owner =>
    let (m, lineage) := (s.member replica).siteDataLineage replica
    if replica ≠ owner ∧ (m.stage = .seeded owner ∨
        m.stage = .idle ∧ planReplicaAttempt m.forceReset lineage = .tailOnly) then
      some (s.set replica (m.subscribe owner))
    else none
  | .batch replica upTo =>
    let m := s.member replica
    match m.stage with
    | .following owner =>
      let log := (s.member owner).log
      if upTo ≤ log.length then
        some (s.set replica (m.applyBatch ((log.take upTo).drop m.books.watermark) upTo))
      else none
    | _ => none
  | .stop replica roleChanged =>
    let m := s.member replica
    some (s.set replica { m with stage := .idle, forceReset := m.forceReset && !roleChanged })

/-! ## Convergence -/

/-- **At the head of the owner's log, a replica has the rows of the owner.** -/
def Converged : Prop :=
  ∀ r, r ≠ s.owner → (s.member r).books.source = some s.owner →
    (s.member r).books.watermark = (s.member s.owner).log.length →
      (s.member r).tables = (s.member s.owner).tables

/-- What a node lacks of some tables is what stands in a log behind a position, or it will not go
through. -/
def LacksOnly (r o : N) (position : ℕ) (tables : Tables T R V) : Prop :=
  ∀ t, replay ((s.member o).log.drop position) (s.member r).tables = .ok t → t = tables

/-- All nodes that are somewhere in a log lack only what stands in it behind their position. -/
def AllLackOnly (o : N) (tables : Tables T R V) : Prop :=
  ∀ r, r ≠ o → (s.member r).books.source = some o →
    s.LacksOnly r o (s.member r).books.watermark tables

/-- **The events that do no harm.**  A replica switches to the owner's log, and a node becomes the
owner, only if what the replicas lack is what stands in the log behind their cursors.  The owner's
tables are changed otherwise than by its writes only if this holds of the new ones. -/
def Harmless : ReplicationEvent N T R V → Prop
  | .subscribe replica owner =>
    owner = s.owner → (s.member replica).books.source ≠ some owner → s.LacksOnly replica owner
      (resolveSubscribeWatermark ((s.member replica).siteDataLineage replica).1.books owner).2
      (s.member owner).tables
  | .move owner => s.AllLackOnly owner (s.member owner).tables
  | .pull target source _ => target = s.owner → s.AllLackOnly target (s.member source).tables
  | .bootstrap target source => target = s.owner → s.AllLackOnly target (s.member source).tables
  | .batch replica upTo =>
    replica = s.owner → ∀ source, (s.member replica).stage = .following source → ∀ tables,
      replay (((s.member source).log.take upTo).drop (s.member replica).books.watermark)
        (s.member replica).tables = .ok tables → s.AllLackOnly replica tables
  | _ => True

/-- A step under the condition. -/
def HarmlessStep (s s' : Replication N T R V) : Prop := ∃ e, s.Harmless e ∧ s.step e = some s'

/-- How long the logs are. -/
def heads (l : N) : ℕ := (s.member l).log.length

/-- The invariant: no cursor is behind the end of a log, what is followed is the source, and what
the replicas of the owner lack is what stands behind their cursors. -/
structure Inv : Prop where
  fits : ∀ r, Replica.Fits (s.member r).books s.heads
  stage : ∀ r o, (s.member r).stage = .following o → (s.member r).books.source = some o
  lacks : s.AllLackOnly s.owner (s.member s.owner).tables

/-- Nobody has anything. -/
def empty (owner : N) : Replication N T R V := ⟨owner, fun _ => ⟨∅, [], ⟨0, none, fun _ => 0⟩, .idle, false⟩⟩

omit [DecidableEq N] in
theorem inv_empty (owner : N) : (empty owner : Replication N T R V).Inv where
  fits _ := ⟨fun _ => Nat.zero_le _, fun _ _ => Nat.zero_le _, fun _ => rfl⟩
  stage _ _ h := by cases h
  lacks _ _ h := by cases h

variable {s}

omit [DecidableEq N] in
theorem Inv.converged (h : s.Inv) : s.Converged := by
  intro r hr hsource hhead
  have hlacks := h.lacks r hr hsource
  rw [hhead] at hlacks
  refine hlacks _ ?_
  rw [List.drop_length]
  rfl

/-- **One node is changed, but not its log.**  If it is not the owner, it has to lack what stands
behind its cursor; if it is, the others have to. -/
theorem Inv.set (h : s.Inv) {n : N} {m : Member N T R V} (hlog : m.log = (s.member n).log)
    (hfits : Replica.Fits m.books s.heads) (hstage : ∀ o, m.stage = .following o → m.books.source = some o)
    (hself : n ≠ s.owner → m.books.source = some s.owner → ∀ t,
      replay ((s.member s.owner).log.drop m.books.watermark) m.tables = .ok t →
        t = (s.member s.owner).tables)
    (hothers : n = s.owner → s.AllLackOnly n m.tables) : (s.set n m).Inv := by
  have hlogs (l : N) : ((s.set n m).member l).log = (s.member l).log := by
    show (Function.update s.member n m l).log = _
    rcases eq_or_ne l n with rfl | hl
    · rw [Function.update_self, hlog]
    · rw [Function.update_of_ne hl]
  have hheads : (s.set n m).heads = s.heads := funext fun l => congrArg List.length (hlogs l)
  have hn : (s.set n m).member n = m := Function.update_self ..
  have hne {r : N} (hr : r ≠ n) : (s.set n m).member r = s.member r := Function.update_of_ne hr ..
  refine ⟨fun r => ?_, fun r => ?_, fun r hr hsource => ?_⟩
  · rw [hheads]
    rcases eq_or_ne r n with rfl | hrn
    · rw [hn]
      exact hfits
    · rw [hne hrn]
      exact h.fits r
  · rcases eq_or_ne r n with rfl | hrn
    · rw [hn]
      exact hstage
    · rw [hne hrn]
      exact h.stage r
  · show ∀ t, replay (((s.set n m).member s.owner).log.drop _) _ = .ok t →
      t = ((s.set n m).member s.owner).tables
    have howner : s.owner ≠ r := Ne.symm hr
    rw [hlogs]
    rcases eq_or_ne r n with rfl | hrn
    · rw [hn] at hsource ⊢
      rw [hne howner]
      exact hself hr hsource
    · rw [hne hrn] at hsource ⊢
      rcases eq_or_ne s.owner n with howner | howner
      · subst howner
        rw [hn]
        exact hothers rfl r hr hsource
      · rw [hne howner]
        exact h.lacks r hr hsource

/-- The lineage is stamped, or nothing changes. -/
theorem siteDataLineage_spec (h : s.Inv) (n : N) :
    ∃ books, ((s.member n).siteDataLineage n).1 = { s.member n with books := books } ∧
      Replica.Fits books s.heads := by
  unfold Member.siteDataLineage
  split
  next => exact ⟨_, rfl, h.fits n⟩
  next hsource =>
    split
    · exact ⟨_, rfl, h.fits n⟩
    · refine ⟨_, rfl, (h.fits n).retarget ?_⟩
      show (s.member n).books.watermark ≤ _
      rw [(h.fits n).fresh hsource]
      exact Nat.zero_le _

omit [DecidableEq R] in
/-- A replica that goes on with its log, or begins with it after a snapshot, keeps its cursor. -/
theorem resolve_of_source {n owner : N} (hsource : (s.member n).books.source = some owner) :
    (resolveSubscribeWatermark ((s.member n).siteDataLineage n).1.books owner).2 =
      (s.member n).books.watermark := by
  have hsame : ((s.member n).siteDataLineage n).1 = s.member n := by
    rw [Member.siteDataLineage, hsource]
  rw [hsame, resolveSubscribeWatermark, hsource]
  exact congrArg Prod.snd (if_pos rfl)

/-- **The owner makes a change**: the copies lack it now, and it stands in the log. -/
theorem Inv.write (h : s.Inv) {change : Change T R V} {m : Member N T R V}
    (happly : change.apply (s.member s.owner).tables = .ok m.tables)
    (hlog : m.log = (s.member s.owner).log ++ [change]) (hbooks : m.books = (s.member s.owner).books)
    (hstage : m.stage = (s.member s.owner).stage) : (s.set s.owner m).Inv := by
  have howner : (s.set s.owner m).member s.owner = m := Function.update_self ..
  have hne {r : N} (hr : r ≠ s.owner) : (s.set s.owner m).member r = s.member r :=
    Function.update_of_ne hr ..
  have hgrows (l : N) : s.heads l ≤ (s.set s.owner m).heads l := by
    show (s.member l).log.length ≤ ((s.set s.owner m).member l).log.length
    rcases eq_or_ne l s.owner with rfl | hl
    · rw [howner, hlog, List.length_append]
      exact Nat.le_add_right _ _
    · rw [hne hl]
  refine ⟨fun r => ?_, fun r => ?_, fun r hr hsource => ?_⟩
  · rcases eq_or_ne r s.owner with rfl | hr
    · rw [howner, hbooks]
      exact (h.fits _).mono hgrows
    · rw [hne hr]
      exact (h.fits r).mono hgrows
  · rcases eq_or_ne r s.owner with rfl | hr
    · rw [howner, hbooks, hstage]
      exact h.stage _
    · rw [hne hr]
      exact h.stage r
  · have hr' : r ≠ s.owner := hr
    rw [hne hr'] at hsource
    have hcursor := (h.fits r).watermark s.owner hsource
    intro t ht
    have ht' : replay (((s.set s.owner m).member s.owner).log.drop
        ((s.set s.owner m).member r).books.watermark) ((s.set s.owner m).member r).tables = .ok t := ht
    rw [howner, hne hr', hlog, List.drop_append_of_le_length hcursor] at ht'
    obtain ⟨middle, hmiddle, hlast⟩ := replay_append_ok ht'
    rw [h.lacks r hr' hsource middle hmiddle] at hlast
    show t = ((s.set s.owner m).member s.owner).tables
    rw [howner]
    have hone : change.apply (s.member s.owner).tables = .ok t := by
      simpa [replay] using hlast
    rw [happly] at hone
    exact (Except.ok.inj hone).symm

/-- **A copy is installed.**  It is that of its source, at the head of its log. -/
theorem Inv.install (h : s.Inv) {target source : N} {m : Member N T R V} {stage : Stage N}
    (hlog : m.log = (s.member target).log) (hfits : Replica.Fits m.books s.heads)
    (hstage : ∀ o, stage ≠ .following o)
    (howner : target = s.owner → s.AllLackOnly target (s.member source).tables) :
    (s.set target (m.install source (s.member source) stage)).Inv := by
  refine h.set hlog ?_ (fun o ho => absurd ho (hstage o)) (fun _ hsource t ht => ?_) howner
  · exact .install (fun other _ => hfits.marks other) le_rfl
  · -- nothing stands behind the head
    obtain rfl : source = s.owner := Option.some.inj hsource
    have hnone : replay ((s.member s.owner).log.drop (s.member s.owner).log.length)
        (s.member s.owner).tables = .ok t := ht
    rw [List.drop_length] at hnone
    exact (Except.ok.inj hnone).symm

/-- **Changes are applied**: what is lacking then is the rest. -/
theorem Inv.batch (h : s.Inv) {replica source : N} {upTo : ℕ}
    (hfollows : (s.member replica).stage = .following source) (hupTo : upTo ≤ (s.member source).log.length)
    (howner : replica = s.owner → ∀ tables,
      replay (((s.member source).log.take upTo).drop (s.member replica).books.watermark)
        (s.member replica).tables = .ok tables → s.AllLackOnly replica tables) :
    (s.set replica ((s.member replica).applyBatch
      (((s.member source).log.take upTo).drop (s.member replica).books.watermark) upTo)).Inv := by
  have hsource := h.stage replica source hfollows
  -- a node that only goes back to its start is as before
  have hidle (forceReset : Bool) : (s.set replica { s.member replica with
      stage := .idle, forceReset := forceReset }).Inv := by
    refine h.set rfl (h.fits replica) (fun o ho => by cases ho) (fun hne hs => ?_) fun heq => ?_
    · exact h.lacks replica hne hs
    · subst heq
      exact h.lacks
  unfold Member.applyBatch
  split
  next hold =>
    refine h.set rfl (h.fits replica) (h.stage replica) (fun hne hs => h.lacks replica hne hs) fun heq => ?_
    subst heq
    exact h.lacks
  next hnew =>
    split
    next tables hreplay =>
      refine h.set rfl ?_ (fun o ho => ?_) (fun hne hs t ht => ?_) fun heq => howner heq tables hreplay
      · have hbooks : Replica.Fits { (s.member replica).books with
            watermark := upTo, source := some source } s.heads := (h.fits replica).retarget hupTo
        rw [← hsource] at hbooks
        exact hbooks
      · exact h.stage replica o ho
      · obtain rfl : source = s.owner := Option.some.inj (hsource.symm.trans hs)
        refine h.lacks replica hne hs t ?_
        have hle : (s.member replica).books.watermark ≤ ((s.member s.owner).log.take upTo).length := by
          rw [List.length_take]
          omega
        rw [← List.take_append_drop upTo (s.member s.owner).log, List.drop_append_of_le_length hle,
          replay_append, hreplay]
        exact ht
    next => exact hidle true
    next => exact hidle (s.member replica).forceReset

/-- **The invariant is kept** by every event that does no harm. -/
theorem Inv.step {s' : Replication N T R V} (h : s.Inv) (hstep : s.HarmlessStep s') : s'.Inv := by
  obtain ⟨e, hharmless, hstep⟩ := hstep
  cases e with
  | write change =>
    simp only [Replication.step] at hstep
    split at hstep
    next tables happly =>
      obtain rfl := Option.some.inj hstep
      exact h.write happly rfl rfl rfl
    next => cases hstep
  | move owner =>
    obtain rfl := Option.some.inj hstep
    exact ⟨h.fits, h.stage, hharmless⟩
  | pull target source discardLocal =>
    simp only [Replication.step] at hstep
    split at hstep
    next =>
      obtain rfl := Option.some.inj hstep
      exact h.install rfl (h.fits target) (fun _ h => by cases h) hharmless
    next => cases hstep
  | bootstrap replica owner =>
    obtain ⟨books, heq, hbooks⟩ := siteDataLineage_spec h replica
    simp only [Replication.step] at hstep
    split at hstep
    next =>
      split at hstep
      next =>
        obtain rfl := Option.some.inj hstep
        rw [heq]
        exact h.install rfl hbooks (fun _ h => by cases h) hharmless
      next => cases hstep
    next => cases hstep
  | subscribe replica owner =>
    obtain ⟨books, heq, hbooks⟩ := siteDataLineage_spec h replica
    simp only [Replication.step] at hstep
    split at hstep
    next hallowed =>
      obtain rfl := Option.some.inj hstep
      have hlacks : replica ≠ s.owner → owner = s.owner → s.LacksOnly replica owner
          (resolveSubscribeWatermark ((s.member replica).siteDataLineage replica).1.books owner).2
          (s.member owner).tables := by
        intro hne howner
        by_cases hsame : (s.member replica).books.source = some owner
        · rw [resolve_of_source hsame, howner]
          exact h.lacks replica hne (howner ▸ hsame)
        · exact hharmless howner hsame
      rw [heq] at hlacks ⊢
      obtain ⟨hwatermark, hsource⟩ := execAll_resolve books owner
      refine h.set rfl (hbooks.resolve owner) (fun o ho => ?_) (fun hne hs => ?_) fun hself => ?_
      · obtain rfl : owner = o := Stage.following.inj ho
        exact hsource
      · obtain rfl : owner = s.owner := Option.some.inj (hsource.symm.trans hs)
        have hlacks := hlacks hne rfl
        rw [← hwatermark] at hlacks
        exact hlacks
      · subst hself
        exact h.lacks
    next => cases hstep
  | batch replica upTo =>
    simp only [Replication.step] at hstep
    split at hstep
    next source hfollows =>
      split at hstep
      next hupTo =>
        obtain rfl := Option.some.inj hstep
        exact h.batch hfollows hupTo fun heq => hharmless heq source hfollows
      next => cases hstep
    next => cases hstep
  | stop replica roleChanged =>
    obtain rfl := Option.some.inj hstep
    refine h.set rfl (h.fits replica) (fun o ho => by cases ho) (fun hne hs => h.lacks replica hne hs)
      fun heq => ?_
    subst heq
    exact h.lacks

/-- **A replica at the head of the owner's log has the rows of the owner**, in every run without a
harmful event. -/
theorem replica_converges {owner : N} (run : Path HarmlessStep (empty owner) s) : s.Converged :=
  (Path.preserves (fun _ _ inv hstep => inv.step hstep) run (inv_empty owner)).converged

/-- A replica takes the snapshot of the owner, follows its log and is at the head of it again after
one more write. -/
theorem replica_converges_tail :
    ∃ s : Replication (Fin 3) ℕ ℕ ℕ, Path HarmlessStep (empty 0) s ∧
      (s.member 2).books.watermark = 3 ∧ (s.member 2).tables = (s.member 0).tables := by
  have run : Path HarmlessStep (empty 0 : Replication (Fin 3) ℕ ℕ ℕ) _ :=
    .tail (.tail (.tail (.tail (.tail (.tail .refl ⟨.write (.createTable 0), trivial, rfl⟩)
      ⟨.write (.upsert 0 1 7), trivial, rfl⟩) ⟨.bootstrap 2 0, fun h => absurd h (by decide), rfl⟩)
      ⟨.subscribe 2 0, fun _ hswitch => absurd rfl hswitch, rfl⟩)
      ⟨.write (.upsert 0 2 8), trivial, rfl⟩) ⟨.batch 2 3, fun h => absurd h (by decide), rfl⟩
  exact ⟨_, run, by decide +kernel, replica_converges run 2 (by decide) rfl (by decide +kernel)⟩

/-- **A replica at the head that misses rows.**  Node 0 owns the site, and node 2 follows its log to
the head.  Node 1 pulls the copy of node 0, is the owner for a while and makes a change.  Then node
0 is the owner again and pulls the copy of node 1.  Its own log is as it was, so node 2 is at the
head of it. -/
theorem replica_misses_stint :
    ∃ s : Replication (Fin 3) ℕ ℕ ℕ, Path (fun s s' => ∃ e, s.step e = some s') (empty 0) s ∧
      s.owner = 0 ∧ (s.member 2).stage = .following 0 ∧
      (s.member 2).books.watermark = (s.member 0).log.length ∧
      (s.member 2).tables ≠ (s.member 0).tables ∧ ¬ s.Converged := by
  have run : Path (fun s s' => ∃ e, s.step e = some s') (empty 0 : Replication (Fin 3) ℕ ℕ ℕ) _ :=
    .tail (.tail (.tail (.tail (.tail (.tail (.tail (.tail (.tail .refl
      ⟨.write (.createTable 0), rfl⟩) ⟨.write (.upsert 0 1 7), rfl⟩) ⟨.bootstrap 2 0, rfl⟩)
      ⟨.subscribe 2 0, rfl⟩) ⟨.move 1, rfl⟩) ⟨.pull 1 0 false, rfl⟩) ⟨.write (.upsert 0 2 8), rfl⟩)
      ⟨.move 0, rfl⟩) ⟨.pull 0 1 true, rfl⟩
  refine ⟨_, run, rfl, rfl, by decide +kernel, by decide +kernel, fun h => ?_⟩
  exact absurd (h 2 (by decide) rfl (by decide +kernel)) (by decide +kernel)

end Replication

end Members

end Ephpm.Server
