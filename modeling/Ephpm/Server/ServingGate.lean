import Ephpm.Cluster.Election
import Ephpm.Lib.Path
import Ephpm.Server.SettleRound

/-!
# The serving gate

A site is served from the copy of a node only while its **gate** is open.  The gate of a site is set
by a background task that runs one round of settling after another until one ends in `Settled`; then
it opens the gate and ends.  The driver of the site starts the task when it starts itself, and again
when it sees that the node was promoted to the owner of the site.

What the driver sees of the election is the **latest** role only, at the moments when it looks.  A
promotion is seen by comparing the role with the one seen before.  So a node that loses the site and
gets it back between two looks is not seen to be promoted, and the gate that was opened for the
ownership before stays open for the new one, with nothing settled for it (`open_gate_unsettled`).
Nor does anything close the gate of a node that is promoted while it is open, or stop a round that
is under way.

If a node becomes the owner only while the gate is closed and no round is under way, then an open
gate is always one that was settled for the present ownership (`gate_closed_until_settled`).

The times at which the driver looks, the task takes a step and the election changes its mind are
interleaved in any way.  A **stint** is a time as owner; it is counted, but the code does not know
it.
-/

namespace Ephpm.Server

open Lib Cluster

/-! ## The gate -/

/-- `SiteServeState`. -/
inductive SiteServeState where
  | pending
  | ready
  | blocked (reason : Text)
deriving DecidableEq, Repr

/-- `HandoffGate`, with the entry of one site. -/
structure HandoffGate where
  armed : Bool
  entry : Option SiteServeState
  schemeBlock : Option Text
deriving DecidableEq, Repr

namespace HandoffGate

/-- The message for a site whose peers keep it in another scheme. -/
def schemeMessage (site : String) (peers : Text) : Text :=
  "site ".toList ++ site.toList ++
  " is not being served by this node: cluster peers compute per-site ownership ".toList ++
  "with a different hash scheme (".toList ++ peers ++
  "), so this node and those peers would both accept writes for some sites. ".toList ++
  "Refusing to act as owner until every node runs the same ePHPm version ".toList ++
  "(per-site clustered mode needs a full-cluster restart across v0.13.0, not a rolling upgrade).".toList

/-- `set`. -/
def set (g : HandoffGate) (state : SiteServeState) : HandoffGate := { g with entry := some state }

/-- `set_scheme_block`. -/
def setSchemeBlock (g : HandoffGate) (peers : Option Text) : HandoffGate := { g with schemeBlock := peers }

/-- `state`: a scheme block takes precedence. -/
def state (g : HandoffGate) (site : String) : SiteServeState :=
  if !g.armed then .ready
  else match g.schemeBlock with
    | some peers => .blocked (schemeMessage site peers)
    | none => g.entry.getD .pending

/-- An armed gate is open only if it was opened. -/
theorem entry_of_state {g : HandoffGate} {site : String} (harmed : g.armed = true)
    (h : g.state site = .ready) : g.entry = some .ready := by
  unfold state at h
  rw [harmed] at h
  cases hscheme : g.schemeBlock with
  | some peers =>
    rw [hscheme] at h
    cases h
  | none =>
    rw [hscheme] at h
    cases hentry : g.entry with
    | none =>
      rw [hentry] at h
      cases h
    | some s =>
      rw [hentry] at h
      exact congrArg some h

end HandoffGate

/-! ## The driver and its task -/

/-- Where the task of `settle_site_serving` is: between two rounds, in a round that began in a
stint, or at its end. -/
inductive SettleTask where
  | between
  | inRound (stint : ℕ)
  | ended
deriving DecidableEq, Repr

/-- The driver of a site (`run_site_replication`), with its task, its gate and the channel of the
election. -/
structure SiteDriver where
  site : String
  gate : HandoffGate
  /-- the latest role in the channel -/
  role : ElectedRole
  wasOwner : Bool
  task : SettleTask
  /-- how often the node became the owner -/
  stint : ℕ
  /-- the stints in which a round began that ended in `Settled` -/
  settled : List ℕ
deriving DecidableEq, Repr

/-- What happens. -/
inductive DriverEvent where
  /-- the election puts a role into the channel -/
  | elect (role : ElectedRole)
  /-- the driver is at the top of its loop -/
  | look
  /-- the task begins a round -/
  | beginRound
  /-- the task ends a round -/
  | endRound (result : SettleRound)
  /-- the task has no connection to the local database for a round -/
  | noConnection (error : Text)
  /-- the watcher of hash schemes refuses or resumes to serve all sites -/
  | schemeBlock (peers : Option Text)

/-- `promotion_restarts_settle`. -/
def promotionRestartsSettle (wasOwner nowOwner : Bool) : Bool := nowOwner && !wasOwner

namespace SiteDriver

/-- The driver at its start.  The task was started just before, and a role that the election finds
at its start is no promotion. -/
def start (site : String) (role : ElectedRole) : SiteDriver :=
  ⟨site, ⟨true, none, none⟩, role, role == .primary, .between, 0, []⟩

/-- The channel gets a role. -/
def elected (d : SiteDriver) (role : ElectedRole) : SiteDriver :=
  { d with
    role := role
    stint := if role = .primary ∧ d.role ≠ .primary then d.stint + 1 else d.stint }

/-- The top of the loop: on a promotion the task is aborted and a new one takes its place. -/
def look (d : SiteDriver) : SiteDriver :=
  match d.role with
  | .primary =>
    { d with
      task := if promotionRestartsSettle d.wasOwner true then .between else d.task
      wasOwner := true }
  | .replica _ => { d with wasOwner := false }

/-- The end of a round in `settle_site_serving`. -/
def endRound (d : SiteDriver) (began : ℕ) : SettleRound → SiteDriver
  | .settled => { d with gate := d.gate.set .ready, task := .ended, settled := began :: d.settled }
  | .notOwner => { d with gate := d.gate.set .pending, task := .between }
  | .awaitMembership _ => { d with gate := d.gate.set .pending, task := .between }
  | .blocked reason => { d with gate := d.gate.set (.blocked reason), task := .between }

/-- One event, if it can happen. -/
def step (d : SiteDriver) : DriverEvent → Option SiteDriver
  | .elect role => some (d.elected role)
  | .look => some d.look
  | .beginRound => if d.task = .between then some { d with task := .inRound d.stint } else none
  | .endRound result =>
    match d.task with
    | .inRound began => some (d.endRound began result)
    | _ => none
  | .noConnection error =>
    if d.task = .between then
      some { d with gate := d.gate.set (.blocked ("cannot open the local database: ".toList ++ error)) }
    else none
  | .schemeBlock peers => some { d with gate := d.gate.setSchemeBlock peers }

/-- **The gate is closed until the stint is settled**: if it is open while the node is the owner, a
round that began after the node became it has ended in `Settled`. -/
def ClosedUntilSettled (d : SiteDriver) : Prop :=
  d.gate.state d.site = .ready → d.role = .primary → d.stint ∈ d.settled

/-- A promotion that finds the gate closed and no round under way.  Everything else is free. -/
def Unhurried (d : SiteDriver) : DriverEvent → Prop
  | .elect .primary =>
    d.role ≠ .primary → d.gate.entry ≠ some .ready ∧ ∀ began, d.task ≠ .inRound began
  | _ => True

/-- A step in which no promotion comes too early. -/
def UnhurriedStep (d d' : SiteDriver) : Prop := ∃ e, d.Unhurried e ∧ d.step e = some d'

/-! ## Open gates are settled -/

/-- The invariant: while the node is the owner, an open gate was settled in this stint, and a round
that is under way began in it. -/
structure Inv (d : SiteDriver) : Prop where
  armed : d.gate.armed = true
  opened : d.gate.entry = some .ready → d.role = .primary → d.stint ∈ d.settled
  round : ∀ began, d.task = .inRound began → d.role = .primary → began = d.stint

theorem inv_start (site : String) (role : ElectedRole) : (start site role).Inv where
  armed := rfl
  opened h := by cases h
  round _ h := by cases h

theorem Inv.closedUntilSettled {d : SiteDriver} (h : d.Inv) : d.ClosedUntilSettled :=
  fun hready => h.opened (HandoffGate.entry_of_state h.armed hready)

variable {d : SiteDriver}

theorem Inv.elected (h : d.Inv) {role : ElectedRole} (hunhurried : d.Unhurried (.elect role)) :
    (d.elected role).Inv := by
  cases role with
  | replica url => exact ⟨h.armed, fun _ => ElectedRole.noConfusion, fun _ _ => ElectedRole.noConfusion⟩
  | primary =>
    by_cases hrole : d.role = .primary
    · -- the node stays the owner, in the same stint
      have hsame : d.elected .primary = d := by
        unfold SiteDriver.elected
        rw [if_neg (fun hboth => hboth.2 hrole), ← hrole]
      rw [hsame]
      exact h
    · obtain ⟨hclosed, hidle⟩ := hunhurried hrole
      exact ⟨h.armed, fun hready => absurd hready hclosed, fun began hround => absurd hround (hidle began)⟩

theorem Inv.look (h : d.Inv) : d.look.Inv := by
  unfold SiteDriver.look
  split
  next hrole =>
    refine ⟨h.armed, fun hready _ => h.opened hready hrole, fun began hround _ => ?_⟩
    cases hrestart : promotionRestartsSettle d.wasOwner true with
    | true =>
      rw [hrestart] at hround
      cases hround
    | false =>
      rw [hrestart] at hround
      exact h.round began hround hrole
  next url hrole => exact ⟨h.armed, h.opened, h.round⟩

/-- A round that ends otherwise than in `Settled` closes the gate. -/
theorem Inv.close (h : d.Inv) {state : SiteServeState} (hclosed : state ≠ .ready) (task : SettleTask)
    (htask : ∀ began, task ≠ .inRound began) :
    Inv { d with gate := d.gate.set state, task := task } where
  armed := h.armed
  opened hready := absurd (Option.some.inj hready) hclosed
  round began hround := absurd hround (htask began)

theorem Inv.endRound (h : d.Inv) {began : ℕ} (hround : d.task = .inRound began) (result : SettleRound) :
    (d.endRound began result).Inv := by
  cases result with
  | settled =>
    refine ⟨h.armed, fun _ hrole => ?_, fun _ hround => by cases hround⟩
    rw [h.round began hround hrole]
    exact List.mem_cons_self
  | notOwner => exact h.close SiteServeState.noConfusion _ fun _ => SettleTask.noConfusion
  | awaitMembership wait => exact h.close SiteServeState.noConfusion _ fun _ => SettleTask.noConfusion
  | blocked reason => exact h.close SiteServeState.noConfusion _ fun _ => SettleTask.noConfusion

/-- **The invariant is kept** as long as no promotion comes too early. -/
theorem Inv.step {d' : SiteDriver} (h : d.Inv) (hstep : d.UnhurriedStep d') : d'.Inv := by
  obtain ⟨e, hunhurried, hstep⟩ := hstep
  cases e with
  | elect role =>
    obtain rfl := Option.some.inj hstep
    exact h.elected hunhurried
  | look =>
    obtain rfl := Option.some.inj hstep
    exact h.look
  | beginRound =>
    simp only [SiteDriver.step] at hstep
    split at hstep
    next =>
      obtain rfl := Option.some.inj hstep
      exact ⟨h.armed, h.opened, fun began hround _ => (SettleTask.inRound.inj hround).symm⟩
    next => cases hstep
  | endRound result =>
    simp only [SiteDriver.step] at hstep
    split at hstep
    next began hround =>
      obtain rfl := Option.some.inj hstep
      exact h.endRound hround result
    next => cases hstep
  | noConnection error =>
    simp only [SiteDriver.step] at hstep
    split at hstep
    next hbetween =>
      obtain rfl := Option.some.inj hstep
      refine h.close SiteServeState.noConfusion d.task fun began hround => ?_
      rw [hbetween] at hround
      cases hround
    next => cases hstep
  | schemeBlock peers =>
    obtain rfl := Option.some.inj hstep
    exact ⟨h.armed, h.opened, h.round⟩

/-- **An open gate was settled for the present ownership**, in every run in which the node becomes
the owner only while the gate is closed and no round is under way. -/
theorem gate_closed_until_settled {site : String} {role : ElectedRole}
    (run : Path UnhurriedStep (start site role) d) : d.ClosedUntilSettled :=
  (Path.preserves (fun _ _ inv hstep => inv.step hstep) run (inv_start site role)).closedUntilSettled

/-- A node is promoted after a round that came too early to tell, and the next round opens the gate.
-/
theorem gate_closed_until_settled_promotion :
    ∃ d, Path UnhurriedStep (start "s" (.replica "")) d ∧ d.gate.state "s" = .ready ∧
      d.role = .primary ∧ d.ClosedUntilSettled := by
  have run : Path UnhurriedStep (start "s" (.replica "")) _ :=
    .tail (.tail (.tail (.tail (.tail (.tail .refl ⟨.beginRound, trivial, rfl⟩)
      ⟨.endRound (.awaitMembership 2), trivial, rfl⟩)
      ⟨.elect .primary, fun _ => ⟨by decide, fun _ => SettleTask.noConfusion⟩, rfl⟩)
      ⟨.look, trivial, rfl⟩) ⟨.beginRound, trivial, rfl⟩) ⟨.endRound .settled, trivial, rfl⟩
  exact ⟨_, run, rfl, rfl, gate_closed_until_settled run⟩

/-- **An open gate with nothing settled.**  The owner has settled the site.  It loses the site and
gets it back before the driver looks again: no task is started, and the gate is still open. -/
theorem open_gate_unsettled :
    ∃ d, Path (fun d d' => ∃ e, d.step e = some d') (start "s" .primary) d ∧
      d.gate.state "s" = .ready ∧ d.task = .ended ∧ d.wasOwner = true ∧ ¬ d.ClosedUntilSettled := by
  have run : Path (fun d d' => ∃ e, d.step e = some d') (start "s" .primary) _ :=
    .tail (.tail (.tail (.tail (.tail .refl ⟨.beginRound, rfl⟩) ⟨.endRound .settled, rfl⟩)
      ⟨.elect (.replica "10.0.0.2:7948"), rfl⟩) ⟨.elect .primary, rfl⟩) ⟨.look, rfl⟩
  refine ⟨_, run, rfl, rfl, rfl, fun h => ?_⟩
  exact absurd (h rfl rfl) (by decide)

end SiteDriver

end Ephpm.Server
