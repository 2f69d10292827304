import Ephpm.Cluster.Isolation

/-!
# Writes land in the order of their stamps

A write reaches a node by gossip and by the data plane, any number of times and in any order.
Every way passes the applied map, whose stamps only grow.  So once a write has landed, neither it
nor an older one of the same transport key lands again, whatever happens to the node in between
(`lands_once`).

The map is pruned every minute.  A stamp stays for `APPLIED_HORIZON`, unless there are more than
`APPLIED_MAX_ENTRIES` of them.
-/

namespace Ephpm.Cluster

open Kv Lib

/-- `APPLIED_HORIZON`, in milliseconds. -/
def appliedHorizon : ℕ := 600000

/-- `APPLIED_MAX_ENTRIES`. -/
def appliedMaxEntries : ℕ := 1000000

/-- `prune_applied`: drop what is older than the horizon, and halve it while too many remain. -/
def pruneApplied (nowMs maxEntries horizonMs : ℕ) (applied : Assoc String Stamp) :
    Assoc String Stamp :=
  let kept := applied.retain fun _ stamp => nowMs - horizonMs ≤ stamp.epochMs
  if kept.len ≤ maxEntries ∨ horizonMs = 0 then kept
  else pruneApplied nowMs maxEntries (horizonMs / 2) kept
termination_by horizonMs
decreasing_by omega

namespace Tenants

/-- What happens to a node. -/
inductive Arrival where
  | gossip (now : Instant) (origin : String) (e : Event)
  | request (now : Instant) (source : Option HandoffSource) (request : Request)
  /-- A hook for a write of its own, or the verify pass: some write passes the gate. -/
  | gate (place : Place) (transport : String) (stamp : Stamp) (write : Store → Unit × Store)
  | prune (now : Instant)

variable [Platform] {T : Tenants} {n : Node} {key : String} {stamp : Stamp}

/-- Something comes in. -/
def arrive (T : Tenants) : Arrival → Tenants
  | .gossip now origin e => T.deliver now origin e
  | .request now source request => (T.handle now source request).2
  | .gate place transport stamp write =>
    T.put place ((T.part place).applyIfNewer transport stamp write).2.2
  | .prune now =>
    { T with applied := pruneApplied (epochMs now) appliedMaxEntries appliedHorizon T.applied }

/-- The pruning does not reach `stamp`. -/
def Spared (stamp : Stamp) (T : Tenants) : Arrival → Prop
  | .prune now => T.applied.len ≤ appliedMaxEntries ∧ epochMs now ≤ stamp.epochMs + appliedHorizon
  | _ => True

/-- No pruning on the way reaches `stamp`. -/
def AllSpared (stamp : Stamp) : Tenants → List Arrival → Prop
  | _, [] => True
  | T, a :: rest => T.Spared stamp a ∧ AllSpared stamp (T.arrive a) rest

/-- Something at least as new as `stamp` has landed. -/
def Landed (key : String) (stamp : Stamp) (applied : Assoc String Stamp) : Prop :=
  ∃ last, applied.get key = some last ∧ stamp ≤ last

omit [Platform]

variable {applied : Assoc String Stamp} {key' : String} {stamp' : Stamp}

theorem landed_insert (h : Landed key stamp applied ∨ key = key' ∧ stamp ≤ stamp')
    (hnewer : ∀ prev, applied.get key' = some prev → prev ≤ stamp') :
    Landed key stamp (applied.insert key' stamp') := by
  by_cases hkey : key = key'
  · subst hkey
    refine ⟨stamp', by simp, h.elim ?_ And.right⟩
    rintro ⟨last, hlast, hle⟩
    exact hle.trans (hnewer last hlast)
  · obtain ⟨last, hlast, hle⟩ := h.resolve_right fun h => hkey h.1
    exact ⟨last, by simpa [hkey] using hlast, hle⟩

/-- Passing the gate only makes stamps grow. -/
theorem landed_applyIfNewer {R : Type} {write : Store → R × Store}
    (h : Landed key stamp n.applied ∨ key = key' ∧ stamp ≤ stamp') :
    Landed key stamp (n.applyIfNewer key' stamp' write).2.2.applied := by
  fun_cases Node.applyIfNewer key' stamp' write n with
  | case1 prev hprev hle =>
    exact h.elim id fun ⟨hkey, hstamp⟩ => ⟨prev, hkey ▸ hprev, hstamp.trans hle⟩
  | case2 prev hprev hlt =>
    refine landed_insert h fun last hlast => ?_
    obtain rfl := Option.some.inj (hprev.symm.trans hlast)
    exact le_of_not_ge hlt
  | case3 hprev => exact landed_insert h fun last hlast => by cases hprev.symm.trans hlast

theorem applyIfNewer_of_landed {R : Type} {write : Store → R × Store} {stale : Stamp}
    (h : Landed key stamp n.applied) (hstale : stale ≤ stamp) :
    (n.applyIfNewer key stale write).2.2 = n := by
  obtain ⟨last, hlast, hle⟩ := h
  simp [Node.applyIfNewer, hlast, hstale.trans hle]

theorem epochMs_mono {last : Stamp} (h : stamp ≤ last) : stamp.epochMs ≤ last.epochMs := by
  have hwrite : stamp.write ≤ last.write :=
    le_of_not_gt fun hlt => (Stamp.lt_of_write_lt hlt).not_ge h
  simp only [Stamp.epochMs, Nat.shiftRight_eq_div_pow]
  exact Nat.div_le_div_right hwrite

/-- A map that is not too large loses nothing within the horizon. -/
theorem landed_pruneApplied {nowMs maxEntries horizonMs : ℕ}
    (h : Landed key stamp applied) (hlen : applied.len ≤ maxEntries)
    (hnow : nowMs ≤ stamp.epochMs + horizonMs) :
    Landed key stamp (pruneApplied nowMs maxEntries horizonMs applied) := by
  obtain ⟨last, hlast, hle⟩ := h
  have hepoch := epochMs_mono hle
  rw [pruneApplied, if_pos]
  · refine ⟨last, ?_, hle⟩
    rw [Assoc.get_retain, hlast, Option.filter_some, if_pos (decide_eq_true (by omega))]
  · rw [Assoc.len, Assoc.retain_entries]
    exact .inl ((List.length_filter_le _ _).trans hlen)

theorem landed_serve [Platform] {now : Instant} {transport : String} {verb : Verb}
    (h : Landed key stamp n.applied) :
    Landed key stamp (n.serve now transport key' verb).2.applied := by
  fun_cases Node.serve now transport key' verb n
  case case4 value ttlMs stamp' done =>
      change Landed key stamp (n.applyStamped ..).2.applied
      have hgate : Landed key stamp (n.applyIfNewer transport stamp' fun s =>
          s.setLocal now key' value (remoteTtl ttlMs)).2.2.applied := landed_applyIfNewer (.inl h)
      rw [Node.applyStamped]
      split <;> simp_all
  all_goals exact h

theorem landed_arrive [Platform] (h : Landed key stamp T.applied) {a : Arrival} (hspared : T.Spared stamp a) :
    Landed key stamp (T.arrive a).applied := by
  cases a with
  | gossip now origin e =>
    rw [arrive, deliver]
    split
    next => exact h
    next =>
        split
        next => exact h
        next => exact landed_applyIfNewer (.inl h)
  | request now source request =>
    have hserve : Landed key stamp (T.serveRequest now request).2.applied := by
      rw [serveRequest]
      split
      next => exact h
      next place key' _ =>
          split
          next => exact h
          next =>
              exact landed_serve h
    rw [arrive, handle]
    split
    next => exact h
    next => exact hserve
  | gate place transport stamp' write => exact landed_applyIfNewer (.inl h)
  | prune now => exact landed_pruneApplied h hspared.1 hspared.2

theorem landed_run [Platform] {arrivals : List Arrival} (h : Landed key stamp T.applied)
    (hspared : AllSpared stamp T arrivals) : Landed key stamp (arrivals.foldl arrive T).applied := by
  induction arrivals generalizing T with
  | nil => exact h
  | cons a rest ih => exact ih (landed_arrive h hspared.1) hspared.2

/-- **A write lands once**, and no older one after it: not before its stamp is pruned, whatever
happens to the node in between. -/
theorem lands_once [Platform] (T : Tenants) (now now' : Instant) (origin origin' : String)
    (e stale : Event) (arrivals : List Arrival) (horigin : origin ≠ T.selfId) (hroute : (T.resolve e.key).isSome)
    (hspared : AllSpared e.stamp (T.deliver now origin e) arrivals) (hkey : stale.key = e.key)
    (hstale : stale.stamp ≤ e.stamp) :
    let T' := arrivals.foldl arrive (T.deliver now origin e)
    (T'.deliver now' origin' stale).applied = T'.applied ∧
      ∀ place, (T'.deliver now' origin' stale).storeAt place = T'.storeAt place := by
  intro T'
  have hlanded : Landed e.key e.stamp T'.applied := by
    have hfirst : Landed e.key e.stamp (T.deliver now origin e).applied := by
      obtain ⟨⟨place, key⟩, hplace⟩ := Option.isSome_iff_exists.mp hroute
      simp only [deliver, if_neg horigin, routeTarget_eq_resolve, hplace]
      exact landed_applyIfNewer (.inr ⟨rfl, le_rfl⟩)
    exact landed_run hfirst hspared
  rw [deliver]
  split
  next => exact ⟨rfl, fun _ => rfl⟩
  next =>
      split
      next => exact ⟨rfl, fun _ => rfl⟩
      next place key hplace =>
          rw [hkey, applyIfNewer_of_landed hlanded hstale]
          refine ⟨rfl, fun q => ?_⟩
          by_cases hq : q = place
          · subst hq
            exact storeAt_put_self (open_of_resolve (routeTarget_eq_resolve _ _ ▸ hplace))
          · exact storeAt_put_of_ne hq

/-- A delete stays, through a read and a pruning, when an older value comes. -/
theorem lands_once_sample :
    letI := Platform.small
    let T := [Arrival.request 0 none ⟨"k", .get⟩, .prune 0].foldl arrive
      (sample.deliver 0 "m" ⟨"k", ⟨9, 1⟩, .tombstone⟩)
    (T.deliver 0 "m" ⟨"k", ⟨8, 1⟩, .set [5] ⟨0, by decide⟩⟩).storeAt .main = T.storeAt .main := by
  let _ := Platform.small
  exact (lands_once sample 0 0 "m" "m" ⟨"k", ⟨9, 1⟩, .tombstone⟩
    ⟨"k", ⟨8, 1⟩, .set [5] ⟨0, by decide⟩⟩ [.request 0 none ⟨"k", .get⟩, .prune 0] (by decide)
    (by decide) ⟨trivial, ⟨by decide, by decide⟩, trivial⟩ rfl (by decide)).2 .main

end Tenants

end Ephpm.Cluster
