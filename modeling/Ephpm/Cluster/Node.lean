import Ephpm.Kv.Strings
import Ephpm.Cluster.HashField

/-!
# A node of the cluster

A node is a store with a replicator installed.  Its peers' writes arrive as gossip events, and they
land through one gate: the **applied map**, which holds the greatest stamp that has landed for each
transport key (`apply_if_newer`).  The gate holds a key's slot while it compares, records and
writes, so passing it is one step.

**Stamps** come from the node's stamp clock and are arguments here, so that whatever is said of a
node holds for every way its clock may have run.
-/

namespace Ephpm.Cluster

open Kv Lib

/-! ## What travels -/

/-- A write as it travels: a value with its absolute expiry, or a delete. -/
inductive Write where
  | set (value : Bytes) (expiry : WireMs)
  | tombstone
deriving DecidableEq

/-- A stamped write of a transport key. -/
structure Event where
  key : String
  stamp : Stamp
  write : Write
deriving DecidableEq

/-! ## Nodes -/

/-- A node: its store and the applied map. -/
structure Node where
  selfId : String
  smallKeyThreshold : ℕ
  store : Store
  applied : Assoc String Stamp

/-- What the gate decides. -/
inductive Apply where
  | skip
  | newer
  | firstSeen
deriving DecidableEq, Repr

/-- `is_enveloped`: the key claims to belong to a site. -/
def isEnveloped (key : String) : Bool := key.toList.head? = some '\x1f'

/-- A change as the applier gets it: a value with what is left of its lifetime, or `none`
for a delete.  A value that has expired on the way is a delete. -/
def Write.change (now : Instant) : Write → Option (Bytes × Option Duration)
  | .tombstone => none
  | .set value expiry =>
    if 0 < expiry.ms ∧ expiry.ms ≤ epochMs now then none
    else some (value, ttlFromExpiry now expiry)

namespace Node

variable [P : Platform]

omit P in
/-- `apply_if_newer`: record the stamp and run `write`, unless a write at least as new has
landed. -/
def applyIfNewer {R : Type} (key : String) (stamp : Stamp) (write : Store → R × Store)
    (n : Node) : Apply × Option R × Node :=
  match n.applied.get key with
  | some prev =>
    if stamp ≤ prev then (.skip, none, n)
    else
      let written := write n.store
      (.newer, some written.1,
        { n with applied := n.applied.insert key stamp, store := written.2 })
  | none =>
    let written := write n.store
    (.firstSeen, some written.1,
      { n with applied := n.applied.insert key stamp, store := written.2 })

/-- `materialize`: land one item in the store.  A payload that cannot be decoded is
dropped. -/
def materialize (now : Instant) (key : String) (value : Option (Bytes × Option Duration))
    (s : Store) : Store :=
  match Cluster.HashField.decodeKey key with
  | some (hash, field) =>
    match value with
    | some (payload, _) =>
      match Cluster.HashField.decodeValue now payload with
      | some state => (s.applyHashFieldLocal now hash field state).2
      | none => s
    | none => (s.applyHashFieldLocal now hash field ⟨none, none, none⟩).2
  | none =>
    match value with
    | some (bytes, ttl) => (s.setLocal now key bytes ttl).2
    | none => (s.removeLocal now key).2

end Node

end Ephpm.Cluster
