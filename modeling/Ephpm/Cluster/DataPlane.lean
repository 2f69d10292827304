import Ephpm.Cluster.SiteNamespace

/-!
# The receiving side of a node with sites

A node with sites has the global store and one store for each site it has heard of.  Writes
of peers reach it by two ways, and each routes them on its own: the gossip applier by
`route_target`, the data plane by `KvRouter::resolve`.  Both look at nothing but the
transport key, and `routeTarget_eq_resolve` says that they agree.

**One part at a time.**  Once a key is routed, a request is served from one store and the
applied map, which all stores of a node share and which is indexed by transport keys.
`Tenants.part` is that part of a node, as a node with one store, and `Tenants.put` puts it
back.

**What a request carries.**  The source reads a request into a record whose value and stamp
are there or not, depending on the operation.  Here an operation is a `Verb` that carries
what it needs.  An answer is the bytes that are written back, the entries of a share, or the
end of the connection.

**Left out.**  The framing of requests and of share batches, and the publication of a
successful conditional write by the replicator of the store it was decided on.
-/

namespace Ephpm.Cluster

open Kv Lib Kv.Store

/-! ## Stores and routing -/

/-- A store of a node. -/
inductive Place where
  | main
  | site (name : String)
deriving DecidableEq, Repr

/-- A node with its stores.  Without `sites` it serves the global store only. -/
structure Tenants where
  selfId : String
  smallKeyThreshold : ℕ
  main : Store
  siteConfig : StoreConfig
  sites : Option (Assoc String Store)
  applied : Assoc String Stamp

namespace Tenants

/-- `get_site_store` for a site, and the global store otherwise.  The store of a site that
has not been heard of is new. -/
def storeAt (place : Place) (T : Tenants) : Store :=
  match place with
  | .main => T.main
  | .site name => (T.sites.bind (·.get name)).getD (Store.new T.siteConfig)

/-- The node after a store has changed. -/
def setStore (place : Place) (s : Store) (T : Tenants) : Tenants :=
  match place with
  | .main => { T with main := s }
  | .site name => { T with sites := T.sites.map (·.insert name s) }

/-- The part of a node that serves one store. -/
def part (place : Place) (T : Tenants) : Node where
  selfId := T.selfId
  smallKeyThreshold := T.smallKeyThreshold
  store := T.storeAt place
  applied := T.applied

/-- Put a part back. -/
def put (place : Place) (n : Node) (T : Tenants) : Tenants :=
  { T.setStore place n.store with applied := n.applied }

/-- Every store with its place, as `KvRouter::stores` lists them. -/
def stores (T : Tenants) : List (Place × Store) :=
  (.main, T.main) :: (T.sites.elim [] (·.entries)).map fun site => (.site site.1, site.2)

/-- `KvRouter::resolve`. -/
def resolve (transport : String) (T : Tenants) : Option (Place × String) :=
  match SiteNamespace.decode transport with
  | some (site, key) => if T.sites.isSome then some (.site site, key) else none
  | none => if isEnveloped transport then none else some (.main, transport)

/-- `route_target` of the gossip applier. -/
def routeTarget (transport : String) (T : Tenants) : Option (Place × String) :=
  match T.sites, SiteNamespace.decode transport with
  | some _, some (site, key) => some (.site site, key)
  | none, some _ => none
  | _, none => if isEnveloped transport then none else some (.main, transport)

/-- The two ways route alike. -/
theorem routeTarget_eq_resolve (transport : String) (T : Tenants) :
    T.routeTarget transport = T.resolve transport := by
  unfold routeTarget resolve
  cases SiteNamespace.decode transport with
  | none => cases T.sites <;> rfl
  | some envelope => cases T.sites <;> rfl

theorem resolve_site {transport site key : String} {T : Tenants}
    (h : T.resolve transport = some (.site site, key)) :
    SiteNamespace.encode site key = transport ∧ SiteNamespace.isValidSiteKey site = true ∧
      T.sites.isSome = true := by
  unfold resolve at h
  split at h
  next site' key' hdecode =>
    split at h
    next hsites =>
      simp only [Option.some.injEq, Prod.mk.injEq, Place.site.injEq] at h
      obtain ⟨rfl, rfl⟩ := h
      exact ⟨(SiteNamespace.encode_of_decode hdecode).1, (SiteNamespace.encode_of_decode hdecode).2,
        hsites⟩
    · cases h
  · split at h
    · cases h
    · simp at h

/-- A key is routed to the global store only if it claims no site. -/
theorem resolve_main {transport key : String} {T : Tenants}
    (h : T.resolve transport = some (.main, key)) :
    isEnveloped transport = false ∧ key = transport := by
  unfold resolve at h
  split at h
  · split at h
    · simp at h
    · cases h
  · split at h
    · cases h
    next hglobal =>
      simp only [Option.some.injEq, Prod.mk.injEq, true_and] at h
      exact ⟨by simpa using hglobal, h.symm⟩

/-- A key that claims a site and cannot be honoured is routed nowhere. -/
theorem resolve_refused {transport : String} {T : Tenants} (henveloped : isEnveloped transport = true)
    (hrefused : SiteNamespace.decode transport = none ∨ T.sites = none) :
    T.resolve transport = none := by
  unfold resolve
  rcases hrefused with hdecode | hsites
  · simp only [hdecode, henveloped, if_true]
  · cases SiteNamespace.decode transport with
    | none => simp only [henveloped, if_true]
    | some envelope => simp only [hsites, Option.isSome_none, Bool.false_eq_true, if_false]

end Tenants

/-! ## Stamped writes -/

/-- `MAX_REMOTE_TTL_MS`: ten years. -/
def maxRemoteTtlMs : ℕ := 10 * 365 * 24 * 60 * 60 * 1000

/-- A lifetime as it travels on the data plane: whole milliseconds, at least one; `0` for
none. -/
def ttlMsOf (ttl : Option Duration) : ℕ :=
  ttl.elim 0 fun ttl => max (min (ttl / nanosPerMilli) u64Max) 1

/-- The lifetime a receiver takes from the wire. -/
def remoteTtl (ttlMs : ℕ) : Option Duration :=
  if 0 < ttlMs then some (min ttlMs maxRemoteTtlMs * nanosPerMilli) else none

/-- `KvRouter::apply_stamped` on the part of a node the key is routed to.  A stale write is
acknowledged and not applied. -/
def Node.applyStamped [Platform] (now : Instant) (transport key : String) (value : Bytes)
    (ttlMs : ℕ) (stamp : Stamp) (n : Node) : Bool × Node :=
  match n.applyIfNewer transport stamp fun s => s.setLocal now key value (remoteTtl ttlMs) with
  | (_, none, n) => (true, n)
  | (_, some ok, n) => (ok, n)

/-! ## The ring of replicas

The nodes that are alive, sorted by their ids, form a ring.  A key belongs to the node its hash
points at and to the next ones clockwise, as many as the replication factor says. -/

/-- How many replicas a key has: at least one, and at most as many as there are nodes. -/
def replicaCount {α : Type*} (alive : List α) (factor : ℕ) : ℕ := min (max factor 1) alive.length

/-- `replica_nodes_for`: the nodes that hold a key, the first of them the owner. -/
def replicaNodesFor {α : Type*} (alive : List α) (keyHash factor : ℕ) : List α :=
  if alive.isEmpty then []
  else
    let start := keyHash % alive.length
    (List.range (replicaCount alive factor)).filterMap fun offset =>
      alive[(start + offset) % alive.length]?

example : replicaNodesFor ["a", "b", "c"] 5 2 = ["c", "a"] := by decide

/-! ## Shares -/

/-- An entry of a share, with what the receiver orders it by. -/
structure ShareEntry where
  transportKey : String
  value : Bytes
  ttlMs : ℕ
  stamp : Stamp
deriving DecidableEq

/-- `HandoffSource`: what a node needs to say which of its values another node is a replica
of.  `alive` is the membership as this node sees it, sorted by id, and `hashKey` the hash all
nodes place keys with. -/
structure HandoffSource where
  selfId : String
  threshold : ℕ
  factor : ℕ
  alive : List String
  hashKey : String → ℕ

namespace HandoffSource

/-- `large_min_len`: the length from which on a value is not gossiped. -/
def largeMinLen (source : HandoffSource) : ℕ := source.threshold + 1

/-- `unknown_stamp`: it loses to every real write. -/
def unknownStamp (source : HandoffSource) : Stamp := ⟨0, nodeTag source.selfId⟩

/-- `membership_with`: the membership with the requester forced in. -/
def membershipWith (requester : String) (source : HandoffSource) : List String :=
  if requester ∈ source.alive then source.alive
  else (source.alive ++ [requester]).insertionSort (· ≤ ·)

/-- `replica_includes`: a node is among the replicas of a key. -/
def replicaIncludes (membership : List String) (id transport : String) (source : HandoffSource) :
    Bool :=
  decide (id ∈ replicaNodesFor membership (source.hashKey transport) source.factor)

/-- `holds_authoritative`: this node's copy is one the key's replicas are kept in step with. -/
def holdsAuthoritative (membership : List String) (transport : String) (source : HandoffSource) :
    Bool :=
  source.replicaIncludes membership source.selfId transport

end HandoffSource

/-- `transport_key`: a key of a store as it travels. -/
def transportKey : Place → String → String
  | .main, key => key
  | .site site, key => SiteNamespace.encode site key

namespace Tenants

variable [P : Platform]

/-- `stamped_entry`: a value with its stamp, read as one pair. -/
def stampedEntry (now : Instant) (source : HandoffSource) (place : Place) (key : String)
    (T : Tenants) : Option ShareEntry :=
  ((T.storeAt place).getWithTtl now key).bind fun found =>
    if found.1.length < source.largeMinLen then none
    else
      some
        { transportKey := transportKey place key
          value := found.1
          ttlMs := ttlMsOf found.2
          stamp := (T.applied.get (transportKey place key)).getD source.unknownStamp }

/-- `serve_share`: the large values a node holds for its requester. -/
def serveShare (now : Instant) (source : Option HandoffSource) (requester : String) (T : Tenants) :
    List ShareEntry :=
  source.elim [] fun source =>
    let membership := source.membershipWith requester
    T.stores.flatMap fun store =>
      (store.2.scanStringsDecoded now source.largeMinLen).filterMap fun key =>
        let transport := transportKey store.1 key
        if source.replicaIncludes membership requester transport &&
            source.holdsAuthoritative membership transport then
          T.stampedEntry now source store.1 key
        else none

end Tenants

/-! ## Requests -/

/-- What a request asks for, with what it carries. -/
inductive Verb where
  | get
  | getStamped
  | set (value : Bytes)
  | setV2 (value : Bytes) (ttlMs : ℕ) (stamp : Stamp)
  | setNx (value : Bytes) (ttlMs : ℕ)
  | delIfEq (token : Bytes)
  | setIfEq (payload : Bytes) (ttlMs : ℕ)
  | share
  | unknown (op : UInt8)
deriving DecidableEq

/-- A request of the data plane.  The key of a share is the id of the node that asks. -/
structure Request where
  key : String
  verb : Verb

/-- What is written back. -/
inductive Answer where
  | bytes (message : Bytes)
  | shared (entries : List ShareEntry)
  | dropped
deriving DecidableEq

/-- `NOT_FOUND_SENTINEL`: the length that says that there is no value. -/
def notFoundSentinel : ℕ := 2 ^ 32 - 1

/-- The status bytes `SET_OK`, `SET_REJECTED`, `COND_NOT_APPLIED` and `COND_UNROUTABLE`. -/
inductive Status where
  | ok
  | rejected
  | notApplied
  | unroutable

/-- A status on the wire. -/
def Status.answer : Status → Answer
  | .ok => .bytes [0]
  | .rejected => .bytes [1]
  | .notApplied => .bytes [2]
  | .unroutable => .bytes [3]

/-- Nothing was found. -/
def notFound : Answer := .bytes (beBytes 4 notFoundSentinel)

/-- A value in front of what follows it. -/
def found (value trailer : Bytes) : Answer :=
  let len := if value.length < 2 ^ 32 then value.length else notFoundSentinel - 1
  .bytes (beBytes 4 len ++ value ++ trailer)

/-- `parse_set_if_eq_payload`: the mode, the value that is expected and the new one. -/
def parseSetIfEqPayload (payload : Bytes) : Option (UInt8 × Bytes × Bytes) :=
  match payload with
  | [] => none
  | mode :: rest =>
    if rest.length < 4 then none
    else
      let len := ofBeBytes (rest.take 4)
      let body := rest.drop 4
      if body.length < len then none else some (mode, body.take len, body.drop len)

/-- What a node answers for a key it cannot route. -/
def Verb.refused : Verb → Answer
  | .get | .getStamped => notFound
  | .setNx _ _ | .delIfEq _ | .setIfEq _ _ => Status.unroutable.answer
  | _ => Status.rejected.answer

/-- An operation that writes a value without a condition. -/
def Verb.isSet : Verb → Bool
  | .set _ | .setV2 _ _ _ => true
  | _ => false

namespace Node

variable [P : Platform]

/-- What `GET-STAMPED` reads: a string with its lifetime, or a field in its encoding. -/
def readStamped (now : Instant) (key : String) (n : Node) : Option (Bytes × Option Duration) :=
  match Cluster.HashField.decodeKey key with
  | some (hash, field) =>
    let state := n.store.hashFieldState now hash field
    state.value.map fun value =>
      ((Cluster.HashField.encodeValue now value state.fieldTtl state.hashTtl).1, none)
  | none => n.store.getWithTtl now key

/-- The rest of `serve_request`, on the part of the node the key is routed to. -/
def serve (now : Instant) (transport key : String) (verb : Verb) (n : Node) : Answer × Node :=
  match verb with
  | .get =>
    let read := n.store.get now key
    (read.1.elim notFound (found · []), { n with store := read.2 })
  | .getStamped =>
    ((n.readStamped now key).elim notFound fun value =>
      let stamp := (n.applied.get transport).getD ⟨0, 0⟩
      found value.1 ((if stamp = ⟨0, 0⟩ then 0 else 1) ::
        (beBytes 8 stamp.write ++ beBytes 8 stamp.nodeTag ++ beBytes 8 (ttlMsOf value.2))), n)
  | .set value =>
    let done := n.store.setLocal now key value none
    ((if done.1 then Status.ok else Status.rejected).answer, { n with store := done.2 })
  | .setV2 value ttlMs stamp =>
    let done := n.applyStamped now transport key value ttlMs stamp
    ((if done.1 then Status.ok else Status.rejected).answer, done.2)
  | .setNx value ttlMs =>
    let done := n.store.setNxOutcomeLocal now key value (remoteTtl ttlMs)
    ((match done.1 with
      | .inserted => Status.ok
      | .exists => Status.notApplied
      | .outOfMemory => Status.rejected).answer, { n with store := done.2 })
  | .delIfEq token =>
    let done := n.store.delIfEqLocal now key token
    ((if done.1 then Status.ok else Status.notApplied).answer, { n with store := done.2 })
  | .setIfEq payload ttlMs =>
    match parseSetIfEqPayload payload with
    | none => (.dropped, n)
    | some (mode, expected, value) =>
      let ttl : SetTtl :=
        if mode = 0 then .persist
        else if mode = 2 then .keep
        else .after (min (max ttlMs 1) maxRemoteTtlMs * nanosPerMilli)
      let done := n.store.setIfEqLocal now key expected value ttl
      ((match done.1 with
        | .set => Status.ok
        | .notSet => Status.notApplied
        | .outOfMemory => Status.rejected).answer, { n with store := done.2 })
  | .share | .unknown _ => (.dropped, n)

end Node

namespace Tenants

variable [P : Platform]

/-- `serve_request`: one request, answered from the store of its site. -/
def serveRequest (now : Instant) (request : Request) (T : Tenants) : Answer × Tenants :=
  match T.resolve request.key with
  | none => (request.verb.refused, T)
  | some (place, key) =>
    if request.verb.isSet && (Cluster.HashField.decodeKey key).isSome then
      (Status.rejected.answer, T)
    else
      let done := (T.part place).serve now request.key key request.verb
      (done.1, T.put place done.2)

/-- `handle_connection`, for one request. -/
def handle (now : Instant) (source : Option HandoffSource) (request : Request) (T : Tenants) :
    Answer × Tenants :=
  match request.verb with
  | .share => (.shared (T.serveShare now source request.key), T)
  | _ => T.serveRequest now request

/-- A gossip event reaches the applier.  The node's own events are dropped. -/
def deliver (now : Instant) (origin : String) (e : Event) (T : Tenants) : Tenants :=
  if origin = T.selfId then T
  else
    match T.routeTarget e.key with
    | none => T
    | some (place, key) =>
      T.put place ((T.part place).applyIfNewer e.key e.stamp fun s =>
        ((), Node.materialize now key (e.write.change now) s)).2.2

end Tenants

end Ephpm.Cluster
