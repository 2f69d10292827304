import Mathlib.Data.List.Perm.Basic
import Ephpm.Cluster.Rendezvous
import Ephpm.Server.SiteVersion
import Ephpm.Server.Snapshot

/-!
# A round of settling

Before a node serves a site from its own copy it **settles** it.  One round (`settleRound`) looks at
the copy and at the members of the cluster, and ends in one of four ways: the site may be served,
the node has nothing to do with it, it is too early to tell, or serving is refused for a reason.

A node whose copy is empty and that owns the site asks its peers for theirs, one after the other in
the order of their ranks (`handoffCandidates`), and **takes the first** that declares a table.  If
all of them say that they have none, the site is new.  A node that owns the site and has data asks
its peers for their versions; if one of them is ahead, it throws its copy away and pulls one just as
an empty node does.

**The pull does not look at versions.**  So the copy that is pulled may be older than another one
that was offered, and even older than the one that is thrown away (`pulled_copy_freshest_iff`,
`older_copy_pulled`).

A round is modelled by all that it reads: what the local copy says, what each peer answers if it is
asked, and how the install ends.
-/

namespace Ephpm.Server

open Lib Cluster
open scoped List

/-! ## Candidates -/

/-- `Vec::swap_remove`: the last element takes the place of the one that is removed. -/
def swapRemove {α : Type*} (l : List α) (i : ℕ) : List α :=
  match l.getLast? with
  | none => []
  | some last => l.dropLast.set i last

/-- The loop of `handoff_candidates`: the winner of what is left is taken, again and again. -/
def rankAll (site : String) : (rounds : ℕ) → List NodeInfo → List NodeInfo
  | 0, _ => []
  | rounds + 1, remaining =>
    match hrwOwner remaining site with
    | none => []
    | some winner =>
      match remaining.findIdx? (fun n => n.id = winner.id) with
      | none => []
      | some i =>
        match remaining[i]? with
        | none => []
        | some n => n :: rankAll site rounds (swapRemove remaining i)

/-- The peers that may have a copy.  A node that drains is ranked like any other. -/
def alivePeers (nodes : List NodeInfo) (selfId : String) : List NodeInfo :=
  (nodes.filter fun n => n.id ≠ selfId ∧ n.state = .alive).map fun n => { n with draining := false }

/-- `handoff_candidates`: the order in which peers are asked. -/
def handoffCandidates (nodes : List NodeInfo) (selfId site : String) : List NodeInfo :=
  let remaining := alivePeers nodes selfId
  rankAll site remaining.length remaining

theorem swapRemove_perm {α : Type*} {l : List α} {i : ℕ} {x : α} (h : l[i]? = some x) :
    x :: swapRemove l i ~ l := by
  obtain ⟨hi, rfl⟩ := List.getElem?_eq_some_iff.mp h
  rcases List.eq_nil_or_concat l with rfl | ⟨front, last, rfl⟩
  · exact absurd hi (Nat.not_lt_zero i)
  · simp only [swapRemove, List.concat_eq_append, List.getLast?_append, List.getLast?_singleton,
      Option.some_or, List.dropLast_concat]
    simp only [List.concat_eq_append, List.length_append, List.length_singleton] at hi
    rcases Nat.lt_or_ge i front.length with hlt | hge
    · have hset : (front.set i last).Perm (last :: front.eraseIdx i) :=
        List.set_perm_cons_eraseIdx hlt last
      rw [List.getElem_append_left hlt]
      calc front[i] :: front.set i last
          _ ~ front[i] :: last :: front.eraseIdx i := hset.cons _
          _ ~ last :: front[i] :: front.eraseIdx i := .swap ..
          _ ~ last :: front := (List.getElem_cons_eraseIdx_perm hlt).cons _
          _ ~ front ++ [last] := (List.perm_append_singleton last front).symm
    · obtain rfl : i = front.length := by omega
      rw [List.set_eq_of_length_le le_rfl]
      simpa using (List.perm_append_singleton last front).symm

/-- A node as `handoff_candidates` ranks it. -/
def Ready (n : NodeInfo) : Prop := n.state = .alive ∧ n.draining = false

theorem mem_alivePeers {nodes : List NodeInfo} {selfId : String} {p : NodeInfo} :
    p ∈ alivePeers nodes selfId ↔
      ∃ n ∈ nodes, n.id ≠ selfId ∧ n.state = .alive ∧ p = { n with draining := false } := by
  simp only [alivePeers, List.mem_map, List.mem_filter, decide_eq_true_eq]
  constructor
  · rintro ⟨n, ⟨hmem, hne, halive⟩, rfl⟩
    exact ⟨n, hmem, hne, halive, rfl⟩
  · rintro ⟨n, hmem, hne, halive, rfl⟩
    exact ⟨n, ⟨hmem, hne, halive⟩, rfl⟩

theorem ready_of_mem_alivePeers {nodes : List NodeInfo} {selfId : String} {p : NodeInfo}
    (h : p ∈ alivePeers nodes selfId) : Ready p := by
  obtain ⟨n, -, -, halive, rfl⟩ := mem_alivePeers.mp h
  exact ⟨halive, rfl⟩

/-- Among nodes that all stay, the winner is one of them, and none is above it. -/
theorem hrwOwner_ready {remaining : List NodeInfo} (site : String) (h : ∀ n ∈ remaining, Ready n)
    (hne : remaining ≠ []) :
    ∃ w ∈ remaining, hrwOwner remaining site = some w ∧
      ∀ m ∈ remaining, rank site m.id ≤ rank site w.id := by
  obtain ⟨first, hfirst⟩ := List.exists_mem_of_ne_nil remaining hne
  have hcandidate {n : NodeInfo} (hn : n ∈ remaining) : Candidate remaining n :=
    ⟨hn, (h n hn).1, fun _ => (h n hn).2⟩
  obtain ⟨w, hw⟩ : ∃ w, hrwOwner remaining site = some w := exists_owner (hcandidate hfirst)
  obtain ⟨hmem, hbound⟩ := maxBy_spec (compare_rank site) hw
  exact ⟨w, (mem_candidates.mp hmem).mem, hw, fun m hm => hbound m (mem_candidates.mpr (hcandidate hm))⟩

/-- **The loop takes every node once, the one with the greatest rank first.** -/
theorem rankAll_spec {site : String} {rounds : ℕ} {remaining : List NodeInfo}
    (h : ∀ n ∈ remaining, Ready n) (hrounds : remaining.length ≤ rounds) :
    rankAll site rounds remaining ~ remaining ∧
      (rankAll site rounds remaining).Pairwise fun n m => rank site m.id ≤ rank site n.id := by
  induction rounds generalizing remaining with
  | zero =>
    obtain rfl : remaining = [] := List.length_eq_zero_iff.mp (Nat.le_zero.mp hrounds)
    exact ⟨.nil, .nil⟩
  | succ rounds ih =>
    by_cases hne : remaining = []
    · subst hne
      exact ⟨.nil, .nil⟩
    · obtain ⟨w, hw, howner, hbound⟩ := hrwOwner_ready site h hne
      cases hfind : remaining.findIdx? fun n => n.id = w.id with
      | none =>
        have hnone := List.findIdx?_eq_none_iff.mp hfind w hw
        simp at hnone
      | some i =>
        obtain ⟨hi, hid, -⟩ := List.findIdx?_eq_some_iff_getElem.mp hfind
        have hget : remaining[i]? = some remaining[i] := List.getElem?_eq_getElem hi
        have hperm : remaining[i] :: swapRemove remaining i ~ remaining := swapRemove_perm hget
        have hready : ∀ n ∈ swapRemove remaining i, Ready n :=
          fun n hn => h n (hperm.mem_iff.mp (List.mem_cons_of_mem _ hn))
        have hlength : (swapRemove remaining i).length ≤ rounds := by
          have := hperm.length_eq
          rw [List.length_cons] at this
          omega
        obtain ⟨hrest, hsorted⟩ := ih hready hlength
        have hstep : rankAll site (rounds + 1) remaining =
            remaining[i] :: rankAll site rounds (swapRemove remaining i) := by
          rw [rankAll, howner]
          dsimp only
          rw [hfind]
          dsimp only
          rw [hget]
        rw [hstep]
        refine ⟨(hrest.cons _).trans hperm, List.pairwise_cons.mpr ⟨fun m hm => ?_, hsorted⟩⟩
        have hm' : m ∈ remaining := hperm.mem_iff.mp (List.mem_cons_of_mem _ (hrest.mem_iff.mp hm))
        rw [of_decide_eq_true hid]
        exact hbound m hm'

/-- **The candidates are the alive peers, ordered by rank.** -/
theorem handoffCandidates_spec (nodes : List NodeInfo) (selfId site : String) :
    handoffCandidates nodes selfId site ~ alivePeers nodes selfId ∧
      (handoffCandidates nodes selfId site).Pairwise fun n m => rank site m.id ≤ rank site n.id :=
  rankAll_spec (fun _ => ready_of_mem_alivePeers) le_rfl

/-! ## Probes -/

/-- `PeerProbe`: what a peer has. -/
inductive PeerProbe where
  | data (header : SnapshotHeader) (dump : Text) (received : ℕ)
  | noCopy
  | unreachable (reason : Text)
deriving DecidableEq, Repr

/-- `HANDOFF_PROBE_TIMEOUT`, in seconds. -/
def handoffProbeTimeout : ℕ := 30

/-- `probe_body`: a dump that declares no table is no copy. -/
def probeBody (header : SnapshotHeader) (maxSnapshotBytes : ℕ) (body : List ChunkRead) : PeerProbe :=
  match readSnapshotBodyWithin header maxSnapshotBytes body with
  | .ok (dump, received) =>
    if snapshotDeclaresATable dump then .data header dump received else .noCopy
  | .error e => .unreachable e

/-- `probe_peer`. -/
def probePeer (maxSnapshotBytes : ℕ) : Opening → PeerProbe
  | .failed reason => .unreachable reason
  | .timedOut =>
    .unreachable ("no snapshot header within ".toList ++ (toString handoffProbeTimeout).toList ++
      "s".toList)
  | .opened header body =>
    if header.noCopy then .noCopy else probeBody header maxSnapshotBytes body

/-- The version that a header announces. -/
def SnapshotHeader.version (header : SnapshotHeader) : SiteVersion := ⟨header.epoch, header.watermark⟩

/-- `probe_peer_version`: only the header is read. -/
def probePeerVersion : Opening → Option SiteVersion
  | .opened header _ => if header.noCopy then none else some header.version
  | _ => none

/-- What the search for a copy gives. -/
structure PeerSearch where
  found : Option (NodeInfo × SnapshotHeader × Text × ℕ)
  unreachable : List (String × Text)

/-- `search_peers_for_copy`: the peers are asked in turn, until one has a copy. -/
def searchPeersForCopy (probe : NodeInfo → PeerProbe) :
    List NodeInfo → (unreachable : List (String × Text)) → PeerSearch
  | [], unreachable => ⟨none, unreachable⟩
  | peer :: rest, unreachable =>
    match probe peer with
    | .data header dump received => ⟨some (peer, header, dump, received), unreachable⟩
    | .noCopy => searchPeersForCopy probe rest unreachable
    | .unreachable reason => searchPeersForCopy probe rest (unreachable ++ [(peer.id, reason)])

/-- `HandoffVerdict`. -/
inductive HandoffVerdict where
  | newSite
  | awaitMembership
  | blocked
deriving DecidableEq, Repr

/-- `handoff_verdict`. -/
def handoffVerdict (unreachable : ℕ) (pastGrace : Bool) : HandoffVerdict :=
  if 0 < unreachable then .blocked else if pastGrace then .newSite else .awaitMembership

/-! ## The round -/

/-- All that a round reads. -/
structure Round where
  site : String
  selfId : String
  /-- the members, as gossip knows them -/
  nodes : List NodeInfo
  maxSnapshotBytes : UInt64
  /-- the membership had time to converge -/
  pastGrace : Bool
  /-- whether the local copy is empty, and its version -/
  localCopy : Except Text (Bool × SiteVersion)
  /-- the version that gossip knows of -/
  advert : Option SiteVersion
  /-- what a peer answers if it is asked for its version; `none` if its address is unusable -/
  versionAnswer : NodeInfo → Option Opening
  /-- what a peer answers if it is asked for its copy -/
  copyAnswer : NodeInfo → Option Opening
  /-- whether the local copy is still empty when a copy has arrived -/
  stillCold : Except Text Bool
  /-- how `install_snapshot` ends; the flag says that the local tables are dropped -/
  install : SnapshotHeader → Text → Bool → Except Text Unit
  /-- the epoch can be written -/
  epochWritable : Bool

/-- `SettleRound`.  The wait is in seconds. -/
inductive SettleRound where
  | settled
  | notOwner
  | awaitMembership (wait : ℕ)
  | blocked (reason : Text)
deriving DecidableEq, Repr

/-- A copy that was installed. -/
structure Pull where
  source : NodeInfo
  header : SnapshotHeader
  dump : Text
  /-- the version of the local copy that was thrown away -/
  discarded : Option SiteVersion
deriving DecidableEq, Repr

/-- How a round ends, and what it does on the way. -/
structure Outcome where
  result : SettleRound
  /-- the copy that was installed -/
  pulled : Option Pull
  /-- the site was taken to be new -/
  newSite : Bool
  /-- the epoch that was recorded for this ownership -/
  stamped : Option ℕ
deriving DecidableEq, Repr

/-- A round that ends with a result and leaves everything as it is. -/
def Outcome.only (result : SettleRound) : Outcome := ⟨result, none, false, none⟩

/-- `HANDOFF_OWNERSHIP_RECHECK`, in seconds. -/
def handoffOwnershipRecheck : ℕ := 2

/-- `settle_owner_version`: the epoch that is recorded, above all that are known. -/
def settleOwnerVersion (writable : Bool) (current ownEpoch : ℕ) (bestPeer : Option SiteVersion) :
    Option ℕ :=
  if writable then some (nextOwnerEpoch (max current ownEpoch) (bestPeer.elim 0 (·.epoch))) else none

/-- The epoch of a copy after an install: `apply_snapshot` adopts that of the source if it is
greater. -/
def adoptedEpoch (ownEpoch received : ℕ) : ℕ := if ownEpoch < received then received else ownEpoch

namespace Round

variable (r : Round)

/-- This node owns the site. -/
def ownerIsSelf : Bool := (hrwOwner r.nodes r.site).any fun owner => owner.id == r.selfId

/-- The peers in the order they are asked in. -/
def candidates : List NodeInfo := handoffCandidates r.nodes r.selfId r.site

/-- The version that a peer answers with. -/
def versionOf (peer : NodeInfo) : Option SiteVersion := (r.versionAnswer peer).bind probePeerVersion

/-- `best_peer_version_durable`. -/
def bestPeerVersionDurable : Option SiteVersion :=
  foldBestVersion r.advert (r.candidates.filterMap r.versionOf)

/-- The probe that the search sends to a peer. -/
def probe (peer : NodeInfo) : PeerProbe :=
  match r.copyAnswer peer with
  | some opening => probePeer r.maxSnapshotBytes.toNat opening
  | none => .unreachable "its gossip address is unusable".toList

/-- The peers that did not answer, and why. -/
def details (unreachable : List (String × Text)) : Text :=
  "; ".toList.intercalate
    (unreachable.map fun p => "peer ".toList ++ p.1.toList ++ ": ".toList ++ p.2)

/-- The refusal after an install that failed. -/
def installFailed (peer : NodeInfo) (e : Text) : Outcome :=
  .only (.blocked ("installing the copy from ".toList ++ peer.id.toList ++ " failed: ".toList ++ e))

/-- The install of a copy, and the epoch that is recorded for it. -/
def installCopy (own : SiteVersion) (bestPeer : Option SiteVersion) (discardLocal : Bool)
    (peer : NodeInfo) (header : SnapshotHeader) (dump : Text) : Outcome :=
  match r.install header dump discardLocal with
  | .ok () =>
    { result := .settled
      pulled := some ⟨peer, header, dump, if discardLocal then some own else none⟩
      newSite := false
      stamped := settleOwnerVersion r.epochWritable (adoptedEpoch own.epoch header.epoch) own.epoch
        bestPeer }
  | .error e => installFailed peer e

/-- The part of `settle_round` behind the search: a copy was found.  A local copy that was empty is
looked at again, since it may have been filled while the snapshot was in flight. -/
def finishFound (own : SiteVersion) (bestPeer : Option SiteVersion) (discardLocal : Bool)
    (peer : NodeInfo) (header : SnapshotHeader) (dump : Text) : Outcome :=
  if discardLocal then r.installCopy own bestPeer discardLocal peer header dump
  else match r.stillCold with
    | .ok true => r.installCopy own bestPeer discardLocal peer header dump
    | .ok false => .only .settled
    | .error e => installFailed peer e

/-- The part of `settle_round` behind the search: no peer has a copy. -/
def finishEmpty (own : SiteVersion) (bestPeer : Option SiteVersion) (discardLocal : Bool)
    (unreachable : List (String × Text)) : Outcome :=
  if discardLocal then
    .only (.blocked (("this node owns the site but a peer holds a fresher copy (an interim owner advanced " ++
      "it while this node was away); refusing to serve the stale copy until it is pulled: ").toList ++
      if unreachable.isEmpty then "the current owner did not answer the snapshot request".toList
      else details unreachable))
  else match handoffVerdict unreachable.length r.pastGrace with
    | .newSite =>
      { result := .settled
        pulled := none
        newSite := true
        stamped := settleOwnerVersion r.epochWritable own.epoch own.epoch bestPeer }
    | .awaitMembership => .only (.awaitMembership handoffOwnershipRecheck)
    | .blocked => .only (.blocked (details unreachable))

/-- The search and what comes of it. -/
def pull (own : SiteVersion) (bestPeer : Option SiteVersion) (discardLocal : Bool) : Outcome :=
  let search := searchPeersForCopy r.probe r.candidates []
  match search.found with
  | some (peer, header, dump, _) => r.finishFound own bestPeer discardLocal peer header dump
  | none => r.finishEmpty own bestPeer discardLocal search.unreachable

/-- The part of `settle_round` for a copy that has data. -/
def settleWarm (own : SiteVersion) : Outcome :=
  let bestPeer := if r.ownerIsSelf then r.bestPeerVersionDurable else r.advert
  match decideWarmSettle r.pastGrace r.ownerIsSelf own bestPeer with
  | .settled =>
    { Outcome.only .settled with
      stamped :=
        if r.ownerIsSelf then settleOwnerVersion r.epochWritable own.epoch own.epoch bestPeer
        else none }
  | .awaitMembership => .only (.awaitMembership handoffOwnershipRecheck)
  -- a peer is ahead: its copy takes the place of the local one
  | .blocked => r.pull own bestPeer true

end Round

/-- `settle_round`: one round of the owner's settling. -/
def settleRound (r : Round) : Outcome :=
  match r.localCopy with
  | .error e => .only (.blocked ("cold-start/version check failed: ".toList ++ e))
  | .ok (cold, own) =>
    if !cold then r.settleWarm own
    else if !r.ownerIsSelf then .only .notOwner
    else r.pull own r.advert false

/-! ## What a round pulls -/

/-- A search ends at the first peer that has data. -/
theorem searchPeersForCopy_found_iff {probe : NodeInfo → PeerProbe} {peers : List NodeInfo}
    {unreachable : List (String × Text)} {peer : NodeInfo} {header : SnapshotHeader} {dump : Text}
    {received : ℕ} :
    (searchPeersForCopy probe peers unreachable).found = some (peer, header, dump, received) ↔
      ∃ before after, peers = before ++ peer :: after ∧
        (∀ p ∈ before, ∀ h d n, probe p ≠ .data h d n) ∧ probe peer = .data header dump received := by
  induction peers generalizing unreachable with
  | nil =>
    refine iff_of_false (by simp [searchPeersForCopy]) ?_
    rintro ⟨before, after, hsplit, -⟩
    simp at hsplit
  | cons p peers ih =>
    -- a first peer without data is passed over on both sides
    have hpass (hp : ∀ h d n, probe p ≠ .data h d n) :
        (∃ before after, p :: peers = before ++ peer :: after ∧
          (∀ q ∈ before, ∀ h d n, probe q ≠ .data h d n) ∧
          probe peer = .data header dump received) ↔
        ∃ before after, peers = before ++ peer :: after ∧
          (∀ q ∈ before, ∀ h d n, probe q ≠ .data h d n) ∧
          probe peer = .data header dump received := by
      constructor
      · rintro ⟨before, after, hsplit, hbefore, hdata⟩
        cases before with
        | nil =>
          obtain ⟨rfl, -⟩ := List.cons.inj hsplit
          exact absurd hdata (hp _ _ _)
        | cons q before =>
          obtain ⟨-, hsplit⟩ := List.cons.inj hsplit
          exact ⟨before, after, hsplit, fun q hq => hbefore q (List.mem_cons_of_mem _ hq), hdata⟩
      · rintro ⟨before, after, hsplit, hbefore, hdata⟩
        refine ⟨p :: before, after, by rw [hsplit, List.cons_append], ?_, hdata⟩
        exact List.forall_mem_cons.mpr ⟨hp, hbefore⟩
    unfold searchPeersForCopy
    cases hprobe : probe p with
    | data h d n =>
      constructor
      · intro heq
        obtain ⟨rfl, rfl, rfl, rfl⟩ : p = peer ∧ h = header ∧ d = dump ∧ n = received := by
          simpa using heq
        exact ⟨[], peers, rfl, fun q hq => absurd hq List.not_mem_nil, hprobe⟩
      · rintro ⟨before, after, hsplit, hbefore, hdata⟩
        cases before with
        | nil =>
          obtain ⟨rfl, -⟩ := List.cons.inj hsplit
          rw [hprobe] at hdata
          obtain ⟨rfl, rfl, rfl⟩ := PeerProbe.data.inj hdata
          rfl
        | cons q before =>
          obtain ⟨rfl, -⟩ := List.cons.inj hsplit
          exact absurd hprobe (hbefore p List.mem_cons_self h d n)
    | noCopy =>
      dsimp only
      rw [ih, hpass (by rw [hprobe]; intros; exact PeerProbe.noConfusion)]
    | unreachable reason =>
      dsimp only
      rw [ih, hpass (by rw [hprobe]; intros; exact PeerProbe.noConfusion)]

/-- The node knows the members, owns the site and was told of a version ahead of its own. -/
def Round.Behind (r : Round) (own : SiteVersion) : Prop :=
  r.pastGrace = true ∧ r.ownerIsSelf = true ∧
    ∃ v, (v ∈ r.candidates.filterMap r.versionOf ∨ v ∈ r.advert) ∧ own < v

/-- **The rounds that go for a copy**: the node owns the site, and its copy is empty or behind.  The
flag says that the local copy is thrown away. -/
inductive Searches (r : Round) : SiteVersion → Bool → Prop
  | coldOwner {own : SiteVersion} (hcold : r.localCopy = .ok (true, own))
      (howner : r.ownerIsSelf = true) : Searches r own false
  | behind {own : SiteVersion} (hwarm : r.localCopy = .ok (false, own)) (hbehind : r.Behind own) :
      Searches r own true

/-- The first candidate that sends a dump with a table, and what it sends. -/
def FirstCopy (r : Round) (peer : NodeInfo) (header : SnapshotHeader) (dump : Text) : Prop :=
  ∃ before after received, r.candidates = before ++ peer :: after ∧
    (∀ p ∈ before, ∀ h d n, r.probe p ≠ .data h d n) ∧ r.probe peer = .data header dump received

section Rounds

variable {r : Round} {own own' : SiteVersion} {best : Option SiteVersion} {discardLocal discard' : Bool}
  {peer : NodeInfo} {header : SnapshotHeader} {dump : Text} {p : Pull}

theorem Searches.localCopy (h : Searches r own discardLocal) :
    r.localCopy = .ok (!discardLocal, own) := by
  cases h with
  | coldOwner hcold => exact hcold
  | behind hwarm => exact hwarm

theorem Searches.ownerIsSelf (h : Searches r own discardLocal) : r.ownerIsSelf = true := by
  cases h with
  | coldOwner _ howner => exact howner
  | behind _ hbehind => exact hbehind.2.1

theorem Searches.unique (h : Searches r own discardLocal) (h' : Searches r own' discard') :
    own' = own ∧ discard' = discardLocal := by
  have heq := h.localCopy.symm.trans h'.localCopy
  obtain ⟨hdiscard, hown⟩ := Prod.mk.inj (Except.ok.inj heq)
  exact ⟨hown.symm, (Bool.not_inj hdiscard).symm⟩

theorem decideWarmSettle_iff_behind (r : Round) (own : SiteVersion) :
    decideWarmSettle r.pastGrace r.ownerIsSelf own
      (if r.ownerIsSelf then r.bestPeerVersionDurable else r.advert) = .blocked ↔ r.Behind own := by
  rw [decideWarmSettle_blocked_iff]
  refine and_congr_right fun _ => and_congr_right fun howner => ?_
  rw [if_pos howner]
  exact foldBestVersion_ahead

/-- A copy with data is replaced exactly if it is behind. -/
theorem settleWarm_cases (r : Round) (own : SiteVersion) :
    (r.Behind own ∧ ∃ best, r.settleWarm own = r.pull own best true) ∨
    (¬ r.Behind own ∧ (r.settleWarm own).pulled = none ∧ (r.settleWarm own).newSite = false) := by
  rw [← decideWarmSettle_iff_behind]
  unfold Round.settleWarm
  dsimp only
  cases decideWarmSettle r.pastGrace r.ownerIsSelf own
      (if r.ownerIsSelf then r.bestPeerVersionDurable else r.advert) with
  | settled => exact Or.inr ⟨WarmSettle.noConfusion, rfl, rfl⟩
  | awaitMembership => exact Or.inr ⟨WarmSettle.noConfusion, rfl, rfl⟩
  | blocked => exact Or.inl ⟨rfl, _, rfl⟩

/-- **What a round comes to**: it searches for a copy, or it ends without one. -/
theorem settleRound_cases (r : Round) :
    (∃ own best discardLocal, Searches r own discardLocal ∧
      settleRound r = r.pull own best discardLocal) ∨
    ((settleRound r).pulled = none ∧ (settleRound r).newSite = false ∧
      ∀ own discardLocal, ¬ Searches r own discardLocal) := by
  unfold settleRound
  cases hlocal : r.localCopy with
  | error e =>
    refine Or.inr ⟨rfl, rfl, fun own discardLocal h => ?_⟩
    have := h.localCopy
    rw [hlocal] at this
    cases this
  | ok copy =>
    obtain ⟨cold, own⟩ := copy
    cases cold with
    | true =>
      cases howner : r.ownerIsSelf with
      | false =>
        refine Or.inr ⟨rfl, rfl, fun own discardLocal h => ?_⟩
        have := h.ownerIsSelf
        rw [howner] at this
        cases this
      | true => exact Or.inl ⟨own, _, false, .coldOwner hlocal howner, rfl⟩
    | false =>
      show _ ∨ ((r.settleWarm own).pulled = none ∧ (r.settleWarm own).newSite = false ∧ _)
      rcases settleWarm_cases r own with ⟨hbehind, best, heq⟩ | ⟨hnot, hpull, hnew⟩
      · exact Or.inl ⟨own, best, true, .behind hlocal hbehind, heq⟩
      · refine Or.inr ⟨hpull, hnew, fun own' discardLocal h => hnot ?_⟩
        cases h with
        | coldOwner hcold =>
          rw [hlocal] at hcold
          cases hcold
        | behind hwarm hbehind =>
          rw [hlocal] at hwarm
          obtain ⟨-, rfl⟩ := Prod.mk.inj (Except.ok.inj hwarm)
          exact hbehind

theorem installCopy_pulled_iff :
    (r.installCopy own best discardLocal peer header dump).pulled = some p ↔
      r.install header dump discardLocal = .ok () ∧
        p = ⟨peer, header, dump, if discardLocal then some own else none⟩ := by
  unfold Round.installCopy
  cases r.install header dump discardLocal with
  | ok _ =>
    show some (Pull.mk ..) = some p ↔ _
    rw [Option.some.injEq, eq_comm]
    exact ⟨fun h => ⟨rfl, h⟩, fun h => h.2⟩
  | error e =>
    show none = some p ↔ _
    simp

theorem finishFound_pulled_iff :
    (r.finishFound own best discardLocal peer header dump).pulled = some p ↔
      (discardLocal = false → r.stillCold = .ok true) ∧ r.install header dump discardLocal = .ok () ∧
        p = ⟨peer, header, dump, if discardLocal then some own else none⟩ := by
  rw [← @installCopy_pulled_iff r own best]
  unfold Round.finishFound
  cases discardLocal with
  | true => simp
  | false =>
    cases r.stillCold with
    | error e =>
      show none = some p ↔ _
      simp
    | ok still =>
      cases still with
      | false =>
        show none = some p ↔ _
        simp
      | true => simp

theorem finishEmpty_pulled {unreachable : List (String × Text)} :
    (r.finishEmpty own best discardLocal unreachable).pulled = none := by
  unfold Round.finishEmpty
  split
  · rfl
  · split <;> rfl

theorem pull_pulled_iff :
    (r.pull own best discardLocal).pulled = some p ↔
      ∃ peer header dump, FirstCopy r peer header dump ∧
        (discardLocal = false → r.stillCold = .ok true) ∧
        r.install header dump discardLocal = .ok () ∧
        p = ⟨peer, header, dump, if discardLocal then some own else none⟩ := by
  unfold Round.pull
  dsimp only
  have hfound_iff (peer : NodeInfo) (header : SnapshotHeader) (dump : Text) :
      FirstCopy r peer header dump ↔ ∃ received,
        (searchPeersForCopy r.probe r.candidates []).found = some (peer, header, dump, received) := by
    constructor
    · rintro ⟨before, after, received, hfirst⟩
      exact ⟨received, searchPeersForCopy_found_iff.mpr ⟨before, after, hfirst⟩⟩
    · rintro ⟨received, hfound⟩
      obtain ⟨before, after, hfirst⟩ := searchPeersForCopy_found_iff.mp hfound
      exact ⟨before, after, received, hfirst⟩
  simp only [hfound_iff]
  cases (searchPeersForCopy r.probe r.candidates []).found with
  | none => simp [finishEmpty_pulled]
  | some found =>
    obtain ⟨peer, header, dump, received⟩ := found
    dsimp only
    rw [finishFound_pulled_iff]
    constructor
    · intro h
      exact ⟨peer, header, dump, ⟨received, rfl⟩, h⟩
    · rintro ⟨_, _, _, ⟨_, heq⟩, h⟩
      cases heq
      exact h

/-- **What a round pulls**: the copy of the first candidate that sends one, if the round goes for a
copy and the install does not fail. -/
theorem settleRound_pulled_iff :
    (settleRound r).pulled = some p ↔
      ∃ own discardLocal peer header dump, Searches r own discardLocal ∧
        FirstCopy r peer header dump ∧ (discardLocal = false → r.stillCold = .ok true) ∧
        r.install header dump discardLocal = .ok () ∧
        p = ⟨peer, header, dump, if discardLocal then some own else none⟩ := by
  rcases settleRound_cases r with ⟨own, best, discardLocal, hsearches, heq⟩ | ⟨hnone, -, hnot⟩
  · rw [heq, pull_pulled_iff]
    constructor
    · rintro ⟨peer, header, dump, h⟩
      exact ⟨own, discardLocal, peer, header, dump, hsearches, h⟩
    · rintro ⟨own', discard', peer, header, dump, hsearches', h⟩
      obtain ⟨rfl, rfl⟩ := hsearches.unique hsearches'
      exact ⟨peer, header, dump, h⟩
  · rw [hnone]
    refine iff_of_false (by simp) ?_
    rintro ⟨own, discardLocal, _, _, _, hsearches, -⟩
    exact hnot own discardLocal hsearches

end Rounds

/-! ## Freshness -/

/-- A peer **answers with a copy** of a version.  Only a node that has data asks for versions. -/
inductive Offers (r : Round) (peer : NodeInfo) (v : SiteVersion) : Prop
  | copy (h : (r.copyAnswer peer).bind probePeerVersion = some v)
  | version {own : SiteVersion} (hwarm : r.localCopy = .ok (false, own)) (h : r.versionOf peer = some v)

/-- No alive peer answers with a version above this one. -/
def Round.Freshest (r : Round) (v : SiteVersion) : Prop :=
  ∀ peer ∈ alivePeers r.nodes r.selfId, ∀ w, Offers r peer w → w ≤ v

/-- The copy that a round pulls is the freshest one, also in comparison to the one that is thrown
away. -/
def PullsFreshest (r : Round) : Prop :=
  ∀ pull ∈ (settleRound r).pulled,
    r.Freshest pull.header.version ∧ ∀ own ∈ pull.discarded, own ≤ pull.header.version

/-- **A pulled copy is the freshest one exactly if the copy with the best rank is.**  Whenever a
node goes for a copy and the first candidate by rank that sends one gets it installed, the version
of this copy has to be at least that of every other peer, and at least that of the local copy if
there is one. -/
theorem pulled_copy_freshest_iff (r : Round) :
    PullsFreshest r ↔
      ∀ own discardLocal peer header dump, Searches r own discardLocal →
        FirstCopy r peer header dump → (discardLocal = false → r.stillCold = .ok true) →
        r.install header dump discardLocal = .ok () →
          r.Freshest header.version ∧ (discardLocal = true → own ≤ header.version) := by
  constructor
  · intro h own discardLocal peer header dump hsearches hfirst hstill hinstall
    obtain ⟨hfresh, hown⟩ := h _ (settleRound_pulled_iff.mpr
      ⟨own, discardLocal, peer, header, dump, hsearches, hfirst, hstill, hinstall, rfl⟩)
    exact ⟨hfresh, fun hdiscard => hown own (by rw [hdiscard]; rfl)⟩
  · intro h pull hpull
    obtain ⟨own, discardLocal, peer, header, dump, hsearches, hfirst, hstill, hinstall, rfl⟩ :=
      settleRound_pulled_iff.mp hpull
    obtain ⟨hfresh, hown⟩ := h own discardLocal peer header dump hsearches hfirst hstill hinstall
    refine ⟨hfresh, fun own' hown' => ?_⟩
    cases discardLocal with
    | false => exact absurd hown' (by simp)
    | true =>
      obtain rfl : own = own' := Option.some.inj hown'
      exact hown rfl

/-- Three nodes that are alive. -/
def threeNodes : List NodeInfo :=
  [⟨"n1", "", .alive, false⟩, ⟨"n2", "", .alive, false⟩, ⟨"n3", "", .alive, false⟩]

/-- A copy with one empty table. -/
def oneTable (name definition : Text) (epoch : ℕ) : Database where
  schema := [⟨.table, name, some definition⟩]
  columns _ := ["a".toList]
  rows _ := .ok []
  head := 5
  epoch := epoch
  logId := "log".toList

/-- The owner of the site is back with a copy of epoch 2.  Of its two peers, the one with the better
rank has a copy of epoch 1, the other one of epoch 3. -/
def staleRound : Round where
  site := "s001"
  selfId := "n3"
  nodes := threeNodes
  maxSnapshotBytes := 1024
  pastGrace := true
  localCopy := .ok (false, ⟨2, 0⟩)
  advert := none
  versionAnswer peer := some (copyOf peer)
  copyAnswer peer := some (copyOf peer)
  stillCold := .ok false
  install _ _ _ := .ok ()
  epochWritable := true
where
  copyOf (peer : NodeInfo) : Opening :=
    let epoch := if peer.id = "n2" then 1 else 3
    deliver (serveSnapshot (some (oneTable "t".toList "CREATE TABLE t(a)".toList epoch))) .complete

/-- **The older copy is pulled**: it takes the place of one of epoch 2 because there is one of epoch
3, and it is recorded under the next epoch. -/
theorem older_copy_pulled :
    (settleRound staleRound).stamped = some 4 ∧ ¬ PullsFreshest staleRound := by
  refine ⟨by decide +kernel, fun h => ?_⟩
  have hpulled : (settleRound staleRound).pulled.map (fun p => (p.header.version, p.discarded)) =
      some (⟨1, 5⟩, some ⟨2, 0⟩) := by decide +kernel
  obtain ⟨pull, hpull, heq⟩ := Option.map_eq_some_iff.mp hpulled
  obtain ⟨hversion, hdiscarded⟩ := Prod.mk.inj heq
  have hle := (h pull hpull).2 ⟨2, 0⟩ hdiscarded
  rw [hversion] at hle
  exact absurd hle (by decide)

end Ephpm.Server
