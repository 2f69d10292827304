import Ephpm.Cluster.Rendezvous
import Ephpm.Lib.Split
import Ephpm.Lib.Utf8
import Ephpm.Kv.Entry

/-!
# The election of a primary

Of the nodes that hold a database one is its primary, and the others replicate from it.  The
primary publishes a **claim** to the gossip tier, which keeps the last claim written; every few
seconds each node reads the claim, compares it with its membership view and decides on its role
(`evaluate_role`).  There are two modes.

* **Per site**: ownership is a function of the membership (`hrw_owner`), so a claim that
  disagrees with it is out of date, whoever wrote it.
* **Single database**: the claim decides.  Of two nodes that both believe to be the primary the
  one with the lower id keeps the role, and without a claim the node with the lowest id is
  elected.

In both modes the nodes are to **converge from any assignment of roles**: a database with two
primaries is written to twice.  A node publishes no claim unless it takes the role, so all turns
on what a node that holds the role does when it reads the claim of another one.

A claim is a text of three fields.  An address has no `|` and neither has a log id, but a node
id is whatever the configuration says.
-/

namespace Ephpm.Cluster

open Kv (Duration)
open Lib

/-! ## Claims -/

/-- The value of the claim key. -/
structure PrimaryClaim where
  nodeId : String
  grpcAddr : String
  logId : String
deriving DecidableEq, Repr

namespace PrimaryClaim

/-- The claim as it is published, with `|` between its fields. -/
def encode (claim : PrimaryClaim) : ByteArray :=
  (claim.nodeId ++ "|" ++ claim.grpcAddr ++ "|" ++ claim.logId).toUTF8

/-- `decode`: a claim of two fields is one of an older node, and has no log id. -/
def decode (bytes : ByteArray) : Option PrimaryClaim :=
  (String.fromUTF8? bytes).bind fun s =>
    (cutAt '|' s.toList).map fun (nodeId, rest) =>
      match cutAt '|' rest with
      | none => ⟨String.ofList nodeId, String.ofList rest, ""⟩
      | some (grpcAddr, logId) =>
        ⟨String.ofList nodeId, String.ofList grpcAddr, String.ofList logId⟩

/-- No claim names a node whose id contains the separator. -/
theorem sep_notMem_nodeId {bytes : ByteArray} {claim : PrimaryClaim}
    (h : decode bytes = some claim) : '|' ∉ claim.nodeId.toList := by
  obtain ⟨s, -, hs⟩ := Option.bind_eq_some_iff.mp h
  obtain ⟨⟨nodeId, rest⟩, hcut, hclaim⟩ := Option.map_eq_some_iff.mp hs
  have hfree := sep_notMem_of_cutAt hcut
  rw [← hclaim]
  cases hrest : cutAt '|' rest <;> simpa [hrest] using hfree

/-- A claim names its author, if the id of the author is free of separators. -/
theorem decode_encode_nodeId {claim : PrimaryClaim} (hid : '|' ∉ claim.nodeId.toList) :
    ∃ claim', decode claim.encode = some claim' ∧ claim'.nodeId = claim.nodeId := by
  have hchars : (claim.nodeId ++ "|" ++ claim.grpcAddr ++ "|" ++ claim.logId).toList =
      claim.nodeId.toList ++ '|' :: (claim.grpcAddr.toList ++ '|' :: claim.logId.toList) := by
    simp
  simp only [decode, encode, Utf8.fromUTF8_toUTF8, Option.bind_some, hchars, cutAt_append hid,
    Option.map_some]
  refine ⟨_, rfl, ?_⟩
  cases cutAt '|' (claim.grpcAddr.toList ++ '|' :: claim.logId.toList) <;> simp

/-- A claim comes back whole, if its address is free of separators as well. -/
theorem decode_encode {claim : PrimaryClaim} (hid : '|' ∉ claim.nodeId.toList)
    (haddr : '|' ∉ claim.grpcAddr.toList) : decode claim.encode = some claim := by
  have hchars : (claim.nodeId ++ "|" ++ claim.grpcAddr ++ "|" ++ claim.logId).toList =
      claim.nodeId.toList ++ '|' :: (claim.grpcAddr.toList ++ '|' :: claim.logId.toList) := by
    simp
  simp only [decode, encode, Utf8.fromUTF8_toUTF8, Option.bind_some, hchars, cutAt_append hid,
    cutAt_append haddr, Option.map_some, String.ofList_toList]

end PrimaryClaim

/-- How a claim relates to the node that reads it. -/
inductive ClaimKind where
  | ownFresh
  | ownStale
  | foreign
deriving DecidableEq, Repr

/-- `classify_claim`: a claim is our own only if it describes the database we hold. -/
def classifyClaim (claim : PrimaryClaim) (selfId selfLogId : String) : ClaimKind :=
  if claim.nodeId ≠ selfId then .foreign
  else if claim.logId = selfLogId then .ownFresh
  else .ownStale

/-! ## One evaluation -/

/-- `ElectedRole`. -/
inductive ElectedRole where
  | primary
  | replica (primaryGrpcUrl : String)
deriving DecidableEq, Repr

/-- `node_should_be_primary`: the owner of the site, or the lowest id alive. -/
def nodeShouldBePrimary (site : Option String) (selfId : String) (nodes : List NodeInfo) : Bool :=
  match site with
  | some site => (hrwOwner nodes site).any fun n => n.id = selfId
  | none =>
    (minBy (fun a b => compare a.id b.id) (nodes.filter fun n => n.state = .alive)).any
      fun n => n.id = selfId

/-- `incumbent_wins_tie`: the smaller id wins. -/
def incumbentWinsTie (selfId claimantId : String) : Bool := selfId < claimantId

/-- The election of one node.  Its clock is the time since `boot`, which every evaluation is
given. -/
structure SqliteElection where
  selfId : String
  grpcListen : String
  logId : String
  site : Option String

/-- `STARTUP_GRACE`: the time to live of a claim and one interval of heartbeats. -/
def startupGrace : Duration := (10 + 5) * 1000000000

namespace SqliteElection

/-- `should_be_primary`. -/
def shouldBePrimary (self : SqliteElection) (nodes : List NodeInfo) : Bool :=
  nodeShouldBePrimary self.site self.selfId nodes

/-- `per_site_hrw_names_us`: the node is the owner of the site. -/
def perSiteHrwNamesUs (self : SqliteElection) (nodes : List NodeInfo) : Bool :=
  if self.site.isNone then false else self.shouldBePrimary nodes

/-- `wins_conflict`: whether we keep the role against the claim of another node.  Per site the
higher score wins, and the greater id of two with one score. -/
def winsConflict (self : SqliteElection) (claimantId : String) : Bool :=
  match self.site with
  | some site =>
    let mine := hrwScore self.selfId site
    let theirs := hrwScore claimantId site
    decide (theirs < mine) || (mine == theirs && decide (claimantId < self.selfId))
  | none => incumbentWinsTie self.selfId claimantId

/-- The claim that `publish_claim` writes. -/
def claim (self : SqliteElection) : PrimaryClaim := ⟨self.selfId, self.grpcListen, self.logId⟩

end SqliteElection

section Evaluate

-- `host_of`: the host of an address, as the socket addresses of the platform are parsed
variable (hostOf : String → Option String)

/-- `replica_url_for`: a claim is followed only to the host of a member. -/
def replicaUrlFor (nodes : List NodeInfo) (claim : PrimaryClaim) : Option String :=
  (hostOf claim.grpcAddr).bind fun claimHost =>
    if (nodes.filterMap fun n => hostOf n.gossipAddr).any (· = claimHost) then
      some ("http://" ++ claim.grpcAddr)
    else none

namespace SqliteElection

/-- The end of `evaluate_role`, where no claim is in the way.  A node that has just started and
holds no role waits first. -/
def elect (self : SqliteElection) (nodes : List NodeInfo) (elapsed : Duration)
    (current : ElectedRole) : ElectedRole × Option ByteArray :=
  if current ≠ .primary ∧ elapsed < startupGrace then (.replica "", none)
  else if self.shouldBePrimary nodes then (.primary, some self.claim.encode)
  else (.replica "", none)

/-- `evaluate_role`: the role of a node, and the claim it publishes. -/
def evaluateRole (self : SqliteElection) (nodes : List NodeInfo) (visible : Option ByteArray)
    (elapsed : Duration) (current : ElectedRole) : ElectedRole × Option ByteArray :=
  match visible.bind PrimaryClaim.decode with
  | none => self.elect nodes elapsed current
  | some claim =>
    match classifyClaim claim self.selfId self.logId with
    | .ownFresh =>
      if self.site.isNone || self.perSiteHrwNamesUs nodes then
        (.primary, some self.claim.encode)
      else self.elect nodes elapsed current
    | .ownStale => self.elect nodes elapsed current
    | .foreign =>
      let primaryAlive := nodes.any fun n => n.id = claim.nodeId && n.state = .alive
      if primaryAlive && !self.perSiteHrwNamesUs nodes then
        if current = .primary ∧ self.winsConflict claim.nodeId = true then
          (.primary, some self.claim.encode)
        else (.replica ((replicaUrlFor hostOf nodes claim).getD ""), none)
      else self.elect nodes elapsed current

variable {hostOf} {self : SqliteElection} {nodes : List NodeInfo} {visible : Option ByteArray}
  {elapsed : Duration} {current : ElectedRole} {claim : PrimaryClaim}

theorem elect_of_should (hshould : self.shouldBePrimary nodes = true)
    (hready : current = .primary ∨ startupGrace ≤ elapsed) :
    self.elect nodes elapsed current = (.primary, some self.claim.encode) := by
  have hwait : ¬ (current ≠ .primary ∧ elapsed < startupGrace) := by
    rintro ⟨hnot, hlt⟩
    exact hready.elim hnot fun hle => absurd hlt (not_lt.mpr hle)
  rw [elect, if_neg hwait, if_pos hshould]

theorem elect_of_not_should (hshould : self.shouldBePrimary nodes = false) :
    self.elect nodes elapsed current = (.replica "", none) := by
  simp [elect, hshould]

/-- **Per site, the owner takes the role**, whatever claim it reads. -/
theorem evaluateRole_owner (hsite : self.site.isSome = true)
    (hshould : self.shouldBePrimary nodes = true)
    (hready : current = .primary ∨ startupGrace ≤ elapsed) :
    evaluateRole hostOf self nodes visible elapsed current =
      (.primary, some self.claim.encode) := by
  have hnames : self.perSiteHrwNamesUs nodes = true := by
    rw [perSiteHrwNamesUs, if_neg (by simpa using Option.isSome_iff_ne_none.mp hsite), hshould]
  unfold evaluateRole
  split
  · exact elect_of_should hshould hready
  · split
    · simp [hnames]
    · exact elect_of_should hshould hready
    · simp only [hnames, Bool.not_true, Bool.and_false, Bool.false_eq_true, if_false]
      exact elect_of_should hshould hready

/-- In single-database mode a node refreshes its own claim. -/
theorem evaluateRole_own (hsite : self.site = none)
    (hclaim : visible.bind PrimaryClaim.decode = some claim) (hid : claim.nodeId = self.selfId)
    (hlog : claim.logId = self.logId) :
    evaluateRole hostOf self nodes visible elapsed current =
      (.primary, some self.claim.encode) := by
  simp [evaluateRole, hclaim, classifyClaim, hid, hlog, hsite]

/-- A node that is not named by its membership view yields to the claim of a live one, unless it
holds the role and wins the conflict. -/
theorem evaluateRole_foreign (hclaim : visible.bind PrimaryClaim.decode = some claim)
    (hid : claim.nodeId ≠ self.selfId)
    (halive : ∃ n ∈ nodes, n.id = claim.nodeId ∧ n.state = .alive)
    (hnames : self.perSiteHrwNamesUs nodes = false) :
    evaluateRole hostOf self nodes visible elapsed current =
      if current = .primary ∧ self.winsConflict claim.nodeId = true then
        (.primary, some self.claim.encode)
      else (.replica ((replicaUrlFor hostOf nodes claim).getD ""), none) := by
  have hany : (nodes.any fun n => n.id = claim.nodeId && n.state = .alive) = true := by
    obtain ⟨n, hn, hnid, hstate⟩ := halive
    exact List.any_eq_true.mpr ⟨n, hn, by simp [hnid, hstate]⟩
  simp only [evaluateRole, hclaim, classifyClaim, ne_eq, hid, not_false_eq_true, if_true, hany,
    hnames, Bool.not_false, Bool.and_self]

end SqliteElection

end Evaluate

/-! ## Many nodes -/

/-- The nodes of an election: all see one membership and read one claim key. -/
structure Electorate where
  hostOf : String → Option String
  nodes : List NodeInfo
  site : Option String
  /-- The address a node advertises. -/
  grpcListen : String → String
  /-- The identity of the database a node holds. -/
  logId : String → String

/-- The roles of the nodes, and the claim that was published last. -/
@[ext]
structure Office where
  roles : String → ElectedRole
  claim : Option ByteArray

namespace Electorate

/-- The election as one of the nodes takes part in it. -/
def election (e : Electorate) (nodeId : String) : SqliteElection :=
  ⟨nodeId, e.grpcListen nodeId, e.logId nodeId, e.site⟩

/-- What a node publishes. -/
def claimOf (e : Electorate) (nodeId : String) : ByteArray := (e.election nodeId).claim.encode

/-- One node evaluates its role, so long after it was started. -/
def evaluate (e : Electorate) (s : Office) (turn : String × Duration) : Office :=
  let outcome := (e.election turn.1).evaluateRole e.hostOf e.nodes s.claim turn.2 (s.roles turn.1)
  ⟨Function.update s.roles turn.1 outcome.1, outcome.2.or s.claim⟩

/-- The nodes evaluate their roles in turn. -/
def run (e : Electorate) (s : Office) (turns : List (String × Duration)) : Office :=
  turns.foldl e.evaluate s

/-- Every node is evaluated twice, round after round in one order, and none has just started. -/
def TwoRounds (e : Electorate) (turns : List (String × Duration)) : Prop :=
  (∃ order, order.Perm (e.nodes.map (·.id)) ∧ turns.map Prod.fst = order ++ order) ∧
    ∀ turn ∈ turns, startupGrace ≤ turn.2

/-- One member is the primary, and the claim names it. -/
def Converged (e : Electorate) (primary : String) (s : Office) : Prop :=
  (∀ n ∈ e.nodes, s.roles n.id = .primary ↔ n.id = primary) ∧
    ∃ claim, s.claim.bind PrimaryClaim.decode = some claim ∧ claim.nodeId = primary

section Runs

variable {e : Electorate} {s : Office} {p : String}

theorem run_cons (turn : String × Duration) (turns : List (String × Duration)) :
    e.run s (turn :: turns) = e.run (e.evaluate s turn) turns := rfl

theorem run_append (first second : List (String × Duration)) :
    e.run s (first ++ second) = e.run (e.run s first) second := List.foldl_append

theorem evaluate_roles_self (turn : String × Duration) :
    (e.evaluate s turn).roles turn.1 =
      ((e.election turn.1).evaluateRole e.hostOf e.nodes s.claim turn.2 (s.roles turn.1)).1 :=
  Function.update_self _ _ _

theorem evaluate_roles_of_ne {turn : String × Duration} {id : String} (h : id ≠ turn.1) :
    (e.evaluate s turn).roles id = s.roles id := Function.update_of_ne h _ _

/-- Another node's evaluation does not change a role. -/
theorem run_roles_of_notMem {turns : List (String × Duration)} {id : String}
    (h : id ∉ turns.map Prod.fst) : (e.run s turns).roles id = s.roles id := by
  induction turns generalizing s with
  | nil => rfl
  | cons turn turns ih =>
    rw [List.map_cons, List.mem_cons, not_or] at h
    rw [run_cons, ih h.2, evaluate_roles_of_ne h.1]

/-! ## A node that holds the office -/

/-- A member that can hold the office: its claim names it, it stays primary when it reads that
claim, and no other member is named by its membership view instead. -/
structure Holder (e : Electorate) (p : String) : Prop where
  mem : ∃ n ∈ e.nodes, n.id = p ∧ n.state = .alive
  named : ∃ claim, PrimaryClaim.decode (e.claimOf p) = some claim ∧ claim.nodeId = p
  stays : ∀ elapsed, (e.election p).evaluateRole e.hostOf e.nodes (some (e.claimOf p)) elapsed
    .primary = (.primary, some (e.claimOf p))
  others : ∀ n ∈ e.nodes, n.id ≠ p → (e.election n.id).perSiteHrwNamesUs e.nodes = false

/-- A member holds the office, and nobody will contest it. -/
structure Settled (e : Electorate) (p : String) (s : Office) : Prop where
  claim : s.claim = some (e.claimOf p)
  primary : s.roles p = .primary
  uncontested : ∀ n ∈ e.nodes, n.id ≠ p → s.roles n.id = .primary →
    (e.election n.id).winsConflict p = false

/-- The role of a node under a primary whose claim it reads. -/
def seat (e : Electorate) (p id : String) : ElectedRole :=
  if id = p then .primary
  else .replica (((PrimaryClaim.decode (e.claimOf p)).bind
    (replicaUrlFor e.hostOf e.nodes)).getD "")

theorem seat_eq_primary {id : String} : e.seat p id = .primary ↔ id = p := by
  unfold seat
  split <;> simp_all

/-- **What an evaluation does under a settled primary**: the node takes its seat. -/
theorem evaluate_settled (holder : e.Holder p) (settled : e.Settled p s)
    {turn : String × Duration} (hmem : turn.1 ∈ e.nodes.map (·.id)) :
    e.evaluate s turn = ⟨Function.update s.roles turn.1 (e.seat p turn.1), s.claim⟩ := by
  obtain ⟨n, hn, hid⟩ := List.mem_map.mp hmem
  unfold evaluate seat
  by_cases hself : turn.1 = p
  · rw [hself, settled.claim, settled.primary, holder.stays, if_pos rfl]
    rfl
  · obtain ⟨claim, hdecode, hclaim⟩ := holder.named
    have hvisible : s.claim.bind PrimaryClaim.decode = some claim := by
      rw [settled.claim]
      exact hdecode
    have hlost : ¬ (s.roles turn.1 = .primary ∧
        (e.election turn.1).winsConflict claim.nodeId = true) := by
      rintro ⟨hrole, hwins⟩
      rw [← hid] at hrole hwins hself
      rw [hclaim, settled.uncontested n hn hself hrole] at hwins
      cases hwins
    have hnames : (e.election turn.1).perSiteHrwNamesUs e.nodes = false := by
      rw [← hid] at hself ⊢
      exact holder.others n hn hself
    rw [SqliteElection.evaluateRole_foreign hvisible (by rw [hclaim]; exact Ne.symm hself)
      (by rw [hclaim]; exact holder.mem) hnames, if_neg hlost, if_neg hself, hdecode]
    rfl

theorem Settled.evaluate (holder : e.Holder p) (settled : e.Settled p s)
    {turn : String × Duration} (hmem : turn.1 ∈ e.nodes.map (·.id)) :
    e.Settled p (e.evaluate s turn) := by
  rw [evaluate_settled holder settled hmem]
  refine ⟨settled.claim, ?_, fun n hn hne hrole => ?_⟩
  · show Function.update s.roles turn.1 (e.seat p turn.1) p = .primary
    by_cases hself : turn.1 = p
    · rw [hself, Function.update_self, seat_eq_primary]
    · rw [Function.update_of_ne (Ne.symm hself), settled.primary]
  · change Function.update s.roles turn.1 (e.seat p turn.1) n.id = .primary at hrole
    by_cases hturn : n.id = turn.1
    · rw [hturn, Function.update_self, seat_eq_primary] at hrole
      exact absurd (hturn.trans hrole) hne
    · rw [Function.update_of_ne hturn] at hrole
      exact settled.uncontested n hn hne hrole

theorem Settled.run (holder : e.Holder p) {turns : List (String × Duration)}
    (hmem : ∀ turn ∈ turns, turn.1 ∈ e.nodes.map (·.id)) (settled : e.Settled p s) :
    e.Settled p (e.run s turns) ∧
      ∀ id, id ∈ turns.map Prod.fst ∨ s.roles id = e.seat p id →
        (e.run s turns).roles id = e.seat p id := by
  induction turns generalizing s with
  | nil =>
    refine ⟨settled, fun id hid => ?_⟩
    rcases hid with hid | hid
    · exact absurd hid List.not_mem_nil
    · exact hid
  | cons turn turns ih =>
    have hturn := hmem turn List.mem_cons_self
    obtain ⟨hsettled, hseats⟩ := ih (fun t ht => hmem t (List.mem_cons_of_mem _ ht))
      (settled.evaluate holder hturn)
    refine ⟨hsettled, fun id hid => hseats id ?_⟩
    rw [evaluate_settled holder settled hturn]
    by_cases hself : id = turn.1
    · right
      show Function.update s.roles turn.1 (e.seat p turn.1) id = e.seat p id
      rw [hself, Function.update_self]
    · rcases hid with hid | hid
      · exact Or.inl ((List.mem_cons.mp hid).resolve_left hself)
      · exact Or.inr ((Function.update_of_ne hself _ _).trans hid)

theorem Settled.converged (holder : e.Holder p) (settled : e.Settled p s)
    (hseats : ∀ n ∈ e.nodes, s.roles n.id = e.seat p n.id) : e.Converged p s := by
  refine ⟨fun n hn => ?_, ?_⟩
  · rw [hseats n hn, seat_eq_primary]
  · rw [settled.claim]
    exact holder.named

/-- Where every member has its seat, nothing changes any more. -/
theorem Settled.run_eq (holder : e.Holder p) (settled : e.Settled p s)
    (hseats : ∀ n ∈ e.nodes, s.roles n.id = e.seat p n.id) {turns : List (String × Duration)}
    (hmem : ∀ turn ∈ turns, turn.1 ∈ e.nodes.map (·.id)) : e.run s turns = s := by
  induction turns with
  | nil => rfl
  | cons turn turns ih =>
    have hturn := hmem turn List.mem_cons_self
    obtain ⟨n, hn, hid⟩ := List.mem_map.mp hturn
    have hsame : e.evaluate s turn = s := by
      rw [evaluate_settled holder settled hturn]
      refine Office.ext ?_ rfl
      rw [Function.update_eq_self_iff, ← hid]
      exact (hseats n hn).symm
    rw [run_cons, hsame]
    exact ih fun t ht => hmem t (List.mem_cons_of_mem _ ht)

/-- A member whose evaluations publish its claim settles the office once it is evaluated, if
nobody else contests it. -/
theorem settled_of_takes {elapsed : Duration}
    (htakes : (e.election p).evaluateRole e.hostOf e.nodes s.claim elapsed (s.roles p) =
      (.primary, some (e.claimOf p)))
    (hwins : ∀ n ∈ e.nodes, n.id ≠ p → (e.election n.id).winsConflict p = false) :
    e.Settled p (e.evaluate s (p, elapsed)) := by
  unfold evaluate
  rw [htakes]
  exact ⟨rfl, Function.update_self _ _ _, fun n hn hne _ => hwins n hn hne⟩

/-! ## Two rounds -/

theorem TwoRounds.mem {turns : List (String × Duration)} (rounds : e.TwoRounds turns) :
    ∀ turn ∈ turns, turn.1 ∈ e.nodes.map (·.id) := by
  obtain ⟨⟨order, hperm, hturns⟩, -⟩ := rounds
  intro turn hturn
  have hmem : turn.1 ∈ order ++ order := by
    rw [← hturns]
    exact List.mem_map_of_mem hturn
  exact hperm.mem_iff.mp (or_self_iff.mp (List.mem_append.mp hmem))

/-- The turns of an order, taken twice at the end of the grace. -/
def twice (order : List String) : List (String × Duration) :=
  (order ++ order).map fun id => (id, startupGrace)

theorem twoRounds_twice {order : List String} (hperm : order.Perm (e.nodes.map (·.id))) :
    e.TwoRounds (twice order) := by
  refine ⟨⟨order, hperm, ?_⟩, fun turn hturn => ?_⟩
  · rw [twice, List.map_map]
    exact List.map_id _
  · obtain ⟨id, -, rfl⟩ := List.mem_map.mp hturn
    exact le_rfl

/-- After the first evaluation of a member every member is evaluated. -/
theorem TwoRounds.exists_turn {turns : List (String × Duration)} (rounds : e.TwoRounds turns)
    {id : String} (hid : id ∈ e.nodes.map (·.id)) :
    ∃ before elapsed after, turns = before ++ (id, elapsed) :: after ∧ startupGrace ≤ elapsed ∧
      ∀ n ∈ e.nodes, n.id ∈ after.map Prod.fst := by
  obtain ⟨⟨order, hperm, hturns⟩, hgrace⟩ := rounds
  obtain ⟨left, right, horder⟩ := List.append_of_mem (hperm.mem_iff.mpr hid)
  have hsplit : turns.map Prod.fst = left ++ id :: (right ++ order) := by
    rw [hturns, horder]
    simp
  obtain ⟨before, rest, rfl, -, hrest⟩ := List.map_eq_append_iff.mp hsplit
  obtain ⟨turn, after, rfl, rfl, hafter⟩ := List.map_eq_cons_iff.mp hrest
  refine ⟨before, turn.2, after, rfl, hgrace turn (by simp), fun n hn => ?_⟩
  rw [hafter]
  exact List.mem_append_right _ (hperm.mem_iff.mpr (List.mem_map_of_mem hn))

/-- **Once a settled member has been evaluated in two rounds, the election has converged.** -/
theorem TwoRounds.converged {turns : List (String × Duration)} (rounds : e.TwoRounds turns)
    (holder : e.Holder p) (htakes : ∀ s elapsed, startupGrace ≤ elapsed →
      e.Settled p (e.evaluate s (p, elapsed))) : e.Converged p (e.run s turns) := by
  obtain ⟨n, hn, rfl, -⟩ := holder.mem
  obtain ⟨before, elapsed, after, rfl, hgrace, hafter⟩ :=
    rounds.exists_turn (List.mem_map_of_mem hn)
  have hmem : ∀ turn ∈ after, turn.1 ∈ e.nodes.map (·.id) := fun turn hturn =>
    rounds.mem turn (by simp [hturn])
  rw [run_append, run_cons]
  obtain ⟨hsettled, hseats⟩ := (htakes (e.run s before) elapsed hgrace).run holder hmem
  exact hsettled.converged holder fun m hm => hseats m.id (Or.inl (hafter m hm))

end Runs

end Electorate

end Ephpm.Cluster
