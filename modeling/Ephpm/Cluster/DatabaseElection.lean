import Ephpm.Cluster.Election

/-!
# The election of the single database

Without sites the claim decides.  A node that reads its own claim refreshes it, a node that reads
the claim of a live member follows it, and a node that holds the role against such a claim keeps
it only if its id is lower.  So **the author of the claim only ever gets lower**, and a node that
has been evaluated and still is the primary was the author once: after one round nobody holds
the role below the author, and after two rounds nobody else holds it at all.

The argument needs that a claim names its author.  Node ids come from the configuration and may
contain the separator of the claim's fields; a claim of such a node names somebody else.
-/

namespace Ephpm.Cluster

open Kv (Duration)
open Lib

namespace Electorate

/-- The claim that is visible names a member, with the log id of its database. -/
def Vouched (e : Electorate) (bytes : Option ByteArray) : Prop :=
  ∀ text, bytes = some text → ∃ claim, PrimaryClaim.decode text = some claim ∧
    claim.nodeId ∈ e.nodes.map (·.id) ∧ claim.logId = e.logId claim.nodeId

/-- An election of the single database whose members' ids and addresses have no separator. -/
structure Plain (e : Electorate) : Prop where
  site : e.site = none
  alive : ∀ n ∈ e.nodes, n.state = .alive
  distinct : (e.nodes.map (·.id)).Nodup
  ids : ∀ n ∈ e.nodes, '|' ∉ n.id.toList
  addresses : ∀ n ∈ e.nodes, '|' ∉ (e.grpcListen n.id).toList

variable {e : Electorate} {s : Office}

namespace Plain

theorem decode_claimOf (plain : e.Plain) {id : String} (hid : id ∈ e.nodes.map (·.id)) :
    PrimaryClaim.decode (e.claimOf id) = some (e.election id).claim := by
  obtain ⟨n, hn, rfl⟩ := List.mem_map.mp hid
  exact PrimaryClaim.decode_encode (plain.ids n hn) (plain.addresses n hn)

theorem perSite_false (plain : e.Plain) (id : String) :
    (e.election id).perSiteHrwNamesUs e.nodes = false := by
  simp [SqliteElection.perSiteHrwNamesUs, election, plain.site]

theorem exists_alive (plain : e.Plain) {id : String} (hid : id ∈ e.nodes.map (·.id)) :
    ∃ n ∈ e.nodes, n.id = id ∧ n.state = .alive := by
  obtain ⟨n, hn, rfl⟩ := List.mem_map.mp hid
  exact ⟨n, hn, rfl, plain.alive n hn⟩

theorem winsConflict_iff_lt (plain : e.Plain) {id claimant : String} :
    (e.election id).winsConflict claimant = true ↔ id < claimant := by
  simp [SqliteElection.winsConflict, election, plain.site, incumbentWinsTie]

/-- Every member can hold the office. -/
theorem holder (plain : e.Plain) {id : String} (hid : id ∈ e.nodes.map (·.id)) :
    e.Holder id where
  mem := plain.exists_alive hid
  named := ⟨_, plain.decode_claimOf hid, rfl⟩
  stays := fun _ => SqliteElection.evaluateRole_own plain.site (plain.decode_claimOf hid) rfl rfl
  others := fun n _ _ => plain.perSite_false n.id

/-- Some member should be the primary while there is no claim. -/
theorem exists_should (plain : e.Plain) {n : NodeInfo} (hn : n ∈ e.nodes) :
    ∃ id ∈ e.nodes.map (·.id), (e.election id).shouldBePrimary e.nodes = true := by
  have hmem : n ∈ e.nodes.filter fun n => n.state = .alive :=
    List.mem_filter.mpr ⟨hn, decide_eq_true (plain.alive n hn)⟩
  obtain ⟨lowest, hlowest⟩ : ∃ lowest, minBy (fun a b => compare a.id b.id)
      (e.nodes.filter fun n => n.state = .alive) = some lowest :=
    Option.isSome_iff_exists.mp (minBy_isSome (List.ne_nil_of_mem hmem))
  have hcmp : ∀ a b : NodeInfo, compare a.id b.id = compare (NodeInfo.id a) (NodeInfo.id b) :=
    fun _ _ => rfl
  obtain ⟨hin, -⟩ := minBy_spec hcmp hlowest
  refine ⟨lowest.id, List.mem_map_of_mem (List.mem_of_mem_filter hin), ?_⟩
  simp [SqliteElection.shouldBePrimary, nodeShouldBePrimary, election, plain.site, hlowest]

end Plain

/-! ## The first round -/

/-- What is known once some nodes have been evaluated.  Either there is no claim yet, none of them
is the primary and none of them should be; or there is one, none of them is the primary below its
author, and the author is the primary once it has been evaluated. -/
inductive Contested (e : Electorate) (done : List String) (s : Office) : Prop
  | unclaimed (claim : s.claim = none)
      (waiting : ∀ id ∈ done, s.roles id ≠ .primary ∧
        (e.election id).shouldBePrimary e.nodes = false)
  | claimed (claim : PrimaryClaim) (visible : s.claim.bind PrimaryClaim.decode = some claim)
      (member : claim.nodeId ∈ e.nodes.map (·.id))
      (log : claim.logId = e.logId claim.nodeId)
      (above : ∀ id ∈ done, s.roles id = .primary → claim.nodeId ≤ id)
      (author : claim.nodeId ∈ done →
        s.roles claim.nodeId = .primary ∧ s.claim = some (e.claimOf claim.nodeId))

variable {done : List String} {id : String} {elapsed : Duration}

theorem Vouched.contested (vouched : e.Vouched s.claim) : e.Contested [] s := by
  cases hclaim : s.claim with
  | none =>
    exact .unclaimed hclaim fun id hid => absurd hid List.not_mem_nil
  | some text =>
    obtain ⟨claim, hdecode, hmember, hlog⟩ := vouched text hclaim
    refine .claimed claim ?_ hmember hlog (fun id hid => absurd hid List.not_mem_nil)
      fun h => absurd h List.not_mem_nil
    rw [hclaim]
    exact hdecode

/-- A member that takes the role is the author of the claim from then on, if nobody evaluated
before it is the primary below it. -/
theorem contested_of_takes (plain : e.Plain) (hid : id ∈ e.nodes.map (·.id))
    (htakes : (e.election id).evaluateRole e.hostOf e.nodes s.claim elapsed (s.roles id) =
      (.primary, some (e.claimOf id)))
    (habove : ∀ other ∈ done, s.roles other = .primary → id ≤ other) :
    e.Contested (id :: done) (e.evaluate s (id, elapsed)) := by
  have hclaim : (e.evaluate s (id, elapsed)).claim = some (e.claimOf id) := by
    simp only [evaluate, htakes]
    rfl
  have hrole : (e.evaluate s (id, elapsed)).roles id = .primary := by
    refine (evaluate_roles_self (id, elapsed)).trans ?_
    rw [htakes]
  refine .claimed (e.election id).claim ?_ hid rfl (fun other hother hprimary => ?_)
    fun _ => ⟨hrole, hclaim⟩
  · rw [hclaim]
    exact plain.decode_claimOf hid
  · by_cases hself : other = id
    · exact hself.ge
    · rw [evaluate_roles_of_ne hself] at hprimary
      exact habove other ((List.mem_cons.mp hother).resolve_left hself) hprimary

/-- **One evaluation of the first round.** -/
theorem Contested.evaluate (plain : e.Plain) (contested : e.Contested done s)
    (hid : id ∈ e.nodes.map (·.id)) (hgrace : startupGrace ≤ elapsed) :
    e.Contested (id :: done) (e.evaluate s (id, elapsed)) := by
  cases contested with
  | unclaimed hclaim hwaiting =>
    have hunclaimed : (e.election id).evaluateRole e.hostOf e.nodes s.claim elapsed
        (s.roles id) = (e.election id).elect e.nodes elapsed (s.roles id) := by
      rw [hclaim]
      rfl
    cases hshould : (e.election id).shouldBePrimary e.nodes with
    | true =>
      refine contested_of_takes plain hid ?_ fun other hother hprimary => ?_
      · rw [hunclaimed]
        exact SqliteElection.elect_of_should hshould (Or.inr hgrace)
      · exact absurd hprimary (hwaiting other hother).1
    | false =>
      rw [SqliteElection.elect_of_not_should hshould] at hunclaimed
      refine .unclaimed ?_ fun other hother => ?_
      · simp only [Electorate.evaluate, hunclaimed]
        exact hclaim
      · by_cases hself : other = id
        · rw [hself]
          refine ⟨?_, hshould⟩
          rw [evaluate_roles_self (id, elapsed), hunclaimed]
          exact fun h => by cases h
        · rw [evaluate_roles_of_ne hself]
          exact hwaiting other ((List.mem_cons.mp hother).resolve_left hself)
  | claimed claim hvisible hmember hlog habove hauthor =>
    by_cases hown : claim.nodeId = id
    · -- its own claim: it is refreshed
      refine contested_of_takes plain hid ?_ fun other hother hprimary => ?_
      · exact SqliteElection.evaluateRole_own plain.site hvisible hown (by rw [hlog, hown]; rfl)
      · rw [← hown]
        exact habove other hother hprimary
    · have hforeign : (e.election id).evaluateRole e.hostOf e.nodes s.claim elapsed
          (s.roles id) = _ :=
        SqliteElection.evaluateRole_foreign hvisible hown (plain.exists_alive hmember)
          (plain.perSite_false id)
      by_cases hkeeps : s.roles id = .primary ∧
          (e.election id).winsConflict claim.nodeId = true
      · -- a lower primary writes its claim over that of the author
        rw [if_pos hkeeps] at hforeign
        refine contested_of_takes plain hid hforeign fun other hother hprimary => ?_
        have hlower := plain.winsConflict_iff_lt.mp hkeeps.2
        exact hlower.le.trans (habove other hother hprimary)
      · rw [if_neg hkeeps] at hforeign
        have hclaim : (e.evaluate s (id, elapsed)).claim = s.claim := by
          simp only [Electorate.evaluate, hforeign]
          rfl
        refine .claimed claim (by rw [hclaim]; exact hvisible) hmember hlog
          (fun other hother hprimary => ?_) fun hdone => ?_
        · by_cases hself : other = id
          · rw [hself, evaluate_roles_self (id, elapsed), hforeign] at hprimary
            cases hprimary
          · rw [evaluate_roles_of_ne hself] at hprimary
            exact habove other ((List.mem_cons.mp hother).resolve_left hself) hprimary
        · rw [hclaim, evaluate_roles_of_ne hown]
          exact hauthor ((List.mem_cons.mp hdone).resolve_left hown)

theorem Contested.run (plain : e.Plain) {turns : List (String × Duration)}
    (hmem : ∀ turn ∈ turns, turn.1 ∈ e.nodes.map (·.id))
    (hgrace : ∀ turn ∈ turns, startupGrace ≤ turn.2) (contested : e.Contested done s) :
    e.Contested ((turns.map Prod.fst).reverse ++ done) (e.run s turns) := by
  induction turns generalizing s done with
  | nil => exact contested
  | cons turn turns ih =>
    have hstep := contested.evaluate plain (hmem turn List.mem_cons_self)
      (hgrace turn List.mem_cons_self)
    have hrest := ih (fun t ht => hmem t (List.mem_cons_of_mem _ ht))
      (fun t ht => hgrace t (List.mem_cons_of_mem _ ht)) hstep
    rw [run_cons]
    simpa using hrest

/-- **After one round the office is settled.** -/
theorem Contested.settled (plain : e.Plain) (contested : e.Contested done s)
    (hall : ∀ n ∈ e.nodes, n.id ∈ done) (hne : e.nodes ≠ []) :
    ∃ p ∈ e.nodes.map (·.id), e.Settled p s := by
  cases contested with
  | unclaimed hclaim hwaiting =>
    -- the member that should be the primary has been evaluated
    obtain ⟨n, hn⟩ := List.exists_mem_of_ne_nil _ hne
    obtain ⟨lowest, hlowest, hshould⟩ := plain.exists_should hn
    obtain ⟨m, hm, rfl⟩ := List.mem_map.mp hlowest
    have hnot := (hwaiting m.id (hall m hm)).2
    rw [hshould] at hnot
    cases hnot
  | claimed claim hvisible hmember hlog habove hauthor =>
    obtain ⟨m, hm, hid⟩ := List.mem_map.mp hmember
    obtain ⟨hprimary, hclaim⟩ := hauthor (hid ▸ hall m hm)
    refine ⟨claim.nodeId, hmember, hclaim, hprimary, fun n hn _ hrole => ?_⟩
    rw [← Bool.not_eq_true, plain.winsConflict_iff_lt, not_lt]
    exact habove n.id (hall n hn) hrole

/-! ## Convergence -/

/-- **The election of the single database converges**, from any roles and any visible claim, if no
id and no address contains the separator of the claim: after two rounds one member is the primary,
the claim names it, and no further evaluation changes anything. -/
theorem single_database_converges (plain : e.Plain) (hne : e.nodes ≠ []) (s : Office)
    (vouched : e.Vouched s.claim) (turns : List (String × Duration))
    (rounds : e.TwoRounds turns) :
    ∃ n ∈ e.nodes, e.Converged n.id (e.run s turns) ∧
      ∀ more : List (String × Duration), (∀ turn ∈ more, turn.1 ∈ e.nodes.map (·.id)) →
        e.run (e.run s turns) more = e.run s turns := by
  have hmem := rounds.mem
  obtain ⟨⟨order, hperm, hturns⟩, hgrace⟩ := rounds
  obtain ⟨first, second, rfl, hfirst, hsecond⟩ := List.map_eq_append_iff.mp hturns
  have hround := vouched.contested.run plain
    (fun t ht => hmem t (List.mem_append_left _ ht))
    (fun t ht => hgrace t (List.mem_append_left _ ht))
  have hall : ∀ n ∈ e.nodes, n.id ∈ order := fun n hn =>
    hperm.mem_iff.mpr (List.mem_map_of_mem hn)
  obtain ⟨p, hp, hsettled⟩ := hround.settled plain
    (fun n hn => by simpa [hfirst] using hall n hn) hne
  obtain ⟨hsettled', hseats⟩ := hsettled.run (plain.holder hp)
    (fun t ht => hmem t (List.mem_append_right _ ht))
  rw [run_append]
  have hseated : ∀ n ∈ e.nodes, (e.run (e.run s first) second).roles n.id = e.seat p n.id :=
    fun n hn => hseats n.id (Or.inl (hsecond ▸ hall n hn))
  obtain ⟨n, hn, rfl⟩ := List.mem_map.mp hp
  exact ⟨n, hn, hsettled'.converged (plain.holder hp) hseated, fun more hmore =>
    hsettled'.run_eq (plain.holder hp) hseated hmore⟩

/-- Three nodes that all believe to be the primary. -/
theorem single_database_converges_three :
    let e : Electorate := ⟨fun _ => none, [⟨"n1", "", .alive, false⟩, ⟨"n2", "", .alive, true⟩,
      ⟨"n3", "", .alive, false⟩], none, fun _ => "10.0.0.1:5001", fun _ => "log"⟩
    ∃ n ∈ e.nodes, e.Converged n.id (e.run ⟨fun _ => .primary, none⟩
      (twice ["n2", "n3", "n1"])) := by
  intro e
  have plain : e.Plain := ⟨rfl, by decide, by decide, by decide, by decide⟩
  have vouched : e.Vouched none := by
    intro text h
    cases h
  have hperm : ["n2", "n3", "n1"].Perm (e.nodes.map (·.id)) := by decide
  obtain ⟨n, hn, hconverged, -⟩ := single_database_converges plain (by decide)
    ⟨fun _ => .primary, none⟩ vouched _ (twoRounds_twice hperm)
  exact ⟨n, hn, hconverged⟩

/-- A node whose id contains the separator elects itself, and its claim names nobody. -/
theorem claim_names_nobody :
    let e : Electorate := ⟨fun _ => none, [⟨"a|b", "", .alive, false⟩], none,
      fun _ => "10.0.0.1:5001", fun _ => "log"⟩
    let s : Office := ⟨fun _ => .replica "", none⟩
    e.Vouched s.claim ∧ e.TwoRounds (twice ["a|b"]) ∧
      (e.run s (twice ["a|b"])).roles "a|b" = .primary ∧
      ((e.run s (twice ["a|b"])).claim.bind PrimaryClaim.decode).map (·.nodeId) = some "a" := by
  intro e s
  have vouched : e.Vouched s.claim := by
    intro text h
    cases h
  exact ⟨vouched, twoRounds_twice (List.Perm.refl _), by decide +kernel, by decide +kernel⟩

end Electorate

end Ephpm.Cluster
