import Ephpm.Cluster.Election

/-!
# Elections per site

The owner of a site is the node that `hrw_owner` names among those that stay.  It takes the role
at every evaluation, whatever claim it reads, and publishes its own; so all turns on whether the
other nodes leave that claim alone.

They do unless they win the conflict.  The conflict rule compares scores and ids, the same order
that `hrw_owner` uses, and is meant never to contradict it.  But `hrw_owner` **passes over nodes
that drain**, and the conflict rule does not: a node that drains, still believes to be the primary
and outranks the owner writes its claim over that of the owner, and keeps the role.
-/

namespace Ephpm.Cluster

open Kv (Duration)

namespace Electorate

variable {e : Electorate} {site : String}

/-! ## The owner -/

/-- A surviving claim carries the log id of the node it names. -/
def Surviving (e : Electorate) (bytes : Option ByteArray) : Prop :=
  ∀ claim, bytes.bind PrimaryClaim.decode = some claim → claim.logId = e.logId claim.nodeId

/-- A conflict goes to the greater rank. -/
theorem winsConflict_iff (hsite : e.site = some site) {id claimant : String} :
    (e.election id).winsConflict claimant = true ↔ rank site claimant < rank site id := by
  simp only [SqliteElection.winsConflict, election, hsite, Bool.or_eq_true, decide_eq_true_eq,
    Bool.and_eq_true, beq_iff_eq, rank, Prod.Lex.toLex_lt_toLex, UInt64.lt_iff_toNat_lt]
  refine or_congr Iff.rfl (and_congr ⟨fun h => by rw [h], fun h => ?_⟩ Iff.rfl)
  exact UInt64.toNat_inj.mp h.symm

theorem shouldBePrimary_iff (hsite : e.site = some site) {owner : NodeInfo}
    (howner : hrwOwner e.nodes site = some owner) {id : String} :
    (e.election id).shouldBePrimary e.nodes = true ↔ id = owner.id := by
  simp [SqliteElection.shouldBePrimary, nodeShouldBePrimary, election, hsite, howner, eq_comm]

theorem evaluateRole_of_owner (hsite : e.site = some site) {owner : NodeInfo}
    (howner : hrwOwner e.nodes site = some owner) (visible : Option ByteArray)
    {elapsed : Duration} {current : ElectedRole}
    (hready : current = .primary ∨ startupGrace ≤ elapsed) :
    (e.election owner.id).evaluateRole e.hostOf e.nodes visible elapsed current =
      (.primary, some (e.claimOf owner.id)) := by
  refine SqliteElection.evaluateRole_owner ?_ ((shouldBePrimary_iff hsite howner).mpr rfl) hready
  simp [election, hsite]

theorem holder_owner (hsite : e.site = some site) (distinct : (e.nodes.map (·.id)).Nodup)
    {owner : NodeInfo} (howner : hrwOwner e.nodes site = some owner)
    (hid : '|' ∉ owner.id.toList) : e.Holder owner.id where
  mem := by
    obtain ⟨hcandidate, -⟩ := (hrwOwner_eq_some_iff distinct).mp howner
    exact ⟨owner, hcandidate.mem, rfl, hcandidate.alive⟩
  named := PrimaryClaim.decode_encode_nodeId hid
  stays := fun _ => evaluateRole_of_owner hsite howner _ (Or.inl rfl)
  others := by
    intro n hn hne
    have hshould := mt (shouldBePrimary_iff hsite howner).mp hne
    simpa [SqliteElection.perSiteHrwNamesUs, election, hsite] using hshould

/-! ## A node that drains -/

/-- **A drained node that outranks the owner never gives the role up**: evaluated after the owner,
it reads the claim of a lower rank. -/
theorem evaluate_outranks (hsite : e.site = some site) (distinct : (e.nodes.map (·.id)).Nodup)
    {owner drained : NodeInfo} (howner : hrwOwner e.nodes site = some owner)
    (hid : '|' ∉ owner.id.toList) (hrank : rank site owner.id < rank site drained.id)
    (hmem : drained ∈ e.nodes) {s : Office} (hprimary : s.roles drained.id = .primary)
    {first second : Duration} (hgrace : startupGrace ≤ first) :
    (e.run s [(owner.id, first), (drained.id, second)]).roles drained.id = .primary := by
  have holder := holder_owner hsite distinct howner hid
  obtain ⟨claim, hdecode, hclaim⟩ := holder.named
  have hne : drained.id ≠ owner.id := by
    intro heq
    rw [heq] at hrank
    exact lt_irrefl _ hrank
  have hwins := (winsConflict_iff hsite).mpr hrank
  have hroles : (e.evaluate s (owner.id, first)).roles drained.id = .primary :=
    (evaluate_roles_of_ne hne).trans hprimary
  have hvisible : (e.evaluate s (owner.id, first)).claim = some (e.claimOf owner.id) := by
    simp only [evaluate, evaluateRole_of_owner hsite howner s.claim (Or.inr hgrace)]
    rfl
  have hclaimed : (some (e.claimOf owner.id)).bind PrimaryClaim.decode = some claim := hdecode
  rw [run_cons, run_cons]
  refine (evaluate_roles_self (drained.id, second)).trans ?_
  rw [hvisible, hroles, SqliteElection.evaluateRole_foreign hclaimed
    (by rw [hclaim]; exact Ne.symm hne) (by rw [hclaim]; exact holder.mem)
    (holder.others drained hmem hne), hclaim, if_pos ⟨rfl, hwins⟩]

/-- Two rounds in which the owner is evaluated first, and a drained node that holds the role and
outranks it second. -/
theorem run_twice_outranks (hsite : e.site = some site) (distinct : (e.nodes.map (·.id)).Nodup)
    {owner drained : NodeInfo} (howner : hrwOwner e.nodes site = some owner)
    (hid : '|' ∉ owner.id.toList) (hrank : rank site owner.id < rank site drained.id)
    (hmem : drained ∈ e.nodes) {s : Office} (hprimary : s.roles drained.id = .primary)
    {rest : List String} (hrest : drained.id ∉ rest) :
    (e.run s (twice (owner.id :: drained.id :: rest))).roles drained.id = .primary := by
  have hturns : twice (owner.id :: drained.id :: rest) =
      [(owner.id, startupGrace), (drained.id, startupGrace)] ++
        (rest.map fun id => (id, startupGrace)) ++
        ([(owner.id, startupGrace), (drained.id, startupGrace)] ++
          rest.map fun id => (id, startupGrace)) := by
    simp [twice]
  have hnot : drained.id ∉ (rest.map fun id => (id, startupGrace)).map Prod.fst := by
    simpa using hrest
  rw [hturns, run_append, run_append, run_append, run_roles_of_notMem hnot]
  refine evaluate_outranks hsite distinct howner hid hrank hmem ?_ le_rfl
  rw [run_roles_of_notMem hnot]
  exact evaluate_outranks hsite distinct howner hid hrank hmem hprimary le_rfl

/-- **Per-site elections converge exactly where the node of the highest rank stays.**  The
conflict rule ranks all nodes alike and the owner is chosen among those that stay, so a drained
node that outranks the owner and still believes to be the primary contests its claim for ever.
Apart from that the owner is the primary after two rounds from any roles, and its claim names it
if its id has no separator. -/
theorem per_site_converges_iff (hsite : e.site = some site)
    (alive : ∀ n ∈ e.nodes, n.state = .alive) (distinct : (e.nodes.map (·.id)).Nodup)
    (stays : ∃ n ∈ e.nodes, n.draining = false) :
    (∀ s turns, e.Surviving s.claim → e.TwoRounds turns →
      ∃ owner, hrwOwner e.nodes site = some owner ∧ e.Converged owner.id (e.run s turns)) ↔
      ∃ n ∈ e.nodes, n.draining = false ∧ '|' ∉ n.id.toList ∧
        ∀ m ∈ e.nodes, rank site m.id ≤ rank site n.id := by
  have hany : ∃ n ∈ e.nodes, n.state = .alive ∧ n.draining = false := by
    obtain ⟨n, hn, hstays⟩ := stays
    exact ⟨n, hn, alive n hn, hstays⟩
  constructor
  · intro hconverges
    obtain ⟨n, hn, hstays⟩ := stays
    obtain ⟨owner, howner⟩ : ∃ owner, hrwOwner e.nodes site = some owner :=
      exists_owner ⟨hn, alive n hn, fun _ => hstays⟩
    obtain ⟨hcandidate, -⟩ := (hrwOwner_eq_some_iff distinct).mp howner
    have hid : '|' ∉ owner.id.toList := by
      obtain ⟨owner', howner', -, claim, hclaim, hnamed⟩ := hconverges ⟨fun _ => .primary, none⟩ _
        (fun claim h => by cases h) (twoRounds_twice (List.Perm.refl _))
      obtain rfl := Option.some.inj (howner.symm.trans howner')
      obtain ⟨bytes, -, hdecode⟩ := Option.bind_eq_some_iff.mp hclaim
      rw [← hnamed]
      exact PrimaryClaim.sep_notMem_nodeId hdecode
    refine ⟨owner, hcandidate.mem, hcandidate.staying hany, hid, fun m hm => ?_⟩
    by_contra hrank
    rw [not_le] at hrank
    have hne : m.id ≠ owner.id := by
      intro heq
      rw [heq] at hrank
      exact lt_irrefl _ hrank
    -- the owner comes first and the node that outranks it second
    have howned : owner.id ∈ e.nodes.map (·.id) := List.mem_map_of_mem hcandidate.mem
    have hother : m.id ∈ (e.nodes.map (·.id)).erase owner.id :=
      (List.mem_erase_of_ne hne).mpr (List.mem_map_of_mem hm)
    have hperm : (owner.id :: m.id :: ((e.nodes.map (·.id)).erase owner.id).erase m.id).Perm
        (e.nodes.map (·.id)) :=
      (((List.perm_cons_erase hother).cons owner.id).symm).trans
        (List.perm_cons_erase howned).symm
    have hrest : m.id ∉ ((e.nodes.map (·.id)).erase owner.id).erase m.id :=
      (distinct.erase owner.id).not_mem_erase
    obtain ⟨owner', howner', hroles, -⟩ := hconverges ⟨fun _ => .primary, none⟩ _
      (fun claim h => by cases h) (twoRounds_twice hperm)
    obtain rfl := Option.some.inj (howner.symm.trans howner')
    exact hne ((hroles m hm).mp
      (run_twice_outranks hsite distinct howner hid hrank hm rfl hrest))
  · rintro ⟨n, hn, hstays, hid, hrank⟩ s turns - rounds
    have howner : hrwOwner e.nodes site = some n :=
      (hrwOwner_eq_some_iff distinct).mpr
        ⟨⟨hn, alive n hn, fun _ => hstays⟩, fun m hm => hrank m hm.mem⟩
    refine ⟨n, howner, rounds.converged (holder_owner hsite distinct howner hid) ?_⟩
    intro s elapsed hgrace
    refine settled_of_takes (evaluateRole_of_owner hsite howner _ (Or.inr hgrace)) ?_
    intro m hm _
    rw [← Bool.not_eq_true, winsConflict_iff hsite, not_lt]
    exact hrank m hm

/-- Three nodes of which the highest one stays. -/
theorem per_site_converges_three :
    let e : Electorate := ⟨fun _ => none, [⟨"n1", "", .alive, false⟩, ⟨"n2", "", .alive, true⟩,
      ⟨"n3", "", .alive, false⟩], some "s001", fun _ => "10.0.0.1:5001", fun _ => "log"⟩
    ∀ s turns, e.Surviving s.claim → e.TwoRounds turns →
      ∃ owner, hrwOwner e.nodes "s001" = some owner ∧ e.Converged owner.id (e.run s turns) := by
  intro e
  refine (per_site_converges_iff (e := e) rfl (by decide) (by decide) ?_).mpr ?_
  · exact ⟨⟨"n1", "", .alive, false⟩, by decide, rfl⟩
  · exact ⟨⟨"n3", "", .alive, false⟩, by decide, rfl, by decide, by decide +kernel⟩

/-- A node that drains and outranks the owner is still the primary after two rounds. -/
theorem drained_stays_primary :
    let e : Electorate := ⟨fun _ => none, [⟨"n1", "", .alive, false⟩, ⟨"n3", "", .alive, true⟩],
      some "s001", fun _ => "10.0.0.1:5001", fun _ => "log"⟩
    let s : Office := ⟨fun id => if id = "n3" then .primary else .replica "", none⟩
    e.Surviving s.claim ∧ e.TwoRounds (twice ["n1", "n3"]) ∧
      hrwOwner e.nodes "s001" = some ⟨"n1", "", .alive, false⟩ ∧
      (e.run s (twice ["n1", "n3"])).roles "n3" = .primary := by
  intro e s
  have hsurviving : e.Surviving s.claim := by
    intro claim h
    cases h
  exact ⟨hsurviving, twoRounds_twice (List.Perm.refl _), by decide +kernel, by decide +kernel⟩

end Electorate

end Ephpm.Cluster
