import Mathlib.Data.List.Nodup
import Mathlib.Data.Prod.Lex
import Mathlib.Data.String.Basic
import Ephpm.Lib.Extremum

/-!
# Rendezvous hashing

In per-site mode the owner of a site is a function of the site and of the nodes that are alive
(`hrw_owner`): the node with the highest score for the site, and of two with one score the one
with the greater id.  Every node computes it for itself, so **the answer may not depend on the
order** in which a node lists its peers, and a change of membership should **move as few sites
as it can**.

A node that drains is passed over while some other one stays.  If all drain, all are candidates.
-/

namespace Ephpm.Cluster

open Lib

/-! ## Nodes -/

/-- What the failure detector says of a node. -/
inductive NodeState where
  | alive
  | dead
deriving DecidableEq, Repr

/-- A node as its peers know it.  Its data port and the hash scheme it advertises are not read
here. -/
structure NodeInfo where
  id : String
  gossipAddr : String
  state : NodeState
  draining : Bool
deriving DecidableEq, Repr

/-! ## Scores -/

/-- 64-bit FNV-1a, from the offset basis with a seed mixed in. -/
def fnv1a64 (seed : UInt64) (bytes : List UInt8) : UInt64 :=
  bytes.foldl (fun hash byte => (hash ^^^ byte.toUInt64) * 0x100000001b3)
    (0xcbf29ce484222325 ^^^ seed)

/-- The finalizer of `splitmix64`. -/
def mix64 (z : UInt64) : UInt64 :=
  let z := (z ^^^ (z >>> 30)) * 0xbf58476d1ce4e5b9
  let z := (z ^^^ (z >>> 27)) * 0x94d049bb133111eb
  z ^^^ (z >>> 31)

/-- `hrw_score`: how well a site is placed on a node.  The seeds spell `node` and `site`. -/
def hrwScore (nodeId site : String) : UInt64 :=
  mix64 (mix64 (fnv1a64 0x6e6f6465 nodeId.toUTF8.data.toList) ^^^
    mix64 (fnv1a64 0x73697465 site.toUTF8.data.toList))

example : hrwScore "n1" "s001" = 0x9c6200df68bf5530 := by decide

/-- `hrw_owner`: the node that owns a site. -/
def hrwOwner (alive : List NodeInfo) (site : String) : Option NodeInfo :=
  let anyStaying := alive.any fun n => n.state = .alive && !n.draining
  maxBy
    (fun a b => (compare (hrwScore a.id site) (hrwScore b.id site)).then (compare a.id b.id))
    (alive.filter fun n => n.state = .alive && (!anyStaying || !n.draining))

/-! ## The owner -/

/-- The order of nodes for a site: by score, then by id. -/
def rank (site nodeId : String) : ℕ ×ₗ String := toLex ((hrwScore nodeId site).toNat, nodeId)

theorem rank_injective (site : String) : Function.Injective (rank site) := by
  intro id id' h
  exact congrArg (fun r => (ofLex r).2) h

theorem then_eq_compare_toLex (a c : ℕ) (b d : String) :
    (compare a c).then (compare b d) = compare (toLex (a, b)) (toLex (c, d)) := by
  rw [Prod.Lex.compare_def]
  rfl

/-- The comparison of the source is the one of ranks. -/
theorem compare_rank (site : String) (a b : NodeInfo) :
    (compare (hrwScore a.id site) (hrwScore b.id site)).then (compare a.id b.id) =
      compare (rank site a.id) (rank site b.id) := by
  rw [UInt64.compare_eq_toNat_compare_toNat, then_eq_compare_toLex, rank, rank]

/-- A node that may own a site: it is alive, and stays if anyone does. -/
structure Candidate (nodes : List NodeInfo) (n : NodeInfo) : Prop where
  mem : n ∈ nodes
  alive : n.state = .alive
  staying : (∃ m ∈ nodes, m.state = .alive ∧ m.draining = false) → n.draining = false

theorem mem_candidates {nodes : List NodeInfo} {n : NodeInfo} :
    (n ∈ nodes.filter fun n => n.state = .alive &&
      (!(nodes.any fun n => n.state = .alive && !n.draining) || !n.draining)) ↔
      Candidate nodes n := by
  rw [List.mem_filter]
  constructor
  · rintro ⟨hmem, hkeep⟩
    simp only [Bool.and_eq_true, decide_eq_true_eq, Bool.or_eq_true, Bool.not_eq_true',
      List.any_eq_false] at hkeep
    refine ⟨hmem, hkeep.1, fun ⟨m, hm, halive, hstays⟩ => ?_⟩
    rcases hkeep.2 with hnone | hstays'
    · exact absurd ⟨halive, hstays⟩ (hnone m hm)
    · exact hstays'
  · rintro ⟨hmem, halive, hstaying⟩
    refine ⟨hmem, ?_⟩
    simp only [Bool.and_eq_true, decide_eq_true_eq, Bool.or_eq_true, Bool.not_eq_true',
      List.any_eq_false]
    refine ⟨halive, ?_⟩
    by_cases hany : ∃ m ∈ nodes, m.state = .alive ∧ m.draining = false
    · exact Or.inr (hstaying hany)
    · refine Or.inl fun m hm hboth => ?_
      exact hany ⟨m, hm, hboth⟩

section Owner

variable {nodes nodes' : List NodeInfo} {site : String} {n : NodeInfo}

/-- **The owner is the candidate with the greatest rank.** -/
theorem hrwOwner_eq_some_iff (distinct : (nodes.map (·.id)).Nodup) :
    hrwOwner nodes site = some n ↔
      Candidate nodes n ∧ ∀ m, Candidate nodes m → rank site m.id ≤ rank site n.id := by
  unfold hrwOwner
  refine (maxBy_eq_some_iff (compare_rank site) ?_).trans ?_
  · intro a ha b hb hrank
    exact List.inj_on_of_nodup_map distinct (mem_candidates.mp ha).mem (mem_candidates.mp hb).mem
      (rank_injective site hrank)
  · simp only [mem_candidates]

theorem exists_owner (h : Candidate nodes n) : ∃ owner, hrwOwner nodes site = some owner := by
  have hmem := mem_candidates.mpr h
  unfold hrwOwner
  simp only
  cases hlist : nodes.filter fun n => n.state = .alive &&
      (!(nodes.any fun n => n.state = .alive && !n.draining) || !n.draining) with
  | nil =>
    rw [hlist] at hmem
    exact absurd hmem List.not_mem_nil
  | cons first rest => exact ⟨_, rfl⟩

/-- Losing a node moves only its own sites, as long as another one stays.  Whatever becomes of the
node, it is no candidate any more. -/
theorem hrwOwner_of_loss (distinct : (nodes.map (·.id)).Nodup)
    (distinct' : (nodes'.map (·.id)).Nodup)
    (hother : ∃ m ∈ nodes, m ≠ n ∧ m.state = .alive ∧ m.draining = false)
    (hkept : ∀ m ∈ nodes, m ≠ n → m ∈ nodes')
    (hgone : ∀ m ∈ nodes', m.state = .alive → m.draining = false → m ∈ nodes)
    (howner : hrwOwner nodes site ≠ some n) : hrwOwner nodes' site = hrwOwner nodes site := by
  obtain ⟨stays, hstays, hne, halive, hnot⟩ := hother
  have hany : ∃ m ∈ nodes, m.state = .alive ∧ m.draining = false :=
    ⟨stays, hstays, halive, hnot⟩
  have hany' : ∃ m ∈ nodes', m.state = .alive ∧ m.draining = false :=
    ⟨stays, hkept stays hstays hne, halive, hnot⟩
  obtain ⟨owner, hold⟩ : ∃ owner, hrwOwner nodes site = some owner :=
    exists_owner ⟨hstays, halive, fun _ => hnot⟩
  obtain ⟨hcandidate, hgreatest⟩ := (hrwOwner_eq_some_iff distinct).mp hold
  have howner' : owner ≠ n := fun heq => howner (by rw [hold, heq])
  rw [hold]
  refine (hrwOwner_eq_some_iff distinct').mpr ⟨?_, fun m hm => hgreatest m ?_⟩
  · exact ⟨hkept owner hcandidate.mem howner', hcandidate.alive, fun _ => hcandidate.staying hany⟩
  · have hstaying := hm.staying hany'
    exact ⟨hgone m hm.mem hm.alive hstaying, hm.alive, fun _ => hstaying⟩

theorem hrwOwner_of_gain (distinct : (nodes.map (·.id)).Nodup) (hnew : n.id ∉ nodes.map (·.id))
    (halive : n.state = .alive) (hstays : n.draining = false) :
    hrwOwner (n :: nodes) site = hrwOwner nodes site ∨ hrwOwner (n :: nodes) site = some n := by
  have distinct' : ((n :: nodes).map (·.id)).Nodup := List.nodup_cons.mpr ⟨hnew, distinct⟩
  have hself : Candidate (n :: nodes) n := ⟨List.mem_cons_self, halive, fun _ => hstays⟩
  obtain ⟨owner, howner⟩ : ∃ owner, hrwOwner (n :: nodes) site = some owner := exists_owner hself
  obtain ⟨hcandidate, hgreatest⟩ := (hrwOwner_eq_some_iff distinct').mp howner
  rcases List.mem_cons.mp hcandidate.mem with rfl | hold
  · exact Or.inr howner
  · -- an old node that stays was a candidate before, among fewer
    refine Or.inl (howner.trans (Eq.symm ?_))
    have hstaying := hcandidate.staying ⟨n, List.mem_cons_self, halive, hstays⟩
    refine (hrwOwner_eq_some_iff distinct).mpr
      ⟨⟨hold, hcandidate.alive, fun _ => hstaying⟩, fun m hm => hgreatest m ?_⟩
    exact ⟨List.mem_cons_of_mem _ hm.mem, hm.alive, fun _ =>
      hm.staying ⟨owner, hold, hcandidate.alive, hstaying⟩⟩

/-- A node of the list, changed. -/
def revise (n : NodeInfo) (change : NodeInfo → NodeInfo) (nodes : List NodeInfo) : List NodeInfo :=
  nodes.map fun m => if m = n then change m else m

theorem revise_ids (n : NodeInfo) {change : NodeInfo → NodeInfo} (hid : ∀ m, (change m).id = m.id)
    (nodes : List NodeInfo) : (revise n change nodes).map (·.id) = nodes.map (·.id) := by
  rw [revise, List.map_map]
  refine List.map_congr_left fun m _ => ?_
  simp only [Function.comp_apply]
  split
  · exact hid m
  · rfl

/-- A node that is changed into none that stays alive is lost. -/
theorem hrwOwner_revise (distinct : (nodes.map (·.id)).Nodup)
    (hother : ∃ m ∈ nodes, m ≠ n ∧ m.state = .alive ∧ m.draining = false)
    (howner : hrwOwner nodes site ≠ some n) {change : NodeInfo → NodeInfo}
    (hid : ∀ m, (change m).id = m.id)
    (hlost : ∀ m, (change m).state = .alive → (change m).draining = true) :
    hrwOwner (revise n change nodes) site = hrwOwner nodes site := by
  refine hrwOwner_of_loss distinct (by rw [revise_ids n hid]; exact distinct) hother ?_ ?_ howner
  · intro m hm hne
    exact List.mem_map.mpr ⟨m, hm, if_neg hne⟩
  · intro m hm halive hstays
    obtain ⟨m', hm', rfl⟩ := List.mem_map.mp hm
    split at halive
    next heq =>
      rw [if_pos heq] at hstays
      rw [hlost m' halive] at hstays
      cases hstays
    next hne =>
      rw [if_neg hne]
      exact hm'

/-- **Ownership moves minimally.**  The owner of a site does not depend on the order of the list.
A node that leaves, dies or starts to drain while another one stays takes only its own sites
with it, and a node that joins takes sites only for itself. -/
theorem ownership_moves_minimally (distinct : (nodes.map (·.id)).Nodup) (site : String) :
    (∀ nodes', nodes'.Perm nodes → hrwOwner nodes' site = hrwOwner nodes site) ∧
      (∀ n ∈ nodes, n.state = .alive →
        (∃ m ∈ nodes, m ≠ n ∧ m.state = .alive ∧ m.draining = false) →
        hrwOwner nodes site ≠ some n →
          hrwOwner (nodes.erase n) site = hrwOwner nodes site ∧
          hrwOwner (revise n (fun m => { m with state := .dead }) nodes) site =
            hrwOwner nodes site ∧
          hrwOwner (revise n (fun m => { m with draining := true }) nodes) site =
            hrwOwner nodes site) ∧
      ∀ n, n.id ∉ nodes.map (·.id) → n.state = .alive → n.draining = false →
        ∀ nodes', nodes'.Perm (n :: nodes) →
          hrwOwner nodes' site = hrwOwner nodes site ∨ hrwOwner nodes' site = some n := by
  have hperm : ∀ {first second : List NodeInfo}, (second.map (·.id)).Nodup → first.Perm second →
      hrwOwner first site = hrwOwner second site := by
    intro first second hdistinct hperm
    have hdistinct' : (first.map (·.id)).Nodup := (hperm.map _).nodup_iff.mpr hdistinct
    have hcandidates : ∀ m, Candidate first m ↔ Candidate second m := by
      intro m
      constructor <;>
        · rintro ⟨hmem, halive, hstaying⟩
          refine ⟨by simpa [hperm.mem_iff] using hmem, halive, fun hany => hstaying ?_⟩
          simpa [hperm.mem_iff] using hany
    ext owner
    simp only [hrwOwner_eq_some_iff hdistinct', hrwOwner_eq_some_iff hdistinct, hcandidates]
  refine ⟨fun nodes' h => hperm distinct h, fun n _ _ hother howner => ⟨?_, ?_, ?_⟩,
    fun n hnew halive hstays nodes' h => ?_⟩
  · refine hrwOwner_of_loss distinct ?_ hother ?_ ?_ howner
    · exact distinct.sublist (List.erase_sublist.map _)
    · intro m hm hne
      exact (List.mem_erase_of_ne hne).mpr hm
    · intro m hm _ _
      exact List.mem_of_mem_erase hm
  · exact hrwOwner_revise distinct hother howner (fun _ => rfl) fun m hdead => by cases hdead
  · exact hrwOwner_revise distinct hother howner (fun _ => rfl) fun m _ => rfl
  · have hdistinct : ((n :: nodes).map (·.id)).Nodup := List.nodup_cons.mpr ⟨hnew, distinct⟩
    rw [hperm hdistinct h]
    exact hrwOwner_of_gain distinct hnew halive hstays

/-- Three nodes, one of which leaves. -/
theorem ownership_moves_minimally_three :
    let nodes : List NodeInfo := [⟨"n1", "", .alive, false⟩, ⟨"n2", "", .alive, false⟩,
      ⟨"n3", "", .alive, false⟩]
    hrwOwner nodes "s001" = some ⟨"n3", "", .alive, false⟩ ∧
      hrwOwner (nodes.erase ⟨"n1", "", .alive, false⟩) "s001" = hrwOwner nodes "s001" := by
  intro nodes
  have howner : hrwOwner nodes "s001" = some ⟨"n3", "", .alive, false⟩ := by decide +kernel
  have hdistinct : (nodes.map (·.id)).Nodup := by decide
  obtain ⟨-, hloss, -⟩ := ownership_moves_minimally hdistinct "s001"
  refine ⟨howner, (hloss ⟨"n1", "", .alive, false⟩ (by decide) rfl ?_ ?_).1⟩
  · exact ⟨⟨"n3", "", .alive, false⟩, by decide, by decide, rfl, rfl⟩
  · rw [howner]
    decide

end Owner

end Ephpm.Cluster
