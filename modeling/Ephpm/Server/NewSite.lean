import Ephpm.Server.SettleRound

/-!
# New sites

A node that owns a site and has nothing of it starts with an empty database if **no peer has a
copy**. To start empty although there is data is what settling exists to prevent: the first write
then makes a second history of the site.  So the verdict needs an answer of every alive peer, and
none of them may have a table.

A peer without a file says so.  A peer with a file sends its dump, and whether it has a table is
then decided by a look at the text (`snapshotDeclaresATable`).  The scan of the text stops at a
quote that does not end, and in a name in brackets **a single quote is a letter**.  So the copy of a
peer whose first table has such a name is taken for none, and the site starts empty
(`table_taken_for_none`).  This is the only way: if a peer has a table, everything arrives and the
site still starts empty, then no dump was seen to declare a table (`new_site_iff`).
-/

namespace Ephpm.Server

open Lib Cluster

/-! ## Answers -/

/-- **An answer arrives**: there is one, its header comes in time, and of a dump all chunks come. -/
inductive Arrives (max : ℕ) : Option Database → Delivery → Prop
  | noCopy {d : Delivery} (hsome : ∀ reason, d ≠ .lost reason) (hlate : d ≠ .late) : Arrives max none d
  | complete {db : Database} {watermark : ℤ} {dump : Text}
      (hdump : produceSnapshot db = .ok (watermark, dump)) (hfits : (encoded dump).length ≤ max) :
      Arrives max (some db) .complete
  | cutBehind {db : Database} {watermark : ℤ} {dump : Text} {arrived : ℕ} {reason : Option Text}
      (hdump : produceSnapshot db = .ok (watermark, dump)) (hfits : (encoded dump).length ≤ max)
      (hall : (chunks snapshotChunkTarget (encoded dump)).length < arrived) :
      Arrives max (some db) (.cut arrived reason)

theorem probeBody_noCopy_iff {header : SnapshotHeader} {max : ℕ} {body : List ChunkRead} :
    probeBody header max body = .noCopy ↔
      ∃ dump received, readSnapshotBodyWithin header max body = .ok (dump, received) ∧
        snapshotDeclaresATable dump = false := by
  unfold probeBody
  cases readSnapshotBodyWithin header max body with
  | error e => simp
  | ok result =>
    obtain ⟨dump, received⟩ := result
    cases hdeclares : snapshotDeclaresATable dump with
    | true => simp [hdeclares]
    | false => simp [hdeclares]

section Dump

variable {max : ℕ} {db : Database} {watermark : ℤ} {dump : Text} {d : Delivery}

/-- A dump arrives exactly if it is not too long and the stream goes on to its end. -/
theorem arrives_some_iff (hdump : produceSnapshot db = .ok (watermark, dump)) :
    Arrives max (some db) d ↔ (encoded dump).length ≤ max ∧
      (d = .complete ∨ ∃ arrived reason, d = .cut arrived reason ∧
        (chunks snapshotChunkTarget (encoded dump)).length < arrived) := by
  constructor
  · intro h
    cases h with
    | complete hdump' hfits =>
      obtain ⟨-, rfl⟩ := Prod.mk.inj (Except.ok.inj (hdump.symm.trans hdump'))
      exact ⟨hfits, Or.inl rfl⟩
    | cutBehind hdump' hfits hall =>
      obtain ⟨-, rfl⟩ := Prod.mk.inj (Except.ok.inj (hdump.symm.trans hdump'))
      exact ⟨hfits, Or.inr ⟨_, _, rfl, hall⟩⟩
  · rintro ⟨hfits, rfl | ⟨arrived, reason, rfl, hall⟩⟩
    · exact .complete hdump hfits
    · exact .cutBehind hdump hfits hall

theorem probeBody_full (hmax : max < 2 ^ 64) {header : SnapshotHeader}
    (hlen : header.totalLen = (encoded dump).length) (rest : List ChunkRead) :
    probeBody header max ((chunks snapshotChunkTarget (encoded dump) ++ [[]]).map .chunk ++ rest) =
        .noCopy ↔
      (encoded dump).length ≤ max ∧ snapshotDeclaresATable dump = false := by
  rw [probeBody_noCopy_iff]
  by_cases hfits : (encoded dump).length ≤ max
  · rw [readSnapshotBody_full hmax hlen hfits]
    constructor
    · rintro ⟨dump', received, heq, hnone⟩
      obtain ⟨rfl, -⟩ := Prod.mk.inj (Except.ok.inj heq)
      exact ⟨hfits, hnone⟩
    · rintro ⟨-, hnone⟩
      exact ⟨dump, _, rfl, hnone⟩
  · refine iff_of_false ?_ fun h => hfits h.1
    rintro ⟨dump', received, heq, -⟩
    rw [readSnapshotBodyWithin, if_neg (by rw [hlen]; exact hfits)] at heq
    cases heq

theorem probeBody_cut {header : SnapshotHeader} {arrived : ℕ}
    (hshort : arrived ≤ (chunks snapshotChunkTarget (encoded dump)).length) (reason : Option Text) :
    probeBody header max (((chunks snapshotChunkTarget (encoded dump) ++ [[]]).take arrived).map .chunk ++
      [reason.elim .stalled .failed]) ≠ .noCopy := by
  rw [Ne, probeBody_noCopy_iff]
  rintro ⟨dump', received, heq, -⟩
  have hsize : snapshotChunkTarget ≠ 0 := by decide
  have hne : ∀ piece ∈ (chunks snapshotChunkTarget (encoded dump)).take arrived, piece ≠ [] :=
    fun piece hpiece => (chunks_spec hsize _).2 piece (List.mem_of_mem_take hpiece)
  rw [List.take_append_of_le_length hshort] at heq
  unfold readSnapshotBodyWithin at heq
  split at heq
  · cases hread : readChunks max (((chunks snapshotChunkTarget (encoded dump)).take arrived).map .chunk ++
        [reason.elim .stalled .failed]) 0 [] with
    | error e =>
      rw [hread] at heq
      cases heq
    | ok out => exact readChunks_cut hne reason 0 [] out hread
  · cases heq

theorem probePeer_dump_noCopy_iff (hmax : max < 2 ^ 64)
    (hdump : produceSnapshot db = .ok (watermark, dump)) :
    probePeer max (deliver (serveSnapshot (some db)) d) = .noCopy ↔
      Arrives max (some db) d ∧ snapshotDeclaresATable dump = false := by
  rw [serveSnapshot_of_dump hdump, arrives_some_iff hdump]
  cases d with
  | lost reason => simp [deliver, probePeer]
  | late => simp [deliver, probePeer]
  | complete =>
    show probeBody _ max _ = .noCopy ↔ _
    rw [← List.append_nil (List.map _ _), probeBody_full hmax rfl]
    simp
  | cut arrived reason =>
    show probeBody _ max _ = .noCopy ↔ _
    by_cases hall : (chunks snapshotChunkTarget (encoded dump)).length < arrived
    · have hwhole : (chunks snapshotChunkTarget (encoded dump) ++ [[]]).take arrived =
          chunks snapshotChunkTarget (encoded dump) ++ [[]] :=
        List.take_of_length_le (by rw [List.length_append, List.length_singleton]; exact hall)
      rw [hwhole, probeBody_full hmax rfl]
      simp [hall]
    · refine iff_of_false (probeBody_cut (not_lt.mp hall) reason) ?_
      rintro ⟨⟨-, hcomplete | ⟨arrived', reason', heq, hall'⟩⟩, -⟩
      · cases hcomplete
      · obtain ⟨rfl, -⟩ := Delivery.cut.inj heq
        exact hall hall'

end Dump

/-- The answer of a peer is taken for **no copy** exactly if it arrives and no dump in it declares a
table. -/
theorem probePeer_noCopy_iff {max : ℕ} (hmax : max < 2 ^ 64) (copy : Option Database) (d : Delivery) :
    probePeer max (deliver (serveSnapshot copy) d) = .noCopy ↔
      Arrives max copy d ∧ ∀ db ∈ copy, ∀ watermark dump,
        produceSnapshot db = .ok (watermark, dump) → snapshotDeclaresATable dump = false := by
  cases copy with
  | none =>
    have hquiet : ∀ db ∈ (none : Option Database), ∀ watermark dump,
        produceSnapshot db = .ok (watermark, dump) → snapshotDeclaresATable dump = false :=
      fun db hdb => absurd hdb (by simp)
    cases d with
    | lost reason =>
      refine iff_of_false (by simp [deliver, probePeer]) fun h => ?_
      cases h.1 with
      | noCopy hsome => exact hsome reason rfl
    | late =>
      refine iff_of_false (by simp [deliver, probePeer]) fun h => ?_
      cases h.1 with
      | noCopy _ hlate => exact hlate rfl
    | cut arrived reason => exact iff_of_true rfl ⟨.noCopy (by simp) (by simp), hquiet⟩
    | complete => exact iff_of_true rfl ⟨.noCopy (by simp) (by simp), hquiet⟩
  | some db =>
    cases hdump : produceSnapshot db with
    | error e =>
      have hserve : serveSnapshot (some db) = .error e := by
        rw [serveSnapshot, hdump]
        rfl
      rw [hserve]
      refine iff_of_false (by cases d <;> simp [deliver, probePeer]) fun h => ?_
      cases h.1 with
      | complete hdump' => rw [hdump] at hdump'; cases hdump'
      | cutBehind hdump' => rw [hdump] at hdump'; cases hdump'
    | ok result =>
      obtain ⟨watermark, dump⟩ := result
      rw [probePeer_dump_noCopy_iff hmax hdump]
      refine and_congr_right fun _ => ⟨fun hnone db' hdb' watermark' dump' hdump' => ?_, fun h => ?_⟩
      · obtain rfl : db = db' := Option.some.inj hdb'
        obtain ⟨-, rfl⟩ := Prod.mk.inj (Except.ok.inj (hdump.symm.trans hdump'))
        exact hnone
      · exact h db rfl watermark dump hdump

/-! ## The verdict -/

/-- A search comes up with nothing, and everyone was heard, exactly if no peer has a copy. -/
theorem searchPeersForCopy_empty_iff {probe : NodeInfo → PeerProbe} {peers : List NodeInfo}
    {unreachable : List (String × Text)} :
    ((searchPeersForCopy probe peers unreachable).found = none ∧
      (searchPeersForCopy probe peers unreachable).unreachable = []) ↔
      unreachable = [] ∧ ∀ peer ∈ peers, probe peer = .noCopy := by
  induction peers generalizing unreachable with
  | nil => simp [searchPeersForCopy]
  | cons peer peers ih =>
    unfold searchPeersForCopy
    cases hprobe : probe peer with
    | data header dump received => simp [hprobe]
    | noCopy =>
      dsimp only
      rw [ih, List.forall_mem_cons]
      simp [hprobe]
    | unreachable reason =>
      dsimp only
      rw [ih, List.forall_mem_cons]
      simp [hprobe]

theorem finishEmpty_newSite_iff {r : Round} {own : SiteVersion} {best : Option SiteVersion}
    {discardLocal : Bool} {unreachable : List (String × Text)} :
    (r.finishEmpty own best discardLocal unreachable).newSite = true ↔
      discardLocal = false ∧ unreachable = [] ∧ r.pastGrace = true := by
  unfold Round.finishEmpty
  cases discardLocal with
  | true =>
    rw [if_pos rfl]
    exact iff_of_false Bool.false_ne_true (by simp)
  | false =>
    rw [if_neg Bool.false_ne_true]
    cases unreachable with
    | cons first rest => exact iff_of_false Bool.false_ne_true (by simp)
    | nil =>
      cases r.pastGrace with
      | true => exact iff_of_true rfl ⟨rfl, rfl, rfl⟩
      | false => exact iff_of_false Bool.false_ne_true (by simp)

theorem finishFound_newSite {r : Round} {own : SiteVersion} {best : Option SiteVersion}
    {discardLocal : Bool} {peer : NodeInfo} {header : SnapshotHeader} {dump : Text} :
    (r.finishFound own best discardLocal peer header dump).newSite = false := by
  have hinstall : (r.installCopy own best discardLocal peer header dump).newSite = false := by
    unfold Round.installCopy
    split <;> rfl
  unfold Round.finishFound
  split
  · exact hinstall
  · split
    · exact hinstall
    · rfl
    · rfl

theorem pull_newSite_iff {r : Round} {own : SiteVersion} {best : Option SiteVersion}
    {discardLocal : Bool} :
    (r.pull own best discardLocal).newSite = true ↔
      discardLocal = false ∧ r.pastGrace = true ∧ ∀ peer ∈ r.candidates, r.probe peer = .noCopy := by
  have hempty := @searchPeersForCopy_empty_iff r.probe r.candidates []
  unfold Round.pull
  dsimp only
  cases hfound : (searchPeersForCopy r.probe r.candidates []).found with
  | some found =>
    obtain ⟨peer, header, dump, received⟩ := found
    refine iff_of_false (by dsimp only; rw [finishFound_newSite]; exact Bool.false_ne_true) ?_
    rintro ⟨-, -, hall⟩
    rw [(hempty.mpr ⟨rfl, hall⟩).1] at hfound
    cases hfound
  | none =>
    dsimp only
    rw [finishEmpty_newSite_iff]
    refine and_congr_right fun _ => ?_
    rw [hfound] at hempty
    constructor
    · rintro ⟨hheard, hgrace⟩
      exact ⟨hgrace, (hempty.mp ⟨rfl, hheard⟩).2⟩
    · rintro ⟨hgrace, hall⟩
      exact ⟨(hempty.mpr ⟨rfl, hall⟩).2, hgrace⟩

/-- **When a site is taken to be new**: the node owns it and has nothing of it, the members are
known, and every alive peer says that it has no copy. -/
theorem settleRound_newSite_iff {r : Round} :
    (settleRound r).newSite = true ↔
      (∃ own, r.localCopy = .ok (true, own)) ∧ r.ownerIsSelf = true ∧ r.pastGrace = true ∧
        ∀ peer ∈ alivePeers r.nodes r.selfId, r.probe peer = .noCopy := by
  have hpeers (peer : NodeInfo) : peer ∈ r.candidates ↔ peer ∈ alivePeers r.nodes r.selfId :=
    (handoffCandidates_spec r.nodes r.selfId r.site).1.mem_iff
  rcases settleRound_cases r with ⟨own, best, discardLocal, hsearches, heq⟩ | ⟨-, hnew, hnot⟩
  · rw [heq, pull_newSite_iff]
    simp only [hpeers]
    constructor
    · rintro ⟨rfl, hgrace, hall⟩
      exact ⟨⟨own, hsearches.localCopy⟩, hsearches.ownerIsSelf, hgrace, hall⟩
    · rintro ⟨⟨own', hcold⟩, -, hgrace, hall⟩
      refine ⟨?_, hgrace, hall⟩
      have hcopy := hsearches.localCopy.symm.trans hcold
      simpa using (Prod.mk.inj (Except.ok.inj hcopy)).1
  · rw [hnew]
    refine iff_of_false Bool.false_ne_true ?_
    rintro ⟨⟨own, hcold⟩, howner, -⟩
    exact hnot own false (.coldOwner hcold howner)

/-! ## New sites -/

/-- The peers: the copy of each node, if it has a file for the site, and what becomes of its answer
(`none` if its address is unusable). -/
structure Peers where
  copy : String → Option Database
  delivery : String → Option Delivery

/-- A round among such peers. -/
def Round.among (r : Round) (w : Peers) : Round :=
  { r with copyAnswer := fun peer => (w.delivery peer.id).map (deliver (serveSnapshot (w.copy peer.id))) }

/-- A database has a table of a tenant. -/
def HasUserTable (db : Database) : Prop :=
  ∃ o ∈ db.schema, o.kind = .table ∧ o.sql.isSome ∧ isInternalObject o.name = false

/-- An alive peer. -/
def Round.IsPeer (r : Round) (n : NodeInfo) : Prop := n ∈ r.nodes ∧ n.id ≠ r.selfId ∧ n.state = .alive

/-- A site is taken to be new only if the members are known and no alive peer has a table. -/
def NewOnlyIfNone (r : Round) (w : Peers) : Prop :=
  (settleRound (r.among w)).newSite = true →
    r.pastGrace = true ∧ ∀ n, r.IsPeer n → ∀ db ∈ w.copy n.id, ¬ HasUserTable db

theorem probe_among_noCopy_iff (r : Round) (w : Peers) (peer : NodeInfo) :
    (r.among w).probe peer = .noCopy ↔
      (∃ d ∈ w.delivery peer.id, Arrives r.maxSnapshotBytes.toNat (w.copy peer.id) d) ∧
        ∀ db ∈ w.copy peer.id, ∀ watermark dump,
          produceSnapshot db = .ok (watermark, dump) → snapshotDeclaresATable dump = false := by
  have hmax : r.maxSnapshotBytes.toNat < 2 ^ 64 := r.maxSnapshotBytes.toNat_lt
  unfold Round.probe Round.among
  dsimp only
  cases w.delivery peer.id with
  | none => simp
  | some d =>
    show probePeer _ (deliver _ d) = _ ↔ _
    rw [probePeer_noCopy_iff hmax]
    simp

/-- **A site starts empty only if it is new, exactly if the dumps tell.**  Whenever an owner without
data knows the members, hears all of them in full and one of them has a table, some alive peer has
to have a dump in which a table is seen. -/
theorem new_site_iff (r : Round) (w : Peers) :
    NewOnlyIfNone r w ↔
      (∀ own, r.localCopy = .ok (true, own) → r.ownerIsSelf = true → r.pastGrace = true →
        (∀ n, r.IsPeer n →
          ∃ d ∈ w.delivery n.id, Arrives r.maxSnapshotBytes.toNat (w.copy n.id) d) →
        (∃ n, r.IsPeer n ∧ ∃ db ∈ w.copy n.id, HasUserTable db) →
          ∃ n, r.IsPeer n ∧ ∃ db ∈ w.copy n.id, ∃ watermark dump,
            produceSnapshot db = .ok (watermark, dump) ∧ snapshotDeclaresATable dump = true) := by
  -- the peers that are asked have the ids of the alive peers
  have hasked : (∀ peer ∈ alivePeers r.nodes r.selfId, (r.among w).probe peer = .noCopy) ↔
      ∀ n, r.IsPeer n → (∃ d ∈ w.delivery n.id, Arrives r.maxSnapshotBytes.toNat (w.copy n.id) d) ∧
        ∀ db ∈ w.copy n.id, ∀ watermark dump,
          produceSnapshot db = .ok (watermark, dump) → snapshotDeclaresATable dump = false := by
    simp only [probe_among_noCopy_iff]
    constructor
    · rintro h n ⟨hmem, hne, halive⟩
      exact h { n with draining := false } (mem_alivePeers.mpr ⟨n, hmem, hne, halive, rfl⟩)
    · intro h peer hpeer
      obtain ⟨n, hmem, hne, halive, rfl⟩ := mem_alivePeers.mp hpeer
      exact h n ⟨hmem, hne, halive⟩
  have hnew : (settleRound (r.among w)).newSite = true ↔
      (∃ own, r.localCopy = .ok (true, own)) ∧ r.ownerIsSelf = true ∧ r.pastGrace = true ∧
        ∀ peer ∈ alivePeers r.nodes r.selfId, (r.among w).probe peer = .noCopy :=
    settleRound_newSite_iff
  rw [hasked] at hnew
  constructor
  · intro h own hcold howner hgrace hheard ⟨n, hn, db, hdb, htable⟩
    by_contra hunseen
    have hquiet : ∀ n, r.IsPeer n → ∀ db ∈ w.copy n.id, ∀ watermark dump,
        produceSnapshot db = .ok (watermark, dump) → snapshotDeclaresATable dump = false := by
      intro n hn db hdb watermark dump hdump
      rw [Bool.eq_false_iff]
      exact fun hseen => hunseen ⟨n, hn, db, hdb, watermark, dump, hdump, hseen⟩
    have hstart := hnew.mpr ⟨⟨own, hcold⟩, howner, hgrace, fun n hn => ⟨hheard n hn, hquiet n hn⟩⟩
    exact (h hstart).2 n hn db hdb htable
  · intro h hstart
    obtain ⟨⟨own, hcold⟩, howner, hgrace, hall⟩ := hnew.mp hstart
    refine ⟨hgrace, fun n hn db hdb htable => ?_⟩
    obtain ⟨n', hn', db', hdb', watermark, dump, hdump, hseen⟩ :=
      h own hcold howner hgrace (fun n hn => (hall n hn).1) ⟨n, hn, db, hdb, htable⟩
    rw [(hall n' hn').2 db' hdb' watermark dump hdump] at hseen
    exact Bool.false_ne_true hseen

/-- An owner without data that knows its two peers. -/
def coldRound : Round where
  site := "s001"
  selfId := "n3"
  nodes := threeNodes
  maxSnapshotBytes := 1024
  pastGrace := true
  localCopy := .ok (true, ⟨0, 0⟩)
  advert := none
  versionAnswer _ := none
  copyAnswer _ := none
  stillCold := .ok true
  install _ _ _ := .ok ()
  epochWritable := true

/-- One peer has a table with a quote in its name, the other one has no file. -/
def quotedName : Peers where
  copy id :=
    if id = "n1" then some (oneTable "it's".toList "CREATE TABLE [it's](a)".toList 1) else none
  delivery _ := some .complete

/-- **A table is taken for none**: the scan takes the quote in the name for the start of a literal.
-/
theorem table_taken_for_none : ¬ NewOnlyIfNone coldRound quotedName := by
  intro h
  have hstart : (settleRound (coldRound.among quotedName)).newSite = true := by decide +kernel
  have hpeer : coldRound.IsPeer ⟨"n1", "", .alive, false⟩ :=
    ⟨List.mem_cons_self, by decide, rfl⟩
  refine (h hstart).2 _ hpeer _ rfl ⟨_, List.mem_cons_self, rfl, rfl, ?_⟩
  decide +kernel

end Ephpm.Server
