import Mathlib.Data.Char
import Mathlib.Data.List.Lex
import Ephpm.Cluster.GossipWire
import Ephpm.Lib.Extremum

/-!
# Reading a gossip key and listing the gossip keys

A key of the gossip tier may have an entry in the state of each node and one more in this node's
queue of writes still to be published.  Two operations look at them:

* **reading** (`gossipGet`) offers every entry it can decode to one contest and keeps the one
  with the greatest stamp, of this node, of every other node known (dead ones too) and of the
  queue.  A delete or an expired value that wins means that the key is gone;
* **listing** (`gossipKeys`) walks the queue, this node's state and the states of the **live**
  nodes, and takes a key the first time one of them shows it as a live value.  A queued delete
  hides the key from what follows.

Stamps decide a read and are not looked at by a listing.  By design a listing has no sight of
dead nodes, and none of the states behind a queued write; within its sight it follows the reads
(`mem_gossipKeys_iff_read`) unless a live copy was left behind by a newer delete elsewhere,
which it still shows (`ShownThoughGone.listed`).
-/

namespace Ephpm.Cluster.Gossip

open Kv Lib

/-! ## The state -/

/-- `PendingOp`: a write in the queue. -/
inductive PendingOp where
  | set (encoded : List Char) (expiryMs : ℕ)
  | tombstone
deriving DecidableEq, Repr

/-- A place of the queue. -/
structure Slot where
  op : PendingOp
  stamp : Stamp
deriving DecidableEq, Repr

/-- What a node has published: encoded values by name. -/
abbrev Published := Assoc (List Char) (List Char)

/-- Another node's state as it is known here, and whether the node is taken to be alive. -/
structure Known where
  nodeId : String
  live : Bool
  state : Published

/-- What a node knows about the tier.  Earlier lives of the node itself, and its own state once
more, may stand among the states it knows. -/
structure View where
  selfId : String
  own : Published
  known : List Known
  pending : Assoc (List Char) Slot

/-- `Resolved`: the entry that won, with its value and the value's expiry unless the key is
gone. -/
structure Resolved where
  stamp : Stamp
  value : Option (Bytes × ℕ)
deriving DecidableEq, Repr

/-- An expiry that has passed; zero is none. -/
def expired (expiryMs nowMs : ℕ) : Bool := 0 < expiryMs && expiryMs ≤ nowMs

/-! ## Reading -/

section Reading

variable (base64 : Base64) (nowMs : ℕ)

/-- What `offer_encoded` offers for an encoded entry, if anything. -/
def entryOf (encoded : List Char) (origin : String) : Option Resolved :=
  match decodeTombstone encoded with
  | some write => some ⟨⟨write, nodeTag origin⟩, none⟩
  | none =>
    match splitEncoded encoded with
    | none => none
    | some (expiryMs, write, payload) =>
      if expired expiryMs nowMs then some ⟨⟨write, nodeTag origin⟩, none⟩
      else (base64.decode payload).map fun bytes =>
        ⟨⟨write, nodeTag origin⟩, some (bytes, expiryMs)⟩

/-- `Resolved::offer`: strictly newer wins. -/
def offer (best : Option Resolved) (entry : Resolved) : Option Resolved :=
  keepGreater Resolved.stamp best entry

/-- `Resolved::offer_encoded`. -/
def offerEncoded (best : Option Resolved) (encoded : List Char) (origin : String) :
    Option Resolved :=
  (entryOf base64 nowMs encoded origin).elim best (offer best)

/-- `pending_view`: a queued write as an entry. -/
def pendingView (slot : Slot) : Option Resolved :=
  match slot.op with
  | .tombstone => some ⟨slot.stamp, none⟩
  | .set encoded expiryMs =>
    if expired expiryMs nowMs then some ⟨slot.stamp, none⟩
    else
      match splitEncoded encoded with
      | none => none
      | some (_, _, payload) => (base64.decode payload).map fun bytes =>
        ⟨slot.stamp, some (bytes, expiryMs)⟩

/-- `resolve_locked`: the node's own entry, those of the other nodes, then the queued one. -/
def resolveLocked (view : View) (name : List Char) : Option Resolved :=
  let own := (view.own.get name).elim none fun encoded =>
    offerEncoded base64 nowMs none encoded view.selfId
  let best := view.known.foldl (fun best node =>
    if node.nodeId = view.selfId then best
    else (node.state.get name).elim best fun encoded =>
      offerEncoded base64 nowMs best encoded node.nodeId) own
  ((view.pending.get name).bind (pendingView base64 nowMs)).elim best (offer best)

/-- `gossip_get`: the queued write of the node itself, or the newest entry. -/
def gossipGet (view : View) (key : List Char) : Option Bytes :=
  (resolveLocked base64 nowMs view (kvMarker ++ key)).bind fun best => best.value.map Prod.fst

/-- The entries of a name that can be decoded, in the order they are offered. -/
def entries (view : View) (name : List Char) : List Resolved :=
  ((view.own.get name).bind fun encoded => entryOf base64 nowMs encoded view.selfId).toList ++
    view.known.filterMap (fun node =>
      if node.nodeId = view.selfId then none
      else (node.state.get name).bind fun encoded => entryOf base64 nowMs encoded node.nodeId) ++
    ((view.pending.get name).bind (pendingView base64 nowMs)).toList

/-- A read is the contest of all entries. -/
theorem resolveLocked_eq (view : View) (name : List Char) :
    resolveLocked base64 nowMs view name = (entries base64 nowMs view name).foldl offer none := by
  have helim : ∀ (best : Option Resolved) (entry : Option Resolved),
      entry.elim best (offer best) = entry.toList.foldl offer best := by
    intro best entry
    cases entry with
    | none => rfl
    | some entry => rfl
  have hencoded : ∀ (best : Option Resolved) (found : Option (List Char)) (origin : String),
      (found.elim best fun encoded => offerEncoded base64 nowMs best encoded origin) =
        (found.bind fun encoded => entryOf base64 nowMs encoded origin).toList.foldl
          offer best := by
    intro best found origin
    cases found with
    | none => rfl
    | some encoded => exact helim best _
  have hknown : ∀ (nodes : List Known) (best : Option Resolved),
      nodes.foldl (fun best node =>
        if node.nodeId = view.selfId then best
        else (node.state.get name).elim best fun encoded =>
          offerEncoded base64 nowMs best encoded node.nodeId) best =
        (nodes.filterMap fun node =>
          if node.nodeId = view.selfId then none
          else (node.state.get name).bind fun encoded =>
            entryOf base64 nowMs encoded node.nodeId).foldl offer best := by
    intro nodes
    induction nodes with
    | nil => exact fun best => rfl
    | cons node nodes ih =>
      intro best
      rw [List.foldl_cons, ih, List.filterMap_cons]
      by_cases hself : node.nodeId = view.selfId
      · simp only [if_pos hself]
      · simp only [if_neg hself, hencoded]
        cases (node.state.get name).bind fun encoded =>
            entryOf base64 nowMs encoded node.nodeId with
        | none => rfl
        | some entry => rfl
  simp only [resolveLocked, entries, hknown, List.foldl_append]
  rw [hencoded, helim]

/-- The newest entry of a name; of several with one stamp, the first offered. -/
def Newest (view : View) (name : List Char) (entry : Resolved) : Prop :=
  Leads Resolved.stamp (entries base64 nowMs view name) entry

/-- A read finds a value exactly if the newest entry has one. -/
theorem gossipGet_isSome_iff (view : View) (key : List Char) :
    (gossipGet base64 nowMs view key).isSome ↔
      ∃ entry, Newest base64 nowMs view (kvMarker ++ key) entry ∧ entry.value.isSome := by
  have hnewest : ∀ entry, resolveLocked base64 nowMs view (kvMarker ++ key) = some entry ↔
      Newest base64 nowMs view (kvMarker ++ key) entry := by
    intro entry
    rw [resolveLocked_eq]
    exact foldl_keepGreater_eq_some_iff
  simp only [← hnewest, gossipGet]
  cases resolveLocked base64 nowMs view (kvMarker ++ key) with
  | none => simp
  | some best => simp

end Reading

/-! ## Listing -/

/-- The keys listed so far, and the keys not to be listed (again). -/
structure Listing where
  keys : List (List Char)
  seen : List (List Char)

namespace Listing

/-- List a key unless it was seen. -/
def add (listing : Listing) (key : List Char) : Listing :=
  if key ∈ listing.seen then listing else ⟨listing.keys ++ [key], key :: listing.seen⟩

/-- Add the keys a traversal comes upon. -/
def addAll {α : Type} (pick : α → Option (List Char)) (listing : Listing) (items : List α) :
    Listing :=
  items.foldl (fun listing item => (pick item).elim listing listing.add) listing

variable {α : Type} {pick : α → Option (List Char)}

theorem mem_seen_addAll {listing : Listing} {items : List α} {key : List Char} :
    key ∈ (addAll pick listing items).seen ↔
      key ∈ listing.seen ∨ ∃ item ∈ items, pick item = some key := by
  induction items generalizing listing with
  | nil => simp [addAll]
  | cons item items ih =>
    rw [addAll, List.foldl_cons, ← addAll, ih, List.exists_mem_cons_iff, ← or_assoc]
    refine or_congr_left ?_
    cases pick item with
    | none => simp
    | some found =>
      simp only [Option.elim_some, add, Option.some.injEq]
      split
      next hseen => exact ⟨Or.inl, fun h => h.elim id fun heq => heq ▸ hseen⟩
      next hnew => rw [List.mem_cons, or_comm, eq_comm]

theorem mem_keys_addAll {listing : Listing} {items : List α} {key : List Char} :
    key ∈ (addAll pick listing items).keys ↔
      key ∈ listing.keys ∨ key ∉ listing.seen ∧ ∃ item ∈ items, pick item = some key := by
  induction items generalizing listing with
  | nil => simp [addAll]
  | cons item items ih =>
    rw [addAll, List.foldl_cons, ← addAll, ih, List.exists_mem_cons_iff]
    cases pick item with
    | none => simp
    | some found =>
      simp only [Option.elim_some, add, Option.some.injEq]
      split
      next hseen =>
        refine or_congr_right (and_congr_right fun hkey => ?_)
        exact ⟨Or.inr, fun h => h.resolve_left fun heq => hkey (heq ▸ hseen)⟩
      next hnew =>
        simp only [List.mem_append, List.mem_cons, not_or]
        by_cases hfound : key = found
        · subst hfound
          simp [hnew]
        · simp [hfound, Ne.symm hfound]

end Listing

/-- `strip_prefix` of the marker. -/
def stripKv (name : List Char) : Option (List Char) :=
  if kvMarker.isPrefixOf name then some (name.drop kvMarker.length) else none

theorem stripKv_eq_some_iff {name key : List Char} :
    stripKv name = some key ↔ name = kvMarker ++ key := by
  simp only [stripKv]
  split
  next hmarked =>
    obtain ⟨rest, rfl⟩ := List.isPrefixOf_iff_prefix.mp hmarked
    simp
  next hplain =>
    refine ⟨fun h => (by cases h), ?_⟩
    rintro rfl
    exact absurd (List.isPrefixOf_iff_prefix.mpr ⟨key, rfl⟩) hplain

/-- Whether a queued write reads as a live value: `for_each_pending`. -/
def Slot.live (nowMs : ℕ) (slot : Slot) : Bool :=
  match slot.op with
  | .tombstone => false
  | .set _ expiryMs => expiryMs = 0 || nowMs < expiryMs

section Keys

variable (base64 : Base64) (nowMs : ℕ)

/-- `decode_value`: the payload of a value that has not expired. -/
def decodeValue (encoded : List Char) : Option Bytes :=
  (splitEncoded encoded).bind fun split =>
    if expired split.1 nowMs then none else base64.decode split.2.2

/-- The test of `collect_kv_keys`: neither a delete nor expired nor unreadable. -/
def shows (encoded : List Char) : Bool :=
  (decodeTombstone encoded).isNone && (decodeValue base64 nowMs encoded).isSome

/-- `collect_kv_keys`: the entries of one node go into the listing. -/
def collectKvKeys (listing : Listing) (state : Published) : Listing :=
  state.entries.foldl (fun listing entry =>
    match stripKv entry.1 with
    | none => listing
    | some stripped =>
      if stripped ∉ listing.seen ∧ shows base64 nowMs entry.2 then
        ⟨listing.keys ++ [stripped], stripped :: listing.seen⟩
      else listing) listing

/-- One step of the walk over the queue: live keys are listed, the others hidden. -/
def pendingStep (walk : Listing × List (List Char)) (entry : List Char × Slot) :
    Listing × List (List Char) :=
  match stripKv entry.1 with
  | none => walk
  | some stripped =>
    if entry.2.live nowMs then (walk.1.add stripped, walk.2) else (walk.1, stripped :: walk.2)

/-- The walk over the queue. -/
def pendingKeys (pending : Assoc (List Char) Slot) : Listing :=
  let walk := pending.entries.foldl (pendingStep nowMs) (⟨[], []⟩, [])
  ⟨walk.1.keys, walk.2 ++ walk.1.seen⟩

/-- `gossip_keys`. -/
def gossipKeys (view : View) : List (List Char) :=
  let collected := (view.own :: (view.known.filter Known.live).map Known.state).foldl
    (collectKvKeys base64 nowMs) (pendingKeys nowMs view.pending)
  collected.keys.mergeSort fun a b => decide (a ≤ b)

/-- The key an entry of a state shows. -/
def shown (entry : List Char × List Char) : Option (List Char) :=
  if shows base64 nowMs entry.2 then stripKv entry.1 else none

theorem shown_eq_some_iff {entry : List Char × List Char} {key : List Char} :
    shown base64 nowMs entry = some key ↔
      entry.1 = kvMarker ++ key ∧ shows base64 nowMs entry.2 := by
  simp only [shown]
  split
  next hshows => simp only [stripKv_eq_some_iff, hshows, and_true]
  next hhides => simp only [hhides, and_false, reduceCtorEq]

theorem collectKvKeys_eq (listing : Listing) (state : Published) :
    collectKvKeys base64 nowMs listing state =
      Listing.addAll (shown base64 nowMs) listing state.entries := by
  unfold collectKvKeys Listing.addAll
  congr 1
  funext listing entry
  by_cases hshows : shows base64 nowMs entry.2
  · simp only [shown, hshows, and_true, if_true]
    cases stripKv entry.1 with
    | none => rfl
    | some stripped =>
      simp only [Option.elim_some, Listing.add, ite_not]
  · simp only [shown, hshows, Bool.false_eq_true, and_false, if_false]
    cases stripKv entry.1 with
    | none => rfl
    | some stripped => rfl

/-- The key a queued write shows, if it is live as `live` says. -/
def queued (live : Bool) (entry : List Char × Slot) : Option (List Char) :=
  if entry.2.live nowMs = live then stripKv entry.1 else none

theorem queued_eq_some_iff {live : Bool} {entry : List Char × Slot} {key : List Char} :
    queued nowMs live entry = some key ↔
      entry.1 = kvMarker ++ key ∧ entry.2.live nowMs = live := by
  simp only [queued]
  split
  next hlive => simp only [stripKv_eq_some_iff, hlive, and_true]
  next hother => simp only [hother, and_false, reduceCtorEq]

theorem foldl_pendingStep (slots : List (List Char × Slot))
    (walk : Listing × List (List Char)) :
    (slots.foldl (pendingStep nowMs) walk).1 =
        Listing.addAll (queued nowMs true) walk.1 slots ∧
      ∀ key, key ∈ (slots.foldl (pendingStep nowMs) walk).2 ↔
        key ∈ walk.2 ∨ ∃ entry ∈ slots, queued nowMs false entry = some key := by
  induction slots generalizing walk with
  | nil => exact ⟨rfl, fun key => by simp⟩
  | cons entry slots ih =>
    obtain ⟨hlisted, hhidden⟩ := ih (pendingStep nowMs walk entry)
    rw [List.foldl_cons]
    refine ⟨hlisted.trans ?_, fun key => (hhidden key).trans ?_⟩
    · rw [Listing.addAll, Listing.addAll, List.foldl_cons]
      congr 1
      simp only [pendingStep, queued]
      cases stripKv entry.1 with
      | none => simp
      | some stripped =>
        cases entry.2.live nowMs with
        | false => rfl
        | true => rfl
    · rw [List.exists_mem_cons_iff, ← or_assoc]
      refine or_congr_left ?_
      simp only [pendingStep, queued]
      cases stripKv entry.1 with
      | none => simp
      | some stripped =>
        cases entry.2.live nowMs with
        | false => simp [or_comm, eq_comm]
        | true => simp

/-- Some node that a listing asks holds the name as a live value. -/
def HeldLive (view : View) (name : List Char) : Prop :=
  ∃ state ∈ view.own :: (view.known.filter Known.live).map Known.state,
    ∃ encoded, state.get name = some encoded ∧ shows base64 nowMs encoded

/-- A listing sees a live value: one is queued or, with nothing queued, a node it asks holds
one. -/
def InSight (view : View) (name : List Char) : Prop :=
  (∃ slot, view.pending.get name = some slot ∧ slot.live nowMs) ∨
    view.pending.get name = none ∧ HeldLive base64 nowMs view name

/-- **What is listed**: the keys with a live value in sight, whatever the stamps are. -/
theorem mem_gossipKeys {view : View} {key : List Char} :
    key ∈ gossipKeys base64 nowMs view ↔ InSight base64 nowMs view (kvMarker ++ key) := by
  obtain ⟨hlisted, hhidden⟩ := foldl_pendingStep nowMs view.pending.entries (⟨[], []⟩, [])
  have hqueued : ∀ live, (∃ entry ∈ view.pending.entries, queued nowMs live entry = some key) ↔
      ∃ slot, view.pending.get (kvMarker ++ key) = some slot ∧ slot.live nowMs = live := by
    intro live
    simp only [queued_eq_some_iff, Assoc.get_eq_some_iff]
    constructor
    · rintro ⟨⟨name, slot⟩, hmem, rfl, hlive⟩
      exact ⟨slot, hmem, hlive⟩
    · rintro ⟨slot, hmem, hlive⟩
      exact ⟨(_, slot), hmem, rfl, hlive⟩
  have hcollect : ∀ (states : List Published) (listing : Listing),
      states.foldl (collectKvKeys base64 nowMs) listing =
        Listing.addAll (shown base64 nowMs) listing (states.flatMap Assoc.entries) := by
    intro states listing
    simp only [Listing.addAll, List.foldl_flatMap]
    congr 1
    funext listing state
    exact collectKvKeys_eq base64 nowMs listing state
  have hheld : (∃ entry ∈ (view.own :: (view.known.filter Known.live).map Known.state).flatMap
      Assoc.entries, shown base64 nowMs entry = some key) ↔
      HeldLive base64 nowMs view (kvMarker ++ key) := by
    simp only [shown_eq_some_iff, HeldLive, List.mem_flatMap, Assoc.get_eq_some_iff]
    constructor
    · rintro ⟨⟨name, encoded⟩, ⟨state, hstate, hmem⟩, rfl, hshows⟩
      exact ⟨state, hstate, encoded, hmem, hshows⟩
    · rintro ⟨state, hstate, encoded, hmem, hshows⟩
      exact ⟨(_, encoded), ⟨state, hstate, hmem⟩, rfl, hshows⟩
  rw [gossipKeys, List.mem_mergeSort, hcollect, Listing.mem_keys_addAll, hheld, pendingKeys]
  simp only [InSight, List.mem_append, hhidden, hlisted, Listing.mem_keys_addAll, Listing.mem_seen_addAll,
    hqueued, List.not_mem_nil, not_false_eq_true, true_and, false_or, not_or]
  refine or_congr_right (and_congr_left fun _ => ?_)
  cases view.pending.get (kvMarker ++ key) with
  | none => simp
  | some slot => simp

/-! ## When the two agree -/

/-- **Left behind.**  The newest entry is a delete or has expired, or none can be read, and yet
the listing sees a live value. -/
def ShownThoughGone (view : View) (name : List Char) : Prop :=
  (∀ entry, Newest base64 nowMs view name entry → entry.value = none) ∧
    InSight base64 nowMs view name

/-- What was left behind is listed and does not read. -/
theorem ShownThoughGone.listed {view : View} {key : List Char}
    (h : ShownThoughGone base64 nowMs view (kvMarker ++ key)) :
    key ∈ gossipKeys base64 nowMs view ∧ gossipGet base64 nowMs view key = none := by
  refine ⟨(mem_gossipKeys base64 nowMs).mpr h.2, ?_⟩
  by_contra hread
  obtain ⟨entry, hnewest, hvalue⟩ := (gossipGet_isSome_iff base64 nowMs view key).mp
    (Option.isSome_iff_ne_none.mpr hread)
  rw [h.1 entry hnewest] at hvalue
  cases hvalue

/-- **Listing follows reading.**  Where nothing was left behind, the listing shows the keys that
read as a value and that it has in sight. -/
theorem mem_gossipKeys_iff_read (view : View) (key : List Char)
    (h : ¬ShownThoughGone base64 nowMs view (kvMarker ++ key)) :
    key ∈ gossipKeys base64 nowMs view ↔
      (gossipGet base64 nowMs view key).isSome ∧
        InSight base64 nowMs view (kvMarker ++ key) := by
  rw [mem_gossipKeys]
  refine ⟨fun hsight => ⟨?_, hsight⟩, And.right⟩
  by_contra hread
  refine h ⟨fun entry hnewest => ?_, hsight⟩
  -- a newest entry with a value would have been read
  rw [gossipGet_isSome_iff] at hread
  by_contra hvalue
  exact hread ⟨entry, hnewest, Option.isSome_iff_ne_none.mpr hvalue⟩

end Keys

/-- What node `a` knows when only node `b`, alive or not, holds a value. -/
def withPeer (live : Bool) : View where
  selfId := "a"
  own := Assoc.empty
  known := [⟨"b", live, Assoc.empty.insert "kv:k".toList (encodeValue .standard [1] 0 5)⟩]
  pending := Assoc.empty

/-- A live node's value is listed and read. -/
theorem mem_gossipKeys_iff_read_live :
    ['k'] ∈ gossipKeys .standard 1000 (withPeer true) := by
  have hread : (gossipGet .standard 1000 (withPeer true) ['k']).isSome := by
    decide +kernel
  have hkept : ¬ShownThoughGone .standard 1000 (withPeer true)
      (kvMarker ++ ['k']) := by
    intro hgone
    rw [hgone.listed.2] at hread
    cases hread
  have hsight : InSight .standard 1000 (withPeer true) (kvMarker ++ ['k']) := by
    refine Or.inr ⟨rfl, _, List.mem_cons_of_mem _ List.mem_cons_self, ?_⟩
    exact ⟨encodeValue .standard [1] 0 5, by decide +kernel, by decide +kernel⟩
  exact (mem_gossipKeys_iff_read .standard 1000 _ _ hkept).mpr ⟨hread, hsight⟩

/-- **Read and not listed.**  The only copy is that of a node that is no longer alive: it is
read, and not listed. -/
theorem dead_copy_unlisted :
    ¬(['k'] ∈ gossipKeys .standard 1000 (withPeer false) ↔
      (gossipGet .standard 1000 (withPeer false) ['k']).isSome) := by
  intro hagrees
  have hlisted := (mem_gossipKeys .standard 1000).mp (hagrees.mpr (by decide +kernel))
  rcases hlisted with ⟨slot, hslot, -⟩ | ⟨-, state, hstate, encoded, hencoded, -⟩
  · cases hslot
  · obtain rfl : state = Assoc.empty := List.mem_singleton.mp hstate
    cases hencoded

end Ephpm.Cluster.Gossip
