import Mathlib.Algebra.Order.Ring.Nat
import Mathlib.Data.List.Basic

/-!
# Sites cannot see each other's WebSocket connections

All sites share one registry of connections.  Connections are found by their ids, whoever asks;
the owning site is a field of the connection, and every operation compares it with the site of
its caller (`scopedEntry`).  Channels are kept by site and name.

**The view of a site.**  `view s` is the registry with nothing in it but what belongs to `s`, and
it is what `s` can learn: an operation of `s` does to the view what it does to the registry, with
the same result, and an operation of another site does nothing to it.  So a history leaves in
the view of `s` just what the operations of `s` alone would have left, and two histories that
agree on these leave the same (`ws_isolation`).

Ids are names: the two histories may have drawn different ones.  A permutation `ρ` of the ids
takes the ids of one to those of the other, and `view` renames along it.

**Assumptions.**  An id is not drawn while it is in use, and the task of a connection ends,
reads and unregisters its own connection only.  An operation is one step.
-/

namespace Ephpm.Ws

/-! ## The registry -/

/-- A frame for a client. -/
structure OutFrame where
  payload : List UInt8
  binary : Bool
deriving DecidableEq

/-- `Limits`; zero is no limit. -/
structure Limits where
  maxConnections : ℕ
  maxConnectionsPerSite : ℕ
  sendQueue : ℕ
  maxMessageSize : ℕ

/-- `MAX_CHANNELS_PER_CONNECTION`, `MAX_CHANNEL_NAME_LEN` and `CLOSE_QUEUE_OVERFLOW`. -/
def maxChannelsPerConnection : ℕ := 64

/-- `MAX_CHANNEL_NAME_LEN`. -/
def maxChannelNameLen : ℕ := 256

/-- `CLOSE_QUEUE_OVERFLOW`. -/
def closeQueueOverflow : ℕ := 1013

/-- A connection: its site, its outbound queue and whether its task still reads it, the code it
is to be closed with, and its channels. -/
structure ConnEntry where
  site : String
  queue : List OutFrame
  receiving : Bool
  closeCode : ℕ
  channels : List String
deriving DecidableEq

/-- The registry, by connection id and by site and channel. -/
@[ext] structure Registry (Id : Type) where
  conns : Id → Option ConnEntry
  channels : String → String → List Id
  siteCounts : String → ℕ
  total : ℕ

/-- `RegisterError`. -/
inductive RegisterError where
  | serverFull
  | siteFull
  | entropy
deriving DecidableEq

/-- What an operation returns. -/
inductive Result (Id : Type) where
  | registered (id : Id)
  | refused (e : RegisterError)
  | done
  | answer (ok : Bool)
  | count (delivered : ℕ)
  | frame (next : Option OutFrame)
deriving DecidableEq

/-- A result with the ids renamed. -/
def Result.map {Id : Type} (ρ : Id → Id) : Result Id → Result Id
  | .registered id => .registered (ρ id)
  | .refused e => .refused e
  | .done => .done
  | .answer ok => .answer ok
  | .count delivered => .count delivered
  | .frame next => .frame next

/-- The operations of the API, and what the task of a connection does with it. -/
inductive Op (Id : Type) where
  /-- `register`, with the id that was drawn, if there was entropy for one. -/
  | register (id : Option Id)
  | send (id : Id) (frame : OutFrame)
  | subscribe (id : Id) (channel : String)
  | unsubscribe (id : Id) (channel : String)
  | broadcast (channel : String) (frame : OutFrame)
  | close (id : Id) (code : ℕ)
  | siteConnections
  | channelMembers (channel : String)
  | unregister (id : Id)
  | receive (id : Id)
  | hangUp (id : Id)

/-- An operation with the ids renamed. -/
def Op.map {Id : Type} (ρ : Id → Id) : Op Id → Op Id
  | .register id => .register (id.map ρ)
  | .send id frame => .send (ρ id) frame
  | .subscribe id channel => .subscribe (ρ id) channel
  | .unsubscribe id channel => .unsubscribe (ρ id) channel
  | .broadcast channel frame => .broadcast channel frame
  | .close id code => .close (ρ id) code
  | .siteConnections => .siteConnections
  | .channelMembers channel => .channelMembers channel
  | .unregister id => .unregister (ρ id)
  | .receive id => .receive (ρ id)
  | .hangUp id => .hangUp (ρ id)

/-- An operation of a site. -/
structure Event (Id : Type) where
  site : String
  op : Op Id

/-- An event with the ids renamed. -/
def Event.map {Id : Type} (ρ : Id → Id) (e : Event Id) : Event Id := ⟨e.site, e.op.map ρ⟩

/-- `request_close`: the first code wins. -/
def ConnEntry.requestClose (entry : ConnEntry) (code : ℕ) : ConnEntry :=
  if entry.closeCode = 0 then { entry with closeCode := code } else entry

/-- `enqueue`: a full queue sheds the connection. -/
def ConnEntry.enqueue (l : Limits) (frame : OutFrame) (entry : ConnEntry) : Bool × ConnEntry :=
  if entry.receiving = false then (false, entry)
  else if max l.sendQueue 1 ≤ entry.queue.length then
    (false, entry.requestClose closeQueueOverflow)
  else (true, { entry with queue := entry.queue ++ [frame] })

/-- The part of `subscribe` that runs under the lock of the connection. -/
def ConnEntry.hold (channel : String) (entry : ConnEntry) : Bool × ConnEntry :=
  if channel ∈ entry.channels then (true, entry)
  else if maxChannelsPerConnection ≤ entry.channels.length then (false, entry)
  else (true, { entry with channels := entry.channels ++ [channel] })

/-- `valid_channel`. -/
def validChannel (channel : String) : Bool :=
  !channel.isEmpty && channel.utf8ByteSize ≤ maxChannelNameLen

/-- `within_size_limit`. -/
def withinSizeLimit (l : Limits) (frame : OutFrame) : Bool :=
  l.maxMessageSize = 0 || frame.payload.length ≤ l.maxMessageSize

namespace Registry

variable {Id : Type} [DecidableEq Id]

/-- The registry at the beginning. -/
def new : Registry Id := ⟨fun _ => none, fun _ _ => [], fun _ => 0, 0⟩

/-- `scoped`: a connection of another site is as good as none. -/
def scopedEntry (st : Registry Id) (site : String) (id : Id) : Option ConnEntry :=
  (st.conns id).filter fun entry => entry.site = site

/-- A connection changes. -/
def setConn (st : Registry Id) (id : Id) (entry : Option ConnEntry) : Registry Id :=
  { st with conns := Function.update st.conns id entry }

/-- The members of a channel change. -/
def setChannel (st : Registry Id) (site channel : String) (members : List Id) : Registry Id :=
  { st with
    channels := Function.update st.channels site
      (Function.update (st.channels site) channel members) }

/-- The counts change. -/
def setCounts (st : Registry Id) (site : String) (count total : ℕ) : Registry Id :=
  { st with siteCounts := Function.update st.siteCounts site count, total }

/-- An operation on a connection within the scope of a site; `none` for an unknown one. -/
def onConn {α : Type} (st : Registry Id) (site : String) (id : Id)
    (f : ConnEntry → α × ConnEntry) : Option α × Registry Id :=
  match st.scopedEntry site id with
  | none => (none, st)
  | some entry => (some (f entry).1, st.setConn id (some (f entry).2))

/-- `register`, after the id has been drawn. -/
def register (l : Limits) (site : String) (id : Id) (st : Registry Id) :
    Result Id × Registry Id :=
  if l.maxConnections ≠ 0 ∧ l.maxConnections ≤ st.total then (.refused .serverFull, st)
  else if l.maxConnectionsPerSite ≠ 0 ∧ l.maxConnectionsPerSite ≤ st.siteCounts site then
    (.refused .siteFull, st)
  else (.registered id, (st.setConn id (some ⟨site, [], true, 0, []⟩)).setCounts site
    (st.siteCounts site + 1) (st.total + 1))

/-- A connection leaves a channel. -/
def removeMember (site : String) (id : Id) (st : Registry Id) (channel : String) : Registry Id :=
  st.setChannel site channel ((st.channels site channel).filter (· ≠ id))

/-- `unregister`. -/
def unregister (id : Id) (st : Registry Id) : Registry Id :=
  match st.conns id with
  | none => st
  | some entry =>
    let st := entry.channels.foldl (removeMember entry.site id) (st.setConn id none)
    st.setCounts entry.site (st.siteCounts entry.site - 1) (st.total - 1)

/-- The tail of `send` and `broadcast`. -/
def deliver (l : Limits) (site : String) (frame : OutFrame) (st : Registry Id) (id : Id) :
    Bool × Registry Id :=
  let sent := st.onConn site id (ConnEntry.enqueue l frame)
  (sent.1.getD false, sent.2)

/-- `subscribe`. -/
def subscribe (site : String) (id : Id) (channel : String) (st : Registry Id) :
    Bool × Registry Id :=
  if validChannel channel then
    let held := st.onConn site id (ConnEntry.hold channel)
    if held.1 = some true then
      let members := held.2.channels site channel
      (true, held.2.setChannel site channel (if id ∈ members then members else members ++ [id]))
    else (false, held.2)
  else (false, st)

/-- `unsubscribe`. -/
def unsubscribe (site : String) (id : Id) (channel : String) (st : Registry Id) :
    Bool × Registry Id :=
  let held := st.onConn site id fun entry =>
    (decide (channel ∈ entry.channels), { entry with channels := entry.channels.erase channel })
  if held.1 = some true then (true, removeMember site id held.2 channel) else (false, held.2)

/-- `broadcast`: the members are looked up again, one after the other. -/
def broadcast (l : Limits) (site channel : String) (frame : OutFrame) (st : Registry Id) :
    ℕ × Registry Id :=
  if validChannel channel && withinSizeLimit l frame then
    (st.channels site channel).foldl (fun acc id =>
      let sent := deliver l site frame acc.2 id
      (acc.1 + sent.1.toNat, sent.2)) (0, st)
  else (0, st)

/-- The task of a connection works on a connection of its own site. -/
def Owned (st : Registry Id) (site : String) (id : Id) : Prop :=
  ((st.conns id).all fun entry => entry.site = site) = true

instance (st : Registry Id) (site : String) (id : Id) : Decidable (st.Owned site id) :=
  inferInstanceAs (Decidable (_ = true))

/-- One operation, if it can happen. -/
def step (l : Limits) (e : Event Id) (st : Registry Id) : Option (Result Id × Registry Id) :=
  match e.op with
  | .register none => some (.refused .entropy, st)
  | .register (some id) =>
    if st.conns id = none then some (st.register l e.site id) else none
  | .send id frame =>
    let sent := if withinSizeLimit l frame then st.deliver l e.site frame id else (false, st)
    some (.answer sent.1, sent.2)
  | .subscribe id channel =>
    let held := st.subscribe e.site id channel
    some (.answer held.1, held.2)
  | .unsubscribe id channel =>
    let held := st.unsubscribe e.site id channel
    some (.answer held.1, held.2)
  | .broadcast channel frame =>
    let sent := st.broadcast l e.site channel frame
    some (.count sent.1, sent.2)
  | .close id code =>
    let closed := st.onConn e.site id fun entry => ((), entry.requestClose code)
    some (.answer closed.1.isSome, closed.2)
  | .siteConnections => some (.count (st.siteCounts e.site), st)
  | .channelMembers channel => some (.count (st.channels e.site channel).length, st)
  | .unregister id => if st.Owned e.site id then some (.done, st.unregister id) else none
  | .receive id =>
    if st.Owned e.site id then
      let taken := st.onConn e.site id fun entry =>
        (entry.queue.head?, { entry with queue := entry.queue.tail })
      some (.frame taken.1.join, taken.2)
    else none
  | .hangUp id =>
    if st.Owned e.site id then
      some (.done, (st.onConn e.site id fun entry => ((), { entry with receiving := false })).2)
    else none

/-- A history, with what each site was told. -/
def run (l : Limits) :
    List (Event Id) → Registry Id → Option (List (String × Result Id) × Registry Id)
  | [], st => some ([], st)
  | e :: events, st =>
    (step l e st).bind fun next =>
      (run l events next.2).map fun rest => ((e.site, next.1) :: rest.1, rest.2)

/-! ## The view of a site -/

/-- What belongs to a site, under other names. -/
def view (ρ : Equiv.Perm Id) (s : String) (st : Registry Id) : Registry Id where
  conns id := st.scopedEntry s (ρ.symm id)
  channels site channel := if site = s then (st.channels s channel).map ρ else []
  siteCounts site := if site = s then st.siteCounts s else 0
  total := st.siteCounts s

variable {ρ : Equiv.Perm Id} {s t : String} {st : Registry Id} {id : Id}

omit [DecidableEq Id] in
/-- A registry without connections looks empty to everybody. -/
theorem view_new : view ρ s (new : Registry Id) = new := by
  ext <;> simp [view, new, scopedEntry]

omit [DecidableEq Id] in
/-- What a site sees under an id is what it can reach. -/
theorem conns_view : (view ρ s st).conns (ρ id) = st.scopedEntry s id := by
  simp only [view, Equiv.symm_apply_apply]

omit [DecidableEq Id] in
/-- A connection is in the scope of the site if it is in its view. -/
theorem scopedEntry_view : (view ρ s st).scopedEntry s (ρ id) = st.scopedEntry s id := by
  rw [scopedEntry, conns_view, scopedEntry, Option.filter_filter]
  simp only [Bool.and_self]

omit [DecidableEq Id] in
/-- A site sees its channels, with the members renamed. -/
theorem channels_view (channel : String) :
    (view ρ s st).channels s channel = (st.channels s channel).map ρ := if_pos rfl

omit [DecidableEq Id] in
theorem siteCounts_view : (view ρ s st).siteCounts s = st.siteCounts s := if_pos rfl

omit [DecidableEq Id] in
/-- What is in the scope of a site is one of its connections. -/
theorem scopedEntry_site {entry : ConnEntry} (h : st.scopedEntry s id = some entry) :
    st.conns id = some entry ∧ entry.site = s := by
  simpa [scopedEntry, Option.filter_eq_some_iff] using h

/-- A connection that changes is seen to change by its site. -/
theorem view_setConn (entry : Option ConnEntry) :
    view ρ s (st.setConn id entry)
      = (view ρ s st).setConn (ρ id) (entry.filter fun e => e.site = s) := by
  ext1
  · funext id'
    by_cases hid : id' = ρ id
    · subst hid
      simp [view, setConn, scopedEntry]
    · have hne : ρ.symm id' ≠ id := fun h => hid (by rw [← h, Equiv.apply_symm_apply])
      simp [view, setConn, scopedEntry, hid, hne]
  all_goals rfl

/-- What is set at a connection of another site, for another connection of another site or
none, is not seen. -/
theorem view_setConn_other {entry : Option ConnEntry} (h : st.scopedEntry s id = none)
    (hentry : (entry.filter fun e => e.site = s) = none) :
    view ρ s (st.setConn id entry) = view ρ s st := by
  rw [view_setConn, hentry]
  ext1
  · funext id'
    by_cases hid : id' = ρ id
    · subst hid
      simp [setConn, conns_view, h]
    · simp [setConn, hid]
  all_goals rfl

omit [DecidableEq Id] in
/-- A channel that changes is seen to change by its site. -/
theorem view_setChannel (channel : String) (members : List Id) :
    view ρ s (st.setChannel s channel members)
      = (view ρ s st).setChannel s channel (members.map ρ) := by
  ext1
  · rfl
  · funext site channel'
    by_cases hsite : site = s
    · subst hsite
      by_cases hch : channel' = channel
      · subst hch
        simp [view, setChannel]
      · simp [view, setChannel, hch]
    · simp [view, setChannel, hsite]
  all_goals rfl

omit [DecidableEq Id] in
/-- The channels of another site are not seen. -/
theorem view_setChannel_other (hts : t ≠ s) (channel : String) (members : List Id) :
    view ρ s (st.setChannel t channel members) = view ρ s st := by
  ext1
  · rfl
  · funext site channel'
    simp [view, setChannel, Function.update_of_ne hts.symm]
  all_goals rfl

omit [DecidableEq Id] in
theorem view_setCounts (count total : ℕ) :
    view ρ s (st.setCounts s count total) = (view ρ s st).setCounts s count count := by
  ext1
  · rfl
  · rfl
  · funext site
    by_cases hsite : site = s
    · subst hsite
      simp [view, setCounts]
    · simp [view, setCounts, hsite]
  · simp [view, setCounts]

omit [DecidableEq Id] in
/-- The counts of another site are not seen. -/
theorem view_setCounts_other (hts : t ≠ s) (count total : ℕ) :
    view ρ s (st.setCounts t count total) = view ρ s st := by
  ext1
  · rfl
  · rfl
  · funext site
    simp [view, setCounts, Function.update_of_ne hts.symm]
  · simp [view, setCounts, Function.update_of_ne hts.symm]

/-! ### Operations of a site -/

/-- **What a site does is confined to it.**  With the view of the site in place of the registry the
result is the same, and the registry that is left is the view of the one that would be.  The views
of the others stay as they are. -/
structure Confined {α : Type} (ρ : Equiv.Perm Id) (t : String) (st : Registry Id)
    (whole inView : α × Registry Id) : Prop where
  own : inView = (whole.1, view ρ t whole.2)
  others s : t ≠ s → view ρ s whole.2 = view ρ s st

section Operations

variable {l : Limits} {channel : String} {frame : OutFrame}

omit [DecidableEq Id] in
/-- What does nothing is confined. -/
theorem Confined.refl {α : Type} (a : α) : Confined ρ t st (a, st) (a, view ρ t st) :=
  ⟨rfl, fun _ _ => rfl⟩

/-- An operation on a connection that leaves it with its site is confined. -/
theorem onConn_confined {α : Type} {f : ConnEntry → α × ConnEntry}
    (hf : ∀ entry, (f entry).2.site = entry.site) :
    Confined ρ t st (st.onConn t id f) ((view ρ t st).onConn t (ρ id) f) := by
  unfold onConn
  rw [scopedEntry_view]
  cases hentry : st.scopedEntry t id with
  | none => exact .refl none
  | some entry =>
    obtain ⟨hconn, hsite⟩ := scopedEntry_site hentry
    have hafter : (f entry).2.site = t := (hf entry).trans hsite
    constructor
    · simp only [view_setConn, Option.filter_some, hafter, decide_true, if_true]
    · intro s hts
      refine view_setConn_other ?_ ?_
      · rw [scopedEntry, hconn, Option.filter_some, hsite]
        simp [hts]
      · simp [Option.filter_some, hafter, hts]

/-- A connection that is to be closed stays with its site. -/
theorem requestClose_site (entry : ConnEntry) (code : ℕ) :
    (entry.requestClose code).site = entry.site := by
  unfold ConnEntry.requestClose
  split <;> rfl

/-- A connection that is sent a frame stays with its site. -/
theorem enqueue_site (l : Limits) (frame : OutFrame) (entry : ConnEntry) :
    (entry.enqueue l frame).2.site = entry.site := by
  unfold ConnEntry.enqueue
  split
  · rfl
  split
  · exact requestClose_site entry _
  · rfl

/-- A connection that joins a channel stays with its site. -/
theorem hold_site (channel : String) (entry : ConnEntry) :
    (entry.hold channel).2.site = entry.site := by
  unfold ConnEntry.hold
  split
  · rfl
  split <;> rfl

/-- A delivery is confined to the site of the sender. -/
theorem deliver_confined :
    Confined ρ t st (st.deliver l t frame id) ((view ρ t st).deliver l t frame (ρ id)) := by
  have h : Confined ρ t st (st.onConn t id _) _ := onConn_confined (enqueue_site l frame)
  refine ⟨?_, h.others⟩
  simp only [deliver, h.own]

/-- The view of a channel that a connection leaves. -/
theorem removeMember_view :
    removeMember s (ρ id) (view ρ s st) channel = view ρ s (removeMember s id st channel) := by
  rw [removeMember, removeMember, view_setChannel, channels_view, List.filter_map]
  simp only [Function.comp_def, ne_eq, EmbeddingLike.apply_eq_iff_eq]

/-- `subscribe` is confined. -/
theorem subscribe_confined :
    Confined ρ t st (st.subscribe t id channel) ((view ρ t st).subscribe t (ρ id) channel) := by
  have h : Confined ρ t st (st.onConn t id _) _ := onConn_confined (hold_site channel)
  unfold subscribe
  split
  · rw [h.own]
    dsimp only
    split
    · refine ⟨?_, fun s hts => (view_setChannel_other hts _ _).trans (h.others s hts)⟩
      rw [view_setChannel, channels_view]
      congr 2
      by_cases hmem : id ∈ (st.onConn t id (ConnEntry.hold channel)).2.channels t channel
      · rw [if_pos hmem, if_pos (List.mem_map_of_mem hmem)]
      · rw [if_neg hmem, if_neg, List.map_append, List.map_singleton]
        rwa [List.mem_map_of_injective ρ.injective]
    · exact ⟨rfl, h.others⟩
  · exact .refl false

/-- `unsubscribe` is confined. -/
theorem unsubscribe_confined :
    Confined ρ t st (st.unsubscribe t id channel) ((view ρ t st).unsubscribe t (ρ id) channel) := by
  have h : Confined ρ t st (st.onConn t id fun entry =>
      (decide (channel ∈ entry.channels), { entry with channels := entry.channels.erase channel })) _ :=
    onConn_confined fun _ => rfl
  unfold unsubscribe
  rw [h.own]
  dsimp only
  split
  · refine ⟨?_, fun s hts => (view_setChannel_other hts _ _).trans (h.others s hts)⟩
    rw [removeMember_view]
  · exact ⟨rfl, h.others⟩

/-- `broadcast` is confined: the members are reached one after the other, under either name. -/
theorem broadcast_confined :
    Confined ρ t st (st.broadcast l t channel frame) ((view ρ t st).broadcast l t channel frame) := by
  unfold broadcast
  split
  · rw [channels_view, List.foldl_map]
    generalize st.channels t channel = members
    generalize 0 = delivered
    induction members generalizing st delivered with
    | nil => exact .refl delivered
    | cons id members ih =>
      have hfirst : Confined ρ t st (st.deliver l t frame id) _ := deliver_confined
      simp only [List.foldl_cons, hfirst.own]
      exact ⟨(ih _).own, fun s hts => ((ih _).others s hts).trans (hfirst.others s hts)⟩
  · exact .refl 0

/-- `register` is confined, if there is no cap over all sites. -/
theorem register_confined (hl : l.maxConnections = 0) (hid : st.conns id = none) :
    (view ρ t st).register l t (ρ id)
        = ((st.register l t id).1.map ρ, view ρ t (st.register l t id).2) ∧
      ∀ s, t ≠ s → view ρ s (st.register l t id).2 = view ρ s st := by
  unfold register
  simp only [hl, ne_eq, not_true_eq_false, false_and, if_false, siteCounts_view]
  split
  · exact ⟨rfl, fun _ _ => rfl⟩
  · constructor
    · simp only [view_setCounts, view_setConn, Option.filter_some, decide_true, if_true]
      rfl
    · intro s hts
      rw [view_setCounts_other hts]
      refine view_setConn_other ?_ ?_
      · rw [scopedEntry, hid, Option.filter_none]
      · simp [Option.filter_some, hts]

/-- A connection leaves its channels. -/
theorem removeMembers_confined (channels : List String) :
    channels.foldl (removeMember t (ρ id)) (view ρ t st)
        = view ρ t (channels.foldl (removeMember t id) st) ∧
      ∀ s, t ≠ s → view ρ s (channels.foldl (removeMember t id) st) = view ρ s st := by
  induction channels generalizing st with
  | nil => exact ⟨rfl, fun _ _ => rfl⟩
  | cons channel channels ih =>
    rw [List.foldl_cons, removeMember_view, List.foldl_cons]
    exact ⟨ih.1, fun s hts => (ih.2 s hts).trans (view_setChannel_other hts _ _)⟩

omit [DecidableEq Id] in
/-- A connection of the site is in its scope. -/
theorem Owned.scopedEntry (h : st.Owned s id) : st.scopedEntry s id = st.conns id := by
  unfold Registry.scopedEntry
  unfold Owned at h
  cases hc : st.conns id with
  | none => rfl
  | some entry =>
    rw [hc, Option.all_some] at h
    rw [Option.filter_some, if_pos h]

omit [DecidableEq Id] in
/-- A connection of the site is one in its view. -/
theorem Owned.view (h : st.Owned s id) : (view ρ s st).Owned s (ρ id) := by
  unfold Owned
  rwa [conns_view, h.scopedEntry]

/-- `unregister` is confined. -/
theorem unregister_confined (h : st.Owned t id) :
    (view ρ t st).unregister (ρ id) = view ρ t (st.unregister id) ∧
      ∀ s, t ≠ s → view ρ s (st.unregister id) = view ρ s st := by
  unfold unregister
  rw [conns_view, h.scopedEntry]
  cases hc : st.conns id with
  | none => exact ⟨rfl, fun _ _ => rfl⟩
  | some entry =>
    obtain ⟨-, rfl⟩ := scopedEntry_site (h.scopedEntry.trans hc)
    have hremoved : (view ρ entry.site st).setConn (ρ id) none
        = view ρ entry.site (st.setConn id none) := by rw [view_setConn, Option.filter_none]
    dsimp only
    constructor
    · rw [hremoved, (removeMembers_confined _).1, view_setCounts, siteCounts_view]
      rfl
    · intro s hts
      rw [view_setCounts_other hts, (removeMembers_confined (ρ := ρ) _).2 s hts]
      refine view_setConn_other ?_ rfl
      rw [scopedEntry, hc, Option.filter_some, if_neg (by simp [hts])]

end Operations

/-! ### Histories -/

section Histories

variable {l : Limits} {e : Event Id} {r : Result Id} {st' : Registry Id}

omit [DecidableEq Id] in
/-- What a confined operation tells the site. -/
theorem Confined.told {α : Type} {whole inView : α × Registry Id} (h : Confined ρ t st whole inView)
    (tell : α → Result Id) (htell : ∀ a, (tell a).map ρ = tell a) :
    some (tell inView.1, inView.2) = some ((tell whole.1).map ρ, view ρ t whole.2) ∧
      ∀ s, t ≠ s → view ρ s whole.2 = view ρ s st := by
  rw [h.own, htell]
  exact ⟨rfl, h.others⟩

/-- **One operation**: in the view of its site it does what it does in the registry, and the views
of the other sites do not change. -/
theorem step_confined (hl : l.maxConnections = 0) (h : step l e st = some (r, st')) :
    step l (e.map ρ) (view ρ e.site st) = some (r.map ρ, view ρ e.site st') ∧
      ∀ s, e.site ≠ s → view ρ s st' = view ρ s st := by
  obtain ⟨t, op⟩ := e
  unfold step at h ⊢
  cases op with
  | register id =>
    cases id with
    | none =>
      obtain ⟨rfl, rfl⟩ := Prod.mk.inj (Option.some.inj h)
      exact ⟨rfl, fun _ _ => rfl⟩
    | some id =>
      obtain ⟨hid, h⟩ := Option.ite_none_right_eq_some.mp h
      have hregister := register_confined (ρ := ρ) (t := t) hl hid
      rw [Option.some.inj h] at hregister
      have hid' : (view ρ t st).conns (ρ id) = none := by
        rw [conns_view, scopedEntry, hid, Option.filter_none]
      refine ⟨?_, hregister.2⟩
      simp only [Event.map, Op.map, Option.map_some, if_pos hid', hregister.1]
  | send id frame =>
    obtain ⟨rfl, rfl⟩ := Prod.mk.inj (Option.some.inj h)
    simp only [Event.map, Op.map]
    split
    · exact deliver_confined.told .answer fun _ => rfl
    · exact ⟨rfl, fun _ _ => rfl⟩
  | subscribe id channel =>
    obtain ⟨rfl, rfl⟩ := Prod.mk.inj (Option.some.inj h)
    exact subscribe_confined.told .answer fun _ => rfl
  | unsubscribe id channel =>
    obtain ⟨rfl, rfl⟩ := Prod.mk.inj (Option.some.inj h)
    exact unsubscribe_confined.told .answer fun _ => rfl
  | broadcast channel frame =>
    obtain ⟨rfl, rfl⟩ := Prod.mk.inj (Option.some.inj h)
    exact broadcast_confined.told .count fun _ => rfl
  | close id code =>
    obtain ⟨rfl, rfl⟩ := Prod.mk.inj (Option.some.inj h)
    exact (onConn_confined fun entry => requestClose_site entry code).told
      (fun closed => .answer closed.isSome) fun _ => rfl
  | siteConnections =>
    obtain ⟨rfl, rfl⟩ := Prod.mk.inj (Option.some.inj h)
    simp only [Event.map, Op.map, siteCounts_view, Result.map, implies_true, and_self]
  | channelMembers channel =>
    obtain ⟨rfl, rfl⟩ := Prod.mk.inj (Option.some.inj h)
    simp only [Event.map, Op.map, channels_view, List.length_map, Result.map, implies_true, and_self]
  | unregister id =>
    obtain ⟨howned, h⟩ := Option.ite_none_right_eq_some.mp h
    obtain ⟨rfl, rfl⟩ := Prod.mk.inj (Option.some.inj h)
    refine (unregister_confined howned).imp_left fun hown => (if_pos (Owned.view howned)).trans ?_
    rw [hown]
    rfl
  | receive id =>
    obtain ⟨howned, h⟩ := Option.ite_none_right_eq_some.mp h
    obtain ⟨rfl, rfl⟩ := Prod.mk.inj (Option.some.inj h)
    have hreceived : Confined ρ t st (st.onConn t id fun entry =>
      (entry.queue.head?, { entry with queue := entry.queue.tail })) _ := onConn_confined fun _ => rfl
    exact (hreceived.told (fun taken => .frame taken.join) fun _ => rfl).imp_left
      (if_pos (Owned.view howned)).trans
  | hangUp id =>
    obtain ⟨howned, h⟩ := Option.ite_none_right_eq_some.mp h
    obtain ⟨rfl, rfl⟩ := Prod.mk.inj (Option.some.inj h)
    have hended : Confined ρ t st (st.onConn t id fun entry =>
      ((), { entry with receiving := false })) _ := onConn_confined fun _ => rfl
    exact (hended.told (fun _ => .done) fun _ => rfl).imp_left (if_pos (Owned.view howned)).trans

end Histories

/-- The operations of a site in a history. -/
def operationsOf (s : String) (events : List (Event Id)) : List (Event Id) :=
  events.filter fun e => e.site = s

/-- What a site was told. -/
def resultsOf (s : String) (out : List (String × Result Id)) : List (Result Id) :=
  (out.filter fun told => told.1 = s).map Prod.snd

/-- A history leaves in the view of a site what the operations of the site alone would have
left, and they would have had the same results. -/
theorem run_view {l : Limits} (hl : l.maxConnections = 0) {events : List (Event Id)}
    {out : List (String × Result Id)} {st' : Registry Id} (h : run l events st = some (out, st')) :
    ∃ own, run l ((operationsOf s events).map (Event.map ρ)) (view ρ s st)
        = some (own, view ρ s st') ∧
      resultsOf s own = (resultsOf s out).map (Result.map ρ) := by
  induction events generalizing st out with
  | nil =>
    obtain ⟨rfl, rfl⟩ := Prod.mk.inj (Option.some.inj h)
    exact ⟨[], rfl, rfl⟩
  | cons e events ih =>
    obtain ⟨⟨r, st₁⟩, hstep, hrest⟩ := Option.bind_eq_some_iff.mp h
    obtain ⟨⟨out₁, st₂⟩, hrun, heq⟩ := Option.map_eq_some_iff.mp hrest
    obtain ⟨rfl, rfl⟩ := Prod.mk.inj heq
    obtain ⟨own, hown, hresults⟩ := ih hrun
    by_cases hs : e.site = s
    · subst hs
      refine ⟨(e.site, r.map ρ) :: own, ?_, ?_⟩
      · simp only [operationsOf] at hown ⊢
        rw [List.filter_cons_of_pos (by simp), List.map_cons, run, (step_confined hl hstep).1]
        dsimp only [Option.bind_some]
        rw [hown]
        rfl
      · simp only [resultsOf] at hresults ⊢
        rw [List.filter_cons_of_pos (by simp), List.filter_cons_of_pos (by simp), List.map_cons,
          List.map_cons, List.map_cons, hresults]
    · refine ⟨own, ?_, ?_⟩
      · rw [operationsOf, List.filter_cons_of_neg (by simpa using hs), ← (step_confined hl hstep).2 s hs]
        exact hown
      · rw [hresults, resultsOf, resultsOf, List.filter_cons_of_neg (by simpa using hs)]

omit [DecidableEq Id] in
theorem event_map_refl (e : Event Id) : e.map (Equiv.refl Id) = e := by
  obtain ⟨site, op⟩ := e
  cases op with
  | register id => cases id <;> rfl
  | _ => rfl

omit [DecidableEq Id] in
theorem result_map_refl (r : Result Id) : r.map (Equiv.refl Id) = r := by
  cases r <;> rfl

/-! ### What a site cannot reach -/

/-- A connection that a site cannot do anything to: every operation on it fails, and changes
nothing. -/
structure OutOfReach (l : Limits) (s : String) (st : Registry Id) (id : Id) : Prop where
  send frame : step l ⟨s, .send id frame⟩ st = some (.answer false, st)
  subscribe channel : step l ⟨s, .subscribe id channel⟩ st = some (.answer false, st)
  unsubscribe channel : step l ⟨s, .unsubscribe id channel⟩ st = some (.answer false, st)
  close code : step l ⟨s, .close id code⟩ st = some (.answer false, st)

/-- What is not in the scope of a site is out of its reach. -/
theorem outOfReach (l : Limits) (h : st.scopedEntry s id = none) : OutOfReach l s st id := by
  have hconn {α : Type} (f : ConnEntry → α × ConnEntry) : st.onConn s id f = (none, st) := by
    rw [onConn, h]
  constructor
  · intro frame
    simp only [step, deliver, hconn, Option.getD_none, ite_self]
  · intro channel
    simp only [step, Registry.subscribe, hconn]
    split <;> rfl
  · intro channel
    simp only [step, Registry.unsubscribe, hconn]
    rfl
  · intro code
    simp only [step, hconn]
    rfl

/-- A broadcast leaves the connections of other sites alone. -/
theorem broadcast_conns (l : Limits) (channel : String) (frame : OutFrame) {entry : ConnEntry}
    (hconn : st.conns id = some entry) (hsite : s ≠ entry.site) :
    (st.broadcast l s channel frame).2.conns id = some entry := by
  have hscoped : st.scopedEntry entry.site id = some entry := by
    rw [scopedEntry, hconn, Option.filter_some, if_pos (by simp)]
  have hview : view (Equiv.refl Id) entry.site (st.broadcast l s channel frame).2
      = view (Equiv.refl Id) entry.site st := broadcast_confined.others _ hsite
  have hconns := congrArg (fun st => st.conns id) hview
  exact (scopedEntry_site (hconns.trans hscoped)).1

/-! ## Isolation -/

/-- With no cap over all sites, what a site is told, and the state of its connections and
channels, is the same in two histories in which it does the same under other ids.  A connection
of another site is to it as an unknown one is, and its broadcasts do not touch one. -/
theorem ws_isolation (l : Limits) (hl : l.maxConnections = 0) (s : String) (ρ : Equiv.Perm Id)
    (events₁ events₂ : List (Event Id)) (out₁ out₂ : List (String × Result Id))
    (st₁ st₂ : Registry Id) (h₁ : run l events₁ new = some (out₁, st₁))
    (h₂ : run l events₂ new = some (out₂, st₂))
    (hsame : (operationsOf s events₁).map (Event.map ρ) = operationsOf s events₂) :
    resultsOf s out₂ = (resultsOf s out₁).map (Result.map ρ) ∧
      (∀ id entry, entry.site = s →
        (st₂.conns (ρ id) = some entry ↔ st₁.conns id = some entry)) ∧
      (∀ channel, st₂.channels s channel = (st₁.channels s channel).map ρ) ∧
      (∀ id, (∀ entry, st₁.conns id = some entry → entry.site ≠ s) → OutOfReach l s st₁ id) ∧
      ∀ channel frame id entry, st₁.conns id = some entry → entry.site ≠ s →
        (st₁.broadcast l s channel frame).2.conns id = some entry := by
  obtain ⟨own₁, hrun₁, hown₁⟩ := run_view (s := s) (ρ := ρ) hl h₁
  obtain ⟨own₂, hrun₂, hown₂⟩ := run_view (s := s) (ρ := Equiv.refl Id) hl h₂
  rw [view_new, hsame] at hrun₁
  rw [view_new, funext event_map_refl, List.map_id', hrun₁] at hrun₂
  obtain ⟨rfl, hview⟩ := Prod.mk.inj (Option.some.inj hrun₂)
  rw [funext result_map_refl, List.map_id'] at hown₂
  have hscoped (id : Id) : st₁.scopedEntry s id = st₂.scopedEntry s (ρ id) := by
    rw [← conns_view (ρ := ρ), hview]
    rfl
  refine ⟨hown₂.symm.trans hown₁, ?_, ?_, ?_, ?_⟩
  · intro id entry hsite
    have hiff (st : Registry Id) (id : Id) :
        st.scopedEntry s id = some entry ↔ st.conns id = some entry := by
      simp [scopedEntry, Option.filter_eq_some_iff, hsite]
    rw [← hiff, ← hiff, hscoped]
  · intro channel
    rw [← channels_view, hview, channels_view]
    exact (List.map_id _).symm
  · intro id hforeign
    refine outOfReach l ?_
    rw [scopedEntry, Option.filter_eq_none_iff]
    intro entry hentry
    simpa using hforeign entry hentry
  · intro channel frame id entry hconn hsite
    exact broadcast_conns l channel frame hconn (Ne.symm hsite)

/-- A second site joins the channel of the same name and sends to the connection of the first,
which is none the wiser. -/
theorem ws_isolation_sample :
    ∃ st₁ st₂ : Registry ℕ,
      resultsOf "b" [("b", Result.registered 2), ("b", .answer true), ("b", .count 1)]
        = [Result.registered 1, .answer true, .count 1].map (Result.map (Equiv.swap 1 2)) ∧
      st₂.channels "b" "chat" = (st₁.channels "b" "chat").map (Equiv.swap 1 2) := by
  have hrun₁ : ∃ st₁, run ⟨0, 0, 1, 0⟩ [⟨"b", .register (some 1)⟩, ⟨"b", .subscribe 1 "chat"⟩,
      ⟨"b", .broadcast "chat" ⟨[], false⟩⟩] (new : Registry ℕ)
        = some ([("b", .registered 1), ("b", .answer true), ("b", .count 1)], st₁) := ⟨_, rfl⟩
  have hrun₂ : ∃ st₂, run ⟨0, 0, 1, 0⟩ [⟨"a", .register (some 1)⟩, ⟨"b", .register (some 2)⟩,
      ⟨"a", .subscribe 1 "chat"⟩, ⟨"b", .subscribe 2 "chat"⟩, ⟨"a", .send 2 ⟨[], true⟩⟩,
      ⟨"b", .broadcast "chat" ⟨[], false⟩⟩] (new : Registry ℕ)
        = some ([("a", .registered 1), ("b", .registered 2), ("a", .answer true),
          ("b", .answer true), ("a", .answer false), ("b", .count 1)], st₂) := ⟨_, rfl⟩
  obtain ⟨st₁, h₁⟩ := hrun₁
  obtain ⟨st₂, h₂⟩ := hrun₂
  obtain ⟨hresults, -, hchannels, -⟩ :=
    ws_isolation ⟨0, 0, 1, 0⟩ rfl "b" (Equiv.swap 1 2) _ _ _ _ st₁ st₂ h₁ h₂ rfl
  exact ⟨st₁, st₂, hresults, hchannels "chat"⟩

end Registry

end Ephpm.Ws
