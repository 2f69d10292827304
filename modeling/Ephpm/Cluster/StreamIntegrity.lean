import Mathlib.Data.List.Infix
import Ephpm.Cluster.SealedStream

/-!
# The integrity of a sealed stream

An attacker on the wire of a connection can drop, repeat, reorder and cut the frames that either
end sends, and send them back.  It plays to an endpoint a **schedule** of frames, and bytes that
say nothing after them; what the endpoint delivers is what the frames of the schedule contain.

Nothing in a frame binds it to its place.  So a reader delivers a prefix of what its peer wrote,
whatever that is, **exactly if the attacker plays the frames of the peer in their order**: all
protection of the order is left to the transport below.
-/

namespace Ephpm.Cluster.Sealed

open Kv (Bytes)
open Lib

/-! ## What is written -/

/-- A call of `poll_write`, with the nonce that was drawn for it. -/
structure Write where
  nonce : Nonce
  buf : Bytes

/-- `SealedStream::poll_write`: the frame that is sent, and how many bytes were taken.  A frame
goes to the socket whole, if not at once. -/
def pollWrite (cipher : Aead) (w : Write) : Option Bytes × ℕ :=
  if w.buf = [] then (none, 0)
  else
    let take := min w.buf.length maxPlaintextLen
    let box := cipher.sealBox w.nonce (w.buf.take take)
    (some (beBytes lenPrefix box.length ++ box), take)

/-- The bytes that were written by calls. -/
def written (cipher : Aead) (writes : List Write) : Bytes :=
  (writes.map fun w => w.buf.take (pollWrite cipher w).2).flatten

/-- The calls that sent a frame. -/
def sent (writes : List Write) : List Write := writes.filter fun w => w.buf ≠ []

/-- The frame of a call that sends one. -/
def frame (cipher : Aead) (w : Write) : Bytes := (pollWrite cipher w).1.getD []

section Frames

variable {cipher : Aead}

theorem pollWrite_of_ne {w : Write} (hw : w.buf ≠ []) :
    w.buf.take (pollWrite cipher w).2 = w.buf.take maxPlaintextLen ∧
      frame cipher w = beBytes lenPrefix (cipher.sealBox w.nonce (w.buf.take maxPlaintextLen)).length ++
        cipher.sealBox w.nonce (w.buf.take maxPlaintextLen) := by
  have htake : w.buf.take (min w.buf.length maxPlaintextLen) = w.buf.take maxPlaintextLen := by
    rcases le_total w.buf.length maxPlaintextLen with hle | hle
    · rw [min_eq_left hle, List.take_length, List.take_of_length_le hle]
    · rw [min_eq_right hle]
  simp only [frame, pollWrite, if_neg hw, htake, Option.getD_some]
  exact ⟨trivial, trivial⟩

theorem written_eq (writes : List Write) :
    written cipher writes =
      ((sent writes).map fun w => w.buf.take maxPlaintextLen).flatten := by
  induction writes with
  | nil => rfl
  | cons w writes ih =>
    have hcons : written cipher (w :: writes) =
        w.buf.take (pollWrite cipher w).2 ++ written cipher writes := rfl
    rw [hcons, ih]
    by_cases hw : w.buf = []
    · simp [hw, sent]
    · rw [(pollWrite_of_ne hw).1]
      simp [hw, sent]

/-- A frame is a header that says how long its body is, and a body that opens. -/
theorem exists_frame_eq (cipher : Aead) {w : Write} (hw : w.buf ≠ []) : ∃ hdr body,
    frame cipher w = hdr ++ body ∧ hdr.length = lenPrefix ∧
      ¬ (ofBeBytes hdr = 0 ∨ maxFrameLen < ofBeBytes hdr) ∧ body.length = ofBeBytes hdr ∧
        cipher.openBox body = some (w.buf.take maxPlaintextLen) := by
  have hlength := cipher.length_sealBox w.nonce (w.buf.take maxPlaintextLen)
  have hle : (w.buf.take maxPlaintextLen).length ≤ maxPlaintextLen := List.length_take_le _ _
  have hvalue : ofBeBytes (beBytes lenPrefix
      (cipher.sealBox w.nonce (w.buf.take maxPlaintextLen)).length) =
      (cipher.sealBox w.nonce (w.buf.take maxPlaintextLen)).length := by
    refine ofBeBytes_beBytes ?_
    rw [hlength]
    unfold maxPlaintextLen sealOverhead nonceLen tagLen lenPrefix at *
    omega
  refine ⟨_, _, (pollWrite_of_ne hw).2, length_beBytes _ _, ?_, hvalue.symm,
    cipher.openBox_sealBox _ _⟩
  rw [hvalue, hlength]
  unfold maxPlaintextLen sealOverhead nonceLen tagLen maxFrameLen at *
  omega

/-- **A frame says what was written.** -/
theorem plaintext_frame {w : Write} (hw : w.buf ≠ []) (rest : Bytes) :
    plaintext cipher (frame cipher w ++ rest) =
      w.buf.take maxPlaintextLen ++ plaintext cipher rest := by
  obtain ⟨hdr, body, hframe, hhdr, hwant, hbody, hopen⟩ := exists_frame_eq cipher hw
  rw [hframe, List.append_assoc, plaintext_append hhdr hwant hbody, hopen]

end Frames

/-! ## An attacker on the wire -/

/-- A frame of the connection, from the point of view of one endpoint: one that it sent itself, or
one of its peer. -/
inductive Ref where
  | own (index : ℕ)
  | peer (index : ℕ)
deriving DecidableEq, Repr

/-- The call that sent a frame. -/
def Ref.lookup (own peer : List Write) : Ref → Option Write
  | .own index => (sent own)[index]?
  | .peer index => (sent peer)[index]?

/-- The frames that an attacker plays to an endpoint. -/
def played (cipher : Aead) (own peer : List Write) (schedule : List Ref) : Bytes :=
  ((schedule.filterMap (Ref.lookup own peer)).map (frame cipher)).flatten

section Attacker

variable {cipher : Aead}

theorem mem_sent {writes : List Write} {w : Write} (h : w ∈ sent writes) : w.buf ≠ [] := by
  simpa using (List.mem_filter.mp h).2

theorem Ref.buf_ne_nil {own peer : List Write} {r : Ref} {w : Write}
    (h : r.lookup own peer = some w) : w.buf ≠ [] := by
  cases r with
  | own index => exact mem_sent (List.mem_of_getElem? h)
  | peer index => exact mem_sent (List.mem_of_getElem? h)

/-- **What is played is what its frames say**, in the order of the schedule. -/
theorem plaintext_played (own peer : List Write) (schedule : List Ref) (tail : Bytes) :
    plaintext cipher (played cipher own peer schedule ++ tail) =
      ((schedule.filterMap (Ref.lookup own peer)).map fun w =>
        w.buf.take maxPlaintextLen).flatten ++ plaintext cipher tail := by
  have hne : ∀ w ∈ schedule.filterMap (Ref.lookup own peer), w.buf ≠ [] := by
    intro w hw
    obtain ⟨r, -, hr⟩ := List.mem_filterMap.mp hw
    exact Ref.buf_ne_nil hr
  unfold played
  generalize schedule.filterMap (Ref.lookup own peer) = ws at hne ⊢
  induction ws with
  | nil => rfl
  | cons w ws ih =>
    rw [List.map_cons, List.flatten_cons, List.append_assoc,
      plaintext_frame (hne w List.mem_cons_self),
      ih fun w' hw' => hne w' (List.mem_cons_of_mem _ hw'), List.map_cons, List.flatten_cons,
      List.append_assoc]

theorem filterMap_range_getElem? {α : Type} (l : List α) (n : ℕ) :
    (List.range n).filterMap (fun k => l[k]?) = l.take n := by
  induction n with
  | zero => rfl
  | succ n ih =>
    rw [List.range_succ, List.filterMap_append, ih, List.take_add_one]
    cases hn : l[n]? <;> simp [hn]

theorem inOrder_isPrefix {own peer : List Write} {schedule : List Ref}
    (inOrder : ∀ (k : ℕ) (r : Ref), schedule[k]? = some r → r = .peer k) :
    ((schedule.filterMap (Ref.lookup own peer)).map fun w =>
      w.buf.take maxPlaintextLen).flatten <+: written cipher peer := by
  have hschedule : schedule = (List.range schedule.length).map Ref.peer := by
    refine List.ext_getElem? fun k => ?_
    rw [List.getElem?_map]
    by_cases hk : k < schedule.length
    · rw [List.getElem?_range hk, Option.map_some, List.getElem?_eq_getElem hk,
        inOrder k _ (List.getElem?_eq_getElem hk)]
    · rw [List.getElem?_eq_none (not_lt.mp hk), List.getElem?_eq_none (by simpa using hk)]
      rfl
  have hlookup : schedule.filterMap (Ref.lookup own peer) = (sent peer).take schedule.length := by
    rw [← filterMap_range_getElem?]
    conv_lhs => rw [hschedule, List.filterMap_map]
    rfl
  rw [written_eq, hlookup, List.map_take]
  exact (List.take_prefix _ _).flatten

/-! ## The exact condition -/

/-- A write of one byte. -/
def byteWrite (b : UInt8) : Write := ⟨⟨List.replicate nonceLen 0, List.length_replicate⟩, [b]⟩

theorem sent_map_byteWrite (bs : List UInt8) : sent (bs.map byteWrite) = bs.map byteWrite :=
  List.filter_eq_self.mpr fun w hw => by
    obtain ⟨b, -, rfl⟩ := List.mem_map.mp hw
    rfl

theorem flatten_byteWrite (bs : List UInt8) :
    ((bs.map byteWrite).map fun w => w.buf.take maxPlaintextLen).flatten = bs := by
  induction bs with
  | nil => rfl
  | cons b bs ih =>
    rw [List.map_cons, List.map_cons, List.flatten_cons, ih]
    rfl

/-- Played to an endpoint at once and polled byte by byte, single bytes are delivered in the order
of the schedule. -/
theorem delivered_of_bytes {own peer : List Write} {schedule : List Ref} {bytes : Bytes}
    (hplayed : ((schedule.filterMap (Ref.lookup own peer)).map fun w =>
      w.buf.take maxPlaintextLen).flatten = bytes) {n : ℕ} (hn : n ≤ bytes.length) :
    (Endpoint.new.run cipher (.arrive (played cipher own peer schedule) ::
      List.replicate n (.poll 1))).delivered = bytes.take n := by
  have hplain : plaintext cipher (played cipher own peer schedule) = bytes := by
    have hnil : plaintext cipher [] = [] := plaintext_of_short (by decide)
    have h : plaintext cipher (played cipher own peer schedule ++ []) = _ :=
      plaintext_played own peer schedule []
    rwa [hnil, List.append_nil, List.append_nil, hplayed] at h
  have hnew : Endpoint.new.Follows cipher [] := Endpoint.follows_new
  have hfollows : (Endpoint.new.step cipher (.arrive (played cipher own peer schedule))).Follows
      cipher (played cipher own peer schedule) := by
    have h := hnew.step (.arrive (played cipher own peer schedule))
    simpa [arrived] using h
  have hroom : (Endpoint.new.step cipher
      (.arrive (played cipher own peer schedule))).delivered.length + n ≤
        (plaintext cipher (played cipher own peer schedule)).length := by
    rw [hplain]
    show 0 + n ≤ bytes.length
    omega
  have hlength := hfollows.run_polls rfl hroom
  have hprefix := (hfollows.run (List.replicate n (.poll 1))).delivered
  have harrived : arrived (List.replicate n (.poll 1)) = [] := by simp [arrived]
  rw [harrived, List.append_nil, hplain] at hprefix
  have htake := List.prefix_iff_eq_take.mp hprefix
  rw [hlength, show (Endpoint.new.step cipher
    (.arrive (played cipher own peer schedule))).delivered.length = 0 from rfl,
    Nat.zero_add] at htake
  exact htake

/-- A byte that marks one frame of the peer. -/
def mark (k : ℕ) (r : Ref) : UInt8 := if r = .peer k then 1 else 0

/-- Writes of single bytes, of which only one of the peer is marked. -/
theorem lookup_mark {n k : ℕ} (r : Ref)
    (hr : ∀ index, r = .own index ∨ r = .peer index → index < n) :
    r.lookup ((List.replicate n (0 : UInt8)).map byteWrite)
      (((List.range n).map fun i => mark k (.peer i)).map byteWrite) =
        some (byteWrite (mark k r)) := by
  cases r with
  | own index =>
    have hlt := hr index (Or.inl rfl)
    rw [Ref.lookup, sent_map_byteWrite, List.getElem?_map, List.getElem?_replicate, if_pos hlt]
    rfl
  | peer index =>
    have hlt := hr index (Or.inr rfl)
    rw [Ref.lookup, sent_map_byteWrite, List.getElem?_map, List.getElem?_map,
      List.getElem?_range hlt]
    rfl

theorem exists_bound (schedule : List Ref) (k : ℕ) : ∃ n, k < n ∧
    ∀ r ∈ schedule, ∀ index, r = .own index ∨ r = .peer index → index < n := by
  induction schedule with
  | nil => exact ⟨k + 1, Nat.lt_succ_self k, fun r hr => absurd hr List.not_mem_nil⟩
  | cons r schedule ih =>
    obtain ⟨n, hkn, hn⟩ := ih
    obtain ⟨index, hindex⟩ : ∃ index, r = .own index ∨ r = .peer index := by
      cases r with
      | own index => exact ⟨index, Or.inl rfl⟩
      | peer index => exact ⟨index, Or.inr rfl⟩
    refine ⟨n + index + 1, by omega, fun r' hr' index' hindex' => ?_⟩
    rcases List.mem_cons.mp hr' with rfl | hr'
    · have : index' = index := by
        rcases hindex with rfl | rfl <;> rcases hindex' with h | h <;> cases h <;> rfl
      omega
    · have := hn r' hr' index' hindex'
      omega

/-- **A sealed stream keeps the order of its frames exactly if the attacker does.**  Whatever the
two ends write, what an endpoint delivers is a prefix of what its peer wrote, if the frames it is
played are those of the peer in their order; under any other schedule some writes are delivered
wrongly. -/
theorem stream_integrity_iff (schedule : List Ref) :
    (∀ (cipher : Aead) (own peer : List Write) (tail : Bytes) (events : List Event),
      (∀ r ∈ schedule, (r.lookup own peer).isSome = true) → plaintext cipher tail = [] →
      arrived events <+: played cipher own peer schedule ++ tail →
        (Endpoint.new.run cipher events).delivered <+: written cipher peer) ↔
      ∀ (k : ℕ) (r : Ref), schedule[k]? = some r → r = .peer k := by
  constructor
  · intro hsafe k r hr
    by_contra hne
    -- the frame of the peer at this place has a byte that no other frame has
    obtain ⟨n, hkn, hn⟩ := exists_bound schedule k
    obtain ⟨own, peer, hlookup, hwritten⟩ : ∃ own peer : List Write,
        (∀ r ∈ schedule, r.lookup own peer = some (byteWrite (mark k r))) ∧
          written Aead.clear peer = (List.range n).map fun i => mark k (.peer i) := by
      refine ⟨_, _, fun r hr => lookup_mark r (hn r hr), ?_⟩
      rw [written_eq, sent_map_byteWrite, flatten_byteWrite]
    have hplayed : ((schedule.filterMap (Ref.lookup own peer)).map fun w =>
        w.buf.take maxPlaintextLen).flatten = schedule.map (mark k) := by
      have hmap : schedule.filterMap (Ref.lookup own peer) =
          (schedule.map (mark k)).map byteWrite := by
        rw [List.filterMap_congr hlookup, List.map_map, List.filterMap_eq_map']
        rfl
      rw [hmap, flatten_byteWrite]
    obtain ⟨hk, -⟩ := List.getElem?_eq_some_iff.mp hr
    have hdelivered : (Endpoint.new.run Aead.clear (.arrive (played Aead.clear own peer schedule) ::
        List.replicate (k + 1) (.poll 1))).delivered = (schedule.map (mark k)).take (k + 1) :=
      delivered_of_bytes hplayed (by rw [List.length_map]; omega)
    have harrived : arrived (.arrive (played Aead.clear own peer schedule) ::
        List.replicate (k + 1) (.poll 1)) = played Aead.clear own peer schedule := by
      simp [arrived]
    have hprefix := hsafe Aead.clear own peer []
      (.arrive (played Aead.clear own peer schedule) :: List.replicate (k + 1) (.poll 1))
      (fun r hr => by rw [hlookup r hr]; rfl) (plaintext_of_short (by decide))
      (by rw [harrived, List.append_nil])
    rw [hdelivered, hwritten] at hprefix
    -- at this place the endpoint has delivered another byte
    have hgot : ((schedule.map (mark k)).take (k + 1))[k]? = some 0 := by
      rw [List.getElem?_take_of_lt (Nat.lt_succ_self k), List.getElem?_map, hr, Option.map_some,
        mark, if_neg hne]
    have hpeer : ((List.range n).map fun i => mark k (.peer i))[k]? = some 1 := by
      rw [List.getElem?_map, List.getElem?_range hkn, Option.map_some, mark, if_pos rfl]
    obtain ⟨rest, hrest⟩ := hprefix
    rw [← hrest, List.getElem?_append_left (List.getElem?_eq_some_iff.mp hgot).1, hgot] at hpeer
    cases hpeer
  · intro inOrder cipher own peer tail events _ htail harrived
    have hnew : Endpoint.new.Follows cipher [] := Endpoint.follows_new
    have hfollows := hnew.run events
    rw [List.nil_append] at hfollows
    refine hfollows.delivered.trans ?_
    obtain ⟨rest, hrest⟩ := harrived
    have hmono : plaintext cipher (arrived events) <+: plaintext cipher (arrived events ++ rest) :=
      plaintext_mono _ _
    rw [hrest, plaintext_played, htail, List.append_nil] at hmono
    exact hmono.trans (inOrder_isPrefix inOrder)

end Attacker

/-- A frame that is played twice is delivered twice. -/
theorem repeated_frame_delivered :
    ∃ (peer : List Write) (events : List Event),
      arrived events = played Aead.clear [] peer [.peer 0, .peer 0] ∧
        (Endpoint.new.run Aead.clear events).delivered = [1, 1] ∧
        written Aead.clear peer = [1] := by
  refine ⟨[byteWrite 1], [.arrive (played Aead.clear [] [byteWrite 1] [.peer 0, .peer 0]),
    .poll 1, .poll 1], ?_, ?_, ?_⟩
  · simp [arrived]
  · have hplayed : ((([.peer 0, .peer 0] : List Ref).filterMap
        (Ref.lookup [] [byteWrite 1])).map fun w => w.buf.take maxPlaintextLen).flatten =
          [1, 1] := by decide
    exact delivered_of_bytes hplayed (Nat.le_refl 2)
  · rw [written_eq]
    rfl

end Ephpm.Cluster.Sealed
