import Ephpm.Kv.Entry
import Ephpm.Lib.Endian

/-!
# Sealed streams

After the handshake every byte of a cluster channel travels in **sealed frames**: a length of
four bytes and a box that the cipher of the connection has sealed.  `SealedStream` hides the
frames from its users: it seals what they write, and hands them the plaintext of the frames it
reads, in as many pieces as they ask for and however the socket delivers the bytes.

A frame that does not open is an error, and an attacker cannot make one that does.  But every
frame that was ever sent on the connection opens, **at either end and at any position**: a frame
says neither which end sealed it nor the how-manieth it is.  So what a reader delivers is what
the frames that it is played contain, in the order in which it is played them.
-/

namespace Ephpm.Cluster.Sealed

open Kv (Bytes)
open Lib

/-! ## The cipher -/

/-- `NONCE_LEN`, `TAG_LEN` and `SEAL_OVERHEAD`. -/
def nonceLen : ℕ := 12

/-- The length of the tag of ChaCha20-Poly1305. -/
def tagLen : ℕ := 16

/-- What sealing adds to a plaintext. -/
def sealOverhead : ℕ := nonceLen + tagLen

/-- A nonce of the right length. -/
abbrev Nonce := { nonce : Bytes // nonce.length = nonceLen }

/-- An ideal cipher with the key of one connection: what it opens is what it sealed. -/
structure Aead where
  encrypt : Nonce → Bytes → Bytes
  decrypt : Nonce → Bytes → Option Bytes
  length_encrypt : ∀ nonce plain, (encrypt nonce plain).length = plain.length + tagLen
  decrypt_encrypt : ∀ nonce plain, decrypt nonce (encrypt nonce plain) = some plain
  encrypt_of_decrypt : ∀ nonce box plain, decrypt nonce box = some plain →
    box = encrypt nonce plain

namespace Aead

variable (cipher : Aead)

/-- `ClusterCipher::seal`, with the nonce it drew. -/
def sealBox (nonce : Nonce) (plain : Bytes) : Bytes := nonce.1 ++ cipher.encrypt nonce plain

/-- `ClusterCipher::open`. -/
def openBox (box : Bytes) : Option Bytes :=
  if h : box.length < sealOverhead then none
  else cipher.decrypt ⟨box.take nonceLen, by
    rw [List.length_take]
    unfold sealOverhead at h
    omega⟩ (box.drop nonceLen)

theorem length_sealBox (nonce : Nonce) (plain : Bytes) :
    (cipher.sealBox nonce plain).length = plain.length + sealOverhead := by
  rw [sealBox, List.length_append, nonce.2, cipher.length_encrypt, sealOverhead]
  omega

theorem openBox_sealBox (nonce : Nonce) (plain : Bytes) :
    cipher.openBox (cipher.sealBox nonce plain) = some plain := by
  have hlength : ¬ (cipher.sealBox nonce plain).length < sealOverhead := by
    rw [length_sealBox]
    omega
  have hnonce : (cipher.sealBox nonce plain).take nonceLen = nonce.1 := List.take_left' nonce.2
  have hbox : (cipher.sealBox nonce plain).drop nonceLen = cipher.encrypt nonce plain :=
    List.drop_left' nonce.2
  simp only [openBox, dif_neg hlength, hnonce, hbox]
  exact cipher.decrypt_encrypt nonce plain

end Aead

/-- A cipher that hides nothing and authenticates everything. -/
def Aead.clear : Aead where
  encrypt := fun _ plain => plain ++ List.replicate tagLen 0
  decrypt := fun _ box =>
    if box.drop (box.length - tagLen) = List.replicate tagLen 0 then
      some (box.take (box.length - tagLen))
    else none
  length_encrypt := fun _ plain => by rw [List.length_append, List.length_replicate]
  decrypt_encrypt := by
    intro nonce plain
    have hlength : (plain ++ List.replicate tagLen (0 : UInt8)).length - tagLen = plain.length := by
      rw [List.length_append, List.length_replicate, Nat.add_sub_cancel]
    rw [hlength, List.drop_left, if_pos rfl, List.take_left]
  encrypt_of_decrypt := by
    intro nonce box plain h
    split at h
    next htag => rw [← Option.some.inj h, ← htag, List.take_append_drop]
    next => cases h

/-! ## The stream -/

/-- `SEALED_LEN_PREFIX`, `MAX_SEALED_FRAME_LEN` and `MAX_SEALED_PLAINTEXT_LEN`. -/
def lenPrefix : ℕ := 4

/-- `MAX_FRAME_LEN`. -/
def maxFrameLen : ℕ := 1024 * 1024

/-- `MAX_PLAINTEXT_LEN`: a write is cut into pieces of this size. -/
def maxPlaintextLen : ℕ := 64 * 1024

/-- The bytes that have arrived at a socket, segment by segment. -/
structure Socket where
  segments : List Bytes
  closed : Bool

namespace Socket

/-- All that is there to be read. -/
def bytes (socket : Socket) : Bytes := socket.segments.flatten

/-- `poll_read` of the socket: up to `room` bytes of one segment, no bytes at the end of the
stream, or nothing yet. -/
def pollRead (room : ℕ) : List Bytes → Bool → Option (Bytes × Socket)
  | [], closed => if closed then some ([], ⟨[], closed⟩) else none
  | [] :: segments, closed => pollRead room segments closed
  | segment :: segments, closed => some (segment.take room, ⟨segment.drop room :: segments, closed⟩)

end Socket

/-- The state of a reader: the part of a header and of a body that has been read, and the
plaintext that has not been handed out. -/
structure Reader where
  hdr : Bytes
  body : Bytes
  plain : Bytes

/-- Why reading fails. -/
inductive ReadError where
  | unexpectedEof
  | invalidData
deriving DecidableEq, Repr

/-- What a poll gives. -/
inductive Outcome where
  | pending
  | data (bytes : Bytes)
  | error (e : ReadError)
deriving DecidableEq, Repr

/-- The loop that fills the body of a frame. -/
inductive Fill where
  | pending (body : Bytes)
  | eof (body : Bytes)
  | full (body : Bytes) (socket : Socket)

/-- The body of a frame is filled up from the segments. -/
def fillBody (want : ℕ) (body : Bytes) : List Bytes → Bool → Fill
  | segments, closed =>
    if want ≤ body.length then .full body ⟨segments, closed⟩
    else match segments with
      | [] => if closed then .eof body else .pending body
      | segment :: segments =>
        if segment.length ≤ want - body.length then
          fillBody want (body ++ segment) segments closed
        else .full (body ++ segment.take (want - body.length))
          ⟨segment.drop (want - body.length) :: segments, closed⟩

/-- Reading a header and filling a body use up what has arrived. -/
theorem Socket.pollRead_bytes {room : ℕ} {segments : List Bytes} {closed : Bool} {got : Bytes}
    {socket : Socket} (h : Socket.pollRead room segments closed = some (got, socket)) :
    segments.flatten = got ++ socket.bytes ∧ socket.closed = closed ∧
      (got = [] → 0 < room → segments.flatten = [] ∧ closed = true) ∧ got.length ≤ room := by
  induction segments with
  | nil =>
    rw [Socket.pollRead] at h
    split at h
    next hclosed =>
      obtain ⟨rfl, rfl⟩ := Prod.mk.inj (Option.some.inj h)
      exact ⟨rfl, rfl, fun _ _ => ⟨rfl, hclosed⟩, Nat.zero_le _⟩
    next => cases h
  | cons segment segments ih =>
    cases segment with
    | nil => exact ih h
    | cons b segment =>
      obtain ⟨rfl, rfl⟩ := Prod.mk.inj (Option.some.inj h)
      refine ⟨?_, rfl, fun hnil hroom => ?_, List.length_take_le _ _⟩
      · simp only [Socket.bytes, List.flatten_cons, ← List.append_assoc,
          List.take_append_drop]
      · cases room with
        | zero => exact absurd hroom (lt_irrefl 0)
        | succ room => cases hnil

theorem fillBody_full {want : ℕ} {body : Bytes} {segments : List Bytes} {closed : Bool}
    {body' : Bytes} {socket : Socket}
    (h : fillBody want body segments closed = .full body' socket) :
    ∃ extra, body' = body ++ extra ∧ segments.flatten = extra ++ socket.bytes ∧
      (body.length ≤ want → body'.length = want) ∧ socket.closed = closed := by
  induction segments generalizing body with
  | nil =>
    rw [fillBody] at h
    split at h
    next hfull =>
      obtain ⟨rfl, rfl⟩ := Fill.full.inj h
      exact ⟨[], by simp, rfl, fun hbody => le_antisymm hbody hfull, rfl⟩
    next => split at h <;> cases h
  | cons segment segments ih =>
    rw [fillBody] at h
    split at h
    next hfull =>
      obtain ⟨rfl, rfl⟩ := Fill.full.inj h
      exact ⟨[], by simp, rfl, fun hbody => le_antisymm hbody hfull, rfl⟩
    next hshort =>
      split at h
      next hfits =>
        obtain ⟨extra, hbody, hbytes, hlength, hclosed⟩ := ih h
        refine ⟨segment ++ extra, ?_, ?_, fun _ => hlength ?_, hclosed⟩
        · rw [hbody, List.append_assoc]
        · rw [List.flatten_cons, hbytes, List.append_assoc]
        · rw [List.length_append]
          omega
      next hlong =>
        obtain ⟨rfl, rfl⟩ := Fill.full.inj h
        refine ⟨segment.take (want - body.length), rfl, ?_, fun hbody => ?_, rfl⟩
        · simp only [Socket.bytes, List.flatten_cons]
          rw [← List.append_assoc, List.take_append_drop]
        · rw [List.length_append, List.length_take]
          omega

theorem fillBody_short {want : ℕ} {body : Bytes} {segments : List Bytes} {closed : Bool}
    {body' : Bytes} (h : fillBody want body segments closed = .pending body' ∨
      fillBody want body segments closed = .eof body') :
    body' = body ++ segments.flatten ∧ body'.length < want := by
  induction segments generalizing body with
  | nil =>
    rw [fillBody] at h
    split at h
    next => rcases h with h | h <;> cases h
    next hshort =>
      have hbody : body' = body := by
        split at h
        · rcases h with h | h
          · cases h
          · exact (Fill.eof.inj h).symm
        · rcases h with h | h
          · exact (Fill.pending.inj h).symm
          · cases h
      rw [hbody]
      exact ⟨by simp, not_le.mp hshort⟩
  | cons segment segments ih =>
    rw [fillBody] at h
    split at h
    next => rcases h with h | h <;> cases h
    next hshort =>
      split at h
      next =>
        obtain ⟨hbody, hlength⟩ := ih h
        exact ⟨by rw [hbody, List.flatten_cons, List.append_assoc], hlength⟩
      next => rcases h with h | h <;> cases h

section Read

variable (cipher : Aead) (capacity : ℕ)

set_option linter.unusedVariables false in
/-- `SealedStream::poll_read`. -/
def pollRead (r : Reader) (socket : Socket) : Outcome × Reader × Socket :=
  if r.plain ≠ [] then
    (.data (r.plain.take capacity), { r with plain := r.plain.drop capacity }, socket)
  else if r.hdr.length < lenPrefix then
    match hread : Socket.pollRead (lenPrefix - r.hdr.length) socket.segments socket.closed with
    | none => (.pending, r, socket)
    | some (got, socket') =>
      if hgot : got = [] then
        (if r.hdr.length = 0 then .data [] else .error .unexpectedEof, r, socket')
      else pollRead { r with hdr := r.hdr ++ got } socket'
  else
    let want := ofBeBytes r.hdr
    if want = 0 ∨ maxFrameLen < want then (.error .invalidData, r, socket)
    else
      match hfill : fillBody want r.body socket.segments socket.closed with
      | .pending body => (.pending, { r with body }, ⟨[], socket.closed⟩)
      | .eof body => (.error .unexpectedEof, { r with body }, ⟨[], socket.closed⟩)
      | .full body socket' =>
        match cipher.openBox body with
        | none => (.error .invalidData, { r with body }, socket')
        | some plain => pollRead ⟨[], [], plain⟩ socket'
termination_by (socket.bytes.length, r.hdr.length)
decreasing_by
  · have hbytes : socket.bytes = got ++ socket'.bytes := (Socket.pollRead_bytes hread).1
    refine Prod.Lex.left _ _ ?_
    rw [hbytes, List.length_append]
    have := List.length_pos_iff.mpr hgot
    omega
  · obtain ⟨extra, -, hbytes, -⟩ := fillBody_full hfill
    have hlength := congrArg List.length hbytes
    rw [List.length_append] at hlength
    have hle : socket'.bytes.length ≤ socket.bytes.length := by
      rw [Socket.bytes, Socket.bytes] at *
      omega
    have hhdr : (0 : ℕ) < r.hdr.length := by
      unfold lenPrefix at *
      omega
    rcases hle.lt_or_eq with hlt | heq
    · exact Prod.Lex.left _ _ hlt
    · rw [heq]
      exact Prod.Lex.right _ hhdr

end Read

/-! ## What a stream of bytes says -/

section Decode

variable (cipher : Aead)

/-- The plaintext of the frames at the front of a stream of bytes, up to the first one that is
incomplete, out of range or does not open. -/
def plaintext (stream : Bytes) : Bytes :=
  if stream.length < lenPrefix then []
  else
    let want := ofBeBytes (stream.take lenPrefix)
    let rest := stream.drop lenPrefix
    if want = 0 ∨ maxFrameLen < want ∨ rest.length < want then []
    else
      match cipher.openBox (rest.take want) with
      | none => []
      | some plain => plain ++ plaintext (rest.drop want)
termination_by stream.length
decreasing_by
  rw [List.length_drop, List.length_drop]
  unfold lenPrefix at *
  omega

variable {cipher}

theorem plaintext_of_short {stream : Bytes} (h : stream.length < lenPrefix) :
    plaintext cipher stream = [] := by
  rw [plaintext, if_pos h]

/-- The plaintext of a header, a body and what follows them. -/
theorem plaintext_append {hdr body rest : Bytes} (hhdr : hdr.length = lenPrefix)
    (hwant : ¬ (ofBeBytes hdr = 0 ∨ maxFrameLen < ofBeBytes hdr))
    (hbody : body.length = ofBeBytes hdr) :
    plaintext cipher (hdr ++ (body ++ rest)) =
      match cipher.openBox body with
      | none => []
      | some plain => plain ++ plaintext cipher rest := by
  have hlong : ¬ (hdr ++ (body ++ rest)).length < lenPrefix := by
    rw [List.length_append]
    omega
  have hrange : ¬ (ofBeBytes hdr = 0 ∨ maxFrameLen < ofBeBytes hdr ∨
      (body ++ rest).length < ofBeBytes hdr) := by
    rw [List.length_append]
    omega
  rw [plaintext, if_neg hlong]
  simp only [List.take_left' hhdr, List.drop_left' hhdr, if_neg hrange, List.take_left' hbody,
    List.drop_left' hbody]

/-- A header that is out of range, or a body that is not complete, says nothing. -/
theorem plaintext_of_stuck {hdr rest : Bytes} (hhdr : hdr.length = lenPrefix)
    (h : ofBeBytes hdr = 0 ∨ maxFrameLen < ofBeBytes hdr ∨ rest.length < ofBeBytes hdr) :
    plaintext cipher (hdr ++ rest) = [] := by
  rw [plaintext]
  split
  · rfl
  · simp only [List.take_left' hhdr, List.drop_left' hhdr, if_pos h]

/-- A stream that goes on says at least as much. -/
theorem plaintext_mono (stream more : Bytes) :
    plaintext cipher stream <+: plaintext cipher (stream ++ more) := by
  induction hlength : stream.length using Nat.strong_induction_on generalizing stream with
  | _ n ih =>
    subst hlength
    by_cases hshort : stream.length < lenPrefix
    · rw [plaintext_of_short hshort]
      exact List.nil_prefix
    · obtain ⟨hdr, rest, rfl, hhdr⟩ : ∃ hdr rest, stream = hdr ++ rest ∧
          hdr.length = lenPrefix :=
        ⟨stream.take lenPrefix, stream.drop lenPrefix, (List.take_append_drop _ _).symm,
          by rw [List.length_take]; omega⟩
      by_cases hstuck : ofBeBytes hdr = 0 ∨ maxFrameLen < ofBeBytes hdr ∨
          rest.length < ofBeBytes hdr
      · rw [plaintext_of_stuck hhdr hstuck]
        exact List.nil_prefix
      · obtain ⟨body, rest, rfl, hbody⟩ : ∃ body rest', rest = body ++ rest' ∧
            body.length = ofBeBytes hdr :=
          ⟨rest.take (ofBeBytes hdr), rest.drop (ofBeBytes hdr),
            (List.take_append_drop _ _).symm, by rw [List.length_take]; omega⟩
        have hrange : ¬ (ofBeBytes hdr = 0 ∨ maxFrameLen < ofBeBytes hdr) := by omega
        rw [List.append_assoc, List.append_assoc, plaintext_append hhdr hrange hbody,
          plaintext_append hhdr hrange hbody]
        split
        · exact List.nil_prefix
        · refine (List.prefix_append_right_inj _).mpr (ih _ ?_ _ rfl)
          rw [List.length_append, List.length_append, hhdr]
          unfold lenPrefix
          omega

/-! ## What a poll delivers -/

/-- A reader keeps part of a body only after a whole header, and less than the whole body. -/
structure Reader.Wf (r : Reader) : Prop where
  hdr : r.hdr.length ≤ lenPrefix
  body : r.hdr.length < lenPrefix → r.body = []
  short : r.body.length ≤ ofBeBytes r.hdr

/-- What a reader has still to deliver, if `more` arrives. -/
def ahead (cipher : Aead) (r : Reader) (socket : Socket) (more : Bytes) : Bytes :=
  r.plain ++ plaintext cipher (r.hdr ++ (r.body ++ (socket.bytes ++ more)))

/-- **What a poll does**: it hands out what comes next and keeps the rest; it hands out nothing
only if there is nothing to hand out. -/
structure Polled (cipher : Aead) (capacity : ℕ) (r : Reader) (socket : Socket)
    (result : Outcome × Reader × Socket) : Prop where
  wf : (∀ e, result.1 ≠ .error e) → result.2.1.Wf
  data : ∀ bytes, result.1 = .data bytes →
    (∀ more, ahead cipher r socket more = bytes ++ ahead cipher result.2.1 result.2.2 more) ∧
      (0 < capacity → bytes = [] → ahead cipher r socket [] = []) ∧ bytes.length ≤ capacity
  pending : result.1 = .pending →
    (∀ more, ahead cipher r socket more = ahead cipher result.2.1 result.2.2 more) ∧
      ahead cipher r socket [] = []
  error : ∀ e, result.1 = .error e → ahead cipher r socket [] = []

theorem ahead_of_plain_nil {r : Reader} {socket : Socket} {more : Bytes} (h : ¬ r.plain ≠ []) :
    ahead cipher r socket more =
      plaintext cipher (r.hdr ++ (r.body ++ (socket.bytes ++ more))) := by
  rw [ahead, not_not.mp h, List.nil_append]

/-- A poll that fails had nothing to hand out. -/
theorem Polled.of_error {capacity : ℕ} {r r' : Reader} {socket socket' : Socket} {e : ReadError}
    (h : ahead cipher r socket [] = []) :
    Polled cipher capacity r socket (.error e, r', socket') where
  wf := fun hne => absurd rfl (hne e)
  data := fun _ h => by cases h
  pending := fun h => by cases h
  error := fun _ _ => h

/-- A poll that waits had nothing to hand out. -/
theorem Polled.of_pending {capacity : ℕ} {r r' : Reader} {socket socket' : Socket} (wf : r'.Wf)
    (h : ∀ more, ahead cipher r socket more = ahead cipher r' socket' more)
    (hnone : ahead cipher r socket [] = []) :
    Polled cipher capacity r socket (.pending, r', socket') where
  wf := fun _ => wf
  data := fun _ h => by cases h
  pending := fun _ => ⟨h, hnone⟩
  error := fun _ h => by cases h

theorem Polled.of_ahead {capacity : ℕ} {r r' : Reader} {socket socket' : Socket}
    {result : Outcome × Reader × Socket} (polled : Polled cipher capacity r' socket' result)
    (h : ∀ more, ahead cipher r socket more = ahead cipher r' socket' more) :
    Polled cipher capacity r socket result where
  wf := polled.wf
  data := by
    intro bytes hbytes
    obtain ⟨hahead, hprogress, hlength⟩ := polled.data bytes hbytes
    exact ⟨fun more => (h more).trans (hahead more),
      fun hcapacity hnil => (h []).trans (hprogress hcapacity hnil), hlength⟩
  pending := by
    intro hpending
    obtain ⟨hahead, hnone⟩ := polled.pending hpending
    exact ⟨fun more => (h more).trans (hahead more), (h []).trans hnone⟩
  error := fun e he => (h []).trans (polled.error e he)

theorem Socket.pollRead_none {room : ℕ} {segments : List Bytes} {closed : Bool}
    (h : Socket.pollRead room segments closed = none) : segments.flatten = [] := by
  induction segments with
  | nil => rfl
  | cons segment segments ih =>
    cases segment with
    | nil => exact ih h
    | cons b segment => cases h

/-- A header that is not complete says nothing. -/
theorem Reader.Wf.ahead_short {r : Reader} (wf : r.Wf) (hplain : ¬ r.plain ≠ [])
    (hhdr : r.hdr.length < lenPrefix) {socket : Socket} (hbytes : socket.bytes = []) :
    ahead cipher r socket [] = [] := by
  rw [ahead_of_plain_nil hplain, wf.body hhdr, hbytes, List.append_nil, List.append_nil,
    List.append_nil]
  exact plaintext_of_short hhdr

theorem pollRead_polled (capacity : ℕ) {r : Reader} (wf : r.Wf) (socket : Socket) :
    Polled cipher capacity r socket (pollRead cipher capacity r socket) := by
  fun_induction pollRead cipher capacity r socket with
  | case1 r socket hplain =>
    -- plaintext is left from the last frame
    refine ⟨fun _ => ⟨wf.hdr, wf.body, wf.short⟩, fun bytes hbytes => ?_,
      fun h => (by cases h), fun _ h => (by cases h)⟩
    obtain rfl := Outcome.data.inj hbytes
    refine ⟨fun more => ?_, fun hcapacity hnil => ?_, List.length_take_le _ _⟩
    · simp only [ahead]
      rw [← List.append_assoc (List.take _ _), List.take_append_drop]
    · rcases List.take_eq_nil_iff.mp hnil with hzero | hnone
      · exact absurd hzero hcapacity.ne'
      · exact absurd hnone hplain
  | case2 r socket hplain hhdr hread =>
    exact .of_pending wf (fun _ => rfl)
      (wf.ahead_short hplain hhdr (Socket.pollRead_none hread))
  | case3 r socket hplain hhdr socket' hread =>
    -- the stream has ended
    obtain ⟨hbytes, -, hend, -⟩ := Socket.pollRead_bytes hread
    have hnil := (hend rfl (by omega)).1
    have hnone : ahead cipher r socket [] = [] := wf.ahead_short hplain hhdr hnil
    have hsame : ∀ more, ahead cipher r socket more = ahead cipher r socket' more := by
      intro more
      rw [ahead, ahead, Socket.bytes, hbytes, List.nil_append]
    split
    · refine ⟨fun _ => wf, fun bytes hbytes => ?_, fun h => (by cases h), fun _ h => (by cases h)⟩
      obtain rfl := Outcome.data.inj hbytes
      exact ⟨hsame, fun _ _ => hnone, Nat.zero_le _⟩
    · exact .of_error hnone
  | case4 r socket hplain hhdr got socket' hread hgot ih =>
    -- more of the header
    obtain ⟨hbytes, -, -, hroom⟩ := Socket.pollRead_bytes hread
    have hbody := wf.body hhdr
    have wf' : Reader.Wf ⟨r.hdr ++ got, r.body, r.plain⟩ := by
      refine ⟨?_, fun _ => hbody, ?_⟩
      · rw [List.length_append]
        omega
      · rw [hbody]
        exact Nat.zero_le _
    refine (ih wf').of_ahead fun more => ?_
    rw [ahead, ahead, hbody, Socket.bytes, hbytes, List.nil_append, List.nil_append,
      List.append_assoc, List.append_assoc]
  | case5 r socket hplain hhdr want hwant =>
    refine .of_error ?_
    rw [ahead_of_plain_nil hplain]
    exact plaintext_of_stuck (le_antisymm wf.hdr (not_lt.mp hhdr))
      (hwant.elim Or.inl fun h => Or.inr (Or.inl h))
  | case6 r socket hplain hhdr want hwant body hfill =>
    -- the body is not complete
    obtain ⟨hbody, hshort⟩ := fillBody_short (Or.inl hfill)
    refine .of_pending ⟨wf.hdr, fun h => absurd h hhdr, hshort.le⟩ (fun more => ?_) ?_
    · simp only [ahead, Socket.bytes, List.flatten_nil, List.nil_append, hbody,
        List.append_assoc]
    · rw [ahead_of_plain_nil hplain]
      refine plaintext_of_stuck (le_antisymm wf.hdr (not_lt.mp hhdr)) (Or.inr (Or.inr ?_))
      rw [Socket.bytes, List.append_nil, ← hbody]
      exact hshort
  | case7 r socket hplain hhdr want hwant body hfill =>
    obtain ⟨hbody, hshort⟩ := fillBody_short (Or.inr hfill)
    refine .of_error ?_
    rw [ahead_of_plain_nil hplain]
    refine plaintext_of_stuck (le_antisymm wf.hdr (not_lt.mp hhdr)) (Or.inr (Or.inr ?_))
    rw [Socket.bytes, List.append_nil, ← hbody]
    exact hshort
  | case8 r socket hplain hhdr want hwant body socket' hfill hopen =>
    obtain ⟨extra, hbody, hbytes, hfull, -⟩ := fillBody_full hfill
    refine .of_error ?_
    rw [ahead_of_plain_nil hplain, Socket.bytes, hbytes, List.append_nil,
      ← List.append_assoc r.body, ← hbody,
      plaintext_append (le_antisymm wf.hdr (not_lt.mp hhdr)) hwant (hfull wf.short), hopen]
  | case9 r socket hplain hhdr want hwant body socket' hfill plain hopen ih =>
    -- a frame opens
    obtain ⟨extra, hbody, hbytes, hfull, -⟩ := fillBody_full hfill
    refine (ih ⟨Nat.zero_le _, fun _ => rfl, Nat.zero_le _⟩).of_ahead fun more => ?_
    rw [ahead_of_plain_nil hplain, Socket.bytes, hbytes, List.append_assoc,
      ← List.append_assoc r.body, ← hbody,
      plaintext_append (le_antisymm wf.hdr (not_lt.mp hhdr)) hwant (hfull wf.short), hopen]
    rfl

end Decode

/-! ## Runs -/

/-- What happens at an endpoint: a segment arrives, the peer closes, or the user polls. -/
inductive Event where
  | arrive (segment : Bytes)
  | close
  | poll (capacity : ℕ)

/-- An endpoint that reads: its stream, its socket, what it has delivered, and whether it has
reported an error, after which it is not read from. -/
structure Endpoint where
  reader : Reader
  socket : Socket
  delivered : Bytes
  failed : Bool

namespace Endpoint

/-- `SealedStream::new`. -/
def new : Endpoint := ⟨⟨[], [], []⟩, ⟨[], false⟩, [], false⟩

/-- One event at an end of the stream. -/
def step (cipher : Aead) (e : Endpoint) : Event → Endpoint
  | .arrive segment =>
    { e with socket := { e.socket with segments := e.socket.segments ++ [segment] } }
  | .close => { e with socket := { e.socket with closed := true } }
  | .poll capacity =>
    if e.failed then e
    else
      match pollRead cipher capacity e.reader e.socket with
      | (.data bytes, reader, socket) =>
        { e with reader, socket, delivered := e.delivered ++ bytes }
      | (.pending, reader, socket) => { e with reader, socket }
      | (.error _, reader, socket) => { e with reader, socket, failed := true }

/-- What is left after some events. -/
def run (cipher : Aead) (e : Endpoint) (events : List Event) : Endpoint :=
  events.foldl (step cipher) e

end Endpoint

/-- The bytes that arrive in a run. -/
def arrived (events : List Event) : Bytes :=
  (events.map fun
    | .arrive segment => segment
    | _ => []).flatten

section Runs

variable {cipher : Aead}

/-- What an endpoint has delivered and has still to deliver is what has arrived, and what will. -/
structure Endpoint.Follows (cipher : Aead) (e : Endpoint) (stream : Bytes) : Prop where
  wf : e.failed = false → e.reader.Wf
  ahead : e.failed = false → ∀ more, plaintext cipher (stream ++ more) =
    e.delivered ++ Sealed.ahead cipher e.reader e.socket more
  delivered : e.delivered <+: plaintext cipher stream

theorem Endpoint.follows_new : Endpoint.new.Follows cipher [] where
  wf := fun _ => ⟨Nat.zero_le _, fun _ => rfl, Nat.zero_le _⟩
  ahead := fun _ _ => rfl
  delivered := List.nil_prefix

theorem Endpoint.Follows.step {e : Endpoint} {stream : Bytes} (follows : e.Follows cipher stream)
    (event : Event) : (e.step cipher event).Follows cipher (stream ++ arrived [event]) := by
  cases event with
  | arrive segment =>
    refine ⟨follows.wf, fun hlive more => ?_, ?_⟩
    · have hahead := follows.ahead hlive (segment ++ more)
      simp only [Endpoint.step, arrived, Sealed.ahead, Socket.bytes, List.map_cons,
        List.map_nil, List.flatten_append, List.flatten_cons, List.flatten_nil,
        List.append_nil, List.append_assoc] at hahead ⊢
      exact hahead
    · exact follows.delivered.trans (plaintext_mono _ _)
  | close =>
    rw [show arrived [.close] = [] from rfl, List.append_nil]
    exact ⟨follows.wf, follows.ahead, follows.delivered⟩
  | poll capacity =>
    rw [show arrived [.poll capacity] = [] from rfl, List.append_nil]
    unfold Endpoint.step
    dsimp only
    split
    · exact follows
    next hlive =>
      have hlive : e.failed = false := Bool.not_eq_true _ ▸ hlive
      have polled : Polled cipher capacity e.reader e.socket _ :=
        pollRead_polled capacity (follows.wf hlive) e.socket
      split
      next bytes reader socket hresult =>
        rw [hresult] at polled
        obtain ⟨hahead, -, -⟩ := polled.data bytes rfl
        have hnext : ∀ more, plaintext cipher (stream ++ more) =
            (e.delivered ++ bytes) ++ Sealed.ahead cipher reader socket more := by
          intro more
          rw [follows.ahead hlive, hahead, List.append_assoc]
        refine ⟨fun _ => polled.wf (by simp), fun _ => hnext, ?_⟩
        have hnow := hnext []
        rw [List.append_nil] at hnow
        rw [hnow]
        exact List.prefix_append _ _
      next reader socket hresult =>
        rw [hresult] at polled
        obtain ⟨hahead, -⟩ := polled.pending rfl
        refine ⟨fun _ => polled.wf (by simp), fun _ more => ?_, follows.delivered⟩
        rw [follows.ahead hlive, hahead]
      next e' reader socket hresult =>
        exact ⟨fun h => (by cases h), fun h => (by cases h), follows.delivered⟩

/-- **What an endpoint delivers is what the stream it was played says.** -/
theorem Endpoint.Follows.run {e : Endpoint} {stream : Bytes} (follows : e.Follows cipher stream)
    (events : List Event) : (e.run cipher events).Follows cipher (stream ++ arrived events) := by
  induction events generalizing e stream with
  | nil =>
    rw [show arrived [] = [] from rfl, List.append_nil]
    exact follows
  | cons event events ih =>
    have h := ih (follows.step event)
    rw [List.append_assoc] at h
    have harrived : arrived [event] ++ arrived events = arrived (event :: events) := by
      simp [arrived]
    rw [harrived] at h
    exact h

theorem Endpoint.Follows.run_polls {e : Endpoint} {stream : Bytes}
    (follows : e.Follows cipher stream) (hlive : e.failed = false) {n : ℕ}
    (hn : e.delivered.length + n ≤ (plaintext cipher stream).length) :
    (e.run cipher (List.replicate n (.poll 1))).delivered.length = e.delivered.length + n := by
  induction n generalizing e with
  | zero => rfl
  | succ n ih =>
    have hahead := follows.ahead hlive []
    rw [List.append_nil] at hahead
    have hne : Sealed.ahead cipher e.reader e.socket [] ≠ [] := by
      intro hnil
      rw [hahead, hnil, List.append_nil] at hn
      omega
    have polled : Polled cipher 1 e.reader e.socket _ :=
      pollRead_polled 1 (follows.wf hlive) e.socket
    have hstep := follows.step (.poll 1)
    rw [show arrived [.poll 1] = [] from rfl, List.append_nil] at hstep
    -- there is something to deliver, so the poll delivers
    obtain ⟨bytes, reader, socket, hresult⟩ : ∃ bytes reader socket,
        pollRead cipher 1 e.reader e.socket = (.data bytes, reader, socket) := by
      rcases hpoll : pollRead cipher 1 e.reader e.socket with ⟨outcome, reader, socket⟩
      rw [hpoll] at polled
      cases outcome with
      | pending => exact absurd (polled.pending rfl).2 hne
      | data bytes => exact ⟨bytes, reader, socket, rfl⟩
      | error e => exact absurd (polled.error e rfl) hne
    have hnext : e.step cipher (.poll 1) =
        { e with reader, socket, delivered := e.delivered ++ bytes } := by
      simp only [Endpoint.step, hlive, hresult]
      rfl
    rw [hresult] at polled
    obtain ⟨-, hprogress, hlength⟩ := polled.data bytes rfl
    have hone : bytes.length = 1 := by
      have hpos := List.length_pos_iff.mpr fun hnil => hne (hprogress Nat.one_pos hnil)
      omega
    rw [hnext] at hstep
    have hrest := ih hstep hlive (by
      simp only [List.length_append, hone]
      omega)
    rw [List.replicate_succ]
    show (Endpoint.run cipher (e.step cipher (.poll 1)) _).delivered.length = _
    rw [hnext, hrest]
    simp only [List.length_append, hone]
    omega

end Runs

end Ephpm.Cluster.Sealed
