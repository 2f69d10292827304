import Ephpm.Cluster.StreamIntegrity

/-!
# A sealed stream is a pipe

Between two honest ends a sealed stream should be a plain pipe of bytes.  Both ends are machines
that can be stopped at any point: a frame may be accepted by the socket in pieces, and the rest
waits for the next call; a header and a body may arrive in pieces, and are kept until they are
whole.

Three functions of the bytes that have arrived say all there is to say about a reader, whatever
the pieces were: what they say (`plaintext`), how they end (`ending`), and, from the two, what a
poll returns once everything that arrived has been handed out (`atEnd`).  The writer has one
invariant: **what the socket has accepted and what is still waiting are the frames of what was
reported as written**.  So the bytes on the wire are always a cut through a sequence of whole
frames, and where the cut falls decides how the reader's stream ends
(`sealed_stream_transparent`).
-/

namespace Ephpm.Cluster.Sealed

open Kv (Bytes)
open Lib

/-! ## How a stream of bytes ends -/

section Ending

variable (cipher : Aead)

/-- The error that a stream of bytes ends in; `none` at the end of a frame. -/
def ending (stream : Bytes) : Option ReadError :=
  if stream = [] then none
  else if stream.length < lenPrefix then some .unexpectedEof
  else
    let want := ofBeBytes (stream.take lenPrefix)
    let rest := stream.drop lenPrefix
    if want = 0 ∨ maxFrameLen < want then some .invalidData
    else if rest.length < want then some .unexpectedEof
    else
      match cipher.openBox (rest.take want) with
      | none => some .invalidData
      | some _ => ending (rest.drop want)
termination_by stream.length
decreasing_by
  rw [List.length_drop, List.length_drop]
  unfold lenPrefix at *
  omega

variable {cipher}

theorem ending_nil : ending cipher [] = none := by
  rw [ending, if_pos rfl]

theorem ending_of_short {stream : Bytes} (hne : stream ≠ []) (h : stream.length < lenPrefix) :
    ending cipher stream = some .unexpectedEof := by
  rw [ending, if_neg hne, if_pos h]

section Header

variable {hdr rest : Bytes}

/-- After a whole header. -/
theorem ending_header (hhdr : hdr.length = lenPrefix) :
    ending cipher (hdr ++ rest) =
      if ofBeBytes hdr = 0 ∨ maxFrameLen < ofBeBytes hdr then some .invalidData
      else if rest.length < ofBeBytes hdr then some .unexpectedEof
      else
        match cipher.openBox (rest.take (ofBeBytes hdr)) with
        | none => some .invalidData
        | some _ => ending cipher (rest.drop (ofBeBytes hdr)) := by
  have hlong : ¬ (hdr ++ rest).length < lenPrefix := by
    rw [List.length_append]
    omega
  have hne : hdr ++ rest ≠ [] := by
    intro hnil
    rw [hnil] at hlong
    exact hlong (by decide)
  rw [ending, if_neg hne, if_neg hlong]
  simp only [List.take_left' hhdr, List.drop_left' hhdr]

theorem ending_append {body : Bytes} (hhdr : hdr.length = lenPrefix)
    (hwant : ¬ (ofBeBytes hdr = 0 ∨ maxFrameLen < ofBeBytes hdr))
    (hbody : body.length = ofBeBytes hdr) :
    ending cipher (hdr ++ (body ++ rest)) =
      match cipher.openBox body with
      | none => some .invalidData
      | some _ => ending cipher rest := by
  have hlong : ¬ (body ++ rest).length < ofBeBytes hdr := by
    rw [List.length_append]
    omega
  rw [ending_header hhdr, if_neg hwant, if_neg hlong, List.take_left' hbody, List.drop_left' hbody]

end Header

end Ending

/-! ## What a poll makes of it -/

/-- The bytes that a reader has not opened yet. -/
def unread (r : Reader) (socket : Socket) : Bytes := r.hdr ++ (r.body ++ socket.bytes)

/-- What a poll returns when there is nothing to hand out. -/
def atEnd (e : Option ReadError) (closed : Bool) : Outcome :=
  match e with
  | some .invalidData => .error .invalidData
  | some .unexpectedEof => if closed then .error .unexpectedEof else .pending
  | none => if closed then .data [] else .pending

/-- **How a poll ends**: what it leaves unread ends as before, and when there is nothing to hand
out it returns how the unread bytes end. -/
structure Ended (cipher : Aead) (r : Reader) (socket : Socket)
    (result : Outcome × Reader × Socket) : Prop where
  rest : (∀ e, result.1 ≠ .error e) → ∀ more, ending cipher (unread r socket ++ more) =
    ending cipher (unread result.2.1 result.2.2 ++ more)
  closed : result.2.2.closed = socket.closed
  finished : r.plain = [] → plaintext cipher (unread r socket) = [] →
    result.1 = atEnd (ending cipher (unread r socket)) socket.closed

section Poll

variable {cipher : Aead}

theorem Socket.closed_of_pollRead_none {room : ℕ} {segments : List Bytes} {closed : Bool}
    (h : Socket.pollRead room segments closed = none) : closed = false := by
  induction segments with
  | nil =>
    cases closed with
    | true => cases h
    | false => rfl
  | cons segment segments ih =>
    cases segment with
    | nil => exact ih h
    | cons b segment => cases h

/-- Waiting for a body means that the peer has not closed, and giving up that it has. -/
theorem fillBody_closed {want : ℕ} {body body' : Bytes} {segments : List Bytes} {closed : Bool} :
    (fillBody want body segments closed = .pending body' → closed = false) ∧
      (fillBody want body segments closed = .eof body' → closed = true) := by
  induction segments generalizing body with
  | nil =>
    rw [fillBody]
    split
    · exact ⟨fun h => (by cases h), fun h => (by cases h)⟩
    · cases closed with
      | true => exact ⟨fun h => (by cases h), fun _ => rfl⟩
      | false => exact ⟨fun _ => rfl, fun h => (by cases h)⟩
  | cons segment segments ih =>
    rw [fillBody]
    split
    · exact ⟨fun h => (by cases h), fun h => (by cases h)⟩
    · split
      · exact ih
      · exact ⟨fun h => (by cases h), fun h => (by cases h)⟩

/-- A poll that ends here, with everything that it found unread. -/
theorem Ended.of_outcome {r r' : Reader} {socket socket' : Socket} {outcome : Outcome}
    (hunread : unread r socket = unread r' socket') (hclosed : socket'.closed = socket.closed)
    (h : r.plain = [] → outcome = atEnd (ending cipher (unread r socket)) socket.closed) :
    Ended cipher r socket (outcome, r', socket') where
  rest := fun _ more => by rw [hunread]
  closed := hclosed
  finished := fun hplain _ => h hplain

theorem pollRead_ended (capacity : ℕ) {r : Reader} (wf : r.Wf) (socket : Socket) :
    Ended cipher r socket (pollRead cipher capacity r socket) := by
  fun_induction pollRead cipher capacity r socket with
  | case1 r socket hplain => exact .of_outcome rfl rfl fun hnil => absurd hnil hplain
  | case2 r socket hplain hhdr hread =>
    refine .of_outcome rfl rfl fun _ => ?_
    have hbytes : socket.bytes = [] := Socket.pollRead_none hread
    rw [Socket.closed_of_pollRead_none hread, unread, wf.body hhdr, hbytes, List.append_nil,
      List.append_nil]
    by_cases hnil : r.hdr = []
    · rw [hnil, ending_nil]
      rfl
    · rw [ending_of_short hnil hhdr]
      rfl
  | case3 r socket hplain hhdr socket' hread =>
    -- the stream has ended
    obtain ⟨hbytes, hsame, hend, -⟩ := Socket.pollRead_bytes hread
    obtain ⟨hnil, hclosed⟩ := hend rfl (by omega)
    have hunread : unread r socket = unread r socket' := by
      rw [unread, unread, Socket.bytes, hbytes, List.nil_append]
    refine .of_outcome hunread hsame fun _ => ?_
    have hhdrOnly : unread r socket = r.hdr := by
      rw [unread, wf.body hhdr, Socket.bytes, hnil, List.append_nil, List.append_nil]
    rw [hhdrOnly, hclosed]
    by_cases hzero : r.hdr.length = 0
    · rw [if_pos hzero, List.length_eq_zero_iff.mp hzero, ending_nil]
      rfl
    · rw [if_neg hzero, ending_of_short (fun h => hzero (by rw [h]; rfl)) hhdr]
      rfl
  | case4 r socket hplain hhdr got socket' hread hgot ih =>
    -- more of the header
    obtain ⟨hbytes, hsame, -, hroom⟩ := Socket.pollRead_bytes hread
    have hbody := wf.body hhdr
    have wf' : Reader.Wf ⟨r.hdr ++ got, r.body, r.plain⟩ := by
      refine ⟨?_, fun _ => hbody, ?_⟩
      · rw [List.length_append]
        omega
      · rw [hbody]
        exact Nat.zero_le _
    have hunread : unread r socket = unread ⟨r.hdr ++ got, r.body, r.plain⟩ socket' := by
      rw [unread, unread, hbody, Socket.bytes, hbytes, List.nil_append, List.nil_append,
        List.append_assoc]
    have ended := ih wf'
    refine ⟨fun hok more => ?_, ended.closed.trans hsame, fun hnil hnone => ?_⟩
    · rw [hunread]
      exact ended.rest hok more
    · rw [hunread] at hnone ⊢
      rw [← hsame]
      exact ended.finished hnil hnone
  | case5 r socket hplain hhdr want hwant =>
    refine .of_outcome rfl rfl fun _ => ?_
    rw [unread, ending_header (le_antisymm wf.hdr (not_lt.mp hhdr)), if_pos hwant]
    rfl
  | case6 r socket hplain hhdr want hwant body hfill =>
    -- the body is not complete
    obtain ⟨hbody, hshort⟩ := fillBody_short (Or.inl hfill)
    have hunread : unread r socket = r.hdr ++ body := by rw [hbody]; rfl
    refine .of_outcome ?_ rfl fun _ => ?_
    · rw [hunread, unread, Socket.bytes, List.flatten_nil, List.append_nil]
    · rw [hunread, ending_header (le_antisymm wf.hdr (not_lt.mp hhdr)), if_neg hwant,
        if_pos hshort, fillBody_closed.1 hfill]
      rfl
  | case7 r socket hplain hhdr want hwant body hfill =>
    obtain ⟨hbody, hshort⟩ := fillBody_short (Or.inr hfill)
    have hunread : unread r socket = r.hdr ++ body := by rw [hbody]; rfl
    refine .of_outcome ?_ rfl fun _ => ?_
    · rw [hunread, unread, Socket.bytes, List.flatten_nil, List.append_nil]
    · rw [hunread, ending_header (le_antisymm wf.hdr (not_lt.mp hhdr)), if_neg hwant,
        if_pos hshort, fillBody_closed.2 hfill]
      rfl
  | case8 r socket hplain hhdr want hwant body socket' hfill hopen =>
    obtain ⟨extra, hbody, hbytes, hfull, hsame⟩ := fillBody_full hfill
    have hunread : unread r socket = r.hdr ++ (body ++ socket'.bytes) := by
      rw [unread, Socket.bytes, hbytes, hbody, List.append_assoc]
    refine .of_outcome hunread hsame fun _ => ?_
    rw [hunread, ending_append (le_antisymm wf.hdr (not_lt.mp hhdr)) hwant (hfull wf.short),
      hopen]
    rfl
  | case9 r socket hplain hhdr want hwant body socket' hfill plain hopen ih =>
    -- a frame opens
    obtain ⟨extra, hbody, hbytes, hfull, hsame⟩ := fillBody_full hfill
    have hhdr' := le_antisymm wf.hdr (not_lt.mp hhdr)
    have hunread : unread r socket = r.hdr ++ (body ++ socket'.bytes) := by
      rw [unread, Socket.bytes, hbytes, hbody, List.append_assoc]
    have hending : ∀ more, ending cipher (unread r socket ++ more) =
        ending cipher (unread ⟨[], [], plain⟩ socket' ++ more) := by
      intro more
      rw [hunread, List.append_assoc, List.append_assoc,
        ending_append hhdr' hwant (hfull wf.short), hopen]
      rfl
    have ended := ih ⟨Nat.zero_le _, fun _ => rfl, Nat.zero_le _⟩
    refine ⟨fun hok more => (hending more).trans (ended.rest hok more),
      ended.closed.trans hsame, fun _ hnone => ?_⟩
    rw [hunread, plaintext_append hhdr' hwant (hfull wf.short), hopen] at hnone
    obtain ⟨hplainNil, hrestNil⟩ := List.append_eq_nil_iff.mp hnone
    have hnow := hending []
    rw [List.append_nil, List.append_nil] at hnow
    rw [hnow, ← hsame]
    exact ended.finished hplainNil hrestNil

/-- The bytes that arrived end as what an endpoint has not read. -/
def Endpoint.Tracks (cipher : Aead) (e : Endpoint) (stream : Bytes) : Prop :=
  e.failed = false → ∀ more, ending cipher (stream ++ more) =
    ending cipher (unread e.reader e.socket ++ more)

theorem Endpoint.Tracks.step {e : Endpoint} {stream : Bytes} (follows : e.Follows cipher stream)
    (tracks : e.Tracks cipher stream) (event : Event) :
    (e.step cipher event).Tracks cipher (stream ++ arrived [event]) := by
  cases event with
  | arrive segment =>
    intro hlive more
    have h := tracks hlive (segment ++ more)
    simp only [Endpoint.step, arrived, unread, Socket.bytes, List.map_cons, List.map_nil,
      List.flatten_append, List.flatten_cons, List.flatten_nil, List.append_nil,
      List.append_assoc] at h ⊢
    exact h
  | close =>
    rw [show arrived [.close] = [] from rfl, List.append_nil]
    exact tracks
  | poll capacity =>
    rw [show arrived [.poll capacity] = [] from rfl, List.append_nil]
    unfold Endpoint.step
    dsimp only
    split
    · exact tracks
    next hlive =>
      have hlive : e.failed = false := Bool.not_eq_true _ ▸ hlive
      have ended : Ended cipher e.reader e.socket _ :=
        pollRead_ended capacity (follows.wf hlive) e.socket
      split
      next bytes reader socket hresult =>
        rw [hresult] at ended
        exact fun _ more => (tracks hlive more).trans (ended.rest (by simp) more)
      next reader socket hresult =>
        rw [hresult] at ended
        exact fun _ more => (tracks hlive more).trans (ended.rest (by simp) more)
      next e' reader socket hresult =>
        intro h
        cases h

/-- An endpoint is in step with the bytes that have arrived. -/
theorem Endpoint.tracks_run (cipher : Aead) (events : List Event) :
    (Endpoint.new.run cipher events).Follows cipher (arrived events) ∧
      (Endpoint.new.run cipher events).Tracks cipher (arrived events) := by
  induction events using List.reverseRecOn with
  | nil => exact ⟨Endpoint.follows_new, fun _ _ => rfl⟩
  | append_singleton events event ih =>
    have harrived : arrived (events ++ [event]) = arrived events ++ arrived [event] := by
      simp [arrived]
    have hrun : Endpoint.new.run cipher (events ++ [event]) =
        (Endpoint.new.run cipher events).step cipher event := by
      simp [Endpoint.run]
    rw [harrived, hrun]
    exact ⟨ih.1.step event, ih.2.step ih.1 event⟩

end Poll

/-! ## The writer -/

/-- What the socket makes of the bytes it is offered. -/
inductive Reply where
  | pending
  | accept (n : ℕ)
  | fail

/-- What a flush gives. -/
inductive Flushed where
  | ready
  | pending
  | error
deriving DecidableEq

/-- `poll_flush_pending`: the outcome, the bytes that the socket accepted, and those that are
still waiting.  A socket that accepts nothing is an error. -/
def pollFlushPending : List Reply → Bytes → Flushed × Bytes × Bytes
  | [], out => (if out = [] then .ready else .pending, [], out)
  | reply :: replies, out =>
    if out = [] then (.ready, [], [])
    else
      match reply with
      | .pending => (.pending, [], out)
      | .fail => (.error, [], out)
      | .accept 0 => (.error, [], out)
      | .accept (n + 1) =>
        let flushed := pollFlushPending replies (out.drop (n + 1))
        (flushed.1, out.take (n + 1) ++ flushed.2.1, flushed.2.2)

/-- A call of the writer, with what the socket does meanwhile. -/
inductive Call where
  | write (w : Write) (before after : List Reply)
  | flush (replies : List Reply)

/-- A stream that is written to: the bytes of the current frame that are waiting, those that
the socket has accepted, the writes that made a frame, the bytes reported as written, and
whether a call has failed. -/
structure Sealer where
  out : Bytes
  wire : Bytes
  framed : List Write
  reported : Bytes
  failed : Bool

namespace Sealer

/-- A sealer that has written nothing. -/
def new : Sealer := ⟨[], [], [], [], false⟩

/-- The socket has been offered what is waiting. -/
def flushed (s : Sealer) (result : Flushed × Bytes × Bytes) : Sealer :=
  { s with out := result.2.2, wire := s.wire ++ result.2.1, failed := result.1 = .error }

/-- `poll_write`, and `poll_flush` with `poll_shutdown`.  A write first finishes the frame before
it. -/
def step (cipher : Aead) (s : Sealer) : Call → Sealer
  | .flush replies => if s.failed then s else s.flushed (pollFlushPending replies s.out)
  | .write w before after =>
    if s.failed then s
    else
      let result := pollFlushPending before s.out
      let s := s.flushed result
      if result.1 = .ready then
        match pollWrite cipher w with
        | (none, _) => s
        | (some frame, take) =>
          let result := pollFlushPending after frame
          { s.flushed result with
            framed := s.framed ++ [w]
            -- what waits is committed, so the bytes are reported
            reported := s.reported ++ if result.1 = .error then [] else w.buf.take take }
      else s

/-- What is left after some calls. -/
def run (cipher : Aead) (s : Sealer) (calls : List Call) : Sealer := calls.foldl (step cipher) s

end Sealer

/-- What was written by calls that made a frame. -/
def contents (writes : List Write) : Bytes :=
  (writes.map fun w => w.buf.take maxPlaintextLen).flatten

/-- The frames of writes. -/
def frames (cipher : Aead) (writes : List Write) : Bytes := (writes.map (frame cipher)).flatten

section Writer

variable {cipher : Aead}

/-- Offering bytes to the socket loses none. -/
theorem pollFlushPending_eq (replies : List Reply) (out : Bytes) :
    (pollFlushPending replies out).2.1 ++ (pollFlushPending replies out).2.2 = out ∧
      ((pollFlushPending replies out).1 = .ready → (pollFlushPending replies out).2.2 = []) := by
  induction replies generalizing out with
  | nil =>
    refine ⟨rfl, fun h => ?_⟩
    by_contra hne
    have hpending : (pollFlushPending [] out).1 = .pending := if_neg hne
    rw [hpending] at h
    cases h
  | cons reply replies ih =>
    by_cases hnil : out = []
    · have hdone : pollFlushPending (reply :: replies) out = (.ready, [], []) := by
        cases reply <;> exact if_pos hnil
      rw [hdone, hnil]
      exact ⟨rfl, fun _ => rfl⟩
    · rcases reply with _ | n | _
      · have hstop : pollFlushPending (.pending :: replies) out = (.pending, [], out) :=
          if_neg hnil
        rw [hstop]
        exact ⟨rfl, fun h => (by cases h)⟩
      · cases n with
        | zero =>
          have hstop : pollFlushPending (.accept 0 :: replies) out = (.error, [], out) :=
            if_neg hnil
          rw [hstop]
          exact ⟨rfl, fun h => (by cases h)⟩
        | succ n =>
          obtain ⟨hbytes, hready⟩ := ih (out.drop (n + 1))
          have hmore : pollFlushPending (.accept (n + 1) :: replies) out =
              ((pollFlushPending replies (out.drop (n + 1))).1,
                out.take (n + 1) ++ (pollFlushPending replies (out.drop (n + 1))).2.1,
                (pollFlushPending replies (out.drop (n + 1))).2.2) := if_neg hnil
          rw [hmore]
          refine ⟨?_, hready⟩
          rw [List.append_assoc, hbytes, List.take_append_drop]
      · have hstop : pollFlushPending (.fail :: replies) out = (.error, [], out) :=
          if_neg hnil
        rw [hstop]
        exact ⟨rfl, fun h => (by cases h)⟩

/-- **The writer's invariant.** -/
structure Sealer.Keeps (cipher : Aead) (s : Sealer) : Prop where
  bytes : s.wire ++ s.out = frames cipher s.framed
  reported : s.failed = false → s.reported = contents s.framed
  framed : ∀ w ∈ s.framed, w.buf ≠ []

theorem Sealer.Keeps.flushed {s : Sealer} (keeps : s.Keeps cipher) (hlive : s.failed = false)
    (replies : List Reply) : (s.flushed (pollFlushPending replies s.out)).Keeps cipher where
  bytes := by
    have hbytes := keeps.bytes
    rw [← (pollFlushPending_eq replies s.out).1, ← List.append_assoc] at hbytes
    exact hbytes
  reported := fun _ => keeps.reported hlive
  framed := keeps.framed

theorem Sealer.Keeps.step {s : Sealer} (keeps : s.Keeps cipher) (call : Call) :
    (s.step cipher call).Keeps cipher := by
  cases call with
  | flush replies =>
    simp only [Sealer.step]
    split
    · exact keeps
    next hlive => exact keeps.flushed (Bool.not_eq_true _ ▸ hlive) replies
  | write w before after =>
    simp only [Sealer.step]
    split
    · exact keeps
    next hlive =>
      have keeps' := keeps.flushed (Bool.not_eq_true _ ▸ hlive) before
      split
      next hready =>
        by_cases hw : w.buf = []
        · have hnone : pollWrite cipher w = (none, 0) := if_pos hw
          rw [hnone]
          exact keeps'
        · -- a new frame: the one before is on the wire
          have hframe : pollWrite cipher w = (some (frame cipher w), (pollWrite cipher w).2) := by
            simp only [frame, pollWrite, if_neg hw, Option.getD_some]
          have hout := (pollFlushPending_eq before s.out).2 hready
          have hwire := keeps'.bytes
          simp only [Sealer.flushed, hout, List.append_nil] at hwire
          rw [hframe]
          refine ⟨?_, fun hok => ?_, ?_⟩
          · simp only [Sealer.flushed, List.append_assoc]
            rw [(pollFlushPending_eq after (frame cipher w)).1, ← List.append_assoc, hwire]
            simp [frames]
          · have hok' : (pollFlushPending after (frame cipher w)).1 ≠ .error := by
              simpa [Sealer.flushed] using hok
            have hbefore := keeps.reported (Bool.not_eq_true _ ▸ hlive)
            simp only [Sealer.flushed, if_neg hok', hbefore, (pollWrite_of_ne hw).1]
            simp [contents]
          · intro w' hw'
            rcases List.mem_append.mp hw' with hold | hnew
            · exact keeps.framed w' hold
            · rw [List.mem_singleton.mp hnew]
              exact hw
      · exact keeps'

theorem Sealer.keeps_run (cipher : Aead) (calls : List Call) : (Sealer.new.run cipher calls).Keeps cipher := by
  induction calls using List.reverseRecOn with
  | nil => exact ⟨rfl, fun _ => rfl, fun w hw => absurd hw List.not_mem_nil⟩
  | append_singleton calls call ih =>
    rw [Sealer.run, List.foldl_append]
    exact ih.step call

/-! ## A cut through frames -/

/-- A frame ends a stream as what follows it does. -/
theorem ending_frame {w : Write} (hw : w.buf ≠ []) (rest : Bytes) :
    ending cipher (frame cipher w ++ rest) = ending cipher rest := by
  obtain ⟨hdr, body, hframe, hhdr, hwant, hbody, hopen⟩ := exists_frame_eq cipher hw
  rw [hframe, List.append_assoc, ending_append hhdr hwant hbody, hopen]

theorem ending_frames {writes : List Write} (h : ∀ w ∈ writes, w.buf ≠ []) :
    ending cipher (frames cipher writes) = none := by
  induction writes with
  | nil => exact ending_nil
  | cons w writes ih =>
    rw [List.forall_mem_cons] at h
    rw [frames, List.map_cons, List.flatten_cons, ending_frame h.1]
    exact ih h.2

theorem plaintext_frames {writes : List Write} (h : ∀ w ∈ writes, w.buf ≠ []) :
    plaintext cipher (frames cipher writes) = contents writes := by
  induction writes with
  | nil => exact plaintext_of_short (Nat.succ_pos 3)
  | cons w writes ih =>
    rw [List.forall_mem_cons] at h
    have htail : plaintext cipher (writes.map (frame cipher)).flatten = contents writes := ih h.2
    rw [frames, List.map_cons, List.flatten_cons, plaintext_frame h.1, htail]
    rfl

/-- A frame that is cut off says nothing, and ends in an error unless nothing of it is there. -/
theorem cut_frame {w : Write} (hw : w.buf ≠ []) {start : Bytes} (h : start <+: frame cipher w)
    (hne : start ≠ frame cipher w) :
    plaintext cipher start = [] ∧
      (start = [] ∨ ending cipher start = some .unexpectedEof) := by
  obtain ⟨hdr, body, hframe, hhdr, hwant, hbody, -⟩ := exists_frame_eq cipher hw
  rw [hframe] at h hne
  by_cases hshort : start.length < lenPrefix
  · refine ⟨plaintext_of_short hshort, ?_⟩
    by_cases hnil : start = []
    · exact Or.inl hnil
    · exact Or.inr (ending_of_short hnil hshort)
  · -- the header is whole
    have hlen : hdr.length ≤ start.length := by omega
    obtain ⟨part, rfl⟩ := List.prefix_of_prefix_length_le (List.prefix_append hdr body) h hlen
    have hpart : part <+: body := (List.prefix_append_right_inj hdr).mp h
    have hlt : part.length < ofBeBytes hdr := by
      rw [← hbody]
      exact hpart.length_le.lt_of_ne fun heq => hne (by rw [hpart.eq_of_length heq])
    refine ⟨plaintext_of_stuck hhdr (Or.inr (Or.inr hlt)), Or.inr ?_⟩
    rw [ending_header hhdr, if_neg hwant, if_pos hlt]

/-- A stream that ends where a frame ends. -/
def AtBoundary (cipher : Aead) (writes : List Write) (stream : Bytes) : Prop :=
  ∃ whole, whole <+: writes ∧ stream = frames cipher whole

/-- **A cut through frames** says what the whole frames before it say, and ends in an error
unless it falls between frames. -/
theorem cut_frames {writes : List Write} (hwrites : ∀ w ∈ writes, w.buf ≠ []) {stream : Bytes}
    (h : stream <+: frames cipher writes) :
    ∃ whole, whole <+: writes ∧ plaintext cipher stream = contents whole ∧
      (stream = frames cipher whole ∨ ending cipher stream = some .unexpectedEof) := by
  induction writes generalizing stream with
  | nil =>
    rw [List.prefix_nil.mp h]
    exact ⟨[], List.prefix_rfl, plaintext_of_short (by decide), Or.inl rfl⟩
  | cons w writes ih =>
    obtain ⟨hw, hrest⟩ := List.forall_mem_cons.mp hwrites
    have hframes : frames cipher (w :: writes) = frame cipher w ++ frames cipher writes := rfl
    rw [hframes] at h
    by_cases hcut : stream <+: frame cipher w ∧ stream ≠ frame cipher w
    · obtain ⟨hnone, hend⟩ := cut_frame hw hcut.1 hcut.2
      exact ⟨[], List.nil_prefix, hnone, hend⟩
    · obtain ⟨more, rfl⟩ : frame cipher w <+: stream := by
        rcases List.prefix_or_prefix_of_prefix h (List.prefix_append _ (frames cipher writes))
          with hstart | hwhole
        · have heq : stream = frame cipher w := by
            by_contra hne
            exact hcut ⟨hstart, hne⟩
          rw [heq]
        · exact hwhole
      obtain ⟨whole, hwhole, htold, hend⟩ :=
        ih hrest ((List.prefix_append_right_inj _).mp h)
      refine ⟨w :: whole, List.cons_prefix_cons.mpr ⟨rfl, hwhole⟩, ?_, ?_⟩
      · rw [plaintext_frame hw, htold]
        rfl
      · rcases hend with hend | hend
        · left
          rw [hend]
          rfl
        · right
          rw [ending_frame hw, hend]

end Writer

/-! ## The pipe -/

/-- What is promised of a reader that has got some of the bytes on the wire. -/
structure Transparent (cipher : Aead) (s : Sealer) (e : Endpoint) (stream : Bytes) : Prop where
  /-- It has handed out nothing but what was written, in order. -/
  delivered : e.delivered <+: s.reported
  /-- Once the writer is flushed and the bytes have arrived, all that was written is there. -/
  complete : s.out = [] → stream = s.wire → plaintext cipher stream = s.reported
  /-- What is there is handed out. -/
  progress : ∀ capacity, 0 < capacity → e.failed = false →
    e.delivered ≠ plaintext cipher stream →
      ∃ bytes, bytes ≠ [] ∧ (pollRead cipher capacity e.reader e.socket).1 = .data bytes
  /-- When nothing is left, the reader waits while the peer may send more. -/
  waits : ∀ capacity, e.failed = false → e.delivered = plaintext cipher stream →
    e.socket.closed = false → (pollRead cipher capacity e.reader e.socket).1 = .pending
  /-- The stream ends cleanly at the end of a frame. -/
  ends : ∀ capacity, e.failed = false → e.delivered = plaintext cipher stream →
    e.socket.closed = true → AtBoundary cipher s.framed stream →
      (pollRead cipher capacity e.reader e.socket).1 = .data []
  /-- A stream that is cut inside a frame ends in an error. -/
  cut : ∀ capacity, e.failed = false → e.delivered = plaintext cipher stream →
    e.socket.closed = true → ¬ AtBoundary cipher s.framed stream →
      (pollRead cipher capacity e.reader e.socket).1 = .error .unexpectedEof

/-- **A sealed stream is a pipe.**  For every sequence of writes and flushes, whatever the socket
accepts of them as long as no call fails, and every sequence of arrivals and polls at the other
end that has got some of the accepted bytes, in whatever pieces. -/
theorem sealed_stream_transparent (cipher : Aead) (calls : List Call) (events : List Event)
    (hok : (Sealer.new.run cipher calls).failed = false)
    (harrived : arrived events <+: (Sealer.new.run cipher calls).wire) :
    Transparent cipher (Sealer.new.run cipher calls) (Endpoint.new.run cipher events)
      (arrived events) := by
  have keeps := Sealer.keeps_run cipher calls
  obtain ⟨follows, tracks⟩ := Endpoint.tracks_run cipher events
  generalize Sealer.new.run cipher calls = s at hok harrived keeps
  generalize Endpoint.new.run cipher events = e at follows tracks
  generalize arrived events = stream at harrived follows tracks
  have hreported := keeps.reported hok
  have hframes : stream <+: frames cipher s.framed := by
    rw [← keeps.bytes]
    exact harrived.trans (List.prefix_append _ _)
  obtain ⟨whole, hwhole, htold, hend⟩ := cut_frames keeps.framed hframes
  have hcontents : contents whole <+: s.reported := by
    obtain ⟨rest, hrest⟩ := hwhole
    rw [hreported, ← hrest, contents, contents, List.map_append, List.flatten_append]
    exact List.prefix_append _ _
  -- when nothing is left, the poll returns how the stream ends
  have hfinal : ∀ capacity, e.failed = false → e.delivered = plaintext cipher stream →
      (pollRead cipher capacity e.reader e.socket).1 =
        atEnd (ending cipher stream) e.socket.closed := by
    intro capacity hlive hdone
    have hahead := follows.ahead hlive []
    rw [List.append_nil, ← hdone, Sealed.ahead, List.append_nil, List.self_eq_append_right,
      List.append_eq_nil_iff] at hahead
    have htracks := tracks hlive []
    rw [List.append_nil, List.append_nil] at htracks
    rw [htracks]
    exact (pollRead_ended capacity (follows.wf hlive) e.socket).finished hahead.1 hahead.2
  have hboundary : AtBoundary cipher s.framed stream → ending cipher stream = none := by
    rintro ⟨whole', hwhole', rfl⟩
    exact ending_frames fun w hw => keeps.framed w (hwhole'.subset hw)
  refine ⟨?_, fun hout hall => ?_, fun capacity hcapacity hlive hleft => ?_,
    fun capacity hlive hdone hopen => ?_, fun capacity hlive hdone hclosed hat => ?_,
    fun capacity hlive hdone hclosed hinside => ?_⟩
  · exact follows.delivered.trans (htold ▸ hcontents)
  · have hbytes := keeps.bytes
    rw [hout, List.append_nil] at hbytes
    rw [hall, hbytes, hreported]
    exact plaintext_frames keeps.framed
  · have hahead := follows.ahead hlive []
    have hne : Sealed.ahead cipher e.reader e.socket [] ≠ [] := by
      intro hnil
      rw [hnil, List.append_nil, List.append_nil] at hahead
      exact hleft hahead.symm
    have polled : Polled cipher capacity e.reader e.socket _ :=
      pollRead_polled capacity (follows.wf hlive) e.socket
    rcases hpoll : pollRead cipher capacity e.reader e.socket with ⟨outcome, reader, socket⟩
    rw [hpoll] at polled
    cases outcome with
    | pending => exact absurd (polled.pending rfl).2 hne
    | error err => exact absurd (polled.error err rfl) hne
    | data bytes =>
      exact ⟨bytes, fun hnil => hne ((polled.data bytes rfl).2.1 hcapacity hnil), rfl⟩
  · rw [hfinal capacity hlive hdone, hopen]
    rcases hend with hend | hend
    · rw [hboundary ⟨whole, hwhole, hend⟩]
      rfl
    · rw [hend]
      rfl
  · rw [hfinal capacity hlive hdone, hclosed, hboundary hat]
    rfl
  · rw [hfinal capacity hlive hdone, hclosed]
    rcases hend with hend | hend
    · exact absurd ⟨whole, hwhole, hend⟩ hinside
    · rw [hend]
      rfl

/-- Two bytes are written, of whose frame the socket takes three bytes and later the rest. -/
def sampleCalls : List Call :=
  [.write ⟨⟨List.replicate nonceLen 0, rfl⟩, [7, 8]⟩ [] [.accept 3, .pending],
    .flush [.accept 100]]

/-- The frame arrives in two pieces and is read. -/
def sampleEvents : List Event :=
  [.arrive [0, 0], .poll 1,
    .arrive ([0, 30] ++ List.replicate nonceLen 0 ++ [7, 8] ++ List.replicate tagLen 0), .poll 100]

theorem sealed_stream_transparent_sample :
    (Endpoint.new.run Aead.clear sampleEvents).delivered = [7, 8] ∧
      Transparent Aead.clear (Sealer.new.run Aead.clear sampleCalls)
        (Endpoint.new.run Aead.clear sampleEvents) (arrived sampleEvents) := by
  refine ⟨?_, sealed_stream_transparent Aead.clear sampleCalls sampleEvents (by decide) (by decide)⟩
  have hopen : Aead.clear.openBox (List.replicate nonceLen 0 ++ [7, 8] ++ List.replicate tagLen 0) =
      some [7, 8] := by decide
  simp only [nonceLen, tagLen] at hopen
  simp [sampleEvents, Endpoint.run, Endpoint.step, Endpoint.new, pollRead, Socket.pollRead,
    fillBody, lenPrefix, ofBeBytes, ofLeBytes, nonceLen, tagLen, maxFrameLen] at hopen ⊢
  simp [hopen]

end Ephpm.Cluster.Sealed
