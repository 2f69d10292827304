import Mathlib.Data.List.Induction
import Mathlib.Data.List.TakeWhile
import Ephpm.Db.Routing

/-!
# What a client sends to its backend

When a session is spliced through, the proxy copies the packets of the client to the backend as
they are and looks at the first byte of each.  `COM_QUIT` is not forwarded: it would end the
session of a pooled connection.

A command is sent in several packets if it is long, and **only the first of them begins with the
code of the command**.  The proxy does not tell packets from commands.  A packet that continues a
command and happens to begin with the byte of `COM_QUIT` ends the session in the middle of the
command, so the client's bytes are forwarded exactly if there is none (`client_stream_iff`).

The bytes arrive in chunks of any size.  A packet is read with `read_exact`, which waits for what
is missing, so the chunks do not matter (`session_agrees`).
-/

namespace Ephpm.Db.ClientStream

/-! ## Commands -/

/-- The longest payload of a packet. -/
def maxPayload : ℕ := 0xFFFFFF

/-- A packet: its sequence number and its payload. -/
structure Packet where
  seq : UInt8
  payload : Bytes

/-- The packet on the wire: the length, the sequence number, the payload. -/
def Packet.bytes (p : Packet) : Bytes := Lib.leBytes 3 p.payload.length ++ p.seq :: p.payload

/-- The packets of a command, from a sequence number on.  The last one is shorter than the others,
and may be empty. -/
def packetsFrom (seq : UInt8) (command : Bytes) : List Packet :=
  if command.length < maxPayload then [⟨seq, command⟩]
  else ⟨seq, command.take maxPayload⟩ :: packetsFrom (seq + 1) (command.drop maxPayload)
termination_by command.length
decreasing_by
  rw [List.length_drop]
  have : 0 < maxPayload := by decide
  omega

/-- A command as the packets that a client sends. -/
def packets (command : Bytes) : List Packet := packetsFrom 0 command

/-- Packets as bytes. -/
def wire (packets : List Packet) : Bytes := packets.flatMap Packet.bytes

/-- What a client sends for its commands. -/
def stream (commands : List Bytes) : Bytes := wire (commands.flatMap packets)

/-! ## The proxy -/

/-- The packet at the beginning of the bytes and what follows it, if it is complete. -/
def readPacket (bytes : Bytes) : Option (Bytes × Bytes × Bytes) :=
  let length := Lib.ofLeBytes (bytes.take 3)
  if bytes.length < 4 ∨ bytes.length < 4 + length then none
  else some (bytes.take 4, (bytes.drop 4).take length, bytes.drop (4 + length))

/-- The client's side of a session. -/
structure Session where
  /-- what was read of the next packet -/
  pending : Bytes
  forwarded : Bytes
  ended : Bool

theorem readPacket_length_lt {bytes header payload rest : Bytes}
    (h : readPacket bytes = some (header, payload, rest)) : rest.length < bytes.length := by
  simp only [readPacket] at h
  split_ifs at h with hshort
  obtain ⟨-, -, rfl⟩ := h
  rw [List.length_drop]
  omega

/-- The loop of `proxy_bidirectional_sniff` that reads from the client, until it has to wait. -/
def sniff (bytes forwarded : Bytes) : Session :=
  match _h : readPacket bytes with
  | none => ⟨bytes, forwarded, false⟩
  | some (header, payload, rest) =>
    if payload.head? = some comQuit then ⟨rest, forwarded, true⟩
    else sniff rest (forwarded ++ header ++ payload)
termination_by bytes.length
decreasing_by exact readPacket_length_lt _h

/-- Bytes arrive.  A session that has ended reads nothing more. -/
def Session.receive (s : Session) (chunk : Bytes) : Session :=
  if s.ended then s else sniff (s.pending ++ chunk) s.forwarded

/-- A session in which the client's bytes arrive in chunks. -/
def session (chunks : List Bytes) : Session := chunks.foldl Session.receive ⟨[], [], false⟩

/-! ## Chunks -/

variable {bytes rest header payload forwarded : Bytes}

theorem sniff_none (h : readPacket bytes = none) : sniff bytes forwarded = ⟨bytes, forwarded, false⟩ := by
  rw [sniff]
  split
  next => rfl
  next heq => rw [h] at heq; cases heq

theorem sniff_some (h : readPacket bytes = some (header, payload, rest)) :
    sniff bytes forwarded = if payload.head? = some comQuit then ⟨rest, forwarded, true⟩
      else sniff rest (forwarded ++ header ++ payload) := by
  rw [sniff]
  split
  next heq => rw [h] at heq; cases heq
  next heq =>
      rw [h] at heq
      obtain ⟨rfl, rfl, rfl⟩ := heq
      rfl

/-- A complete packet is complete whatever follows. -/
theorem readPacket_append (h : readPacket bytes = some (header, payload, rest)) (more : Bytes) :
    readPacket (bytes ++ more) = some (header, payload, rest ++ more) := by
  simp only [readPacket] at h ⊢
  split_ifs at h with hshort
  obtain ⟨rfl, rfl, rfl⟩ := h
  rw [not_or, not_lt, not_lt] at hshort
  have htake : (bytes ++ more).take 3 = bytes.take 3 := List.take_append_of_le_length (by omega)
  rw [htake, if_neg (by rw [List.length_append]; omega), List.take_append_of_le_length hshort.1,
    List.drop_append_of_le_length hshort.1, List.drop_append_of_le_length hshort.2,
    List.take_append_of_le_length (by rw [List.length_drop]; omega)]

/-- Two sessions that have done the same and go on alike. -/
def Session.Agrees (s t : Session) : Prop :=
  s.forwarded = t.forwarded ∧ s.ended = t.ended ∧ (s.ended = false → s.pending = t.pending)

theorem Session.Agrees.receive {s t : Session} (h : s.Agrees t) (chunk : Bytes) :
    (s.receive chunk).Agrees (t.receive chunk) := by
  obtain ⟨hforwarded, hended, hpending⟩ := h
  cases hs : s.ended with
  | true =>
    rw [Session.receive, if_pos hs, Session.receive, if_pos (hended ▸ hs)]
    exact ⟨hforwarded, hended, hpending⟩
  | false =>
    have ht : t.ended = false := hended ▸ hs
    rw [Session.receive, if_neg (by rw [hs]; decide), Session.receive,
      if_neg (by rw [ht]; decide), hpending hs, hforwarded]
    exact ⟨rfl, rfl, fun _ => rfl⟩

/-- Bytes that arrive later are read as if they had been there. -/
theorem sniff_append (bytes more forwarded : Bytes) :
    ((sniff bytes forwarded).receive more).Agrees (sniff (bytes ++ more) forwarded) := by
  induction hn : bytes.length using Nat.strong_induction_on generalizing bytes forwarded with
  | _ n ih =>
    subst hn
    cases hread : readPacket bytes with
    | none =>
      rw [sniff_none hread]
      exact ⟨rfl, rfl, fun _ => rfl⟩
    | some packet =>
      obtain ⟨header, payload, rest⟩ := packet
      rw [sniff_some hread, sniff_some (readPacket_append hread more)]
      split_ifs
      · exact ⟨rfl, rfl, fun h => by cases h⟩
      · exact ih _ (readPacket_length_lt hread) _ _ rfl

/-- **The chunks do not matter.** -/
theorem session_agrees (chunks : List Bytes) : (session chunks).Agrees (sniff chunks.flatten []) := by
  induction chunks using List.reverseRecOn with
  | nil =>
    rw [List.flatten_nil, sniff_none rfl]
    exact ⟨rfl, rfl, fun _ => rfl⟩
  | append_singleton chunks chunk ih =>
    have hsession : session (chunks ++ [chunk]) = (session chunks).receive chunk := by
      rw [session, List.foldl_append]
      rfl
    have hflatten : (chunks ++ [chunk]).flatten = chunks.flatten ++ chunk := by simp
    obtain ⟨h₁, h₂, h₃⟩ := ih.receive chunk
    obtain ⟨h₁', h₂', h₃'⟩ := sniff_append chunks.flatten chunk []
    rw [hsession, hflatten]
    exact ⟨h₁.trans h₁', h₂.trans h₂', fun h => (h₃ h).trans (h₃' (h₂ ▸ h))⟩

/-! ## Packets -/

theorem packet_length_lt {seq : UInt8} {command : Bytes} {p : Packet}
    (h : p ∈ packetsFrom seq command) : p.payload.length < 256 ^ 3 := by
  have hmax : maxPayload < 256 ^ 3 := by decide
  induction hn : command.length using Nat.strong_induction_on generalizing seq command with
  | _ n ih =>
    subst hn
    rw [packetsFrom] at h
    split_ifs at h with hshort
    · rw [List.mem_singleton.mp h]
      exact hshort.trans hmax
    · rcases List.mem_cons.mp h with rfl | h
      · exact (List.length_take_le _ _).trans_lt hmax
      · refine ih _ ?_ h rfl
        rw [List.length_drop]
        have : 0 < maxPayload := by decide
        omega

theorem readPacket_bytes {p : Packet} (h : p.payload.length < 256 ^ 3) (rest : Bytes) :
    ∃ header, readPacket (p.bytes ++ rest) = some (header, p.payload, rest) ∧
      header ++ p.payload = p.bytes := by
  have hlength : (Lib.leBytes 3 p.payload.length).length = 3 := Lib.length_leBytes _ _
  have hvalue := Lib.ofLeBytes_leBytes h
  obtain ⟨a, b, c, hbytes⟩ : ∃ a b c, Lib.leBytes 3 p.payload.length = [a, b, c] := ⟨_, _, _, rfl⟩
  rw [hbytes] at hvalue
  refine ⟨[a, b, c, p.seq], ?_, by rw [Packet.bytes, hbytes]; rfl⟩
  have hall : p.bytes ++ rest = a :: b :: c :: p.seq :: (p.payload ++ rest) := by
    rw [Packet.bytes, hbytes]
    rfl
  have htake : (a :: b :: c :: p.seq :: (p.payload ++ rest)).take 3 = [a, b, c] := rfl
  simp only [readPacket, hall, htake, hvalue]
  rw [if_neg (by simp only [List.length_cons, List.length_append]; omega)]
  have hdrop : (a :: b :: c :: p.seq :: (p.payload ++ rest)).drop (4 + p.payload.length) = rest := by
    rw [← List.drop_drop]
    exact List.drop_left
  rw [hdrop]
  simp

/-- A packet that starts like `COM_QUIT`. -/
def Packet.isQuit (p : Packet) : Bool := p.payload.head? == some comQuit

/-- **Packets are forwarded up to the first that begins with the byte of `COM_QUIT`.** -/
theorem sniff_wire {ps : List Packet} (h : ∀ p ∈ ps, p.payload.length < 256 ^ 3)
    (forwarded : Bytes) :
    (sniff (wire ps) forwarded).forwarded =
        forwarded ++ wire (ps.takeWhile fun p => !p.isQuit) ∧
      (sniff (wire ps) forwarded).ended = ps.any Packet.isQuit := by
  induction ps generalizing forwarded with
  | nil =>
    rw [wire, List.flatMap_nil, sniff_none rfl]
    exact ⟨(List.append_nil _).symm, rfl⟩
  | cons p ps ih =>
    obtain ⟨header, hread, hbytes⟩ := readPacket_bytes (h p List.mem_cons_self) (wire ps)
    have hwire : wire (p :: ps) = p.bytes ++ wire ps := List.flatMap_cons
    rw [hwire, sniff_some hread, List.any_cons]
    cases hquit : p.isQuit with
    | true =>
      rw [if_pos (beq_iff_eq.mp hquit), List.takeWhile_cons_of_neg (by simp [hquit])]
      exact ⟨(List.append_nil _).symm, rfl⟩
    | false =>
      obtain ⟨hforwarded, hended⟩ := ih (fun q hq => h q (List.mem_cons_of_mem _ hq))
        (forwarded ++ header ++ p.payload)
      rw [if_neg (by rw [← beq_iff_eq]; exact Bool.eq_false_iff.mp hquit), hforwarded, hended,
        List.takeWhile_cons_of_pos (by simp [hquit])]
      refine ⟨?_, rfl⟩
      rw [List.append_assoc forwarded, hbytes, List.append_assoc]
      rfl

/-! ## Commands -/

/-- A command that ends the session. -/
def isQuit (command : Bytes) : Bool := command.head? == some comQuit

/-- The commands before the first `COM_QUIT`. -/
def beforeQuit (commands : List Bytes) : List Bytes := commands.takeWhile fun c => !isQuit c

/-- No packet that continues a command begins with the byte of `COM_QUIT`. -/
def Unmistaken (command : Bytes) : Prop := ∀ p ∈ (packets command).tail, p.isQuit = false

theorem packets_head (command : Bytes) :
    ∃ p more, packets command = p :: more ∧ p.isQuit = isQuit command := by
  rw [packets, packetsFrom]
  split_ifs with hshort
  · exact ⟨_, _, rfl, rfl⟩
  · refine ⟨_, _, rfl, ?_⟩
    rw [Packet.isQuit, List.head?_take, if_neg (by decide), isQuit]

/-- The packets before `COM_QUIT` are all forwarded if none is mistaken for it. -/
theorem forall_packets_iff (commands : List Bytes) :
    (∀ p ∈ (beforeQuit commands).flatMap packets, p.isQuit = false) ↔
      ∀ command ∈ beforeQuit commands, Unmistaken command := by
  simp only [List.mem_flatMap, forall_exists_index, and_imp]
  constructor
  · intro h command hcommand p hp
    exact h p command hcommand (List.mem_of_mem_tail hp)
  · intro h p command hcommand hp
    obtain ⟨first, more, hpackets, hfirst⟩ := packets_head command
    have htail := h command hcommand
    rw [Unmistaken, hpackets] at htail
    rw [hpackets] at hp
    rcases List.mem_cons.mp hp with rfl | hp
    · have hnot := List.mem_takeWhile_imp hcommand
      rw [hfirst]
      simpa using hnot
    · exact htail p hp

/-- What follows the commands before `COM_QUIT` is nothing, or begins with it. -/
theorem flatMap_packets_split (commands : List Bytes) :
    ∃ rest, commands.flatMap packets = (beforeQuit commands).flatMap packets ++ rest ∧
      rest.takeWhile (fun p => !p.isQuit) = [] ∧ rest.any Packet.isQuit = commands.any isQuit := by
  induction commands with
  | nil => exact ⟨[], rfl, rfl, rfl⟩
  | cons command commands ih =>
    obtain ⟨first, more, hpackets, hfirst⟩ := packets_head command
    cases hquit : isQuit command with
    | true =>
      refine ⟨(command :: commands).flatMap packets, ?_, ?_, ?_⟩
      · rw [beforeQuit, List.takeWhile_cons_of_neg (by simp [hquit])]
        rfl
      · rw [List.flatMap_cons, hpackets, List.cons_append,
          List.takeWhile_cons_of_neg (by simp [hfirst, hquit])]
      · rw [List.flatMap_cons, hpackets, List.cons_append, List.any_cons, hfirst, hquit,
          List.any_cons, hquit]
        rfl
    | false =>
      obtain ⟨rest, hrest, hhead, hany⟩ := ih
      have hbefore : beforeQuit (command :: commands) = command :: beforeQuit commands :=
        List.takeWhile_cons_of_pos (by simp [hquit])
      refine ⟨rest, ?_, hhead, ?_⟩
      · rw [List.flatMap_cons, hrest, hbefore, List.flatMap_cons, List.append_assoc]
      · rw [hany, List.any_cons, hquit, Bool.false_or]

/-- Fewer packets are fewer bytes. -/
theorem takeWhile_of_wire_eq {ps : List Packet} {forwards : Packet → Bool} {rest : List Packet}
    (h : wire ((ps ++ rest).takeWhile forwards) = wire ps) : ∀ p ∈ ps, forwards p = true := by
  induction ps with
  | nil => exact fun p hp => absurd hp List.not_mem_nil
  | cons p ps ih =>
    have hwire : ∀ qs, wire (p :: qs) = p.bytes ++ wire qs := fun qs => List.flatMap_cons
    cases hp : forwards p with
    | true =>
      rw [List.cons_append, List.takeWhile_cons_of_pos hp, hwire, hwire] at h
      exact List.forall_mem_cons.mpr ⟨hp, ih (List.append_cancel_left h)⟩
    | false =>
      rw [List.cons_append, List.takeWhile_cons_of_neg (by rw [hp]; decide), hwire] at h
      have hnil := (List.append_eq_nil_iff.mp h.symm).1
      rw [Packet.bytes, List.append_eq_nil_iff] at hnil
      exact absurd hnil.2 (List.cons_ne_nil _ _)

/-- A session forwards the packets up to the first whose payload begins with `COM_QUIT`. -/
theorem session_stream {commands chunks : List Bytes} (h : chunks.flatten = stream commands) :
    (session chunks).forwarded = wire ((commands.flatMap packets).takeWhile fun p => !p.isQuit) ∧
      (session chunks).ended = (commands.flatMap packets).any Packet.isQuit := by
  have hlength : ∀ p ∈ commands.flatMap packets, p.payload.length < 256 ^ 3 := fun p hp => by
    obtain ⟨command, -, hp⟩ := List.mem_flatMap.mp hp
    exact packet_length_lt hp
  obtain ⟨hforwarded, hended⟩ := sniff_wire hlength []
  obtain ⟨hagrees, hagrees', -⟩ := session_agrees chunks
  rw [h] at hagrees hagrees'
  exact ⟨hagrees.trans hforwarded, hagrees'.trans hended⟩

/-- **A client's bytes are forwarded up to `COM_QUIT`**, in whatever chunks they arrive, if and
only if no packet before it is mistaken for one. -/
theorem client_stream_iff (commands : List Bytes) :
    (∀ chunks : List Bytes, chunks.flatten = stream commands →
      (session chunks).forwarded = stream (beforeQuit commands) ∧
        (session chunks).ended = commands.any isQuit) ↔
      ∀ command ∈ beforeQuit commands, Unmistaken command := by
  obtain ⟨rest, hsplit, hhead, hany⟩ := flatMap_packets_split commands
  rw [← forall_packets_iff]
  constructor
  · intro h
    have hone : [stream commands].flatten = stream commands := by simp
    have hwire := (session_stream hone).1.symm.trans (h _ hone).1
    rw [hsplit] at hwire
    intro p hp
    simpa using takeWhile_of_wire_eq hwire p hp
  · intro h chunks hchunks
    obtain ⟨h₁, h₂⟩ := session_stream hchunks
    refine ⟨h₁.trans ?_, h₂.trans ?_⟩
    · rw [hsplit, List.takeWhile_append_of_pos (fun p hp => by simp [h p hp]), hhead,
        List.append_nil]
      rfl
    · have hnone : ((beforeQuit commands).flatMap packets).any Packet.isQuit = false :=
        List.any_eq_false.mpr fun p hp => by simp [h p hp]
      rw [hsplit, List.any_append, hnone, Bool.false_or, hany]

/-- A query of `0xFFFFFF` bytes and one more, the last of them `0x01`. -/
def longQuery : Bytes := List.replicate maxPayload 0x03 ++ [comQuit]

theorem packets_longQuery :
    packets longQuery = [⟨0, List.replicate maxPayload 0x03⟩, ⟨1, [comQuit]⟩] := by
  have hlength : longQuery.length = maxPayload + 1 := by
    rw [longQuery, List.length_append, List.length_replicate]
    rfl
  rw [packets, packetsFrom, if_neg (by omega), longQuery, List.take_left' List.length_replicate,
    List.drop_left' List.length_replicate, packetsFrom, if_pos (by decide)]
  rfl

/-- **A long query is taken for a good-bye.** The query does not begin with `COM_QUIT`, yet its
second packet is not forwarded and the session ends. -/
theorem long_query_cut :
    isQuit longQuery = false ∧ (session [stream [longQuery]]).forwarded ≠ stream [longQuery] ∧
      (session [stream [longQuery]]).ended = true := by
  have hpackets : [longQuery].flatMap packets =
      [⟨0, List.replicate maxPayload 0x03⟩, ⟨1, [comQuit]⟩] := by
    rw [List.flatMap_singleton, packets_longQuery]
  have hfirst : (List.replicate maxPayload (0x03 : UInt8)).head? = some 0x03 := by
    rw [List.head?_replicate, if_neg (by decide)]
  have hquit : Packet.isQuit ⟨0, List.replicate maxPayload 0x03⟩ = false := by
    rw [Packet.isQuit, hfirst]
    decide
  have hone : [stream [longQuery]].flatten = stream [longQuery] := by simp
  obtain ⟨hforwarded, hended⟩ := session_stream hone
  refine ⟨?_, ?_, ?_⟩
  · rw [isQuit, longQuery, List.head?_append, hfirst]
    decide
  · intro h
    have hwire := hforwarded.symm.trans h
    rw [stream, hpackets] at hwire
    have hall := @takeWhile_of_wire_eq _ _ [] (by rw [List.append_nil]; exact hwire)
    have hlast := hall ⟨1, [comQuit]⟩ (by simp)
    exact absurd hlast (by decide)
  · rw [hended, hpackets, List.any_cons, hquit]
    decide

end Ephpm.Db.ClientStream
