import Ephpm.Kv.Entry

/-!
# The handshake of the cluster channel

Two nodes that share the secret of the cluster prove it to each other before they exchange
anything else:

    initiator → responder   seal(Ci)
    responder → initiator   seal(Ci ‖ Cr)
    initiator → responder   seal(Cr)

and both derive the key of the connection from the transcript `Ci ‖ Cr`.  All three messages are
sealed with **one key in both directions**, and the first and the third one have the same shape.

An attacker has the network and not the secret: it sees every sealed box, can deliver any box
that was ever sent to any session, and can open sessions with any node at any time; but it can
neither open a box nor make one.  A box is therefore what it contains, and the state of the world
is the sessions and **the boxes that were sent**.

What carries the argument is where a box can come from.  Of the boxes of two challenges' length
only responders make any, and a box that contains just the challenge of a responder comes from an
initiator that opened the reply of that very session.
-/

namespace Ephpm.Cluster.Handshake

open Kv (Bytes)

/-- `CHALLENGE_LEN`. -/
def challengeLen : ℕ := 32

/-- `HANDSHAKE_VERSION`. -/
def handshakeVersion : UInt8 := 2

/-! ## Sessions -/

/-- How a session of an initiator stands, with the challenge of the responder it accepted. -/
inductive InitiatorState where
  | waiting
  | done (responder : Bytes)
  | failed
deriving DecidableEq, Repr

/-- `handshake_initiate`, after its first message. -/
structure Initiator where
  challenge : Bytes
  state : InitiatorState
deriving DecidableEq, Repr

/-- How far a responder has come. -/
inductive ResponderState where
  | waiting
  | done
  | failed
deriving DecidableEq, Repr

/-- `handshake_respond`, after its reply: the challenge it received and its own. -/
structure Responder where
  initiator : Bytes
  challenge : Bytes
  state : ResponderState
deriving DecidableEq, Repr

/-- `transcript`: what the key of the session is derived from. -/
def transcript (initiator responder : Bytes) : Bytes := initiator ++ responder

/-- What the initiator derives its keys from, once it is done. -/
def Initiator.sessionTranscript (s : Initiator) : Option Bytes :=
  match s.state with
  | .done responder => some (transcript s.challenge responder)
  | _ => none

/-- What the responder derives its keys from, once it is done. -/
def Responder.sessionTranscript (s : Responder) : Option Bytes :=
  match s.state with
  | .done => some (transcript s.initiator s.challenge)
  | _ => none

/-- The check of the first message: the challenge of the initiator.  A message that is not a box
does not open. -/
def openChallenge (version : UInt8) (message : Option Bytes) : Option Bytes :=
  if version ≠ handshakeVersion then none
  else message.bind fun opened => if opened.length = challengeLen then some opened else none

/-- The check of the reply: the challenge of the responder. -/
def openReply (challenge : Bytes) (version : UInt8) (message : Option Bytes) : Option Bytes :=
  if version ≠ handshakeVersion then none
  else message.bind fun reply =>
    if reply.length ≠ challengeLen * 2 then none
    else if reply.take challengeLen = challenge then some (reply.drop challengeLen)
    else none

/-- The check of the confirmation. -/
def openConfirm (challenge : Bytes) (message : Option Bytes) : Bool := message = some challenge

/-! ## The world -/

/-- All sessions of all nodes, and what the boxes that were sent contain. -/
structure World where
  initiators : List Initiator
  responders : List Responder
  wire : List Bytes
deriving DecidableEq, Repr

/-- What the attacker can make happen.  A message is a box that was sent, or `none` for bytes that
do not open. -/
inductive Action where
  /-- A node opens a session with a challenge of its own. -/
  | initiate (challenge : Bytes)
  /-- A node is sent a first message, and answers with a challenge of its own. -/
  | respond (version : UInt8) (message : Option Bytes) (challenge : Bytes)
  /-- A session of an initiator is sent a reply. -/
  | reply (session : ℕ) (version : UInt8) (message : Option Bytes)
  /-- A session of a responder is sent a confirmation. -/
  | confirm (session : ℕ) (message : Option Bytes)

namespace World

/-- Nobody has started yet. -/
def empty : World := ⟨[], [], []⟩

/-- The challenges that were chosen. -/
def challenges (w : World) : List Bytes :=
  w.initiators.map (·.challenge) ++ w.responders.map (·.challenge)

/-- One step of somebody. -/
def step (w : World) : Action → World
  | .initiate challenge =>
    { w with initiators := w.initiators ++ [⟨challenge, .waiting⟩], wire := challenge :: w.wire }
  | .respond version message challenge =>
    match openChallenge version message with
    | none => w
    | some initiator =>
      { w with
        responders := w.responders ++ [⟨initiator, challenge, .waiting⟩]
        wire := transcript initiator challenge :: w.wire }
  | .reply session version message =>
    match w.initiators[session]? with
    | some ⟨challenge, .waiting⟩ =>
      match openReply challenge version message with
      | none => { w with initiators := w.initiators.set session ⟨challenge, .failed⟩ }
      | some responder =>
        { w with
          initiators := w.initiators.set session ⟨challenge, .done responder⟩
          wire := responder :: w.wire }
    | _ => w
  | .confirm session message =>
    match w.responders[session]? with
    | some ⟨initiator, challenge, .waiting⟩ =>
      let state := if openConfirm challenge message then .done else .failed
      { w with responders := w.responders.set session ⟨initiator, challenge, state⟩ }
    | _ => w

/-- What is delivered was sent before, if it is a box at all. -/
def Sent (w : World) (message : Option Bytes) : Prop := ∀ box, message = some box → box ∈ w.wire

/-- A challenge is fresh. -/
def Fresh (w : World) (challenge : Bytes) : Prop :=
  challenge.length = challengeLen ∧ challenge ∉ w.challenges

/-- What the attacker and the random numbers allow. -/
def Legal (w : World) : Action → Prop
  | .initiate challenge => w.Fresh challenge
  | .respond _ message challenge => w.Sent message ∧ w.Fresh challenge
  | .reply _ _ message => w.Sent message
  | .confirm _ message => w.Sent message

/-- A run of the world. -/
inductive Run : World → Prop
  | empty : Run empty
  | step {w : World} {a : Action} : Run w → w.Legal a → Run (w.step a)

/-! ## Where boxes come from -/

/-- An initiator and a responder that agree on both challenges. -/
def Matched (i : Initiator) (r : Responder) : Prop :=
  i.challenge = r.initiator ∧ i.state = .done r.challenge

/-- **The origin of every box**, and what follows for sessions that completed. -/
structure Sound (w : World) : Prop where
  origin : ∀ box ∈ w.wire, (∃ i ∈ w.initiators, box = i.challenge) ∨
    (∃ r ∈ w.responders, box = transcript r.initiator r.challenge) ∨
    ∃ i ∈ w.initiators, i.state = .done box
  initiator : ∀ i ∈ w.initiators, i.challenge.length = challengeLen
  responder : ∀ r ∈ w.responders, r.initiator.length = challengeLen ∧
    r.challenge.length = challengeLen
  fresh : w.challenges.Nodup
  replied : ∀ i ∈ w.initiators, ∀ c, i.state = .done c →
    ∃ r ∈ w.responders, r.initiator = i.challenge ∧ r.challenge = c
  confirmed : ∀ r ∈ w.responders, r.state = .done → ∃ i ∈ w.initiators, Matched i r

namespace Sound

variable {w : World}

theorem empty_sound : Sound empty where
  origin := by
    intro box hbox
    cases hbox
  initiator := by
    intro i hi
    cases hi
  responder := by
    intro r hr
    cases hr
  fresh := List.nodup_nil
  replied := by
    intro i hi
    cases hi
  confirmed := by
    intro r hr
    cases hr

/-- The length of a box tells a reply from the other messages. -/
theorem length_of_done (sound : Sound w) {i : Initiator} (hi : i ∈ w.initiators) {c : Bytes}
    (hdone : i.state = .done c) : c.length = challengeLen := by
  obtain ⟨r, hr, -, rfl⟩ := sound.replied i hi c hdone
  exact (sound.responder r hr).2

theorem exists_responder (sound : Sound w) {box : Bytes} (hbox : box ∈ w.wire)
    (hlength : box.length = challengeLen * 2) :
    ∃ r ∈ w.responders, box = transcript r.initiator r.challenge := by
  rcases sound.origin box hbox with ⟨i, hi, rfl⟩ | hreply | ⟨i, hi, hdone⟩
  · rw [sound.initiator i hi] at hlength
    cases hlength
  · exact hreply
  · rw [sound.length_of_done hi hdone] at hlength
    cases hlength

theorem responder_eq (sound : Sound w) {r r' : Responder} (hr : r ∈ w.responders)
    (hr' : r' ∈ w.responders) (h : r.challenge = r'.challenge) : r = r' :=
  List.inj_on_of_nodup_map (List.nodup_append.mp sound.fresh).2.1 hr hr' h

/-- A box with the challenge of a responder comes from an initiator that opened its reply. -/
theorem exists_initiator (sound : Sound w) {r : Responder} (hr : r ∈ w.responders)
    (hbox : r.challenge ∈ w.wire) : ∃ i ∈ w.initiators, Matched i r := by
  obtain ⟨hinitiator, hchallenge⟩ := sound.responder r hr
  rcases sound.origin _ hbox with ⟨i, hi, heq⟩ | ⟨r', hr', heq⟩ | ⟨i, hi, hdone⟩
  · -- no initiator chose it, for it was fresh
    have hdisjoint := (List.nodup_append.mp sound.fresh).2.2
    exact absurd heq.symm (hdisjoint _ (List.mem_map_of_mem hi) _ (List.mem_map_of_mem hr))
  · obtain ⟨hinitiator', hchallenge'⟩ := sound.responder r' hr'
    have hlength := congrArg List.length heq
    rw [transcript, List.length_append, hchallenge, hinitiator', hchallenge'] at hlength
    cases hlength
  · obtain ⟨r', hr', hinitiator', hchallenge'⟩ := sound.replied i hi _ hdone
    obtain rfl := sound.responder_eq hr' hr hchallenge'
    exact ⟨i, hi, hinitiator'.symm, hdone⟩

/-! ## Steps -/

theorem mem_set_of_ne {α : Type} {l : List α} {k : ℕ} {x y z : α} (hget : l[k]? = some x)
    (hz : z ∈ l) (hne : z ≠ x) : z ∈ l.set k y := by
  obtain ⟨n, hn⟩ := List.mem_iff_getElem?.mp hz
  have hnk : k ≠ n := by
    rintro rfl
    exact hne (Option.some.inj (hn.symm.trans hget))
  exact List.mem_iff_getElem?.mpr ⟨n, by rw [List.getElem?_set_ne hnk, hn]⟩

theorem mem_set_self' {α : Type} {l : List α} {k : ℕ} {x y : α} (hget : l[k]? = some x) :
    y ∈ l.set k y := by
  obtain ⟨hk, -⟩ := List.getElem?_eq_some_iff.mp hget
  exact List.mem_set hk y

theorem map_set_eq {α β : Type} {l : List α} {k : ℕ} {x y : α} (hget : l[k]? = some x) {f : α → β}
    (hf : f y = f x) : (l.set k y).map f = l.map f := by
  obtain ⟨hk, hx⟩ := List.getElem?_eq_some_iff.mp hget
  rw [List.map_set, hf, ← hx]
  refine List.ext_getElem? fun n => ?_
  by_cases hn : k = n
  · subst hn
    simp [hk]
  · rw [List.getElem?_set_ne hn]

theorem initiate (sound : Sound w) {challenge : Bytes} (fresh : w.Fresh challenge) :
    Sound (w.step (.initiate challenge)) where
  origin := by
    intro box hbox
    rcases List.mem_cons.mp hbox with rfl | hbox
    · exact Or.inl ⟨⟨box, .waiting⟩, List.mem_append_right _ (List.mem_singleton_self _), rfl⟩
    · rcases sound.origin box hbox with ⟨i, hi, h⟩ | hreply | ⟨i, hi, h⟩
      · exact Or.inl ⟨i, List.mem_append_left _ hi, h⟩
      · exact Or.inr (Or.inl hreply)
      · exact Or.inr (Or.inr ⟨i, List.mem_append_left _ hi, h⟩)
  initiator := by
    intro i hi
    rcases List.mem_append.mp hi with hi | hi
    · exact sound.initiator i hi
    · rw [List.mem_singleton.mp hi]
      exact fresh.1
  responder := sound.responder
  fresh := by
    have hperm : (w.step (.initiate challenge)).challenges.Perm (challenge :: w.challenges) := by
      simp only [step, challenges, List.map_append, List.map_cons, List.map_nil,
        List.append_assoc, List.singleton_append]
      exact List.perm_middle
    exact hperm.nodup_iff.mpr (List.nodup_cons.mpr ⟨fresh.2, sound.fresh⟩)
  replied := by
    intro i hi c hdone
    rcases List.mem_append.mp hi with hi | hi
    · exact sound.replied i hi c hdone
    · rw [List.mem_singleton.mp hi] at hdone
      cases hdone
  confirmed := by
    intro r hr hdone
    obtain ⟨i, hi, hmatched⟩ := sound.confirmed r hr hdone
    exact ⟨i, List.mem_append_left _ hi, hmatched⟩

theorem respond (sound : Sound w) {initiator challenge : Bytes}
    (hlength : initiator.length = challengeLen) (fresh : w.Fresh challenge) :
    Sound { w with
      responders := w.responders ++ [⟨initiator, challenge, .waiting⟩]
      wire := transcript initiator challenge :: w.wire } where
  origin := by
    intro box hbox
    rcases List.mem_cons.mp hbox with rfl | hbox
    · exact Or.inr (Or.inl ⟨⟨initiator, challenge, .waiting⟩,
        List.mem_append_right _ (List.mem_singleton_self _), rfl⟩)
    · rcases sound.origin box hbox with hchallenge | ⟨r, hr, h⟩ | hdone
      · exact Or.inl hchallenge
      · exact Or.inr (Or.inl ⟨r, List.mem_append_left _ hr, h⟩)
      · exact Or.inr (Or.inr hdone)
  initiator := sound.initiator
  responder := by
    intro r hr
    rcases List.mem_append.mp hr with hr | hr
    · exact sound.responder r hr
    · rw [List.mem_singleton.mp hr]
      exact ⟨hlength, fresh.1⟩
  fresh := by
    simp only [challenges, List.map_append, List.map_cons, List.map_nil]
    rw [← List.append_assoc]
    exact List.nodup_append.mpr ⟨sound.fresh, List.nodup_singleton _, fun a ha b hb =>
      by rintro rfl; exact fresh.2 (List.mem_singleton.mp hb ▸ ha)⟩
  replied := by
    intro i hi c hdone
    obtain ⟨r, hr, h⟩ := sound.replied i hi c hdone
    exact ⟨r, List.mem_append_left _ hr, h⟩
  confirmed := by
    intro r hr hdone
    rcases List.mem_append.mp hr with hr | hr
    · exact sound.confirmed r hr hdone
    · rw [List.mem_singleton.mp hr] at hdone
      cases hdone

/-- A waiting initiator ends, and may send one more box. -/
theorem set_initiator (sound : Sound w) {k : ℕ} {challenge : Bytes}
    (hget : w.initiators[k]? = some ⟨challenge, .waiting⟩) {state : InitiatorState}
    (hreplied : ∀ c, state = .done c →
      ∃ r ∈ w.responders, r.initiator = challenge ∧ r.challenge = c)
    {boxes : List Bytes} (hboxes : ∀ box ∈ boxes, state = .done box) :
    Sound { w with
      initiators := w.initiators.set k ⟨challenge, state⟩
      wire := boxes ++ w.wire } := by
  have hself : (⟨challenge, state⟩ : Initiator) ∈ w.initiators.set k ⟨challenge, state⟩ :=
    mem_set_self' hget
  have hwaiting : (⟨challenge, .waiting⟩ : Initiator) ∈ w.initiators :=
    List.mem_of_getElem? hget
  -- a session that is done is another one
  have hother : ∀ i ∈ w.initiators, ∀ c, i.state = .done c →
      i ∈ w.initiators.set k ⟨challenge, state⟩ := by
    intro i hi c hdone
    refine mem_set_of_ne hget hi ?_
    rintro rfl
    cases hdone
  have hchallenges : (w.initiators.set k ⟨challenge, state⟩).map (·.challenge) =
      w.initiators.map (·.challenge) := map_set_eq hget rfl
  refine ⟨?_, ?_, sound.responder, ?_, ?_, ?_⟩
  · intro box hbox
    rcases List.mem_append.mp hbox with hbox | hbox
    · exact Or.inr (Or.inr ⟨_, hself, hboxes box hbox⟩)
    · rcases sound.origin box hbox with ⟨i, hi, h⟩ | hreply | ⟨i, hi, h⟩
      · by_cases hsame : i = ⟨challenge, .waiting⟩
        · rw [hsame] at h
          exact Or.inl ⟨_, hself, h⟩
        · exact Or.inl ⟨i, mem_set_of_ne hget hi hsame, h⟩
      · exact Or.inr (Or.inl hreply)
      · exact Or.inr (Or.inr ⟨i, hother i hi box h, h⟩)
  · intro i hi
    rcases List.mem_or_eq_of_mem_set hi with hi | rfl
    · exact sound.initiator i hi
    · exact sound.initiator ⟨challenge, .waiting⟩ hwaiting
  · unfold challenges
    rw [hchallenges]
    exact sound.fresh
  · intro i hi c hdone
    rcases List.mem_or_eq_of_mem_set hi with hi | rfl
    · exact sound.replied i hi c hdone
    · exact hreplied c hdone
  · intro r hr hdone
    obtain ⟨i, hi, hmatched⟩ := sound.confirmed r hr hdone
    exact ⟨i, hother i hi _ hmatched.2, hmatched⟩

theorem set_responder (sound : Sound w) {k : ℕ} {initiator challenge : Bytes}
    (hget : w.responders[k]? = some ⟨initiator, challenge, .waiting⟩) {state : ResponderState}
    (hconfirmed : state = .done → ∃ i ∈ w.initiators, Matched i ⟨initiator, challenge, state⟩) :
    Sound { w with responders := w.responders.set k ⟨initiator, challenge, state⟩ } := by
  have hself : (⟨initiator, challenge, state⟩ : Responder) ∈
      w.responders.set k ⟨initiator, challenge, state⟩ := mem_set_self' hget
  have hwaiting : (⟨initiator, challenge, .waiting⟩ : Responder) ∈ w.responders :=
    List.mem_of_getElem? hget
  have hkept : ∀ r ∈ w.responders, ∃ r' ∈ w.responders.set k ⟨initiator, challenge, state⟩,
      r'.initiator = r.initiator ∧ r'.challenge = r.challenge := by
    intro r hr
    by_cases hsame : r = ⟨initiator, challenge, .waiting⟩
    · rw [hsame]
      exact ⟨_, hself, rfl, rfl⟩
    · exact ⟨r, mem_set_of_ne hget hr hsame, rfl, rfl⟩
  have hchallenges : (w.responders.set k ⟨initiator, challenge, state⟩).map (·.challenge) =
      w.responders.map (·.challenge) := map_set_eq hget rfl
  refine ⟨?_, sound.initiator, ?_, ?_, ?_, ?_⟩
  · intro box hbox
    rcases sound.origin box hbox with hchallenge | ⟨r, hr, rfl⟩ | hdone
    · exact Or.inl hchallenge
    · obtain ⟨r', hr', hinitiator, hchallenge⟩ := hkept r hr
      exact Or.inr (Or.inl ⟨r', hr', by rw [hinitiator, hchallenge]⟩)
    · exact Or.inr (Or.inr hdone)
  · intro r hr
    rcases List.mem_or_eq_of_mem_set hr with hr | rfl
    · exact sound.responder r hr
    · exact sound.responder ⟨initiator, challenge, .waiting⟩ hwaiting
  · unfold challenges
    rw [hchallenges]
    exact sound.fresh
  · intro i hi c hdone
    obtain ⟨r, hr, hinitiator, hchallenge⟩ := sound.replied i hi c hdone
    obtain ⟨r', hr', hinitiator', hchallenge'⟩ := hkept r hr
    exact ⟨r', hr', hinitiator'.trans hinitiator, hchallenge'.trans hchallenge⟩
  · intro r hr hdone
    rcases List.mem_or_eq_of_mem_set hr with hr | rfl
    · exact sound.confirmed r hr hdone
    · exact hconfirmed hdone

/-- **Every step keeps the origin of boxes.** -/
theorem step (sound : Sound w) {a : Action} (legal : w.Legal a) : Sound (w.step a) := by
  cases a with
  | initiate challenge => exact sound.initiate legal
  | respond version message challenge =>
    unfold World.step
    dsimp only
    split
    · exact sound
    next initiator hopen =>
      refine sound.respond ?_ legal.2
      unfold openChallenge at hopen
      split at hopen
      · cases hopen
      · obtain ⟨opened, -, hlength⟩ := Option.bind_eq_some_iff.mp hopen
        split at hlength
        next h => rwa [← Option.some.inj hlength]
        next => cases hlength
  | reply session version message =>
    unfold World.step
    dsimp only
    split
    next challenge hget =>
      split
      next hopen =>
        have hnone : ∀ box ∈ ([] : List Bytes), InitiatorState.failed = .done box := by simp
        exact sound.set_initiator hget (by simp) hnone
      next responder hopen =>
        have hbox : ∀ box ∈ [responder], InitiatorState.done responder = .done box := by simp
        refine sound.set_initiator hget (fun c hc => ?_) hbox
        obtain rfl := InitiatorState.done.inj hc
        unfold openReply at hopen
        split at hopen
        · cases hopen
        · obtain ⟨reply, rfl, hreply⟩ := Option.bind_eq_some_iff.mp hopen
          split at hreply
          · cases hreply
          next hlength =>
            split at hreply
            next hecho =>
              obtain ⟨r, hr, rfl⟩ :=
                sound.exists_responder (legal reply rfl) (not_not.mp hlength)
              have hinitiator := (sound.responder r hr).1
              refine ⟨r, hr, ?_, ?_⟩
              · rw [← hecho, transcript, List.take_left' hinitiator]
              · rw [← Option.some.inj hreply, transcript, List.drop_left' hinitiator]
            next => cases hreply
    next => exact sound
  | confirm session message =>
    unfold World.step
    dsimp only
    split
    next initiator challenge hget =>
      refine sound.set_responder hget fun hdone => ?_
      split at hdone
      next hopen =>
        have hmessage : message = some challenge := of_decide_eq_true hopen
        have hr := List.mem_of_getElem? hget
        obtain ⟨i, hi, hmatched⟩ := sound.exists_initiator hr (legal challenge hmessage)
        exact ⟨i, hi, hmatched⟩
      next => cases hdone
    next => exact sound

end Sound

theorem Run.sound {w : World} (run : Run w) : Sound w := by
  induction run with
  | empty => exact Sound.empty_sound
  | step _ legal ih => exact ih.step legal

/-! ## Agreement -/

/-- **Sessions that complete agree.**  For a responder that completes there is an initiator that
chose the challenge it received, accepted the one it chose and has the same transcript; different
responders have different initiators; and for an initiator that completes there is a responder
that chose the challenge it accepted for the one it sent. -/
theorem handshake_agreement {w : World} (run : Run w) :
    (∀ (k : ℕ) (r : Responder), w.responders[k]? = some r → r.state = .done →
      ∃ (j : ℕ) (i : Initiator), w.initiators[j]? = some i ∧ Matched i r ∧
        i.sessionTranscript = r.sessionTranscript) ∧
      (∀ (k k' : ℕ) (r r' : Responder) (j : ℕ) (i : Initiator), w.responders[k]? = some r →
        w.responders[k']? = some r' → k ≠ k' → w.initiators[j]? = some i → Matched i r →
          ¬ Matched i r') ∧
      ∀ (j : ℕ) (i : Initiator) (c : Bytes), w.initiators[j]? = some i → i.state = .done c →
        ∃ (k : ℕ) (r : Responder), w.responders[k]? = some r ∧ r.initiator = i.challenge ∧
          r.challenge = c := by
  have sound := run.sound
  refine ⟨fun k r hr hdone => ?_, fun k k' r r' j i hr hr' hne _ hmatched hmatched' => ?_,
    fun j i c hi hdone => ?_⟩
  · obtain ⟨i, hi, hmatched⟩ := sound.confirmed r (List.mem_of_getElem? hr) hdone
    obtain ⟨j, hj⟩ := List.mem_iff_getElem?.mp hi
    refine ⟨j, i, hj, hmatched, ?_⟩
    rw [Initiator.sessionTranscript, Responder.sessionTranscript, hmatched.1, hmatched.2, hdone]
  · -- one initiator accepts one challenge, and that is of one session
    have hsame : r.challenge = r'.challenge :=
      InitiatorState.done.inj (hmatched.2.symm.trans hmatched'.2)
    have hnodup := (List.nodup_append.mp sound.fresh).2.1
    obtain ⟨hk, -⟩ := List.getElem?_eq_some_iff.mp hr
    refine hne ((List.getElem?_inj (by rwa [List.length_map]) hnodup).mp ?_)
    rw [List.getElem?_map, List.getElem?_map, hr, hr', Option.map_some, Option.map_some, hsame]
  · obtain ⟨r, hr, hinitiator, hchallenge⟩ := sound.replied i (List.mem_of_getElem? hi) c hdone
    obtain ⟨k, hk⟩ := List.mem_iff_getElem?.mp hr
    exact ⟨k, r, hk, hinitiator, hchallenge⟩

/-- An undisturbed handshake. -/
theorem handshake_agreement_undisturbed :
    let mine := List.replicate 32 (1 : UInt8)
    let yours := List.replicate 32 (2 : UInt8)
    let w := (((empty.step (.initiate mine)).step (.respond 2 (some mine) yours)).step
      (.reply 0 2 (some (mine ++ yours)))).step (.confirm 0 (some yours))
    w.responders = [⟨mine, yours, .done⟩] ∧
      ∃ (j : ℕ) (i : Initiator), w.initiators[j]? = some i ∧ Matched i ⟨mine, yours, .done⟩ := by
  intro mine yours w
  have hresponders : w.responders = [⟨mine, yours, .done⟩] := by decide
  have sent : ∀ {w : World} {box : Bytes}, box ∈ w.wire → w.Sent (some box) := by
    rintro w box hbox _ ⟨⟩
    exact hbox
  have run : Run w := by
    refine .step (.step (.step (.step .empty ?_) ?_) ?_) ?_
    · exact ⟨by decide, by decide⟩
    · exact ⟨sent (by decide), by decide, by decide⟩
    · exact sent (by decide)
    · exact sent (by decide)
  obtain ⟨hagree, -, -⟩ := handshake_agreement run
  obtain ⟨j, i, hi, hmatched, -⟩ := hagree 0 ⟨mine, yours, .done⟩ (by rw [hresponders]; rfl) rfl
  exact ⟨hresponders, j, i, hi, hmatched⟩

end World

end Ephpm.Cluster.Handshake
