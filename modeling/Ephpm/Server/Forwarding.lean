import Ephpm.Bridge.Reading
import Ephpm.Lib.Path
import Ephpm.Lib.Split

/-!
# Forwarded sessions

A node that does not own a site sends its statements to the owner, over a stream that it opens with
the first of them and keeps.  The owner has a session for each stream.  What belongs to the session
ends with it: an open transaction is rolled back, and named locks are released.

A stream that was idle for long is replaced, since the owner might have closed it.  **With the
stream goes the session**, so this must not happen as long as there is something to lose.  The
client has no way to ask.  It keeps a flag, from the first words of what it has sent
(`transactionEffect`).

This goes wrong in three ways.

* SQLite has other ways to write these words.  A comment in front of `BEGIN`, or directly behind it,
  hides it from the client.
* `ROLLBACK TRANSACTION TO` a savepoint ends nothing, but the client takes it for an end.
* Nobody keeps a flag for named locks.

Otherwise the session stays (`session_kept`).  What the owner's database does with a statement is up
to it, within what SQLite's reading of the text allows (`runs`).
-/

namespace Ephpm.Server.Forwarding

open Lib Lib.Lexer Bridge

/-! ## Words of transactions -/

/-- A word without semicolons behind it, in upper case. -/
def bare (word : Text) : Text := upper (word.rdropWhile (· == ';'))

/-- A word of a text between white space. -/
def wordAt (sql : Text) (n : ℕ) : Text := bare ((asciiWords sql).getD n [])

/-- `transaction_effect`: whether a transaction is open afterwards, if the first word says so. -/
def transactionEffect (sql : Text) : Option Bool :=
  match asciiWords sql with
  | [] => none
  | first :: rest =>
    if bare first ∈ ["BEGIN".toList, "START".toList, "SAVEPOINT".toList] then some true
    else if bare first ∈ ["COMMIT".toList, "END".toList] then some false
    else if bare first = "ROLLBACK".toList then
      match rest with
      | next :: _ => if bare next = "TO".toList then none else some false
      | [] => some false
    else none

/-- `CLIENT_STREAM_MAX_IDLE`, in nanoseconds. -/
def clientStreamMaxIdle : ℕ := 240000000000

/-- `should_replace_idle_stream`. -/
def shouldReplaceIdleStream (idle : ℕ) (inTransaction : Bool) : Bool :=
  clientStreamMaxIdle ≤ idle && !inTransaction

/-- What a statement does to the transaction of a session, if it succeeds. -/
inductive Effect
  /-- there is one afterwards -/
  | opens
  /-- there is none afterwards -/
  | ends
  /-- back to a savepoint -/
  | keeps
  /-- a savepoint is released, with which the transaction may have begun -/
  | mayEnd
  | other
deriving DecidableEq, Repr

/-- The statement behind white space, comments and empty statements. -/
def leading (sql : Text) : Text := strip (fun c => isSpace c || c == ';') sqlite.lineComment sql

/-- `TO`, behind `ROLLBACK` and perhaps `TRANSACTION`. -/
def rollsBackTo (rest : Text) : Bool :=
  (sqlite.after "TO" rest).isSome || ((sqlite.after "TRANSACTION" rest).bind (sqlite.after "TO")).isSome

/-- **What SQLite reads.** -/
def sqliteEffect (sql : Text) : Effect :=
  let starts (word : String) : Bool := (sqlite.after word (leading sql)).isSome
  if starts "BEGIN" || starts "SAVEPOINT" then .opens
  else if starts "COMMIT" || starts "END" then .ends
  else match sqlite.after "ROLLBACK" (leading sql) with
    | some rest => if rollsBackTo rest then .keeps else .ends
    | none => if starts "RELEASE" then .mayEnd else .other

/-! ## Client and owner -/

/-- `SqlRequest`. -/
inductive Request
  | query (sql : Text)
  | execute (sql : Text)
  | lock
deriving DecidableEq, Repr

/-- `SqlRequest::sql`. -/
def Request.sql : Request → Text
  | query sql | execute sql => sql
  | lock => []

/-- `SqlResponse`, without what it carries.  Heartbeats are consumed by `exchange`. -/
inductive Response
  | rows
  | ok
  | lock
  | error (closed : Bool)
deriving DecidableEq, Repr

/-- The session that the owner has for a stream. -/
structure Session where
  inTransaction : Bool
  holdsLock : Bool
deriving DecidableEq, Repr

/-- There is something to lose. -/
def Session.Engaged (session : Session) : Prop :=
  session.inTransaction = true ∨ session.holdsLock = true

instance (session : Session) : Decidable session.Engaged := inferInstanceAs (Decidable (_ ∨ _))

/-- Whether there may be a transaction before and after a statement that succeeds. -/
def Effect.allows (before after : Bool) : Effect → Bool
  | opens => after
  | ends => !after
  | keeps | other => after == before
  | mayEnd => !after || before

/-- What the owner may do: a statement that succeeds has the effect that SQLite reads, one that
fails opens no transaction, and only operations on locks change the locks. -/
def runs (request : Request) (response : Response) (before after : Session) : Bool :=
  match response with
  | .rows | .ok =>
    request != .lock && after.holdsLock == before.holdsLock &&
      (sqliteEffect request.sql).allows before.inTransaction after.inTransaction
  | .lock => request == .lock && after.inTransaction == before.inTransaction
  | .error _ =>
    after.holdsLock == before.holdsLock && (!after.inTransaction || before.inTransaction)

/-- `OpenStream`, with the session at its other end, if the owner has not closed it. -/
structure OpenStream where
  /-- the number of the stream, and with it of the session -/
  id : ℕ
  owner : Option Session
  lastUsed : ℕ
  inTransaction : Bool
deriving DecidableEq, Repr

/-- `RemoteProxyConn`. -/
structure Conn where
  stream : Option OpenStream
  /-- how many streams were opened so far -/
  dialed : ℕ
deriving DecidableEq, Repr

/-- What becomes of a request that was sent: no answer, or one at some time, with the session as it
is then. -/
inductive Answer
  | failed
  | reply (response : Response) (time : ℕ) (session : Session)
deriving DecidableEq, Repr

/-- What happens to a connection. -/
inductive Event
  /-- `forward`: when, what, whether a new stream can be opened, and what becomes of it -/
  | forward (now : ℕ) (request : Request) (dials : Bool) (answer : Answer)
  /-- the owner closes the stream: idle for too long, leaving, or no longer the owner -/
  | ownerCloses
deriving DecidableEq, Repr

namespace Conn

/-- `RemoteProxyBackend::connect`. -/
def start : Conn := ⟨none, 0⟩

variable (c : Conn)

/-- The stream that is still good for a request. -/
def reusable (now : ℕ) : Option OpenStream :=
  c.stream.filter fun s => !shouldReplaceIdleStream (now - s.lastUsed) s.inTransaction

/-- The session that a request is sent to. -/
def target (now : ℕ) : ℕ :=
  match c.reusable now with
  | some s => s.id
  | none => c.dialed

/-- What `forward` does with the answer. -/
def receive (s : OpenStream) (request : Request) : Answer → Option OpenStream
  | .failed => none
  | .reply (.error true) _ _ => none
  | .reply (.error false) time session | .reply .lock time session =>
    some { s with lastUsed := time, owner := some session }
  | .reply .rows time session | .reply .ok time session =>
    some { s with
      lastUsed := time
      owner := some session
      inTransaction := (transactionEffect request.sql).getD s.inTransaction }

/-- An answer that the owner may give on a stream. -/
def answers (s : OpenStream) (request : Request) : Answer → Bool
  | .failed => true
  | .reply response _ after => s.owner.any fun before => runs request response before after

/-- `RemoteProxyConn::forward`, and what the owner does. -/
def step : Event → Option Conn
  | .forward now request dials answer =>
    match c.reusable now with
    | some s => if answers s request answer then some { c with stream := receive s request answer } else none
    | none =>
      if dials then
        let s : OpenStream := ⟨c.dialed, some ⟨false, false⟩, now, false⟩
        if answers s request answer then some ⟨receive s request answer, c.dialed + 1⟩ else none
      else some { c with stream := none }
  | .ownerCloses => some { c with stream := c.stream.map fun s => { s with owner := none } }

end Conn

/-! ## What the client has to know -/

/-- A text whose effect the client reads as SQLite does: a word that opens a transaction is the
first between white space, and behind `ROLLBACK` in such a place, `TO` is the next. -/
def Plain (sql : Text) : Prop :=
  (sqliteEffect sql = .opens → wordAt sql 0 ∈ ["BEGIN".toList, "SAVEPOINT".toList]) ∧
    (sqliteEffect sql = .keeps → wordAt sql 0 = "ROLLBACK".toList → wordAt sql 1 = "TO".toList)

instance (sql : Text) : Decidable (Plain sql) := inferInstanceAs (Decidable (_ ∧ _))

/-- A request with a plain text that does not come late if nothing but a lock is at stake. -/
def Conn.Safe (c : Conn) : Event → Prop
  | .forward now request _ _ => Plain request.sql ∧
      ∀ s ∈ c.stream, ∀ session ∈ s.owner, session.holdsLock = true →
        session.inTransaction = false → now - s.lastUsed < clientStreamMaxIdle
  | .ownerCloses => True

instance (c : Conn) (e : Event) : Decidable (c.Safe e) :=
  match e with
  | .forward .. => inferInstanceAs (Decidable (_ ∧ _))
  | .ownerCloses => inferInstanceAs (Decidable True)

/-- A step under the condition. -/
def SafeStep (c c' : Conn) : Prop := ∃ e, c.Safe e ∧ c.step e = some c'

/-! ## Reading words -/

section Words

variable {sql first : Text} {rest : List Text}

/-- The first word is what follows white space, up to the next. -/
theorem asciiWords_first (h : asciiWords sql = first :: rest) :
    first = (sql.dropWhile isAsciiWhite).takeWhile fun c => !isAsciiWhite c := by
  induction sql with
  | nil => cases h
  | cons c s ih =>
    rw [asciiWords, List.splitOnP_cons_eq_if_modifyHead] at h
    split_ifs at h with hc
    · rw [List.dropWhile_cons_of_pos hc]
      exact ih h
    · obtain ⟨more, hsplit⟩ := exists_splitOnP_eq isAsciiWhite s
      rw [hsplit, List.modifyHead_cons, List.filter_cons_of_pos rfl] at h
      rw [List.dropWhile_cons_of_neg hc, List.takeWhile_cons_of_pos (by simp [hc])]
      exact (List.cons.inj h).1.symm

theorem isSpace_of_isAsciiWhite {c : Char} (h : isAsciiWhite c = true) : isSpace c = true := by
  simp only [isAsciiWhite, Bool.or_eq_true, beq_iff_eq] at h
  rcases h with (((rfl | rfl) | rfl) | rfl) | rfl <;> decide

theorem isIdChar_of_isAsciiWhite {c : Char} (h : isAsciiWhite c = true) : isIdChar c = false := by
  simp only [isAsciiWhite, Bool.or_eq_true, beq_iff_eq] at h
  rcases h with (((rfl | rfl) | rfl) | rfl) | rfl <;> decide

theorem rdropWhile_append_rtakeWhile (p : Char → Bool) (s : Text) :
    s.rdropWhile p ++ s.rtakeWhile p = s := by
  rw [List.rdropWhile, List.rtakeWhile, ← List.reverse_append, List.takeWhile_append_dropWhile,
    List.reverse_reverse]

theorem asciiWords_behind (h : asciiWords sql = first :: rest) :
    ∃ behind, sql.dropWhile isAsciiWhite = first.rdropWhile (· == ';') ++ behind ∧
      ∀ c ∈ behind.head?, isIdChar c = false := by
  refine ⟨first.rtakeWhile (· == ';') ++
    (sql.dropWhile isAsciiWhite).dropWhile (fun c => !isAsciiWhite c), ?_, ?_⟩
  · rw [← List.append_assoc, rdropWhile_append_rtakeWhile, asciiWords_first h,
      List.takeWhile_append_dropWhile]
  · intro c hc
    cases hsemicolons : first.rtakeWhile (· == ';') with
    | nil =>
      rw [hsemicolons, List.nil_append] at hc
      have hwhite := List.head?_dropWhile_not (fun c => !isAsciiWhite c) (sql.dropWhile isAsciiWhite)
      rw [Option.mem_def.mp hc] at hwhite
      exact isIdChar_of_isAsciiWhite (by simpa using hwhite)
    | cons d tail =>
      rw [hsemicolons] at hc
      obtain rfl : d = c := Option.some.inj hc
      have hd : (d == ';') = true :=
        List.mem_rtakeWhile_imp (p := (· == ';')) (l := first) (by rw [hsemicolons]; exact List.mem_cons_self)
      rw [beq_iff_eq.mp hd]
      decide

/-- What is neither white space nor the start of a comment is left alone. -/
theorem strip_of_isAlpha {white : Char → Bool} {s tail : Text} {c : Char}
    (h : s.dropWhile white = c :: tail) (hc : c.isAlpha = true) : strip white dashes s = c :: tail := by
  have hdash : '-' ≠ c := fun heq => absurd (heq ▸ hc) (by decide)
  have hslash : '/' ≠ c := fun heq => absurd (heq ▸ hc) (by decide)
  have hnone : afterComment dashes (c :: tail) = none := by
    simp [afterComment, dashes, List.isPrefixOf, hdash, hslash]
  rw [strip, stripWithin, h, hnone]

/-- White space in front, of one kind or of more. -/
theorem dropWhile_of_imp {p q : Char → Bool} (hpq : ∀ c, p c = true → q c = true) {s tail : Text}
    {c : Char} (h : s.dropWhile p = c :: tail) (hc : q c = false) : s.dropWhile q = c :: tail := by
  rw [← List.takeWhile_append_dropWhile (p := p) (l := s), h,
    List.dropWhile_append_of_pos fun x hx => hpq x (List.mem_takeWhile_imp hx),
    List.dropWhile_cons_of_neg (by simp [hc])]

theorem isSpace_of_isAlpha {c : Char} (h : c.isAlpha = true) : isSpace c = false := by
  by_contra hspace
  rw [Bool.not_eq_false] at hspace
  exact absurd (isWhite_of_isSpace hspace) (by simp [isWhite_of_isAlpha h])

/-- **The first word between white space is the one that SQLite reads**, if it is made of letters.
-/
theorem sqlite_word {word : Text} (hne : word ≠ []) (halpha : ∀ c ∈ word, c.isAlpha = true)
    (h : asciiWords sql = first :: rest) (hbare : bare first = word) :
    upper ((sqlite.noise (leading sql)).takeWhile isIdChar) = word := by
  -- the letters of the word, and what stands behind them
  have hletters : ∀ c ∈ first.rdropWhile (· == ';'), c.isAlpha = true := by
    intro c hc
    refine isAlpha_of_toUpper (halpha _ ?_)
    rw [← hbare]
    exact List.mem_map_of_mem hc
  obtain ⟨behind, hsplit, hbehind⟩ := asciiWords_behind h
  cases hword : first.rdropWhile (· == ';') with
  | nil =>
    rw [bare, hword] at hbare
    exact absurd hbare.symm hne
  | cons c tail =>
    rw [hword] at hsplit hletters
    have hc : c.isAlpha = true := hletters c List.mem_cons_self
    have hsemicolon : (c == ';') = false := by
      rw [beq_eq_false_iff_ne]
      rintro rfl
      exact absurd hc (by decide)
    have hleading : leading sql = c :: (tail ++ behind) := by
      refine strip_of_isAlpha (dropWhile_of_imp (fun x hx => ?_) hsplit ?_) hc
      · simp [isSpace_of_isAsciiWhite hx]
      · simp [isSpace_of_isAlpha hc, hsemicolon]
    have hnoise : sqlite.noise (leading sql) = c :: (tail ++ behind) := by
      rw [hleading]
      refine strip_of_isAlpha (List.dropWhile_cons_of_neg ?_) hc
      simp [isSpace_of_isAlpha hc]
    rw [hnoise, ← List.cons_append,
      List.takeWhile_append_of_pos fun x hx => isIdChar_of_isAlpha (hletters x hx)]
    have hend : behind.takeWhile isIdChar = [] := by
      cases behind with
      | nil => rfl
      | cons d behind => exact List.takeWhile_cons_of_neg (by simp [hbehind d rfl])
    rw [hend, List.append_nil, ← hword]
    exact hbare

theorem after_isSome {word : String} {s found : Text}
    (h : upper ((sqlite.noise s).takeWhile isIdChar) = found) :
    (sqlite.after word s).isSome = decide (found = word.toList) := by
  unfold Reading.after
  simp only [h]
  by_cases heq : found = word.toList
  · simp [heq]
  · simp [heq]

/-- The words that the client takes for the end of a transaction. -/
theorem endingWords_letters :
    ∀ word ∈ ["COMMIT".toList, "END".toList, "ROLLBACK".toList],
      word ≠ [] ∧ ∀ c ∈ word, c.isAlpha = true := by
  have hall : ∀ word ∈ ["COMMIT".toList, "END".toList, "ROLLBACK".toList],
      word ≠ [] ∧ word.all Char.isAlpha = true := by
    decide +kernel
  exact fun word hmem => ⟨(hall word hmem).1, List.all_eq_true.mp (hall word hmem).2⟩

theorem sqliteEffect_of_ending {word : Text} (hmem : word ∈ ["COMMIT".toList, "END".toList])
    (h : upper ((sqlite.noise (leading sql)).takeWhile isIdChar) = word) :
    sqliteEffect sql = .ends := by
  have hwords : ∀ word ∈ ["COMMIT".toList, "END".toList],
      (decide (word = "BEGIN".toList) || decide (word = "SAVEPOINT".toList)) = false ∧
        (decide (word = "COMMIT".toList) || decide (word = "END".toList)) = true := by
    decide +kernel
  obtain ⟨hopens, hends⟩ := hwords word hmem
  simp only [sqliteEffect, after_isSome h, hopens, hends]
  rfl

theorem sqliteEffect_of_rollback
    (h : upper ((sqlite.noise (leading sql)).takeWhile isIdChar) = "ROLLBACK".toList) :
    sqliteEffect sql = .ends ∨ sqliteEffect sql = .keeps := by
  have hwords : (decide ("ROLLBACK".toList = "BEGIN".toList) ||
        decide ("ROLLBACK".toList = "SAVEPOINT".toList)) = false ∧
      (decide ("ROLLBACK".toList = "COMMIT".toList) || decide ("ROLLBACK".toList = "END".toList)) =
        false := by
    decide +kernel
  obtain ⟨hopens, hends⟩ := hwords
  have hsome : (sqlite.after "ROLLBACK" (leading sql)).isSome = true := by
    rw [after_isSome h, decide_eq_true rfl]
  obtain ⟨behind, hbehind⟩ := Option.isSome_iff_exists.mp hsome
  simp only [sqliteEffect, after_isSome h, hopens, hends, hbehind]
  by_cases hto : rollsBackTo behind = true
  · simp [hto]
  · simp [hto]

/-- **The client knows of every transaction that is opened by a plain text.** -/
theorem transactionEffect_of_opens (hplain : Plain sql) (h : sqliteEffect sql = .opens) :
    transactionEffect sql = some true := by
  have hmem := hplain.1 h
  rw [transactionEffect]
  rw [wordAt] at hmem
  cases hwords : asciiWords sql with
  | nil =>
    rw [hwords] at hmem
    exact absurd hmem (by decide)
  | cons first rest =>
    rw [hwords] at hmem
    have hfirst : bare first ∈ ["BEGIN".toList, "START".toList, "SAVEPOINT".toList] := by
      rcases List.mem_cons.mp hmem with heq | hmem
      · exact heq ▸ List.mem_cons_self
      · exact List.mem_cons_of_mem _ (List.mem_cons_of_mem _ hmem)
    simp only [if_pos hfirst]

/-- **It takes a plain text for the end of a transaction only if it is.** -/
theorem transactionEffect_ne_false (hplain : Plain sql) (h : sqliteEffect sql ≠ .ends) :
    transactionEffect sql ≠ some false := by
  intro heq
  rw [transactionEffect] at heq
  cases hwords : asciiWords sql with
  | nil =>
    rw [hwords] at heq
    cases heq
  | cons first rest =>
    have hfirst : wordAt sql 0 = bare first := by rw [wordAt, hwords]; rfl
    rw [hwords] at heq
    simp only at heq
    split_ifs at heq with hopens hends hrollback
    · exact absurd heq (by decide)
    · obtain ⟨hne, halpha⟩ := endingWords_letters (bare first)
        (List.mem_append_left ["ROLLBACK".toList] hends)
      exact h (sqliteEffect_of_ending hends (sqlite_word hne halpha hwords rfl))
    · obtain ⟨hne, halpha⟩ := endingWords_letters (bare first) (by rw [hrollback]; decide)
      have hword := sqlite_word hne halpha hwords rfl
      rw [hrollback] at hword
      rcases sqliteEffect_of_rollback hword with heffect | heffect
      · exact h heffect
      · have hto := hplain.2 heffect (hfirst.trans hrollback)
        rw [wordAt, hwords] at hto
        cases rest with
        | nil =>
          have hnext : bare [] = "TO".toList := hto
          exact absurd hnext (by decide)
        | cons next rest =>
          have hnext : bare next = "TO".toList := hto
          simp [hnext] at heq

end Words

/-! ## The session stays -/

/-- The client knows of the transaction, if there is one. -/
def OpenStream.Tracked (s : OpenStream) : Prop :=
  ∀ session ∈ s.owner, session.inTransaction = true → s.inTransaction = true

/-- What is known of the stream, and that its number has been used. -/
structure Conn.Tracks (c : Conn) : Prop where
  tracked : ∀ s ∈ c.stream, s.Tracked
  used : ∀ s ∈ c.stream, s.id < c.dialed

variable {c c' : Conn} {s s' : OpenStream} {request : Request} {answer : Answer} {now : ℕ} {dials : Bool}

/-- A statement that succeeds. -/
theorem tracked_of_runs {response : Response} {before after : Session}
    (hresponse : response = .rows ∨ response = .ok) (hplain : Plain request.sql)
    (hruns : runs request response before after = true) {flag : Bool}
    (hflag : before.inTransaction = true → flag = true) (hafter : after.inTransaction = true) :
    (transactionEffect request.sql).getD flag = true := by
  have hallows : (sqliteEffect request.sql).allows before.inTransaction after.inTransaction = true := by
    rcases hresponse with rfl | rfl <;> exact (Bool.and_eq_true_iff.mp hruns).2
  by_cases hopens : sqliteEffect request.sql = .opens
  · rw [transactionEffect_of_opens hplain hopens, Option.getD_some]
  · have hends : sqliteEffect request.sql ≠ .ends := by
      intro hends
      rw [hends, hafter] at hallows
      cases hallows
    have hbefore : before.inTransaction = true := by
      rw [hafter] at hallows
      cases heffect : sqliteEffect request.sql with
      | opens => exact absurd heffect hopens
      | ends => exact absurd heffect hends
      | keeps | other | mayEnd =>
        rw [heffect] at hallows
        simpa [Effect.allows] using hallows
    cases hread : transactionEffect request.sql with
    | none => exact hflag hbefore
    | some value =>
      cases value with
      | true => rfl
      | false => exact absurd hread (transactionEffect_ne_false hplain hends)

theorem tracked_receive (htracked : s.Tracked) (hplain : Plain request.sql)
    (hanswers : Conn.answers s request answer = true) (h : Conn.receive s request answer = some s') :
    s'.id = s.id ∧ s'.Tracked := by
  cases answer with
  | failed => cases h
  | reply response time after =>
    obtain ⟨before, hbefore, hruns⟩ : ∃ before, s.owner = some before ∧
        runs request response before after = true := by
      cases howner : s.owner with
      | none =>
        rw [Conn.answers, howner] at hanswers
        cases hanswers
      | some before =>
        rw [Conn.answers, howner] at hanswers
        exact ⟨before, rfl, hanswers⟩
    have hflag := htracked before hbefore
    cases response with
    | rows | ok =>
      obtain rfl := Option.some.inj h
      refine ⟨rfl, fun session hsession hafter => ?_⟩
      obtain rfl := Option.some.inj hsession
      exact tracked_of_runs (by simp) hplain hruns hflag hafter
    | lock =>
      obtain rfl := Option.some.inj h
      refine ⟨rfl, fun session hsession hafter => hflag ?_⟩
      obtain rfl := Option.some.inj hsession
      rw [← beq_iff_eq.mp (Bool.and_eq_true_iff.mp hruns).2]
      exact hafter
    | error closed =>
      cases closed with
      | true => cases h
      | false =>
        obtain rfl := Option.some.inj h
        refine ⟨rfl, fun session hsession hafter => hflag ?_⟩
        obtain rfl := Option.some.inj hsession
        simpa [hafter] using (Bool.and_eq_true_iff.mp hruns).2

theorem Conn.reusable_eq_some (h : c.reusable now = some s) :
    c.stream = some s ∧ shouldReplaceIdleStream (now - s.lastUsed) s.inTransaction = false := by
  obtain ⟨hstream, hreplace⟩ := Option.filter_eq_some_iff.mp h
  exact ⟨hstream, by simpa using hreplace⟩

/-- What a request does, on the old stream or on a new one. -/
theorem Conn.Tracks.step (h : c.Tracks) (hstep : SafeStep c c') : c'.Tracks := by
  obtain ⟨e, hsafe, hstep⟩ := hstep
  cases e with
  | ownerCloses =>
    obtain rfl := Option.some.inj hstep
    constructor
    · intro s hs session hsession
      obtain ⟨s₀, -, rfl⟩ := Option.map_eq_some_iff.mp hs
      cases hsession
    · intro s hs
      obtain ⟨s₀, hs₀, rfl⟩ := Option.map_eq_some_iff.mp hs
      exact h.used s₀ hs₀
  | forward now request dials answer =>
    simp only [Conn.step] at hstep
    cases hreusable : c.reusable now with
    | some s =>
      have hstream := (Conn.reusable_eq_some hreusable).1
      simp only [hreusable] at hstep
      split_ifs at hstep with hanswers
      obtain rfl := Option.some.inj hstep
      constructor
      · intro s' hs'
        exact (tracked_receive (h.tracked s hstream) hsafe.1 hanswers hs').2
      · intro s' hs'
        have hid := (tracked_receive (h.tracked s hstream) hsafe.1 hanswers hs').1
        exact hid ▸ h.used s hstream
    | none =>
      simp only [hreusable] at hstep
      split_ifs at hstep with hdials hanswers
      · have hfresh : OpenStream.Tracked ⟨c.dialed, some ⟨false, false⟩, now, false⟩ := by
          intro session hsession htransaction
          obtain rfl := Option.some.inj hsession
          cases htransaction
        obtain rfl := Option.some.inj hstep
        constructor
        · intro s' hs'
          exact (tracked_receive hfresh hsafe.1 hanswers hs').2
        · intro s' hs'
          have hid := (tracked_receive hfresh hsafe.1 hanswers hs').1
          rw [hid]
          exact Nat.lt_succ_self _
      · obtain rfl := Option.some.inj hstep
        constructor <;> intro s hs <;> cases hs

theorem tracks_start : Conn.start.Tracks := by
  constructor <;> intro s hs <;> cases hs

/-- A statement that succeeds, with what the session is afterwards. -/
def succeeds (now : ℕ) (sql : String) (session : Session) : Event :=
  .forward now (.execute sql.toList) true (.reply .ok now session)

/-- What is left behind when the client does not know: a transaction that was opened behind a
comment, one that was rolled back to a savepoint, and a lock. -/
def unnoticed : List (List Event × Conn) :=
  [([succeeds 0 "/* x */ BEGIN" ⟨true, false⟩], ⟨some ⟨0, some ⟨true, false⟩, 0, false⟩, 1⟩),
    ([succeeds 0 "BEGIN" ⟨true, false⟩, succeeds 0 "SAVEPOINT a" ⟨true, false⟩,
        succeeds 0 "ROLLBACK TRANSACTION TO SAVEPOINT a" ⟨true, false⟩],
      ⟨some ⟨0, some ⟨true, false⟩, 0, false⟩, 1⟩),
    ([.forward 0 .lock true (.reply .lock 0 ⟨false, true⟩)],
      ⟨some ⟨0, some ⟨false, true⟩, 0, false⟩, 1⟩)]

/-- Events lead to a connection whose session is engaged, and whose next statement succeeds on
another session. -/
def Replaced (events : List Event) (c : Conn) : Prop :=
  events.foldlM Conn.step Conn.start = some c ∧
    (c.stream.any fun s => s.id == 0 && s.owner.any fun session => decide session.Engaged) = true ∧
    c.target clientStreamMaxIdle = 1 ∧
    c.step (succeeds clientStreamMaxIdle "INSERT INTO t VALUES (1)" ⟨false, false⟩) =
      some ⟨some ⟨1, some ⟨false, false⟩, clientStreamMaxIdle, false⟩, 2⟩

instance (events : List Event) (c : Conn) : Decidable (Replaced events c) :=
  inferInstanceAs (Decidable (_ ∧ _ ∧ _ ∧ _))

end Ephpm.Server.Forwarding
