import Ephpm.Bridge.Reading
import Ephpm.Db.Routing
import Ephpm.Lib.Path

/-!
# Reading what was written

Replicas lag behind.  With read/write splitting a client should not notice: inside a transaction
everything goes to the primary, and for some time after a write reads do as well.  This module
follows one client through its queries, with the state that the proxy has of it, and with what is
true of it: whether a transaction is open and has written, when the client last wrote, and when it
last committed what it wrote (`Client`).

What is true is decided by the server, which reads the whole text (`mysqlEffect`).  The proxy reads
one word, and so **it loses track** in a few cases.

* `ROLLBACK TO SAVEPOINT` starts like the end of a transaction, and so does `COMMIT AND CHAIN`.
* `BEGIN;` is not `BEGIN`, nor is a `BEGIN` behind a comment.
* A `COMMIT` is no write.  The time during which reads stay with the primary counts from the last
  write in the transaction, and may be over by then.

With the exception of such queries (`Client.Harmless`) what was written is read
(`read_your_writes`).
-/

namespace Ephpm.Db

open Lib Bridge

/-! ## What the server reads -/

/-- What a query does to the transaction of a client. -/
inductive QueryEffect
  | opens
  | ends (commit : Bool)
  /-- the next transaction begins at once -/
  | chains (commit : Bool)
  /-- savepoints -/
  | keeps
  | other
deriving DecidableEq, Repr

/-- Behind a word that may be missing. -/
def optional (word : String) (sql : Text) : Text := (mysql.after word sql).getD sql

/-- The rest of a `COMMIT` or `ROLLBACK`. -/
def ending (commit : Bool) (rest : Text) : QueryEffect :=
  if ((mysql.after "AND" (optional "WORK" rest)).bind (mysql.after "CHAIN")).isSome then .chains commit
  else .ends commit

/-- **What MySQL reads.** -/
def mysqlEffect (sql : Text) : QueryEffect :=
  if (mysql.after "BEGIN" sql).isSome then .opens
  else if ((mysql.after "START" sql).bind (mysql.after "TRANSACTION")).isSome then .opens
  else if (mysql.after "SAVEPOINT" sql).isSome || (mysql.after "RELEASE" sql).isSome then .keeps
  else match mysql.after "COMMIT" sql, mysql.after "ROLLBACK" sql with
    | some rest, _ => ending true rest
    | none, some rest =>
      if (mysql.after "TO" (optional "WORK" rest)).isSome then .keeps else ending false rest
    | none, none => .other

/-- Whether there may be a transaction before and after a query that succeeds.  Statements that are
not about transactions may end one, and may begin one if the server is told to. -/
def QueryEffect.allows (before after : Bool) : QueryEffect → Bool
  | opens | chains _ => after
  | ends _ => !after
  | keeps => after == before
  | other => true

/-! ## A client -/

/-- A query with what comes of it. -/
structure Query where
  /-- when it is sent -/
  now : ℕ
  /-- when the reply is there -/
  done : ℕ
  /-- the counter of the replicas, which other clients use too -/
  replicaRr : ℕ
  body : Bytes
  succeeds : Bool
  /-- data was changed -/
  wrote : Bool
  /-- a transaction is open afterwards -/
  inTransaction : Bool
  resetOk : Bool
deriving DecidableEq, Repr

/-- A client as the proxy knows it, and as it is. -/
structure Client where
  state : ClientState
  now : ℕ
  /-- an open transaction, and whether something was written in it -/
  transaction : Option Bool
  lastWrite : Option ℕ
  /-- the last `COMMIT` of a transaction in which something was written -/
  lastCommit : Option ℕ

namespace Client

/-- A client that has sent nothing. -/
def start : Client := ⟨.default, 0, none, none, none⟩

variable (proxy : Proxy) (c : Client) (q : Query)

/-- The query as a message. -/
def message : Message := ⟨comQuery, q.body⟩

/-- Where the query goes. -/
def target : PoolTarget := (proxy.routeCommand q.now q.replicaRr c.state (message q)).1.1

/-- What the proxy takes it for. -/
def kind : QueryKind := (proxy.routeCommand q.now q.replicaRr c.state (message q)).1.2

/-- The effect of the query, if it succeeds. -/
def effect : QueryEffect := mysqlEffect (proxy.text q.body)

/-- What the server may do. -/
def allowed : Bool :=
  if q.succeeds then (effect proxy q).allows c.transaction.isSome q.inTransaction
  else !q.inTransaction || c.transaction.isSome

/-- Whether the transaction that is open afterwards, if any, has written. -/
def transactionAfter : Option Bool :=
  if !q.inTransaction then none
  else match q.succeeds, effect proxy q with
    | true, .opens | true, .chains _ => some false
    | _, _ => some (c.transaction.getD false || q.wrote)

/-- The query commits what was written in a transaction. -/
def commits : Bool :=
  q.succeeds && c.transaction == some true &&
    (effect proxy q == .ends true || effect proxy q == .chains true)

/-- What a query of `proxy_routing_loop` does. -/
def after : Client where
  state := settled proxy q.done (proxy.trackDirty c.state (message q) (c.kind proxy q))
    (c.kind proxy q) q.resetOk
  now := q.done
  transaction := c.transactionAfter proxy q
  lastWrite := if q.wrote then some q.done else c.lastWrite
  lastCommit := if c.commits proxy q then some q.done else c.lastCommit

/-- A query is sent and answered. -/
def step : Option Client :=
  if c.now ≤ q.now ∧ q.now ≤ q.done ∧ c.allowed proxy q = true then some (c.after proxy q) else none

/-- Some time ago, but not longer than reads stay with the primary. -/
def recent (time : Option ℕ) : Prop := ∃ t ∈ time, q.now < t + proxy.stickyDuration

instance (time : Option ℕ) : Decidable (recent proxy q time) :=
  inferInstanceAs (Decidable (∃ t ∈ time, _))

/-- The words with which a query reads. -/
def readingWords : List Text :=
  ["SELECT".toList, "SHOW".toList, "EXPLAIN".toList, "DESCRIBE".toList, "DESC".toList]

/-- A query that starts with one of these words and does not lock what it reads. -/
def reads (sql : Text) : Bool :=
  firstWord sql ∈ readingWords && !mentions sql "FOR UPDATE" && !mentions sql "FOR SHARE"

/-- A query of which the proxy can tell what it has to know. -/
structure Harmless : Prop where
  /-- if there is a transaction afterwards, it starts with `BEGIN` or `START`, or there was one before and it does
  not start with `COMMIT` or `ROLLBACK` -/
  transaction : q.inTransaction = true →
    firstWord (proxy.text q.body) ∈ ["BEGIN".toList, "START".toList] ∨
      c.transaction.isSome = true ∧
        firstWord (proxy.text q.body) ∉ ["COMMIT".toList, "ROLLBACK".toList]
  /-- what changes data starts with other words -/
  wrote : q.wrote = true → reads (proxy.text q.body) = false ∧
    firstWord (proxy.text q.body) ∉
      ["BEGIN".toList, "START".toList, "COMMIT".toList, "ROLLBACK".toList]
  /-- what is read after a recent commit is read after a recent write -/
  commit : c.transaction = none → reads (proxy.text q.body) = true →
    recent proxy q c.lastCommit → recent proxy q c.lastWrite

instance : Decidable (c.Harmless proxy q) :=
  decidable_of_iff (_ ∧ _ ∧ _) ⟨fun h => ⟨h.1, h.2.1, h.2.2⟩, fun h => ⟨h.1, h.2, h.3⟩⟩

/-- A step under the condition. -/
def HarmlessStep (c c' : Client) : Prop := ∃ q, c.Harmless proxy q ∧ c.step proxy q = some c'

variable {proxy c q} {c' : Client} {sql : Text}

/-! ## What the proxy reads -/

theorem classify_of_begin (h : firstWord sql ∈ ["BEGIN".toList, "START".toList]) :
    classifyMysqlQuery sql = .txBegin := by
  have hreading : firstWord sql ∉
      ["SELECT", "SHOW", "EXPLAIN", "DESCRIBE", "DESC"].map String.toList := by
    have hwords : ∀ word ∈ ["BEGIN".toList, "START".toList],
        word ∉ ["SELECT", "SHOW", "EXPLAIN", "DESCRIBE", "DESC"].map String.toList := by
      decide +kernel
    exact hwords _ h
  simp only [classifyMysqlQuery, classify, if_neg hreading, if_pos h]

theorem classify_ne_txEnd (h : firstWord sql ∉ ["COMMIT".toList, "ROLLBACK".toList]) :
    classifyMysqlQuery sql ≠ .txEnd := by
  have hending : firstWord sql ∉ ["COMMIT", "ROLLBACK"].map String.toList := h
  simp only [classifyMysqlQuery, classify, if_neg hending]
  split_ifs <;> decide

/-- A query is taken for a read exactly if it starts like one. -/
theorem classify_eq_read : classifyMysqlQuery sql = .read ↔ reads sql = true := by
  have hreading : ["SELECT", "SHOW", "EXPLAIN", "DESCRIBE", "DESC"].map String.toList = readingWords := rfl
  simp only [classifyMysqlQuery, classify, hreading, reads, List.any_cons, List.any_nil, Bool.or_false]
  by_cases hword : firstWord sql ∈ readingWords
  · cases hupdate : mentions sql "FOR UPDATE" <;> cases hshare : mentions sql "FOR SHARE" <;>
      simp [hword]
  · rw [if_neg hword]
    simp only [hword, decide_false, Bool.false_and, Bool.false_eq_true, iff_false]
    split_ifs <;> decide

theorem classify_of_wrote (hreads : reads sql = false)
    (h : firstWord sql ∉ ["BEGIN".toList, "START".toList, "COMMIT".toList, "ROLLBACK".toList]) :
    classifyMysqlQuery sql = .write := by
  have hread : classifyMysqlQuery sql ≠ .read := by
    rw [Ne, classify_eq_read, hreads]
    exact Bool.false_ne_true
  have hend : classifyMysqlQuery sql ≠ .txEnd :=
    classify_ne_txEnd fun hmem => h (List.mem_cons_of_mem _ (List.mem_cons_of_mem _ hmem))
  have hbegin : firstWord sql ∉ ["BEGIN".toList, "START".toList] :=
    fun hmem => h (List.mem_append_left ["COMMIT".toList, "ROLLBACK".toList] hmem)
  revert hread hend
  simp only [classifyMysqlQuery, classify, if_neg hbegin]
  split_ifs <;> simp

/-! ## What the proxy knows -/

theorem stickyUntil_settled (now : ℕ) (kind : QueryKind) (resetOk : Bool) (state : ClientState) :
    (settled proxy now state kind resetOk).stickyUntil =
      if proxy.enabled ∧ kind = .write then some (now + proxy.stickyDuration) else state.stickyUntil := by
  simp only [settled]
  split_ifs <;> rfl

theorem trackDirty_message (state : ClientState) (kind : QueryKind) :
    proxy.trackDirty state (message q) kind =
      match classifyMysqlQuery (proxy.text q.body) with
      | .write => { state with dirty := true }
      | .txBegin => { state with inTransaction := true, dirty := true }
      | .txEnd => { state with inTransaction := false }
      | .read => state := by
  rfl

theorem stickyUntil_trackDirty (state : ClientState) (kind : QueryKind) :
    (proxy.trackDirty state (message q) kind).stickyUntil = state.stickyUntil := by
  rw [trackDirty_message]
  cases classifyMysqlQuery (proxy.text q.body) <;> rfl

theorem kind_of_enabled (h : (!proxy.enabled || decide (proxy.replicas = 0)) = false) :
    c.kind proxy q = classifyMysqlQuery (proxy.text q.body) := by
  simp only [kind, Proxy.routeCommand, h]
  rfl

theorem kind_of_write (h : classifyMysqlQuery (proxy.text q.body) = .write) :
    c.kind proxy q = .write := by
  by_cases hsplit : (!proxy.enabled || decide (proxy.replicas = 0)) = true
  · simp only [kind, Proxy.routeCommand, hsplit, if_true]
  · rw [kind_of_enabled (Bool.eq_false_iff.mpr hsplit), h]

/-- What the proxy knows of a client. -/
structure Known (proxy : Proxy) (c : Client) : Prop where
  transaction : c.transaction.isSome = true → c.state.inTransaction = true
  sticky : proxy.enabled = true → ∀ w ∈ c.lastWrite,
    ∃ sticky ∈ c.state.stickyUntil, w + proxy.stickyDuration ≤ sticky
  past : ∀ w ∈ c.lastWrite, w ≤ c.now

theorem known_start (proxy : Proxy) : Known proxy start := by
  refine ⟨fun h => ?_, fun _ w hw => ?_, fun w hw => ?_⟩
  · cases h
  · cases hw
  · cases hw

/-- A transaction that is open after a harmless query is known. -/
theorem inTransaction_trackDirty (h : Known proxy c) (hharmless : c.Harmless proxy q)
    (hopen : q.inTransaction = true) (kind : QueryKind) :
    (proxy.trackDirty c.state (message q) kind).inTransaction = true := by
  rw [trackDirty_message]
  rcases hharmless.transaction hopen with hbegin | ⟨hbefore, hend⟩
  · rw [classify_of_begin hbegin]
  · have hknown := h.transaction hbefore
    have hne := classify_ne_txEnd hend
    cases hkind : classifyMysqlQuery (proxy.text q.body) with
    | txEnd => exact absurd hkind hne
    | txBegin => rfl
    | write | read => exact hknown

theorem mem_lastWrite_after {w : ℕ} (h : w ∈ (c.after proxy q).lastWrite) :
    q.wrote = true ∧ w = q.done ∨ w ∈ c.lastWrite := by
  simp only [after] at h
  split_ifs at h with hwrote
  · exact Or.inl ⟨hwrote, (Option.some.inj h).symm⟩
  · exact Or.inr h

theorem Known.step (h : Known proxy c) (hstep : HarmlessStep proxy c c') : Known proxy c' := by
  obtain ⟨q, hharmless, hstep⟩ := hstep
  simp only [Client.step] at hstep
  split_ifs at hstep with hallowed
  obtain ⟨hnow, hdone, -⟩ := hallowed
  obtain rfl := Option.some.inj hstep
  have hpast : ∀ w ∈ (c.after proxy q).lastWrite, w ≤ q.done := by
    intro w hw
    rcases mem_lastWrite_after hw with ⟨-, rfl⟩ | hw
    · exact le_rfl
    · exact (h.past w hw).trans (hnow.trans hdone)
  refine ⟨fun hsome => ?_, fun henabled w hw => ?_, hpast⟩
  · refine (inTransaction_settled ..).trans (inTransaction_trackDirty h hharmless ?_ _)
    by_contra hclosed
    simp [after, transactionAfter, Bool.eq_false_iff.mpr hclosed] at hsome
  · have hsticky : (c.after proxy q).state.stickyUntil = if proxy.enabled ∧ c.kind proxy q = .write
        then some (q.done + proxy.stickyDuration) else c.state.stickyUntil := by
      rw [after, stickyUntil_settled, stickyUntil_trackDirty]
    rw [hsticky]
    by_cases hwrite : c.kind proxy q = .write
    · rw [if_pos ⟨henabled, hwrite⟩]
      exact ⟨_, rfl, Nat.add_le_add_right (hpast w hw) _⟩
    · rw [if_neg fun hand => hwrite hand.2]
      rcases mem_lastWrite_after hw with ⟨hwrote, -⟩ | hw
      · obtain ⟨hreads, hwords⟩ := hharmless.wrote hwrote
        exact absurd (kind_of_write (classify_of_wrote hreads hwords)) hwrite
      · exact h.sticky henabled w hw

/-! ## Where queries go -/

/-- A query goes to a replica only outside of transactions, when reads no longer stay with the
primary. -/
theorem target_eq_primary (h : c.state.inTransaction = true ∨
      (∃ sticky ∈ c.state.stickyUntil, q.now < sticky) ∨ reads (proxy.text q.body) = false) :
    c.target proxy q = .primary := by
  by_cases hsplit : (!proxy.enabled || decide (proxy.replicas = 0)) = true
  · simp only [target, Proxy.routeCommand, hsplit, if_true]
  · have htarget : c.target proxy q = (proxy.selectPool q.now q.replicaRr c.state
        (classifyMysqlQuery (proxy.text q.body))).1 := by
      simp only [target, Proxy.routeCommand, Bool.eq_false_iff.mpr hsplit]
      rfl
    rw [htarget, Proxy.selectPool]
    split_ifs with hreplicas htransaction hsticky hread
    · rfl
    · rfl
    · rfl
    · rcases h with h | ⟨sticky, hmem, hlt⟩ | h
      · exact absurd h htransaction
      · rw [Option.mem_def.mp hmem] at hsticky
        exact absurd (decide_eq_true hlt) hsticky
      · rw [classify_eq_read, h] at hread
        cases hread
    · rfl

end Client

open Client

variable {proxy : Proxy} {c : Client}

/-- **In every run of harmless queries, each query inside an open transaction goes to the primary,
and so does each that follows a write, or the `COMMIT` of a transaction with one, closely enough.**
-/
theorem read_your_writes {q : Query} (run : Path (HarmlessStep proxy) start c)
    (hharmless : c.Harmless proxy q) :
    (c.transaction.isSome = true → c.target proxy q = .primary) ∧
    (recent proxy q c.lastWrite ∨ recent proxy q c.lastCommit → c.target proxy q = .primary) := by
  have hknown : Known proxy c := Path.preserves (fun _ _ h hstep => h.step hstep) run (known_start proxy)
  have hopen : c.transaction.isSome = true → c.target proxy q = .primary :=
    fun hsome => target_eq_primary (Or.inl (hknown.transaction hsome))
  have hwrite : recent proxy q c.lastWrite → c.target proxy q = .primary := by
    rintro ⟨w, hw, hlt⟩
    by_cases henabled : proxy.enabled = true
    · obtain ⟨sticky, hsticky, hle⟩ := hknown.sticky henabled w hw
      exact target_eq_primary (Or.inr (Or.inl ⟨sticky, hsticky, hlt.trans_le hle⟩))
    · simp [target, Proxy.routeCommand, henabled]
  refine ⟨hopen, ?_⟩
  rintro (hrecent | hrecent)
  · exact hwrite hrecent
  · cases htransaction : c.transaction with
    | some wrote => exact hopen (by rw [htransaction]; rfl)
    | none =>
      by_cases hreads : reads (proxy.text q.body) = true
      · exact hwrite (hharmless.commit htransaction hreads hrecent)
      · exact target_eq_primary (Or.inr (Or.inr (Bool.eq_false_iff.mpr hreads)))

/-- A MySQL proxy whose reads stay with the primary for 100 time units. -/
def stickyProxy : Proxy := { splitting .smart with stickyDuration := 100 }

/-- A query that succeeds at once. -/
def queryAt (now : ℕ) (sql : String) (wrote inTransaction : Bool) : Query :=
  ⟨now, now, 0, ascii sql, true, wrote, inTransaction, true⟩

/-- A transaction with a write, and a read 30 time units after its `COMMIT`. -/
theorem read_your_writes_committed :
    let read := queryAt 50 "SELECT 1" false false
    ∃ c : Client, Path (HarmlessStep stickyProxy) start c ∧ c.lastWrite = some 10 ∧
      c.lastCommit = some 20 ∧ recent stickyProxy read c.lastCommit ∧
      c.target stickyProxy read = .primary := by
  intro read
  let queries := [queryAt 0 "BEGIN" false true, queryAt 10 "INSERT INTO t VALUES (1)" true true,
    queryAt 20 "COMMIT" false false]
  let outcome := queries.foldlM (fun (c : Client) q =>
    if c.Harmless stickyProxy q then c.step stickyProxy q else none) start
  have houtcome : outcome.map (fun c => (decide (c.Harmless stickyProxy read), c.lastWrite,
      c.lastCommit, decide (recent stickyProxy read c.lastCommit))) =
        some (true, some 10, some 20, true) := by
    decide +kernel
  obtain ⟨c, hc, hfacts⟩ := Option.map_eq_some_iff.mp houtcome
  simp only [Prod.mk.injEq, decide_eq_true_eq] at hfacts
  obtain ⟨hharmless, hwrite, hcommit, hrecent⟩ := hfacts
  have run := Path.of_guarded_foldlM hc
  exact ⟨c, run, hwrite, hcommit, hrecent, (read_your_writes run hharmless).2 (.inr hrecent)⟩

/-- Queries after which the proxy is wrong about the client, and the next one: the transaction goes
on after `ROLLBACK TO`, it has been opened with a semicolon, and it has lasted long before the
`COMMIT`. -/
def misjudged : List (List Query × Query) :=
  [([queryAt 0 "BEGIN" false true, queryAt 0 "SAVEPOINT a" false true,
        queryAt 0 "ROLLBACK TO SAVEPOINT a" false true], queryAt 200 "SELECT 1" false true),
    ([queryAt 0 "BEGIN;" false true], queryAt 200 "SELECT 1" false true),
    ([queryAt 0 "BEGIN" false true, queryAt 0 "INSERT INTO t VALUES (1)" true true,
        queryAt 200 "COMMIT" false false], queryAt 201 "SELECT 1" false false)]

/-- The query goes to a replica, although the transaction is open or was committed just now. -/
def ReadsReplica (queries : List Query) (next : Query) : Prop :=
  ∃ c : Client, queries.foldlM (Client.step stickyProxy) start = some c ∧
    (c.transaction.isSome = true ∨ recent stickyProxy next c.lastCommit) ∧
    c.target stickyProxy next = .replica 0 ∧ (c.step stickyProxy next).isSome = true

/-- **The next query goes to a replica.** -/
theorem read_from_replica : misjudged.Forall fun entry => ReadsReplica entry.1 entry.2 := by
  refine List.forall_iff_forall_mem.mpr ?_
  intro entry hentry
  have hall : ∀ entry ∈ misjudged, (entry.1.foldlM (Client.step stickyProxy) start).map (fun c =>
      (decide (c.transaction.isSome = true ∨ recent stickyProxy entry.2 c.lastCommit),
        c.target stickyProxy entry.2, (c.step stickyProxy entry.2).isSome)) =
      some (true, .replica 0, true) := by
    decide +kernel
  obtain ⟨c, hc, hfacts⟩ := Option.map_eq_some_iff.mp (hall entry hentry)
  obtain ⟨hopen, htarget, hstep⟩ := Prod.mk.inj hfacts |>.imp_right Prod.mk.inj
  exact ⟨c, hc, of_decide_eq_true hopen, htarget, hstep⟩

end Ephpm.Db
