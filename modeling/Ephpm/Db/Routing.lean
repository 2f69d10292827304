import Mathlib.Logic.Function.Basic
import Ephpm.Lib.Text
import Ephpm.Lib.Endian

/-!
# Routing of commands

With read/write splitting the proxy decides for each command of a client which pool it goes to:
reads to one of the replicas, everything else to the primary.  A client that is in a transaction, or
that has written recently, stays with the primary.  What is done with a prepared statement goes to
the pool on which it was prepared.

**A pool is all that is chosen.**  Which of its connections a command gets is up to the queue.

This is the MySQL proxy.  How bytes are read as a text (`from_utf8`, `from_utf8_lossy`) is a parameter.
-/

namespace Ephpm.Db

open Lib

/-- A sequence of bytes. -/
abbrev Bytes := List UInt8

/-- The id of a prepared statement. -/
abbrev StmtId := ℕ

/-- What a client sends: a packet with its command byte. -/
structure Message where
  tag : UInt8
  body : Bytes
deriving DecidableEq, Repr

/-! ## Command bytes -/

/-- `COM_QUIT`. -/
def comQuit : UInt8 := 0x01

/-- `COM_INIT_DB`. -/
def comInitDb : UInt8 := 0x02

/-- `COM_QUERY`. -/
def comQuery : UInt8 := 0x03

/-- `COM_STMT_PREPARE`. -/
def comStmtPrepare : UInt8 := 0x16

/-- `COM_STMT_EXECUTE`. -/
def comStmtExecute : UInt8 := 0x17

/-- `COM_STMT_SEND_LONG_DATA`. -/
def comStmtSendLongData : UInt8 := 0x18

/-- `COM_STMT_CLOSE`. -/
def comStmtClose : UInt8 := 0x19

/-- `COM_STMT_RESET`. -/
def comStmtReset : UInt8 := 0x1A

/-- `COM_STMT_FETCH`. -/
def comStmtFetch : UInt8 := 0x1C

/-- `parse_stmt_id`: the first four bytes of the body. -/
def parseStmtId (m : Message) : Option StmtId :=
  if m.body.length < 4 then none else some (ofLeBytes (m.body.take 4))

/-! ## Kinds of queries -/

/-- `QueryKind`. -/
inductive QueryKind where
  | read
  | write
  | txBegin
  | txEnd
deriving DecidableEq, Repr

/-- The first word, in upper case. -/
def firstWord (sql : Text) : Text := upper ((trimStart sql).takeWhile fun c => !isAsciiWhite c)

/-- A text with a word in it, in upper or lower case. -/
def mentions (sql : Text) (needle : String) : Bool := needle.toList <:+: upper sql

/-- A query by its first word: the words that read, what makes them write, and the words that end a
transaction. -/
def classify (reading locking ending : List String) (sql : Text) : QueryKind :=
  let word := firstWord sql
  if word ∈ reading.map String.toList then
    if locking.any (mentions sql) then .write else .read
  else if word ∈ ["BEGIN".toList, "START".toList] then .txBegin
  else if word ∈ ending.map String.toList then .txEnd
  else .write

/-- `classify_mysql_query`. -/
def classifyMysqlQuery : Text → QueryKind :=
  classify ["SELECT", "SHOW", "EXPLAIN", "DESCRIBE", "DESC"] ["FOR UPDATE", "FOR SHARE"]
    ["COMMIT", "ROLLBACK"]

/-! ## The proxy -/

/-- `ResetStrategy`. -/
inductive ResetStrategy where
  | always
  | never
  | smart
deriving DecidableEq, Repr

/-- A proxy as it is configured. -/
structure Proxy where
  /-- read/write splitting -/
  enabled : Bool
  stickyDuration : ℕ
  replicas : ℕ
  resetStrategy : ResetStrategy
  text : Bytes → Text

/-- `PoolTarget`. -/
inductive PoolTarget where
  | primary
  | replica (idx : ℕ)
deriving DecidableEq, Repr

/-- `ClientState`, with the map from statements to pools. -/
structure ClientState where
  inTransaction : Bool
  stickyUntil : Option ℕ
  dirty : Bool
  stmtPoolMap : StmtId → Option PoolTarget

/-- A client that has just connected. -/
def ClientState.default : ClientState := ⟨false, none, false, fun _ => none⟩

namespace Proxy

variable (proxy : Proxy) (now replicaRr : ℕ) (state : ClientState)

/-- `select_pool`, and the counter of the replicas afterwards. -/
def selectPool (kind : QueryKind) : PoolTarget × ℕ :=
  if proxy.replicas = 0 then (.primary, replicaRr)
  else if state.inTransaction then (.primary, replicaRr)
  else if state.stickyUntil.any fun sticky => now < sticky then (.primary, replicaRr)
  else if kind = .read then (.replica (replicaRr % proxy.replicas), (replicaRr + 1) % 2 ^ 64)
  else (.primary, replicaRr)

/-- `resolve_pool_target`, of the pool that a statement was prepared on; the primary if there is
none. -/
def statementPool (m : Message) : PoolTarget :=
  match (parseStmtId m).bind state.stmtPoolMap with
  | some (.replica idx) => .replica (idx % proxy.replicas)
  | _ => .primary

/-- `route_command`: the pool and the kind of a command, and the counter of the replicas. -/
def routeCommand (m : Message) : (PoolTarget × QueryKind) × ℕ :=
  if !proxy.enabled || proxy.replicas = 0 then ((.primary, .write), replicaRr)
  else if m.tag = comQuery ∨ m.tag = comStmtPrepare then
    let kind := classifyMysqlQuery (proxy.text m.body)
    let (target, counter) := proxy.selectPool now replicaRr state kind
    ((target, kind), counter)
  else if m.tag = comStmtExecute ∨ m.tag = comStmtSendLongData ∨ m.tag = comStmtFetch then
    let target := proxy.statementPool state m
    ((target, if target = .primary then .write else .read), replicaRr)
  else if m.tag = comStmtClose ∨ m.tag = comStmtReset then
    ((proxy.statementPool state m, .read), replicaRr)
  else ((.primary, .write), replicaRr)

/-- `track_dirty`: what a command tells about the session. -/
def trackDirty (m : Message) (kind : QueryKind) : ClientState :=
  if m.tag = comInitDb then { state with dirty := true }
  else if m.tag = comStmtPrepare ∨ m.tag = comStmtExecute then
    if kind = .write ∨ kind = .txBegin then { state with dirty := true } else state
  else if m.tag = comQuery then
    match classifyMysqlQuery (proxy.text m.body) with
    | .write => { state with dirty := true }
    | .txBegin => { state with inTransaction := true, dirty := true }
    | .txEnd => { state with inTransaction := false }
    | .read => state
  else state

/-- Whether a connection is reset when it is given back. -/
def shouldReset : Bool :=
  match proxy.resetStrategy with
  | .always => true
  | .never => false
  | .smart => state.dirty

end Proxy

/-- The state of a client when a reply is there and its connection is given back. -/
def settled (proxy : Proxy) (now : ℕ) (state : ClientState) (kind : QueryKind) (resetOk : Bool) :
    ClientState :=
  let cleaned := if proxy.shouldReset state && resetOk then { state with dirty := false } else state
  if proxy.enabled ∧ kind = .write then
    { cleaned with stickyUntil := some (now + proxy.stickyDuration) }
  else cleaned

theorem inTransaction_settled (proxy : Proxy) (now : ℕ) (state : ClientState) (kind : QueryKind)
    (resetOk : Bool) : (settled proxy now state kind resetOk).inTransaction = state.inTransaction := by
  simp only [settled]
  split_ifs <;> rfl

/-! ## A small proxy -/

/-- A text in ASCII. -/
def ascii (s : String) : Bytes := s.toList.map fun c => UInt8.ofNat c.toNat

/-- A proxy with one replica, for texts in ASCII. -/
def splitting (resetStrategy : ResetStrategy) : Proxy where
  enabled := true
  stickyDuration := 0
  replicas := 1
  resetStrategy := resetStrategy
  text bytes := bytes.map fun byte => Char.ofNat byte.toNat

end Ephpm.Db
