import Ephpm.Lib.Split
import Ephpm.Server.SnapshotVetting

/-!
# Snapshots

A node that has a copy of a site can send it to another as a text of SQL statements: the definitions
of all objects, then one `INSERT` for every row, with its rowid (`produceSnapshot`).  In front of
the text goes a header with the position in the log that the copy stands at, and the text follows in
chunks, with an empty one at the end (`serveSnapshot`).  A node that has **no file** for the site
answers with a header that says so.

The receiver puts the chunks together again (`readSnapshotBodyWithin`).  It gives up if the sender
announces or sends too much, or stops.  What arrives in full is what was sent
(`readSnapshotBody_full`).

**The engine** is not modelled.  A database is what the queries of the source see of it: the rows of
`sqlite_schema`, the columns that `PRAGMA table_info` lists, and what a query for the rows of a
table gives, which may be an error.
-/

namespace Ephpm.Server

open Lib

/-! ## Databases -/

/-- The kinds of objects in `sqlite_schema`. -/
inductive Kind where
  | table
  | index
  | view
  | trigger
deriving DecidableEq, Repr

/-- A row of `sqlite_schema`.  Indexes that the engine makes for itself have no definition. -/
structure SchemaObject where
  kind : Kind
  name : Text
  sql : Option Text
deriving DecidableEq, Repr

/-- A value of a column.  A real number is known by its shortest text. -/
inductive Value where
  | null
  | integer (i : ℤ)
  | real (finite : Bool) (shortest : Text)
  | text (s : Text)
  | blob (bytes : List UInt8)
deriving DecidableEq, Repr

/-- A row of a table. -/
structure Row where
  rowid : ℤ
  values : List Value
deriving DecidableEq, Repr

/-- A database, as far as it is read for a snapshot. -/
structure Database where
  /-- `sqlite_schema`, by rowid -/
  schema : List SchemaObject
  /-- `PRAGMA table_info` -/
  columns : Text → List Text
  /-- the rows of a table by rowid, or why they cannot be read -/
  rows : Text → Except Text (List Row)
  /-- the greatest change in the log -/
  head : ℤ
  /-- the epoch of the ownership that the copy descends from -/
  epoch : ℕ
  /-- the identity of the log -/
  logId : Text

/-! ## The dump -/

/-- `is_internal_object`. -/
def isInternalObject (name : Text) : Bool :=
  "sqlite_".toList.isPrefixOf name || "__".toList.isPrefixOf name || name == "turso_cdc".toList

/-- `quote_ident`. -/
def quoteIdent (ident : Text) : Text :=
  doubleQuote :: ident.flatMap (fun c => if c = doubleQuote then [c, c] else [c]) ++ [doubleQuote]

/-- The digit of a hexadecimal number, in lower case. -/
def hexDigit (n : ℕ) : Char := Nat.digitChar n

/-- `sql_literal`. -/
def sqlLiteral : Value → Except Text Text
  | .null => .ok "NULL".toList
  | .integer i => .ok (toString i).toList
  | .real finite shortest =>
    if finite then .ok shortest
    else .error ("snapshot: non-finite float cannot be dumped: ".toList ++ shortest)
  | .text s =>
    .ok (quote :: s.flatMap (fun c => if c = quote then [c, c] else [c]) ++ [quote])
  | .blob bytes =>
    .ok ('X' :: quote :: bytes.flatMap (fun b => [hexDigit (b.toNat / 16), hexDigit (b.toNat % 16)]) ++
      [quote])

/-- The objects that go into a snapshot. -/
def Shipped (o : SchemaObject) : Bool :=
  o.sql.isSome && !isInternalObject o.name && o.kind != .trigger

/-- `snapshot_schema`: the definitions, and the tables whose rows follow. -/
def snapshotSchema (db : Database) : Text × List Text :=
  let shipped := db.schema.filter Shipped
  (shipped.flatMap fun o => o.sql.getD [] ++ [';', newline],
    (shipped.filter fun o => o.kind == .table).map (·.name))

/-- Texts with a separator between them. -/
def joined (texts : List Text) : Text := ", ".toList.intercalate texts

/-- The `INSERT` of a row. -/
def rowStatement (table : Text) (cols : List Text) (row : Row) : Except Text Text := do
  let literals ← row.values.mapM sqlLiteral
  pure ("INSERT OR REPLACE INTO ".toList ++ quoteIdent table ++ " (rowid, ".toList ++
    joined (cols.map quoteIdent) ++ ") VALUES (".toList ++ (toString row.rowid).toList ++
    ", ".toList ++ joined literals ++ ");".toList ++ [newline])

/-- `snapshot_table_rows`, with `table_columns`. -/
def snapshotTableRows (db : Database) (table : Text) : Except Text Text := do
  let cols := db.columns table
  if cols.isEmpty then .error ("snapshot: table ".toList ++ table ++ " has no columns".toList)
  else do
    let rows ← db.rows table
    let statements ← rows.mapM (rowStatement table cols)
    pure statements.flatten

/-- `produce_snapshot_inner`. -/
def produceSnapshot (db : Database) : Except Text (ℤ × Text) := do
  let (schema, tables) := snapshotSchema db
  let rows ← tables.mapM (snapshotTableRows db)
  pure (db.head, schema ++ rows.flatten)

/-! ## On the wire -/

/-- `SnapshotHeader`. -/
structure SnapshotHeader where
  watermark : ℤ
  totalLen : ℕ
  logId : Text
  noCopy : Bool
  epoch : ℕ
deriving DecidableEq, Repr

/-- What the receiver gets when it waits for a chunk. -/
inductive ChunkRead where
  | chunk (bytes : List UInt8)
  | failed (reason : Text)
  | stalled
deriving DecidableEq, Repr

/-- What comes of opening a stream of a snapshot. -/
inductive Opening where
  | failed (reason : Text)
  | timedOut
  | opened (header : SnapshotHeader) (body : List ChunkRead)
deriving DecidableEq, Repr

/-- `SNAPSHOT_CHUNK_TARGET`. -/
def snapshotChunkTarget : ℕ := 1024 * 1024

/-- The bytes of a text. -/
def encoded (s : Text) : List UInt8 := (String.ofList s).toUTF8.data.toList

/-- The answer of a peer without a copy. -/
def serveNoCopy : SnapshotHeader × List (List UInt8) := (⟨0, 0, [], true, 0⟩, [[]])

/-- What a node sends: `serve_no_copy` if it has no file for the site, else `serve_snapshot_inner`.
A dump that cannot be produced ends the stream. -/
def serveSnapshot : Option Database → Except Text (SnapshotHeader × List (List UInt8))
  | none => .ok serveNoCopy
  | some db => do
      let (watermark, dump) ← produceSnapshot db
      pure (⟨watermark, (encoded dump).length, db.logId, false, db.epoch⟩,
        chunks snapshotChunkTarget (encoded dump) ++ [[]])

/-- `HANDOFF_BODY_STALL_TIMEOUT`, in seconds. -/
def handoffBodyStallTimeout : ℕ := 30

/-- The loop of `read_snapshot_body_within`: the bytes of the body, and how many were counted. -/
def readChunks (maxSnapshotBytes : ℕ) :
    List ChunkRead → (received : ℕ) → (body : List UInt8) → Except Text (List UInt8 × ℕ)
  | [], _, _ => .error "snapshot: read chunk: unexpected end of file".toList
  | .failed reason :: _, _, _ => .error ("snapshot: read chunk: ".toList ++ reason)
  | .stalled :: _, received, _ =>
    .error ("the peer stopped sending: no snapshot chunk for ".toList ++
      (toString handoffBodyStallTimeout).toList ++ "s after ".toList ++
      (toString received).toList ++ " body bytes".toList)
  | .chunk bytes :: rest, received, body =>
    if bytes.isEmpty then .ok (body, received)
    else
      -- the sum saturates
      let received := min (received + bytes.length) (2 ^ 64 - 1)
      if received ≤ maxSnapshotBytes then readChunks maxSnapshotBytes rest received (body ++ bytes)
      else .error ("snapshot: body exceeded the [db.sqlite.replication] max_snapshot_bytes limit ".toList ++
        "of ".toList ++ (toString maxSnapshotBytes).toList ++
        " (a peer streaming chunks without an end marker would ".toList ++
        "otherwise grow this buffer without bound)".toList)

/-- `read_snapshot_body_within`: the chunks, put together and checked against the header. -/
def readSnapshotBodyWithin (header : SnapshotHeader) (maxSnapshotBytes : ℕ) (body : List ChunkRead) :
    Except Text (Text × ℕ) :=
  if header.totalLen ≤ maxSnapshotBytes then do
    let (bytes, received) ← readChunks maxSnapshotBytes body 0 []
    match String.fromUTF8? ⟨bytes.toArray⟩ with
    | some dump => pure (dump.toList, received)
    | none => .error "snapshot: dump body is not valid utf-8".toList
  else .error ("snapshot: peer announced ".toList ++ (toString header.totalLen).toList ++
    " bytes, above the [db.sqlite.replication] max_snapshot_bytes limit of ".toList ++
    (toString maxSnapshotBytes).toList)

/-! ## What arrives -/

/-- What the network makes of an answer. -/
inductive Delivery where
  /-- no stream, or no header -/
  | lost (reason : Text)
  /-- no header in time -/
  | late
  /-- some chunks arrive, then the stream fails, or stalls if no reason is given -/
  | cut (arrived : ℕ) (reason : Option Text)
  | complete
deriving DecidableEq, Repr

/-- What the receiver sees of what is sent. -/
def deliver (sent : Except Text (SnapshotHeader × List (List UInt8))) : Delivery → Opening
  | .lost reason => .failed reason
  | .late => .timedOut
  | .cut arrived reason =>
    match sent with
    | .ok (header, body) =>
      .opened header ((body.take arrived).map .chunk ++ [reason.elim .stalled .failed])
    | .error e => .failed e
  | .complete =>
    match sent with
    | .ok (header, body) => .opened header (body.map .chunk)
    | .error e => .failed e

/-- The loop adds up chunks until the empty one. -/
theorem readChunks_append {max : ℕ} (hmax : max < 2 ^ 64) {pieces : List (List UInt8)}
    (hne : ∀ piece ∈ pieces, piece ≠ []) (rest : List ChunkRead) (received : ℕ) (body : List UInt8)
    (hfits : received + pieces.flatten.length ≤ max) :
    readChunks max (pieces.map .chunk ++ rest) received body =
      readChunks max rest (received + pieces.flatten.length) (body ++ pieces.flatten) := by
  induction pieces generalizing received body with
  | nil => simp
  | cons piece pieces ih =>
    obtain ⟨hpiece, hpieces⟩ := List.forall_mem_cons.mp hne
    rw [List.flatten_cons, List.length_append] at hfits
    have hsum : min (received + piece.length) (2 ^ 64 - 1) = received + piece.length := by omega
    have hempty : piece.isEmpty = false := by
      rw [Bool.eq_false_iff, Ne, List.isEmpty_iff]
      exact hpiece
    rw [List.map_cons, List.cons_append, readChunks, hempty, if_neg Bool.false_ne_true]
    dsimp only
    rw [hsum, if_pos (by omega), ih hpieces _ (body ++ piece) (by omega), List.flatten_cons,
      List.length_append, List.append_assoc, Nat.add_assoc]

/-- Chunks that are not empty are added up, or it fails. -/
theorem readChunks_ok_of_append {max : ℕ} {pieces : List (List UInt8)} {rest : List ChunkRead}
    (hne : ∀ piece ∈ pieces, piece ≠ []) {received : ℕ} {body : List UInt8} {out : List UInt8 × ℕ}
    (h : readChunks max (pieces.map .chunk ++ rest) received body = .ok out) :
    ∃ received', readChunks max rest received' (body ++ pieces.flatten) = .ok out := by
  induction pieces generalizing received body with
  | nil => exact ⟨received, by simpa using h⟩
  | cons piece pieces ih =>
    obtain ⟨hpiece, hpieces⟩ := List.forall_mem_cons.mp hne
    have hempty : piece.isEmpty = false := by
      rw [Bool.eq_false_iff, Ne, List.isEmpty_iff]
      exact hpiece
    rw [List.map_cons, List.cons_append, readChunks, hempty, if_neg Bool.false_ne_true] at h
    dsimp only at h
    split at h
    · obtain ⟨received', hrest⟩ := ih hpieces h
      exact ⟨received', by rw [List.flatten_cons, ← List.append_assoc]; exact hrest⟩
    · cases h

theorem readChunks_cut {max : ℕ} {pieces : List (List UInt8)} (hne : ∀ piece ∈ pieces, piece ≠ [])
    (reason : Option Text) (received : ℕ) (body : List UInt8) (out : List UInt8 × ℕ) :
    readChunks max (pieces.map .chunk ++ [reason.elim .stalled .failed]) received body ≠ .ok out := by
  intro h
  obtain ⟨received', hend⟩ := readChunks_ok_of_append hne h
  cases reason with
  | none => exact absurd hend (by simp [readChunks])
  | some reason => exact absurd hend (by simp [readChunks])

theorem serveSnapshot_of_dump {db : Database} {watermark : ℤ} {dump : Text}
    (h : produceSnapshot db = .ok (watermark, dump)) :
    serveSnapshot (some db) = .ok (⟨watermark, (encoded dump).length, db.logId, false, db.epoch⟩,
      chunks snapshotChunkTarget (encoded dump) ++ [[]]) := by
  rw [serveSnapshot, h]
  rfl

/-- **What arrives in full is what was sent**, whatever comes behind, if it is not too much. -/
theorem readSnapshotBody_full {max : ℕ} (hmax : max < 2 ^ 64) {dump : Text} {header : SnapshotHeader}
    (hlen : header.totalLen = (encoded dump).length) (hfits : (encoded dump).length ≤ max)
    (rest : List ChunkRead) :
    readSnapshotBodyWithin header max
      ((chunks snapshotChunkTarget (encoded dump) ++ [[]]).map .chunk ++ rest) =
      .ok (dump, header.totalLen) := by
  have hsize : snapshotChunkTarget ≠ 0 := by decide
  obtain ⟨hflat, hne⟩ := chunks_spec hsize (encoded dump)
  have hread := readChunks_append hmax hne (.chunk [] :: rest) 0 []
    (by rw [hflat, Nat.zero_add]; exact hfits)
  rw [hflat, Nat.zero_add, List.nil_append] at hread
  have hutf : String.fromUTF8? ⟨(encoded dump).toArray⟩ = some (String.ofList dump) :=
    Utf8.fromUTF8_toUTF8 (String.ofList dump)
  rw [readSnapshotBodyWithin, if_pos (hlen.trans_le hfits), List.map_append, List.append_assoc,
    List.map_singleton, List.singleton_append, hread]
  show (match String.fromUTF8? ⟨(encoded dump).toArray⟩ with | some dump => _ | none => _) = _
  rw [hutf]
  show Except.ok ((String.ofList dump).toList, _) = _
  rw [String.toList_ofList, hlen]

end Ephpm.Server
