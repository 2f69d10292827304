import Ephpm.Db.ReadYourWrites

/-!
# Several statements in one text

A query may have several statements, one behind the other.  Whether it may go to a replica depends
on all of them, and so does whether the connection has to be reset before somebody else gets it.
The proxy looks at **the first word of the text**, and so what comes behind a `SELECT` goes to a
replica with it, and leaves what it leaves on the connection (`strong_text_passes`).

A text is safe exactly if its first word is neither that of a plain read nor `COMMIT` nor `ROLLBACK`
(`strong_text_safe_iff`), whatever comes behind it.  For the latter two the routing
loop sees no reason for a reset, while the other loop, which only looks out for writes, does
(`writeish`).
-/

namespace Ephpm.Db

open Lib Bridge Client

/-- `COM_PING`. -/
def comPing : UInt8 := 0x0E

/-- What makes a session dirty in `proxy_bidirectional_sniff`. -/
def writeish (proxy : Proxy) (m : Message) : Bool :=
  if m.tag = comPing then false
  else if m.tag = comQuery then classifyMysqlQuery (proxy.text m.body) ≠ .read
  else true

/-- A statement that only reads and locks nothing. -/
def plainRead (stmt : Text) : Bool :=
  (["SELECT", "SHOW", "DESCRIBE", "DESC", "EXPLAIN"].any fun word => (mysql.after word stmt).isSome) &&
    !mentions stmt "FOR UPDATE" && !mentions stmt "FOR SHARE"

/-- A text with a statement that is something else, by the server's reading. -/
def Strong (sql : Text) : Prop :=
  ∃ stmt ∈ mysql.statements sql, mysql.noise stmt ≠ [] ∧ plainRead stmt = false

instance (sql : Text) : Decidable (Strong sql) := inferInstanceAs (Decidable (∃ stmt ∈ _, _))

/-- **A text is safe** if a query with it never goes to a replica, and if with the smart strategy
the connection is reset afterwards, whatever the state of the client and whichever loop has it. -/
def Safe (sql : Text) : Prop :=
  ∀ (proxy : Proxy) (now replicaRr : ℕ) (state : ClientState) (body : Bytes), proxy.text body = sql →
    (∀ idx, (proxy.routeCommand now replicaRr state ⟨comQuery, body⟩).1.1 ≠ .replica idx) ∧
    (proxy.resetStrategy = .smart →
      proxy.shouldReset (proxy.trackDirty state ⟨comQuery, body⟩
        (proxy.routeCommand now replicaRr state ⟨comQuery, body⟩).1.2) = true ∧
      writeish proxy ⟨comQuery, body⟩ = true)

variable {sql : Text}

/-- A proxy with one replica to which every query is this text. -/
def readingAs (sql : Text) : Proxy := { splitting .smart with text := fun _ => sql }

theorem routes_to_replica (h : reads sql = true) :
    ((readingAs sql).routeCommand 0 0 .default ⟨comQuery, []⟩).1.1 = .replica 0 := by
  have hkind : classifyMysqlQuery sql = .read := classify_eq_read.mpr h
  show ((readingAs sql).selectPool 0 0 .default (classifyMysqlQuery sql)).1 = .replica 0
  rw [hkind]
  rfl

theorem classify_of_ending (h : firstWord sql ∈ ["COMMIT".toList, "ROLLBACK".toList]) :
    classifyMysqlQuery sql = .txEnd := by
  have hwords : ∀ word ∈ ["COMMIT".toList, "ROLLBACK".toList],
      word ∉ ["SELECT", "SHOW", "EXPLAIN", "DESCRIBE", "DESC"].map String.toList ∧
        word ∉ ["BEGIN".toList, "START".toList] := by
    decide +kernel
  obtain ⟨hreading, hbegin⟩ := hwords _ h
  have hending : firstWord sql ∈ ["COMMIT", "ROLLBACK"].map String.toList := h
  simp only [classifyMysqlQuery, classify, if_neg hreading, if_neg hbegin, if_pos hending]

/-- After the end of a transaction the client is as clean as before. -/
theorem not_reset_after_ending (h : firstWord sql ∈ ["COMMIT".toList, "ROLLBACK".toList])
    (kind : QueryKind) :
    (readingAs sql).shouldReset ((readingAs sql).trackDirty .default ⟨comQuery, []⟩ kind) = false := by
  have htrack : (readingAs sql).trackDirty .default ⟨comQuery, []⟩ kind =
      { ClientState.default with inTransaction := false } := by
    have hkind : classifyMysqlQuery ((readingAs sql).text []) = .txEnd := classify_of_ending h
    simp only [Proxy.trackDirty, hkind]
    rfl
  rw [htrack]
  rfl

/-- A query of which the proxy knows that it is no read and not the end of a transaction. -/
theorem dirty_after (hreads : reads sql = false)
    (hending : firstWord sql ∉ ["COMMIT".toList, "ROLLBACK".toList]) {proxy : Proxy} {body : Bytes}
    (htext : proxy.text body = sql) (state : ClientState) (kind : QueryKind) :
    (proxy.trackDirty state ⟨comQuery, body⟩ kind).dirty = true := by
  have hread : classifyMysqlQuery sql ≠ .read := by
    rw [Ne, classify_eq_read, hreads]
    exact Bool.false_ne_true
  have hend := classify_ne_txEnd hending
  cases hkind : classifyMysqlQuery sql with
  | read => exact absurd hkind hread
  | txEnd => exact absurd hkind hend
  | write | txBegin =>
    simp only [Proxy.trackDirty, htext, hkind]
    rfl

/-- **A text, and so one with a statement that is no plain read, is safe exactly if it does not start
with the word of a plain read, nor with `COMMIT` or `ROLLBACK`.** -/
theorem strong_text_safe_iff (sql : Text) :
    Safe sql ↔ reads sql = false ∧ firstWord sql ∉ ["COMMIT".toList, "ROLLBACK".toList] := by
  constructor
  · intro hsafe
    obtain ⟨htarget, hreset⟩ := hsafe (readingAs sql) 0 0 .default [] rfl
    constructor
    · by_contra hreads
      exact htarget 0 (routes_to_replica (Bool.not_eq_false _ ▸ hreads))
    · intro hending
      have hdirty := (hreset rfl).1
      rw [not_reset_after_ending hending] at hdirty
      cases hdirty
  · rintro ⟨hreads, hending⟩ proxy now replicaRr state body htext
    constructor
    · intro idx heq
      have hprimary : (proxy.routeCommand now replicaRr state ⟨comQuery, body⟩).1.1 = .primary :=
        target_eq_primary (c := ⟨state, 0, none, none, none⟩)
          (q := ⟨now, now, replicaRr, body, true, true, true, true⟩)
          (Or.inr (Or.inr (htext.symm ▸ hreads)))
      rw [hprimary] at heq
      cases heq
    · intro hsmart
      have hdirty := dirty_after hreads hending htext state
      refine ⟨by rw [Proxy.shouldReset, hsmart]; exact hdirty _, ?_⟩
      have hread : classifyMysqlQuery (proxy.text body) ≠ .read := by
        rw [htext, Ne, classify_eq_read, hreads]
        exact Bool.false_ne_true
      show decide (classifyMysqlQuery (proxy.text body) ≠ .read) = true
      exact decide_eq_true hread

/-- A write in front. -/
theorem strong_text_safe_update :
    Strong "UPDATE t SET x = 1; SELECT 1".toList ∧ Safe "UPDATE t SET x = 1; SELECT 1".toList :=
  ⟨by decide +kernel, (strong_text_safe_iff _).mpr (by decide +kernel)⟩

/-- **A text that deletes and goes to a replica**, after which the connection is handed on as it is.
-/
theorem strong_text_passes :
    Strong "SELECT 1; DELETE FROM t".toList ∧
      ((splitting .smart).routeCommand 0 0 .default ⟨comQuery, ascii "SELECT 1; DELETE FROM t"⟩).1.1 =
        .replica 0 ∧
      (splitting .smart).shouldReset ((splitting .smart).trackDirty .default
        ⟨comQuery, ascii "SELECT 1; DELETE FROM t"⟩ .read) = false ∧
      writeish (splitting .smart) ⟨comQuery, ascii "SELECT 1; DELETE FROM t"⟩ = false := by
  decide +kernel

end Ephpm.Db
