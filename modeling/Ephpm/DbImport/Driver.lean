import Mathlib.Data.List.Range
import Mathlib.Tactic.Common
import Ephpm.Lib.Text

/-!
# The import driver

An import takes the statements of a dump, has each of them made fit for the backend, and hands the
results to a sink, a batch of them in each transaction.  A transaction is begun when there is
something to execute and none is open; it is committed when the batch is full and at the end, and
rolled back when the import is aborted.

**Every way out closes the transaction but one.**  If the dump can not be read any further, the
driver returns the error at once, and a transaction that is open at that moment stays open.

The reader and the sanitizer are parameters.  The findings that are reported are left out: nothing
reads them.
-/

namespace Ephpm.DbImport

open Lib

/-! ## The source -/

/-- What is done about a statement that fails. -/
inductive OnError
  | stop
  | skip
deriving DecidableEq

/-- `ImportOptions`.  Of the policy for invalid UTF-8 only matters whether it is to reject. -/
structure ImportOptions where
  batchSize : ℕ
  onError : OnError
  deferIndexes : Bool
  rejects : Bool

/-- What the sanitizer makes of a statement. -/
inductive SanitizeOutcome
  | drop
  | skip (blocking : Bool)
  | convert (sqls : List Text)
  | emit (sqls : List Text)

/-- What an import is run with: the options, whether there is a sink and which of the calls to
`exec` succeed, which statements carry bytes that are not UTF-8, and the sanitizer. -/
structure Setting (σ : Type) where
  options : ImportOptions
  sink : Bool
  exec : ℕ → Bool
  invalidUtf8 : σ → Bool
  sanitize : σ → SanitizeOutcome

/-- A call on the sink. -/
inductive Call
  | begin
  | exec (sql : Text) (ok : Bool)
  | commit
  | rollback
deriving DecidableEq

/-- `ImportStats`, without the counts of invalid values. -/
structure ImportStats where
  emitted : ℕ
  executed : ℕ
  dropped : ℕ
  deferred : ℕ
  batches : ℕ

/-- `Run`, with the calls that were made on the sink. -/
structure Run where
  calls : List Call
  stats : ImportStats
  inTxn : Bool
  batchN : ℕ
  deferred : List Text
  utf8Rejected : Bool

/-- Whether the import goes on. -/
inductive Flow
  | continue
  | abort
deriving DecidableEq

/-- How an import ends: `ImportOutcome`, or the error of the reader. -/
inductive Ending
  | completed
  | aborted
  | readError
deriving DecidableEq

/-- `is_create_index`. -/
def isCreateIndex (sql : Text) : Bool :=
  "CREATE INDEX".toList.isPrefixOf (upper (trimStart sql)) ||
    "CREATE UNIQUE INDEX".toList.isPrefixOf (upper (trimStart sql))

/-- The statement and the result of a call to `exec`. -/
def Call.executed : Call → Option (Text × Bool)
  | .exec sql ok => some (sql, ok)
  | _ => none

/-- The calls to `exec`, in order. -/
def Run.executed (r : Run) : List (Text × Bool) := r.calls.filterMap Call.executed

section Driver

variable {σ : Type} (s : Setting σ)

/-- The batch size in force. -/
def Setting.batchSize : ℕ := max s.options.batchSize 1

/-- `commit_batch`. -/
def Run.commitBatch (r : Run) : Run :=
  let r := if s.sink && r.inTxn then
      { r with
        calls := r.calls ++ [.commit]
        stats := { r.stats with batches := r.stats.batches + 1 } }
    else r
  { r with inTxn := false, batchN := 0 }

/-- `commit_final`: what is open at the end is committed. -/
def Run.commitFinal (r : Run) : Run := if r.inTxn then r.commitBatch s else r

/-- `rollback_quiet`: an error of the rollback is of no interest. -/
def Run.rollbackQuiet (r : Run) : Run :=
  let r := if s.sink && r.inTxn then { r with calls := r.calls ++ [.rollback] } else r
  { r with inTxn := false, batchN := 0 }

/-- A transaction is begun if there is none. -/
def Run.begun (r : Run) : Run :=
  if r.inTxn then r else { r with calls := r.calls ++ [.begin], inTxn := true }

/-- `exec_recording`: a statement is executed, and a failure is recorded. -/
def Run.execRecording (r : Run) (sql : Text) : Run × Flow :=
  if s.sink = false then (r, .continue)
  else
    let r := r.begun
    if s.exec r.executed.length then
      let r := { r with
        calls := r.calls ++ [.exec sql true]
        stats := { r.stats with executed := r.stats.executed + 1 }
        batchN := r.batchN + 1 }
      (if s.batchSize ≤ r.batchN then r.commitBatch s else r, .continue)
    else
      ({ r with calls := r.calls ++ [.exec sql false] },
        if s.options.onError = .skip then .continue else .abort)

/-- The statements that come of one, until the import is to stop. -/
def Run.emitAll (r : Run) : List Text → Run × Flow
  | [] => (r, .continue)
  | sql :: sqls =>
    let r := { r with stats := { r.stats with emitted := r.stats.emitted + 1 } }
    if s.options.deferIndexes && isCreateIndex sql then
      { r with
        stats := { r.stats with deferred := r.stats.deferred + 1 }
        deferred := r.deferred ++ [sql] }.emitAll sqls
    else
      match r.execRecording s sql with
      | (r, .abort) => (r, .abort)
      | (r, .continue) => r.emitAll sqls

/-- One statement of the dump. -/
def Run.handle (r : Run) (stmt : σ) : Run × Flow :=
  if s.invalidUtf8 stmt && s.options.rejects then
    ({ r with utf8Rejected := true }, if s.sink then .abort else .continue)
  else
    match s.sanitize stmt with
    | .drop => ({ r with stats := { r.stats with dropped := r.stats.dropped + 1 } }, .continue)
    | .skip blocking => (r, if blocking && s.options.onError = .stop then .abort else .continue)
    | .convert sqls => r.emitAll s sqls
    | .emit sqls => r.emitAll s sqls

/-- The loop over the statements. -/
def Run.handleAll (r : Run) : List σ → Run × Flow
  | [] => (r, .continue)
  | stmt :: stmts =>
    match r.handle s stmt with
    | (r, .abort) => (r, .abort)
    | (r, .continue) => r.handleAll stmts

/-- The loop over the deferred indexes. -/
def Run.replay (r : Run) : List Text → Run × Flow
  | [] => (r, .continue)
  | sql :: sqls =>
    match r.execRecording s sql with
    | (r, .abort) => (r, .abort)
    | (r, .continue) => r.replay sqls

/-- Nothing has been imported. -/
def Run.start : Run := ⟨[], ⟨0, 0, 0, 0, 0⟩, false, 0, [], false⟩

/-- What is left to do once the dump is read: `run_import` behind its loop. -/
def Run.finish (r : Run) : Run × Ending :=
  match { r with deferred := [] }.replay s r.deferred with
  | (r, .abort) => (r.rollbackQuiet s, .aborted)
  | (r, .continue) => (r.commitFinal s, .completed)

/-- `run_import`, with the statements of a dump and whether reading it ends in an error. -/
def runImport (stmts : List σ) (readError : Bool) : Run × Ending :=
  match Run.start.handleAll s stmts with
  | (r, .abort) => (r.rollbackQuiet s, .aborted)
  | (r, .continue) =>
    if readError then (r, .readError)
    else if r.utf8Rejected then (r.rollbackQuiet s, .aborted)
    else r.finish s

end Driver

/-! ## Blocks -/

/-- The calls of some executions. -/
def execs (done : List (Text × Bool)) : List Call := done.map fun e => .exec e.1 e.2

/-- Closed transactions, each with at most so many executions that succeed. -/
inductive Blocks (n : ℕ) : List Call → Prop
  | nil : Blocks n []
  | block {calls : List Call} {done : List (Text × Bool)} {close : Call} (before : Blocks n calls)
      (few : done.countP (·.2) ≤ n) (closes : close = .commit ∨ close = .rollback) :
      Blocks n (calls ++ .begin :: (execs done ++ [close]))

/-- Closed transactions and an open one, in which so many executions have succeeded. -/
def Opened (n : ℕ) (calls : List Call) (succeeded : ℕ) : Prop :=
  ∃ front done, Blocks n front ∧ calls = front ++ .begin :: execs done ∧
    done.countP (·.2) = succeeded

/-- Calls with a block open are not whole blocks. -/
theorem Opened.not_blocks {n k : ℕ} {calls : List Call} (h : Opened n calls k) :
    ¬Blocks n calls := by
  obtain ⟨front, done, -, rfl, -⟩ := h
  intro hblocks
  have hlast : (front ++ .begin :: execs done).getLast? ≠ some .commit ∧
      (front ++ .begin :: execs done).getLast? ≠ some .rollback := by
    rw [List.getLast?_append_of_ne_nil _ (List.cons_ne_nil _ _)]
    induction done using List.reverseRecOn with
    | nil => decide
    | append_singleton done e _ =>
      have hform : Call.begin :: execs (done ++ [e]) =
          (.begin :: execs done) ++ [.exec e.1 e.2] := by simp [execs]
      rw [hform, List.getLast?_concat]
      simp
  generalize hcalls : front ++ .begin :: execs done = calls at hblocks hlast
  cases hblocks with
  | nil => simp at hcalls
  | @block calls done close before few closes =>
    rw [← List.cons_append, ← List.append_assoc, List.getLast?_concat] at hlast
    rcases closes with rfl | rfl
    · exact hlast.1 rfl
    · exact hlast.2 rfl

/-- A block is closed. -/
theorem Opened.close {n k : ℕ} {calls : List Call} (h : Opened n calls k) (hk : k ≤ n)
    {close : Call} (closes : close = .commit ∨ close = .rollback) : Blocks n (calls ++ [close]) := by
  obtain ⟨front, done, hfront, rfl, rfl⟩ := h
  rw [List.append_assoc, List.cons_append]
  exact .block hfront hk closes

/-- A statement in a block. -/
theorem Opened.exec {n k : ℕ} {calls : List Call} (h : Opened n calls k) (sql : Text) (ok : Bool) :
    Opened n (calls ++ [.exec sql ok]) (k + if ok then 1 else 0) := by
  obtain ⟨front, done, hfront, rfl, rfl⟩ := h
  refine ⟨front, done ++ [(sql, ok)], hfront, by simp [execs], ?_⟩
  rw [List.countP_append, List.countP_singleton]

/-- A block is opened. -/
theorem Blocks.open {n : ℕ} {calls : List Call} (h : Blocks n calls) :
    Opened n (calls ++ [.begin]) 0 := ⟨calls, [], h, rfl, rfl⟩

/-! ## What a run keeps -/

section Tracks

variable {σ : Type} {s : Setting σ} {r : Run} {history : List Text}

/-- A batch is unfinished if its last execution failed, or if it is not full. -/
def Unfinished (n : ℕ) (results : List Bool) : Prop :=
  results.getLast? = some false ∨ results.count true % n ≠ 0

/-- The state of a run after some statements were offered to the sink. -/
structure Tracks (s : Setting σ) (r : Run) (history : List Text) : Prop where
  dry : s.sink = false → r.calls = [] ∧ r.inTxn = false
  offered : s.sink = true → r.executed.map Prod.fst = history
  results : s.sink = true →
    r.executed.map Prod.snd = (List.range history.length).map s.exec
  batch : r.batchN = (r.executed.map Prod.snd).count true % s.batchSize
  txn : r.inTxn = true ↔ Unfinished s.batchSize (r.executed.map Prod.snd)
  opened : r.inTxn = true → Opened s.batchSize r.calls r.batchN
  closed : r.inTxn = false → Blocks s.batchSize r.calls

theorem batchSize_pos (s : Setting σ) : 0 < s.batchSize := Nat.le_max_right _ 1

/-- At the beginning nothing was done. -/
theorem tracks_start (s : Setting σ) : Tracks s .start [] where
  dry _ := ⟨rfl, rfl⟩
  offered _ := rfl
  results _ := rfl
  batch := (Nat.zero_mod _).symm
  txn := by
    refine ⟨fun h => Bool.noConfusion h, fun h => ?_⟩
    rcases h with h | h
    · cases h
    · exact absurd (Nat.zero_mod _) h
  opened h := by cases h
  closed _ := .nil

/-- Nothing else in a run matters. -/
theorem Tracks.of_eq {r' : Run} (h : Tracks s r history) (hcalls : r'.calls = r.calls)
    (htxn : r'.inTxn = r.inTxn) (hbatch : r'.batchN = r.batchN) : Tracks s r' history := by
  have hexecuted : r'.executed = r.executed := by rw [Run.executed, hcalls, Run.executed]
  obtain ⟨dry, offered, results, batch, txn, opened, closed⟩ := h
  constructor <;> simpa only [hcalls, htxn, hbatch, hexecuted]

/-- A batch is not full between two statements. -/
theorem Tracks.batchN_lt (h : Tracks s r history) : r.batchN < s.batchSize := by
  rw [h.batch]
  exact Nat.mod_lt _ (batchSize_pos s)

/-- A block is open before a statement is run. -/
theorem Tracks.begun (h : Tracks s r history) :
    Opened s.batchSize r.begun.calls r.batchN ∧ r.begun.executed = r.executed ∧
      r.begun.inTxn = true ∧ r.begun.batchN = r.batchN := by
  cases htxn : r.inTxn with
  | true =>
    rw [show r.begun = r from if_pos htxn]
    exact ⟨h.opened htxn, rfl, htxn, rfl⟩
  | false =>
    have hzero : r.batchN = 0 := by
      rw [h.batch]
      by_contra hne
      rw [h.txn.mpr (.inr hne)] at htxn
      cases htxn
    rw [show r.begun = { r with calls := r.calls ++ [.begin], inTxn := true } from
      if_neg (by rw [htxn]; exact Bool.false_ne_true)]
    refine ⟨?_, ?_, rfl, rfl⟩
    · rw [hzero]
      exact (h.closed htxn).open
    · simp [Run.executed, Call.executed]

/-- A statement that fails leaves a block open. -/
theorem unfinished_concat_false {n : ℕ} (results : List Bool) :
    Unfinished n (results ++ [false]) := .inl List.getLast?_concat

/-- A statement that succeeds leaves a block open unless it fills the batch. -/
theorem unfinished_concat_true {n : ℕ} (results : List Bool) :
    Unfinished n (results ++ [true]) ↔ (results.count true + 1) % n ≠ 0 := by
  rw [Unfinished, List.getLast?_concat, List.count_append]
  simp

/-- One more statement was run. -/
theorem Tracks.extend {r' : Run} {sql : Text} {ok : Bool} (h : Tracks s r history)
    (hsink : s.sink = true) (hok : s.exec history.length = ok)
    (hexecuted : r'.executed = r.executed ++ [(sql, ok)])
    (hbatch : r'.batchN = (r.executed.map Prod.snd ++ [ok]).count true % s.batchSize)
    (htxn : r'.inTxn = true ↔ Unfinished s.batchSize (r.executed.map Prod.snd ++ [ok]))
    (hopened : r'.inTxn = true → Opened s.batchSize r'.calls r'.batchN)
    (hclosed : r'.inTxn = false → Blocks s.batchSize r'.calls) :
    Tracks s r' (history ++ [sql]) := by
  have hsnd : r'.executed.map Prod.snd = r.executed.map Prod.snd ++ [ok] := by
    rw [hexecuted, List.map_append]
    rfl
  refine ⟨fun hdry => ?_, fun _ => ?_, fun _ => ?_, ?_, ?_, hopened, hclosed⟩
  · rw [hsink] at hdry
    cases hdry
  · rw [hexecuted, List.map_append, h.offered hsink]
    rfl
  · rw [hsnd, h.results hsink, List.length_append, List.length_singleton, List.range_succ,
      List.map_append, ← hok]
    rfl
  · rw [hbatch, hsnd]
  · rw [htxn, hsnd]

/-- **One more statement is offered**, and the run goes on unless that fails and the policy is to
stop. -/
theorem Tracks.execRecording (h : Tracks s r history) (sql : Text) :
    Tracks s (r.execRecording s sql).1 (history ++ [sql]) ∧
      ((r.execRecording s sql).2 = .continue ↔
        (s.sink = true → s.options.onError = .stop → s.exec history.length = true)) := by
  cases hsink : s.sink with
  | false =>
    rw [show r.execRecording s sql = (r, .continue) from if_pos hsink]
    have hno : ¬s.sink = true := by rw [hsink]; exact Bool.false_ne_true
    exact ⟨⟨h.dry, fun h => absurd h hno, fun h => absurd h hno, h.batch, h.txn, h.opened,
      h.closed⟩, iff_of_true rfl fun h => Bool.noConfusion h⟩
  | true =>
    obtain ⟨hopened, hexecuted, htxn, hbatch⟩ := h.begun
    have hlength : r.begun.executed.length = history.length := by
      rw [hexecuted, ← h.offered hsink, List.length_map]
    have hnot : ¬s.sink = false := by rw [hsink]; exact Bool.noConfusion
    have hcall : ∀ ok : Bool, (r.begun.calls ++ [Call.exec sql ok]).filterMap Call.executed =
        r.executed ++ [(sql, ok)] := fun ok => by
      rw [List.filterMap_append, ← hexecuted]
      rfl
    have hlt := h.batchN_lt
    cases hok : s.exec history.length with
    | true =>
      obtain ⟨done, hdone⟩ : ∃ done : Run, { r.begun with
          calls := r.begun.calls ++ [.exec sql true]
          stats := { r.begun.stats with executed := r.begun.stats.executed + 1 }
          batchN := r.begun.batchN + 1 } = done := ⟨_, rfl⟩
      have hrun : r.execRecording s sql =
          (if s.batchSize ≤ done.batchN then done.commitBatch s else done, .continue) := by
        rw [Run.execRecording, if_neg hnot]
        show (if s.exec r.begun.executed.length = true then _ else _) = _
        rw [hlength, if_pos hok, ← hdone]
      have hcalls : done.calls = r.begun.calls ++ [.exec sql true] := by rw [← hdone]
      have hbatchN : done.batchN = r.batchN + 1 := by rw [← hdone, ← hbatch]
      have hdoneTxn : done.inTxn = true := by rw [← hdone]; exact htxn
      have hopened' : Opened s.batchSize done.calls (r.batchN + 1) := by
        rw [hcalls]
        exact hopened.exec sql true
      have hcount : (r.executed.map Prod.snd ++ [true]).count true % s.batchSize =
          (r.batchN + 1) % s.batchSize := by
        rw [List.count_append, h.batch, Nat.mod_add_mod]
        rfl
      have hunfinished : Unfinished s.batchSize (r.executed.map Prod.snd ++ [true]) ↔
          (r.batchN + 1) % s.batchSize ≠ 0 := by
        rw [unfinished_concat_true, h.batch, Nat.mod_add_mod]
      rw [hrun]
      refine ⟨?_, iff_of_true rfl fun _ _ => rfl⟩
      split_ifs with hfull
      · have hsize : r.batchN + 1 = s.batchSize := by omega
        have hcommit : done.commitBatch s = { done with
            calls := done.calls ++ [.commit]
            stats := { done.stats with batches := done.stats.batches + 1 }
            inTxn := false
            batchN := 0 } := by
          rw [Run.commitBatch, hsink, hdoneTxn]
          rfl
        rw [hsize, Nat.mod_self] at hcount hunfinished
        refine h.extend hsink hok ?_ ?_ ?_ (fun h => ?_) (fun _ => ?_)
        · rw [hcommit, Run.executed, List.filterMap_append, hcalls, hcall]
          simp [Call.executed]
        · rw [hcommit, hcount]
        · rw [hcommit, hunfinished]
          simp
        · rw [hcommit] at h
          cases h
        · rw [hcommit]
          exact hopened'.close hsize.le (.inl rfl)
      · have hsmall : r.batchN + 1 < s.batchSize := by omega
        rw [Nat.mod_eq_of_lt hsmall] at hcount hunfinished
        refine h.extend hsink hok ?_ ?_ ?_ (fun _ => ?_) (fun h => ?_)
        · rw [Run.executed, hcalls, hcall]
        · rw [hcount, hbatchN]
        · exact iff_of_true hdoneTxn (hunfinished.mpr (Nat.succ_ne_zero _))
        · rwa [hbatchN]
        · rw [hdoneTxn] at h
          cases h
    | false =>
      have hrun : r.execRecording s sql =
          ({ r.begun with calls := r.begun.calls ++ [.exec sql false] },
            if s.options.onError = .skip then .continue else .abort) := by
        rw [Run.execRecording, if_neg hnot]
        show (if s.exec r.begun.executed.length = true then _ else _) = _
        rw [hlength, if_neg (by rw [hok]; exact Bool.false_ne_true)]
      rw [hrun]
      constructor
      · refine h.extend hsink hok (hcall false) ?_ ?_ (fun _ => ?_) (fun h => ?_)
        · show r.begun.batchN = _
          rw [hbatch, h.batch, List.count_append]
          rfl
        · exact iff_of_true htxn (unfinished_concat_false _)
        · rw [hbatch]
          exact hopened.exec sql false
        · rw [htxn] at h
          cases h
      · cases s.options.onError with
        | stop => simp
        | skip => simp

/-- Running a statement defers none. -/
theorem execRecording_deferred (r : Run) (sql : Text) :
    (r.execRecording s sql).1.deferred = r.deferred := by
  have hbegun : r.begun.deferred = r.deferred := by
    unfold Run.begun
    split <;> rfl
  have hcommit : ∀ r : Run, (r.commitBatch s).deferred = r.deferred := fun r => by
    unfold Run.commitBatch
    split <;> rfl
  rw [← hbegun]
  simp only [Run.execRecording]
  split_ifs
  · exact hbegun.symm
  · exact hcommit _
  · rfl
  · rfl
  · rfl

/-! ## Loops -/

/-- Whether a statement is held back. -/
def Setting.defers (s : Setting σ) (sql : Text) : Bool :=
  s.options.deferIndexes && isCreateIndex sql

/-- The calls to `exec` from one number to another succeed, if a failure would stop the import. -/
def Succeed (s : Setting σ) (i j : ℕ) : Prop :=
  s.sink = true → s.options.onError = .stop → ∀ k, i ≤ k → k < j → s.exec k = true

/-- Success in a stretch is success in its parts. -/
theorem Succeed.split {i j k : ℕ} (hij : i ≤ j) (hjk : j ≤ k) :
    Succeed s i k ↔ Succeed s i j ∧ Succeed s j k := by
  constructor
  · intro h
    exact ⟨fun hsink hstop l hl hl' => h hsink hstop l hl (hl'.trans_le hjk),
      fun hsink hstop l hl => h hsink hstop l (hij.trans hl)⟩
  · rintro ⟨hfirst, hsecond⟩ hsink hstop l hl hl'
    rcases lt_or_ge l j with hlt | hge
    · exact hfirst hsink hstop l hl hlt
    · exact hsecond hsink hstop l hge hl'

theorem succeed_self (i : ℕ) : Succeed s i i := fun _ _ _ hl hl' => absurd hl' (not_lt.mpr hl)

/-- Success of one statement. -/
theorem succeed_one (i : ℕ) : Succeed s i (i + 1) ↔
    (s.sink = true → s.options.onError = .stop → s.exec i = true) := by
  constructor
  · exact fun h hsink hstop => h hsink hstop i le_rfl (Nat.lt_succ_self i)
  · intro h hsink hstop l hl hl'
    obtain rfl : l = i := by omega
    exact h hsink hstop

/-- A part of the run went well, in which some statements were offered to the sink and others held
back, or it was aborted. -/
def Went (s : Setting σ) (r : Run) (history : List Text) (result : Run × Flow)
    (offered held : List Text) (fine : Prop) : Prop :=
  result.2 = .continue ∧ fine ∧ Tracks s result.1 (history ++ offered) ∧
      result.1.deferred = r.deferred ++ held ∨
    result.2 = .abort ∧ ¬fine ∧ ∃ history', Tracks s result.1 history'

/-- No statement at all. -/
theorem Tracks.went_nil (h : Tracks s r history) : Went s r history (r, .continue) [] []
    (Succeed s history.length (history.length + 0)) :=
  .inl ⟨rfl, succeed_self _, by rwa [List.append_nil], (List.append_nil _).symm⟩

/-- The loop goes on behind a statement that is executed, or ends. -/
theorem Tracks.went_cons (h : Tracks s r history) (sql : Text) {offered held : List Text}
    (go : Run → Run × Flow)
    (hgo : ∀ r', Tracks s r' (history ++ [sql]) → r'.deferred = r.deferred →
      Went s r' (history ++ [sql]) (go r') offered held
        (Succeed s (history.length + 1) (history.length + 1 + offered.length)))
    {result : Run × Flow} (hresult : result =
      if (r.execRecording s sql).2 = .abort then ((r.execRecording s sql).1, .abort)
      else go (r.execRecording s sql).1) :
    Went s r history result (sql :: offered) held
      (Succeed s history.length (history.length + (sql :: offered).length)) := by
  obtain ⟨htracks, hcontinue⟩ := h.execRecording sql
  have hdeferred := execRecording_deferred (s := s) r sql
  have hsplit : Succeed s history.length (history.length + (sql :: offered).length) ↔
      (r.execRecording s sql).2 = .continue ∧
        Succeed s (history.length + 1) (history.length + 1 + offered.length) := by
    rw [hcontinue, ← succeed_one, ← Succeed.split (Nat.le_succ _) (Nat.le_add_right _ _),
      List.length_cons, show history.length + (offered.length + 1) =
        history.length + 1 + offered.length by omega]
  rw [hresult]
  cases hflow : (r.execRecording s sql).2 with
  | abort =>
    rw [if_pos rfl]
    refine .inr ⟨rfl, fun hfine => ?_, _, htracks⟩
    rw [hsplit, hflow] at hfine
    cases hfine.1
  | «continue» =>
    rw [if_neg (by decide)]
    rcases hgo _ htracks hdeferred with ⟨hok, hfine, htracks', hheld⟩ | ⟨hok, hfine, hsome⟩
    · refine .inl ⟨hok, hsplit.mpr ⟨hflow, hfine⟩, ?_, by rw [hheld, hdeferred]⟩
      rwa [List.append_assoc] at htracks'
    · exact .inr ⟨hok, fun h => hfine (hsplit.mp h).2, hsome⟩

/-- What was deferred before counts. -/
theorem Went.of_deferred {r' : Run} {result : Run × Flow} {offered held held' : List Text}
    {fine : Prop} (h : Went s r' history result offered held fine)
    (heq : r'.deferred = r.deferred ++ held') :
    Went s r history result offered (held' ++ held) fine := by
  rcases h with ⟨hok, hfine, htracks, hheld⟩ | h
  · exact .inl ⟨hok, hfine, htracks, by rw [hheld, heq, List.append_assoc]⟩
  · exact .inr h

/-- The statements that an element is made of. -/
theorem Tracks.went_emitAll (h : Tracks s r history) (sqls : List Text) :
    Went s r history (r.emitAll s sqls) (sqls.filter fun sql => !s.defers sql)
      (sqls.filter s.defers) (Succeed s history.length
        (history.length + (sqls.filter fun sql => !s.defers sql).length)) := by
  induction sqls generalizing r history with
  | nil => exact h.went_nil
  | cons sql sqls ih =>
    cases hdefers : s.defers sql with
    | true =>
      have hrun : r.emitAll s (sql :: sqls) = Run.emitAll s { r with
          stats := { r.stats with
            emitted := r.stats.emitted + 1
            deferred := r.stats.deferred + 1 }
          deferred := r.deferred ++ [sql] } sqls := by
        rw [Run.emitAll]
        exact if_pos hdefers
      rw [hrun, List.filter_cons_of_neg (by rw [hdefers]; decide),
        List.filter_cons_of_pos hdefers]
      have hcounted : Tracks s { r with
          stats := { r.stats with
            emitted := r.stats.emitted + 1
            deferred := r.stats.deferred + 1 }
          deferred := r.deferred ++ [sql] } history := h.of_eq rfl rfl rfl
      exact @Went.of_deferred _ _ r _ _ _ _ _ [sql] _ (ih hcounted) rfl
    | false =>
      have hcounted : Tracks s { r with
          stats := { r.stats with emitted := r.stats.emitted + 1 } } history :=
        h.of_eq rfl rfl rfl
      rw [List.filter_cons_of_pos (by rw [hdefers]; rfl),
        List.filter_cons_of_neg (by rw [hdefers]; decide)]
      have hnot : ¬(s.options.deferIndexes && isCreateIndex sql) = true :=
        Bool.eq_false_iff.mp hdefers
      refine @Went.of_deferred _ _ r _ _ _ _ _ [] _ (hcounted.went_cons sql
        (fun r => r.emitAll s sqls) (fun r' hr' _ => ?_) ?_) (List.append_nil _).symm
      · have hrest := ih hr'
        rwa [List.length_append, List.length_singleton] at hrest
      · rw [Run.emitAll]
        refine (if_neg hnot).trans ?_
        split
        next heq => rw [heq]; rfl
        next heq => rw [heq]; rfl

/-- The statements that were deferred. -/
theorem Tracks.went_replay (h : Tracks s r history) (sqls : List Text) :
    Went s r history (r.replay s sqls) sqls [] (Succeed s history.length
      (history.length + sqls.length)) := by
  induction sqls generalizing r history with
  | nil => exact h.went_nil
  | cons sql sqls ih =>
    refine h.went_cons sql (fun r => r.replay s sqls) (fun r' hr' _ => ?_) ?_
    · have hrest := ih hr'
      rwa [List.length_append, List.length_singleton] at hrest
    · rw [Run.replay]
      split
      next heq => rw [heq]; rfl
      next heq => rw [heq]; rfl

/-! ## Statements -/

/-- What the sanitizer makes of a statement that is not rejected. -/
def Setting.emitted (s : Setting σ) (stmt : σ) : List Text :=
  if s.invalidUtf8 stmt && s.options.rejects then []
  else match s.sanitize stmt with
    | .convert sqls | .emit sqls => sqls
    | _ => []

/-- What is to be executed at once, and what is to be held back. -/
def Setting.offered (s : Setting σ) (stmts : List σ) : List Text :=
  (stmts.flatMap s.emitted).filter fun sql => !s.defers sql

/-- The statements that are held back until the end. -/
def Setting.held (s : Setting σ) (stmts : List σ) : List Text :=
  (stmts.flatMap s.emitted).filter s.defers

/-- A statement that does not abort the import before it is executed. -/
def Passes (s : Setting σ) (stmt : σ) : Prop :=
  if s.invalidUtf8 stmt && s.options.rejects then s.sink = false
  else s.options.onError = .stop → s.sanitize stmt ≠ .skip true

/-- A statement of which nothing is executed. -/
theorem Tracks.went_none {r' : Run} (h' : Tracks s r' history)
    (hdeferred : r'.deferred = r.deferred) {flow : Flow} {fine : Prop}
    (hflow : flow = .continue ↔ fine) :
    Went s r history (r', flow) [] [] (fine ∧ Succeed s history.length (history.length + 0)) := by
  cases flow with
  | «continue» =>
    exact .inl ⟨rfl, ⟨hflow.mp rfl, succeed_self _⟩, by rwa [List.append_nil], by
      rw [List.append_nil]; exact hdeferred⟩
  | abort =>
    refine .inr ⟨rfl, fun hfine => ?_, _, h'⟩
    have := hflow.mpr hfine.1
    cases this

/-- One element of the dump. -/
theorem Tracks.went_handle (h : Tracks s r history) (stmt : σ) :
    Went s r history (r.handle s stmt) (s.offered [stmt]) (s.held [stmt])
      (Passes s stmt ∧ Succeed s history.length
        (history.length + (s.offered [stmt]).length)) := by
  have hoffered : s.offered [stmt] = (s.emitted stmt).filter fun sql => !s.defers sql := by
    rw [Setting.offered, List.flatMap_singleton]
  have hheld : s.held [stmt] = (s.emitted stmt).filter s.defers := by
    rw [Setting.held, List.flatMap_singleton]
  rw [hoffered, hheld, Run.handle, Setting.emitted, Passes]
  split
  next =>
      have h' : Tracks s { r with utf8Rejected := true } history := h.of_eq rfl rfl rfl
      refine h'.went_none rfl ?_
      cases s.sink <;> decide
  next =>
      -- Statements that are executed need only succeed.
      have hemit : ∀ sqls, s.sanitize stmt ≠ .skip true →
          Went s r history (r.emitAll s sqls) (sqls.filter fun sql => !s.defers sql)
            (sqls.filter s.defers) ((s.options.onError = .stop → s.sanitize stmt ≠ .skip true) ∧
              Succeed s history.length
                (history.length + (sqls.filter fun sql => !s.defers sql).length)) := by
        intro sqls hne
        rw [and_iff_right fun _ => hne]
        exact h.went_emitAll sqls
      cases hsanitize : s.sanitize stmt with
      | drop =>
        have h' : Tracks s { r with stats := { r.stats with
            dropped := r.stats.dropped + 1 } } history := h.of_eq rfl rfl rfl
        exact h'.went_none rfl (iff_of_true rfl fun _ => by simp)
      | skip blocking =>
        refine h.went_none rfl ?_
        cases blocking <;> cases s.options.onError <;> simp
      | convert sqls =>
        rw [hsanitize] at hemit
        exact hemit sqls (by simp)
      | emit sqls =>
        rw [hsanitize] at hemit
        exact hemit sqls (by simp)

/-- The statements all pass, and those that are executed succeed where they have to. -/
def Fine (s : Setting σ) (start : ℕ) (stmts : List σ) : Prop :=
  (∀ stmt ∈ stmts, Passes s stmt) ∧ Succeed s start (start + (s.offered stmts).length)

/-- **All elements of the dump.** -/
theorem Tracks.went_handleAll (h : Tracks s r history) (stmts : List σ) :
    Went s r history (r.handleAll s stmts) (s.offered stmts) (s.held stmts)
      (Fine s history.length stmts) := by
  induction stmts generalizing r history with
  | nil =>
    rcases h.went_nil with ⟨hok, hfine, h⟩ | ⟨hok, -⟩
    · exact .inl ⟨hok, ⟨by simp, hfine⟩, h⟩
    · cases hok
  | cons stmt stmts ih =>
    have hoffered : s.offered (stmt :: stmts) = s.offered [stmt] ++ s.offered stmts := by
      simp [Setting.offered]
    have hheld : s.held (stmt :: stmts) = s.held [stmt] ++ s.held stmts := by
      simp [Setting.held]
    have hfine : Fine s history.length (stmt :: stmts) ↔
        (Passes s stmt ∧ Succeed s history.length
          (history.length + (s.offered [stmt]).length)) ∧
        Fine s (history ++ s.offered [stmt]).length stmts := by
      rw [Fine, Fine, List.forall_mem_cons, hoffered, List.length_append, List.length_append,
        ← Nat.add_assoc, Succeed.split (Nat.le_add_right _ (s.offered [stmt]).length)
          (Nat.le_add_right _ _)]
      tauto
    rw [Run.handleAll, hoffered, hheld]
    obtain ⟨result, hresult⟩ : ∃ result, r.handle s stmt = result := ⟨_, rfl⟩
    have hwent := h.went_handle stmt
    rw [hresult] at hwent ⊢
    obtain ⟨r', flow⟩ := result
    rcases hwent with ⟨rfl, hgood, htracks, hdeferred⟩ | ⟨rfl, hbad, hsome⟩
    · rcases ih htracks with ⟨hok, hgood', htracks', hdeferred'⟩ | ⟨hok, hbad, hsome⟩
      · refine .inl ⟨hok, hfine.mpr ⟨hgood, hgood'⟩, by rwa [List.append_assoc] at htracks', ?_⟩
        rw [hdeferred', hdeferred, List.append_assoc]
      · exact .inr ⟨hok, fun h => hbad (hfine.mp h).2, hsome⟩
    · exact .inr ⟨rfl, fun h => hbad (hfine.mp h).1, hsome⟩

/-! ## The ways out -/

/-- There is a block only if there is a sink. -/
theorem Tracks.sink_of_inTxn (h : Tracks s r history) (htxn : r.inTxn = true) : s.sink = true := by
  by_contra hno
  have hclosed := (h.dry (Bool.not_eq_true _ ▸ hno)).2
  rw [htxn] at hclosed
  cases hclosed

/-- After a rollback the calls are whole blocks. -/
theorem Tracks.rollbackQuiet (h : Tracks s r history) :
    Blocks s.batchSize (r.rollbackQuiet s).calls := by
  cases htxn : r.inTxn with
  | false =>
    have hcalls : (r.rollbackQuiet s).calls = r.calls := by
      rw [Run.rollbackQuiet, htxn, Bool.and_false]
      rfl
    rw [hcalls]
    exact h.closed htxn
  | true =>
    have hsink := h.sink_of_inTxn htxn
    have hcalls : (r.rollbackQuiet s).calls = r.calls ++ [.rollback] := by
      rw [Run.rollbackQuiet, htxn, hsink]
      rfl
    rw [hcalls]
    exact (h.opened htxn).close h.batchN_lt.le (.inr rfl)

/-- After the last commit the calls are whole blocks. -/
theorem Tracks.commitFinal (h : Tracks s r history) :
    Blocks s.batchSize (r.commitFinal s).calls ∧ (r.commitFinal s).executed = r.executed := by
  cases htxn : r.inTxn with
  | false =>
    rw [show r.commitFinal s = r from if_neg (by rw [htxn]; exact Bool.false_ne_true)]
    exact ⟨h.closed htxn, rfl⟩
  | true =>
    have hsink := h.sink_of_inTxn htxn
    have hcalls : (r.commitFinal s).calls = r.calls ++ [.commit] := by
      rw [Run.commitFinal, if_pos htxn, Run.commitBatch, htxn, hsink]
      rfl
    rw [Run.executed, hcalls, List.filterMap_append]
    exact ⟨(h.opened htxn).close h.batchN_lt.le (.inl rfl), List.append_nil _⟩

/-- Behind the loop every way out closes the transaction. -/
theorem Tracks.finish (h : Tracks s r history) :
    Blocks s.batchSize (r.finish s).1.calls ∧ ((r.finish s).2 = .completed → s.sink = true →
      (r.finish s).1.executed.map Prod.fst = history ++ r.deferred) := by
  have h' : Tracks s { r with deferred := [] } history := h.of_eq rfl rfl rfl
  have hwent := h'.went_replay r.deferred
  obtain ⟨result, hresult⟩ : ∃ result, { r with deferred := [] }.replay s r.deferred = result :=
    ⟨_, rfl⟩
  rw [hresult] at hwent
  rw [Run.finish, hresult]
  obtain ⟨r', flow⟩ := result
  rcases hwent with ⟨rfl, -, htracks, -⟩ | ⟨rfl, -, history', htracks⟩
  · obtain ⟨hblocks, hexecuted⟩ := htracks.commitFinal
    refine ⟨hblocks, fun _ hsink => ?_⟩
    show (r'.commitFinal s).executed.map Prod.fst = _
    rw [hexecuted, htracks.offered hsink]
  · exact ⟨htracks.rollbackQuiet, fun h => by cases h⟩

/-- The dump ends in an error, the statements before it are all handled, and they end in a batch
that is not finished. -/
def Interrupted (s : Setting σ) (stmts : List σ) (readError : Bool) : Prop :=
  readError = true ∧ s.sink = true ∧ Fine s 0 stmts ∧
    Unfinished s.batchSize ((List.range (s.offered stmts).length).map s.exec)

end Tracks

/-- **Every transaction of an import is closed, unless reading the dump fails within one.**  And if
the import completes, each statement was executed once, the deferred ones at the end. -/
theorem import_blocks_iff {σ : Type} (s : Setting σ) (stmts : List σ) (readError : Bool) :
    (Blocks s.batchSize (runImport s stmts readError).1.calls ↔ ¬Interrupted s stmts readError) ∧
      ((runImport s stmts readError).2 = .completed → s.sink = true →
        (runImport s stmts readError).1.executed.map Prod.fst =
          s.offered stmts ++ s.held stmts) := by
  have hwent := (tracks_start s).went_handleAll stmts
  obtain ⟨result, hresult⟩ : ∃ result, Run.start.handleAll s stmts = result := ⟨_, rfl⟩
  rw [hresult] at hwent
  rw [runImport, hresult]
  obtain ⟨r, flow⟩ := result
  rcases hwent with ⟨rfl, hfine, htracks, hdeferred⟩ | ⟨rfl, hbad, history, htracks⟩
  · rw [List.nil_append] at htracks
    have hdeferred : r.deferred = s.held stmts := hdeferred
    cases readError with
    | true =>
      refine ⟨?_, fun h => by cases h⟩
      show Blocks s.batchSize r.calls ↔ _
      cases hsink : s.sink with
      | false =>
        rw [(htracks.dry hsink).1]
        refine iff_of_true .nil fun h => ?_
        rw [Interrupted, hsink] at h
        cases h.2.1
      | true =>
        have hunfinished : Interrupted s stmts true ↔ r.inTxn = true := by
          rw [htracks.txn, htracks.results hsink, Interrupted]
          exact ⟨fun h => h.2.2.2, fun h => ⟨rfl, hsink, hfine, h⟩⟩
        rw [hunfinished]
        refine ⟨fun hblocks htxn => (htracks.opened htxn).not_blocks hblocks, fun htxn => ?_⟩
        exact htracks.closed (Bool.not_eq_true _ ▸ htxn)
    | false =>
      have hnot : ¬Interrupted s stmts false := fun h => by cases h.1
      simp only [Bool.false_eq_true, if_false]
      split
      · exact ⟨iff_of_true htracks.rollbackQuiet hnot, fun h => by cases h⟩
      · obtain ⟨hblocks, hcompleted⟩ := htracks.finish
        rw [hdeferred] at hcompleted
        exact ⟨iff_of_true hblocks hnot, hcompleted⟩
  · refine ⟨iff_of_true htracks.rollbackQuiet fun h => hbad h.2.2.1, fun h => by cases h⟩

/-- A dump of one statement, and then an error: the transaction stays open. -/
theorem read_error_leaves_open :
    (runImport (σ := Text) ⟨⟨1000, .stop, false, true⟩, true, fun _ => true, fun _ => false,
        fun sql => .emit [sql]⟩ [['x']] true).1.calls = [.begin, .exec ['x'] true] ∧
      ¬Blocks 1000 [.begin, .exec ['x'] true] := by
  have hopened : Opened 1000 [.begin, .exec ['x'] true] 1 := ⟨[], [(['x'], true)], .nil, rfl, rfl⟩
  exact ⟨by decide, hopened.not_blocks⟩

end Ephpm.DbImport
