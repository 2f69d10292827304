import Ephpm.Kv.Operations

/-!
# Locks

Clients use one key as a lock: `SETNX` with a token of their own takes it,
`SET … IFEQ` renews it and `DELIFEQ` gives it back, both only under the token that is
stored.  `lock_exclusive` is what they rely on, over every interleaving of such calls
with reads and active expiry, at clock readings that do not run backwards: once a
client has taken the lock, nobody takes it again before its deadline, unless that
client gave it back or renewed it first.

The invariant behind it is `Holds`: the key holds a token until a deadline.  Reads and
active expiry keep it before the deadline, because both reap an entry by its own
deadline; the calls of other clients keep it because their tokens differ.
-/

namespace Ephpm.Kv

open Lib

namespace Store

/-- The key holds `value` until `expiresAt`. -/
def Holds [Platform] (key : String) (value : Bytes) (expiresAt : Option Instant) (s : Store) :
    Prop :=
  ∃ e, s.data.get key = some e ∧ e.plain s.config.compression.algo = some value ∧
    e.expiresAt = expiresAt

/-- What clients and the background task do around a lock: the calls of each client
under its own token, reads, and active expiry. -/
inductive Contends {Client : Type} (token : Client → Bytes) (key : String) : Op → Prop
  | acquire (client : Client) (ttl : Option Duration) :
      Contends token key (.setNx key (token client) ttl)
  | renew (client : Client) (value : Bytes) (ttl : SetTtl) :
      Contends token key (.setIfEq key (token client) value ttl)
  | release (client : Client) : Contends token key (.delIfEq key (token client))
  | read {op : Op} : isRead op = true → Contends token key op
  | expireRound : Contends token key .expireRound
  | expireCycle : Contends token key .expireCycle

/-- The call was a successful release or renewal under `value`. -/
def gaveUp (key : String) (value : Bytes) : Op → Reply → Bool
  | .delIfEq key' token, .flag true => key' = key ∧ token = value
  | .setIfEq key' expected _ _, .setIfEq .set => key' = key ∧ expected = value
  | _, _ => false

/-- No string was evicted under `key` between the two states. -/
def SparesKey (key : String) (s s' : Store) : Prop :=
  ∃ new, s'.events = new ++ s.events ∧ ∀ expiresAt, Event.evictedString key expiresAt ∉ new

section Holding

variable [P : Platform] {s s' : Store} {now : Instant} {key : String} {value : Bytes}
  {expiresAt : Option Instant}

/-- A change that leaves the entry, up to its access clock, keeps the lock. -/
theorem Holds.of_get (holds : Holds key value expiresAt s)
    (hconfig : s'.config.compression.algo = s.config.compression.algo)
    (hget : ∀ e, s.data.get key = some e → ∃ e', s'.data.get key = some e' ∧
      e'.data = e.data ∧ e'.compressed = e.compressed ∧ e'.expiresAt = e.expiresAt) :
    Holds key value expiresAt s' := by
  obtain ⟨e, hold, hplain, hexp⟩ := holds
  obtain ⟨e', hnew, hdata, hcompressed, hsame⟩ := hget e hold
  refine ⟨e', hnew, ?_, hsame.trans hexp⟩
  rw [← hplain, Entry.plain, Entry.plain, hconfig, hdata, hcompressed]

/-- The entry that holds the lock has not expired before the deadline. -/
theorem Holds.live (holds : Holds key value expiresAt s)
    (hbefore : expiresAt.any (· ≤ now) = false) :
    ∃ e, s.data.get key = some e ∧ e.plain s.config.compression.algo = some value ∧
      e.expiresAt = expiresAt ∧ e.isExpired now = false := by
  obtain ⟨e, hget, hplain, hexp⟩ := holds
  exact ⟨e, hget, hplain, hexp, by rw [Entry.isExpired, hexp, hbefore]⟩

theorem ReapStep.holds (step : ReapStep now s s') (hbefore : expiresAt.any (· ≤ now) = false)
    (holds : Holds key value expiresAt s) : Holds key value expiresAt s' := by
  obtain ⟨e, hget, -, -, hlive⟩ := holds.live hbefore
  cases step with
  | @string other e' hget' hexp =>
    have hother : key ≠ other := fun heq => by
      rw [← heq, hget] at hget'
      obtain rfl := Option.some.inj hget'
      rw [hlive] at hexp
      cases hexp
    refine holds.of_get (by simp) fun e hget => ⟨e, ?_, rfl, rfl, rfl⟩
    rw [writeString_data, BucketMap.get_set, if_neg hother, hget]
  | hash _ =>
    exact holds.of_get (by simp [reaped, putHash]) fun e hget =>
      ⟨e, by simpa [reaped, putHash] using hget, rfl, rfl, rfl⟩
  | advance _ _ _ => exact holds

theorem Reaps.holds (reaps : Reaps now s s') (hbefore : expiresAt.any (· ≤ now) = false)
    (holds : Holds key value expiresAt s) : Holds key value expiresAt s' :=
  Path.preserves (fun _ _ holds step => step.holds hbefore holds) reaps holds

theorem ReadStep.holds (step : ReadStep now s s') (hbefore : expiresAt.any (· ≤ now) = false)
    (holds : Holds key value expiresAt s) : Holds key value expiresAt s' := by
  cases step with
  | reap step => exact step.holds hbefore holds
  | @touchString other e' nowNanos hget' =>
    refine holds.of_get rfl fun e hget => ?_
    by_cases hother : key = other
    · obtain rfl : e' = e := by
        rw [← hother, hget] at hget'
        exact (Option.some.inj hget').symm
      exact ⟨e'.touch nowNanos, by simp [putString, hother], rfl, rfl, rfl⟩
    · exact ⟨e, by simpa [putString, hother] using hget, rfl, rfl, rfl⟩
  | touchHash _ _ => exact holds
  | watch hget =>
    rw [watchSlot, hget]
    exact holds

theorem Reads.holds (reads : Reads now s s') (hbefore : expiresAt.any (· ≤ now) = false)
    (holds : Holds key value expiresAt s) : Holds key value expiresAt s' :=
  Path.preserves (fun _ _ holds step => step.holds hbefore holds) reads holds

/-! ## The calls of the clients -/

/-- A lock that is held is not given again. -/
theorem Holds.setNx_exists (holds : Holds key value expiresAt s)
    (hbefore : expiresAt.any (· ≤ now) = false) (token : Bytes) (ttl : Option Duration) :
    s.step now (.setNx key token ttl) = (.setNx .exists, s) := by
  obtain ⟨e, hget, -, -, hlive⟩ := holds.live hbefore
  show answer .setNx (s.setNxOutcomeLocal now key token ttl) = _
  rw [setNxOutcomeLocal, hget, Option.any_some, hlive]
  rfl

/-- A compare-and-set under a value that is not stored changes nothing. -/
theorem setIfEq_unchanged (inv : Inv s) {expected : Bytes}
    (hother : ∀ e, s.data.get key = some e → e.isExpired now = false →
      e.plain s.config.compression.algo ≠ some expected) (new : Bytes) (ttl : SetTtl) :
    (s.step now (.setIfEq key expected new ttl)).2 = s := by
  show (s.setIfEqLocal now key expected new ttl).2 = s
  rw [setIfEqLocal_eq inv]
  cases hget : s.data.get key with
  | none => rfl
  | some e =>
    by_cases hexp : e.isExpired now = true
    · simp [hexp]
    · have hne := hother e hget (by simpa using hexp)
      simp [entryEquals, hne]

/-- A compare-and-delete under a value that is not stored changes nothing. -/
theorem delIfEq_unchanged (inv : Inv s) {expected : Bytes}
    (hother : ∀ e, s.data.get key = some e → e.isExpired now = false →
      e.plain s.config.compression.algo ≠ some expected) :
    (s.step now (.delIfEq key expected)).2 = s := by
  show (s.delIfEqLocal now key expected).2 = s
  rw [delIfEqLocal_eq inv]
  cases hget : s.data.get key with
  | none => rfl
  | some e =>
    by_cases hexp : e.isExpired now = true
    · simp [hexp]
    · have hne := hother e hget (by simpa using hexp)
      simp [entryEquals, hne]

/-- A compare-and-set that is not carried out keeps the lock, unless the key is evicted
for it. -/
theorem Holds.setIfEq_failed (inv : Inv s) (holds : Holds key value expiresAt s)
    (hbefore : expiresAt.any (· ≤ now) = false) {new : Bytes} {ttl : SetTtl}
    (hspares : SparesKey key s (s.step now (.setIfEq key value new ttl)).2)
    (hfailed : (s.step now (.setIfEq key value new ttl)).1 ≠ .setIfEq .set) :
    Holds key value expiresAt (s.step now (.setIfEq key value new ttl)).2 := by
  obtain ⟨e, hget, hplain, -, hlive⟩ := holds.live hbefore
  set room := s.ensureMemory now (s.swapGrowth now key new ttl e) with hroom
  have hspared : Spared now s room.2 := ensureMemory_spared inv _
  have hstep : s.step now (.setIfEq key value new ttl) = answer .setIfEq
      (if room.1 then
        if (room.2.data.get key).isSome then
          (.set, room.2.writeString key (some (s.swapped now key new ttl e)))
        else (.notSet, room.2)
      else (.outOfMemory, room.2)) := by
    refine congrArg (answer .setIfEq) ((setIfEqLocal_eq inv value new ttl).trans ?_)
    simp only [hget, hlive, entryEquals, hplain, decide_true, Bool.not_false, Bool.and_self,
      if_true, ← hroom]
  have hstate : (s.step now (.setIfEq key value new ttl)).2 = room.2 := by
    rw [hstep] at hfailed ⊢
    split at hfailed
    · split at hfailed
      · exact absurd rfl hfailed
      · rename_i hgranted hgone
        rw [if_pos hgranted, if_neg hgone]
        rfl
    · rename_i hrefused
      rw [if_neg hrefused]
      rfl
  rw [hstate] at hspares ⊢
  obtain ⟨log, hlog, hnever⟩ := hspares
  obtain ⟨log', hlog', hkeys⟩ := hspared.log
  obtain rfl : log = log' := List.append_cancel_right (hlog.symm.trans hlog')
  rcases (hkeys key).1 with hsame | ⟨-, e', hget', hwhy⟩
  · exact holds.of_get (by rw [hspared.config]) fun e hget =>
      ⟨e, hsame.trans hget, rfl, rfl, rfl⟩
  · obtain rfl : e = e' := Option.some.inj (hget.symm.trans hget')
    rcases hwhy with hexp | hevicted
    · rw [hlive] at hexp
      cases hexp
    · exact absurd hevicted (hnever _)

/-- A compare-and-delete under the stored value succeeds. -/
theorem Holds.delIfEq_succeeds (inv : Inv s) (holds : Holds key value expiresAt s)
    (hbefore : expiresAt.any (· ≤ now) = false) :
    (s.step now (.delIfEq key value)).1 = .flag true := by
  obtain ⟨e, hget, hplain, -, hlive⟩ := holds.live hbefore
  show (answer .flag (s.delIfEqLocal now key value)).1 = _
  rw [delIfEqLocal_eq inv]
  simp [hget, hlive, entryEquals, hplain, answer]

/-- **One step around a lock keeps it** before its deadline, unless the holder gave it
up. -/
theorem Holds.step {Client : Type} {token : Client → Bytes}
    (hdistinct : Function.Injective token) {holder : Client} (inv : Inv s)
    (holds : Holds key (token holder) expiresAt s) (hbefore : expiresAt.any (· ≤ now) = false)
    {op : Op} (hop : Contends token key op)
    (hkept : gaveUp key (token holder) op (s.step now op).1 = false)
    (hspares : SparesKey key s (s.step now op).2) :
    Holds key (token holder) expiresAt (s.step now op).2 := by
  -- The call of another client finds a value that is not its token.
  have hother {client : Client} (hne : client ≠ holder) : ∀ e, s.data.get key = some e →
      e.isExpired now = false → e.plain s.config.compression.algo ≠ some (token client) := by
    intro e hget _ hplain
    obtain ⟨e', hget', hplain', -⟩ := holds
    obtain rfl : e = e' := Option.some.inj (hget.symm.trans hget')
    exact hne (hdistinct (Option.some.inj (hplain.symm.trans hplain')))
  cases hop with
  | acquire client ttl =>
    rw [holds.setNx_exists hbefore]
    exact holds
  | renew client new ttl =>
    by_cases hown : client = holder
    · subst hown
      refine holds.setIfEq_failed inv hbefore hspares fun hset => ?_
      rw [hset] at hkept
      simp [gaveUp] at hkept
    · rw [setIfEq_unchanged inv (hother hown)]
      exact holds
  | release client =>
    by_cases hown : client = holder
    · subst hown
      rw [holds.delIfEq_succeeds inv hbefore] at hkept
      simp [gaveUp] at hkept
    · rw [delIfEq_unchanged inv (hother hown)]
      exact holds
  | read hread => exact Reads.holds (step_reads inv now hread) hbefore holds
  | expireRound =>
    have hround : Reaps now s (s.expireRound now).2 := expireRound_reaps inv
    exact hround.holds hbefore holds
  | expireCycle =>
    have hrounds : Reaps now s (s.activeExpireRounds now).2 := activeExpireRounds_reaps inv
    refine (hrounds.holds hbefore holds).of_get rfl fun e hget => ⟨e, ?_, rfl, rfl, rfl⟩
    show ((s.activeExpireRounds now).2.data.shrinkWhere sparse).get key = some e
    rw [BucketMap.get_shrinkWhere, hget]

/-- A successful `SETNX` stores the token until its deadline. -/
theorem holds_of_inserted (lossless : P.Lossless) (inv : Inv s) {token : Bytes}
    {ttl : Option Duration}
    (hinserted : (s.step now (.setNx key token ttl)).1 = .setNx .inserted) :
    Holds key token (ttl.map (now + ·)) (s.step now (.setNx key token ttl)).2 := by
  set entry := s.written now key token (ttl.map (now + ·)) with hentry
  have hspared : Spared now s (s.ensureMemory now (stringCost key (some entry))).2 :=
    ensureMemory_spared inv _
  have hstep : s.step now (.setNx key token ttl) = answer .setNx _ :=
    congrArg (answer .setNx) (setNxOutcomeLocal_eq inv token ttl)
  rw [hstep] at hinserted ⊢
  split at hinserted
  · cases hinserted
  · rename_i hdead
    rw [if_neg hdead]
    simp only [← hentry] at hinserted ⊢
    split at hinserted
    · rename_i hgranted
      rw [if_pos hgranted]
      refine ⟨entry, by simp [answer], ?_, rfl⟩
      show entry.plain (writeString key (some entry) _).config.compression.algo = some token
      rw [writeString_config, hspared.config]
      exact encodeValue_plain lossless s.config token rfl rfl
    · cases hinserted

/-- **A run around a lock keeps it.** -/
theorem Holds.run {Client : Type} {token : Client → Bytes}
    (hdistinct : Function.Injective token) {holder : Client}
    (hbefore : expiresAt.any (· ≤ now) = false) {ops : List (Instant × Op)}
    (hclock : ∀ step ∈ ops, step.1 ≤ now) (inv : Inv s)
    (holds : Holds key (token holder) expiresAt s)
    (hops : Along (fun time op t => Contends token key op ∧
      gaveUp key (token holder) op (t.step time op).1 = false ∧
        SparesKey key t (t.step time op).2) ops s) :
    Holds key (token holder) expiresAt (s.runState ops) := by
  induction ops generalizing s with
  | nil => exact holds
  | cons head rest ih =>
    obtain ⟨time, op⟩ := head
    obtain ⟨⟨hop, hkept, hspares⟩, hrest⟩ := hops
    have hmoves := step_moves inv time op
    have htime : time ≤ now := hclock (time, op) List.mem_cons_self
    have hearlier : expiresAt.any (· ≤ time) = false := by
      cases expiresAt with
      | none => rfl
      | some deadline =>
        simp only [Option.any_some, decide_eq_false_iff_not, not_le] at hbefore ⊢
        exact htime.trans_lt hbefore
    rw [runState_cons]
    exact ih (fun step mem => hclock step (List.mem_cons_of_mem _ mem)) (Moves.inv hmoves inv)
      (holds.step hdistinct inv hearlier hop hkept hspares) hrest

/-- The live value at `key` is `value`. -/
def LiveValue (now : Instant) (key : String) (value : Bytes) (s : Store) : Prop :=
  ∃ e, s.data.get key = some e ∧ e.isExpired now = false ∧
    e.plain s.config.compression.algo = some value

end Holding

/-- **Lock safety.**  Once a client has taken the lock, every later `SETNX` before the
deadline finds it taken, whatever calls, reads and reaps came in between, unless the
holder released or renewed it or the key was evicted.  And a compare-and-set or a
compare-and-delete changes nothing unless the live value is the one it was given. -/
theorem lock_exclusive [P : Platform] (lossless : P.Lossless) {Client : Type}
    (token : Client → Bytes) (hdistinct : Function.Injective token) (key : String) (s : Store)
    (inv : Inv s) (holder : Client) (start : Instant) (ttl : Option Duration)
    (hinserted : (s.step start (.setNx key (token holder) ttl)).1 = .setNx .inserted)
    (ops : List (Instant × Op)) (client : Client) (now : Instant) (ttl' : Option Duration)
    (hclock : (start :: (ops.map Prod.fst ++ [now])).Pairwise (· ≤ ·))
    (hbefore : (ttl.map (start + ·)).any (· ≤ now) = false)
    (hops : Along (fun time op t => Contends token key op ∧
      gaveUp key (token holder) op (t.step time op).1 = false ∧
        SparesKey key t (t.step time op).2) ops (s.step start (.setNx key (token holder) ttl)).2) :
    (((s.step start (.setNx key (token holder) ttl)).2.runState ops).step now
        (.setNx key (token client) ttl')).1 = .setNx .exists ∧
      ∀ (t : Store), Inv t → ∀ (time : Instant) (expected : Bytes),
        (∀ value ttl, (t.step time (.setIfEq key expected value ttl)).2 ≠ t →
            t.LiveValue time key expected) ∧
          ((t.step time (.delIfEq key expected)).2 ≠ t → t.LiveValue time key expected) := by
  constructor
  · have hmoves := step_moves inv start (.setNx key (token holder) ttl)
    have hholds := holds_of_inserted lossless inv hinserted
    have htimes : ∀ step ∈ ops, step.1 ≤ now := by
      intro step mem
      have hpairs := (List.pairwise_append.mp (List.pairwise_cons.mp hclock).2).2.2
      exact hpairs step.1 (List.mem_map_of_mem mem) now (List.mem_singleton.mpr rfl)
    have hheld := hholds.run hdistinct hbefore htimes (Moves.inv hmoves inv) hops
    rw [hheld.setNx_exists hbefore]
  · intro t invT time expected
    have hlive (hchanged : ¬ ∀ e, t.data.get key = some e → e.isExpired time = false →
        e.plain t.config.compression.algo ≠ some expected) : t.LiveValue time key expected := by
      push Not at hchanged
      obtain ⟨e, hget, hfresh, hplain⟩ := hchanged
      exact ⟨e, hget, hfresh, hplain⟩
    constructor
    · intro value ttl hchanged
      exact hlive fun hother => hchanged (setIfEq_unchanged invT hother value ttl)
    · intro hchanged
      exact hlive fun hother => hchanged (delIfEq_unchanged invT hother)

/-- Two clients: the second one tries to release the lock, the key is read and the
background task runs; the lock is still taken just before its deadline. -/
theorem lock_exclusive_sample :
    letI := Platform.small
    let token : Bool → Bytes := fun client => if client then [1] else [2]
    let s := new ⟨0, .noEviction, CompressionConfig.default⟩
    let ops : List (Instant × Op) := [(10, .delIfEq "k" (token false)), (20, .get "k"),
      (30, .expireRound), (40, .setIfEq "k" (token false) [9] .persist)]
    (((s.step 0 (.setNx "k" (token true) (some 100))).2.runState ops).step 99
        (.setNx "k" (token false) none)).1 = .setNx .exists ∧
      ((s.step 0 (.setNx "k" (token true) (some 100))).2.step 100
        (.setNx "k" (token false) none)).1 = .setNx .inserted := by
  let _ := Platform.small
  refine ⟨?_, by decide⟩
  set token : Bool → Bytes := fun client => if client then [1] else [2] with htoken
  have hdistinct : Function.Injective token := by
    intro a b h
    cases a <;> cases b <;> simp_all
  have hsilent (op : Op) (time : Instant) (t : Store)
      (h : (t.step time op).2.events = t.events) : SparesKey "k" t (t.step time op).2 :=
    ⟨[], h, fun _ => List.not_mem_nil⟩
  exact (lock_exclusive Platform.small_lossless token hdistinct "k"
    (new ⟨0, .noEviction, CompressionConfig.default⟩) (new_isNew _).inv true 0 (some 100)
    (by decide) [(10, .delIfEq "k" (token false)), (20, .get "k"), (30, .expireRound),
      (40, .setIfEq "k" (token false) [9] .persist)] false 99 none (by decide) (by decide)
    ⟨⟨.release false, by decide, hsilent _ _ _ (by decide)⟩,
      ⟨.read rfl, by decide, hsilent _ _ _ (by decide)⟩,
      ⟨.expireRound, by decide, hsilent _ _ _ (by decide)⟩,
      ⟨.renew false [9] .persist, by decide, hsilent _ _ _ (by decide)⟩, trivial⟩).1

end Store

end Ephpm.Kv
