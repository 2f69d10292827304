import Mathlib.Tactic.Linarith
import Ephpm.Kv.Frame

/-!
# Reading an absolute expiry back

`EXPIREAT t` sets a deadline from a Unix time and `EXPIRETIME` tells it again.  The store holds
deadlines on the monotonic clock, so both commands go through the distance from now, and both
read the wall clock in **whole milliseconds** (`absolute_ttl` and `unix_ms_now` in `command.rs`
and `store/mod.rs`).  What a reading leaves out of the wall clock, `subMillis`, goes into the
deadline when it is set and comes out of the answer when it is read, and rounding to the nearest
millisecond hides the difference of the two only while it is less than half a millisecond.

The two clocks run at the same rate: the wall clock shows `now + offset` nanoseconds since the
Unix epoch.  As everywhere in the model, a command has one reading of the clock.

`expireAt_readsBack_iff` says for which clocks and which keys the time reads back.
-/

namespace Ephpm.Kv

open Lib

/-- The largest `i64`. -/
def i64Max : ℤ := 2 ^ 63 - 1

/-- The unit of an expire argument. -/
inductive TtlUnit where
  | seconds
  | millis
deriving DecidableEq, Repr

/-- The milliseconds of a unit. -/
def TtlUnit.scale : TtlUnit → ℤ
  | .seconds => 1000
  | .millis => 1

/-- An amount in milliseconds, unless it overflows. -/
def TtlUnit.toMillis : TtlUnit → ℤ → Option ℤ
  | .seconds, amount => if isI64 (amount * 1000) then some (amount * 1000) else none
  | .millis, amount => some amount

/-- `unix_ms_now`: a clock that stands before the epoch reads zero. -/
def unixMsNow (offset : ℤ) (now : Instant) : ℤ :=
  min (max 0 (((now : ℕ) + offset) / 1000000)) i64Max

/-- `Duration::from_millis`. -/
def fromMillis (ms : ℕ) : Duration := ms * 1000000

/-- What the wall clock shows beyond its reading in milliseconds. -/
def subMillis (offset : ℤ) (now : Instant) : ℤ :=
  (now : ℕ) + offset - 1000000 * unixMsNow offset now

/-- An absolute expire time relative to now. -/
inductive AbsoluteTtl where
  | after (ttl : Duration)
  | passed
deriving DecidableEq, Repr

section Clocks

variable [P : Platform]

/-- `checked_ttl`: a relative expire amount as a duration that the store can hold. -/
def checkedTtl (offset : ℤ) (now : Instant) (amount : ℤ) (unit : TtlUnit) : Option Duration :=
  if amount ≤ 0 then none
  else
    (unit.toMillis amount).bind fun ms =>
      (checkedAddI64 (unixMsNow offset now) ms).bind fun _ =>
        let ttl := fromMillis ms.toNat
        (checkedAdd now ttl).map fun _ => ttl

/-- `absolute_ttl`: `none` is a time that is out of range. -/
def absoluteTtl (offset : ℤ) (now : Instant) (time : ℤ) (unit : TtlUnit) : Option AbsoluteTtl :=
  (unit.toMillis time).bind fun timeMs =>
    (checkedAddI64 timeMs (-unixMsNow offset now)).bind fun remaining =>
      if remaining ≤ 0 then some .passed
      else (checkedTtl offset now remaining .millis).map .after

/-- A duration in milliseconds, rounded to the nearest. -/
def roundedMs (d : Duration) : ℤ := min (((d + 500000) / 1000000 : ℕ) : ℤ) i64Max

/-- `instant_to_unix_ms`: a deadline on the clock of the system. -/
def instantToUnixMs (offset : ℤ) (now deadline : Instant) : ℤ :=
  if now ≤ deadline then min (unixMsNow offset now + roundedMs (deadline - now)) i64Max
  else max (unixMsNow offset now - roundedMs (now - deadline)) (-2 ^ 63)

namespace Store

/-- The expiry of `key` if it is a live string: `some none` is no expiry. -/
def stringExpiry (now : Instant) (key : String) (s : Store) : Option (Option Instant) :=
  ((s.data.get key).filter (!·.isExpired now)).map (·.expiresAt)

/-- The expiry of `key`: of the string, and of the hash where there is no live string. -/
def keyExpiry (now : Instant) (key : String) (s : Store) : Option (Option Instant) :=
  (s.stringExpiry now key).or (s.hashKeyExpiry now key)

/-- `expire_time_ms`: -1 is no expiry, `none` a missing key. -/
def expireTimeMs (offset : ℤ) (now : Instant) (key : String) (s : Store) : Option ℤ :=
  (s.keyExpiry now key).map fun deadline => deadline.elim (-1) (instantToUnixMs offset now)

/-- `EXPIRETIME` and `PEXPIRETIME`. -/
def expireTime (offset : ℤ) (now : Instant) (unit : TtlUnit) (key : String) (s : Store) : ℤ :=
  match s.expireTimeMs offset now key with
  | none => -2
  | some ms => if ms = -1 then -1 else ms.tdiv unit.scale

/-- `EXPIREAT` and `PEXPIREAT`: a time already past deletes the key. -/
def expireAt (offset : ℤ) (now : Instant) (unit : TtlUnit) (key : String) (time : ℤ) (s : Store) :
    Except String Bool × Store :=
  let name := match unit with
    | .seconds => "expireat"
    | .millis => "pexpireat"
  match absoluteTtl offset now time unit with
  | none => (.error ("ERR invalid expire time in '" ++ name ++ "' command"), s)
  | some .passed =>
    let found := s.existsKey now key
    (.ok found.1, if found.1 then (found.2.removeLocal now key).2 else found.2)
  | some (.after ttl) =>
    let expired := s.expire now key ttl
    (.ok expired.1, expired.2)

end Store

/-! ## The arithmetic of the two clocks -/

omit P in
theorem natCast_fromMillis {ms read : ℤ} (hle : read ≤ ms) :
    (fromMillis (ms + -read).toNat : ℤ) = (ms - read) * 1000000 := by
  rw [fromMillis, Nat.cast_mul, Int.toNat_of_nonneg (by omega), Int.sub_eq_add_neg]
  rfl

omit P in
theorem toMillis_eq_some {unit : TtlUnit} {amount ms : ℤ} (h : unit.toMillis amount = some ms) :
    ms = amount * unit.scale := by
  cases unit with
  | seconds =>
    rw [TtlUnit.toMillis, Option.ite_none_right_eq_some] at h
    exact (Option.some.inj h.2).symm
  | millis => rw [TtlUnit.scale, mul_one, Option.some.inj h]

omit P in
theorem checkedAddI64_eq_some {a b c : ℤ} (h : checkedAddI64 a b = some c) :
    c = a + b ∧ c ≤ i64Max := by
  rw [checkedAddI64, Option.ite_none_right_eq_some] at h
  obtain ⟨hfits, hc⟩ := h
  obtain rfl := Option.some.inj hc
  rw [isI64, decide_eq_true_eq] at hfits
  exact ⟨rfl, Int.le_sub_one_of_lt hfits.2⟩

theorem checkedAdd_eq_some {now deadline : Instant} {ttl : Duration}
    (h : checkedAdd now ttl = some deadline) : deadline = now + ttl := by
  rw [checkedAdd, Option.ite_none_right_eq_some] at h
  exact (Option.some.inj h.2).symm

/-- What `absolute_ttl` has checked about a time in the future. -/
theorem absoluteTtl_after {offset time : ℤ} {now : Instant} {unit : TtlUnit} {ttl : Duration}
    (hafter : absoluteTtl offset now time unit = some (.after ttl)) :
    checkedAdd now ttl = some (now + ttl) ∧ time * unit.scale ≤ i64Max ∧
      unixMsNow offset now < time * unit.scale ∧
        (ttl : ℤ) = (time * unit.scale - unixMsNow offset now) * 1000000 := by
  obtain ⟨ms, hms, hafter⟩ := Option.bind_eq_some_iff.mp hafter
  obtain ⟨remaining, hremaining, hafter⟩ := Option.bind_eq_some_iff.mp hafter
  obtain ⟨rfl, -⟩ := checkedAddI64_eq_some hremaining
  obtain rfl := toMillis_eq_some hms
  split at hafter
  · cases hafter
  next hpositive =>
    obtain ⟨d, hd, hafter⟩ := Option.map_eq_some_iff.mp hafter
    obtain rfl : d = ttl := by injection hafter
    rw [checkedTtl, if_neg hpositive, TtlUnit.toMillis, Option.bind_some] at hd
    obtain ⟨sum, hsum, hd⟩ := Option.bind_eq_some_iff.mp hd
    obtain ⟨rfl, hfits⟩ := checkedAddI64_eq_some hsum
    obtain ⟨deadline, hdeadline, rfl⟩ := Option.map_eq_some_iff.mp hd
    rw [checkedAdd_eq_some hdeadline] at hdeadline
    exact ⟨hdeadline, by omega, by omega, natCast_fromMillis (by omega)⟩

omit P in
theorem unixMsNow_nonneg (offset : ℤ) (now : Instant) : 0 ≤ unixMsNow offset now := by
  rw [unixMsNow, i64Max]
  omega

omit P in
theorem unixMsNow_of_lt {offset ms : ℤ} {now : Instant} (hms : ms ≤ i64Max)
    (hread : unixMsNow offset now < ms) :
    unixMsNow offset now = max 0 (((now : ℕ) + offset) / 1000000) := by
  rw [unixMsNow] at hread ⊢
  omega

omit P in
/-- **What is read back**: the time, moved by what the two readings of the wall clock left
out. -/
theorem instantToUnixMs_deadline {offset ms : ℤ} {now later : Instant} {ttl : Duration}
    (hms : ms ≤ i64Max) (httl : (ttl : ℤ) = (ms - unixMsNow offset now) * 1000000) (hle : now ≤ later)
    (hahead : later < now + ttl) :
    instantToUnixMs offset later (now + ttl) =
      min (ms + (subMillis offset now - subMillis offset later + 500000) / 1000000) i64Max := by
  have hpositive := unixMsNow_nonneg offset now
  rw [instantToUnixMs, if_pos (Nat.le_of_lt hahead), roundedMs, subMillis, subMillis]
  generalize unixMsNow offset later = read' at *
  generalize unixMsNow offset now = read at *
  have hdistance : ((now + ttl - later : ℕ) : ℤ) = (now : ℕ) + (ms - read) * 1000000 - (later : ℕ) := by
    rw [Nat.cast_sub (Nat.le_of_lt hahead), Nat.cast_add, httl]
  have hround : ((now + ttl - later : ℕ) + 500000 : ℤ) / 1000000 =
      ms - read' + ((now : ℕ) + offset - 1000000 * read - ((later : ℕ) + offset - 1000000 * read')
        + 500000) / 1000000 := by
    rw [hdistance]
    omega
  have hsmall : ((now + ttl - later : ℕ) + 500000 : ℤ) / 1000000 ≤ i64Max := by
    rw [hdistance]
    have : ((now : ℕ) : ℤ) ≤ (later : ℕ) := Int.ofNat_le.mpr hle
    omega
  rw [Int.natCast_ediv, Nat.cast_add, Nat.cast_ofNat, Nat.cast_ofNat, min_eq_left hsmall, hround]
  congr 1
  ring

omit P in
/-- **Before the time, with less than half a millisecond lost, the deadline lies ahead.** -/
theorem deadline_ahead {offset ms : ℤ} {now later : Instant} {ttl : Duration}
    (hms : ms ≤ i64Max) (hread : unixMsNow offset now < ms)
    (httl : (ttl : ℤ) = (ms - unixMsNow offset now) * 1000000)
    (hbefore : (later : ℕ) + offset < ms * 1000000)
    (hlost : subMillis offset later ≤ subMillis offset now + 500000) : later < now + ttl := by
  have hpositive := unixMsNow_nonneg offset now
  have hread' : unixMsNow offset later < ms := by
    rw [unixMsNow]
    omega
  have hnow := unixMsNow_of_lt hms hread
  have hlater := unixMsNow_of_lt hms hread'
  rw [subMillis, subMillis] at hlost
  generalize unixMsNow offset later = read' at *
  generalize unixMsNow offset now = read at *
  have : ((later : ℕ) : ℤ) < (now : ℕ) + ttl := by omega
  exact_mod_cast this

/-! ## The key that is set -/

namespace Store

variable {s : Store} {now later : Instant} {key : String}

theorem hashSetKeyExpiry_some (inv : Inv s) (deadline : Instant) :
    (s.hashSetKeyExpiry now key (some deadline)).2.data = s.data ∧
      (s.hashSetKeyExpiry now key (some deadline)).2.hashes.get key =
        (s.hashes.get key).bind fun h =>
          (kept (refreshed now key h)).map fun left =>
            (left.touch (s.nowNanos now)).withExpiry (some deadline) := by
  have hwrite : (s.hashSetKeyExpiry now key (some deadline)).2 =
      (s.hashWrite now key false (keyExpiryOp (some deadline))).2 := by
    simp [hashSetKeyExpiry]
  rw [hwrite, hashWrite]
  cases hget : s.hashes.get key with
  | none => exact ⟨rfl, hget⟩
  | some h =>
    simp only [hashWriteOn_eq inv hget, Option.bind_some, kept]
    by_cases hempty : (refreshed now key h).fields.entries.isEmpty = true
    · simp [hempty, putHash]
    · have hleft : ¬ (keyExpiryOp (some deadline)
          ((refreshed now key h).touch (s.nowNanos now))).2.fields.entries.isEmpty = true := hempty
      simp only [hempty, Bool.not_false, Bool.true_and, Bool.false_eq_true, if_false, hleft,
        putHash, BucketMap.get_set, if_true, Option.map_some]
      exact ⟨trivial, rfl⟩

/-- The key can still be read at `later`, were it not for its expiry: it is a live string, or,
with no string of that name, a hash of which a field is left. -/
def readable (now later : Instant) (key : String) (s : Store) : Bool :=
  match s.data.get key with
  | some e => !e.isExpired now
  | none => (s.hashes.get key).any fun h => !h.keyExpired now && !(h.liveFields later).isEmpty

omit P in
theorem liveFields_refreshed {h : HashEntry} (hkey : h.keyExpired now = false)
    (hle : now ≤ later) : (refreshed now key h).liveFields later = h.liveFields later := by
  rw [refreshed, hkey, if_neg Bool.false_ne_true, HashEntry.liveFields,
    HashEntry.purgeExpiredFields_fields, HashEntry.liveOnly_entries, HashEntry.liveFields,
    HashEntry.liveFields, List.filter_filter]
  refine List.filter_congr fun field _ => ?_
  rw [Bool.and_eq_left_iff_imp]
  exact HashField.isLive_of_le hle

/-- What the hash of that name tells at `later`. -/
theorem hashKeyExpiry_set (inv : Inv s) (hle : now ≤ later) {deadline : Instant} :
    (s.hashSetKeyExpiry now key (some deadline)).2.hashKeyExpiry later key =
      if (s.hashes.get key).any (fun h => !h.keyExpired now && !(h.liveFields later).isEmpty)
          ∧ later < deadline
        then some (some deadline) else none := by
  rw [hashKeyExpiry, (hashSetKeyExpiry_some inv deadline).2]
  cases hget : s.hashes.get key with
  | none => simp
  | some h =>
    rw [Option.bind_some, Option.any_some]
    by_cases hkey : h.keyExpired now = true
    · simp [refreshed, kept, hkey, HashEntry.reset, Assoc.empty]
    · rw [Bool.not_eq_true] at hkey
      have hleft := @liveFields_refreshed _ _ key _ hkey hle
      simp only [hkey, Bool.not_false, Bool.true_and, kept]
      split
      next hempty =>
        -- No field was live when the expiry was set, so none is later.
        have hnone : (h.liveFields later).isEmpty = true := by
          rw [← hleft, HashEntry.liveFields, List.isEmpty_iff.mp hempty]
          rfl
        simp [hnone]
      next =>
        rw [Option.map_some, Option.bind_some, ← hleft]
        refine if_congr ?_ rfl rfl
        rw [HashEntry.isLive_iff, and_comm]
        simp [HashEntry.keyExpired, HashEntry.withExpiry, HashEntry.touch, HashEntry.liveFields]

/-- **What the key tells at `later` after `EXPIRE`.** -/
theorem keyExpiry_expire (inv : Inv s) (hle : now ≤ later) {ttl : Duration}
    (hfits : checkedAdd now ttl = some (now + ttl)) :
    (s.expire now key ttl).2.keyExpiry later key =
      if s.readable now later key ∧ later < now + ttl then some (some (now + ttl)) else none := by
  -- The first step may reap a hash whose key has expired, which cannot be read anyway.
  have hreads : Reads now s (s.isHash now key).2 := isHash_reads inv
  have hdata : (s.isHash now key).2.data = s.data := by
    rw [isHash_eq inv]
    split
    · rfl
    · split
      · simp [reaped, putHash]
      · rfl
  have hhash : ((s.isHash now key).2.hashes.get key).any
      (fun h => !h.keyExpired now && !(h.liveFields later).isEmpty) =
        (s.hashes.get key).any fun h => !h.keyExpired now && !(h.liveFields later).isEmpty := by
    rw [isHash_eq inv]
    split
    · rfl
    next h hget =>
      split
      next hkey => simp [reaped, settled, putHash, hget, hkey]
      next => rfl
  have hexpire : (s.expire now key ttl).2 =
      (((s.isHash now key).2.expireLocal now key ttl).2.hashSetKeyExpiry now key
        (some (now + ttl))).2 := by
    rw [expire, hfits]
  have hreadable : s.readable now later key = (s.isHash now key).2.readable now later key := by
    rw [readable, readable, hdata, hhash]
  rw [hexpire, hreadable]
  have invHash : Inv (s.isHash now key).2 := hreads.inv inv
  generalize (s.isHash now key).2 = t at invHash
  have hstring : Path (Change now .late) t (t.expireLocal now key ttl).2 :=
    expireLocal_changes invHash ttl
  have invString := changes_inv hstring invHash
  rw [keyExpiry, hashKeyExpiry_set invString hle, stringExpiry,
    (hashSetKeyExpiry_some invString _).1]
  rw [expireLocal_eq invHash, readable]
  cases hget : t.data.get key with
  | none => simp [hget]
  | some e =>
    by_cases hexpired : e.isExpired now = true
    · simp [hexpired, removeLocal_data_get invHash, (removeLocal_gone invHash now key).1]
    · rw [Bool.not_eq_true] at hexpired
      simp only [hexpired, Bool.false_eq_true, if_false, Bool.not_false, true_and, putString,
        BucketMap.get_set, if_true]
      by_cases hahead : later < now + ttl
      · simp [hahead, Entry.isExpired]
      · simp [hahead, Entry.isExpired, not_lt.mp hahead]

omit P in
/-- The first reading does not leave out a millisecond more than the second. -/
theorem subMillis_sub_lt {offset ms : ℤ} (hms : ms ≤ i64Max) (hle : now ≤ later)
    (hread : unixMsNow offset now < ms) :
    subMillis offset now - subMillis offset later < 1000000 := by
  have hnow := unixMsNow_of_lt hms hread
  have hlater : unixMsNow offset later ≤ max 0 (((later : ℕ) + offset) / 1000000) := min_le_left _ _
  have hle' : ((now : ℕ) : ℤ) ≤ (later : ℕ) := Int.ofNat_le.mpr hle
  rw [subMillis, subMillis, hnow]
  generalize unixMsNow offset later = read' at *
  omega

omit P in
/-- The answer for a deadline that reads back moved by at most a millisecond. -/
theorem answer_eq_iff {unit : TtlUnit} {time moved : ℤ} (htime : 0 < time)
    (hms : time * unit.scale ≤ i64Max) (hmoved : moved ≤ 1) {ms : ℤ}
    (hms' : ms = min (time * unit.scale + moved) i64Max) :
    (if ms = -1 then -1 else ms.tdiv unit.scale) = time ↔
      0 ≤ moved ∧ (moved < 1 ∨ unit = .seconds ∨ time = i64Max) := by
  rw [i64Max] at *
  cases unit with
  | seconds =>
    rw [TtlUnit.scale] at *
    rcases lt_or_ge ms 0 with hneg | hnonneg
    · have hdiv : 0 ≤ (-ms).tdiv 1000 := Int.tdiv_nonneg (by omega) (by decide)
      rw [Int.neg_tdiv] at hdiv
      split <;> omega
    · rw [if_neg (by omega), Int.tdiv_eq_ediv_of_nonneg hnonneg]
      simp only [true_or, or_true, and_true]
      omega
  | millis =>
    rw [TtlUnit.scale, mul_one] at *
    simp only [Int.tdiv_one, reduceCtorEq, false_or]
    split <;> omega

/-- **Exactly when an absolute expiry reads back.**  The key is a live string, or a hash with
no expired string of that name and with a field that lives that long, and what the readings of
the wall clock leave out differs by less than half a millisecond.  In seconds only one
side matters, and the largest time cannot be exceeded. -/
theorem expireAt_readsBack_iff (inv : Inv s) (hle : now ≤ later) {offset time : ℤ}
    {unit : TtlUnit} {ttl : Duration}
    (hfuture : absoluteTtl offset now time unit = some (.after ttl))
    (hbefore : (later : ℕ) + offset < time * unit.scale * 1000000) :
    (s.expireAt offset now unit key time).2.expireTime offset later unit key = time ↔
      s.readable now later key = true ∧
        subMillis offset later ≤ subMillis offset now + 500000 ∧
        (subMillis offset now < subMillis offset later + 500000 ∨ unit = .seconds ∨
          time = i64Max) := by
  obtain ⟨hfits, hms, hread, httl⟩ := absoluteTtl_after hfuture
  have hpositive := unixMsNow_nonneg offset now
  have hafter : (s.expireAt offset now unit key time).2 = (s.expire now key ttl).2 := by
    simp only [expireAt, hfuture]
  have hscale : 0 < unit.scale := by cases unit <;> decide
  have htime : 0 < time := by
    by_contra hneg
    have := mul_nonpos_of_nonpos_of_nonneg (not_lt.mp hneg) hscale.le
    omega
  rw [hafter, expireTime, expireTimeMs, keyExpiry_expire inv hle hfits]
  by_cases hahead : s.readable now later key = true ∧ later < now + ttl
  · simp only [hahead, and_self, if_true, Option.map_some, Option.elim_some, true_and]
    have hless := subMillis_sub_lt hms hle hread
    rw [answer_eq_iff htime hms (by omega) (instantToUnixMs_deadline hms httl hle hahead.2)]
    refine and_congr (by omega) (or_congr_left (by omega))
  · rw [if_neg hahead]
    -- No such key any more: had less been left out, the deadline would lie ahead.
    refine iff_of_false (by simp only [Option.map_none]; omega) ?_
    rintro ⟨hkey, hlost, -⟩
    exact hahead ⟨hkey, deadline_ahead hms hread httl hbefore hlost⟩

end Store

end Clocks

namespace Store

/-- A string that is to expire after ten milliseconds, asked after a third of one. -/
theorem expireAt_readsBack_iff_sample :
    letI := Platform.small
    let s := (new ⟨0, .allKeysLru, CompressionConfig.default⟩).runState [(0, .set "k" [1] none)]
    (s.expireAt 0 0 .millis "k" 10).2.expireTime 0 333333 .millis "k" = 10 := by
  let _ := Platform.small
  refine (@expireAt_readsBack_iff _ _ _ _ _ ((new_isNew _).inv.runState _) ?_ _ _ _ 10000000 ?_ ?_).mpr
    ⟨?_, ?_, .inl ?_⟩ <;> decide

/-- **`EXPIREAT 1`, asked two thirds of a millisecond later, reads back as 0.** -/
theorem expireTime_one_less :
    letI := Platform.small
    ¬ ∀ (s : Store) (offset time : ℤ) (now later : Instant) (unit : TtlUnit) (ttl : Duration)
        (key : String), Inv s → (s.existsKey now key).1 = true → now ≤ later →
          absoluteTtl offset now time unit = some (.after ttl) →
            (later : ℕ) + offset < time * unit.scale * 1000000 →
              (s.expireAt offset now unit key time).2.expireTime offset later unit key = time := by
  let _ := Platform.small
  intro hclaim
  have hread := hclaim
    ((new ⟨0, .allKeysLru, CompressionConfig.default⟩).runState [(0, .set "k" [1] none)])
    0 1 0 666666 .seconds 1000000000 "k" ((new_isNew _).inv.runState _) (by decide) (by decide)
    (by decide) (by decide)
  exact absurd hread (by decide)

end Store

end Ephpm.Kv
