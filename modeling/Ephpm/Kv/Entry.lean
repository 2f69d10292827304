import Mathlib.Data.List.Sort
import Ephpm.Lib.BucketMap

/-!
# Entries of the key-value store

The data a store keeps under a string key (`store/entry.rs`), the configuration
it is built with, and what it takes from outside: the sizes the compiler gives
its structs, the compression crates, an unstable sort and floating point.

**Time.**  An `Instant` is a reading of the monotonic clock in nanoseconds and a
`Duration` a number of nanoseconds.  Every operation of the model is given the
reading `now` it works with; the clock may move freely between operations.

**Sizes.**  Byte counts are natural numbers.  Where the source saturates a
subtraction the model does too, since subtraction of natural numbers is
truncated.
-/

namespace Ephpm.Kv

/-- A byte string (`Bytes`, `Vec<u8>`). -/
abbrev Bytes := List UInt8

/-- A reading of the monotonic clock, in nanoseconds. -/
abbrev Instant := ℕ

/-- A length of time, in nanoseconds. -/
abbrev Duration := ℕ

/-- Length of a key in bytes (`str::len`). -/
def keyLen (key : String) : ℕ := key.utf8ByteSize

/-- The largest `u64`. -/
def u64Max : ℕ := 2 ^ 64 - 1

/-! ## Configuration -/

/-- What the store does when the memory limit is reached. -/
inductive EvictionPolicy where
  | noEviction
  | allKeysLru
  | volatileLru
  | allKeysRandom
deriving DecidableEq, Repr

/-- Compression algorithm for stored values. -/
inductive CompressionAlgo where
  | none
  | gzip
  | brotli
  | zstd
deriving DecidableEq, Repr

/-- Configuration for value compression. -/
structure CompressionConfig where
  algo : CompressionAlgo
  level : ℕ
  minSize : ℕ
deriving DecidableEq, Repr

/-- The default: no compression. -/
def CompressionConfig.default : CompressionConfig := ⟨.none, 6, 1024⟩

/-- Configuration of a store; a `memoryLimit` of `0` is no limit. -/
structure StoreConfig where
  memoryLimit : ℕ
  evictionPolicy : EvictionPolicy
  compression : CompressionConfig
deriving DecidableEq, Repr

/-- The default configuration: 256 MiB, `allkeys-lru`, no compression. -/
def StoreConfig.default : StoreConfig :=
  ⟨256 * 1024 * 1024, .allKeysLru, CompressionConfig.default⟩

/-! ## The platform -/

/-- An eviction candidate.  A lower `idleRank` is a better victim. -/
structure Victim where
  key : String
  hash : Bool
  idleRank : ℕ
deriving DecidableEq, Repr

/-- What the store is built on and does not decide itself.

* `entrySize` is `size_of::<Entry>()`, `instantMax` the last representable
  instant.
* `encoder` and `decoder` are the compression crates; `none` is an error.
* `sortByRank` is an unstable sort: it may order equal ranks as it likes.
* the `float` operations act on the bits of an `f64`. -/
class Platform where
  entrySize : ℕ
  instantMax : Instant
  encoder : CompressionAlgo → ℕ → Bytes → Option Bytes
  decoder : CompressionAlgo → Bytes → Option Bytes
  sortByRank : List Victim → List Victim
  sortByRank_perm : ∀ pool, (sortByRank pool).Perm pool
  sortByRank_sorted : ∀ pool, (sortByRank pool).Pairwise fun a b => a.idleRank ≤ b.idleRank
  floatParse : Bytes → Option UInt64
  floatAdd : UInt64 → UInt64 → UInt64
  floatIsFinite : UInt64 → Bool
  floatFormat : UInt64 → Bytes

/-- **The compression crates are lossless**: what an encoder produced, the
decoder of the same algorithm turns back. -/
def Platform.Lossless (P : Platform) : Prop :=
  ∀ algo level data out,
    P.encoder algo level data = some out → P.decoder algo out = some data

/-- `Instant::checked_add`. -/
def checkedAdd [P : Platform] (now : Instant) (ttl : Duration) : Option Instant :=
  if now + ttl ≤ P.instantMax then some (now + ttl) else none

/-- `compress_value`: an encoder that fails hands the data back. -/
def compressValue [P : Platform] (data : Bytes) (config : CompressionConfig) : Bytes :=
  (P.encoder config.algo config.level data).getD data

/-- `decompress_value`.  It is never called for `CompressionAlgo::None`, where
the source has `unreachable!()`. -/
def decompressValue [P : Platform] (data : Bytes) (algo : CompressionAlgo) : Option Bytes :=
  P.decoder algo data

/-- `encode_value`: the bytes the store keeps for `value`, and whether they are
compressed. -/
def encodeValue [Platform] (config : StoreConfig) (value : Bytes) : Bytes × Bool :=
  if config.compression.algo ≠ .none ∧ config.compression.minSize ≤ value.length then
    let compressed := compressValue value config.compression
    if compressed.length < value.length then (compressed, true) else (value, false)
  else (value, false)

/-! ## Entries -/

/-- Below this age of the recorded access a touch is skipped. -/
def lruTouchGranularityNanos : ℕ := 100000000

/-- The shared body of `Entry::touch` and `HashEntry::touch`. -/
def touchClock (lastAccessed nowNanos : ℕ) : ℕ :=
  if lruTouchGranularityNanos ≤ nowNanos - lastAccessed then nowNanos else lastAccessed

/-- A value stored under a string key. -/
structure Entry where
  data : Bytes
  compressed : Bool
  expiresAt : Option Instant
  lastAccessed : ℕ
  memSize : ℕ
deriving DecidableEq, Repr

namespace Entry

variable [P : Platform]

/-- Rough memory estimate: key, value, struct and map overhead. -/
def estimateSize (keyLen valueLen : ℕ) : ℕ := keyLen + valueLen + P.entrySize + 64

/-- `Entry::new` and, with a deadline, `Entry::with_expiry`. -/
def new (data : Bytes) (keyLen : ℕ) (compressed : Bool) (expiresAt : Option Instant)
    (nowNanos : ℕ) : Entry where
  data := data
  compressed := compressed
  expiresAt := expiresAt
  lastAccessed := nowNanos
  memSize := estimateSize keyLen data.length

/-- Whether the entry has expired. -/
def isExpired (e : Entry) (now : Instant) : Bool := e.expiresAt.any (· ≤ now)

/-- Record an access. -/
def touch (e : Entry) (nowNanos : ℕ) : Entry :=
  { e with lastAccessed := touchClock e.lastAccessed nowNanos }

/-- The logical value: what a reader of the entry gets. -/
def plain (e : Entry) (algo : CompressionAlgo) : Option Bytes :=
  if e.compressed then decompressValue e.data algo else some e.data

/-- The entry is charged what its key and value are estimated at. -/
def Sized (key : String) (e : Entry) : Prop :=
  e.memSize = estimateSize (keyLen key) e.data.length

theorem new_sized (data : Bytes) (key : String) (compressed : Bool)
    (expiresAt : Option Instant) (nowNanos : ℕ) :
    (new data (keyLen key) compressed expiresAt nowNanos).Sized key := rfl

omit P in
theorem isExpired_iff {e : Entry} {now : Instant} :
    e.isExpired now = true ↔ ∃ deadline, e.expiresAt = some deadline ∧ deadline ≤ now := by
  simp [isExpired, Option.any_eq_true]

omit P in
@[simp] theorem isExpired_touch (e : Entry) (nowNanos : ℕ) (now : Instant) :
    (e.touch nowNanos).isExpired now = e.isExpired now := rfl

end Entry

/-- **A stored value reads back as what was written**, whether or not the
store decided to keep it compressed. -/
theorem encodeValue_plain [P : Platform] (lossless : P.Lossless) (config : StoreConfig)
    (value : Bytes) {e : Entry} (hdata : e.data = (encodeValue config value).1)
    (hflag : e.compressed = (encodeValue config value).2) :
    e.plain config.compression.algo = some value := by
  unfold encodeValue at hdata hflag
  unfold Entry.plain
  split at hdata
  next hconf =>
    rw [if_pos hconf] at hflag
    simp only at hdata hflag
    split at hdata
    next hsmaller =>
      rw [if_pos hsmaller] at hflag
      rw [hflag, if_pos rfl, hdata]
      -- A compressor that failed hands the value back, which is not smaller.
      cases hout : P.encoder config.compression.algo config.compression.level value with
      | none =>
        rw [compressValue, hout] at hsmaller
        exact absurd hsmaller (lt_irrefl _)
      | some out =>
        rw [compressValue, hout]
        exact lossless _ _ _ _ hout
    next hlarger =>
      rw [if_neg hlarger] at hflag
      simp [hflag, hdata]
  next hconf =>
    rw [if_neg hconf] at hflag
    simp [hflag, hdata]

/-! ## Decimal integers -/

/-- The value of a nonempty run of ASCII digits. -/
def parseDigits : Bytes → ℕ → Option ℕ
  | [], acc => some acc
  | digit :: rest, acc =>
    if 48 ≤ digit ∧ digit ≤ 57 then parseDigits rest (acc * 10 + (digit - 48).toNat)
    else none

/-- Whether an integer is an `i64`. -/
def isI64 (n : ℤ) : Bool := -2 ^ 63 ≤ n ∧ n < 2 ^ 63

/-- `str::parse::<i64>` on bytes: an optional sign and at least one digit. -/
def parseI64 (data : Bytes) : Option ℤ :=
  let unsigned (digits : Bytes) (sign : ℤ) : Option ℤ :=
    if digits.isEmpty then none
    else (parseDigits digits 0).bind fun n =>
      if isI64 (sign * n) then some (sign * n) else none
  match data with
  | 45 :: digits => unsigned digits (-1)
  | 43 :: digits => unsigned digits 1
  | digits => unsigned digits 1

/-- `i64::to_string` as bytes. -/
def formatI64 (n : ℤ) : Bytes :=
  let digits : Bytes := (Nat.toDigits 10 n.natAbs).map fun c => c.toNat.toUInt8
  if n < 0 then 45 :: digits else digits

/-- `i64::checked_add`. -/
def checkedAddI64 (a b : ℤ) : Option ℤ := if isI64 (a + b) then some (a + b) else none

example : parseI64 (formatI64 (-120)) = some (-120) := by decide

/-! ## A platform to run the model on -/

/-- A small platform: entries of 72 bytes, as on a 64-bit machine, encoders that fail, so that
every value is kept as it is, candidates sorted by insertion, and floats that are their bits. -/
@[reducible] def Platform.small : Platform where
  entrySize := 72
  instantMax := 10 ^ 18
  encoder _ _ _ := none
  decoder _ _ := none
  sortByRank := List.insertionSort (·.idleRank ≤ ·.idleRank)
  sortByRank_perm pool := List.perm_insertionSort _ pool
  sortByRank_sorted pool := by
    have : Std.Total fun a b : Victim => a.idleRank ≤ b.idleRank := ⟨fun a b => le_total _ _⟩
    have : IsTrans Victim (·.idleRank ≤ ·.idleRank) := ⟨fun _ _ _ => le_trans⟩
    exact List.pairwise_insertionSort _ pool
  floatParse data := (parseI64 data).map fun n => n.toNat.toUInt64
  floatAdd a b := a + b
  floatIsFinite _ := true
  floatFormat a := formatI64 a.toNat

/-- A codec that encodes nothing loses nothing. -/
theorem Platform.small_lossless : Platform.small.Lossless := by
  intro algo level data out hout
  cases hout

end Ephpm.Kv
