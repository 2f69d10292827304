import Mathlib.Data.String.Basic
import Ephpm.Kv.Hashes
import Ephpm.Lib.Digits
import Ephpm.Lib.Endian
import Ephpm.Cluster.Stamp

/-!
# Hash fields on the wire

A hash is replicated field by field.  Each field is an item of its own, under a
transport key that names the hash and the field (`hash_field.rs`):

    \x1e h <length of the key in bytes> : <key> <field>

and with a payload that carries both expiries in front of the value:

    version (1) | key expiry, Unix ms, u64 BE | field expiry, Unix ms, u64 BE | value

where `0` is no expiry.

**Strings.**  The source cuts strings at byte offsets and refuses an offset that falls
inside a character.  The model works on characters and counts the bytes each takes, so
`splitBytes` finds the cut exactly when the offset is a character boundary.

**Time.**  The wall clock is the clock of the model in whole milliseconds (`epochMs`): the
nodes of a cluster are assumed to run on one time.
-/

namespace Ephpm.Cluster

open Kv Lib

/-! ## The wall clock -/

/-- Nanoseconds in a millisecond. -/
def nanosPerMilli : ℕ := 1000000

/-- `now_epoch_ms`: the wall clock in milliseconds, saturating. -/
def epochMs (now : Instant) : ℕ := min (now / nanosPerMilli) u64Max

/-- A time in Unix milliseconds as a `u64`; `0` where it stands for no time at all. -/
structure WireMs where
  ms : ℕ
  inRange : ms ≤ u64Max
deriving DecidableEq

/-- No expiry. -/
def WireMs.never : WireMs := ⟨0, Nat.zero_le _⟩

/-- `expiry_ms_for`: the absolute expiry of a lifetime that starts now. -/
def expiryMsFor (now : Instant) (ttl : Option Duration) : WireMs :=
  ttl.elim WireMs.never fun ttl =>
    ⟨saturatingAdd (epochMs now) (min (ttl / nanosPerMilli) u64Max), saturatingAdd_le _ _⟩

/-- `ttl_from_expiry`: what is left of a lifetime. -/
def ttlFromExpiry (now : Instant) (expiry : WireMs) : Option Duration :=
  if expiry.ms = 0 then none else some ((expiry.ms - epochMs now) * nanosPerMilli)

namespace HashField

/-! ## Keys -/

/-- `MARK`: the first character of a hash-field key. -/
def mark : Char := '\x1e'

/-- `TAG`: the character after it. -/
def tag : Char := 'h'

/-- `VERSION` of the payload. -/
def version : UInt8 := 1

/-- Cut a string after `n` bytes, if that is a character boundary. -/
def splitBytes : ℕ → List Char → Option (List Char × List Char)
  | 0, rest => some ([], rest)
  | _ + 1, [] => none
  | n + 1, c :: rest =>
    if c.utf8Size ≤ n + 1 then
      (splitBytes (n + 1 - c.utf8Size) rest).map fun cut => (c :: cut.1, cut.2)
    else none

/-- `encode_key`: the name under which a field is gossiped. -/
def encodeKey (key field : String) : String :=
  String.ofList (mark :: tag :: (Nat.toDigits 10 (keyLen key) ++
    ':' :: (key.toList ++ field.toList)))

/-- The length field of a key: digits only, no leading zero, and a `usize`. -/
def parseLen (digits : List Char) : Option ℕ :=
  if digits.isEmpty || !digits.all Char.isDigit then none
  else if 1 < digits.length && digits.head? = some '0' then none
  else
    let len := Nat.ofDigitChars 10 digits 0
    if len ≤ u64Max then some len else none

/-- `decode_key`: the hash and the field, if the key is a hash-field key. -/
def decodeKey (transport : String) : Option (String × String) :=
  match transport.toList with
  | m :: t :: rest =>
    if m = mark ∧ t = tag then
      match rest.dropWhile (· ≠ ':') with
      | [] => none
      | _ :: body =>
        (parseLen (rest.takeWhile (· ≠ ':'))).bind fun len =>
          (splitBytes len body).map fun cut => (String.ofList cut.1, String.ofList cut.2)
    else none
  | _ => none

example : decodeKey (encodeKey "user:1" "name") = some ("user:1", "name") := by decide

/-- A string is cut where its first part ends. -/
theorem splitBytes_append (first rest : List Char) :
    splitBytes (String.utf8Len first) (first ++ rest) = some (first, rest) := by
  induction first with
  | nil =>
    rw [String.utf8Len_nil, splitBytes, List.nil_append]
  | cons c first ih =>
    have hpos : 0 < c.utf8Size := c.utf8Size_pos
    obtain ⟨n, hn⟩ : ∃ n, String.utf8Len (c :: first) = n + 1 := by
      refine ⟨String.utf8Len first + c.utf8Size - 1, ?_⟩
      rw [String.utf8Len_cons]
      omega
    have hrest : n + 1 - c.utf8Size = String.utf8Len first := by
      rw [← hn, String.utf8Len_cons]
      omega
    rw [hn, List.cons_append, splitBytes, if_pos (by rw [← hn, String.utf8Len_cons]; omega),
      hrest, ih]
    rfl

/-- A length is read back as it was written. -/
theorem parseLen_toDigits {n : ℕ} (h : n ≤ u64Max) : parseLen (Nat.toDigits 10 n) = some n := by
  have hdigits : (Nat.toDigits 10 n).all Char.isDigit = true :=
    List.all_eq_true.mpr fun c hc => Nat.isDigit_of_mem_toDigits (by decide) (by decide) hc
  have hsome : (Nat.toDigits 10 n).isEmpty = false := by
    rw [List.isEmpty_eq_false_iff]
    exact Nat.toDigits_ne_nil
  have hzero : (1 < (Nat.toDigits 10 n).length &&
      decide ((Nat.toDigits 10 n).head? = some '0')) = false := by
    by_cases hten : 10 ≤ n
    · simp [head?_toDigits hten]
    · rw [Nat.toDigits_of_lt_base (by omega)]
      rfl
  simp only [parseLen, hsome, hdigits, hzero, Nat.ofDigitChars_ten_toDigits, h]
  rfl

/-- **Hash-field keys come back.**  Whatever the key and the field contain, the key's
length says where one ends and the other begins. -/
theorem decodeKey_encodeKey {key : String} (field : String) (h : keyLen key ≤ u64Max) :
    decodeKey (encodeKey key field) = some (key, field) := by
  have hcolon : ∀ c ∈ Nat.toDigits 10 (keyLen key), decide (c ≠ ':') = true := by
    intro c hc
    have hdigit : c.isDigit = true := Nat.isDigit_of_mem_toDigits (by decide) (by decide) hc
    rw [decide_eq_true_eq]
    rintro rfl
    exact absurd hdigit (by decide)
  have hlen : keyLen key = String.utf8Len key.toList := by
    rw [keyLen, ← String.utf8ByteSize_ofList, String.ofList_toList]
  have htake : (Nat.toDigits 10 (keyLen key) ++ ':' :: (key.toList ++ field.toList)).takeWhile
      (· ≠ ':') = Nat.toDigits 10 (keyLen key) := by
    rw [List.takeWhile_append_of_pos hcolon]
    simp
  have hdrop : (Nat.toDigits 10 (keyLen key) ++ ':' :: (key.toList ++ field.toList)).dropWhile
      (· ≠ ':') = ':' :: (key.toList ++ field.toList) := by
    rw [List.dropWhile_append_of_pos hcolon]
    simp
  simp only [decodeKey, encodeKey, String.toList_ofList, and_self, if_true, htake, hdrop,
    parseLen_toDigits h, Option.bind_some]
  rw [hlen, splitBytes_append, Option.map_some, String.ofList_toList, String.ofList_toList]

/-- Where a string was cut, the parts make it up, and the first has the length asked for. -/
theorem splitBytes_eq_some {n : ℕ} {chars first rest : List Char}
    (h : splitBytes n chars = some (first, rest)) :
    chars = first ++ rest ∧ String.utf8Len first = n := by
  induction chars generalizing n first with
  | nil =>
    cases n with
    | zero =>
      obtain ⟨rfl, rfl⟩ := Prod.mk.inj (Option.some.inj h)
      exact ⟨rfl, String.utf8Len_nil⟩
    | succ n => cases h
  | cons c chars ih =>
    cases n with
    | zero =>
      obtain ⟨rfl, rfl⟩ := Prod.mk.inj (Option.some.inj h)
      exact ⟨rfl, String.utf8Len_nil⟩
    | succ n =>
      rw [splitBytes] at h
      split at h
      next hfits =>
        obtain ⟨cut, hcut, heq⟩ := Option.map_eq_some_iff.mp h
        obtain ⟨rfl, rfl⟩ := Prod.mk.inj heq
        obtain ⟨hchars, hlen⟩ := ih hcut
        refine ⟨by rw [hchars, List.cons_append], ?_⟩
        rw [String.utf8Len_cons, hlen]
        omega
      · cases h

/-- A length that was accepted is written as it was read. -/
theorem toDigits_of_parseLen {digits : List Char} {len : ℕ} (h : parseLen digits = some len) :
    Nat.toDigits 10 len = digits := by
  unfold parseLen at h
  split at h
  · cases h
  next hdigits =>
    split at h
    · cases h
    next hlead =>
      simp only at h
      split at h
      next _ =>
        obtain rfl := Option.some.inj h
        simp only [Bool.or_eq_true, List.isEmpty_iff, Bool.not_eq_true', not_or,
          Bool.not_eq_false, List.all_eq_true] at hdigits
        refine toDigits_ofDigitChars hdigits.1 hdigits.2 fun hlong hzero => hlead ?_
        rw [Bool.and_eq_true, decide_eq_true_eq, decide_eq_true_eq]
        exact ⟨hlong, hzero⟩
      · cases h

/-- **One key for a field**: what is accepted is what would have been sent. -/
theorem encodeKey_of_decodeKey {transport key field : String}
    (h : decodeKey transport = some (key, field)) : encodeKey key field = transport := by
  unfold decodeKey at h
  split at h
  next m t rest hchars =>
    split at h
    next hmark =>
      obtain ⟨rfl, rfl⟩ := hmark
      split at h
      · cases h
      next colon body hbody =>
        obtain ⟨len, hlen, hcut⟩ := Option.bind_eq_some_iff.mp h
        obtain ⟨cut, hsplit, heq⟩ := Option.map_eq_some_iff.mp hcut
        obtain ⟨rfl, rfl⟩ := Prod.mk.inj heq
        obtain ⟨hparts, hfirst⟩ := splitBytes_eq_some hsplit
        -- what stands between the tag and the body is the digits and a colon
        have hcolon : colon = ':' := by
          have hhead : (rest.dropWhile (· ≠ ':')).head? = some colon := by rw [hbody]; rfl
          have := List.head?_dropWhile_not (· ≠ ':') rest
          rw [hhead] at this
          simpa using this
        have hrest : rest = rest.takeWhile (· ≠ ':') ++ ':' :: body := by
          rw [hcolon] at hbody
          rw [← hbody, List.takeWhile_append_dropWhile]
        have hkey : keyLen (String.ofList cut.1) = len := by
          rw [keyLen, String.utf8ByteSize_ofList, hfirst]
        rw [encodeKey, hkey, String.toList_ofList, String.toList_ofList, ← hparts,
          toDigits_of_parseLen hlen, ← hrest, ← hchars, String.ofList_toList]
    · cases h
  · cases h

/-! ## Payloads -/

/-- `encode_value`: the payload, and when the item as a whole expires, which is the
earlier of the two expiries. -/
def encodeValue (now : Instant) (value : Bytes) (fieldTtl hashTtl : Option Duration) :
    Bytes × WireMs :=
  let fieldMs := expiryMsFor now fieldTtl
  let hashMs := expiryMsFor now hashTtl
  let payload := version :: (beBytes 8 hashMs.ms ++ beBytes 8 fieldMs.ms ++ value)
  let itemMs :=
    if fieldMs.ms = 0 then hashMs
    else if hashMs.ms = 0 then fieldMs
    else if fieldMs.ms ≤ hashMs.ms then fieldMs else hashMs
  (payload, itemMs)

/-- Eight bytes as a time on the wire. -/
def wireMsOf (bytes : Bytes) : WireMs :=
  ⟨min (ofBeBytes (bytes.take 8)) u64Max, min_le_right _ _⟩

/-- `decode_value`: the state a payload stands for now, or `none` for a payload this node
does not understand. -/
def decodeValue (now : Instant) (payload : Bytes) : Option HashFieldState :=
  match payload with
  | [] => none
  | v :: rest =>
    if v ≠ version ∨ rest.length < 16 then none
    else
      some
        { value := some (rest.drop 16)
          fieldTtl := ttlFromExpiry now (wireMsOf (rest.drop 8))
          hashTtl := ttlFromExpiry now (wireMsOf rest) }

end HashField

end Ephpm.Cluster
