import Mathlib.Data.List.GetD
import Ephpm.Cluster.HashField
import Ephpm.Lib.Split

/-!
# What a gossip entry looks like on the wire

A node publishes its small keys as texts, and three shapes of text share one namespace:

* a value, `{expiry}:{write}:{base64}`;
* a value as older nodes write it, `{expiry}:{base64}`, without a write number;
* a delete, `TS:{write}`.

They are told apart **by shape only**.  What carries that is that numbers are written in digits
and that the base64 alphabet has no colon: the first colon of a text ends its first field, `TS`
is not a number, and a payload without a colon cannot be mistaken for a write number and a
payload.

**Collecting.**  A sweep asks `isGarbage` which entries may go.  A value is to stay for a second
after its expiry.  That second is added to the expiry without a check, in 64 bits: an expiry in
the last second of the range wraps around to a small number, and a value that has not expired
looks as if it had expired long ago (`misread`).
-/

namespace Ephpm.Cluster

open Kv Lib

/-! ## Numbers and payloads -/

/-- The base64 code, of which the formats need that it can be undone and that its alphabet has
no colon. -/
structure Base64 where
  encode : Bytes → List Char
  decode : List Char → Option Bytes
  decode_encode : ∀ value, decode (encode value) = some value
  colon_notMem : ∀ value, ':' ∉ encode value

namespace Base64

/-- The letters, in the order of the six bits that they stand for. -/
def letters : List Char :=
  "ABCDEFGHIJKLMNOPQRSTUVWXYZabcdefghijklmnopqrstuvwxyz0123456789+/".toList

/-- The letter of the lowest six bits of a number. -/
def letter (n : ℕ) : Char := letters.getD (n % 64) 'A'

/-- The six bits of a letter. -/
def sextet (c : Char) : Option ℕ := letters.findIdx? (· = c)

/-- Three bytes make four letters; at the end, `=` fills up what is missing. -/
def encodeStandard : Bytes → List Char
  | a :: b :: c :: rest =>
    letter (a.toNat / 4) :: letter (a.toNat * 16 + b.toNat / 16) ::
      letter (b.toNat * 4 + c.toNat / 64) :: letter c.toNat :: encodeStandard rest
  | [a, b] =>
    [letter (a.toNat / 4), letter (a.toNat * 16 + b.toNat / 16), letter (b.toNat * 4), '=']
  | [a] => [letter (a.toNat / 4), letter (a.toNat * 16), '=', '=']
  | [] => []

/-- Four letters make three bytes; before one or two `=` at the end, two or one. -/
def decodeStandard : List Char → Option Bytes
  | w :: x :: y :: z :: rest => do
    let w ← sextet w
    let x ← sextet x
    let first := UInt8.ofNat (w * 4 + x / 16)
    if y = '=' ∧ z = '=' ∧ rest = [] then return [first]
    let y ← sextet y
    let second := UInt8.ofNat (x * 16 + y / 4)
    if z = '=' ∧ rest = [] then return [first, second]
    let z ← sextet z
    return first :: second :: UInt8.ofNat (y * 64 + z) :: (← decodeStandard rest)
  | [] => some []
  | _ => none

theorem sextet_letter (n : ℕ) : sextet (letter n) = some (n % 64) := by
  have hall : ∀ m < 64, sextet (letters.getD m 'A') = some m := by decide
  exact hall _ (Nat.mod_lt _ (by decide))

theorem letter_ne {c : Char} (hc : c ∉ letters) (n : ℕ) : letter n ≠ c := by
  have hlt : n % 64 < letters.length := Nat.mod_lt _ (by decide)
  rintro rfl
  refine hc ?_
  rw [letter, List.getD_eq_getElem _ _ hlt]
  exact List.getElem_mem hlt

/-- The first byte, from its own six bits and the two that share a letter with the next. -/
theorem ofNat_first (a b : UInt8) :
    UInt8.ofNat (a.toNat / 4 % 64 * 4 + (a.toNat * 16 + b.toNat / 16) % 64 / 16) = a := by
  have := a.toNat_lt
  have := b.toNat_lt
  rw [← UInt8.toNat_inj, UInt8.toNat_ofNat']
  omega

theorem ofNat_second (a b c : UInt8) :
    UInt8.ofNat ((a.toNat * 16 + b.toNat / 16) % 64 * 16 + (b.toNat * 4 + c.toNat / 64) % 64 / 4) =
      b := by
  have := b.toNat_lt
  have := c.toNat_lt
  rw [← UInt8.toNat_inj, UInt8.toNat_ofNat']
  omega

theorem ofNat_third (b c : UInt8) :
    UInt8.ofNat ((b.toNat * 4 + c.toNat / 64) % 64 * 64 + c.toNat % 64) = c := by
  have := c.toNat_lt
  rw [← UInt8.toNat_inj, UInt8.toNat_ofNat']
  omega

/-- **What is encoded is decoded.** -/
theorem decodeStandard_encodeStandard (value : Bytes) :
    decodeStandard (encodeStandard value) = some value := by
  have hpad : ∀ n, letter n ≠ '=' := letter_ne (by decide)
  induction value using encodeStandard.induct with
  | case1 a b c rest ih =>
    simp [encodeStandard, decodeStandard, sextet_letter, hpad, ih, ofNat_first, ofNat_second,
      ofNat_third, -UInt8.ofNat_add]
  | case2 a b =>
    have hb := ofNat_second a b 0
    simp only [UInt8.toNat_zero, Nat.zero_div, Nat.add_zero] at hb
    simp [encodeStandard, decodeStandard, sextet_letter, hpad, ofNat_first, hb, -UInt8.ofNat_add]
  | case3 a =>
    have ha := ofNat_first a 0
    simp only [UInt8.toNat_zero, Nat.zero_div, Nat.add_zero] at ha
    simp [encodeStandard, decodeStandard, sextet_letter, ha, -UInt8.ofNat_add]
  | case4 => rfl

/-- The standard code: no letter is a colon. -/
def standard : Base64 where
  encode := encodeStandard
  decode := decodeStandard
  decode_encode := decodeStandard_encodeStandard
  colon_notMem value := by
    have hcolon : ∀ n, letter n ≠ ':' := letter_ne (by decide)
    induction value using encodeStandard.induct <;> simp_all [encodeStandard, eq_comm]

example : standard.encode [1, 2] = "AQI=".toList := by decide
end Base64

/-- `str::parse::<u64>`: a leading plus sign is allowed. -/
def parseU64 (text : List Char) : Option ℕ :=
  let digits := if text.head? = some '+' then text.tail else text
  if digits.isEmpty || !digits.all Char.isDigit then none
  else
    let n := Nat.ofDigitChars 10 digits 0
    if n ≤ u64Max then some n else none

/-- The digits of a number are digits. -/
theorem isDigit_of_mem_toDigits {n : ℕ} {c : Char} (h : c ∈ Nat.toDigits 10 n) :
    c.isDigit = true :=
  Nat.isDigit_of_mem_toDigits (by decide) (by decide) h

/-- A number is read back as it was written. -/
theorem parseU64_toDigits {n : ℕ} (h : n ≤ u64Max) : parseU64 (Nat.toDigits 10 n) = some n := by
  have hplus : (Nat.toDigits 10 n).head? ≠ some '+' := by
    intro hhead
    exact absurd (isDigit_of_mem_toDigits (List.mem_of_head? hhead)) (by decide)
  have hdigits : (Nat.toDigits 10 n).all Char.isDigit = true :=
    List.all_eq_true.mpr fun c hc => isDigit_of_mem_toDigits hc
  have hsome : (Nat.toDigits 10 n).isEmpty = false := by
    rw [List.isEmpty_eq_false_iff]
    exact Nat.toDigits_ne_nil
  simp only [parseU64, if_neg hplus, hsome, hdigits, Nat.ofDigitChars_ten_toDigits, h]
  rfl

/-- The digits of a number end at the first colon after them. -/
theorem cutAt_toDigits (n : ℕ) (rest : List Char) :
    cutAt ':' (Nat.toDigits 10 n ++ ':' :: rest) = some (Nat.toDigits 10 n, rest) := by
  refine cutAt_append fun hmem => ?_
  exact absurd (isDigit_of_mem_toDigits hmem) (by decide)

/-! ## The formats -/

/-- `KV_PREFIX`: what the names of the keys of the tier begin with. -/
def kvMarker : List Char := "kv:".toList

/-- `TOMBSTONE_PREFIX`. -/
def tombstoneMarker : List Char := "TS:".toList

/-- `encode_value`. -/
def encodeValue (base64 : Base64) (value : Bytes) (expiryMs write : ℕ) : List Char :=
  Nat.toDigits 10 expiryMs ++ ':' :: (Nat.toDigits 10 write ++ ':' :: base64.encode value)

/-- A value in the format of nodes that do not stamp their writes. -/
def encodeLegacy (base64 : Base64) (value : Bytes) (expiryMs : ℕ) : List Char :=
  Nat.toDigits 10 expiryMs ++ ':' :: base64.encode value

/-- `encode_tombstone`. -/
def encodeTombstone (write : ℕ) : List Char := tombstoneMarker ++ Nat.toDigits 10 write

/-- `decode_tombstone`. -/
def decodeTombstone (encoded : List Char) : Option ℕ :=
  if tombstoneMarker.isPrefixOf encoded then parseU64 (encoded.drop tombstoneMarker.length)
  else none

/-- `split_encoded`: expiry, write number and payload. -/
def splitEncoded (encoded : List Char) : Option (ℕ × ℕ × List Char) :=
  (cutAt ':' encoded).bind fun cut =>
    (parseU64 cut.1).map fun expiryMs =>
      -- without a second field that is a number, all that follows is the payload
      ((cutAt ':' cut.2).bind fun stamped =>
        (parseU64 stamped.1).map fun write => (expiryMs, write, stamped.2)).getD
          (expiryMs, 0, cut.2)

/-- `EXPIRED_SLACK_MS`: how long a value stays after its expiry. -/
def expiredSlackMs : ℕ := 1000

/-- `is_garbage`.  The sum is one of 64 bits. -/
def isGarbage (encoded : List Char) (nowMs markerCutoffMs : ℕ) : Bool :=
  match decodeTombstone encoded with
  | some write => (Stamp.mk write 0).epochMs < markerCutoffMs
  | none =>
    match splitEncoded encoded with
    | some (expiryMs, _, _) =>
      0 < expiryMs && (expiryMs + expiredSlackMs) % 2 ^ 64 ≤ nowMs
    | none => true

/-! ## What the formats carry -/

section

variable (base64 : Base64) (value : Bytes) {expiryMs write : ℕ}

theorem splitEncoded_encodeValue (hexpiry : expiryMs ≤ u64Max) (hwrite : write ≤ u64Max) :
    splitEncoded (encodeValue base64 value expiryMs write) =
      some (expiryMs, write, base64.encode value) := by
  simp only [splitEncoded, encodeValue, cutAt_toDigits, Option.bind_some,
    parseU64_toDigits hexpiry, parseU64_toDigits hwrite, Option.map_some, Option.getD_some]

theorem splitEncoded_encodeLegacy (hexpiry : expiryMs ≤ u64Max) :
    splitEncoded (encodeLegacy base64 value expiryMs) =
      some (expiryMs, 0, base64.encode value) := by
  have hcut : cutAt ':' (base64.encode value) = none :=
    cutAt_eq_none (base64.colon_notMem value)
  simp only [splitEncoded, encodeLegacy, cutAt_toDigits, Option.bind_some,
    parseU64_toDigits hexpiry, Option.map_some, hcut, Option.bind_none, Option.getD_none]

theorem decodeTombstone_encodeTombstone (hwrite : write ≤ u64Max) :
    decodeTombstone (encodeTombstone write) = some write := by
  have hmarked : tombstoneMarker.isPrefixOf (encodeTombstone write) = true :=
    List.isPrefixOf_iff_prefix.mpr (List.prefix_append _ _)
  rw [decodeTombstone, if_pos hmarked, encodeTombstone, List.drop_left, parseU64_toDigits hwrite]

/-- A delete is no value: `TS` is not a number. -/
theorem splitEncoded_encodeTombstone : splitEncoded (encodeTombstone write) = none := by
  have hcut : cutAt ':' (encodeTombstone write) = some (['T', 'S'], Nat.toDigits 10 write) :=
    @cutAt_append _ _ ':' ['T', 'S'] _ (by decide)
  have hparse : parseU64 ['T', 'S'] = none := by decide
  rw [splitEncoded, hcut, Option.bind_some, hparse, Option.map_none]

/-- What starts with a number is no delete. -/
theorem decodeTombstone_toDigits_append (n : ℕ) (rest : List Char) :
    decodeTombstone (Nat.toDigits 10 n ++ rest) = none := by
  refine if_neg fun hmarked => ?_
  obtain ⟨c, digits, hdigits⟩ := List.exists_cons_of_ne_nil (Nat.toDigits_ne_nil (b := 10) (n := n))
  have hc : c.isDigit = true := by
    refine isDigit_of_mem_toDigits (n := n) ?_
    rw [hdigits]
    exact List.mem_cons_self
  have hT : 'T' = c := by
    have hmarked' := List.isPrefixOf_iff_prefix.mp hmarked
    rw [hdigits] at hmarked'
    exact (List.cons_prefix_cons.mp hmarked').1
  rw [← hT] at hc
  exact absurd hc (by decide)

/-- A value is garbage when the time its expiry and the slack add up to, in 64 bits, has
passed. -/
theorem isGarbage_of_split {encoded payload : List Char} (nowMs markerCutoffMs : ℕ)
    (hvalue : decodeTombstone encoded = none)
    (hsplit : splitEncoded encoded = some (expiryMs, write, payload)) :
    isGarbage encoded nowMs markerCutoffMs = true ↔
      0 < expiryMs ∧ (expiryMs + expiredSlackMs) % 2 ^ 64 ≤ nowMs := by
  simp [isGarbage, hvalue, hsplit]

end

/-! ## Soundness -/

/-- What readers of the gossip state rely on, for one value, one write number and one moment. -/
structure WireSound (base64 : Base64) (value : Bytes) (expiryMs write nowMs markerCutoffMs : ℕ) :
    Prop where
  value_back : ((splitEncoded (encodeValue base64 value expiryMs write)).bind fun read =>
    (base64.decode read.2.2).map fun bytes => (read.1, read.2.1, bytes)) =
      some (expiryMs, write, value)
  tombstone_back : decodeTombstone (encodeTombstone write) = some write
  value_no_tombstone : decodeTombstone (encodeValue base64 value expiryMs write) = none
  tombstone_no_value : splitEncoded (encodeTombstone write) = none
  legacy_back : ((splitEncoded (encodeLegacy base64 value expiryMs)).bind fun read =>
    (base64.decode read.2.2).map fun bytes => (read.1, read.2.1, bytes)) =
      some (expiryMs, 0, value)
  legacy_no_tombstone : decodeTombstone (encodeLegacy base64 value expiryMs) = none
  /-- A value that has no expiry, or whose expiry has not come, stays. -/
  live_kept : (expiryMs = 0 ∨ nowMs < expiryMs) →
    isGarbage (encodeValue base64 value expiryMs write) nowMs markerCutoffMs = false ∧
      isGarbage (encodeLegacy base64 value expiryMs) nowMs markerCutoffMs = false

/-- **The codec is sound, but for the last second of the range.**  Every part holds of every
value; a live value is collected exactly if the second added to its expiry wraps around to a
time that has passed. -/
theorem wireSound_iff (base64 : Base64) (value : Bytes) (expiryMs write nowMs markerCutoffMs : ℕ)
    (hexpiry : expiryMs ≤ u64Max) (hwrite : write ≤ u64Max) :
    WireSound base64 value expiryMs write nowMs markerCutoffMs ↔
      ¬(nowMs < expiryMs ∧ 2 ^ 64 ≤ expiryMs + 1000 ∧ expiryMs + 1000 ≤ nowMs + 2 ^ 64) := by
  have hvalue : decodeTombstone (encodeValue base64 value expiryMs write) = none :=
    decodeTombstone_toDigits_append expiryMs _
  have hlegacy : decodeTombstone (encodeLegacy base64 value expiryMs) = none :=
    decodeTombstone_toDigits_append expiryMs _
  have hsplit := splitEncoded_encodeValue base64 value hexpiry hwrite
  have hsplitLegacy := splitEncoded_encodeLegacy base64 value hexpiry
  have hgarbage := isGarbage_of_split nowMs markerCutoffMs hvalue hsplit
  have hgarbageLegacy := isGarbage_of_split nowMs markerCutoffMs hlegacy hsplitLegacy
  have hmax : expiryMs < 2 ^ 64 := by
    simp only [u64Max] at hexpiry
    omega
  simp only [expiredSlackMs] at hgarbage hgarbageLegacy
  constructor
  · intro hsound hwrapped
    have hkept := (hsound.live_kept (.inr hwrapped.1)).1
    rw [← Bool.not_eq_true, hgarbage] at hkept
    omega
  · intro hsafe
    refine ⟨?_, decodeTombstone_encodeTombstone hwrite, hvalue, splitEncoded_encodeTombstone, ?_,
      hlegacy, fun hlive => ⟨?_, ?_⟩⟩
    · rw [hsplit, Option.bind_some, base64.decode_encode, Option.map_some]
    · rw [hsplitLegacy, Option.bind_some, base64.decode_encode, Option.map_some]
    · rw [← Bool.not_eq_true, hgarbage]
      omega
    · rw [← Bool.not_eq_true, hgarbageLegacy]
      omega

/-- The codec at a value that lives for an hour. -/
theorem wireSound_iff_hour : WireSound .standard [1, 2] 3600000 7 1000 0 :=
  (wireSound_iff .standard [1, 2] 3600000 7 1000 0 (by decide) (by decide)).mpr (by decide)

/-- **Misread.**  A value with the greatest expiry there is, which a lifetime too long for the
clock saturates to, is taken for garbage a second after the epoch. -/
theorem misread : ¬WireSound .standard [1, 2] u64Max 7 1000 0 := by
  intro hsound
  exact absurd (hsound.live_kept (.inr (by decide))).1 (by decide +kernel)

end Ephpm.Cluster
