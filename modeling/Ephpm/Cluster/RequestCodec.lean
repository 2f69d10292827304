import Ephpm.Cluster.DataPlane
import Ephpm.Lib.Parsing
import Ephpm.Lib.Utf8

/-!
# Requests of the data plane

A request is an op code, a key and, depending on the op, a value, a lifetime and a stamp.  It is
built by one encoder per op and parsed in two ways: from a decrypted frame in memory
(`parseRequest`), and field by field off a plaintext connection (`readRequest`).  The two differ
in where the bytes come from and in what they report when there are too few; the fields and the
checks are the same, so both are `request` over a way to get bytes.

A compare-and-set carries two values.  They are packed into the value field of a SET, behind a
mode and a length (`setIfEqPayload`), so **the limit of a value holds for the pair**: together
they may be five bytes shorter than a value of any other op.
-/

namespace Ephpm.Cluster.Share

open Kv (Bytes SetTtl u64Max)
open Lib

/-! ## Limits and ways to get bytes -/

/-- `MAX_KEY_LEN`. -/
def maxKeyLen : ℕ := 64 * 1024

/-- `MAX_VALUE_LEN`. -/
def maxValueLen : ℕ := 64 * 1024 * 1024

/-- What a peer's message can be refused for. -/
inductive ShareError where
  | eof
  | truncated (expected got : ℕ)
  | keyLength (len : ℕ)
  | valueLength (len : ℕ)
  | invalidUtf8
deriving DecidableEq, Repr

/-- `take_bytes`: the next bytes of a request, and the rest. -/
def takeBytes (len : ℕ) (buf : Bytes) : Except ShareError (Bytes × Bytes) :=
  if buf.length < len then .error (.truncated len buf.length)
  else .ok (buf.take len, buf.drop len)

/-- `read_exact` of the socket. -/
def readExact (len : ℕ) (stream : Bytes) : Except ShareError (Bytes × Bytes) :=
  if stream.length < len then .error .eof else .ok (stream.take len, stream.drop len)

/-- Bytes that are there are taken. -/
theorem takeBytes_append {len : ℕ} {bytes : Bytes} (h : bytes.length = len) (rest : Bytes) :
    takeBytes len (bytes ++ rest) = .ok (bytes, rest) := by
  rw [takeBytes, if_neg (by rw [List.length_append]; omega), List.take_left' h, List.drop_left' h]

/-! ## Ops -/

/-- `OP_GET`. -/
def opGet : UInt8 := 0x00

/-- `OP_SET`. -/
def opSet : UInt8 := 0x01

/-- `OP_SET_NX`. -/
def opSetNx : UInt8 := 0x02

/-- `OP_DEL_IF_EQ`. -/
def opDelIfEq : UInt8 := 0x03

/-- `OP_SET_V2`: a SET with a stamp. -/
def opSetV2 : UInt8 := 0x04

/-- `OP_SHARE`. -/
def opShare : UInt8 := 0x05

/-- `OP_SET_IF_EQ`. -/
def opSetIfEq : UInt8 := 0x06

/-- `OP_GET_STAMPED`. -/
def opGetStamped : UInt8 := 0x07

/-- `op_has_value`. -/
def opHasValue (op : UInt8) : Bool :=
  [opSet, opSetV2, opSetNx, opDelIfEq, opSetIfEq].contains op

/-- `op_has_ttl`. -/
def opHasTtl (op : UInt8) : Bool := [opSetV2, opSetNx, opSetIfEq].contains op

/-- A request as it is parsed. -/
structure Request where
  op : UInt8
  key : String
  value : Option Bytes
  ttlMs : ℕ
  stamp : Option Stamp
deriving DecidableEq

/-- What a parsed request asks for: the cases of `serve_request` over the op codes.  A value or a
stamp that its op carries is in every request that has been parsed. -/
def Request.asked (r : Request) : Cluster.Request where
  key := r.key
  verb :=
    let value := r.value.getD []
    if r.op = opGet then .get
    else if r.op = opGetStamped then .getStamped
    else if r.op = opSet then .set value
    else if r.op = opSetV2 then .setV2 value r.ttlMs (r.stamp.getD ⟨0, 0⟩)
    else if r.op = opSetNx then .setNx value r.ttlMs
    else if r.op = opDelIfEq then .delIfEq value
    else if r.op = opSetIfEq then .setIfEq value r.ttlMs
    else if r.op = opShare then .share
    else .unknown r.op

/-! ## Parsing -/

/-- A program that takes bytes off a message or a connection. -/
abbrev Taking := Parser UInt8 ShareError

/-- A length within its bound. -/
def checkLen (bound : ℕ) (err : ℕ → ShareError) (len : ℕ) : Taking Unit :=
  if bound < len then throw (err len) else pure ()

/-- `String::from_utf8`. -/
def fromUtf8 (bytes : Bytes) : Taking String :=
  match String.fromUTF8? ⟨bytes.toArray⟩ with
  | none => throw .invalidUtf8
  | some key => pure key

/-- A field that not every op has. -/
def fieldIf {α : Type} (present : Bool) (field : Taking α) (absent : α) : Taking α :=
  if present then field else pure absent

section

variable (next : ℕ → Taking Bytes)

/-- A big-endian number. -/
def number (width : ℕ) : Taking ℕ := do
  let bytes ← next width
  return ofBeBytes bytes

/-- The value of an op that has one. -/
def valueField : Taking (Option Bytes) := do
  let valueLen ← number next 4
  checkLen maxValueLen .valueLength valueLen
  let value ← next valueLen
  return some value

/-- The stamp of a stamped SET. -/
def stampField : Taking (Option Stamp) := do
  let write ← number next 8
  let nodeTag ← number next 8
  return some ⟨write, nodeTag⟩

/-- The fields of a request, over a way to get bytes. -/
def request : Taking Request := do
  let op ← next 1
  let op := op.headD 0
  let keyLen ← number next 4
  checkLen maxKeyLen .keyLength keyLen
  let keyBuf ← next keyLen
  let key ← fromUtf8 keyBuf
  let value ← fieldIf (opHasValue op) (valueField next) none
  let ttlMs ← fieldIf (opHasTtl op) (number next 8) 0
  let stamp ← fieldIf (op = opSetV2) (stampField next) none
  return ⟨op, key, value, ttlMs, stamp⟩

end

/-- `parse_request`, with what it leaves of the message. -/
def parseRequest : Taking Request := request takeBytes

/-- `read_request` in plaintext mode, with what it leaves of the stream. -/
def readRequest : Taking Request := request readExact

/-! ## Building -/

/-- The bytes of a key. -/
def utf8 (key : String) : Bytes := key.toUTF8.data.toList

/-- `encode_get_request`. -/
def encodeGetRequest (key : String) : Option Bytes :=
  if 2 ^ 32 ≤ (utf8 key).length then none
  else some (opGet :: (beBytes 4 (utf8 key).length ++ utf8 key))

/-- `encode_set_request`. -/
def encodeSetRequest (key : String) (value : Bytes) : Option Bytes :=
  if 2 ^ 32 ≤ (utf8 key).length ∨ 2 ^ 32 ≤ value.length then none
  else some (opSet :: (beBytes 4 (utf8 key).length ++ utf8 key ++ beBytes 4 value.length ++ value))

/-- The request of `fetch_stamped`: a GET with another op. -/
def encodeGetStampedRequest (key : String) : Option Bytes :=
  (encodeGetRequest key).map fun message => message.set 0 opGetStamped

/-- `encode_set_nx_request`. -/
def encodeSetNxRequest (key : String) (value : Bytes) (ttlMs : ℕ) : Option Bytes :=
  (encodeSetRequest key value).map fun message => message.set 0 opSetNx ++ beBytes 8 ttlMs

/-- `encode_set_v2_request`. -/
def encodeSetV2Request (key : String) (value : Bytes) (ttlMs : ℕ) (stamp : Stamp) : Option Bytes :=
  (encodeSetRequest key value).map fun message =>
    message.set 0 opSetV2 ++ beBytes 8 ttlMs ++ beBytes 8 stamp.write ++ beBytes 8 stamp.nodeTag

/-- `encode_del_if_eq_request`. -/
def encodeDelIfEqRequest (key : String) (token : Bytes) : Option Bytes :=
  (encodeSetRequest key token).map fun message => message.set 0 opDelIfEq

/-- The mode and the milliseconds of what a compare-and-set does to the expiry. -/
def ttlMode : SetTtl → UInt8 × ℕ
  | .persist => (0, 0)
  | .after ttl => (1, max (min (ttl / 1000000) u64Max) 1)
  | .keep => (2, 0)

/-- The two values of a compare-and-set in one. -/
def setIfEqPayload (mode : UInt8) (expected value : Bytes) : Bytes :=
  mode :: (beBytes 4 expected.length ++ expected ++ value)

/-- `encode_set_if_eq_request`. -/
def encodeSetIfEqRequest (key : String) (expected value : Bytes) (ttl : SetTtl) : Option Bytes :=
  if 2 ^ 32 ≤ expected.length then none
  else (encodeSetRequest key (setIfEqPayload (ttlMode ttl).1 expected value)).map fun message =>
    message.set 0 opSetIfEq ++ beBytes 8 (ttlMode ttl).2

/-! ## What a parser reads -/

/-- There were too few bytes. -/
def IsTruncated (e : ShareError) : Prop := ∃ expected got, e = .truncated expected got

/-- Bytes are read back. -/
theorem reads_takeBytes (bytes : Bytes) :
    Parser.Reads IsTruncated (takeBytes bytes.length) bytes bytes where
  whole later := takeBytes_append rfl later
  cut start hstart hne := by
    have hlt : start.length < bytes.length := hstart.length_le.lt_of_ne fun heq =>
      hne (hstart.eq_of_length heq)
    exact ⟨_, if_pos hlt, _, _, rfl⟩

/-- A number is read back. -/
theorem reads_number {width n : ℕ} (h : n < 256 ^ width) :
    Parser.Reads IsTruncated (number takeBytes width) (beBytes width n) n := by
  have hbytes := reads_takeBytes (beBytes width n)
  rw [length_beBytes] at hbytes
  rw [← List.append_nil (beBytes width n)]
  refine hbytes.bind ?_
  rw [ofBeBytes_beBytes h]
  exact Parser.reads_pure n

/-- A length within its bound passes. -/
theorem reads_checkLen {bound len : ℕ} {err : ℕ → ShareError} (h : len ≤ bound) :
    Parser.Reads IsTruncated (checkLen bound err len) [] () := by
  rw [checkLen, if_neg (not_lt.mpr h)]
  exact Parser.reads_pure ()

/-- A key is read back. -/
theorem reads_fromUtf8 (key : String) : Parser.Reads IsTruncated (fromUtf8 (utf8 key)) [] key := by
  have hkey : String.fromUTF8? ⟨(utf8 key).toArray⟩ = some key := Utf8.fromUTF8_toUTF8 key
  simp only [fromUtf8, hkey]
  exact Parser.reads_pure key

/-- A value is read back. -/
theorem reads_valueField {value : Bytes} (h : value.length ≤ maxValueLen) :
    Parser.Reads IsTruncated (valueField takeBytes) (beBytes 4 value.length ++ value)
      (some value) := by
  have hlen : value.length < 256 ^ 4 := lt_of_le_of_lt h (by decide)
  have hinput : beBytes 4 value.length ++ value =
      beBytes 4 value.length ++ ([] ++ (value ++ [])) := by
    rw [List.nil_append, List.append_nil]
  rw [hinput]
  refine (reads_number hlen).bind ?_
  refine (reads_checkLen h).bind ?_
  exact (reads_takeBytes value).bind (Parser.reads_pure (some value))

/-- A stamp is read back. -/
theorem reads_stampField {stamp : Stamp} (hwrite : stamp.write < 256 ^ 8)
    (htag : stamp.nodeTag < 256 ^ 8) :
    Parser.Reads IsTruncated (stampField takeBytes)
      (beBytes 8 stamp.write ++ beBytes 8 stamp.nodeTag) (some stamp) := by
  rw [← List.append_nil (beBytes 8 stamp.nodeTag)]
  refine (reads_number hwrite).bind ?_
  exact (reads_number htag).bind (Parser.reads_pure (some stamp))

/-! ## Well-formed requests -/

namespace Request

/-- A request has the fields of its op, within their bounds. -/
structure WellFormed (r : Request) : Prop where
  key : (utf8 r.key).length ≤ maxKeyLen
  value_isSome : r.value.isSome = opHasValue r.op
  value : ∀ value ∈ r.value, value.length ≤ maxValueLen
  ttl_absent : opHasTtl r.op = false → r.ttlMs = 0
  ttl : r.ttlMs < 256 ^ 8
  stamp_isSome : r.stamp.isSome = decide (r.op = opSetV2)
  stamp : ∀ stamp ∈ r.stamp, stamp.write < 256 ^ 8 ∧ stamp.nodeTag < 256 ^ 8

/-- The value field of a request. -/
def valueBytes (r : Request) : Bytes :=
  (r.value.map fun value => beBytes 4 value.length ++ value).getD []

/-- The bytes of the lifetime, if the operation has one. -/
def ttlBytes (r : Request) : Bytes := if opHasTtl r.op then beBytes 8 r.ttlMs else []

/-- The bytes of the stamp, if the operation has one. -/
def stampBytes (r : Request) : Bytes :=
  (r.stamp.map fun stamp => beBytes 8 stamp.write ++ beBytes 8 stamp.nodeTag).getD []

/-- The layout of a request. -/
def bytes (r : Request) : Bytes :=
  [r.op] ++ (beBytes 4 (utf8 r.key).length ++ (utf8 r.key ++
    (r.valueBytes ++ (r.ttlBytes ++ r.stampBytes))))

/-- **A request is read as it was laid out**, and every proper beginning of it is truncated. -/
theorem WellFormed.reads {r : Request} (h : r.WellFormed) :
    Parser.Reads IsTruncated parseRequest r.bytes r := by
  have hkey : (utf8 r.key).length < 256 ^ 4 := lt_of_le_of_lt h.key (by decide)
  have hvalue : Parser.Reads IsTruncated (fieldIf (opHasValue r.op) (valueField takeBytes) none)
      r.valueBytes r.value := by
    rw [← h.value_isSome, valueBytes]
    cases hv : r.value with
    | none => exact Parser.reads_pure none
    | some value => exact reads_valueField (h.value value hv)
  have httl : Parser.Reads IsTruncated (fieldIf (opHasTtl r.op) (number takeBytes 8) 0)
      r.ttlBytes r.ttlMs := by
    rw [ttlBytes]
    cases hop : opHasTtl r.op with
    | true => exact reads_number h.ttl
    | false =>
      rw [h.ttl_absent hop]
      exact Parser.reads_pure 0
  have hstamp : Parser.Reads IsTruncated
      (fieldIf (decide (r.op = opSetV2)) (stampField takeBytes) none) r.stampBytes r.stamp := by
    rw [← h.stamp_isSome, stampBytes]
    cases hs : r.stamp with
    | none => exact Parser.reads_pure none
    | some stamp => exact reads_stampField (h.stamp stamp hs).1 (h.stamp stamp hs).2
  have hinput : r.bytes = [r.op] ++ (beBytes 4 (utf8 r.key).length ++ ([] ++ (utf8 r.key ++
      ([] ++ (r.valueBytes ++ (r.ttlBytes ++ (r.stampBytes ++ []))))))) := by
    rw [bytes, List.nil_append, List.nil_append, List.append_nil]
  rw [hinput, parseRequest, request]
  refine (reads_takeBytes [r.op]).bind ?_
  refine (reads_number hkey).bind ?_
  refine (reads_checkLen h.key).bind ?_
  refine (reads_takeBytes (utf8 r.key)).bind ?_
  refine (reads_fromUtf8 r.key).bind ?_
  refine hvalue.bind ?_
  refine httl.bind ?_
  exact hstamp.bind (Parser.reads_pure r)

end Request

/-! ## The calls of a client -/

/-- What a client asks for. -/
inductive Call where
  | get (key : String)
  | getStamped (key : String)
  | set (key : String) (value : Bytes)
  | setV2 (key : String) (value : Bytes) (ttlMs : ℕ) (stamp : Stamp)
  | setNx (key : String) (value : Bytes) (ttlMs : ℕ)
  | delIfEq (key : String) (token : Bytes)
  | setIfEq (key : String) (expected value : Bytes) (ttl : SetTtl)

namespace Call

/-- The message of a call, from the encoder of its op. -/
def encode : Call → Option Bytes
  | .get key => encodeGetRequest key
  | .getStamped key => encodeGetStampedRequest key
  | .set key value => encodeSetRequest key value
  | .setV2 key value ttlMs stamp => encodeSetV2Request key value ttlMs stamp
  | .setNx key value ttlMs => encodeSetNxRequest key value ttlMs
  | .delIfEq key token => encodeDelIfEqRequest key token
  | .setIfEq key expected value ttl => encodeSetIfEqRequest key expected value ttl

/-- The fields of a call. -/
def request : Call → Request
  | .get key => ⟨opGet, key, none, 0, none⟩
  | .getStamped key => ⟨opGetStamped, key, none, 0, none⟩
  | .set key value => ⟨opSet, key, some value, 0, none⟩
  | .setV2 key value ttlMs stamp => ⟨opSetV2, key, some value, ttlMs, some stamp⟩
  | .setNx key value ttlMs => ⟨opSetNx, key, some value, ttlMs, none⟩
  | .delIfEq key token => ⟨opDelIfEq, key, some token, 0, none⟩
  | .setIfEq key expected value ttl =>
    ⟨opSetIfEq, key, some (setIfEqPayload (ttlMode ttl).1 expected value), (ttlMode ttl).2, none⟩

/-- The key, the value, the lifetime and the stamp are within the bounds of the format. -/
structure Fits (call : Call) : Prop where
  key : (utf8 call.request.key).length ≤ maxKeyLen
  value : ∀ value ∈ call.request.value, value.length ≤ maxValueLen
  ttl : call.request.ttlMs < 256 ^ 8
  stamp : ∀ stamp ∈ call.request.stamp, stamp.write < 256 ^ 8 ∧ stamp.nodeTag < 256 ^ 8

/-- A call that fits makes a request that is well formed. -/
theorem Fits.wellFormed {call : Call} (h : call.Fits) : call.request.WellFormed where
  key := h.key
  value_isSome := by cases call <;> rfl
  value := h.value
  ttl_absent hop := by
    cases call with
    | setV2 | setNx | setIfEq => exact absurd hop (by simp [request]; decide)
    | get | getStamped | set | delIfEq => rfl
  ttl := h.ttl
  stamp_isSome := by cases call <;> rfl
  stamp := h.stamp

/-- The bytes of a `get`. -/
theorem encodeGetRequest_eq (key : String) (hkey : (utf8 key).length ≤ maxKeyLen) :
    encodeGetRequest key = some (opGet :: (beBytes 4 (utf8 key).length ++ utf8 key)) :=
  if_neg (not_le.mpr (lt_of_le_of_lt hkey (by decide)))

/-- The bytes of a `set`. -/
theorem encodeSetRequest_eq (key : String) {value : Bytes}
    (hkey : (utf8 key).length ≤ maxKeyLen) (hvalue : value.length < 2 ^ 32) :
    encodeSetRequest key value = some (opSet ::
      (beBytes 4 (utf8 key).length ++ utf8 key ++ beBytes 4 value.length ++ value)) :=
  if_neg (not_or.mpr ⟨not_le.mpr (lt_of_le_of_lt hkey (by decide)), not_le.mpr hvalue⟩)

/-- The encoders produce the layout. -/
theorem Fits.encode_eq {call : Call} (h : call.Fits) : call.encode = some call.request.bytes := by
  have hvalue : ∀ value ∈ call.request.value, value.length < 2 ^ 32 := fun value hv =>
    lt_of_le_of_lt (h.value value hv) (by decide)
  cases call with
  | get key =>
    have hop : opHasTtl opGet = false := rfl
    rw [encode, encodeGetRequest_eq key h.key]
    simp [request, Request.bytes, Request.valueBytes, Request.ttlBytes, Request.stampBytes, hop]
  | getStamped key =>
    have hop : opHasTtl opGetStamped = false := rfl
    rw [encode, encodeGetStampedRequest, encodeGetRequest_eq key h.key]
    simp [request, Request.bytes, Request.valueBytes, Request.ttlBytes, Request.stampBytes, hop]
  | set key value =>
    have hop : opHasTtl opSet = false := rfl
    rw [encode, encodeSetRequest_eq key h.key (hvalue value rfl)]
    simp [request, Request.bytes, Request.valueBytes, Request.ttlBytes, Request.stampBytes, hop]
  | setV2 key value ttlMs stamp =>
    have hop : opHasTtl opSetV2 = true := rfl
    rw [encode, encodeSetV2Request, encodeSetRequest_eq key h.key (hvalue value rfl)]
    simp [request, Request.bytes, Request.valueBytes, Request.ttlBytes, Request.stampBytes, hop]
  | setNx key value ttlMs =>
    have hop : opHasTtl opSetNx = true := rfl
    rw [encode, encodeSetNxRequest, encodeSetRequest_eq key h.key (hvalue value rfl)]
    simp [request, Request.bytes, Request.valueBytes, Request.ttlBytes, Request.stampBytes, hop]
  | delIfEq key token =>
    have hop : opHasTtl opDelIfEq = false := rfl
    rw [encode, encodeDelIfEqRequest, encodeSetRequest_eq key h.key (hvalue token rfl)]
    simp [request, Request.bytes, Request.valueBytes, Request.ttlBytes, Request.stampBytes, hop]
  | setIfEq key expected value ttl =>
    have hop : opHasTtl opSetIfEq = true := rfl
    have hpayload := hvalue _ rfl
    have hexpected : ¬2 ^ 32 ≤ expected.length := by
      simp only [setIfEqPayload, List.length_cons, List.length_append] at hpayload
      omega
    rw [encode, encodeSetIfEqRequest, if_neg hexpected, encodeSetRequest_eq key h.key hpayload]
    simp [request, Request.bytes, Request.valueBytes, Request.ttlBytes, Request.stampBytes, hop]

/-- The operation of a call. -/
def verb : Call → Verb
  | .get _ => .get
  | .getStamped _ => .getStamped
  | .set _ value => .set value
  | .setV2 _ value ttlMs stamp => .setV2 value ttlMs stamp
  | .setNx _ value ttlMs => .setNx value ttlMs
  | .delIfEq _ token => .delIfEq token
  | .setIfEq _ expected value ttl =>
    .setIfEq (setIfEqPayload (ttlMode ttl).1 expected value) (ttlMode ttl).2

/-- **What arrives is what was asked for**: the message of a call is parsed into a request that a
node serves as the operation of the call on its key. -/
theorem Fits.asked {call : Call} (h : call.Fits) : ∃ message, call.encode = some message ∧
    (parseRequest message).map (fun parsed => parsed.1.asked) =
      .ok ⟨call.request.key, call.verb⟩ := by
  refine ⟨_, h.encode_eq, ?_⟩
  have hparsed := h.wellFormed.reads.whole []
  rw [List.append_nil] at hparsed
  rw [hparsed]
  cases call <;> rfl

end Call

/-! ## The two parsers -/

/-- `take_bytes` and `read_exact` succeed alike. -/
theorem alike_takeBytes (len : ℕ) : Parser.Alike (takeBytes len) (readExact len) := by
  intro input out
  by_cases h : input.length < len
  · rw [takeBytes, readExact, if_pos h, if_pos h]
    constructor <;>
    · intro hok
      cases hok
  · rw [takeBytes, readExact, if_neg h, if_neg h]

/-- Taking bytes looks at no more than it takes. -/
theorem local_takeBytes (len : ℕ) : Parser.Local (takeBytes len) := by
  intro input bytes rest h
  unfold takeBytes at h
  split at h
  · cases h
  next hlen =>
    obtain ⟨rfl, rfl⟩ := Prod.mk.inj (Except.ok.inj h)
    refine ⟨input.take len, (List.take_append_drop len input).symm, fun later => ?_⟩
    exact takeBytes_append (List.length_take_of_le (not_lt.mp hlen)) later

section

variable {next next' : ℕ → Taking Bytes}

/-- Numbers are taken alike. -/
theorem alike_number (h : ∀ len, Parser.Alike (next len) (next' len)) (width : ℕ) :
    Parser.Alike (number next width) (number next' width) :=
  (h width).bind fun _ => .refl _

/-- Fields that may be missing are taken alike. -/
theorem alike_fieldIf {α : Type} {field field' : Taking α} (h : Parser.Alike field field')
    (present : Bool) (absent : α) :
    Parser.Alike (fieldIf present field absent) (fieldIf present field' absent) := by
  cases present with
  | true => exact h
  | false => exact .refl _

/-- **Where the bytes come from does not matter.**  Ways to get bytes that succeed alike make
parsers that accept alike. -/
theorem alike_request (h : ∀ len, Parser.Alike (next len) (next' len)) :
    Parser.Alike (request next) (request next') := by
  refine (h 1).bind fun op => ?_
  refine (alike_number h 4).bind fun keyLen => ?_
  refine (Parser.Alike.refl _).bind fun _ => ?_
  refine (h keyLen).bind fun keyBuf => ?_
  refine (Parser.Alike.refl _).bind fun key => ?_
  have hvalue : Parser.Alike (valueField next) (valueField next') := by
    refine (alike_number h 4).bind fun valueLen => ?_
    refine (Parser.Alike.refl _).bind fun _ => ?_
    exact (h valueLen).bind fun _ => .refl _
  have hstamp : Parser.Alike (stampField next) (stampField next') := by
    refine (alike_number h 8).bind fun write => ?_
    exact (alike_number h 8).bind fun _ => .refl _
  refine (alike_fieldIf hvalue _ _).bind fun value => ?_
  refine (alike_fieldIf (alike_number h 8) _ _).bind fun ttlMs => ?_
  exact (alike_fieldIf hstamp _ _).bind fun _ => .refl _

/-- A number looks at its own bytes. -/
theorem local_number (h : ∀ len, Parser.Local (next len)) (width : ℕ) :
    Parser.Local (number next width) :=
  (h width).bind fun _ => Parser.local_pure _

/-- A check looks at no bytes. -/
theorem local_checkLen (bound : ℕ) (err : ℕ → ShareError) (len : ℕ) :
    Parser.Local (checkLen bound err len) := by
  unfold checkLen
  split
  · exact Parser.local_throw _
  · exact Parser.local_pure _

/-- Decoding looks at no further bytes. -/
theorem local_fromUtf8 (bytes : Bytes) : Parser.Local (fromUtf8 bytes) := by
  unfold fromUtf8
  split
  · exact Parser.local_throw _
  · exact Parser.local_pure _

/-- A field that may be missing looks at its own bytes. -/
theorem local_fieldIf {α : Type} {field : Taking α} (h : Parser.Local field) (present : Bool)
    (absent : α) : Parser.Local (fieldIf present field absent) := by
  cases present with
  | true => exact h
  | false => exact Parser.local_pure _

/-- A request is made of the bytes that were taken for it. -/
theorem local_request (h : ∀ len, Parser.Local (next len)) : Parser.Local (request next) := by
  refine (h 1).bind fun op => ?_
  refine (local_number h 4).bind fun keyLen => ?_
  refine (local_checkLen _ _ _).bind fun _ => ?_
  refine (h keyLen).bind fun keyBuf => ?_
  refine (local_fromUtf8 _).bind fun key => ?_
  have hvalue : Parser.Local (valueField next) := by
    refine (local_number h 4).bind fun valueLen => ?_
    refine (local_checkLen _ _ _).bind fun _ => ?_
    exact (h valueLen).bind fun _ => Parser.local_pure _
  have hstamp : Parser.Local (stampField next) := by
    refine (local_number h 8).bind fun write => ?_
    exact (local_number h 8).bind fun _ => Parser.local_pure _
  refine (local_fieldIf hvalue _ _).bind fun value => ?_
  refine (local_fieldIf (local_number h 8) _ _).bind fun ttlMs => ?_
  exact (local_fieldIf hstamp _ _).bind fun _ => Parser.local_pure _

end

/-- **The reader accepts a stream exactly if the parser accepts what it consumed of it.** -/
theorem readRequest_eq_ok_iff {stream rest : Bytes} {req : Request} :
    readRequest stream = .ok (req, rest) ↔
      ∃ consumed, stream = consumed ++ rest ∧ parseRequest consumed = .ok (req, []) := by
  have halike := alike_request alike_takeBytes
  constructor
  · intro h
    obtain ⟨consumed, rfl, htaken⟩ :=
      local_request local_takeBytes stream req rest ((halike stream _).mpr h)
    refine ⟨consumed, rfl, ?_⟩
    have hwhole := htaken []
    rw [List.append_nil] at hwhole
    exact hwhole
  · rintro ⟨consumed, rfl, h⟩
    obtain ⟨taken, hconsumed, htaken⟩ := local_request local_takeBytes consumed req [] h
    rw [List.append_nil] at hconsumed
    rw [hconsumed]
    exact (halike _ _).mp (htaken rest)

/-- The two values of a compare-and-set come back, whatever they contain. -/
theorem parseSetIfEqPayload_setIfEqPayload (mode : UInt8) {expected : Bytes}
    (h : expected.length < 2 ^ 32) (value : Bytes) :
    parseSetIfEqPayload (setIfEqPayload mode expected value) = some (mode, expected, value) := by
  have hwidth : (beBytes 4 expected.length).length = 4 := length_beBytes _ _
  have hback : ofBeBytes (beBytes 4 expected.length) = expected.length :=
    ofBeBytes_beBytes (by omega)
  rw [setIfEqPayload, List.append_assoc, parseSetIfEqPayload, List.take_left' hwidth,
    List.drop_left' hwidth, hback]
  simp [hwidth]

/-- **The request codec.**  The message of every call within the bounds of the format is parsed
as the call, with whatever comes later left alone, and each proper beginning of it is
truncated; the values of a compare-and-set come back from their field; and the plaintext reader
accepts just what the parser accepts. -/
theorem request_codec (call : Call) (h : call.Fits) :
    (∃ message, call.encode = some message ∧
      Parser.Reads IsTruncated parseRequest message call.request) ∧
    (∀ mode expected value, expected.length < 2 ^ 32 →
      parseSetIfEqPayload (setIfEqPayload mode expected value) = some (mode, expected, value)) ∧
    ∀ stream rest req, readRequest stream = .ok (req, rest) ↔
      ∃ consumed, stream = consumed ++ rest ∧ parseRequest consumed = .ok (req, []) :=
  ⟨⟨_, h.encode_eq, h.wellFormed.reads⟩,
    fun mode _ value hlen => parseSetIfEqPayload_setIfEqPayload mode hlen value,
    fun _ _ _ => readRequest_eq_ok_iff⟩

/-- What is wrong with the value is reported. -/
theorem parseRequest_error {op : UInt8} {key : String} {rest : Bytes} {e : ShareError}
    (hop : opHasValue op = true) (hkey : (utf8 key).length ≤ maxKeyLen)
    (h : valueField takeBytes rest = .error e) :
    parseRequest ([op] ++ (beBytes 4 (utf8 key).length ++ (utf8 key ++ rest))) = .error e := by
  have hlen : (utf8 key).length < 256 ^ 4 := lt_of_le_of_lt hkey (by decide)
  have hcheck : checkLen maxKeyLen .keyLength (utf8 key).length (utf8 key ++ rest) =
      .ok ((), utf8 key ++ rest) := (reads_checkLen hkey).whole _
  have hutf8 : fromUtf8 (utf8 key) rest = .ok (key, rest) := (reads_fromUtf8 key).whole rest
  refine (Parser.bind_ok ((reads_takeBytes [op]).whole _)).trans ?_
  refine (Parser.bind_ok ((reads_number hlen).whole _)).trans ?_
  refine (Parser.bind_ok hcheck).trans ?_
  refine (Parser.bind_ok ((reads_takeBytes (utf8 key)).whole rest)).trans ?_
  refine (Parser.bind_ok hutf8).trans ?_
  refine Parser.bind_error ?_
  rw [List.headD_cons, hop]
  exact h

/-- A compare-and-set of two short values. -/
def sampleCall : Call := .setIfEq "k" [1] [2, 3] (.after 5000000)

/-- A call that fits. -/
theorem request_codec_sample : ∃ message, sampleCall.encode = some message ∧
    Parser.Reads IsTruncated parseRequest message sampleCall.request :=
  (request_codec sampleCall ⟨by decide, by decide, by decide, by decide⟩).1

/-- **A value at the limit.**  A compare-and-set of a value of 64 MiB is built and refused. -/
theorem setIfEq_refused : ∃ message,
    encodeSetIfEqRequest "k" [] (List.replicate maxValueLen 0) .persist = some message ∧
      ∃ e, parseRequest message = .error e := by
  have hlen : (setIfEqPayload 0 [] (List.replicate maxValueLen 0)).length = maxValueLen + 5 := by
    rw [setIfEqPayload, List.length_cons, List.length_append, List.length_append,
      List.length_replicate, length_beBytes]
    rfl
  generalize hpayload : setIfEqPayload 0 [] (List.replicate maxValueLen 0) = payload at hlen
  have hmessage : encodeSetIfEqRequest "k" [] (List.replicate maxValueLen 0) .persist =
      some ([opSetIfEq] ++ (beBytes 4 (utf8 "k").length ++ (utf8 "k" ++
        (beBytes 4 payload.length ++ (payload ++ beBytes 8 0))))) := by
    have hset := @Call.encodeSetRequest_eq "k" payload (by decide) (by rw [hlen]; decide)
    rw [encodeSetIfEqRequest, if_neg (by decide), ttlMode, hpayload, hset]
    simp
  refine ⟨_, hmessage, .valueLength payload.length, ?_⟩
  have hvalue : ∀ rest, valueField takeBytes (beBytes 4 payload.length ++ rest) =
      .error (.valueLength payload.length) := by
    intro rest
    have hbound : maxValueLen < payload.length := by omega
    have hwidth : payload.length < 256 ^ 4 := by
      rw [hlen]
      decide
    rw [valueField, Parser.bind_ok ((reads_number hwidth).whole rest), checkLen, if_pos hbound]
    rfl
  exact parseRequest_error rfl (by decide) (hvalue _)

end Ephpm.Cluster.Share
