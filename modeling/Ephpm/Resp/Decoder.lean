import Ephpm.Lib.Utf8
import Ephpm.Resp.Inline

/-!
# The frame decoder

RESP frames and the decoder that a connection keeps (`resp/frame.rs`, `resp/parse.rs`).  The decoder
works on a buffer to which bytes are only ever appended.  It remembers **positions** in it: where
the next element starts (`pos`), from where to look on for the end of its line (`resume`), and the
arrays that still wait for elements, with the places of the payloads they have (`FrameSpec`).

`turn` is one turn of the loop of `decode_inner`; every turn that goes on leaves less of the buffer
to scan, so `decode` is a total function.
-/

namespace Ephpm.Resp

open Lib
open Ephpm.Kv (Bytes parseI64 formatI64 isI64)

/-- The UTF-8 bytes of a text. -/
def textBytes (s : String) : Bytes := s.toUTF8.data.toList

/-- The number of bytes of the character that a byte begins, and the range of the second of them; no
bytes if it begins none. -/
def leadByte (b : UInt8) : ℕ × UInt8 × UInt8 :=
  if b < 0x80 then (1, 0, 0)
  else if b < 0xC2 then (0, 0, 0)
  else if b < 0xE0 then (2, 0x80, 0xBF)
  else if b = 0xE0 then (3, 0xA0, 0xBF)
  else if b = 0xED then (3, 0x80, 0x9F)
  else if b < 0xF0 then (3, 0x80, 0xBF)
  else if b = 0xF0 then (4, 0x90, 0xBF)
  else if b < 0xF4 then (4, 0x80, 0xBF)
  else if b = 0xF4 then (4, 0x80, 0x8F)
  else (0, 0, 0)

/-- How many of the bytes behind a first byte go on with its character. -/
def goingOn (lead : ℕ × UInt8 × UInt8) : Bytes → ℕ
  | [] => 0
  | c :: rest =>
    if 2 ≤ lead.1 ∧ lead.2.1 ≤ c ∧ c ≤ lead.2.2 then
      1 + ((rest.take (lead.1 - 2)).takeWhile fun b => 0x80 ≤ b && b ≤ 0xBF).length
    else 0

/-- The characters of bytes.  What begins a character and does not end it is replaced, as far as it
goes. -/
def replacing : Bytes → List Char
  | [] => []
  | b :: rest =>
    let more := goingOn (leadByte b) rest
    let whole := String.fromUTF8? ⟨(b :: rest.take more).toArray⟩
    (whole.bind (·.toList.head?)).getD (Char.ofNat 0xFFFD) :: replacing (rest.drop more)
termination_by bytes => bytes.length
decreasing_by
  rw [List.length_drop, List.length_cons]
  omega

/-- `String::from_utf8_lossy`. -/
def fromUtf8Lossy (bytes : Bytes) : String :=
  (String.fromUTF8? ⟨bytes.toArray⟩).getD (String.ofList (replacing bytes))

/-- What is valid is kept. -/
theorem fromUtf8Lossy_textBytes (s : String) : fromUtf8Lossy (textBytes s) = s := by
  have hbytes : (⟨(textBytes s).toArray⟩ : ByteArray) = s.toUTF8 := rfl
  rw [fromUtf8Lossy, hbytes, Utf8.fromUTF8_toUTF8]
  rfl

/-- A RESP frame. -/
inductive Frame where
  | simple (s : String)
  | error (s : String)
  | integer (n : ℤ)
  | bulk (data : Bytes)
  | array (items : List Frame)
  | null

/-- A frame that has been located in the buffer: a payload is a range of it. -/
inductive FrameSpec where
  | simple (s : String)
  | error (s : String)
  | integer (n : ℤ)
  | null
  | bulk (start stop : ℕ)
  | array (items : List FrameSpec)

/-- An array of which not all elements have arrived. -/
structure PartialArray where
  items : List FrameSpec
  remaining : ℕ

/-- The protocol errors. -/
inductive ParseError where
  | unexpectedType (kind : UInt8)
  | tooDeep
  | nonUtf8Integer
  | invalidInteger (line : Bytes)
  | bulkTooLong
  | multibulkTooLong
  | inlineTooBig
  | unbalancedQuotes
deriving DecidableEq, Repr

/-- The decoder of a connection, the innermost array first. -/
structure Decoder where
  inline : Bool
  pos : ℕ
  resume : ℕ
  stack : List PartialArray

/-- `Decoder::request()` for `true`, `Decoder::response()` for `false`; also the decoder after
`reset`. -/
def Decoder.fresh (inline : Bool) : Decoder := ⟨inline, 0, 0, []⟩

/-- `MAX_ARRAY_LEN`. -/
def maxArrayLen : ℕ := 1024 * 1024

/-- `MAX_BULK_LEN`. -/
def maxBulkLen : ℕ := 512 * 1024 * 1024

/-- `MAX_ARRAY_DEPTH`. -/
def maxArrayDepth : ℕ := 32

/-- `MAX_INLINE_LEN`. -/
def maxInlineLen : ℕ := 64 * 1024

/-! ## Scanning one element -/

/-- The first index from `start` on, and below `len`, that passes the test. -/
def firstFrom (test : ℕ → Bool) (start len : ℕ) : Option ℕ :=
  (List.range' start (len - start)).find? test

/-- A line end starts at this index. -/
def isCrlf (buf : Bytes) (i : ℕ) : Bool := buf[i]? == some 13 && buf[i + 1]? == some 10

/-- `find_crlf`, from where the search for this element stopped last time. -/
def findCrlf (buf : Bytes) (resume start : ℕ) : Option ℕ :=
  firstFrom (isCrlf buf) (max resume start) buf.length

/-- `parse_line_int`. -/
def parseLineInt (line : Bytes) : Except ParseError ℤ :=
  if (String.fromUTF8? ⟨line.toArray⟩).isNone then .error .nonUtf8Integer
  else
    match parseI64 line with
    | none => .error (.invalidInteger line)
    | some n => .ok n

/-- What scanning at `pos` produced.  An element that is not there yet comes with the new
`resume`. -/
inductive Scan where
  | incomplete (resume : ℕ)
  | element (spec : FrameSpec) (stop : ℕ)
  | arrayStart (count start : ℕ)

/-- The part of `scan_element` that has the line, which ends at `crlf`, in a buffer of `len`
bytes. -/
def scanBody (kind : UInt8) (line : Bytes) (crlf len : ℕ) : Except ParseError Scan :=
  let after := crlf + 2
  if kind = 43 then .ok (.element (.simple (fromUtf8Lossy line)) after)
  else if kind = 45 then .ok (.element (.error (fromUtf8Lossy line)) after)
  else
    match parseLineInt line with
    | .error e => .error e
    | .ok n =>
      if kind = 58 then .ok (.element (.integer n) after)
      else if n < 0 then .ok (.element .null after)
      else if kind = 36 then
        if maxBulkLen < n.toNat then .error .bulkTooLong
        -- Resume at the header, so that only the short length line is read again.
        else if len < after + n.toNat + 2 then .ok (.incomplete crlf)
        else .ok (.element (.bulk after (after + n.toNat)) (after + n.toNat + 2))
      else if maxArrayLen < n.toNat then .error .multibulkTooLong
      else if n = 0 then .ok (.element (.array []) after)
      else .ok (.arrayStart n.toNat after)

/-- The type bytes `+`, `-`, `:`, `$` and `*`. -/
def isKind (b : UInt8) : Bool := b = 43 ∨ b = 45 ∨ b = 58 ∨ b = 36 ∨ b = 42

/-- `scan_element`: one element, or the head of an array. -/
def scanElement (buf : Bytes) (d : Decoder) : Except ParseError Scan :=
  match buf[d.pos]? with
  | none => .ok (.incomplete d.resume)
  | some kind =>
    if !isKind kind then .error (.unexpectedType kind)
    else if kind = 42 ∧ maxArrayDepth ≤ d.stack.length then .error .tooDeep
    else
      match findCrlf buf d.resume (d.pos + 1) with
      -- The last byte may be the first half of a line end.
      | none => .ok (.incomplete (max (buf.length - 1) (d.pos + 1)))
      | some crlf => scanBody kind ((buf.take crlf).drop (d.pos + 1)) crlf buf.length

/-- A line without the `\r` at its end. -/
def stripCr (line : Bytes) : Bytes := if line.getLast? = some 13 then line.dropLast else line

/-- `scan_inline`: the arguments and the index after the line, or nothing yet. -/
def scanInline (buf : Bytes) (resume : ℕ) : Except ParseError (Option (List Bytes × ℕ)) :=
  match firstFrom (fun i => buf[i]? == some 10) (min resume buf.length) buf.length with
  | none => if maxInlineLen < buf.length then .error .inlineTooBig else .ok none
  | some newline =>
    if maxInlineLen < newline then .error .inlineTooBig
    else
      match (splitInlineArgs (stripCr (buf.take newline))).join with
      | none => .error .unbalancedQuotes
      | some args => .ok (some (args, newline + 1))

/-! ## Decoding -/

/-- Fold a finished element into its array, and that one into its own if it is full.  At the top
level the frame is complete. -/
def deliver : List PartialArray → FrameSpec → List PartialArray ⊕ FrameSpec
  | [], spec => .inr spec
  | top :: outer, spec =>
    if 0 < top.remaining - 1 then .inl (⟨top.items ++ [spec], top.remaining - 1⟩ :: outer)
    else deliver outer (.array (top.items ++ [spec]))

mutual

/-- `materialize`: slice the payloads out of the bytes that were scanned. -/
def materialize (data : Bytes) : FrameSpec → Frame
  | .simple s => .simple s
  | .error s => .error s
  | .integer n => .integer n
  | .null => .null
  | .bulk start stop => .bulk ((data.take stop).drop start)
  | .array items => .array (materializeAll data items)

/-- `materialize` on the elements of an array. -/
def materializeAll (data : Bytes) : List FrameSpec → List Frame
  | [] => []
  | spec :: rest => materialize data spec :: materializeAll data rest

end

/-- What one turn of the loop of `decode_inner` comes to. -/
inductive Turn where
  | waits (d : Decoder)
  | fails (e : ParseError)
  | yields (frame : Frame) (rest : Bytes)
  | again (buf : Bytes) (d : Decoder)

/-- The inline half of a turn, at the start of a request. -/
def inlineTurn (buf : Bytes) (d : Decoder) : Turn :=
  if buf.isEmpty then .waits d
  else
    match scanInline buf d.resume with
    | .error e => .fails e
    | .ok none => .waits { d with resume := buf.length }
    | .ok (some (args, stop)) =>
      -- An empty line is consumed silently.
      if args.isEmpty then .again (buf.drop stop) (Decoder.fresh d.inline)
      else .yields (.array (args.map .bulk)) (buf.drop stop)

/-- The half of a turn that scans an element. -/
def elementTurn (buf : Bytes) (d : Decoder) : Turn :=
  match scanElement buf d with
  | .error e => .fails e
  | .ok (.incomplete resume) => .waits { d with resume := resume }
  | .ok (.arrayStart count start) =>
    .again buf { d with pos := start, resume := start, stack := ⟨[], count⟩ :: d.stack }
  | .ok (.element spec stop) =>
    match deliver d.stack spec with
    | .inl stack => .again buf { d with pos := stop, resume := stop, stack := stack }
    | .inr spec => .yields (materialize (buf.take stop) spec) (buf.drop stop)

/-- The decoder is at the start of a request that is not an array. -/
def Decoder.atInline (d : Decoder) (buf : Bytes) : Bool :=
  d.inline && d.stack.isEmpty && d.pos == 0 && buf.head? != some 42

/-- One turn of the loop of `decode_inner`. -/
def turn (buf : Bytes) (d : Decoder) : Turn :=
  if d.atInline buf then inlineTurn buf d else elementTurn buf d

/-! ## Every turn that goes on leaves less to scan -/

theorem firstFrom_eq_some {test : ℕ → Bool} {start len i : ℕ} :
    firstFrom test start len = some i ↔
      test i = true ∧ (start ≤ i ∧ i < len) ∧ ∀ j, start ≤ j → j < i → test j = false := by
  rw [firstFrom, List.find?_range'_eq_some]
  simp only [List.mem_range'_1, Bool.not_eq_true']
  refine and_congr_right fun _ => and_congr_left fun _ => ?_
  omega

theorem firstFrom_eq_none {test : ℕ → Bool} {start len : ℕ} :
    firstFrom test start len = none ↔ ∀ j, start ≤ j → j < len → test j = false := by
  rw [firstFrom, List.find?_range'_eq_none]
  simp only [Bool.not_eq_true']
  refine forall_congr' fun j => ⟨fun h hj hlen => h hj (by omega), fun h hj hlen => h hj (by omega)⟩

theorem isCrlf_lt {buf : Bytes} {i : ℕ} (h : isCrlf buf i = true) : i + 2 ≤ buf.length := by
  simp only [isCrlf, Bool.and_eq_true, beq_iff_eq] at h
  obtain ⟨hlt, -⟩ := List.getElem?_eq_some_iff.mp h.2
  omega

theorem findCrlf_bounds {buf : Bytes} {resume start crlf : ℕ}
    (h : findCrlf buf resume start = some crlf) : start ≤ crlf ∧ crlf + 2 ≤ buf.length := by
  obtain ⟨hcrlf, hbounds, -⟩ := firstFrom_eq_some.mp h
  exact ⟨by omega, isCrlf_lt hcrlf⟩

/-- Where a scan of a line that ends at `crlf` can lead in a buffer of `len` bytes. -/
def Scan.Within (crlf len : ℕ) : Scan → Prop
  | .incomplete resume => resume = crlf
  | .element _ stop => crlf + 2 ≤ stop ∧ stop ≤ len
  | .arrayStart count start => 0 < count ∧ start = crlf + 2

section Progress

variable {buf : Bytes} {d : Decoder}

theorem scanBody_within {kind : UInt8} {line : Bytes} {crlf len : ℕ} {scan : Scan}
    (hcrlf : crlf + 2 ≤ len) (h : scanBody kind line crlf len = .ok scan) :
    scan.Within crlf len := by
  have hafter (spec : FrameSpec) (h : Except.ok (ε := ParseError) (.element spec (crlf + 2)) =
      .ok scan) : scan.Within crlf len := by
    obtain rfl := Except.ok.inj h
    exact ⟨le_rfl, hcrlf⟩
  simp only [scanBody] at h
  split at h
  · exact hafter _ h
  split at h
  · exact hafter _ h
  split at h
  · cases h
  split at h
  · exact hafter _ h
  split at h
  · exact hafter _ h
  split at h
  · split at h
    · cases h
    split at h
    · obtain rfl := Except.ok.inj h
      rfl
    · obtain rfl := Except.ok.inj h
      exact ⟨by omega, by omega⟩
  split at h
  · cases h
  split at h
  · exact hafter _ h
  · obtain rfl := Except.ok.inj h
    exact ⟨by omega, rfl⟩

/-- What scanning an element can come to, apart from an error. -/
theorem scanElement_cases {scan : Scan} (h : scanElement buf d = .ok scan) :
    (buf.length ≤ d.pos ∧ scan = .incomplete d.resume) ∨
      (d.pos < buf.length ∧ findCrlf buf d.resume (d.pos + 1) = none ∧
        scan = .incomplete (max (buf.length - 1) (d.pos + 1))) ∨
      ∃ crlf, d.pos < buf.length ∧ findCrlf buf d.resume (d.pos + 1) = some crlf ∧
        scan.Within crlf buf.length := by
  unfold scanElement at h
  split at h
  next hget =>
    exact .inl ⟨List.getElem?_eq_none_iff.mp hget, (Except.ok.inj h).symm⟩
  next kind hget =>
    obtain ⟨hlt, -⟩ := List.getElem?_eq_some_iff.mp hget
    split at h
    · cases h
    split at h
    · cases h
    split at h
    next hcrlf => exact .inr (.inl ⟨hlt, hcrlf, (Except.ok.inj h).symm⟩)
    next crlf hcrlf =>
      exact .inr (.inr ⟨crlf, hlt, hcrlf, scanBody_within (findCrlf_bounds hcrlf).2 h⟩)

theorem scanElement_element {spec : FrameSpec} {stop : ℕ}
    (h : scanElement buf d = .ok (.element spec stop)) : d.pos < stop ∧ stop ≤ buf.length := by
  obtain ⟨-, hscan⟩ | ⟨-, -, hscan⟩ | ⟨crlf, hlt, hcrlf, hscan⟩ := scanElement_cases h
  · cases hscan
  · cases hscan
  · have := findCrlf_bounds hcrlf
    exact ⟨by have := hscan.1; omega, hscan.2⟩

theorem scanElement_arrayStart {count start : ℕ}
    (h : scanElement buf d = .ok (.arrayStart count start)) :
    0 < count ∧ d.pos < start ∧ start ≤ buf.length := by
  obtain ⟨-, hscan⟩ | ⟨-, -, hscan⟩ | ⟨crlf, hlt, hcrlf, hscan⟩ := scanElement_cases h
  · cases hscan
  · cases hscan
  · have := findCrlf_bounds hcrlf
    have hstart := hscan.2
    exact ⟨hscan.1, by omega, by omega⟩

theorem scanInline_bounds {resume stop : ℕ} {args : List Bytes}
    (h : scanInline buf resume = .ok (some (args, stop))) : 0 < stop ∧ stop ≤ buf.length := by
  unfold scanInline at h
  split at h
  · split at h <;> cases h
  next newline hnewline =>
    have hbounds := (firstFrom_eq_some.mp hnewline).2.1
    split at h
    · cases h
    split at h
    · cases h
    · obtain ⟨-, rfl⟩ := Prod.mk.inj (Option.some.inj (Except.ok.inj h))
      exact ⟨by omega, by omega⟩

theorem Decoder.pos_of_atInline (hinline : d.atInline buf = true) : d.pos = 0 := by
  simp only [Decoder.atInline, Bool.and_eq_true, beq_iff_eq] at hinline
  exact hinline.1.2

/-- A turn goes on after a line without arguments, or past an element or the start of an array. -/
theorem turn_again_cases {buf' : Bytes} {d' : Decoder} (h : turn buf d = .again buf' d') :
    d'.resume = d'.pos ∧ d'.inline = d.inline ∧
      (d.inline = true ∧ d.pos = 0 ∧ d'.pos = 0 ∧
          (∃ stop, 0 < stop ∧ stop ≤ buf.length ∧ buf' = buf.drop stop) ∨
        buf' = buf ∧ d.pos < d'.pos ∧ d'.pos ≤ buf.length) := by
  unfold turn at h
  split at h
  next hinline =>
    unfold inlineTurn at h
    split at h
    · cases h
    split at h
    · cases h
    · cases h
    next args stop hscan =>
      have hbounds := scanInline_bounds hscan
      split at h
      · injection h with hbuf hd
        subst hbuf hd
        refine ⟨rfl, rfl, .inl ⟨?_, Decoder.pos_of_atInline hinline, rfl, stop, hbounds.1,
          hbounds.2, rfl⟩⟩
        simp only [Decoder.atInline, Bool.and_eq_true] at hinline
        exact hinline.1.1.1
      · cases h
  next =>
    unfold elementTurn at h
    split at h
    · cases h
    · cases h
    next count start hscan =>
      injection h with hbuf hd
      subst hbuf hd
      exact ⟨rfl, rfl, .inr ⟨rfl, (scanElement_arrayStart hscan).2⟩⟩
    next spec stop hscan =>
      split at h
      · injection h with hbuf hd
        subst hbuf hd
        exact ⟨rfl, rfl, .inr ⟨rfl, scanElement_element hscan⟩⟩
      · cases h

/-- A frame takes something from the buffer. -/
theorem turn_yields_cases {frame : Frame} {rest : Bytes} (h : turn buf d = .yields frame rest) :
    ∃ stop, 0 < stop ∧ stop ≤ buf.length ∧ rest = buf.drop stop := by
  unfold turn at h
  split at h
  · unfold inlineTurn at h
    split at h
    · cases h
    split at h
    · cases h
    · cases h
    next args stop hscan =>
      have hbounds := scanInline_bounds hscan
      split at h
      · cases h
      · injection h with _ hrest
        exact ⟨stop, hbounds.1, hbounds.2, hrest.symm⟩
  · unfold elementTurn at h
    split at h
    · cases h
    · cases h
    · cases h
    next spec stop hscan =>
      have hbounds := scanElement_element hscan
      split at h
      · cases h
      · injection h with _ hrest
        exact ⟨stop, by omega, hbounds.2, hrest.symm⟩

/-- **A turn that goes on leaves less to scan.** -/
theorem turn_again_lt {buf' : Bytes} {d' : Decoder} (h : turn buf d = .again buf' d') :
    buf'.length - d'.pos < buf.length - d.pos := by
  obtain ⟨-, -, ⟨-, hzero, hzero', stop, hpos, hle, rfl⟩ | ⟨rfl, hlt, hle⟩⟩ := turn_again_cases h
  · rw [List.length_drop]
    omega
  · omega

end Progress

/-- What `decode` returns: nothing yet, with the buffer and the decoder to go on with, an error, or
a frame and what follows it. -/
inductive Decoded where
  | waits (buf : Bytes) (d : Decoder)
  | fails (e : ParseError)
  | yields (frame : Frame) (rest : Bytes)

/-- `Decoder::decode`.  After a frame and after an error the decoder is fresh again. -/
def decode (buf : Bytes) (d : Decoder) : Decoded :=
  match _h : turn buf d with
  | .waits d => .waits buf d
  | .fails e => .fails e
  | .yields frame rest => .yields frame rest
  | .again buf d => decode buf d
termination_by buf.length - d.pos
decreasing_by exact turn_again_lt _h

section Unfold

variable {buf : Bytes} {d : Decoder}

theorem decode_waits {d' : Decoder} (h : turn buf d = .waits d') : decode buf d = .waits buf d' := by
  rw [decode]
  split <;> simp_all

theorem decode_fails {e : ParseError} (h : turn buf d = .fails e) : decode buf d = .fails e := by
  rw [decode]
  split <;> simp_all

theorem decode_yields {frame : Frame} {rest : Bytes} (h : turn buf d = .yields frame rest) :
    decode buf d = .yields frame rest := by
  rw [decode]
  split <;> simp_all

theorem decode_again {buf' : Bytes} {d' : Decoder} (h : turn buf d = .again buf' d') :
    decode buf d = decode buf' d' := by
  rw [decode]
  split <;> simp_all

end Unfold

end Ephpm.Resp
