import Mathlib.Tactic.Linarith
import Ephpm.Resp.Arrival

/-!
# Frames are read back as they were written

`Frame::write_to` and the decoder: a frame within the limits is decoded as itself, whatever bytes
follow, and no proper beginning of it is decoded at all (`decode_writeTo`).  The same holds for a
command in its inline form, quoted byte by byte, up to the length of a line (`inline_command`).

The decoder works by positions and an explicit stack, the frame is a tree.  What connects the two
is `locates`: from the start of a frame, under any stack, the decoder comes to the point where
the located frame is delivered to the stack.
-/

namespace Ephpm.Resp

open Lib
open Ephpm.Kv (Bytes parseI64 formatI64 isI64 parseDigits)

/-! ## Writing -/

mutual

/-- `Frame::write_to`. -/
def writeTo : Frame → Bytes
  | .simple s => 43 :: (textBytes s ++ [13, 10])
  | .error s => 45 :: (textBytes s ++ [13, 10])
  | .integer n => 58 :: (formatI64 n ++ [13, 10])
  | .bulk data => 36 :: (formatI64 data.length ++ [13, 10] ++ data ++ [13, 10])
  | .array items => 42 :: (formatI64 items.length ++ [13, 10] ++ writeAll items)
  | .null => [36, 45, 49, 13, 10]

/-- The elements of an array, one after the other. -/
def writeAll : List Frame → Bytes
  | [] => []
  | frame :: rest => writeTo frame ++ writeAll rest

end

mutual

/-- A frame within the limits of the decoder, with arrays nested at most `depth` deep. -/
def Frame.Fits (depth : ℕ) : Frame → Prop
  | .simple s => ∀ i, isCrlf (textBytes s) i = false
  | .error s => ∀ i, isCrlf (textBytes s) i = false
  | .integer n => isI64 n = true
  | .bulk data => data.length ≤ maxBulkLen
  | .array items => items.length ≤ maxArrayLen ∧ ∃ inner, depth = inner + 1 ∧ AllFit inner items
  | .null => True

/-- All elements of an array are within the limits. -/
def AllFit (depth : ℕ) : List Frame → Prop
  | [] => True
  | frame :: rest => frame.Fits depth ∧ AllFit depth rest

end

/-! ## Lines -/

/-- The byte of a digit. -/
theorem digit_byte {c : Char} (h : c.isDigit = true) :
    48 ≤ c.toNat.toUInt8 ∧ c.toNat.toUInt8 ≤ 57 ∧
      (c.toNat.toUInt8 - 48).toNat = c.toNat - '0'.toNat := by
  have hrange : 48 ≤ c.toNat ∧ c.toNat ≤ 57 := by
    simpa [Char.isDigit, UInt32.le_iff_toNat_le] using h
  generalize c.toNat = n at hrange
  obtain ⟨hlow, hhigh⟩ := hrange
  interval_cases n <;> decide

/-- Digits are read as a number. -/
theorem parseDigits_map {digits : List Char} (h : ∀ c ∈ digits, c.isDigit = true) (acc : ℕ) :
    parseDigits (digits.map fun c => c.toNat.toUInt8) acc =
      some (Nat.ofDigitChars 10 digits acc) := by
  induction digits generalizing acc with
  | nil => rfl
  | cons c digits ih =>
    obtain ⟨hlow, hhigh, hvalue⟩ := digit_byte (h c List.mem_cons_self)
    rw [List.map_cons, parseDigits, if_pos ⟨hlow, hhigh⟩, hvalue,
      ih (fun c' hc' => h c' (List.mem_cons_of_mem _ hc')), Nat.ofDigitChars_cons, Nat.mul_comm]

/-- A number is written in digits. -/
theorem isDigit_toDigits {n : ℕ} {c : Char} (h : c ∈ Nat.toDigits 10 n) : c.isDigit = true :=
  Nat.isDigit_of_mem_toDigits (by decide) (by decide) h

/-- A number is read back as it was written. -/
theorem parseI64_formatI64 {n : ℤ} (hn : isI64 n = true) : parseI64 (formatI64 n) = some n := by
  have hdigits := parseDigits_map (fun _ => isDigit_toDigits (n := n.natAbs)) 0
  rw [Nat.ofDigitChars_ten_toDigits] at hdigits
  have hfirst : ∀ b ∈ (Nat.toDigits 10 n.natAbs).map fun c => c.toNat.toUInt8, 48 ≤ b := by
    intro b hb
    obtain ⟨c, hc, rfl⟩ := List.mem_map.mp hb
    exact (digit_byte (isDigit_toDigits hc)).1
  have hsome : ((Nat.toDigits 10 n.natAbs).map fun c => c.toNat.toUInt8) ≠ [] := by
    simp [Nat.toDigits_ne_nil]
  rw [formatI64]
  generalize ((Nat.toDigits 10 n.natAbs).map fun c => c.toNat.toUInt8) = digits at *
  have hempty : digits.isEmpty = false := by simpa using hsome
  split
  next hneg =>
    have hvalue : -1 * (n.natAbs : ℤ) = n := by omega
    have hfits : isI64 (-1 * (n.natAbs : ℤ)) = true := hvalue.symm ▸ hn
    simp only [parseI64, hempty, Bool.false_eq_true, if_false, hdigits, Option.bind_some]
    rw [if_pos hfits, hvalue]
  next hpos =>
    have hvalue : 1 * (n.natAbs : ℤ) = n := by omega
    have hfits : isI64 (1 * (n.natAbs : ℤ)) = true := hvalue.symm ▸ hn
    unfold parseI64
    split
    · exact absurd (hfirst 45 List.mem_cons_self) (by decide)
    · exact absurd (hfirst 43 List.mem_cons_self) (by decide)
    · show (if digits.isEmpty = true then none else (parseDigits digits 0).bind fun k =>
        if isI64 (1 * (k : ℤ)) = true then some (1 * (k : ℤ)) else none) = some n
      rw [hempty, if_neg Bool.false_ne_true, hdigits, Option.bind_some, if_pos hfits, hvalue]

/-- A number is a text. -/
theorem formatI64_text (n : ℤ) : ∃ s, formatI64 n = textBytes s := by
  refine ⟨String.ofList (if n < 0 then '-' :: Nat.toDigits 10 n.natAbs
    else Nat.toDigits 10 n.natAbs), ?_⟩
  have hdigits : Utf8.bytes (Nat.toDigits 10 n.natAbs) =
      (Nat.toDigits 10 n.natAbs).map fun c => c.toNat.toUInt8 := by
    rw [← List.flatMap_pure_eq_map]
    refine List.flatMap_congr fun c hc => ?_
    have hrange := isDigit_toDigits hc
    exact Utf8.encode_ascii (by
      simp only [Char.isDigit, Bool.and_eq_true, decide_eq_true_eq, ge_iff_le,
        UInt32.le_iff_toNat_le] at hrange
      exact Nat.lt_of_le_of_lt hrange.2 (by decide))
  rw [textBytes, Utf8.toUTF8_ofList, formatI64]
  split
  · rw [Utf8.bytes_cons, hdigits]
    rfl
  · rw [hdigits]

/-- A number has no end of a line in it. -/
theorem formatI64_noCrlf (n : ℤ) (i : ℕ) : isCrlf (formatI64 n) i = false := by
  have hcr : (13 : UInt8) ∉ formatI64 n := by
    have hdigits : (13 : UInt8) ∉ (Nat.toDigits 10 n.natAbs).map fun c => c.toNat.toUInt8 := by
      intro hmem
      obtain ⟨c, hc, hbyte⟩ := List.mem_map.mp hmem
      have := (digit_byte (isDigit_toDigits hc)).1
      rw [hbyte] at this
      exact absurd this (by decide)
    rw [formatI64]
    split
    · simpa using hdigits
    · exact hdigits
  rw [isCrlf, Bool.and_eq_false_iff]
  left
  by_contra hget
  exact hcr (List.mem_of_getElem? (by simpa using hget))

/-- **A number is read back.** -/
theorem parseLineInt_formatI64 {n : ℤ} (hn : isI64 n = true) :
    parseLineInt (formatI64 n) = .ok n := by
  obtain ⟨s, hs⟩ := formatI64_text n
  have hvalid : String.fromUTF8? ⟨(formatI64 n).toArray⟩ = some s := by
    rw [hs]
    exact Utf8.fromUTF8_toUTF8 s
  rw [parseLineInt, hvalid, parseI64_formatI64 hn]
  rfl

section Scan

variable {buf line rest : Bytes} {inline : Bool} {pos : ℕ} {stack : List PartialArray}

/-- The end of a line is found behind it, wherever the search goes on. -/
theorem findCrlf_line {start : ℕ} (hdrop : buf.drop start = line ++ 13 :: 10 :: rest)
    (hline : ∀ i, isCrlf line i = false) {resume : ℕ} (hle : resume ≤ start) :
    findCrlf buf resume start = some (start + line.length) := by
  have hget (i : ℕ) : buf[start + i]? = (line ++ 13 :: 10 :: rest)[i]? := by
    rw [← List.getElem?_drop, hdrop]
  have hcrlf (i : ℕ) : isCrlf buf (start + i) = isCrlf (line ++ 13 :: 10 :: rest) i := by
    rw [isCrlf, hget, Nat.add_assoc, hget]
    rfl
  have hhere : isCrlf buf (start + line.length) = true := by
    rw [hcrlf]
    simp [isCrlf]
  have hlt := isCrlf_lt hhere
  refine firstFrom_eq_some.mpr ⟨hhere, ⟨by omega, by omega⟩, fun j hj hlow => ?_⟩
  obtain ⟨i, rfl⟩ := Nat.exists_eq_add_of_le (show start ≤ j by omega)
  rw [hcrlf]
  by_cases hinner : i + 2 ≤ line.length
  · rw [isCrlf_append _ hinner, hline]
  · -- The last byte of the line: a `\r` follows it, and no `\n`.
    have hlast : i + 1 = line.length := by omega
    rw [isCrlf, hlast]
    simp

/-- An element whose first line is there. -/
theorem scanElement_line {kind : UInt8} (hkind : isKind kind = true)
    (hdeep : kind = 42 → stack.length < maxArrayDepth)
    (hdrop : buf.drop pos = kind :: (line ++ 13 :: 10 :: rest))
    (hline : ∀ i, isCrlf line i = false) :
    scanElement buf ⟨inline, pos, pos, stack⟩ =
      scanBody kind line (pos + 1 + line.length) buf.length := by
  obtain ⟨hget, hrest, -⟩ := drop_eq_cons hdrop
  have hfind := @findCrlf_line _ _ _ _ hrest hline pos (by omega)
  have hslice : (buf.take (pos + 1 + line.length)).drop (pos + 1) = line := by
    rw [← List.take_drop, hrest, List.take_left]
  have hdepth : ¬ (kind = 42 ∧ maxArrayDepth ≤ stack.length) := fun h =>
    absurd (hdeep h.1) (not_lt.mpr h.2)
  simp only [scanElement, hget, hkind, hfind, hslice, if_neg hdepth, Bool.not_true,
    Bool.false_eq_true, if_false]

/-- What comes of an element that has been located: it is delivered to the stack. -/
def delivered (buf : Bytes) (inline : Bool) (stack : List PartialArray) (spec : FrameSpec)
    (stop : ℕ) : Decoded :=
  match deliver stack spec with
  | .inl stack => decode buf ⟨inline, stop, stop, stack⟩
  | .inr spec => .yields (materialize (buf.take stop) spec) (buf.drop stop)

/-- An element that is there is delivered. -/
theorem decode_element {spec : FrameSpec} {stop : ℕ}
    (hline : (⟨inline, pos, pos, stack⟩ : Decoder).atInline buf = false)
    (hscan : scanElement buf ⟨inline, pos, pos, stack⟩ = .ok (.element spec stop)) :
    decode buf ⟨inline, pos, pos, stack⟩ = delivered buf inline stack spec stop := by
  have hturn : turn buf ⟨inline, pos, pos, stack⟩ = elementTurn buf ⟨inline, pos, pos, stack⟩ := by
    rw [turn, hline]
    rfl
  rw [elementTurn, hscan] at hturn
  unfold delivered
  cases hdeliver : deliver stack spec with
  | inl stack' =>
    simp only [hdeliver] at hturn ⊢
    exact decode_again hturn
  | inr spec' =>
    simp only [hdeliver] at hturn ⊢
    exact decode_yields hturn

end Scan

/-! ## Frames -/

/-- To show something of every frame, show it of an array from its elements. -/
theorem Frame.induction {motive : Frame → Prop} (simple : ∀ s, motive (.simple s))
    (error : ∀ s, motive (.error s)) (integer : ∀ n, motive (.integer n))
    (bulk : ∀ data, motive (.bulk data)) (null : motive .null)
    (array : ∀ items, (∀ item ∈ items, motive item) → motive (.array items)) (f : Frame) :
    motive f :=
  @Frame.rec motive (fun items => ∀ item ∈ items, motive item) simple error integer bulk array null
    (fun _ h => by cases h)
    (fun _ _ hfirst hrest item h => by
      rcases List.mem_cons.mp h with rfl | h
      · exact hfirst
      · exact hrest item h) f

section Frames

variable {buf : Bytes} {inline : Bool}

/-- From its start, under a stack that leaves room for `depth` more levels, the frame is located
and delivered. -/
def Locates (buf : Bytes) (inline : Bool) (f : Frame) : Prop :=
  ∀ (depth pos : ℕ) (stack : List PartialArray) (rest : Bytes), f.Fits depth →
    stack.length + depth ≤ maxArrayDepth → buf.drop pos = writeTo f ++ rest →
      (⟨inline, pos, pos, stack⟩ : Decoder).atInline buf = false →
        ∃ spec, decode buf ⟨inline, pos, pos, stack⟩ =
            delivered buf inline stack spec (pos + (writeTo f).length) ∧
          ∀ data, buf.take (pos + (writeTo f).length) <+: data → materialize data spec = f

/-- A frame that is one line. -/
theorem locate_line {f : Frame} {kind : UInt8} {line rest : Bytes} {spec : FrameSpec} {pos : ℕ}
    {stack : List PartialArray} (hwrite : writeTo f = kind :: (line ++ [13, 10]))
    (hkind : isKind kind = true) (hdeep : kind = 42 → stack.length < maxArrayDepth)
    (hline : ∀ i, isCrlf line i = false)
    (hbody : ∀ crlf len, scanBody kind line crlf len = .ok (.element spec (crlf + 2)))
    (hspec : ∀ data, materialize data spec = f) (hdrop : buf.drop pos = writeTo f ++ rest)
    (hstart : (⟨inline, pos, pos, stack⟩ : Decoder).atInline buf = false) :
    ∃ spec, decode buf ⟨inline, pos, pos, stack⟩ =
        delivered buf inline stack spec (pos + (writeTo f).length) ∧
      ∀ data, buf.take (pos + (writeTo f).length) <+: data → materialize data spec = f := by
  have hdrop' : buf.drop pos = kind :: (line ++ 13 :: 10 :: rest) := by
    rw [hdrop, hwrite]
    simp
  have hscan := @scanElement_line _ _ _ inline _ _ _ hkind hdeep hdrop' hline
  rw [hbody] at hscan
  have hstop : pos + 1 + line.length + 2 = pos + (writeTo f).length := by
    rw [hwrite]
    simp only [List.length_cons, List.length_append, List.length_nil]
    omega
  rw [hstop] at hscan
  exact ⟨spec, decode_element hstart hscan, fun data _ => hspec data⟩

/-- The length of a bulk string is in range. -/
theorem isI64_length {n : ℕ} (h : n ≤ maxBulkLen) : isI64 (n : ℤ) = true := by
  have hsmall : (n : ℤ) ≤ 536870912 := by exact_mod_cast h
  rw [isI64, decide_eq_true_eq]
  constructor
  · omega
  · omega

/-- What has been scanned is a beginning of the data. -/
theorem take_of_start {data : Bytes} {stop k : ℕ} (h : buf.take stop <+: data) (hk : k ≤ stop)
    (hstop : stop ≤ buf.length) : data.take k = buf.take k := by
  obtain ⟨later, rfl⟩ := h
  rw [List.take_append_of_le_length (by rw [List.length_take]; omega), List.take_take,
    min_eq_left hk]

/-- How long a buffer is, by its parts. -/
theorem length_of_drop {pos : ℕ} {start rest : Bytes} (hsome : start ≠ [])
    (h : buf.drop pos = start ++ rest) : pos + start.length + rest.length = buf.length := by
  have hlength := congrArg List.length h
  have := List.length_pos_of_ne_nil hsome
  rw [List.length_drop, List.length_append] at hlength
  omega

/-- A bulk string that is there whole. -/
theorem scanBody_bulk {line : Bytes} {crlf len n : ℕ} (hn : parseLineInt line = .ok (n : ℤ))
    (hsmall : n ≤ maxBulkLen) (hthere : crlf + 2 + n + 2 ≤ len) :
    scanBody 36 line crlf len =
      .ok (.element (.bulk (crlf + 2) (crlf + 2 + n)) (crlf + 2 + n + 2)) := by
  have hpositive : ¬ (n : ℤ) < 0 := by omega
  simp only [scanBody, hn, hpositive, Int.toNat_natCast, if_neg (not_lt.mpr hsmall),
    if_neg (not_lt.mpr hthere), if_false, if_true]
  rfl

/-- A bulk string is found. -/
theorem locates_bulk (data : Bytes) : Locates buf inline (.bulk data) := by
  intro depth pos stack rest hfit _ hdrop hstart
  have hsmall : data.length ≤ maxBulkLen := hfit
  have hwrite : writeTo (.bulk data) =
      36 :: (formatI64 data.length ++ [13, 10] ++ data ++ [13, 10]) := by rw [writeTo]
  have hdrop' : buf.drop pos =
      36 :: (formatI64 data.length ++ 13 :: 10 :: (data ++ 13 :: 10 :: rest)) := by
    rw [hdrop, hwrite]
    simp
  have hlength := length_of_drop (by rw [hwrite]; simp) hdrop
  set crlf := pos + 1 + (formatI64 data.length).length with hcrlf
  have hstop : pos + (writeTo (.bulk data)).length = crlf + 2 + data.length + 2 := by
    rw [hwrite, hcrlf]
    simp only [List.length_cons, List.length_append, List.length_nil]
    omega
  have hscan := @scanElement_line _ _ _ inline _ stack _ rfl
    (fun h => absurd h (by decide)) hdrop' (formatI64_noCrlf _)
  rw [scanBody_bulk (parseLineInt_formatI64 (isI64_length hsmall)) hsmall (by omega)] at hscan
  rw [hstop]
  refine ⟨_, decode_element hstart hscan, fun data' hdata => ?_⟩
  have hpayload : buf.drop (crlf + 2) = data ++ 13 :: 10 :: rest := by
    have hskip : crlf + 2 = pos + (1 + (formatI64 data.length).length + 2) := by omega
    rw [hskip, ← List.drop_drop, hdrop']
    simp [List.drop_append, Nat.add_comm 1]
  rw [materialize, take_of_start hdata (by omega) (by omega), ← List.take_drop, hpayload,
    List.take_left]

/-- The items of an array are found one after the other. -/
theorem locate_items {items : List Frame} (hitems : ∀ item ∈ items, Locates buf inline item)
    {depth pos : ℕ} {outer : List PartialArray} {rest : Bytes} (done : List FrameSpec)
    (hsome : items ≠ []) (hfit : AllFit depth items)
    (hdepth : outer.length + 1 + depth ≤ maxArrayDepth)
    (hdrop : buf.drop pos = writeAll items ++ rest) (hpos : 0 < pos) :
    ∃ specs, decode buf ⟨inline, pos, pos, ⟨done, items.length⟩ :: outer⟩ =
        delivered buf inline outer (.array (done ++ specs)) (pos + (writeAll items).length) ∧
      ∀ data, buf.take (pos + (writeAll items).length) <+: data →
        materializeAll data specs = items := by
  induction items generalizing pos done with
  | nil => exact absurd rfl hsome
  | cons item items ih =>
    rw [writeAll, List.append_assoc] at hdrop
    have hstart : (⟨inline, pos, pos, ⟨done, (item :: items).length⟩ :: outer⟩ :
        Decoder).atInline buf = false := by simp [Decoder.atInline]
    obtain ⟨spec, hdecode, hspec⟩ := hitems item List.mem_cons_self depth pos _ _ hfit.1
      (by rw [List.length_cons]; omega) hdrop hstart
    rw [hdecode, delivered, deliver]
    by_cases hlast : items = []
    · subst hlast
      simp only [List.length_cons, List.length_nil, Nat.sub_self, Nat.lt_irrefl, if_false,
        writeAll, List.append_nil]
      refine ⟨[spec], rfl, fun data hdata => ?_⟩
      rw [materializeAll, materializeAll, hspec data hdata]
    · have hmore : 0 < (item :: items).length - 1 := by
        have := List.length_pos_of_ne_nil hlast
        simpa using this
      have hdrop' : buf.drop (pos + (writeTo item).length) = writeAll items ++ rest := by
        rw [← List.drop_drop, hdrop, List.drop_left]
      obtain ⟨specs, hitems', hspecs⟩ := ih (fun it hit => hitems it (List.mem_cons_of_mem _ hit))
        (done ++ [spec]) hlast hfit.2 hdrop' (by omega)
      have hstop : pos + (writeAll (item :: items)).length =
          pos + (writeTo item).length + (writeAll items).length := by
        rw [writeAll, List.length_append, Nat.add_assoc]
      rw [if_pos hmore, hstop]
      refine ⟨spec :: specs, ?_, fun data hdata => ?_⟩
      · rw [← List.append_cons] at hitems'
        exact hitems'
      · have hfirst := (List.take_prefix_take_left (l := buf)
          (Nat.le_add_right (pos + (writeTo item).length) (writeAll items).length)).trans hdata
        rw [materializeAll, hspec data hfirst, hspecs data hdata]

/-- An array begins, or is empty. -/
theorem scanBody_array {line : Bytes} {crlf len n : ℕ} (hn : parseLineInt line = .ok (n : ℤ))
    (hsmall : n ≤ maxArrayLen) :
    scanBody 42 line crlf len =
      .ok (if n = 0 then .element (.array []) (crlf + 2) else .arrayStart n (crlf + 2)) := by
  have hpositive : ¬ (n : ℤ) < 0 := by omega
  have hkinds : (42 : UInt8) ≠ 43 ∧ (42 : UInt8) ≠ 45 ∧ (42 : UInt8) ≠ 58 ∧ (42 : UInt8) ≠ 36 := by
    decide
  simp only [scanBody, hn, hkinds, hpositive, Int.toNat_natCast, if_neg (not_lt.mpr hsmall),
    if_false, Int.natCast_eq_zero]
  split <;> rfl

/-- An array is found if its items are. -/
theorem locates_array {items : List Frame} (hitems : ∀ item ∈ items, Locates buf inline item) :
    Locates buf inline (.array items) := by
  intro depth pos stack rest hfit hdepth hdrop hstart
  obtain ⟨hsmall, inner, rfl, hfit⟩ := hfit
  have hroom : stack.length < maxArrayDepth := by omega
  have hnumber : parseLineInt (formatI64 items.length) = .ok (items.length : ℤ) :=
    parseLineInt_formatI64 (isI64_length (hsmall.trans (by decide)))
  by_cases hnil : items = []
  · subst hnil
    refine @locate_line _ _ _ 42 (formatI64 (0 : ℕ)) _ (.array []) _ _
      (by simp [writeTo, writeAll]) rfl (fun _ => hroom) (formatI64_noCrlf _)
      (fun crlf len => scanBody_array hnumber hsmall) (fun data => ?_) hdrop hstart
    rw [materialize, materializeAll]
  · have hwrite : writeTo (.array items) =
        42 :: (formatI64 items.length ++ [13, 10] ++ writeAll items) := by rw [writeTo]
    have hdrop' : buf.drop pos =
        42 :: (formatI64 items.length ++ 13 :: 10 :: (writeAll items ++ rest)) := by
      rw [hdrop, hwrite]
      simp
    set start := pos + 1 + (formatI64 items.length).length + 2 with hstartPos
    have hscan : scanElement buf ⟨inline, pos, pos, stack⟩ =
        .ok (.arrayStart items.length start) := by
      rw [scanElement_line rfl (fun _ => hroom) hdrop' (formatI64_noCrlf _),
        scanBody_array hnumber hsmall, if_neg (by simpa using hnil)]
    have hturn : turn buf ⟨inline, pos, pos, stack⟩ =
        .again buf ⟨inline, start, start, ⟨[], items.length⟩ :: stack⟩ := by
      rw [turn, hstart, if_neg Bool.false_ne_true, elementTurn, hscan]
    have hitemsDrop : buf.drop start = writeAll items ++ rest := by
      have hskip : start = pos + (1 + (formatI64 items.length).length + 2) := by omega
      rw [hskip, ← List.drop_drop, hdrop']
      simp [List.drop_append, Nat.add_comm 1]
    have hstop : pos + (writeTo (.array items)).length = start + (writeAll items).length := by
      rw [hwrite, hstartPos]
      simp only [List.length_cons, List.length_append, List.length_nil]
      omega
    obtain ⟨specs, hdecode, hspecs⟩ := @locate_items _ _ _ hitems _ _ stack _ [] hnil hfit
      (by omega) hitemsDrop (by omega)
    rw [decode_again hturn, hdecode, hstop]
    refine ⟨_, rfl, fun data hdata => ?_⟩
    rw [materialize, List.nil_append, hspecs data hdata]

/-- **Every frame within the limits is located.** -/
theorem locates (f : Frame) : Locates buf inline f := by
  induction f using Frame.induction with
  | simple s =>
    intro depth pos stack rest hfit _ hdrop hstart
    exact @locate_line _ _ _ 43 (textBytes s) _ (.simple s) _ _ (by rw [writeTo]) rfl
      (fun h => absurd h (by decide)) hfit (fun crlf len => by
        simp [scanBody, fromUtf8Lossy_textBytes])
      (fun data => by rw [materialize]) hdrop hstart
  | error s =>
    intro depth pos stack rest hfit _ hdrop hstart
    exact @locate_line _ _ _ 45 (textBytes s) _ (.error s) _ _ (by rw [writeTo]) rfl
      (fun h => absurd h (by decide)) hfit (fun crlf len => by
        simp [scanBody, fromUtf8Lossy_textBytes])
      (fun data => by rw [materialize]) hdrop hstart
  | integer n =>
    intro depth pos stack rest hfit _ hdrop hstart
    refine @locate_line _ _ _ 58 (formatI64 n) _ (.integer n) _ _ (by rw [writeTo])
      rfl (fun h => absurd h (by decide)) (formatI64_noCrlf n) (fun crlf len => ?_)
      (fun data => by rw [materialize]) hdrop hstart
    simp [scanBody, parseLineInt_formatI64 hfit]
  | bulk data => exact locates_bulk data
  | null =>
    intro depth pos stack rest hfit _ hdrop hstart
    have hminus : formatI64 (-1) = [45, 49] := by decide
    refine @locate_line _ _ _ 36 (formatI64 (-1)) _ .null _ _
      (by rw [writeTo, hminus]; rfl) rfl (fun h => absurd h (by decide)) (formatI64_noCrlf (-1))
      (fun crlf len => ?_) (fun data => by rw [materialize]) hdrop hstart
    simp [scanBody, parseLineInt_formatI64 (n := -1) (by decide)]
  | array items ih => exact locates_array ih

/-- **A frame at the beginning of the buffer is decoded.** -/
theorem decode_start {f : Frame} {rest : Bytes} (hfit : f.Fits maxArrayDepth)
    (hstart : (Decoder.fresh inline).atInline (writeTo f ++ rest) = false) :
    decode (writeTo f ++ rest) (Decoder.fresh inline) = .yields f rest := by
  obtain ⟨spec, hdecode, hspec⟩ := @locates (writeTo f ++ rest) inline f
    maxArrayDepth 0 [] rest hfit (by simp) (by simp) hstart
  rw [Nat.zero_add] at hdecode hspec
  rw [Decoder.fresh, hdecode, delivered, deliver]
  simp only
  rw [hspec _ List.prefix_rfl, List.drop_left]

/-- A decoder of responses skips nothing while it waits. -/
theorem decode_waits_response {d d' : Decoder} {buf' : Bytes} (hinline : d.inline = false)
    (h : decode buf d = .waits buf' d') : buf' = buf := by
  induction hn : buf.length - d.pos using Nat.strong_induction_on generalizing buf d with
  | _ n ih =>
    cases hturn : turn buf d with
    | waits d₁ =>
      rw [decode_waits hturn] at h
      exact (Decoded.waits.inj h).1.symm
    | fails e => cases (decode_fails hturn).symm.trans h
    | yields f rest => cases (decode_yields hturn).symm.trans h
    | again buf₁ d₁ =>
      have hlt := turn_again_lt hturn
      rw [decode_again hturn] at h
      obtain ⟨-, hsame, ⟨hyes, -⟩ | ⟨rfl, -⟩⟩ := turn_again_cases hturn
      · cases hinline.symm.trans hyes
      · exact ih _ (by omega) (hsame.trans hinline) h rfl

/-- **Frames are read back as they were written.**  A frame within the limits of the decoder is
decoded as itself and leaves what follows it; any proper beginning of it is waited on, and nothing
of it is consumed. -/
theorem decode_writeTo (f : Frame) (hfit : f.Fits maxArrayDepth) :
    (∀ rest, decode (writeTo f ++ rest) (Decoder.fresh false) = .yields f rest) ∧
      ∀ start, start <+: writeTo f → start ≠ writeTo f →
        ∃ d, decode start (Decoder.fresh false) = .waits start d := by
  have hwhole (rest : Bytes) : decode (writeTo f ++ rest) (Decoder.fresh false) = .yields f rest :=
    decode_start hfit rfl
  refine ⟨hwhole, ?_⟩
  rintro start ⟨more, hmore⟩ hne
  -- What a beginning came to, the whole would come to.
  have hgo := @decode_append start (Decoder.fresh false) more rfl
  have hall := hwhole []
  rw [List.append_nil, ← hmore, hgo] at hall
  cases hdecode : decode start (Decoder.fresh false) with
  | waits buf' d =>
    rw [decode_waits_response rfl hdecode]
    exact ⟨d, rfl⟩
  | fails e =>
    rw [hdecode] at hall
    cases hall
  | yields f' rest =>
    rw [hdecode] at hall
    obtain ⟨-, hrest⟩ := Decoded.yields.inj hall
    obtain ⟨-, rfl⟩ := List.append_eq_nil_iff.mp hrest
    exact absurd (by rw [← hmore, List.append_nil]) hne

end Frames

/-- An array of a payload with a line end in it, with another frame behind it. -/
theorem decode_writeTo_sample :
    decode (writeTo (.array [.bulk [13, 10], .null]) ++ [58]) (Decoder.fresh false) =
      .yields (.array [.bulk [13, 10], .null]) [58] := by
  have hfit : Frame.Fits maxArrayDepth (.array [.bulk [13, 10], .null]) := by
    refine ⟨by decide, 31, rfl, ?_, trivial, trivial⟩
    show 2 ≤ maxBulkLen
    decide
  exact (decode_writeTo _ hfit).1 [58]

/-! ## Pipelines -/

/-- **Frames are read back**, and nothing is left. -/
theorem drain_writeAll {inline : Bool} {frames : List Frame}
    (hfit : AllFit maxArrayDepth frames)
    (hkind : inline = true → ∀ f ∈ frames, ∃ items, f = .array items) :
    drain inline (writeAll frames) (Decoder.fresh inline) =
      ⟨frames, .waiting [] (Decoder.fresh inline)⟩ := by
  induction frames with
  | nil => exact drain_waits inline (decode_waits (turn_nil _))
  | cons f frames ih =>
    have hstart : (Decoder.fresh inline).atInline (writeTo f ++ writeAll frames) = false := by
      cases inline with
      | false => rfl
      | true =>
        obtain ⟨items, rfl⟩ := hkind rfl f List.mem_cons_self
        rw [writeTo]
        rfl
    rw [writeAll, drain_yields inline (decode_start hfit.1 hstart),
      ih hfit.2 fun h f hf => hkind h f (List.mem_cons_of_mem _ hf)]

/-- **A pipeline arrives.**  Frames that are written one after the other are read as these frames,
wherever the stream is cut into pieces, and nothing is left.  For a server the frames are arrays. -/
theorem pipeline_arrives (inline : Bool) (frames : List Frame) (pieces : List Bytes)
    (hfit : AllFit maxArrayDepth frames)
    (hkind : inline = true → ∀ f ∈ frames, ∃ items, f = .array items)
    (hpieces : pieces.flatten = writeAll frames) :
    pieces.foldl (Session.feed inline) (Session.start inline) =
      ⟨frames, .waiting [] (Decoder.fresh inline)⟩ := by
  have hfrom (stream : Bytes) : pieces.foldl (Session.feed inline)
      (drain inline stream (Decoder.fresh inline)) =
        drain inline (stream ++ pieces.flatten) (Decoder.fresh inline) := by
    clear hpieces
    induction pieces generalizing stream with
    | nil => rw [List.foldl_nil, List.flatten_nil, List.append_nil]
    | cons piece pieces ih =>
      rw [List.foldl_cons, ← drain_append inline stream piece rfl, ih, List.flatten_cons,
        List.append_assoc]
  have hempty := hfrom []
  rwa [drain_waits inline (decode_waits (turn_nil _)), List.nil_append, hpieces,
    drain_writeAll hfit hkind] at hempty

/-- A null and a number, cut within the null. -/
theorem pipeline_arrives_sample :
    [[36, 45], [49, 13, 10, 58, 55, 13, 10]].foldl (Session.feed false) (Session.start false) =
      ⟨[.null, .integer 7], .waiting [] (Decoder.fresh false)⟩ := by
  exact pipeline_arrives false _ _ ⟨trivial, rfl, trivial⟩ (absurd · Bool.false_ne_true)
    (by decide)

/-! ## Inline commands -/

section Inline

variable (upper : Bool)

/-- The bytes that cannot stand in an inline form. -/
def Foreign (b : UInt8) : Prop := hexVal b = none ∧ b ≠ 32 ∧ b ≠ 34 ∧ b ≠ 92 ∧ b ≠ 120

/-- A quoted argument has no byte that is foreign to quotes. -/
theorem notMem_quoteArg {b : UInt8} (hb : Foreign b) (arg : Bytes) : b ∉ quoteArg upper arg := by
  obtain ⟨hhex, -, hquote, hbackslash, hx⟩ := hb
  have hdigit {d : UInt8} (hd : hexVal (hexDigit upper d) = some d) : b ≠ hexDigit upper d := by
    rintro rfl
    cases hhex.symm.trans hd
  intro hmem
  rw [quoteArg, List.mem_cons, List.mem_append, List.mem_flatMap] at hmem
  rcases hmem with h | ⟨c, -, h⟩ | h
  · exact hquote h
  · obtain ⟨hhigh, hlow, -⟩ := hexVal_escape upper c
    simp [escapeByte, hdigit hhigh, hdigit hlow, hbackslash, hx] at h
  · simp [hquote] at h

/-- An inline command has no such byte. -/
theorem notMem_inlineForm {b : UInt8} (hb : Foreign b) (args : List Bytes) :
    b ∉ inlineForm upper args := by
  cases args with
  | nil => simp [inlineForm, List.intercalate]
  | cons arg args =>
    have htail : b ∉ inlineTail upper args := by
      intro hmem
      obtain ⟨arg', -, h⟩ := List.mem_flatMap.mp hmem
      rcases List.mem_cons.mp h with h | h
      · exact hb.2.1 h
      · exact notMem_quoteArg upper hb arg' h
    rw [inlineForm_cons, List.mem_append]
    exact fun h => h.elim (notMem_quoteArg upper hb arg) htail

/-- Quoting makes an argument longer. -/
theorem length_le_quoteArg (arg : Bytes) : arg.length + 1 ≤ (quoteArg upper arg).length := by
  induction arg with
  | nil => simp [quoteArg]
  | cons b arg ih =>
    simp only [quoteArg, escapeByte, List.flatMap_cons, List.length_cons, List.length_append,
      List.length_nil] at ih ⊢
    omega

/-- A line is longer than its arguments are, and than their number. -/
theorem length_le_inlineTail (args : List Bytes) :
    args.length ≤ (inlineTail upper args).length ∧
      ∀ arg ∈ args, arg.length ≤ (inlineTail upper args).length := by
  induction args with
  | nil => simp
  | cons arg args ih =>
    have hfirst := length_le_quoteArg upper arg
    have hlength : (inlineTail upper (arg :: args)).length =
        (quoteArg upper arg).length + 1 + (inlineTail upper args).length := by
      simp [inlineTail]
      omega
    refine ⟨by rw [hlength, List.length_cons]; omega, fun arg' hmem => ?_⟩
    rcases List.mem_cons.mp hmem with rfl | hmem
    · omega
    · have := ih.2 arg' hmem
      omega

/-- The inline form is at least as long as each argument, and as there are arguments. -/
theorem length_le_inlineForm (args : List Bytes) :
    args.length ≤ (inlineForm upper args).length ∧
      ∀ arg ∈ args, arg.length ≤ (inlineForm upper args).length := by
  cases args with
  | nil => simp
  | cons arg args =>
    obtain ⟨hcount, hargs⟩ := length_le_inlineTail upper args
    have hfirst := length_le_quoteArg upper arg
    rw [inlineForm_cons, List.length_append]
    refine ⟨by rw [List.length_cons]; omega, fun arg' hmem => ?_⟩
    rcases List.mem_cons.mp hmem with rfl | hmem
    · omega
    · have := hargs arg' hmem
      omega

/-- A line of arguments that is not too long. -/
theorem scanInline_line {line rest : Bytes} {args : List Bytes} {cr : Bytes}
    (hcr : cr = [] ∨ cr = [13]) (hnewline : (10 : UInt8) ∉ line) (hreturn : (13 : UInt8) ∉ line)
    (hsplit : splitInlineArgs line = some (some args))
    (hlimit : line.length + cr.length ≤ maxInlineLen) :
    scanInline (line ++ cr ++ 10 :: rest) 0 = .ok (some (args, (line ++ cr).length + 1)) := by
  have hfind : firstFrom (fun i => (line ++ cr ++ 10 :: rest)[i]? == some 10)
      (min 0 (line ++ cr ++ 10 :: rest).length) (line ++ cr ++ 10 :: rest).length =
        some (line ++ cr).length := by
    refine firstFrom_eq_some.mpr ⟨by simp, ⟨by simp, by simp⟩, fun j _ hj => ?_⟩
    rw [List.getElem?_append_left hj]
    by_contra hget
    have hmem : (10 : UInt8) ∈ line ++ cr := List.mem_of_getElem? (by simpa using hget)
    rcases List.mem_append.mp hmem with h | h
    · exact hnewline h
    · rcases hcr with rfl | rfl <;> simp at h
  have hstrip : stripCr (line ++ cr) = line := by
    rcases hcr with rfl | rfl
    · rw [List.append_nil, stripCr, if_neg fun hlast => hreturn (List.mem_of_getLast? hlast)]
    · simp [stripCr]
  have hshort : ¬ maxInlineLen < (line ++ cr).length := by
    rw [List.length_append]
    omega
  rw [scanInline, hfind]
  simp only [hshort, if_false, List.take_left, hstrip, hsplit, Option.join_some]

end Inline

/-- Arguments that are not too long fit. -/
theorem allFit_bulk (depth : ℕ) {args : List Bytes} (h : ∀ arg ∈ args, arg.length ≤ maxBulkLen) :
    AllFit depth (args.map .bulk) := by
  induction args with
  | nil => trivial
  | cons arg args ih =>
    exact ⟨h arg List.mem_cons_self, ih fun arg' hmem => h arg' (List.mem_cons_of_mem _ hmem)⟩

section Command

variable (upper : Bool)

/-- **Every command has an inline form.**  Quoting every byte of the arguments as an escape is
undone by the splitter; a line of such arguments, ended by `\n` or `\r\n`, is decoded to the same
frame as the command in its multibulk form, up to the limit on the length of a line; and for every
line the splitter answers without leaving the line, and refuses it if a quote is left open. -/
theorem inline_command :
    (∀ args, splitInlineArgs (inlineForm upper args) = some (some args)) ∧
      (∀ args cr rest, args ≠ [] → cr = [] ∨ cr = [13] →
        (inlineForm upper args).length + cr.length ≤ maxInlineLen →
          decode (inlineForm upper args ++ cr ++ 10 :: rest) (Decoder.fresh true) =
              .yields (.array (args.map .bulk)) rest ∧
            decode (writeTo (.array (args.map .bulk)) ++ rest) (Decoder.fresh true) =
              .yields (.array (args.map .bulk)) rest) ∧
      ∀ line, ∃ out, splitInlineArgs line = some out ∧
        (balanced .none line = false → out = none) := by
  refine ⟨splitInlineArgs_inlineForm upper, fun args cr rest hsome hcr hlimit => ⟨?_, ?_⟩,
    fun line => ?_⟩
  · obtain ⟨arg, args, rfl⟩ := List.exists_cons_of_ne_nil hsome
    have hquote : ∃ tail, inlineForm upper (arg :: args) = 34 :: tail := by
      rw [inlineForm_cons, quoteArg]
      exact ⟨_, rfl⟩
    have hscan := @scanInline_line _ rest _ _ hcr
      (notMem_inlineForm upper ⟨rfl, by decide⟩ (arg :: args))
      (notMem_inlineForm upper ⟨rfl, by decide⟩ (arg :: args))
      (splitInlineArgs_inlineForm upper (arg :: args)) hlimit
    obtain ⟨tail, htail⟩ := hquote
    refine decode_yields ?_
    have hinline : (Decoder.fresh true).atInline
        (inlineForm upper (arg :: args) ++ cr ++ 10 :: rest) = true := by
      rw [htail]
      rfl
    rw [turn, if_pos hinline, inlineTurn, if_neg (by simp), Decoder.fresh, hscan]
    simp only [List.isEmpty_cons, Bool.false_eq_true, if_false]
    rw [← List.drop_drop, List.drop_left]
    rfl
  · refine decode_start ⟨?_, 31, rfl, ?_⟩ ?_
    · have := (length_le_inlineForm upper args).1
      rw [List.length_map]
      exact this.trans ((by omega : _ ≤ maxInlineLen).trans (by decide))
    · refine allFit_bulk 31 fun arg hmem => ?_
      have := (length_le_inlineForm upper args).2 arg hmem
      exact this.trans ((by omega : _ ≤ maxInlineLen).trans (by decide))
    · rw [writeTo]
      rfl
  · obtain ⟨out, hout, hbalanced⟩ := @splitLoop_answers line (line.length + 1) 0 []
      (Nat.zero_le _) (by omega)
    refine ⟨out, hout, fun hopen => ?_⟩
    by_contra hne
    rw [List.drop_zero, hopen] at hbalanced
    cases hbalanced hne

end Command

/-- `PING` as a telnet user would quote it, and as a client would send it. -/
theorem inline_command_sample :
    decode (inlineForm false [[80, 73, 78, 71]] ++ [13] ++ 10 :: []) (Decoder.fresh true) =
      .yields (.array [.bulk [80, 73, 78, 71]]) [] := by
  exact ((inline_command false).2.1 [[80, 73, 78, 71]] [13] [] (by decide) (.inr rfl)
    (by decide)).1

end Ephpm.Resp
