import Mathlib.Algebra.Order.Ring.Nat
import Mathlib.Data.List.TakeDrop
import Ephpm.Lib.TextBytes
import Ephpm.QueryStats.Digest

/-!
# Whether a digest is text

`normalize` builds its output byte by byte and turns it into a string at the end.  If the bytes
are not valid UTF-8 it gives the empty string, and the statement is counted with all others of
which that is true.

Everything the loop skips or copies begins and ends at an ASCII byte, with one exception.  **Of a
block comment that does not end, the last byte is left**, and it is read as the beginning of what
follows.  If the last character is ASCII this is only odd; if not, its last byte is copied to the
output alone.  So the output is text unless the statement ends in an open comment whose last
character is not ASCII (`Garbled`).
-/

namespace Ephpm.QueryStats

open Lib.Utf8

/-! ## Open comments -/

/-- Whether a block comment is closed. -/
def closes : List UInt8 → Bool
  | a :: b :: rest => (a == star && b == slash) || closes (b :: rest)
  | _ => false

/-- Whether a statement ends in an open block comment.  Strings, identifiers in backticks, line
comments and closed block comments are skipped. -/
def opensComment (sql : List UInt8) : Bool :=
  match sql with
  | [] => false
  | b :: rest =>
    if b = quote then opensComment (skipQuoted quote rest)
    else if b = doubleQuote then opensComment (skipQuoted doubleQuote rest)
    else if b = backtick then opensComment (spanBacktick rest).2
    else if b = dash ∧ nextIs (· == dash) rest then
      opensComment (rest.tail.dropWhile (· ≠ newline))
    else if b = slash ∧ nextIs (· == star) rest then
      if closes rest.tail then opensComment (skipBlock rest.tail) else true
    else opensComment rest
termination_by sql.length
decreasing_by
  · exact Nat.lt_succ_of_le (skipQuoted_suffix _ _).length_le
  · exact Nat.lt_succ_of_le (skipQuoted_suffix _ _).length_le
  · exact Nat.lt_succ_of_le (spanBacktick_length_le _)
  · exact Nat.lt_succ_of_le (((List.dropWhile_sublist _).length_le).trans (by simp))
  · exact Nat.lt_succ_of_le ((skipBlock_length_le _).trans (by simp))
  · exact Nat.lt_succ_self _

/-- A statement that ends in an open comment, with a character that is not ASCII. -/
def Garbled (sql : List UInt8) : Prop :=
  opensComment sql = true ∧ ∃ b ∈ sql.getLast?, 128 ≤ b.toNat

variable {sql rest out : List UInt8} {b : UInt8}

theorem opensComment_nil : opensComment [] = false := by rw [opensComment]

/-- A byte that begins nothing. -/
def IsPlain (b : UInt8) : Prop :=
  b ≠ quote ∧ b ≠ doubleQuote ∧ b ≠ backtick ∧ b ≠ dash ∧ b ≠ slash

instance (b : UInt8) : Decidable (IsPlain b) := inferInstanceAs (Decidable (_ ∧ _))

/-- Such a byte is passed over. -/
theorem opensComment_cons (h : IsPlain b) :
    opensComment (b :: rest) = opensComment rest := by
  obtain ⟨hquote, hdouble, hback, hdash, hslash⟩ := h
  rw [opensComment, if_neg hquote, if_neg hdouble, if_neg hback, if_neg (fun h => hdash h.1),
    if_neg (fun h => hslash h.1)]

/-- What is skipped opens no comment. -/
theorem opensComment_dropWhile {p : UInt8 → Bool} (hp : ∀ b, p b = true → IsPlain b)
    (sql : List UInt8) :
    opensComment (sql.dropWhile p) = opensComment sql := by
  induction sql with
  | nil => rfl
  | cons b sql ih =>
    rw [List.dropWhile_cons]
    split
    next hb => rw [ih, opensComment_cons (hp b hb)]
    next => rfl

/-- What is left of a statement ends as the statement does. -/
theorem garbled_iff (hopen : opensComment sql = opensComment rest) (hsuffix : rest <:+ sql) :
    Garbled sql ↔ Garbled rest := by
  obtain ⟨front, rfl⟩ := hsuffix
  rw [Garbled, Garbled, hopen]
  refine and_congr_right fun htrue => ?_
  have hne : rest ≠ [] := by
    rintro rfl
    rw [opensComment_nil] at htrue
    cases htrue
  rw [List.getLast?_append_of_ne_nil _ hne]

/-! ## What is skipped

A skip may begin inside a character, behind a backslash, and it may pass through characters.  It
ends behind an ASCII byte or at the end. -/

/-- Behind a string there is text. -/
theorem isText_skipQuoted {q : UInt8} (hq : q.toNat < 128) {front : List UInt8}
    (h : IsText (front ++ rest)) :
    IsText (skipQuoted q rest) ∧ skipQuoted q rest <:+ rest := by
  refine ⟨?_, skipQuoted_suffix q rest⟩
  rcases skipQuoted_cases q rest with hnil | ⟨region, hrest⟩
  · exact hnil ▸ .nil
  · rw [hrest, ← List.append_assoc] at h
    exact (h.split hq).2

/-- An identifier is text, and so is what comes behind it. -/
theorem isText_spanBacktick {front : List UInt8} (h : IsText (front ++ rest)) :
    IsText (front ++ (spanBacktick rest).1) ∧ IsText (spanBacktick rest).2 ∧
      (spanBacktick rest).2 <:+ rest := by
  induction rest generalizing front with
  | nil => exact ⟨h, .nil, List.suffix_refl _⟩
  | cons b rest ih =>
    rw [spanBacktick]
    split
    next hb =>
        have hascii : b.toNat < 128 := by rw [hb]; decide
        exact ⟨(h.split hascii).1.append (.ascii hascii), (h.split hascii).2,
          List.suffix_cons _ _⟩
    next =>
        have htext : IsText (front ++ [b] ++ rest) := by simpa using h
        obtain ⟨hname, hrest, hsuffix⟩ := ih htext
        exact ⟨by simpa using hname, hrest, hsuffix.trans (List.suffix_cons _ _)⟩

/-- Behind a line there is text. -/
theorem isText_dropLine (h : IsText rest) : IsText (rest.dropWhile (· ≠ newline)) := by
  cases hdrop : rest.dropWhile (· ≠ newline) with
  | nil => exact .nil
  | cons b tail =>
    have hb : b = newline := by
      have := List.head?_dropWhile_not (fun b : UInt8 => decide (b ≠ newline)) rest
      rw [hdrop] at this
      simpa using this
    rw [← List.takeWhile_append_dropWhile (p := fun b => decide (b ≠ newline)) (l := rest),
      hdrop] at h
    exact h.of_suffix (by rw [hb]; decide)

/-- Behind a block comment there is text. -/
theorem isText_skipBlock {front : List UInt8} (h : IsText (front ++ rest))
    (hcloses : closes rest = true) : IsText (skipBlock rest) ∧ skipBlock rest <:+ rest := by
  induction rest using skipBlock.induct generalizing front with
  | case1 a b rest hend =>
    rw [skipBlock, if_pos hend]
    have htext : IsText (front ++ [a] ++ b :: rest) := by simpa using h
    exact ⟨(htext.split (by rw [hend.2]; decide)).2, ⟨[a, b], rfl⟩⟩
  | case2 a b rest hne ih =>
    rw [skipBlock, if_neg hne]
    have htext : IsText (front ++ [a] ++ b :: rest) := by simpa using h
    have hcloses' : closes (b :: rest) = true := by
      rw [closes, Bool.or_eq_true] at hcloses
      refine hcloses.resolve_left fun hend => hne ?_
      simpa using hend
    exact ⟨(ih htext hcloses').1, (ih htext hcloses').2.trans (List.suffix_cons _ _)⟩
  | case3 rest hshort =>
    rw [closes.eq_2 rest hshort] at hcloses
    cases hcloses

/-- Of a comment that is not, the last byte is left. -/
theorem skipBlock_open (hopen : closes rest = false) : skipBlock rest = rest.getLast?.toList := by
  induction rest using skipBlock.induct with
  | case1 a b rest hend => simp [closes, hend] at hopen
  | case2 a b rest hne ih =>
    rw [closes, Bool.or_eq_false_iff] at hopen
    rw [skipBlock, if_neg hne, ih hopen.2, List.getLast?_cons_cons]
  | case3 rest hshort =>
    rw [skipBlock.eq_2 rest hshort]
    cases rest with
    | nil => rfl
    | cons a rest =>
      cases rest with
      | nil => rfl
      | cons b rest => exact absurd rfl (hshort a b rest)

/-! ## What is written -/

/-- A placeholder is text. -/
theorem isText_emitPlaceholder (h : IsText out) : IsText (emitPlaceholder out) := by
  unfold emitPlaceholder
  split_ifs with hdots hlist
  · obtain ⟨front, rfl⟩ := hdots
    have htext : IsText (front ++ [dot, dot, dot] ++ comma :: [space]) := by simpa using h
    have htake : (front ++ [dot, dot, dot, comma, space]).take
        ((front ++ [dot, dot, dot, comma, space]).length - 2) = front ++ [dot, dot, dot] := by
      simp [List.take_append]
    rw [htake]
    exact (htext.split (by decide)).1
  · have hlist : [question, comma, space] <:+ out :=
      decide_eq_true_iff.mp (Bool.and_eq_true_iff.mp hlist).1
    obtain ⟨front, rfl⟩ := hlist
    have htext : IsText (front ++ [question] ++ comma :: [space]) := by simpa using h
    have htake : (front ++ [question, comma, space]).take
        ((front ++ [question, comma, space]).length - 2) = front ++ [question] := by
      simp [List.take_append]
    rw [htake]
    refine (htext.split (by decide)).1.append (.of_ascii fun b hb => ?_)
    simp only [List.mem_cons, List.not_mem_nil, or_false] at hb
    rcases hb with rfl | rfl | rfl | rfl | rfl <;> decide
  · exact h.append (.ascii (by decide))

/-- A blank is text. -/
theorem isText_emitBlank (h : IsText out) : IsText (emitBlank out) := by
  unfold emitBlank
  split
  · exact h.append (.ascii (by decide))
  · exact h

/-- A byte that begins nothing is copied, or made a blank. -/
theorem normalizeFrom_byte (hquote : b ≠ quote) (hdouble : b ≠ doubleQuote) (hback : b ≠ backtick)
    (hdash : b = dash → nextIs (· == dash) rest = false)
    (hslash : b = slash → nextIs (· == star) rest = false) (hdigit : isAsciiDigit b = false)
    (hdot : b ≠ dot) :
    normalizeFrom (b :: rest) out = normalizeFrom rest (if isBlank b then emitBlank out else
      out ++ [b]) := by
  have hzero : b ≠ zero := by
    rintro rfl
    exact absurd hdigit (by decide)
  have hline : ¬(b = dash ∧ nextIs (· == dash) rest = true) := fun h =>
    absurd h.2 (by rw [hdash h.1]; decide)
  have hblock : ¬(b = slash ∧ nextIs (· == star) rest = true) := fun h =>
    absurd h.2 (by rw [hslash h.1]; decide)
  rw [normalizeFrom, if_neg hquote, if_neg hdouble, if_neg hback, if_neg hline, if_neg hblock]
  simp only [hzero, hdigit, hdot, false_and, if_false, Bool.false_eq_true]
  split <;> rfl

/-- A plain byte is copied, or made a blank. -/
theorem normalizeFrom_plain (hplain : IsPlain b) (hdigit : isAsciiDigit b = false)
    (hdot : b ≠ dot) :
    normalizeFrom (b :: rest) out = normalizeFrom rest (if isBlank b then emitBlank out else
      out ++ [b]) := by
  obtain ⟨hquote, hdouble, hback, hdash, hslash⟩ := hplain
  exact normalizeFrom_byte hquote hdouble hback (absurd · hdash) (absurd · hslash) hdigit hdot

/-- A byte that is not ASCII is copied. -/
theorem normalizeFrom_high (hb : 128 ≤ b.toNat) :
    normalizeFrom (b :: rest) out = normalizeFrom rest (out ++ [b]) ∧
      opensComment (b :: rest) = opensComment rest := by
  have hne : ∀ k : UInt8, k.toNat < 128 → b ≠ k := by
    rintro k hk rfl
    omega
  have hdigit : isAsciiDigit b = false := by
    rw [isAsciiDigit, Bool.and_eq_false_iff, decide_eq_false_iff_not, decide_eq_false_iff_not,
      UInt8.le_iff_toNat_le, UInt8.le_iff_toNat_le]
    exact .inr (by simp only [UInt8.reduceToNat]; omega)
  have hblank : isBlank b = false := by
    simp [isBlank, hne space (by decide), hne 9 (by decide), hne newline (by decide),
      hne 13 (by decide)]
  have hplain : IsPlain b := ⟨hne _ (by decide), hne _ (by decide), hne _ (by decide),
    hne _ (by decide), hne _ (by decide)⟩
  refine ⟨?_, opensComment_cons hplain⟩
  rw [normalizeFrom_plain hplain hdigit (hne dot (by decide)), hblank]
  rfl

/-- So a character that is not ASCII is. -/
theorem normalizeFrom_highs {bs : List UInt8} (hbs : ∀ b ∈ bs, 128 ≤ b.toNat) :
    normalizeFrom (bs ++ rest) out = normalizeFrom rest (out ++ bs) ∧
      opensComment (bs ++ rest) = opensComment rest := by
  induction bs generalizing out with
  | nil => exact ⟨by rw [List.append_nil]; rfl, rfl⟩
  | cons b bs ih =>
    obtain ⟨hcopy, hopen⟩ := @normalizeFrom_high (bs ++ rest) out b (hbs b List.mem_cons_self)
    obtain ⟨hcopies, hopens⟩ := @ih (out ++ [b]) fun b' hb' =>
      hbs b' (List.mem_cons_of_mem _ hb')
    rw [List.cons_append, hcopy, hcopies, hopen, hopens]
    exact ⟨by simp, rfl⟩

/-! ## The output -/

/-- What the output of a statement is. -/
def Outcome (sql result : List UInt8) : Prop :=
  ¬Garbled sql ∧ IsText result ∨
    Garbled sql ∧ ∃ text b, result = text ++ [b] ∧ IsText text ∧ 128 ≤ b.toNat

/-- The rest of a statement decides. -/
theorem Outcome.of_rest {result : List UInt8} (h : Outcome rest result)
    (hopen : opensComment sql = opensComment rest) (hsuffix : rest <:+ sql) :
    Outcome sql result := by
  rw [Outcome, garbled_iff hopen hsuffix]
  exact h

theorem opensComment_singleton (b : UInt8) : opensComment [b] = false := by
  rw [opensComment]
  split_ifs <;> simp_all [skipQuoted, Lib.skipQuoted, spanBacktick, opensComment_nil, nextIs]

/-- The next byte is of some kind. -/
theorem exists_of_nextIs {p : UInt8 → Bool} (h : nextIs p rest = true) :
    ∃ b tail, rest = b :: tail ∧ p b = true := by
  cases rest with
  | nil => cases h
  | cons b tail => exact ⟨b, tail, rfl, h⟩

/-- The bytes that are not plain, as numbers. -/
theorem isPlain_iff : IsPlain b ↔
    b.toNat ≠ 39 ∧ b.toNat ≠ 34 ∧ b.toNat ≠ 96 ∧ b.toNat ≠ 45 ∧ b.toNat ≠ 47 := by
  simp only [IsPlain, ne_eq, ← UInt8.toNat_inj]
  exact Iff.rfl

/-- A hexadecimal digit is plain. -/
theorem hexdigit_plain (b : UInt8) (h : isAsciiHexdigit b = true) : b.toNat < 128 ∧ IsPlain b := by
  simp only [isAsciiHexdigit, isAsciiDigit, Bool.or_eq_true, Bool.and_eq_true, decide_eq_true_eq,
    UInt8.le_iff_toNat_le, UInt8.reduceToNat] at h
  rw [isPlain_iff]
  omega

/-- What a number is made of is plain. -/
theorem number_plain (b : UInt8) (h : isNumber b = true) : b.toNat < 128 ∧ IsPlain b := by
  simp only [isNumber, isAsciiDigit, dot, Bool.or_eq_true, Bool.and_eq_true, decide_eq_true_eq,
    beq_iff_eq, ← UInt8.toNat_inj, UInt8.le_iff_toNat_le, UInt8.reduceToNat] at h
  rw [isPlain_iff]
  omega

/-- The mark of a hexadecimal number is plain. -/
theorem hexMark_plain (b : UInt8) (h : isHexMark b = true) : b.toNat < 128 ∧ IsPlain b := by
  simp only [isHexMark, Bool.or_eq_true, beq_iff_eq, ← UInt8.toNat_inj, UInt8.reduceToNat] at h
  rw [isPlain_iff]
  omega

/-- One turn of the loop, at an ASCII byte. -/
theorem outcome_ascii (hb : b.toNat < 128) (hrest : IsText rest) (hout : IsText out)
    (ih : ∀ {rest' out'}, rest'.length ≤ rest.length → IsText rest' → IsText out' →
      Outcome rest' (normalizeFrom rest' out')) :
    Outcome (b :: rest) (normalizeFrom (b :: rest) out) := by
  have hall : IsText ([b] ++ rest) := (IsText.ascii hb).append hrest
  have hplaceholder := isText_emitPlaceholder hout
  -- What is left is a text, ends as the statement does and is shorter.
  have hstep : ∀ {rest' out' : List UInt8}, IsText rest' → IsText out' → rest' <:+ rest →
      opensComment (b :: rest) = opensComment rest' →
        Outcome (b :: rest) (normalizeFrom rest' out') := fun htext hout' hsuffix hopen =>
    (ih hsuffix.length_le htext hout').of_rest hopen (hsuffix.trans (List.suffix_cons _ _))
  have hdrop : ∀ {p : UInt8 → Bool}, (∀ b, p b = true → b.toNat < 128 ∧ IsPlain b) →
      ∀ {rest' : List UInt8}, IsText rest' → rest' <:+ rest →
        opensComment (b :: rest) = opensComment rest' →
          Outcome (b :: rest) (normalizeFrom (rest'.dropWhile p) (emitPlaceholder out)) := by
    intro p hp rest' htext hsuffix hopen
    refine hstep (htext.dropWhile fun b hb => (hp b hb).1) hplaceholder
      ((List.dropWhile_suffix _).trans hsuffix) ?_
    rw [hopen, opensComment_dropWhile fun b hb => (hp b hb).2]
  by_cases hquote : b = quote
  · obtain ⟨htext, hsuffix⟩ := isText_skipQuoted (by decide : quote.toNat < 128) hall
    rw [normalizeFrom, if_pos hquote]
    exact hstep htext hplaceholder hsuffix (by rw [opensComment, if_pos hquote])
  by_cases hdouble : b = doubleQuote
  · obtain ⟨htext, hsuffix⟩ := isText_skipQuoted (by decide : doubleQuote.toNat < 128) hall
    rw [normalizeFrom, if_neg hquote, if_pos hdouble]
    exact hstep htext hplaceholder hsuffix (by rw [opensComment, if_neg hquote, if_pos hdouble])
  by_cases hback : b = backtick
  · obtain ⟨hname, htext, hsuffix⟩ := isText_spanBacktick hall
    rw [normalizeFrom, if_neg hquote, if_neg hdouble, if_pos hback]
    exact hstep htext (hout.append hname) hsuffix
      (by rw [opensComment, if_neg hquote, if_neg hdouble, if_pos hback])
  by_cases hdash : b = dash ∧ nextIs (· == dash) rest = true
  · obtain ⟨d, tail, rfl, hd⟩ := exists_of_nextIs hdash.2
    have htail : IsText tail := hrest.tail (by rw [beq_iff_eq.mp hd]; decide)
    rw [normalizeFrom, if_neg hquote, if_neg hdouble, if_neg hback, if_pos hdash]
    exact hstep (isText_dropLine htail) hout
      ((List.dropWhile_suffix _).trans (List.suffix_cons _ _))
      (by rw [opensComment, if_neg hquote, if_neg hdouble, if_neg hback, if_pos hdash])
  by_cases hslash : b = slash ∧ nextIs (· == star) rest = true
  · obtain ⟨d, tail, rfl, hd⟩ := exists_of_nextIs hslash.2
    have hstar : d.toNat < 128 := by rw [beq_iff_eq.mp hd]; decide
    have htail : IsText tail := hrest.tail hstar
    have hopen : opensComment (b :: d :: tail) =
        if closes tail then opensComment (skipBlock tail) else true := by
      rw [opensComment, if_neg hquote, if_neg hdouble, if_neg hback, if_neg hdash, if_pos hslash]
      rfl
    rw [normalizeFrom, if_neg hquote, if_neg hdouble, if_neg hback, if_neg hdash, if_pos hslash]
    cases hcloses : closes tail with
    | true =>
      obtain ⟨htext, hsuffix⟩ := @isText_skipBlock tail [] htail hcloses
      rw [hcloses, if_pos rfl] at hopen
      exact hstep htext hout (hsuffix.trans (List.suffix_cons _ _)) hopen
    | false =>
      have hopen : opensComment (b :: d :: tail) = true := by rw [hopen, hcloses]; rfl
      rw [List.tail_cons, skipBlock_open hcloses]
      cases hlast : tail.getLast? with
      | none =>
        obtain rfl := List.getLast?_eq_none_iff.mp hlast
        refine .inl ⟨fun hgarbled => ?_, by rw [Option.toList_none, normalizeFrom]; exact hout⟩
        obtain ⟨x, hx, hhigh⟩ := hgarbled.2
        obtain rfl : d = x := Option.some.inj hx
        omega
      | some x =>
        have hend : (b :: d :: tail).getLast? = some x := by
          rw [List.getLast?_cons, List.getLast?_cons, hlast]
          rfl
        rw [Option.toList_some]
        by_cases hx : x.toNat < 128
        · have hcases := @ih [x] out (Nat.le_add_left 1 _) (.ascii hx) hout
          refine .inl ⟨fun hgarbled => ?_, ?_⟩
          · obtain ⟨y, hy, hhigh⟩ := hgarbled.2
            obtain rfl : x = y := Option.some.inj (hend.symm.trans hy)
            omega
          · rcases hcases with hcases | hcases
            · exact hcases.2
            · rw [Garbled, opensComment_singleton] at hcases
              cases hcases.1.1
        · have hhigh := not_lt.mp hx
          refine .inr ⟨⟨hopen, x, hend, hhigh⟩, out, x, ?_, hout, hhigh⟩
          rw [(normalizeFrom_high hhigh).1, normalizeFrom]
  have hopen : opensComment (b :: rest) = opensComment rest := by
    rw [opensComment, if_neg hquote, if_neg hdouble, if_neg hback, if_neg hdash, if_neg hslash]
  rw [normalizeFrom, if_neg hquote, if_neg hdouble, if_neg hback, if_neg hdash, if_neg hslash]
  split_ifs with hhex hdigit hdot hblank
  · obtain ⟨x, tail, rfl, hx⟩ := exists_of_nextIs hhex.2.1
    obtain ⟨hascii, hplain⟩ := hexMark_plain x hx
    exact hdrop hexdigit_plain (hrest.tail hascii) (List.suffix_cons _ _)
      (hopen.trans (opensComment_cons hplain))
  · exact hdrop number_plain hrest (List.suffix_refl _) hopen
  · exact hdrop number_plain hrest (List.suffix_refl _) hopen
  · exact hstep hrest (isText_emitBlank hout) (List.suffix_refl _) hopen
  · exact hstep hrest (hout.append (.ascii hb)) (List.suffix_refl _) hopen

/-- **The output is text unless the statement is garbled.** -/
theorem outcome_normalizeFrom (hsql : IsText sql) (hout : IsText out) :
    Outcome sql (normalizeFrom sql out) := by
  induction hn : sql.length using Nat.strong_induction_on generalizing sql out with
  | _ n ih =>
    subst hn
    obtain ⟨cs, rfl⟩ := hsql
    cases cs with
    | nil =>
      refine .inl ⟨fun h => ?_, ?_⟩
      · rw [Garbled, bytes, List.flatMap_nil, opensComment_nil] at h
        cases h.1
      · rw [bytes, List.flatMap_nil, normalizeFrom]
        exact hout
    | cons c cs =>
      rw [bytes_cons] at ih ⊢
      by_cases hc : c.toNat < 128
      · rw [encode_ascii hc] at ih ⊢
        refine outcome_ascii ?_ ⟨cs, rfl⟩ hout fun hle htext hout' => ih _ ?_ htext hout' rfl
        · rw [UInt8.toNat_ofNat']
          omega
        · exact Nat.lt_succ_of_le hle
      · have hhigh := encode_high (not_lt.mp hc)
        obtain ⟨hcopy, hopen⟩ := @normalizeFrom_highs (bytes cs) out _ hhigh
        rw [hcopy]
        refine (ih _ ?_ ⟨cs, rfl⟩ (hout.append (.encode c)) rfl).of_rest hopen ⟨_, rfl⟩
        have := List.length_pos_iff.mpr (String.utf8EncodeChar_ne_nil (c := c))
        rw [List.length_append]
        omega

/-! ## Leading keywords -/

/-- The first word of a statement, behind blanks and comments. -/
def leadingKeyword (sql : List UInt8) : List UInt8 :=
  match sql with
  | [] => []
  | b :: rest =>
    if isBlank b then leadingKeyword rest
    else if b = dash ∧ nextIs (· == dash) rest then
      leadingKeyword (rest.tail.dropWhile (· ≠ newline))
    else if b = slash ∧ nextIs (· == star) rest then
      if closes rest.tail then leadingKeyword (skipBlock rest.tail) else []
    else (b :: rest).takeWhile isAsciiAlphabetic
termination_by sql.length
decreasing_by
  · exact Nat.lt_succ_self _
  · exact Nat.lt_succ_of_le (((List.dropWhile_sublist _).length_le).trans (by simp))
  · exact Nat.lt_succ_of_le ((skipBlock_length_le _).trans (by simp))

theorem head?_append (h : out.head? = some b) (more : List UInt8) :
    (out ++ more).head? = some b := by
  rw [List.head?_append, h]
  rfl

/-- What is written first stays: a placeholder takes back a comma and a blank. -/
theorem head?_emitPlaceholder (h : out.head? = some b) : (emitPlaceholder out).head? = some b := by
  have htake : ∀ n, 0 < n → (out.take n).head? = some b := fun n hn => by
    rw [List.head?_take, if_neg hn.ne', h]
  unfold emitPlaceholder
  split_ifs with hdots hlist
  · exact htake _ (Nat.sub_pos_of_lt (lt_of_lt_of_le (by decide) hdots.length_le))
  · have hlist : [question, comma, space] <:+ out :=
      decide_eq_true_iff.mp (Bool.and_eq_true_iff.mp hlist).1
    exact head?_append (htake _ (Nat.sub_pos_of_lt (lt_of_lt_of_le (by decide)
      hlist.length_le))) _
  · exact head?_append h _

/-- A blank comes behind what is there. -/
theorem head?_emitBlank (h : out.head? = some b) : (emitBlank out).head? = some b := by
  unfold emitBlank
  split
  · exact head?_append h _
  · exact h

/-- The first byte of the output stays. -/
theorem head?_normalizeFrom (h : out.head? = some b) :
    (normalizeFrom sql out).head? = some b := by
  fun_induction normalizeFrom sql out with
  | case1 => exact h
  | case2 _ _ ih | case3 _ _ _ ih => exact ih (head?_emitPlaceholder h)
  | case4 _ _ _ _ ih => exact ih (head?_append h _)
  | case5 _ _ _ _ _ _ _ ih | case6 _ _ _ _ _ _ _ _ ih => exact ih h
  | case7 _ _ _ _ _ _ _ _ _ ih | case8 _ _ _ _ _ _ _ _ _ _ ih | case9 _ _ _ _ _ _ _ _ _ _ _ ih =>
    exact ih (head?_emitPlaceholder h)
  | case10 _ _ _ _ _ _ _ _ _ _ _ _ ih => exact ih (head?_emitBlank h)
  | case11 _ _ _ _ _ _ _ _ _ _ _ _ ih => exact ih (head?_append h _)

/-- A letter is plain, and no digit, dot or blank. -/
theorem alphabetic_plain (h : isAsciiAlphabetic b = true) :
    IsPlain b ∧ isAsciiDigit b = false ∧ b ≠ dot ∧ b ≠ space := by
  simp only [isAsciiAlphabetic, Bool.or_eq_true, Bool.and_eq_true, decide_eq_true_eq,
    UInt8.le_iff_toNat_le, UInt8.reduceToNat] at h
  rw [isPlain_iff, ← Bool.not_eq_true]
  simp only [isAsciiDigit, dot, space, Bool.and_eq_true, decide_eq_true_eq, ne_eq,
    ← UInt8.toNat_inj, UInt8.le_iff_toNat_le, UInt8.reduceToNat]
  omega

/-- A blank is plain, and no digit or dot. -/
theorem blank_plain (h : isBlank b = true) :
    IsPlain b ∧ isAsciiDigit b = false ∧ b ≠ dot := by
  simp only [isBlank, Bool.or_eq_true, beq_iff_eq] at h
  rcases h with ((rfl | rfl) | rfl) | rfl <;> decide

/-- **A keyword is written**: the output of a statement that has one begins with a letter. -/
theorem exists_head?_of_leadingKeyword (h : leadingKeyword sql ≠ []) :
    ∃ b, (normalizeFrom sql []).head? = some b ∧ b ≠ space := by
  fun_induction leadingKeyword sql with
  | case1 => exact absurd rfl h
  | case2 b rest hblank ih =>
    obtain ⟨hplain, hdigit, hdot⟩ := blank_plain hblank
    rw [normalizeFrom_plain hplain hdigit hdot, if_pos hblank]
    exact ih h
  | case3 b rest hblank hdash ih =>
    rw [normalizeFrom, if_neg (by rw [hdash.1]; decide), if_neg (by rw [hdash.1]; decide),
      if_neg (by rw [hdash.1]; decide), if_pos hdash]
    exact ih h
  | case4 b rest hblank hdash hslash hcloses ih =>
    rw [normalizeFrom, if_neg (by rw [hslash.1]; decide), if_neg (by rw [hslash.1]; decide),
      if_neg (by rw [hslash.1]; decide), if_neg hdash, if_pos hslash]
    exact ih h
  | case5 b rest hblank hdash hslash hcloses => exact absurd rfl h
  | case6 b rest hblank hdash hslash =>
    have hletter : isAsciiAlphabetic b = true := by
      by_contra hnot
      exact h (List.takeWhile_cons_of_neg hnot)
    obtain ⟨hplain, hdigit, hdot, hspace⟩ := alphabetic_plain hletter
    rw [normalizeFrom_plain hplain hdigit hdot, if_neg hblank]
    exact ⟨b, head?_normalizeFrom rfl, hspace⟩

/-! ## Digests -/

/-- The bytes that `normalize` makes a string of. -/
def output (sql : String) : List UInt8 :=
  (normalizeFrom sql.toUTF8.data.toList []).rdropWhile (· = space)

/-- Blanks at the end do not matter: the last byte of a garbled statement is none. -/
theorem isText_output (sql : String) :
    IsText (output sql) ↔ ¬Garbled sql.toUTF8.data.toList := by
  rcases outcome_normalizeFrom (isText_toUTF8 sql) .nil with ⟨hnot, htext⟩ | ⟨hgarbled, text, b,
    heq, htext, hhigh⟩
  · refine iff_of_true (htext.rdropWhile fun b hb => ?_) hnot
    rw [of_decide_eq_true hb]
    decide
  · refine iff_of_false ?_ (not_not_intro hgarbled)
    have hspace : ¬decide (b = space) = true := by
      rw [decide_eq_true_iff]
      rintro rfl
      exact absurd hhigh (by decide)
    rw [output, heq, List.rdropWhile_concat_neg (fun b => decide (b = space)) _ _ hspace]
    exact htext.not_concat hhigh

/-- A query with a keyword has an output. -/
theorem output_ne_nil {sql : String} (h : leadingKeyword sql.toUTF8.data.toList ≠ []) :
    output sql ≠ [] := by
  obtain ⟨b, hhead, hb⟩ := exists_head?_of_leadingKeyword h
  intro hnil
  have hspace := List.rdropWhile_eq_nil_iff.mp hnil b (List.mem_of_mem_head? hhead)
  exact hb (of_decide_eq_true hspace)

/-- The digest is made of the output: the string that stands for bytes that are no text is not
used. -/
def Faithful (sql : String) : Prop :=
  IsText (output sql) ∧ (normalize sql).toUTF8.data.toList = output sql

/-- An output that is text is what the caller gets. -/
theorem faithful_of_isText {sql : String} (h : IsText (output sql)) : Faithful sql := by
  obtain ⟨s, hs, hbytes⟩ := fromUTF8?_of_isText h
  have hnormalize : normalize sql = s := by
    show (String.fromUTF8? ⟨(output sql).toArray⟩).getD "" = s
    rw [hs]
    rfl
  exact ⟨h, by rw [hnormalize, hbytes]⟩

/-- A query with a keyword has a digest. -/
theorem Faithful.ne_empty {sql : String} (h : Faithful sql)
    (hkeyword : leadingKeyword sql.toUTF8.data.toList ≠ []) : normalize sql ≠ "" := by
  intro hempty
  have hbytes := h.2
  rw [hempty] at hbytes
  exact output_ne_nil hkeyword hbytes.symm

/-- **A digest is text unless the statement is garbled**, and then two statements with different
keywords are not both counted under the empty digest. -/
theorem normalize_text_iff (sql other : String) :
    (Faithful sql ∧ Faithful other ∧
      (leadingKeyword sql.toUTF8.data.toList ≠ leadingKeyword other.toUTF8.data.toList →
        ¬(normalize sql = "" ∧ normalize other = ""))) ↔
      ¬Garbled sql.toUTF8.data.toList ∧ ¬Garbled other.toUTF8.data.toList := by
  constructor
  · rintro ⟨h, hother, -⟩
    exact ⟨(isText_output sql).mp h.1, (isText_output other).mp hother.1⟩
  · rintro ⟨h, hother⟩
    have hfaithful := faithful_of_isText ((isText_output sql).mpr h)
    have hfaithful' := faithful_of_isText ((isText_output other).mpr hother)
    refine ⟨hfaithful, hfaithful', ?_⟩
    rintro hne ⟨hempty, hempty'⟩
    have hnil := not_imp_not.mp hfaithful.ne_empty hempty
    have hnil' := not_imp_not.mp hfaithful'.ne_empty hempty'
    exact hne (hnil.trans hnil'.symm)

/-- What is garbled has the empty digest. -/
theorem normalize_garbled {sql : String} (h : Garbled sql.toUTF8.data.toList) :
    normalize sql = "" := by
  have hnot : ¬IsText (output sql) := fun htext => (isText_output sql).mp htext h
  show (String.fromUTF8? ⟨(output sql).toArray⟩).getD "" = ""
  rw [fromUTF8?_eq_none hnot]
  rfl

/-- Two statements with different keywords and an open comment are counted as one. -/
theorem drop_and_call_one_digest :
    leadingKeyword "DROP/*é".toUTF8.data.toList ≠ leadingKeyword "CALL/*é".toUTF8.data.toList ∧
      ¬IsText (output "DROP/*é") ∧ ¬IsText (output "CALL/*é") ∧
      normalize "DROP/*é" = "" ∧ normalize "CALL/*é" = "" := by
  have hbytes : "DROP/*é".toUTF8.data.toList =
      [0x44, 0x52, 0x4F, 0x50, 0x2F, 0x2A, 0xC3, 0xA9] := by decide
  have hbytes' : "CALL/*é".toUTF8.data.toList =
      [0x43, 0x41, 0x4C, 0x4C, 0x2F, 0x2A, 0xC3, 0xA9] := by decide
  have hopen : opensComment [0x2F, 0x2A, 0xC3, 0xA9] = true := by
    rw [opensComment]
    decide
  have hdrop : Garbled "DROP/*é".toUTF8.data.toList := by
    rw [hbytes]
    refine ⟨?_, 0xA9, by decide, by decide⟩
    rw [opensComment_cons (by decide), opensComment_cons (by decide),
      opensComment_cons (by decide), opensComment_cons (by decide), hopen]
  have hcall : Garbled "CALL/*é".toUTF8.data.toList := by
    rw [hbytes']
    refine ⟨?_, 0xA9, by decide, by decide⟩
    rw [opensComment_cons (by decide), opensComment_cons (by decide),
      opensComment_cons (by decide), opensComment_cons (by decide), hopen]
  refine ⟨?_, fun h => (isText_output _).mp h hdrop, fun h => (isText_output _).mp h hcall,
    normalize_garbled hdrop, normalize_garbled hcall⟩
  have hword : leadingKeyword "DROP/*é".toUTF8.data.toList = [0x44, 0x52, 0x4F, 0x50] := by
    rw [hbytes, leadingKeyword]
    decide
  have hword' : leadingKeyword "CALL/*é".toUTF8.data.toList = [0x43, 0x41, 0x4C, 0x4C] := by
    rw [hbytes', leadingKeyword]
    decide
  rw [hword, hword']
  decide

end Ephpm.QueryStats
