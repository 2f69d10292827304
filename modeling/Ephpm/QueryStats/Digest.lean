import Mathlib.Data.List.DropRight
import Mathlib.Tactic.Common
import Ephpm.Lib.Quoted

/-!
# Query digests

The statistics of queries are kept per **digest**: the text of a query with every literal
replaced by a placeholder (`normalize`).  The digests are shown to operators and exported, so a
digest must say which query it was and nothing about the values in it.

`normalize` reads bytes.  A string literal is skipped to its closing quote, and a placeholder is
written; at a placeholder the normalizer looks back into **its own output**, to fold the list of
an `IN`.  So two queries are normalized alike if their outputs agree up to a literal and the
texts after it agree, and the first of these is an induction over the query.

A query is an instance of a **template**: text, identifiers and holes for literals.  Text has no
quote and no comment, or a literal could be read as part of it, and two holes do not touch, or a
quote that closes one and a quote that opens the next would be read as a doubled quote.
-/

namespace Ephpm.QueryStats

open Lib.Utf8

/-! ## Bytes -/

/-- A single quote. -/
def quote : UInt8 := 0x27

/-- A double quote. -/
def doubleQuote : UInt8 := 0x22

/-- A backtick. -/
def backtick : UInt8 := 0x60

/-- A backslash. -/
def backslash : UInt8 := 0x5C

/-- A dash. -/
def dash : UInt8 := 0x2D

/-- A slash. -/
def slash : UInt8 := 0x2F

/-- A star. -/
def star : UInt8 := 0x2A

/-- The end of a line. -/
def newline : UInt8 := 0x0A

/-- A blank. -/
def space : UInt8 := 0x20

/-- A dot. -/
def dot : UInt8 := 0x2E

/-- A comma. -/
def comma : UInt8 := 0x2C

/-- A question mark. -/
def question : UInt8 := 0x3F

/-- An opening parenthesis. -/
def parenthesis : UInt8 := 0x28

/-- The digit zero. -/
def zero : UInt8 := 0x30

/-- `is_ascii_digit`. -/
def isAsciiDigit (b : UInt8) : Bool := 0x30 ≤ b && b ≤ 0x39

/-- `is_ascii_alphabetic`. -/
def isAsciiAlphabetic (b : UInt8) : Bool := (0x41 ≤ b && b ≤ 0x5A) || (0x61 ≤ b && b ≤ 0x7A)

/-- `is_ascii_hexdigit`. -/
def isAsciiHexdigit (b : UInt8) : Bool :=
  isAsciiDigit b || (0x41 ≤ b && b ≤ 0x46) || (0x61 ≤ b && b ≤ 0x66)

/-- A byte of an identifier. -/
def isIdentifier (b : UInt8) : Bool := isAsciiDigit b || isAsciiAlphabetic b || b == 0x5F

/-- A byte that goes on with a number: a digit, a dot, `e` or `E`. -/
def isNumber (b : UInt8) : Bool := isAsciiDigit b || b == dot || b == 0x65 || b == 0x45

/-- The marker of a hexadecimal number, `x` or `X`. -/
def isHexMark (b : UInt8) : Bool := b == 0x78 || b == 0x58

/-- White space between the parts of a query. -/
def isBlank (b : UInt8) : Bool := b == space || b == 0x09 || b == newline || b == 0x0D

/-! ## The normalizer -/

/-- `skip_quoted`: what follows the closing quote of a literal.  A doubled quote and an escaped
byte belong to the literal. -/
def skipQuoted (q : UInt8) (rest : List UInt8) : List UInt8 :=
  (Lib.skipQuoted q (some backslash) rest).getD []

/-- An identifier in backticks with its closing backtick, and what follows it. -/
def spanBacktick : List UInt8 → List UInt8 × List UInt8
  | [] => ([], [])
  | b :: rest => if b = backtick then ([b], rest) else ((b :: (spanBacktick rest).1),
      (spanBacktick rest).2)

/-- What follows a block comment.  Of a comment that does not end, the last byte is left. -/
def skipBlock : List UInt8 → List UInt8
  | a :: b :: rest => if a = star ∧ b = slash then rest else skipBlock (b :: rest)
  | rest => rest

/-- What was written last belongs to an identifier. -/
def prevIsIdentifier (out : List UInt8) : Bool := out.getLast?.any isIdentifier

/-- `preceding_list_is_in`: whether the list that opens before the last placeholder is one of
`IN`.  The last bytes of the output are a parenthesis, the placeholder, a comma and a blank. -/
def precedingListIsIn (out : List UInt8) : Bool :=
  match out.reverse.drop 3 with
  | paren :: before =>
    if paren ≠ parenthesis then false
    else match before.dropWhile fun b => b = space || b = 0x09 with
      | n :: i :: rest =>
        if (i = 0x49 || i = 0x69) && (n = 0x4E || n = 0x6E) then !rest.head?.any isIdentifier
        else false
      | _ => false
  | [] => false

/-- `emit_placeholder`: in the list of an `IN` the second placeholder becomes dots, and the ones
after it are dropped. -/
def emitPlaceholder (out : List UInt8) : List UInt8 :=
  if [dot, dot, dot, comma, space] <:+ out then out.take (out.length - 2)
  else if [question, comma, space] <:+ out && precedingListIsIn out then
    out.take (out.length - 2) ++ [comma, space, dot, dot, dot]
  else out ++ [question]

/-- Blanks are collapsed, and none is written first. -/
def emitBlank (out : List UInt8) : List UInt8 :=
  if out ≠ [] ∧ out.getLast? ≠ some space then out ++ [space] else out

/-- Whether there is a next byte, of some kind. -/
def nextIs (p : UInt8 → Bool) (rest : List UInt8) : Bool := rest.head?.any p

/-- A literal is skipped behind a closing quote, or to the end. -/
theorem skipQuoted_cases (q : UInt8) (rest : List UInt8) :
    skipQuoted q rest = [] ∨ ∃ region, rest = region ++ q :: skipQuoted q rest := by
  rw [skipQuoted]
  cases h : Lib.skipQuoted q (some backslash) rest with
  | none => exact .inl rfl
  | some behind => exact .inr (Lib.skipQuoted_eq_some h)

/-- Skipping a string leaves a rest. -/
theorem skipQuoted_suffix (q : UInt8) (rest : List UInt8) : skipQuoted q rest <:+ rest := by
  rcases skipQuoted_cases q rest with hnil | ⟨region, hrest⟩
  · exact hnil ▸ List.nil_suffix
  · exact ⟨region ++ [q], by rw [List.append_assoc]; exact hrest.symm⟩

/-- Skipping an identifier leaves a rest. -/
theorem spanBacktick_length_le (rest : List UInt8) :
    (spanBacktick rest).2.length ≤ rest.length := by
  induction rest with
  | nil => exact le_rfl
  | cons b rest ih =>
    rw [spanBacktick]
    split
    · simp
    · exact ih.trans (by simp)

/-- Skipping a block leaves a rest. -/
theorem skipBlock_length_le (rest : List UInt8) : (skipBlock rest).length ≤ rest.length := by
  induction rest using skipBlock.induct with
  | case1 a b rest hend =>
    rw [skipBlock, if_pos hend]
    simp only [List.length_cons]
    omega
  | case2 a b rest hne ih =>
    rw [skipBlock, if_neg hne]
    exact ih.trans (by simp)
  | case3 rest hshort =>
    rw [skipBlock.eq_2 rest hshort]

/-- The loop of `normalize`: the bytes that are left, and the output so far. -/
def normalizeFrom (sql out : List UInt8) : List UInt8 :=
  match sql with
  | [] => out
  | b :: rest =>
    if b = quote then normalizeFrom (skipQuoted quote rest) (emitPlaceholder out)
    else if b = doubleQuote then normalizeFrom (skipQuoted doubleQuote rest) (emitPlaceholder out)
    else if b = backtick then
      normalizeFrom (spanBacktick rest).2 (out ++ b :: (spanBacktick rest).1)
    else if b = dash ∧ nextIs (· == dash) rest then
      normalizeFrom (rest.tail.dropWhile (· ≠ newline)) out
    else if b = slash ∧ nextIs (· == star) rest then normalizeFrom (skipBlock rest.tail) out
    else if b = zero ∧ nextIs isHexMark rest ∧ prevIsIdentifier out = false then
      normalizeFrom (rest.tail.dropWhile isAsciiHexdigit) (emitPlaceholder out)
    else if isAsciiDigit b ∧ prevIsIdentifier out = false then
      normalizeFrom (rest.dropWhile isNumber) (emitPlaceholder out)
    else if b = dot ∧ nextIs isAsciiDigit rest ∧ prevIsIdentifier out = false then
      normalizeFrom (rest.dropWhile isNumber) (emitPlaceholder out)
    else if isBlank b then normalizeFrom rest (emitBlank out)
    else normalizeFrom rest (out ++ [b])
termination_by sql.length
decreasing_by
  · exact Nat.lt_succ_of_le (skipQuoted_suffix _ _).length_le
  · exact Nat.lt_succ_of_le (skipQuoted_suffix _ _).length_le
  · exact Nat.lt_succ_of_le (spanBacktick_length_le _)
  · exact Nat.lt_succ_of_le (((List.dropWhile_sublist _).length_le).trans (by simp))
  · exact Nat.lt_succ_of_le ((skipBlock_length_le _).trans (by simp))
  · exact Nat.lt_succ_of_le (((List.dropWhile_sublist _).length_le).trans (by simp))
  · exact Nat.lt_succ_of_le ((List.dropWhile_sublist _).length_le)
  · exact Nat.lt_succ_of_le ((List.dropWhile_sublist _).length_le)
  · exact Nat.lt_succ_self _
  · exact Nat.lt_succ_self _

/-- `normalize`: the text of a query without its literals. -/
def normalize (sql : String) : String :=
  let out := (normalizeFrom sql.toUTF8.data.toList []).rdropWhile (· = space)
  (String.fromUTF8? ⟨out.toArray⟩).getD ""

/-! ## Templates -/

/-- A part of a template: text, an identifier in backticks, or a hole for a literal. -/
inductive Piece (α : Type) where
  | text (c : α)
  | identifier (name : List α)
  | hole
deriving DecidableEq

/-- The character of an ASCII byte. -/
def char (b : UInt8) : Char := Char.ofNat b.toNat

/-- A template whose text has no quotes and no comments, and whose holes do not touch. -/
def WellFormed : List (Piece Char) → Prop
  | [] => True
  | .text c :: rest =>
    c ≠ char quote ∧ c ≠ char doubleQuote ∧ c ≠ char backtick ∧
      (c = char dash → rest.head? ≠ some (.text (char dash))) ∧
      (c = char slash → rest.head? ≠ some (.text (char star))) ∧ WellFormed rest
  | .identifier name :: rest => char backtick ∉ name ∧ WellFormed rest
  | .hole :: rest => rest.head? ≠ some .hole ∧ WellFormed rest

instance decidableWellFormed : ∀ t, Decidable (WellFormed t)
  | [] => isTrue trivial
  | .text c :: rest =>
    have := decidableWellFormed rest
    decidable_of_iff (c ≠ char quote ∧ c ≠ char doubleQuote ∧ c ≠ char backtick ∧
      (c = char dash → rest.head? ≠ some (.text (char dash))) ∧
      (c = char slash → rest.head? ≠ some (.text (char star))) ∧ WellFormed rest) Iff.rfl
  | .identifier name :: rest =>
    have := decidableWellFormed rest
    decidable_of_iff (char backtick ∉ name ∧ WellFormed rest) Iff.rfl
  | .hole :: rest =>
    have := decidableWellFormed rest
    decidable_of_iff (rest.head? ≠ some .hole ∧ WellFormed rest) Iff.rfl

/-- What MySQL reads for an escaped character. -/
def unescape (c : Char) : Char :=
  if c = 'n' then Char.ofNat 0x0A
  else if c = 't' then Char.ofNat 0x09
  else if c = 'r' then Char.ofNat 0x0D
  else if c = 'b' then Char.ofNat 0x08
  else if c = '0' then Char.ofNat 0
  else if c = 'Z' then Char.ofNat 0x1A
  else c

/-- `Written q s w`: between quotes `q` the text `w` is a way to write the string `s`.  A quote is
doubled or escaped, a backslash is escaped, and any other character may be. -/
inductive Written (q : Char) : List Char → List Char → Prop
  | nil : Written q [] []
  | plain {c : Char} {s w : List Char} (hquote : c ≠ q) (hback : c ≠ char backslash) :
      Written q s w → Written q (c :: s) (c :: w)
  | doubled {s w : List Char} : Written q s w → Written q (q :: s) (q :: q :: w)
  | escaped {c : Char} {s w : List Char} :
      Written q s w → Written q (unescape c :: s) (char backslash :: c :: w)

/-- `Instance t strings sql`: the text `sql` is the template with its holes filled by strings, each
written between quotes of either kind. -/
inductive Instance : List (Piece Char) → List (List Char) → List Char → Prop
  | nil : Instance [] [] []
  | text {c : Char} {t : List (Piece Char)} {strings : List (List Char)} {sql : List Char} :
      Instance t strings sql → Instance (.text c :: t) strings (c :: sql)
  | identifier {name : List Char} {t : List (Piece Char)} {strings : List (List Char)}
      {sql : List Char} : Instance t strings sql →
      Instance (.identifier name :: t) strings
        (char backtick :: (name ++ char backtick :: sql))
  | hole {q : Char} {s w : List Char} {t : List (Piece Char)} {strings : List (List Char)}
      {sql : List Char} (hq : q = char quote ∨ q = char doubleQuote) (hw : Written q s w) :
      Instance t strings sql → Instance (.hole :: t) (s :: strings) (q :: (w ++ q :: sql))

/-! ## Templates of bytes -/

/-- The bytes of a literal between its quotes. -/
inductive Body (q : UInt8) : List UInt8 → Prop
  | nil : Body q []
  | plain {b : UInt8} {w : List UInt8} (hquote : b ≠ q) (hback : b ≠ backslash) :
      Body q w → Body q (b :: w)
  | doubled {w : List UInt8} : Body q w → Body q (q :: q :: w)
  | escaped {b : UInt8} {w : List UInt8} : Body q w → Body q (backslash :: b :: w)

/-- The bytes of an instance. -/
inductive Filled : List (Piece UInt8) → List UInt8 → Prop
  | nil : Filled [] []
  | text {b : UInt8} {t : List (Piece UInt8)} {sql : List UInt8} :
      Filled t sql → Filled (.text b :: t) (b :: sql)
  | identifier {name : List UInt8} {t : List (Piece UInt8)} {sql : List UInt8} :
      Filled t sql → Filled (.identifier name :: t) (backtick :: (name ++ backtick :: sql))
  | hole {q : UInt8} {w : List UInt8} {t : List (Piece UInt8)} {sql : List UInt8}
      (hq : q = quote ∨ q = doubleQuote) (hw : Body q w) :
      Filled t sql → Filled (.hole :: t) (q :: (w ++ q :: sql))

/-- `WellFormed`, for bytes. -/
def Plain : List (Piece UInt8) → Prop
  | [] => True
  | .text b :: rest =>
    b ≠ quote ∧ b ≠ doubleQuote ∧ b ≠ backtick ∧
      (b = dash → rest.head? ≠ some (.text dash)) ∧
      (b = slash → rest.head? ≠ some (.text star)) ∧ Plain rest
  | .identifier name :: rest => backtick ∉ name ∧ Plain rest
  | .hole :: rest => rest.head? ≠ some .hole ∧ Plain rest

/-- The template of the bytes. -/
def toBytes (t : List (Piece Char)) : List (Piece UInt8) :=
  t.flatMap fun
    | .text c => (String.utf8EncodeChar c).map .text
    | .identifier name => [.identifier (bytes name)]
    | .hole => [.hole]

/-! ## Literals are skipped -/

section Skip

variable {t : List (Piece UInt8)} {sql : List UInt8}

/-- What follows a hole does not begin with a quote. -/
theorem Filled.head_ne (filled : Filled t sql) (plain : Plain t) (hhole : t.head? ≠ some .hole)
    {q : UInt8} (hq : q = quote ∨ q = doubleQuote) : sql.head? ≠ some q := by
  cases filled with
  | nil => simp
  | text _ =>
    obtain ⟨hquote, hdouble, -⟩ := plain
    rcases hq with rfl | rfl
    · simpa using hquote
    · simpa using hdouble
  | identifier _ =>
    show some backtick ≠ some q
    rcases hq with rfl | rfl <;> decide
  | hole _ _ _ => exact absurd rfl hhole

/-- **A literal is skipped to its end.** -/
theorem skipQuoted_body {q : UInt8} (hback : q ≠ backslash) {w : List UInt8} (body : Body q w)
    (hnext : sql.head? ≠ some q) : skipQuoted q (w ++ q :: sql) = sql := by
  have hescape : some backslash ≠ some q := fun h => hback (Option.some.inj h).symm
  suffices h : Lib.skipQuoted q (some backslash) (w ++ q :: sql) = some sql by
    rw [skipQuoted, h, Option.getD_some]
  induction body with
  | nil => exact Lib.skipQuoted_close hescape hnext
  | plain hquote hb _ ih =>
    exact (Lib.skipQuoted_cons_of_ne (fun h => hb (Option.some.inj h).symm) hquote _).trans ih
  | doubled _ ih => exact (Lib.skipQuoted_double hescape _).trans ih
  | escaped _ ih => exact (Lib.skipQuoted_escape rfl _ _).trans ih

/-- An identifier ends with the next backtick. -/
theorem spanBacktick_append {name : List UInt8} (h : backtick ∉ name) :
    spanBacktick (name ++ backtick :: sql) = (name ++ [backtick], sql) := by
  induction name with
  | nil => simp [spanBacktick]
  | cons b name ih =>
    rw [List.mem_cons, not_or] at h
    rw [List.cons_append, spanBacktick, if_neg (Ne.symm h.1), ih h.2]
    rfl

/-! ## What a step reads -/

/-- The next byte of a template, of some kind. -/
def nextText (p : UInt8 → Bool) (t : List (Piece UInt8)) : Bool :=
  match t with
  | .text b :: _ => p b
  | .identifier _ :: _ => p backtick
  | _ => false

/-- A look at the next byte does not tell one literal from another. -/
theorem Filled.nextIs (filled : Filled t sql) {p : UInt8 → Bool} (hquote : p quote = false)
    (hdouble : p doubleQuote = false) : QueryStats.nextIs p sql = nextText p t := by
  cases filled with
  | nil => rfl
  | text _ => rfl
  | identifier _ => rfl
  | hole hq _ _ =>
    rcases hq with rfl | rfl
    · exact hquote
    · exact hdouble

/-- Skipping text leaves instances of one template. -/
def dropText (p : UInt8 → Bool) (t : List (Piece UInt8)) : List (Piece UInt8) :=
  t.dropWhile fun
    | .text b => p b
    | _ => false

theorem dropText_length_le (p : UInt8 → Bool) (t : List (Piece UInt8)) :
    (dropText p t).length ≤ t.length := (List.dropWhile_sublist _).length_le

/-- What is skipped in a query is skipped in its template. -/
theorem Filled.dropWhile (filled : Filled t sql) {p : UInt8 → Bool} (hquote : p quote = false)
    (hdouble : p doubleQuote = false) (hback : p backtick = false) :
    Filled (dropText p t) (sql.dropWhile p) := by
  induction filled with
  | nil => exact .nil
  | @text b t sql filled ih =>
    cases hp : p b with
    | true => simpa [dropText, hp] using ih
    | false => simpa [dropText, hp] using filled.text
  | identifier filled _ => simpa [dropText, hback] using filled.identifier
  | @hole q w t sql hq hw filled _ =>
    have hnot : p q = false := by
      rcases hq with rfl | rfl
      · exact hquote
      · exact hdouble
    simpa [dropText, hnot] using Filled.hole hq hw filled

/-- The rest of a plain template is plain. -/
theorem Plain.tail {piece : Piece UInt8} (plain : Plain (piece :: t)) : Plain t := by
  cases piece with
  | text b => exact plain.2.2.2.2.2
  | identifier name => exact plain.2
  | hole => exact plain.2

/-- What is left of a plain template is plain. -/
theorem Plain.dropText (plain : Plain t) (p : UInt8 → Bool) : Plain (dropText p t) := by
  induction t with
  | nil => exact plain
  | cons piece t ih =>
    unfold QueryStats.dropText
    rw [List.dropWhile_cons]
    split_ifs
    · exact ih plain.tail
    · exact plain

/-- Where the next byte is of a kind that no quote and no backtick is, it is text. -/
theorem exists_text_of_nextText {p : UInt8 → Bool} (hback : p backtick = false)
    (h : nextText p t = true) :
    ∃ b rest, t = .text b :: rest ∧ p b = true ∧
      ∀ {sql}, Filled t sql → Filled rest sql.tail := by
  match t, h with
  | .text b :: rest, h =>
    refine ⟨b, rest, rfl, h, fun filled => ?_⟩
    cases filled with
    | text filled => exact filled
  | .identifier name :: rest, h => exact absurd (hback.symm.trans h) (by decide)

/-! ## Two instances -/

/-- A string becomes a placeholder. -/
theorem normalizeFrom_quoted {q : UInt8} (hq : q = quote ∨ q = doubleQuote) {w : List UInt8}
    (hw : Body q w) (hnext : sql.head? ≠ some q) (out : List UInt8) :
    normalizeFrom (q :: (w ++ q :: sql)) out = normalizeFrom sql (emitPlaceholder out) := by
  rcases hq with rfl | rfl
  · rw [normalizeFrom, if_pos rfl, skipQuoted_body (by decide) hw hnext]
  · rw [normalizeFrom, if_neg (by decide), if_pos rfl, skipQuoted_body (by decide) hw hnext]

/-- An identifier is copied. -/
theorem normalizeFrom_identifier {name : List UInt8} (h : backtick ∉ name) (out : List UInt8) :
    normalizeFrom (backtick :: (name ++ backtick :: sql)) out =
      normalizeFrom sql (out ++ backtick :: (name ++ [backtick])) := by
  rw [normalizeFrom, if_neg (by decide), if_neg (by decide), if_pos rfl, spanBacktick_append h]

/-- **Two instances of a template are normalized alike**, from any output. -/
theorem normalizeFrom_congr {t : List (Piece UInt8)} (plain : Plain t) {first second : List UInt8}
    (hfirst : Filled t first) (hsecond : Filled t second) (out : List UInt8) :
    normalizeFrom first out = normalizeFrom second out := by
  -- a number takes several pieces at once, so the induction is on the length of the template
  induction hlength : t.length using Nat.strong_induction_on generalizing t first second out with
  | _ n ih =>
    subst hlength
    cases hfirst with
    | nil =>
      cases hsecond
      rfl
    | @text b t first hfirst =>
      cases hsecond with
      | @text _ _ second hsecond =>
        have hrest := plain.tail
        obtain ⟨hquote, hdouble, hback, hdash, hslash, -⟩ := plain
        have hnext : ∀ p : UInt8 → Bool, p quote = false → p doubleQuote = false →
            nextIs p first = nextText p t ∧ nextIs p second = nextText p t :=
          fun p hq hd => ⟨hfirst.nextIs hq hd, hsecond.nextIs hq hd⟩
        have hdrop : ∀ (p : UInt8 → Bool) out, p quote = false → p doubleQuote = false →
            p backtick = false → normalizeFrom (first.dropWhile p) out =
              normalizeFrom (second.dropWhile p) out := fun p out hq hd hb =>
          ih _ (Nat.lt_succ_of_le (dropText_length_le p t)) (hrest.dropText p)
            (hfirst.dropWhile hq hd hb) (hsecond.dropWhile hq hd hb) out rfl
        have hcomment : ∀ d : UInt8, d ≠ backtick → t.head? ≠ some (.text d) →
            nextText (· == d) t = false := by
          intro d hd hhead
          by_contra htext
          rw [Bool.not_eq_false] at htext
          obtain ⟨c, rest, rfl, hc, -⟩ :=
            exists_text_of_nextText (by simpa using Ne.symm hd) htext
          rw [beq_iff_eq.mp hc] at hhead
          exact hhead rfl
        rw [normalizeFrom, normalizeFrom]
        simp only [if_neg hquote, if_neg hdouble, if_neg hback,
          hnext (· == dash) (by decide) (by decide),
          hnext (· == star) (by decide) (by decide),
          hnext isHexMark (by decide) (by decide),
          hnext isAsciiDigit (by decide) (by decide)]
        split_ifs with h1 h2 h3 h4 h5 h6
        · exact absurd h1.2 (by simp [hcomment dash (by decide) (hdash h1.1)])
        · exact absurd h2.2 (by simp [hcomment star (by decide) (hslash h2.1)])
        · -- the mark of a hexadecimal number is text, and the digits after it are skipped
          obtain ⟨c, rest, rfl, -, htail⟩ := exists_text_of_nextText (by decide) h3.2.1
          refine ih _ ?_ (hrest.tail.dropText isAsciiHexdigit)
            ((htail hfirst).dropWhile (by decide) (by decide) (by decide))
            ((htail hsecond).dropWhile (by decide) (by decide) (by decide)) _ rfl
          have hle := dropText_length_le isAsciiHexdigit rest
          simp only [List.length_cons]
          omega
        · exact hdrop isNumber _ (by decide) (by decide) (by decide)
        · exact hdrop isNumber _ (by decide) (by decide) (by decide)
        · exact ih _ (Nat.lt_succ_self _) hrest hfirst hsecond _ rfl
        · exact ih _ (Nat.lt_succ_self _) hrest hfirst hsecond _ rfl
    | @identifier name t first hfirst =>
      cases hsecond with
      | @identifier _ _ second hsecond =>
        rw [normalizeFrom_identifier plain.1, normalizeFrom_identifier plain.1]
        exact ih _ (Nat.lt_succ_self _) plain.2 hfirst hsecond _ rfl
    | @hole q w t first hq hw hfirst =>
      cases hsecond with
      | @hole q' w' _ second hq' hw' hsecond =>
        rw [normalizeFrom_quoted hq hw (hfirst.head_ne plain.2 plain.1 hq),
          normalizeFrom_quoted hq' hw' (hsecond.head_ne plain.2 plain.1 hq')]
        exact ih _ (Nat.lt_succ_self _) plain.2 hfirst hsecond _ rfl

end Skip

/-! ## From characters to bytes -/

section Encode

variable {t : List (Piece Char)}

/-- A byte of a character that is not the one of an ASCII byte. -/
theorem ne_of_mem_encode {k b : UInt8} (hk : k.toNat < 128) {c : Char} (hc : c ≠ char k)
    (hb : b ∈ String.utf8EncodeChar c) : b ≠ k := by
  rintro rfl
  exact hc ((mem_encode_iff hk).mp hb)

/-- Plain bytes in front of the body of a string. -/
theorem Body.append_plain {q : UInt8} {w : List UInt8} (body : Body q w) {bs : List UInt8}
    (hbs : ∀ b ∈ bs, b ≠ q ∧ b ≠ backslash) : Body q (bs ++ w) := by
  induction bs with
  | nil => exact body
  | cons b bs ih =>
    obtain ⟨hquote, hback⟩ := hbs b List.mem_cons_self
    exact .plain hquote hback (ih fun b' hb' => hbs b' (List.mem_cons_of_mem _ hb'))

/-- A string as it is written is the body of one. -/
theorem Written.body {q : UInt8} (hq : q = quote ∨ q = doubleQuote) {s w : List Char}
    (written : Written (char q) s w) : Body q (bytes w) := by
  have hascii : q.toNat < 128 := by rcases hq with rfl | rfl <;> decide
  have hself : String.utf8EncodeChar (char q) = [q] := encode_ofNat hascii
  have hback : String.utf8EncodeChar (char backslash) = [backslash] := encode_ofNat (by decide)
  induction written with
  | nil => exact .nil
  | plain hquote hplain _ ih =>
    refine ih.append_plain fun b hb => ⟨ne_of_mem_encode hascii hquote hb, ?_⟩
    exact ne_of_mem_encode (by decide) hplain hb
  | doubled _ ih =>
    rw [bytes_cons, bytes_cons, hself]
    exact .doubled ih
  | @escaped c s w _ ih =>
    rw [bytes_cons, bytes_cons, hback]
    by_cases hc : c.toNat < 128
    · rw [encode_ascii hc]
      exact .escaped ih
    · -- of a character of several bytes the first one is escaped
      have hhigh := encode_high (not_lt.mp hc)
      obtain ⟨b, bs, hbs⟩ := List.exists_cons_of_ne_nil (String.utf8EncodeChar_ne_nil (c := c))
      rw [hbs] at hhigh ⊢
      refine .escaped (ih.append_plain fun b' hb' => ?_)
      have hlarge := hhigh b' (List.mem_cons_of_mem _ hb')
      constructor
      · rintro rfl
        omega
      · rintro rfl
        exact absurd hlarge (by decide)

/-- Text in front of a template. -/
theorem Filled.append_text {t : List (Piece UInt8)} {sql : List UInt8} (filled : Filled t sql)
    (bs : List UInt8) : Filled (bs.map .text ++ t) (bs ++ sql) := by
  induction bs with
  | nil => exact filled
  | cons b bs ih => exact ih.text

/-- An instance of a template fills it, byte by byte. -/
theorem Instance.filled {strings : List (List Char)} {sql : List Char}
    (inst : Instance t strings sql) : Filled (toBytes t) (bytes sql) := by
  have hback : String.utf8EncodeChar (char backtick) = [backtick] := encode_ofNat (by decide)
  induction inst with
  | nil => exact .nil
  | text _ ih => exact ih.append_text _
  | identifier _ ih =>
    simp only [bytes_cons, bytes_append, hback]
    exact ih.identifier
  | @hole q s w t strings sql hq hw _ ih =>
    obtain ⟨b, hb, rfl⟩ : ∃ b, (b = quote ∨ b = doubleQuote) ∧ q = char b := by
      rcases hq with rfl | rfl
      · exact ⟨quote, Or.inl rfl, rfl⟩
      · exact ⟨doubleQuote, Or.inr rfl, rfl⟩
    have hascii : b.toNat < 128 := by rcases hb with rfl | rfl <;> decide
    have hself : String.utf8EncodeChar (char b) = [b] := encode_ofNat hascii
    simp only [bytes_cons, bytes_append, hself]
    exact .hole hb (hw.body hb) ih

/-- The first piece of the bytes of a template. -/
theorem head_toBytes {k : UInt8} (hk : k.toNat < 128) (h : t.head? ≠ some (.text (char k))) :
    (toBytes t).head? ≠ some (.text k) := by
  cases t with
  | nil => simp [toBytes]
  | cons piece t =>
    cases piece with
    | text c =>
      have hc : c ≠ char k := by simpa using h
      obtain ⟨b, bs, hbs⟩ := List.exists_cons_of_ne_nil (String.utf8EncodeChar_ne_nil (c := c))
      have hne := ne_of_mem_encode hk hc (hbs ▸ List.mem_cons_self)
      simpa [toBytes, hbs] using hne
    | identifier name => simp [toBytes]
    | hole => simp [toBytes]

/-- A template that begins with a text does so in bytes. -/
theorem head_toBytes_hole (h : t.head? ≠ some .hole) : (toBytes t).head? ≠ some .hole := by
  cases t with
  | nil => simp [toBytes]
  | cons piece t =>
    cases piece with
    | text c =>
      obtain ⟨b, bs, hbs⟩ := List.exists_cons_of_ne_nil (String.utf8EncodeChar_ne_nil (c := c))
      simp [toBytes, hbs]
    | identifier name => simp [toBytes]
    | hole => exact absurd rfl h

/-- Bytes above ASCII are plain. -/
theorem plain_text_high {bs : List UInt8} (hhigh : ∀ b ∈ bs, 128 ≤ b.toNat)
    {t : List (Piece UInt8)} (plain : Plain t) : Plain (bs.map .text ++ t) := by
  induction bs with
  | nil => exact plain
  | cons b bs ih =>
    have hb := hhigh b List.mem_cons_self
    have hne : ∀ k : UInt8, k.toNat < 128 → b ≠ k := by
      rintro k hk rfl
      omega
    exact ⟨hne _ (by decide), hne _ (by decide), hne _ (by decide),
      fun h => absurd h (hne _ (by decide)), fun h => absurd h (hne _ (by decide)),
      ih fun b' hb' => hhigh b' (List.mem_cons_of_mem _ hb')⟩

/-- A template that is well formed is plain. -/
theorem WellFormed.plain (wf : WellFormed t) : Plain (toBytes t) := by
  induction t with
  | nil => trivial
  | cons piece t ih =>
    cases piece with
    | text c =>
      obtain ⟨hquote, hdouble, hback, hdash, hslash, hrest⟩ := wf
      by_cases hc : c.toNat < 128
      · have hencode := encode_ascii hc
        have hmem : UInt8.ofNat c.toNat ∈ String.utf8EncodeChar c := by
          rw [hencode]
          exact List.mem_singleton_self _
        have hchar : ∀ k : UInt8, k.toNat < 128 → UInt8.ofNat c.toNat = k → c = char k := by
          rintro k hk rfl
          exact (mem_encode_iff hk).mp hmem
        show Plain ((String.utf8EncodeChar c).map Piece.text ++ toBytes t)
        rw [hencode]
        exact ⟨ne_of_mem_encode (by decide) hquote hmem,
          ne_of_mem_encode (by decide) hdouble hmem, ne_of_mem_encode (by decide) hback hmem,
          fun h => head_toBytes (by decide) (hdash (hchar _ (by decide) h)),
          fun h => head_toBytes (by decide) (hslash (hchar _ (by decide) h)), ih hrest⟩
      · exact plain_text_high (encode_high (not_lt.mp hc)) (ih hrest)
    | identifier name =>
      obtain ⟨hname, hrest⟩ := wf
      refine ⟨fun hmem => ?_, ih hrest⟩
      obtain ⟨c, hc, hb⟩ := List.mem_flatMap.mp hmem
      rw [(mem_encode_iff (by decide)).mp hb] at hc
      exact hname hc
    | hole =>
      obtain ⟨hhead, hrest⟩ := wf
      exact ⟨head_toBytes_hole hhead, ih hrest⟩

end Encode

/-- **A digest carries no string data**: two queries of one template have one normalized text,
whatever strings are in them and however these are written. -/
theorem normalize_of_template {t : List (Piece Char)} (wf : WellFormed t)
    {strings strings' : List (List Char)} {sql sql' : List Char} (inst : Instance t strings sql)
    (inst' : Instance t strings' sql') :
    normalize (String.ofList sql) = normalize (String.ofList sql') := by
  unfold normalize
  rw [toUTF8_ofList, toUTF8_ofList, normalizeFrom_congr wf.plain inst.filled inst'.filled]

/-- A template with a string and a quote in it. -/
theorem normalize_of_template_quote :
    normalize "x='a' y" = normalize (String.ofList
      ['x', '=', char doubleQuote, char doubleQuote, char doubleQuote, char doubleQuote, ' ',
        'y']) := by
  have wf : WellFormed [.text 'x', .text '=', .hole, .text ' ', .text 'y'] := by decide
  exact normalize_of_template wf
    (.text (.text (.hole (Or.inl rfl) (.plain (by decide) (by decide) .nil)
      (.text (.text .nil)))))
    (.text (.text (.hole (Or.inr rfl) (.doubled .nil) (.text (.text .nil)))))

end Ephpm.QueryStats
