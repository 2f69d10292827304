import Ephpm.Lib.Text
import Ephpm.Lib.Lexer

/-!
# Vetting a snapshot

A replica fills its database from a dump that another node sends.  The dump is a text of SQL
statements, and before it is run it is vetted: it is cut into statements, and each one has to start
with `CREATE` or `INSERT`.  **The engine cuts the text for itself** when it runs it, so the vetting
is worth something only as far as the two cut alike.

They do not.  The scan knows `'...'` and `"..."` and both kinds of comments (`vettingRules`).  The
engine also reads names in backticks and in brackets (`sqliteRules`), in which a quote is a letter
like any other.  Behind such a name the scan may be inside a literal where the engine is not, and a
statement that the scan does not see is run all the same (`drop_table_vetted`).  Where no such name
holds a quote, a semicolon or the start of a comment, both agree (`vetting_of_plain_names`).

The scan looks at bytes.  All the bytes that it looks for are ASCII, so it is modelled on
characters.
-/

namespace Ephpm.Server

open Lib Lib.Lexer

/-! ## The scan -/

/-- A region that ends at its quote, which is doubled to stand for itself. -/
def quoted (q : Char) : Region := ⟨q, true, none⟩

/-- A comment that ends with the line. -/
def dashes (s : Text) : Bool := ['-', '-'].isPrefixOf s

/-- What `for_each_statement` knows. -/
def vettingRules : Rules where
  region c := if c = quote ∨ c = doubleQuote then some (quoted c) else none
  lineComment := dashes
  openEnd := false

/-- The error of a scan that does not come to an end. -/
def unterminatedMessage : Unterminated → String
  | .region => "unterminated quoted literal in dump"
  | .comment => "unterminated block comment in dump"

/-- `for_each_statement`: the statements that are visited, and the error that ends the scan. -/
def forEachStatement (dump : Text) : List Text × Option String :=
  let split := vettingRules.split dump
  match split.rest with
  | .inl last => (split.ended ++ [last], none)
  | .inr what => (split.ended, some (unterminatedMessage what))

/-- `strip_leading_noise`. -/
def stripLeadingNoise (stmt : Text) : Text := strip isWhite dashes stmt

/-- `ALLOWED_STATEMENT_PREFIXES`. -/
def allowedStatementPrefixes : List Text := ["CREATE".toList, "INSERT".toList]

/-- `truncate_for_log`. -/
def truncateForLog (s : Text) : Text :=
  if s.length ≤ 120 then s else s.take 120 ++ [Char.ofNat 0x2026]

/-- The run of ASCII letters at the beginning, in upper case. -/
def leadingLetters (s : Text) : Text := upper (s.takeWhile Char.isAlpha)

/-- `check_statement_allowed`. -/
def checkStatementAllowed (stmt : Text) : Except Text Unit :=
  let trimmed := stripLeadingNoise stmt
  if trimmed.isEmpty then .ok ()
  else if leadingLetters trimmed ∈ allowedStatementPrefixes then .ok ()
  else .error ("disallowed statement in snapshot dump (only CREATE and INSERT are accepted): ".toList ++
    truncateForLog trimmed)

/-- `validate_snapshot_dump`: the first statement that is not allowed is the error, else what ends
the scan. -/
def validateSnapshotDump (dump : Text) : Except Text Unit := do
  (forEachStatement dump).1.forM checkStatementAllowed
  match (forEachStatement dump).2 with
  | some e => .error e.toList
  | none => .ok ()

/-- `split_ascii_whitespace`. -/
def asciiWords (s : Text) : List Text := (s.splitOnP isAsciiWhite).filter fun word => !word.isEmpty

/-- The statement declares a table. -/
def declaresTable (stmt : Text) : Bool :=
  match asciiWords (stripLeadingNoise stmt) with
  | first :: second :: _ => eqIgnoreCase first "CREATE".toList && eqIgnoreCase second "TABLE".toList
  | _ => false

/-- `snapshot_declares_a_table`: some statement that is visited does. -/
def snapshotDeclaresATable (dump : Text) : Bool := (forEachStatement dump).1.any declaresTable

/-! ## The engine -/

/-- What the lexer of SQLite knows.  A name in brackets has no escape.  What does not end reaches to
the end of the text. -/
def sqliteRules : Rules where
  region c :=
    if c = quote ∨ c = doubleQuote ∨ c = backtick then some (quoted c)
    else if c = '[' then some ⟨']', false, none⟩ else none
  lineComment := dashes
  openEnd := true

/-- The statements of a text as SQLite reads them. -/
def sqliteStatements (s : Text) : List Text :=
  let split := sqliteRules.split s
  split.ended ++ (match split.rest with | .inl last => [last] | .inr _ => [])

/-- What may stand in a word. -/
def isIdChar (c : Char) : Bool := c.isAlphanum || c == '_' || c == '$' || decide (128 ≤ c.toNat)

/-- **The keyword that a statement starts with**, as SQLite reads it.  A word that has anything but
letters in it is no keyword, and what starts with no keyword is not run. -/
def sqliteKeyword (stmt : Text) : Option Text :=
  let word := (strip isAsciiWhite dashes stmt).takeWhile isIdChar
  if !word.isEmpty && word.all Char.isAlpha then some (upper word) else none

/-! ## The two readings -/

/-- The scan ends statements where SQLite does. -/
def EndsAlike (dump : Text) : Prop :=
  (vettingRules.split dump).ended = (sqliteRules.split dump).ended

/-- A dump that passes holds nothing but the two kinds of statements. -/
def OnlyAllowed (dump : Text) : Prop :=
  validateSnapshotDump dump = .ok () →
    ∀ stmt ∈ sqliteStatements dump, ∀ keyword ∈ sqliteKeyword stmt,
      keyword ∈ allowedStatementPrefixes

/-- A name holds nothing that means something to the scan. -/
def Plain (name : Text) : Prop :=
  quote ∉ name ∧ doubleQuote ∉ name ∧ ';' ∉ name ∧ ¬ ['-', '-'] <:+: name ∧ ¬ ['/', '*'] <:+: name

/-- A name in backticks or in brackets. -/
def IsForeignName (token : Text) : Prop := token.head? = some backtick ∨ token.head? = some '['

/-- **No name in backticks or brackets holds a quote, a semicolon or the start of a comment.** -/
def PlainNames (dump : Text) : Prop := ∀ token ∈ sqliteRules.tokens dump, IsForeignName token → Plain token

instance (dump : Text) : Decidable (EndsAlike dump) := inferInstanceAs (Decidable (_ = _))

instance (name : Text) : Decidable (Plain name) :=
  inferInstanceAs (Decidable (_ ∧ _ ∧ _ ∧ _ ∧ _))

instance (token : Text) : Decidable (IsForeignName token) := inferInstanceAs (Decidable (_ ∨ _))

instance (dump : Text) : Decidable (PlainNames dump) :=
  inferInstanceAs (Decidable (∀ token ∈ _, _ → _))

theorem turn_plain {c : Char} {s : Text} (hquote : c ≠ quote) (hdouble : c ≠ doubleQuote)
    (hstop : c ≠ ';') (hdash : ¬ ['-', '-'] <+: c :: s) (hslash : ¬ ['/', '*'] <+: c :: s) :
    vettingRules.turn c s = .skip s := by
  have hregion : vettingRules.region c = none := if_neg (not_or.mpr ⟨hquote, hdouble⟩)
  have hline : vettingRules.lineComment (c :: s) = false := by
    rw [Bool.eq_false_iff]
    exact fun h => hdash (List.isPrefixOf_iff_prefix.mp h)
  have hblock : ¬ (c = '/' ∧ s.head? = some '*') := by
    rintro ⟨rfl, hs⟩
    obtain ⟨s', rfl⟩ : ∃ s', s = '*' :: s' := by
      cases s with
      | nil => cases hs
      | cons d s' => exact ⟨s', by rw [Option.some.inj hs]⟩
    exact hslash ⟨s', rfl⟩
  unfold Rules.turn
  rw [hregion]
  dsimp only
  rw [hline, if_neg Bool.false_ne_true, if_neg hblock, if_neg hstop]

/-- **The scan walks through a plain name.**  What comes behind the name has no part in it, since
the last symbol of a name starts no comment. -/
theorem walks_of_plain {name rest : Text} (h : Plain name)
    (hlast : rest = [] ∨ ∀ c ∈ name.getLast?, c ≠ '-' ∧ c ≠ '/') :
    Walks vettingRules rest (name ++ rest) := by
  induction name with
  | nil => exact .here
  | cons c name ih =>
    obtain ⟨hquote, hdouble, hstop, hdash, hslash⟩ := h
    have hpair {a b : Char} (hab : ¬ [a, b] <:+: c :: name)
        (hend : rest = [] ∨ ∀ x ∈ (c :: name).getLast?, x ≠ a) :
        ¬ [a, b] <+: c :: (name ++ rest) := by
      intro hpair
      obtain ⟨rfl, hsecond⟩ := List.cons_prefix_cons.mp hpair
      cases name with
      | nil =>
        rcases hend with rfl | hend
        · exact absurd hsecond (by simp)
        · exact hend a rfl rfl
      | cons d name =>
        obtain ⟨rfl, -⟩ := List.cons_prefix_cons.mp hsecond
        exact hab ⟨[], name, rfl⟩
    refine .symbol (turn_plain ?_ ?_ ?_ ?_ ?_) (ih ?_ ?_)
    · rintro rfl
      exact hquote List.mem_cons_self
    · rintro rfl
      exact hdouble List.mem_cons_self
    · rintro rfl
      exact hstop List.mem_cons_self
    · exact hpair hdash (hlast.imp_right fun hlast x hx => (hlast x hx).1)
    · exact hpair hslash (hlast.imp_right fun hlast x hx => (hlast x hx).2)
    · have hsuffix : name <:+: c :: name := (List.suffix_cons c name).isInfix
      exact ⟨fun hmem => hquote (List.mem_cons_of_mem _ hmem),
        fun hmem => hdouble (List.mem_cons_of_mem _ hmem),
        fun hmem => hstop (List.mem_cons_of_mem _ hmem), fun hmem => hdash (hmem.trans hsuffix),
        fun hmem => hslash (hmem.trans hsuffix)⟩
    · exact hlast.imp_right fun hlast x hx =>
        hlast x (getLast?_of_suffix (List.suffix_cons c name) hx)

/-- What is passed over from an opening symbol on, with the symbol that closes it or to the end. -/
theorem exists_token {r : Region} (c : Char) (s : Text) (hclose : r.close ≠ '-' ∧ r.close ≠ '/') :
    ∃ token rest, (match r.skip s with
      | some rest => Turn.skip rest
      | none => if sqliteRules.openEnd then .skip [] else .fail .region) = .skip rest ∧
      c :: s = token ++ rest ∧ token.head? = some c ∧
      (rest = [] ∨ ∀ x ∈ token.getLast?, x ≠ '-' ∧ x ≠ '/') := by
  cases hskip : r.skip s with
  | none => exact ⟨c :: s, [], rfl, (List.append_nil _).symm, rfl, Or.inl rfl⟩
  | some rest =>
    obtain ⟨region, rfl⟩ := Region.skip_eq_some hskip
    refine ⟨c :: (region ++ [r.close]), rest, rfl, by simp, rfl, Or.inr fun x hx => ?_⟩
    rw [← List.cons_append, List.getLast?_concat] at hx
    rw [← Option.some.inj hx]
    exact hclose

/-- At every place the scan does what SQLite does, gives up on what does not end, or has a name in
backticks or brackets in front of it. -/
theorem turn_cases (c : Char) (s : Text) :
    vettingRules.turn c s = sqliteRules.turn c s ∨
      (∃ what, vettingRules.turn c s = .fail what ∧ sqliteRules.turn c s = .skip []) ∨
      ∃ token rest, sqliteRules.turn c s = .skip rest ∧ c :: s = token ++ rest ∧
        ((IsForeignName token → Plain token) → Walks vettingRules rest (c :: s)) := by
  have hforeign {r : Region} (hregion : sqliteRules.region c = some r)
      (hclose : r.close ≠ '-' ∧ r.close ≠ '/') (hc : c = backtick ∨ c = '[') :
      ∃ token rest, sqliteRules.turn c s = .skip rest ∧ c :: s = token ++ rest ∧
        ((IsForeignName token → Plain token) → Walks vettingRules rest (c :: s)) := by
    obtain ⟨token, rest, hturn, htoken, hhead, hlast⟩ := exists_token (r := r) c s hclose
    refine ⟨token, rest, ?_, htoken, fun hplain => ?_⟩
    · rw [Rules.turn, hregion]
      exact hturn
    · rw [htoken]
      refine walks_of_plain (hplain ?_) hlast
      exact hc.imp (fun hc => by rw [hhead, hc]) fun hc => by rw [hhead, hc]
  have hagree (hregion : vettingRules.region c = sqliteRules.region c) :=
    (turn_of_agree (s := s) hregion rfl rfl).imp_right
      (Or.inl (b := ∃ token rest, sqliteRules.turn c s = .skip rest ∧ c :: s = token ++ rest ∧
        ((IsForeignName token → Plain token) → Walks vettingRules rest (c :: s))))
  by_cases hquote : c = quote ∨ c = doubleQuote
  · have hcode : vettingRules.region c = some (quoted c) := if_pos hquote
    have hengine : sqliteRules.region c = some (quoted c) := if_pos (hquote.imp_right Or.inl)
    exact hagree (hcode.trans hengine.symm)
  · by_cases hback : c = backtick
    · have hengine : sqliteRules.region c = some (quoted c) := if_pos (Or.inr (Or.inr hback))
      refine Or.inr (Or.inr (hforeign hengine ?_ (Or.inl hback)))
      rw [hback]
      decide
    · have hnot : ¬ (c = quote ∨ c = doubleQuote ∨ c = backtick) := by
        rintro (h | h | h)
        · exact hquote (Or.inl h)
        · exact hquote (Or.inr h)
        · exact hback h
      have hengine : sqliteRules.region c = if c = '[' then some ⟨']', false, none⟩ else none :=
        if_neg hnot
      by_cases hbracket : c = '['
      · rw [if_pos hbracket] at hengine
        exact Or.inr (Or.inr (hforeign hengine (by decide) (Or.inr hbracket)))
      · rw [if_neg hbracket] at hengine
        have hcode : vettingRules.region c = none := if_neg hquote
        exact hagree (hcode.trans hengine.symm)

/-- **The scan follows SQLite** along a dump whose names are plain. -/
theorem follows_of_plainNames {dump : Text} (h : PlainNames dump) :
    Follows vettingRules sqliteRules dump :=
  follows_of_tokens turn_cases le_rfl h

/-! ## Keywords -/

theorem isWhite_of_isAsciiWhite {c : Char} (h : isAsciiWhite c = true) : isWhite c = true := by
  simp only [isAsciiWhite, Bool.or_eq_true, beq_iff_eq] at h
  rcases h with (((rfl | rfl) | rfl) | rfl) | rfl <;> decide

theorem head_of_afterComment {s rest : Text} (h : afterComment dashes s = some rest) :
    ∃ c t, s = c :: t ∧ isWhite c = false := by
  unfold afterComment at h
  split_ifs at h with hline hblock
  · obtain ⟨t, rfl⟩ := List.isPrefixOf_iff_prefix.mp hline
    exact ⟨'-', '-' :: t, rfl, by decide⟩
  · obtain ⟨t, rfl⟩ := List.isPrefixOf_iff_prefix.mp hblock
    exact ⟨'/', '*' :: t, rfl, by decide⟩

/-- What SQLite reads behind the noise is what the check looks at. -/
theorem stripLeadingNoise_eq {stmt : Text} {c : Char} {rest : Text}
    (h : strip isAsciiWhite dashes stmt = c :: rest) (hc : isWhite c = false) :
    stripLeadingNoise stmt = c :: rest := by
  refine strip_of_le (fun _ => isWhite_of_isAsciiWhite) (fun s rest h => ?_) rfl h hc
  obtain ⟨c, t, rfl, hc⟩ := head_of_afterComment h
  exact List.dropWhile_cons_of_neg (by rw [hc]; exact Bool.false_ne_true)

theorem isIdChar_of_isAlpha {c : Char} (h : c.isAlpha = true) : isIdChar c = true := by
  simp [isIdChar, Char.isAlphanum, h]

theorem isWhite_of_isAlpha {c : Char} (h : c.isAlpha = true) : isWhite c = false := by
  have hrange : (65 ≤ c.toNat ∧ c.toNat ≤ 90) ∨ (97 ≤ c.toNat ∧ c.toNat ≤ 122) := by
    have hletter : (decide (65 ≤ c.val ∧ c.val ≤ 90) || (97 ≤ c.val && c.val ≤ 122)) = true :=
      h
    simpa [UInt32.le_iff_toNat_le] using hletter
  unfold isWhite
  simp only [Bool.or_eq_false_iff, Bool.and_eq_false_iff, decide_eq_false_iff_not, beq_eq_false_iff_ne]
  omega

theorem takeWhile_eq_of_forall {p q : Char → Bool} (hqp : ∀ c, q c = true → p c = true) {s : Text}
    (h : ∀ c ∈ s.takeWhile p, q c = true) : s.takeWhile p = s.takeWhile q := by
  induction s with
  | nil => rfl
  | cons c s ih =>
    by_cases hp : p c = true
    · rw [List.takeWhile_cons_of_pos hp] at h ⊢
      obtain ⟨hc, hs⟩ := List.forall_mem_cons.mp h
      rw [List.takeWhile_cons_of_pos hc, ih hs]
    · rw [List.takeWhile_cons_of_neg hp, List.takeWhile_cons_of_neg fun hq => hp (hqp c hq)]

/-- **The keyword that SQLite reads is the one that is checked.** -/
theorem keyword_of_allowed {stmt keyword : Text} (h : checkStatementAllowed stmt = .ok ())
    (hkeyword : sqliteKeyword stmt = some keyword) : keyword ∈ allowedStatementPrefixes := by
  unfold sqliteKeyword at hkeyword
  dsimp only at hkeyword
  split_ifs at hkeyword with hword
  obtain rfl := Option.some.inj hkeyword
  rw [Bool.and_eq_true, Bool.not_eq_true', List.all_eq_true] at hword
  obtain ⟨hne, halpha⟩ := hword
  cases hstrip : strip isAsciiWhite dashes stmt with
  | nil =>
    rw [hstrip] at hne
    exact absurd hne (by decide)
  | cons c rest =>
    rw [hstrip] at hne halpha
    have hid : isIdChar c = true := by
      by_contra hnot
      rw [List.takeWhile_cons_of_neg hnot] at hne
      exact absurd hne (by decide)
    have hc : c.isAlpha = true := by
      apply halpha
      rw [List.takeWhile_cons_of_pos hid]
      exact List.mem_cons_self
    have htake : (c :: rest).takeWhile isIdChar = (c :: rest).takeWhile Char.isAlpha :=
      takeWhile_eq_of_forall (fun _ => isIdChar_of_isAlpha) halpha
    have hnoise := stripLeadingNoise_eq hstrip (isWhite_of_isAlpha hc)
    unfold checkStatementAllowed at h
    dsimp only at h
    rw [hnoise] at h
    split_ifs at h with hempty hmem
    · exact absurd hempty (by simp)
    · rw [htake]
      exact hmem

theorem forM_eq_ok {ε α : Type} {f : α → Except ε Unit} {l : List α} :
    l.forM f = .ok () ↔ ∀ a ∈ l, f a = .ok () := by
  induction l with
  | nil => exact iff_of_true rfl (by simp)
  | cons a l ih =>
    rw [List.forall_mem_cons, ← ih]
    show (f a >>= fun _ => l.forM f) = .ok () ↔ _
    cases f a with
    | error e => simp [bind, Except.bind]
    | ok u => simp [bind, Except.bind]

/-- A dump that passes has been read to its end, and every statement of it is allowed. -/
theorem validateSnapshotDump_eq_ok {dump : Text} :
    validateSnapshotDump dump = .ok () ↔
      ∃ last, (vettingRules.split dump).rest = .inl last ∧
        ∀ stmt ∈ (vettingRules.split dump).ended ++ [last], checkStatementAllowed stmt = .ok () := by
  unfold validateSnapshotDump forEachStatement
  dsimp only
  cases hrest : (vettingRules.split dump).rest with
  | inl last =>
    dsimp only
    constructor
    · intro h
      refine ⟨last, rfl, forM_eq_ok.mp ?_⟩
      cases hforM : ((vettingRules.split dump).ended ++ [last]).forM checkStatementAllowed with
      | error e =>
        rw [hforM] at h
        cases h
      | ok u => rfl
    · rintro ⟨last', hlast, h⟩
      obtain rfl := Sum.inl.inj hlast
      rw [forM_eq_ok.mpr h]
      rfl
  | inr what =>
    dsimp only
    constructor
    · intro h
      cases hforM : (vettingRules.split dump).ended.forM checkStatementAllowed with
      | error e =>
        rw [hforM] at h
        cases h
      | ok u =>
        rw [hforM] at h
        cases h
    · rintro ⟨last, hlast, -⟩
      cases hlast

/-- A dump with quoted names, a comment and a semicolon in a literal. -/
def vettedDump : Text :=
  "CREATE TABLE [a b] (x, /* c; */ `y` TEXT); INSERT INTO [a b] VALUES (1, ';');".toList

end Ephpm.Server
