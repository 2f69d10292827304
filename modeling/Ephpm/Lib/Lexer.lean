import Ephpm.Lib.Quoted

/-!
# Statements of a text

A text of several statements is cut at its separators, and a separator counts only where it stands
by itself: not in a quoted region and not in a comment.  Lexers differ in **which regions and which
comments they know**, so these are the parameters (`Rules`); the cutting is the same for all.

`Rules.turn` is what a lexer does at one place, and `Rules.split` the whole run.  What becomes of a
region or a comment that does not end is up to the rules: it stops the run, or reaches to the end.

**Comparing two lexers.**  One `Follows` the other along a text if, wherever the other one passes
over a token, it does the same or walks through the token symbol by symbol.  Then both find the same
statements (`split_of_follows`).  Nothing has to be known of what the token means.
-/

namespace Lib.Lexer

/-- The end of a line. -/
def lineEnd : Char := Char.ofNat 0x0A

/-- A quoted region: its last symbol, whether that symbol is doubled to stand for itself, and the
symbol that escapes others. -/
structure Region where
  close : Char
  doubles : Bool
  escape : Option Char
deriving DecidableEq

/-- What follows a region whose opening symbol has been read. -/
def Region.skip (r : Region) (s : List Char) : Option (List Char) :=
  if r.doubles then skipQuoted r.close r.escape s else (s.dropWhile (· != r.close)).tail?

/-- What a lexer knows: regions by their opening symbol, where a comment starts that ends with the
line, and whether a region or a block comment may be left open: it then reaches to the end. -/
structure Rules where
  region : Char → Option Region
  lineComment : List Char → Bool
  openEnd : Bool

/-- What does not end. -/
inductive Unterminated where
  | region
  | comment
deriving DecidableEq

/-- What is done at one place of a text: pass over something, end a statement, or give up. -/
inductive Turn where
  | skip (rest : List Char)
  | stop (rest : List Char)
  | fail (what : Unterminated)
deriving DecidableEq

/-- A comment between `/*` and `*/`, whose first two symbols have been read. -/
def blockTurn (openEnd : Bool) (s : List Char) : Turn :=
  match seekPair '*' '/' s with
  | _ :: _ :: rest => .skip rest
  | _ => if openEnd then .skip [] else .fail .comment

/-- What is done with the symbol `c` in front of `s`. -/
def Rules.turn (rules : Rules) (c : Char) (s : List Char) : Turn :=
  match rules.region c with
  | some r => match r.skip s with
      | some rest => .skip rest
      | none => if rules.openEnd then .skip [] else .fail .region
  | none =>
    if rules.lineComment (c :: s) then .skip (s.dropWhile (· != lineEnd))
    else if c = '/' ∧ s.head? = some '*' then blockTurn rules.openEnd s.tail
    else if c = ';' then .stop s
    else .skip s

/-- The statements of a text: those that a separator ends, and what stands behind the last one, if
the run gets there. -/
structure Split where
  ended : List (List Char)
  rest : List Char ⊕ Unterminated
deriving DecidableEq

/-- A statement in front of others. -/
def Split.push (stmt : List Char) (split : Split) : Split := { split with ended := stmt :: split.ended }

/-- The run from a place, with the statement that has been read so far.  Every turn reads a symbol,
so the length of the text is enough fuel. -/
def Rules.run (rules : Rules) : ℕ → List Char → List Char → Split
  | _, stmt, [] => ⟨[], .inl stmt⟩
  | 0, _, _ :: _ => ⟨[], .inr .region⟩
  | n + 1, stmt, c :: s =>
    match rules.turn c s with
    | .skip rest => rules.run n (stmt ++ (c :: s).take ((c :: s).length - rest.length)) rest
    | .stop rest => (rules.run n [] rest).push stmt
    | .fail what => ⟨[], .inr what⟩

/-- **The statements of a text**, as a lexer cuts it. -/
def Rules.split (rules : Rules) (s : List Char) : Split := rules.run s.length [] s

/-! ## One turn -/

section Turn

variable {rules : Rules} {c : Char} {s rest : List Char}

/-- A region ends with its last symbol. -/
theorem Region.skip_eq_some {r : Region} (h : r.skip s = some rest) :
    ∃ region, s = region ++ r.close :: rest := by
  unfold Region.skip at h
  split_ifs at h with hdoubles
  · exact skipQuoted_eq_some h
  · cases hdrop : s.dropWhile (· != r.close) with
    | nil =>
      rw [hdrop] at h
      cases h
    | cons x tail =>
      rw [hdrop] at h
      obtain rfl := Option.some.inj h
      have hsplit := List.takeWhile_append_dropWhile (p := (· != r.close)) (l := s)
      have hhead := List.head?_dropWhile_not (· != r.close) s
      rw [hdrop] at hsplit hhead
      have hx : x = r.close := by simpa using hhead
      exact ⟨_, by rw [← hx]; exact hsplit.symm⟩

theorem Region.skip_suffix {r : Region} (h : r.skip s = some rest) : rest <:+ s := by
  obtain ⟨region, rfl⟩ := Region.skip_eq_some h
  exact ⟨region ++ [r.close], by simp⟩

theorem blockTurn_suffix {openEnd : Bool} (h : blockTurn openEnd s = .skip rest) :
    rest <:+ s := by
  have hsuffix := seekPair_suffix '*' '/' s
  unfold blockTurn at h
  split at h
  next a b tail heq =>
    rw [heq] at hsuffix
    obtain rfl := Turn.skip.inj h
    exact (List.suffix_append [a, b] tail).trans hsuffix
  next =>
    split_ifs at h
    obtain rfl := Turn.skip.inj h
    exact List.nil_suffix

/-- Every turn reads the symbol in front. -/
theorem Rules.turn_suffix (h : rules.turn c s = .skip rest ∨ rules.turn c s = .stop rest) :
    rest <:+ s := by
  unfold Rules.turn at h
  split at h
  next r _ =>
    cases hskip : r.skip s with
    | none =>
      simp only [hskip] at h
      split_ifs at h
      · simp only [Turn.skip.injEq, or_false] at h
        rw [← h]
        exact List.nil_suffix
      · simp at h
    | some tail =>
      simp only [hskip, Turn.skip.injEq, reduceCtorEq, or_false] at h
      rw [← h]
      exact Region.skip_suffix hskip
  next =>
    split_ifs at h
    · simp only [Turn.skip.injEq, or_false] at h
      rw [← h]
      exact List.dropWhile_suffix _
    · rcases h with h | h
      · exact (blockTurn_suffix h).trans (List.tail_suffix s)
      · unfold blockTurn at h
        split at h
        · cases h
        · split_ifs at h
    · simp only [Turn.stop.injEq, false_or] at h
      rw [← h]
    · simp only [Turn.skip.injEq, or_false] at h
      rw [← h]

end Turn

/-! ## The run -/

section Run

variable {rules : Rules} {c : Char} {s rest stmt : List Char}

/-- Any fuel that is enough gives the same. -/
theorem Rules.run_fuel {n m : ℕ} (hn : s.length ≤ n) (hm : s.length ≤ m) (stmt : List Char) :
    rules.run n stmt s = rules.run m stmt s := by
  induction n generalizing m s stmt with
  | zero =>
    rw [List.length_eq_zero_iff.mp (Nat.le_zero.mp hn)]
    cases m <;> rfl
  | succ n ih =>
    cases s with
    | nil => cases m <;> rfl
    | cons c s =>
      obtain ⟨m, rfl⟩ : ∃ k, m = k + 1 := ⟨m - 1, by rw [List.length_cons] at hm; omega⟩
      have hsn : s.length ≤ n := Nat.le_of_succ_le_succ hn
      have hsm : s.length ≤ m := Nat.le_of_succ_le_succ hm
      rw [Rules.run, Rules.run]
      cases hturn : rules.turn c s with
      | fail what => rfl
      | skip rest =>
        have hrest := (Rules.turn_suffix (Or.inl hturn)).length_le
        exact ih (hrest.trans hsn) (hrest.trans hsm) _
      | stop rest =>
        have hrest := (Rules.turn_suffix (Or.inr hturn)).length_le
        exact congrArg (Split.push stmt) (ih (hrest.trans hsn) (hrest.trans hsm) _)

/-- The run from a place to the end. -/
def Rules.runFrom (rules : Rules) (stmt s : List Char) : Split := rules.run s.length stmt s

@[simp] theorem Rules.runFrom_nil (stmt : List Char) : rules.runFrom stmt [] = ⟨[], .inl stmt⟩ := rfl

/-- A token is passed over. -/
theorem Rules.runFrom_skip {taken : List Char} (h : rules.turn c s = .skip rest)
    (htaken : c :: s = taken ++ rest) :
    rules.runFrom stmt (c :: s) = rules.runFrom (stmt ++ taken) rest := by
  have hrest := (Rules.turn_suffix (Or.inl h)).length_le
  have htake : (c :: s).take ((c :: s).length - rest.length) = taken := by
    rw [htaken, List.length_append, Nat.add_sub_cancel, List.take_left]
  rw [Rules.runFrom, List.length_cons, Rules.run, h]
  dsimp only
  rw [htake]
  exact Rules.run_fuel hrest le_rfl _

/-- A statement ends. -/
theorem Rules.runFrom_stop (h : rules.turn c s = .stop rest) :
    rules.runFrom stmt (c :: s) = (rules.runFrom [] rest).push stmt := by
  have hrest := (Rules.turn_suffix (Or.inr h)).length_le
  rw [Rules.runFrom, List.length_cons, Rules.run, h]
  exact congrArg (Split.push stmt) (Rules.run_fuel hrest le_rfl _)

theorem Rules.runFrom_fail {what : Unterminated} (h : rules.turn c s = .fail what) :
    rules.runFrom stmt (c :: s) = ⟨[], .inr what⟩ := by
  rw [Rules.runFrom, List.length_cons, Rules.run, h]

end Run

/-! ## Two lexers -/

/-- A text is read symbol by symbol up to a place. -/
inductive Walks (rules : Rules) (rest : List Char) : List Char → Prop
  | here : Walks rules rest rest
  | symbol {c : Char} {s : List Char} (hturn : rules.turn c s = .skip s)
      (hs : Walks rules rest s) : Walks rules rest (c :: s)

theorem Walks.suffix {rules : Rules} {rest s : List Char} (h : Walks rules rest s) : rest <:+ s := by
  induction h with
  | here => exact List.suffix_refl _
  | symbol _ _ ih => exact ih.trans (List.suffix_cons _ _)

theorem Walks.runFrom_eq {rules : Rules} {rest s taken : List Char} (h : Walks rules rest s)
    (htaken : s = taken ++ rest) (stmt : List Char) :
    rules.runFrom stmt s = rules.runFrom (stmt ++ taken) rest := by
  induction h generalizing taken stmt with
  | here =>
    have hnil : taken = [] := List.self_eq_append_left.mp htaken
    rw [hnil, List.append_nil]
  | @symbol c s hturn hs ih =>
    obtain ⟨front, rfl⟩ := hs.suffix
    have hfront : taken = c :: front := by
      have heq : (c :: front) ++ rest = taken ++ rest := htaken
      exact (List.append_cancel_right heq).symm
    rw [Rules.runFrom_skip hturn (List.singleton_append).symm, ih rfl, hfront, List.append_assoc,
      List.singleton_append]

/-- **One lexer follows another** along a text: it does the same, or walks through what the other
passes over.  Where the other reads something that does not end, it may give up. -/
inductive Follows (code engine : Rules) : List Char → Prop
  | nil : Follows code engine []
  | skip {c : Char} {s rest : List Char} (hcode : code.turn c s = .skip rest)
      (hengine : engine.turn c s = .skip rest) (hrest : Follows code engine rest) :
      Follows code engine (c :: s)
  | walk {c : Char} {s rest : List Char} (hcode : Walks code rest (c :: s))
      (hengine : engine.turn c s = .skip rest) (hrest : Follows code engine rest) :
      Follows code engine (c :: s)
  | stop {c : Char} {s rest : List Char} (hcode : code.turn c s = .stop rest)
      (hengine : engine.turn c s = .stop rest) (hrest : Follows code engine rest) :
      Follows code engine (c :: s)
  | fail {c : Char} {s : List Char} {what : Unterminated} (hcode : code.turn c s = .fail what)
      (hengine : engine.turn c s = .fail what) : Follows code engine (c :: s)
  | giveUp {c : Char} {s : List Char} {what : Unterminated} (hcode : code.turn c s = .fail what)
      (hengine : engine.turn c s = .skip []) : Follows code engine (c :: s)

/-- **A lexer that follows another finds the same statements.**  If it gets to the end, what is left
there is the same, too. -/
theorem runFrom_of_follows {code engine : Rules} {s : List Char} (h : Follows code engine s)
    (stmt : List Char) :
    (code.runFrom stmt s).ended = (engine.runFrom stmt s).ended ∧
      ∀ rest, (code.runFrom stmt s).rest = .inl rest → (engine.runFrom stmt s).rest = .inl rest := by
  induction h generalizing stmt with
  | nil => exact ⟨rfl, fun _ h => h⟩
  | @skip c s rest hcode hengine _ ih =>
    obtain ⟨taken, htaken⟩ := (Rules.turn_suffix (Or.inl hcode)).trans (List.suffix_cons c s)
    rw [Rules.runFrom_skip hcode htaken.symm, Rules.runFrom_skip hengine htaken.symm]
    exact ih _
  | walk hcode hengine _ ih =>
    obtain ⟨taken, htaken⟩ := hcode.suffix
    rw [hcode.runFrom_eq htaken.symm, Rules.runFrom_skip hengine htaken.symm]
    exact ih _
  | stop hcode hengine _ ih =>
    obtain ⟨hended, hrest⟩ := ih []
    rw [Rules.runFrom_stop hcode, Rules.runFrom_stop hengine]
    exact ⟨congrArg (stmt :: ·) hended, hrest⟩
  | fail hcode hengine =>
    rw [Rules.runFrom_fail hcode, Rules.runFrom_fail hengine]
    exact ⟨rfl, fun _ h => h⟩
  | @giveUp c s what hcode hengine =>
    rw [Rules.runFrom_fail hcode, Rules.runFrom_skip hengine (List.append_nil _).symm]
    exact ⟨rfl, fun _ h => by cases h⟩

theorem split_of_follows {code engine : Rules} {s : List Char} (h : Follows code engine s) :
    (code.split s).ended = (engine.split s).ended ∧
      ∀ rest, (code.split s).rest = .inl rest → (engine.split s).rest = .inl rest :=
  runFrom_of_follows h []

/-- Lexers that know the same at a place do the same there, unless something does not end. -/
theorem turn_of_agree {code engine : Rules} {c : Char} {s : List Char}
    (hregion : code.region c = engine.region c)
    (hline : code.lineComment (c :: s) = engine.lineComment (c :: s)) (hopen : engine.openEnd = true) :
    code.turn c s = engine.turn c s ∨
      ∃ what, code.turn c s = .fail what ∧ engine.turn c s = .skip [] := by
  have hblock (t : List Char) : blockTurn code.openEnd t = blockTurn engine.openEnd t ∨
      ∃ what, blockTurn code.openEnd t = .fail what ∧ blockTurn engine.openEnd t = .skip [] := by
    rw [hopen]
    cases code.openEnd with
    | true => exact Or.inl rfl
    | false =>
      unfold blockTurn
      split
      · exact Or.inl rfl
      · exact Or.inr ⟨.comment, rfl, rfl⟩
  unfold Rules.turn
  rw [hregion, hline]
  cases engine.region c with
  | some r =>
    dsimp only
    cases r.skip s with
    | some rest => exact Or.inl rfl
    | none =>
      dsimp only
      rw [hopen]
      cases code.openEnd with
      | true => exact Or.inl rfl
      | false => exact Or.inr ⟨.region, rfl, rfl⟩
  | none =>
    dsimp only
    split_ifs
    · exact Or.inl rfl
    · exact hblock s.tail
    · exact Or.inl rfl
    · exact Or.inl rfl

/-! ## Tokens -/

/-- What a lexer passes over, token by token. -/
def Rules.tokensWithin (rules : Rules) : ℕ → List Char → List (List Char)
  | 0, _ => []
  | _, [] => []
  | n + 1, c :: s =>
    match rules.turn c s with
    | .skip rest => (c :: s).take ((c :: s).length - rest.length) :: rules.tokensWithin n rest
    | .stop rest => rules.tokensWithin n rest
    | .fail _ => []

/-- The tokens of a text. -/
def Rules.tokens (rules : Rules) (s : List Char) : List (List Char) := rules.tokensWithin s.length s

/-- **Following, token by token.**  It is enough that at every place the two lexers do the same, or
one gives up on what does not end, or one walks through the token of the other, provided that the
token is of the right kind. -/
theorem follows_of_tokens {code engine : Rules} {Ok : List Char → Prop}
    (hturn : ∀ c s, code.turn c s = engine.turn c s ∨
      (∃ what, code.turn c s = .fail what ∧ engine.turn c s = .skip []) ∨
      ∃ token rest, engine.turn c s = .skip rest ∧ c :: s = token ++ rest ∧
        (Ok token → Walks code rest (c :: s)))
    {n : ℕ} {s : List Char} (hn : s.length ≤ n) (hs : ∀ token ∈ engine.tokensWithin n s, Ok token) :
    Follows code engine s := by
  induction n generalizing s with
  | zero =>
    rw [List.length_eq_zero_iff.mp (Nat.le_zero.mp hn)]
    exact .nil
  | succ n ih =>
    cases s with
    | nil => exact .nil
    | cons c s =>
      have hlength : s.length ≤ n := Nat.le_of_succ_le_succ hn
      rcases hturn c s with hsame | ⟨what, hcode, hengine⟩ | ⟨token, rest, hengine, htoken, hok⟩
      · cases hengine : engine.turn c s with
        | fail what => exact .fail (hsame.trans hengine) hengine
        | skip rest =>
          have hrest := (Rules.turn_suffix (Or.inl hengine)).length_le
          refine .skip (hsame.trans hengine) hengine (ih (hrest.trans hlength) ?_)
          rw [Rules.tokensWithin, hengine] at hs
          exact fun token htoken => hs token (List.mem_cons_of_mem _ htoken)
        | stop rest =>
          have hrest := (Rules.turn_suffix (Or.inr hengine)).length_le
          refine .stop (hsame.trans hengine) hengine (ih (hrest.trans hlength) ?_)
          rw [Rules.tokensWithin, hengine] at hs
          exact hs
      · exact .giveUp hcode hengine
      · have hrest := (Rules.turn_suffix (Or.inl hengine)).length_le
        rw [Rules.tokensWithin, hengine] at hs
        have htake : (c :: s).take ((c :: s).length - rest.length) = token := by
          rw [htoken, List.length_append, Nat.add_sub_cancel, List.take_left]
        refine .walk (hok ?_) hengine (ih (hrest.trans hlength) ?_)
        · rw [← htake]
          exact hs _ List.mem_cons_self
        · exact fun token htoken => hs token (List.mem_cons_of_mem _ htoken)

/-! ## Noise in front of a statement -/

section Noise

variable (white : Char → Bool) (lineComment : List Char → Bool)

/-- What follows the comment that starts here, if one does.  A comment that does not end is all
there is. -/
def afterComment (s : List Char) : Option (List Char) :=
  if lineComment s then some (s.dropWhile (· != lineEnd)).tail
  else if ['/', '*'].isPrefixOf s then some ((seekPair '*' '/' (s.drop 2)).drop 2)
  else none

/-- White space and comments are taken off, at most so many comments. -/
def stripWithin : ℕ → List Char → List Char
  | 0, s => s
  | n + 1, s =>
    match afterComment lineComment (s.dropWhile white) with
    | some rest => stripWithin n rest
    | none => s.dropWhile white

/-- **The statement behind white space and comments.** -/
def strip (s : List Char) : List Char := stripWithin white lineComment (s.length + 1) s

variable {white lineComment}

theorem afterComment_length {s rest : List Char} (hs : s ≠ [])
    (h : afterComment lineComment s = some rest) : rest.length < s.length := by
  have hpos := List.length_pos_iff.mpr hs
  unfold afterComment at h
  split_ifs at h
  · obtain rfl := Option.some.inj h
    have hle := (List.dropWhile_suffix (l := s) (· != lineEnd)).length_le
    rw [List.length_tail]
    omega
  · obtain rfl := Option.some.inj h
    have hle := (seekPair_suffix '*' '/' (s.drop 2)).length_le
    rw [List.length_drop] at hle ⊢
    omega

/-- A lexer with more white space finds the same statement, provided that the statement does not
start with what only it takes for white space. -/
theorem stripWithin_of_le {white' : Char → Bool} (hwhite : ∀ c, white c = true → white' c = true)
    (hcomment : ∀ s rest, afterComment lineComment s = some rest → s.dropWhile white' = s)
    (hnil : afterComment lineComment [] = none) {n m : ℕ} {s : List Char} (hn : s.length < n)
    (hm : s.length < m) {c : Char} {rest : List Char}
    (h : stripWithin white lineComment n s = c :: rest) (hc : white' c = false) :
    stripWithin white' lineComment m s = c :: rest := by
  induction n generalizing m s with
  | zero => exact absurd hn (Nat.not_lt_zero _)
  | succ n ih =>
    obtain ⟨m, rfl⟩ : ∃ k, m = k + 1 := ⟨m - 1, by omega⟩
    have hdrop : s.dropWhile white' = (s.dropWhile white).dropWhile white' := by
      clear h hn hm
      induction s with
      | nil => rfl
      | cons x s ihs =>
        by_cases hx : white x = true
        · rw [List.dropWhile_cons_of_pos (hwhite x hx), List.dropWhile_cons_of_pos hx, ihs]
        · rw [List.dropWhile_cons_of_neg hx]
    rw [stripWithin] at h ⊢
    rw [hdrop]
    cases hafter : afterComment lineComment (s.dropWhile white) with
    | some tail =>
      rw [hafter] at h
      have hne : s.dropWhile white ≠ [] := by
        intro hempty
        rw [hempty, hnil] at hafter
        cases hafter
      have hlt := afterComment_length hne hafter
      have hle := (List.dropWhile_suffix (l := s) white).length_le
      rw [hcomment _ _ hafter, hafter]
      exact ih (by omega) (by omega) h
    | none =>
      rw [hafter] at h
      have h : s.dropWhile white = c :: rest := h
      have hkeep : (c :: rest).dropWhile white' = c :: rest :=
        List.dropWhile_cons_of_neg (by rw [hc]; exact Bool.false_ne_true)
      rw [h] at hafter ⊢
      rw [hkeep, hafter]

theorem strip_of_le {white' : Char → Bool} (hwhite : ∀ c, white c = true → white' c = true)
    (hcomment : ∀ s rest, afterComment lineComment s = some rest → s.dropWhile white' = s)
    (hnil : afterComment lineComment [] = none) {s : List Char} {c : Char} {rest : List Char}
    (h : strip white lineComment s = c :: rest) (hc : white' c = false) :
    strip white' lineComment s = c :: rest :=
  stripWithin_of_le hwhite hcomment hnil (Nat.lt_succ_self _) (Nat.lt_succ_self _) h hc

end Noise

/-- The statements of a text. -/
def Split.all (split : Split) : List (List Char) :=
  split.ended ++ (match split.rest with | .inl last => [last] | .inr _ => [])

end Lib.Lexer
