import Mathlib.Data.FinEnum
import Mathlib.Tactic.Linarith
import Mathlib.Tactic.Ring
import Ephpm.Lib.Parsing
import Ephpm.Lib.Wildcard
import Ephpm.Kv.Entry

/-!
# Glob matching

The matcher behind `KEYS` (`store/glob.rs`): two indices into pattern and text, and one way back
to the last star.  A class `[…]` is taken apart anew at every byte it is held against.

**The code** is modelled with its indices.  An access outside of the pattern or the text is a
panic, here `none`, and so is a loop that does not end within its steps.  **The meaning** of a
pattern is the list of its tokens (`tokens`), read off the bytes from the front, and fitting is
the relation of `Lib.Wildcard`.

`globMatch_eq` says that the matcher always answers, and what.
-/

namespace Ephpm.Kv.Glob

open Lib Lib.Wildcard

/-! ## The code -/

/-- The loop of `match_token` over a class: whether `c` is in it, and the index of its last
byte. -/
def classLoop (pattern : Bytes) (c : UInt8) : ℕ → ℕ → Bool → Option (Bool × ℕ)
  | 0, _, _ => none
  | steps + 1, i, matched =>
    let remaining := pattern.length - i
    if 2 ≤ remaining ∧ pattern[i]? = some 92 then
      (pattern[i + 1]?).bind fun escaped =>
        classLoop pattern c steps (i + 2) (matched || escaped == c)
    else if remaining = 0 then
      -- Unterminated: the index steps back so that the next token is the end.
      some (matched, pattern.length - 1)
    else
      (pattern[i]?).bind fun lo =>
        if lo = 93 then some (matched, i)
        else if 3 ≤ remaining ∧ pattern[i + 1]? = some 45 then
          (pattern[i + 2]?).bind fun hi =>
            classLoop pattern c steps (i + 3)
              (matched || decide (min lo hi ≤ c ∧ c ≤ max lo hi))
        else classLoop pattern c steps (i + 1) (matched || lo == c)

/-- `match_token`: whether the token at `pi` accepts `c`, and the index of the next one. -/
def matchToken (pattern : Bytes) (pi : ℕ) (c : UInt8) : Option (Bool × ℕ) :=
  (pattern[pi]?).bind fun first =>
    if first = 63 then some (true, pi + 1)
    else if first = 91 then
      let negate := pattern[pi + 1]? == some 94
      let start := if negate then pi + 2 else pi + 1
      (classLoop pattern c (pattern.length + 1) start false).map fun r =>
        (r.1 != negate, r.2 + 1)
    else if first = 92 ∧ pi + 1 < pattern.length then
      (pattern[pi + 1]?).map fun literal => (literal == c, pi + 2)
    else some (first == c, pi + 1)

/-- The index after the stars at `pi`. -/
def skipStars (pattern : Bytes) (pi : ℕ) : ℕ :=
  if pattern[pi]? = some 42 then skipStars pattern (pi + 1) else pi
termination_by pattern.length - pi
decreasing_by
  rename_i hstar
  obtain ⟨hlt, -⟩ := List.getElem?_eq_some_iff.mp hstar
  omega

/-- The loop of `glob_match`.  `star` is the index after the last run of stars and the index in
the text where its match ends. -/
def globLoop (pattern text : Bytes) : ℕ → ℕ → ℕ → Option (ℕ × ℕ) → Option Bool
  | 0, _, _, _ => none
  | steps + 1, pi, ti, star =>
    if ti < text.length then
      if pattern[pi]? = some 42 then
        let next := skipStars pattern pi
        if next = pattern.length then some true
        else globLoop pattern text steps next ti (some (next, ti))
      else
        let token := (text[ti]?).bind fun c =>
          if pi < pattern.length then matchToken pattern pi c else some (false, pi)
        token.bind fun r =>
          if r.1 then globLoop pattern text steps r.2 (ti + 1) star
          else
            -- Let the last star take one byte more, if there is one.
            star.elim (some false) fun back =>
              globLoop pattern text steps back.1 (back.2 + 1) (some (back.1, back.2 + 1))
    else if pi ≤ pattern.length then some ((pattern.drop pi).all (· == 42))
    else none

/-- The steps that are enough for any pattern and text of these lengths. -/
def enough (patternLen textLen : ℕ) : ℕ := (patternLen + 1) * (textLen + 1) ^ 2

/-- `glob_match`; `none` if the fuel runs out. -/
def globMatch (pattern text : Bytes) : Option Bool :=
  if text.isEmpty then some pattern.isEmpty
  else globLoop pattern text (enough pattern.length text.length) 0 0 none

/-! ## The meaning of a pattern -/

/-- A byte range of a class, the ends in either order. -/
def rangeTest (lo hi c : UInt8) : Bool := decide (min lo hi ≤ c ∧ c ≤ max lo hi)

/-- The body of a class: the tests of its items, and the pattern after it.  An item is an
escaped byte, a range or a byte; the class ends at a `]` or with the pattern. -/
def classBody : Bytes → List (UInt8 → Bool) × Bytes
  | [] => ([], [])
  | [a] => if a = 93 then ([], []) else ([(a == ·)], [])
  | [a, b] =>
    if a = 92 then ([(b == ·)], [])
    else if a = 93 then ([], [b])
    else ((classBody [b]).map ((a == ·) :: ·) id)
  | a :: b :: d :: rest =>
    if a = 92 then (classBody (d :: rest)).map ((b == ·) :: ·) id
    else if a = 93 then ([], b :: d :: rest)
    else if b = 45 then (classBody rest).map (rangeTest a d :: ·) id
    else (classBody (b :: d :: rest)).map ((a == ·) :: ·) id

/-- The token that starts with `b`, which is not a star, and the pattern after it. -/
def firstToken (b : UInt8) (rest : Bytes) : (UInt8 → Bool) × Bytes :=
  if b = 63 then (fun _ => true, rest)
  else if b = 91 then
    let negate := rest.head? == some 94
    let body := classBody (if negate then rest.tail else rest)
    (fun c => body.1.any (· c) != negate, body.2)
  else if b = 92 then
    match rest with
    | literal :: rest => ((literal == ·), rest)
    | [] => ((b == ·), [])
  else ((b == ·), rest)

theorem classBody_length_le (body : Bytes) : (classBody body).2.length ≤ body.length := by
  fun_induction classBody body <;> simp_all <;> omega

theorem firstToken_length_le (b : UInt8) (rest : Bytes) :
    (firstToken b rest).2.length ≤ rest.length := by
  unfold firstToken
  split
  · rfl
  split
  · refine (classBody_length_le _).trans ?_
    split <;> simp
  split
  · cases rest <;> simp
  · rfl

/-- The tokens of a pattern. -/
def tokens : Bytes → List (Token UInt8)
  | [] => []
  | b :: rest =>
    if b = 42 then none :: tokens rest
    else some (firstToken b rest).1 :: tokens (firstToken b rest).2
termination_by pattern => pattern.length
decreasing_by
  · simp
  · have := firstToken_length_le b rest
    simp
    omega

@[simp] theorem tokens_nil : tokens [] = [] := by rw [tokens]

theorem tokens_star (rest : Bytes) : tokens (42 :: rest) = none :: tokens rest := by
  rw [tokens, if_pos rfl]

theorem tokens_cons {b : UInt8} (hb : b ≠ 42) (rest : Bytes) :
    tokens (b :: rest) = some (firstToken b rest).1 :: tokens (firstToken b rest).2 := by
  rw [tokens, if_neg hb]

/-- Only stars are left when every byte is a star. -/
theorem tokens_all_star (pattern : Bytes) :
    (∀ t ∈ tokens pattern, t = none) ↔ pattern.all (· == 42) = true := by
  induction pattern with
  | nil => simp
  | cons b rest ih =>
    by_cases hb : b = 42
    · subst hb
      simp [tokens_star, ih]
    · simp [tokens_cons hb, hb]

/-! ## One token -/

theorem classBody_escape (b : UInt8) (rest : Bytes) :
    classBody (92 :: b :: rest) = (classBody rest).map ((b == ·) :: ·) id := by
  cases rest <;> simp [classBody]

theorem classBody_close (rest : Bytes) : classBody (93 :: rest) = ([], rest) := by
  rcases rest with _ | ⟨b, _ | ⟨d, rest⟩⟩ <;> simp [classBody]

theorem classBody_range {a : UInt8} (hescape : a ≠ 92) (hclose : a ≠ 93) (d : UInt8)
    (rest : Bytes) :
    classBody (a :: 45 :: d :: rest) = (classBody rest).map (rangeTest a d :: ·) id := by
  simp [classBody, hescape, hclose]

theorem classBody_byte {a : UInt8} {rest : Bytes} (hescape : a = 92 → rest = [])
    (hclose : a ≠ 93) (hrange : ∀ d rest', rest ≠ 45 :: d :: rest') :
    classBody (a :: rest) = (classBody rest).map ((a == ·) :: ·) id := by
  rcases rest with _ | ⟨b, _ | ⟨d, rest⟩⟩
  · simp [classBody, hclose]
  · have hescape' : a ≠ 92 := fun h => (by cases hescape h)
    simp [classBody, hclose, hescape']
  · have hescape' : a ≠ 92 := fun h => (by cases hescape h)
    have hrange' : b ≠ 45 := fun h => hrange d rest (by rw [h])
    rw [classBody]
    simp [hclose, hescape', hrange']

/-- **The class loop reads the body of the class.** -/
theorem classLoop_eq (pattern : Bytes) (c : UInt8) (steps : ℕ) {i : ℕ} (matched : Bool)
    (hpos : 0 < i) (hi : i ≤ pattern.length) (hsteps : pattern.length - i < steps) :
    ∃ j, classLoop pattern c steps i matched =
        some (matched || (classBody (pattern.drop i)).1.any (· c), j) ∧
      pattern.drop (j + 1) = (classBody (pattern.drop i)).2 ∧ i ≤ j + 1 ∧
        j + 1 ≤ pattern.length := by
  induction steps generalizing i matched with
  | zero => omega
  | succ steps ih =>
    rw [classLoop]
    rcases hrest : pattern.drop i with _ | ⟨a, rest⟩
    · -- The pattern is at its end.
      have hend : pattern.length - i = 0 := by
        rw [← List.length_drop, hrest]
        rfl
      refine ⟨pattern.length - 1, ?_, ?_, by omega, by omega⟩
      · simp [hend, classBody]
      · rw [Nat.sub_add_cancel (by omega), List.drop_length, classBody]
    · obtain ⟨hget, hdrop, hlength⟩ := drop_eq_cons hrest
      have hremaining : pattern.length - i = rest.length + 1 := by omega
      -- One item, and the loop again on what follows it.
      have hitem (n : ℕ) (test : UInt8 → Bool) (after : Bytes) (hn : 0 < n)
          (hle : i + n ≤ pattern.length) (hafter : pattern.drop (i + n) = after)
          (hbody : classBody (a :: rest) = (classBody after).map (test :: ·) id) :
          ∃ j, classLoop pattern c steps (i + n) (matched || test c) =
              some (matched || (classBody (a :: rest)).1.any (· c), j) ∧
            pattern.drop (j + 1) = (classBody (a :: rest)).2 ∧ i ≤ j + 1 ∧
              j + 1 ≤ pattern.length := by
        obtain ⟨j, hloop, hj, hlow, hhigh⟩ :=
          ih (i := i + n) (matched || test c) (by omega) hle (by omega)
        refine ⟨j, ?_, ?_, by omega, hhigh⟩
        · rw [hloop, hafter, hbody, Bool.or_assoc]
          rfl
        · rw [hj, hafter, hbody]
          rfl
      by_cases hescape : a = 92 ∧ rest ≠ []
      · obtain ⟨rfl, hne⟩ := hescape
        obtain ⟨b, rest', rfl⟩ := List.exists_cons_of_ne_nil hne
        obtain ⟨hget', hdrop', -⟩ := drop_eq_cons hdrop
        have htwo : 2 ≤ pattern.length - i := by
          rw [hremaining]
          simp
        simp only [hget, hget', htwo, true_and, if_true, Option.bind_some]
        exact hitem 2 (b == ·) rest' (by decide) (by omega) hdrop' (classBody_escape b rest')
      · have hno : ¬ (2 ≤ pattern.length - i ∧ some a = some 92) := by
          rintro ⟨htwo, ha⟩
          refine hescape ⟨Option.some.inj ha, ?_⟩
          rintro rfl
          rw [hremaining] at htwo
          exact absurd htwo (by decide)
        have hsome : pattern.length - i ≠ 0 := by omega
        simp only [hget, hno, hsome, if_false, Option.bind_some]
        by_cases hclose : a = 93
        · subst hclose
          exact ⟨i, by simp [classBody_close], by rw [hdrop, classBody_close], by omega, by omega⟩
        · simp only [hclose, if_false]
          by_cases hrange : ∃ d rest', rest = 45 :: d :: rest'
          · obtain ⟨d, rest', rfl⟩ := hrange
            obtain ⟨hdash, hdrop', -⟩ := drop_eq_cons hdrop
            obtain ⟨hget', hdrop'', -⟩ := drop_eq_cons hdrop'
            have hthree : 3 ≤ pattern.length - i := by
              rw [hremaining]
              simp
            have ha : a ≠ 92 := fun ha => hescape ⟨ha, by simp⟩
            simp only [hdash, hget', hthree, true_and, if_true, Option.bind_some]
            exact hitem 3 (rangeTest a d) rest' (by decide) (by omega) hdrop''
              (classBody_range ha hclose d rest')
          · have hno' : ¬ (3 ≤ pattern.length - i ∧ pattern[i + 1]? = some 45) := by
              rintro ⟨hthree, hdash⟩
              rcases rest with _ | ⟨b, _ | ⟨d, rest'⟩⟩
              · simp [hremaining] at hthree
              · simp [hremaining] at hthree
              · obtain ⟨hget', -, -⟩ := drop_eq_cons hdrop
                rw [hget'] at hdash
                exact hrange ⟨d, rest', by rw [Option.some.inj hdash]⟩
            simp only [hno', if_false]
            exact hitem 1 (a == ·) rest (by decide) (by omega) hdrop
              (classBody_byte (fun ha => by_contra fun hne => hescape ⟨ha, hne⟩) hclose
                fun d rest' h => hrange ⟨d, rest', h⟩)

/-- **A token of the code is a token of the pattern.** -/
theorem matchToken_eq {pattern rest : Bytes} {pi : ℕ} {b : UInt8}
    (hdrop : pattern.drop pi = b :: rest) (c : UInt8) :
    ∃ next, matchToken pattern pi c = some ((firstToken b rest).1 c, next) ∧
      pattern.drop next = (firstToken b rest).2 ∧ pi < next ∧ next ≤ pattern.length := by
  obtain ⟨hget, hrest, hlength⟩ := drop_eq_cons hdrop
  rw [matchToken, hget, Option.bind_some]
  unfold firstToken
  by_cases hany : b = 63
  · simp only [hany, if_true]
    exact ⟨pi + 1, rfl, hrest, by omega, by omega⟩
  by_cases hclass : b = 91
  · subst hclass
    have hhead : pattern[pi + 1]? = rest.head? := by rw [← hrest, List.head?_drop]
    simp only [hany, hhead, if_true, if_false]
    have hstart : pattern.drop (if rest.head? == some 94 then pi + 2 else pi + 1) =
        if rest.head? == some 94 then rest.tail else rest := by
      split
      · rw [← hrest, List.tail_drop]
      · exact hrest
    have hbound : pi < (if rest.head? == some 94 then pi + 2 else pi + 1) ∧
        (if rest.head? == some 94 then pi + 2 else pi + 1) ≤ pattern.length := by
      split
      next hnegate =>
        have : rest ≠ [] := by
          rintro rfl
          cases hnegate
        have := List.length_pos_of_ne_nil this
        omega
      next => omega
    obtain ⟨j, hloop, hj, hlow, hhigh⟩ := classLoop_eq pattern c (pattern.length + 1) false
      (by omega) hbound.2 (by omega)
    rw [hstart] at hloop hj
    refine ⟨j + 1, ?_, hj, by omega, hhigh⟩
    rw [hloop, Bool.false_or]
    rfl
  by_cases hescape : b = 92
  · simp only [hescape, if_true, true_and]
    cases rest with
    | nil =>
      have hlast : ¬ pi + 1 < pattern.length := by simp [hlength]
      rw [if_neg hlast]
      exact ⟨pi + 1, rfl, hrest, by omega, by omega⟩
    | cons literal rest =>
      obtain ⟨hget', hrest', hlength'⟩ := drop_eq_cons hrest
      have hmore : pi + 1 < pattern.length := by omega
      rw [if_pos hmore, hget']
      exact ⟨pi + 2, rfl, hrest', by omega, by omega⟩
  · simp only [hany, hclass, hescape, if_false, false_and]
    exact ⟨pi + 1, rfl, hrest, by omega, by omega⟩

/-! ## The two indices -/

theorem skipStars_spec (pattern : Bytes) {pi : ℕ} (hpi : pi ≤ pattern.length) :
    pi ≤ skipStars pattern pi ∧ skipStars pattern pi ≤ pattern.length ∧
      ∀ w, Fits (none :: tokens (pattern.drop (skipStars pattern pi))) w ↔
        Fits (none :: tokens (pattern.drop pi)) w := by
  fun_induction skipStars pattern pi with
  | case1 pi hstar ih =>
    obtain ⟨hlt, hget⟩ := List.getElem?_eq_some_iff.mp hstar
    obtain ⟨hlow, hhigh, hfits⟩ := ih hlt
    refine ⟨by omega, hhigh, fun w => ?_⟩
    rw [hfits, List.drop_eq_getElem_cons hlt, hget, tokens_star, fits_star_star_iff]
  | case2 pi hstar => exact ⟨le_rfl, hpi, fun w => Iff.rfl⟩

section Loop

variable {pattern text : Bytes} {pi ti : ℕ} {star : Option (ℕ × ℕ)}

/-- What holds whenever the loop is entered: the indices are within bounds, and single-byte
tokens have read on from the way back to them. -/
structure Sound (pattern text : Bytes) (pi ti : ℕ) (star : Option (ℕ × ℕ)) : Prop where
  pi_le : pi ≤ pattern.length
  ti_le : ti ≤ text.length
  attempt : ∀ afterStar starEnd, star = some (afterStar, starEnd) →
    afterStar ≤ pi ∧ starEnd ≤ ti ∧
      Attempt (tokens (pattern.drop afterStar)) (text.drop starEnd) (tokens (pattern.drop pi))
        (text.drop ti)

/-- What the loop is to answer: with a way back, whether the rest fits with a star before it. -/
def Answer (pattern text : Bytes) (pi ti : ℕ) : Option (ℕ × ℕ) → Prop
  | none => Fits (tokens (pattern.drop pi)) (text.drop ti)
  | some (afterStar, starEnd) =>
    Fits (none :: tokens (pattern.drop afterStar)) (text.drop starEnd)

/-- What is left to do: a later star counts for more than a longer one, and that for more than
reading on. -/
def work (pattern text : Bytes) (ti : ℕ) (star : Option (ℕ × ℕ)) : ℕ :=
  (pattern.length - star.elim 0 (·.1)) * (text.length + 1) ^ 2 +
    (text.length - star.elim 0 (·.2)) * (text.length + 1) + (text.length - ti)

theorem work_lt_of_star {next : ℕ} (hnext : star.elim 0 (·.1) < next)
    (hle : next ≤ pattern.length) (ti ti' : ℕ) :
    work pattern text ti' (some (next, ti')) < work pattern text ti star := by
  simp only [work, Option.elim_some]
  generalize star.elim 0 (·.1) = before at *
  generalize text.length = n
  have hstar : (pattern.length - next + 1) * (n + 1) ^ 2 ≤ (pattern.length - before) * (n + 1) ^ 2 :=
    Nat.mul_le_mul_right _ (by omega)
  have hrest : (n - ti') * (n + 1) ≤ n * (n + 1) := Nat.mul_le_mul_right _ (by omega)
  have hsquare : (n + 1) ^ 2 = n * (n + 1) + n + 1 := by ring
  rw [Nat.add_mul, Nat.one_mul] at hstar
  omega

theorem work_lt_of_retry {afterStar starEnd : ℕ} (hend : starEnd < text.length) (ti ti' : ℕ) :
    work pattern text ti' (some (afterStar, starEnd + 1)) <
      work pattern text ti (some (afterStar, starEnd)) := by
  simp only [work, Option.elim_some]
  generalize text.length = n at *
  have hlonger : (n - (starEnd + 1) + 1) * (n + 1) ≤ (n - starEnd) * (n + 1) :=
    Nat.mul_le_mul_right _ (by omega)
  rw [Nat.add_mul, Nat.one_mul] at hlonger
  omega

/-- **A run of stars moves the way back.** -/
theorem Sound.push (sound : Sound pattern text pi ti star) (hstar : pattern[pi]? = some 42) :
    Sound pattern text (skipStars pattern pi) ti (some (skipStars pattern pi, ti)) ∧
      (Answer pattern text pi ti star ↔
        Answer pattern text (skipStars pattern pi) ti (some (skipStars pattern pi, ti))) ∧
      pi < skipStars pattern pi := by
  obtain ⟨hlt, hget⟩ := List.getElem?_eq_some_iff.mp hstar
  have htokens : tokens (pattern.drop pi) = none :: tokens (pattern.drop (pi + 1)) := by
    rw [List.drop_eq_getElem_cons hlt, hget, tokens_star]
  have hskip : skipStars pattern pi = skipStars pattern (pi + 1) := by
    rw [skipStars, if_pos hstar]
  obtain ⟨hlow, hhigh, hfits⟩ := skipStars_spec pattern (Nat.succ_le_of_lt hlt)
  rw [hskip]
  refine ⟨⟨hhigh, sound.ti_le, ?_⟩, ?_, hlow⟩
  · rintro _ _ ⟨⟩
    exact ⟨le_rfl, le_rfl, .refl _ _⟩
  · rw [Answer, hfits, ← htokens]
    cases star with
    | none => exact Iff.rfl
    | some back =>
      obtain ⟨-, -, attempt⟩ := sound.attempt _ _ rfl
      rw [htokens] at attempt ⊢
      exact attempt.star

/-- **A token that accepts reads on.** -/
theorem Sound.read (sound : Sound pattern text pi ti star) {rest : Bytes} {b : UInt8}
    (hb : b ≠ 42) (hdrop : pattern.drop pi = b :: rest) (hti : ti < text.length) {next : ℕ}
    (hnext : pattern.drop next = (firstToken b rest).2) (hlow : pi < next)
    (hhigh : next ≤ pattern.length) (accepted : (firstToken b rest).1 text[ti] = true) :
    Sound pattern text next (ti + 1) star ∧
      (Answer pattern text pi ti star ↔ Answer pattern text next (ti + 1) star) := by
  have htokens : tokens (pattern.drop pi) =
      some (firstToken b rest).1 :: tokens (pattern.drop next) := by
    rw [hdrop, tokens_cons hb, hnext]
  have htext : text.drop ti = text[ti] :: text.drop (ti + 1) := List.drop_eq_getElem_cons hti
  refine ⟨⟨hhigh, hti, fun afterStar starEnd hsome => ?_⟩, ?_⟩
  · obtain ⟨hpi, hend, attempt⟩ := sound.attempt _ _ hsome
    rw [htokens, htext] at attempt
    exact ⟨by omega, by omega, attempt.read accepted⟩
  · cases star with
    | none => rw [Answer, Answer, htokens, htext, fits_one_cons_iff, and_iff_right accepted]
    | some back => exact Iff.rfl

/-- **A mismatch lets the star at the way back take one byte more.** -/
theorem Sound.retry {afterStar starEnd : ℕ}
    (sound : Sound pattern text pi ti (some (afterStar, starEnd))) (hti : ti < text.length)
    (misfit : ¬ Fits (tokens (pattern.drop pi)) (text.drop ti)) :
    Sound pattern text afterStar (starEnd + 1) (some (afterStar, starEnd + 1)) ∧
      (Answer pattern text pi ti (some (afterStar, starEnd)) ↔
        Answer pattern text afterStar (starEnd + 1) (some (afterStar, starEnd + 1))) := by
  obtain ⟨hpi, hend, attempt⟩ := sound.attempt _ _ rfl
  have hlt : starEnd < text.length := by omega
  refine ⟨⟨hpi.trans sound.pi_le, hlt, ?_⟩, ?_⟩
  · rintro _ _ ⟨⟩
    exact ⟨le_rfl, le_rfl, .refl _ _⟩
  · rw [List.drop_eq_getElem_cons hlt] at attempt
    rw [Answer, Answer, List.drop_eq_getElem_cons hlt]
    exact attempt.mismatch misfit

/-- At the end of the text, what is left of the pattern must be stars. -/
theorem Sound.ended (sound : Sound pattern text pi ti star) (hti : ¬ ti < text.length) :
    Answer pattern text pi ti star ↔ (pattern.drop pi).all (· == 42) = true := by
  have hnil : text.drop ti = [] := List.drop_eq_nil_of_le (by omega)
  rw [← tokens_all_star, ← fits_nil_word_iff]
  cases star with
  | none => rw [Answer, hnil]
  | some back =>
    obtain ⟨-, -, attempt⟩ := sound.attempt _ _ rfl
    rw [hnil] at attempt
    exact attempt.ended

/-- **The loop answers, and what it answers is right.** -/
theorem globLoop_eq (steps : ℕ) (sound : Sound pattern text pi ti star)
    (hsteps : work pattern text ti star < steps) :
    ∃ b, globLoop pattern text steps pi ti star = some b ∧
      (b = true ↔ Answer pattern text pi ti star) := by
  induction steps generalizing pi ti star with
  | zero => omega
  | succ steps ih =>
    unfold globLoop
    split
    next hti =>
      split
      next hstar =>
        obtain ⟨soundNext, hanswer, hlow⟩ := sound.push hstar
        simp only
        split
        next hend =>
          refine ⟨true, rfl, ?_⟩
          rw [hanswer, hend, Answer, List.drop_length, tokens_nil]
          exact iff_of_true rfl fits_last_star
        next =>
          have hback : star.elim 0 (·.1) ≤ pi := by
            cases star with
            | none => exact Nat.zero_le _
            | some back => exact (sound.attempt _ _ rfl).1
          have hless := @work_lt_of_star _ text _ _ (hback.trans_lt hlow) soundNext.pi_le ti ti
          obtain ⟨b, hloop, hb⟩ := ih soundNext (by omega)
          exact ⟨b, hloop, hb.trans hanswer.symm⟩
      next hstar =>
        have hback (misfit : ¬ Fits (tokens (pattern.drop pi)) (text.drop ti)) :
            ∃ b, (star.elim (some false) fun back =>
                globLoop pattern text steps back.1 (back.2 + 1) (some (back.1, back.2 + 1)))
                  = some b ∧ (b = true ↔ Answer pattern text pi ti star) := by
          cases star with
          | none => exact ⟨false, rfl, iff_of_false Bool.false_ne_true misfit⟩
          | some back =>
            obtain ⟨soundNext, hanswer⟩ := sound.retry hti misfit
            have hless : work pattern text (back.2 + 1) (some (back.1, back.2 + 1)) <
                work pattern text ti (some back) :=
              work_lt_of_retry (Nat.lt_of_succ_le soundNext.ti_le) ti (back.2 + 1)
            obtain ⟨b, hloop, hb⟩ := ih soundNext (by omega)
            exact ⟨b, hloop, hb.trans hanswer.symm⟩
        simp only [List.getElem?_eq_getElem hti, Option.bind_some]
        have htext : text.drop ti = text[ti] :: text.drop (ti + 1) := List.drop_eq_getElem_cons hti
        by_cases hpi : pi < pattern.length
        · have hdrop := List.drop_eq_getElem_cons hpi
          have hb : pattern[pi] ≠ 42 := fun h => hstar (by rw [List.getElem?_eq_getElem hpi, h])
          obtain ⟨next, htoken, hnext, hlow, hhigh⟩ := matchToken_eq hdrop text[ti]
          simp only [hpi, if_true, htoken, Option.bind_some]
          split
          next accepted =>
            obtain ⟨soundNext, hanswer⟩ := sound.read hb hdrop hti hnext hlow hhigh accepted
            have hless : work pattern text (ti + 1) star < work pattern text ti star := by
              rw [work, work]
              omega
            obtain ⟨b, hloop, hb⟩ := ih soundNext (by omega)
            exact ⟨b, hloop, hb.trans hanswer.symm⟩
          next refused =>
            refine hback ?_
            rw [hdrop, tokens_cons hb, htext, fits_one_cons_iff]
            exact fun fits => refused fits.1
        · simp only [hpi, if_false, Option.bind_some, Bool.false_eq_true]
          refine hback ?_
          rw [List.drop_eq_nil_of_le (not_lt.mp hpi), htext, tokens_nil, fits_nil_iff]
          exact List.cons_ne_nil _ _
    next hti =>
      rw [if_pos sound.pi_le]
      exact ⟨_, rfl, (sound.ended hti).symm⟩

end Loop

/-- **The glob matcher is total and right.**  For every pattern and text it answers, without an
access out of bounds and within the given number of steps; an empty text fits the empty pattern
only, and any other text what the tokens of the pattern say. -/
theorem globMatch_eq (pattern text : Bytes) :
    ∃ b, globMatch pattern text = some b ∧
      (b = true ↔ if text = [] then pattern = [] else Fits (tokens pattern) text) := by
  rw [globMatch]
  cases text with
  | nil => exact ⟨pattern.isEmpty, rfl, by simp⟩
  | cons c text =>
    have sound : Sound pattern (c :: text) 0 0 none :=
      ⟨Nat.zero_le _, Nat.zero_le _, fun _ _ h => (by cases h)⟩
    obtain ⟨b, hloop, hb⟩ := globLoop_eq (enough pattern.length (c :: text).length) sound
      (by
        rw [work, enough]
        generalize (c :: text).length = n
        simp only [Option.elim_none, Nat.sub_zero]
        nlinarith)
    exact ⟨b, hloop, by simpa [Answer] using hb⟩

end Ephpm.Kv.Glob
