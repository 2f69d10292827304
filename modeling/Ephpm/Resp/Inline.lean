import Mathlib.Tactic.IntervalCases
import Ephpm.Lib.Parsing
import Ephpm.Kv.Entry

/-!
# Inline commands

A request that does not start with `*` is a line of arguments, split by the quoting rules of
`sdssplitargs` (`split_inline_args` in `resp/parse.rs`).  The splitter is an automaton over an
index into the line, with lookahead of up to three bytes.

The model keeps the index.  An access out of bounds is a panic, here `none`, and so is a loop that
does not end within its steps; a line that is refused is `some none`.  Three things are shown:
the splitter always answers, it refuses a line that ends inside a quotation (`balanced`), and it
inverts the quoting that writes **every byte as an escape** (`inlineForm`).
-/

namespace Ephpm.Resp

open Lib
open Ephpm.Kv (Bytes)

/-! ## The code -/

/-- `isspace()` in the C locale. -/
def isSpace (b : UInt8) : Bool :=
  b = 32 ∨ b = 9 ∨ b = 10 ∨ b = 11 ∨ b = 12 ∨ b = 13

/-- The value of a hexadecimal digit. -/
def hexVal (b : UInt8) : Option UInt8 :=
  if 48 ≤ b ∧ b ≤ 57 then some (b - 48)
  else if 97 ≤ b ∧ b ≤ 102 then some (b - 97 + 10)
  else if 65 ≤ b ∧ b ≤ 70 then some (b - 65 + 10)
  else none

/-- The flags `in_double` and `in_single`, of which at most one is set. -/
inductive Quote where
  | none
  | double
  | single
deriving DecidableEq, Repr

/-- What one turn of the loop over an argument does. -/
inductive ArgStep where
  | more (p : ℕ) (quote : Quote) (current : Bytes)
  | ended (p : ℕ)
  | refused
deriving DecidableEq, Repr

/-- The byte that `\b` stands for within double quotes. -/
def unescape (b : UInt8) : UInt8 :=
  if b = 110 then 10
  else if b = 114 then 13
  else if b = 116 then 9
  else if b = 98 then 8
  else if b = 97 then 7
  else b

/-- A closing quote at `p` must end the argument. -/
def closeAt (input : Bytes) (p : ℕ) : ArgStep :=
  if (input[p + 1]?).any (!isSpace ·) then .refused else .ended (p + 1)

/-- A backslash and an `x` at `p`: two hexadecimal digits, or just an `x`. -/
def hexEscape (input : Bytes) (p : ℕ) (current : Bytes) : ArgStep :=
  match (input[p + 2]?).bind hexVal, (input[p + 3]?).bind hexVal with
  | some high, some low => .more (p + 4) .double (current ++ [high * 16 + low])
  | _, _ => .more (p + 2) .double (current ++ [120])

/-- One turn of the loop over an argument, at index `p`. -/
def argStep (input : Bytes) (p : ℕ) (quote : Quote) (current : Bytes) : Option ArgStep :=
  match quote, input[p]? with
  | .double, none => some .refused
  | .double, some c =>
    if c = 92 ∧ input[p + 1]? = some 120 then some (hexEscape input p current)
    else if c = 92 ∧ p + 1 < input.length then
      (input[p + 1]?).map fun escaped => .more (p + 2) .double (current ++ [unescape escaped])
    else if c = 34 then some (closeAt input p)
    else some (.more (p + 1) .double (current ++ [c]))
  | .single, none => some .refused
  | .single, some c =>
    if c = 92 ∧ input[p + 1]? = some 39 then some (.more (p + 2) .single (current ++ [39]))
    else if c = 39 then some (closeAt input p)
    else some (.more (p + 1) .single (current ++ [c]))
  | .none, none => some (.ended p)
  | .none, some c =>
    if isSpace c then some (.ended p)
    else if c = 34 then some (.more (p + 1) .double current)
    else if c = 39 then some (.more (p + 1) .single current)
    else some (.more (p + 1) .none (current ++ [c]))

/-- The loop over one argument: the argument and the index after it. -/
def argLoop (input : Bytes) : ℕ → ℕ → Quote → Bytes → Option (Option (Bytes × ℕ))
  | 0, _, _, _ => none
  | steps + 1, p, quote, current =>
    match argStep input p quote current with
    | none => none
    | some (.more p quote current) => argLoop input steps p quote current
    | some (.ended p) => some (some (current, p))
    | some .refused => some none

/-- The index of the first byte from `p` on that is not white space. -/
def skipSpaces (input : Bytes) (p : ℕ) : ℕ :=
  if (input[p]?).any isSpace then skipSpaces input (p + 1) else p
termination_by input.length - p
decreasing_by
  rename_i hspace
  have hlt : p < input.length := by
    by_contra hge
    simp [List.getElem?_eq_none (not_lt.mp hge)] at hspace
  omega

/-- The loop over the arguments. -/
def splitLoop (input : Bytes) : ℕ → ℕ → List Bytes → Option (Option (List Bytes))
  | 0, _, _ => none
  | steps + 1, p, args =>
    let p := skipSpaces input p
    if p = input.length then some (some args)
    else
      match argLoop input (input.length + 1) p .none [] with
      | none => none
      | some none => some none
      | some (some (arg, p)) => splitLoop input steps p (args ++ [arg])

/-- `split_inline_args`; `none` if the fuel runs out. -/
def splitInlineArgs (input : Bytes) : Option (Option (List Bytes)) :=
  splitLoop input (input.length + 1) 0 []

/-! ## Balanced quotes -/

/-- Whether every quotation that is opened is closed, from a point inside of `quote` on.  In
double quotes a backslash hides the byte after it, in single quotes it hides a quote only. -/
def balanced : Quote → Bytes → Bool
  | .none, [] => true
  | .double, [] => false
  | .single, [] => false
  | .none, b :: rest =>
    balanced (if b = 34 then .double else if b = 39 then .single else .none) rest
  | .double, [b] => b = 34
  | .double, b :: c :: rest =>
    if b = 92 then balanced .double rest
    else balanced (if b = 34 then .none else .double) (c :: rest)
  | .single, [b] => b = 39
  | .single, b :: c :: rest =>
    if b = 92 ∧ c = 39 then balanced .single rest
    else balanced (if b = 39 then .none else .single) (c :: rest)

theorem balanced_double_byte {b : UInt8} (hescape : b ≠ 92) (hclose : b ≠ 34) (rest : Bytes) :
    balanced .double (b :: rest) = balanced .double rest := by
  cases rest <;> simp [balanced, hescape, hclose]

theorem balanced_double_escape (b : UInt8) (rest : Bytes) :
    balanced .double (92 :: b :: rest) = balanced .double rest := by
  simp [balanced]

theorem balanced_double_close (rest : Bytes) :
    balanced .double (34 :: rest) = balanced .none rest := by
  cases rest <;> simp [balanced]

theorem balanced_single_byte {b : UInt8} {rest : Bytes} (hescape : b = 92 → rest.head? ≠ some 39)
    (hclose : b ≠ 39) : balanced .single (b :: rest) = balanced .single rest := by
  cases rest with
  | nil => simp [balanced, hclose]
  | cons c rest =>
    have hescape' : ¬ (b = 92 ∧ c = 39) := fun h => hescape h.1 (by rw [h.2, List.head?_cons])
    simp [balanced, hescape', hclose]

theorem balanced_single_close (rest : Bytes) :
    balanced .single (39 :: rest) = balanced .none rest := by
  cases rest <;> simp [balanced]

/-! ## Every line is answered -/

/-- What one turn keeps: it goes on within the line, past what it has looked at, and the quotes
from there on are balanced just when they were. -/
def ArgStep.Fine (input : Bytes) (p : ℕ) (quote : Quote) : ArgStep → Prop
  | .more p' quote' _ => p < p' ∧ p' ≤ input.length ∧
      balanced quote (input.drop p) = balanced quote' (input.drop p')
  | .ended p' => p ≤ p' ∧ p' ≤ input.length ∧
      balanced quote (input.drop p) = balanced .none (input.drop p')
  | .refused => True

section Fine

variable {input rest : Bytes} {p : ℕ} {current : Bytes}

theorem closeAt_fine {quote : Quote} {c : UInt8} (hdrop : input.drop p = c :: rest)
    (hclose : balanced quote (c :: rest) = balanced .none rest) :
    (closeAt input p).Fine input p quote := by
  obtain ⟨-, hrest, hlength⟩ := drop_eq_cons hdrop
  unfold closeAt
  split
  · trivial
  · exact ⟨by omega, by omega, by rw [hdrop, hrest, hclose]⟩

theorem hexVal_ne {b v : UInt8} (h : hexVal b = some v) : b ≠ 92 ∧ b ≠ 34 := by
  constructor <;> rintro rfl <;> cases h

theorem hexEscape_fine (hdrop : input.drop p = 92 :: 120 :: rest) :
    (hexEscape input p current).Fine input p .double := by
  obtain ⟨-, hx, -⟩ := drop_eq_cons hdrop
  obtain ⟨-, hrest, hlength⟩ := drop_eq_cons hx
  have hbalanced : balanced .double (input.drop p) = balanced .double rest := by
    rw [hdrop, balanced_double_escape]
  unfold hexEscape
  split
  next high low hhigh hlow =>
    obtain ⟨h, hh, hval⟩ := Option.bind_eq_some_iff.mp hhigh
    obtain ⟨l, hl, lval⟩ := Option.bind_eq_some_iff.mp hlow
    obtain ⟨hlt, rfl⟩ := List.getElem?_eq_some_iff.mp hh
    obtain ⟨hlt', rfl⟩ := List.getElem?_eq_some_iff.mp hl
    refine ⟨by omega, hlt', ?_⟩
    rw [hbalanced, ← hrest, List.drop_eq_getElem_cons hlt, List.drop_eq_getElem_cons hlt',
      balanced_double_byte (hexVal_ne hval).1 (hexVal_ne hval).2,
      balanced_double_byte (hexVal_ne lval).1 (hexVal_ne lval).2]
  next => exact ⟨by omega, by omega, by rw [hbalanced, hrest]⟩

/-- **One turn never leaves the line.** -/
theorem argStep_fine (quote : Quote) (hp : p ≤ input.length) :
    ∃ step, argStep input p quote current = some step ∧ step.Fine input p quote := by
  unfold argStep
  cases hdrop : input.drop p with
  | nil =>
    have hend : p = input.length := le_antisymm hp (List.drop_eq_nil_iff.mp hdrop)
    have hget : input[p]? = none := List.getElem?_eq_none (by omega)
    rw [hget]
    cases quote with
    | none => exact ⟨_, rfl, le_rfl, hp, rfl⟩
    | double => exact ⟨_, rfl, trivial⟩
    | single => exact ⟨_, rfl, trivial⟩
  | cons c rest =>
    obtain ⟨hget, hrest, hlength⟩ := drop_eq_cons hdrop
    have hnext : input[p + 1]? = rest.head? := by rw [← hrest, List.head?_drop]
    have hone (quote' : Quote) (current : Bytes)
        (hsame : balanced quote (c :: rest) = balanced quote' rest) :
        (ArgStep.more (p + 1) quote' current).Fine input p quote :=
      ⟨by omega, by omega, by rw [hdrop, hrest, hsame]⟩
    rw [hget]
    cases quote with
    | none =>
      simp only
      split
      · exact ⟨_, rfl, le_rfl, hp, rfl⟩
      split
      next hquote => exact ⟨_, rfl, hone _ _ (by simp [balanced, hquote])⟩
      split
      next hdouble hquote => exact ⟨_, rfl, hone _ _ (by simp [balanced, hquote])⟩
      next hdouble hsingle => exact ⟨_, rfl, hone _ _ (by simp [balanced, hdouble, hsingle])⟩
    | double =>
      simp only
      split
      next hx =>
        obtain ⟨rfl, hx⟩ := hx
        cases rest with
        | nil => cases hnext.symm.trans hx
        | cons d rest =>
          obtain rfl : d = 120 := Option.some.inj (hnext.symm.trans hx)
          exact ⟨_, rfl, hexEscape_fine hdrop⟩
      next hnotX =>
        split
        next hescape =>
          obtain ⟨rfl, hlt⟩ := hescape
          cases rest with
          | nil => simp [hlength] at hlt
          | cons d rest =>
            obtain ⟨hget', hrest', hlength'⟩ := drop_eq_cons hrest
            rw [hget', Option.map_some]
            refine ⟨_, rfl, by omega, by omega, ?_⟩
            rw [hdrop, balanced_double_escape, hrest']
        next hlast =>
          split
          next hquote => exact ⟨_, rfl, closeAt_fine hdrop (by rw [hquote, balanced_double_close])⟩
          next hbyte =>
            refine ⟨_, rfl, hone _ _ ?_⟩
            by_cases hbackslash : c = 92
            · -- A lone backslash at the end of the line.
              have hnil : rest = [] := by
                by_contra hne
                have := List.length_pos_of_ne_nil hne
                exact hlast ⟨hbackslash, by omega⟩
              subst hnil
              simp [balanced, hbyte]
            · exact balanced_double_byte hbackslash hbyte rest
    | single =>
      simp only
      split
      next hescape =>
        obtain ⟨rfl, hquote⟩ := hescape
        cases rest with
        | nil => cases hnext.symm.trans hquote
        | cons d rest =>
          obtain rfl : d = 39 := Option.some.inj (hnext.symm.trans hquote)
          obtain ⟨-, hrest', hlength'⟩ := drop_eq_cons hrest
          refine ⟨_, rfl, by omega, by omega, ?_⟩
          rw [hdrop, hrest']
          simp [balanced]
      next hescape =>
        split
        next hquote => exact ⟨_, rfl, closeAt_fine hdrop (by rw [hquote, balanced_single_close])⟩
        next hbyte =>
          refine ⟨_, rfl, hone _ _ (balanced_single_byte (fun hb hhead => ?_) hbyte)⟩
          exact hescape ⟨hb, hnext.trans hhead⟩

/-- **The loop over an argument ends**, within the line. -/
theorem argLoop_fine (steps : ℕ) (quote : Quote) (current : Bytes) (hp : p ≤ input.length)
    (hsteps : input.length - p < steps) :
    ∃ out, argLoop input steps p quote current = some out ∧
      ∀ arg p', out = some (arg, p') → p ≤ p' ∧ p' ≤ input.length ∧
        balanced quote (input.drop p) = balanced .none (input.drop p') := by
  induction steps generalizing p quote current with
  | zero => omega
  | succ steps ih =>
    obtain ⟨step, hstep, fine⟩ := @argStep_fine _ _ current quote hp
    rw [argLoop, hstep]
    cases step with
    | more p₁ quote₁ current₁ =>
      obtain ⟨hlow, hhigh, hsame⟩ := fine
      obtain ⟨out, hloop, hout⟩ := ih quote₁ current₁ hhigh (by omega)
      refine ⟨out, hloop, fun arg p' h => ?_⟩
      obtain ⟨hlow', hhigh', hsame'⟩ := hout arg p' h
      exact ⟨by omega, hhigh', hsame.trans hsame'⟩
    | ended p₁ =>
      refine ⟨_, rfl, fun arg p' h => ?_⟩
      obtain ⟨-, rfl⟩ := Prod.mk.inj (Option.some.inj h)
      exact fine
    | refused => exact ⟨_, rfl, fun arg p' h => (by cases h)⟩

/-- An argument that starts with something takes it. -/
theorem argLoop_progress {steps p' : ℕ} {arg : Bytes} {c : UInt8} (hget : input[p]? = some c)
    (hc : isSpace c = false) (hsteps : input.length - p < steps)
    (hloop : argLoop input steps p .none [] = some (some (arg, p'))) : p < p' := by
  obtain ⟨hlt, -⟩ := List.getElem?_eq_some_iff.mp hget
  have hstep : ∃ quote current,
      argStep input p .none [] = some (.more (p + 1) quote current) := by
    simp only [argStep, hget, hc, Bool.false_eq_true, if_false]
    split
    · exact ⟨_, _, rfl⟩
    split
    · exact ⟨_, _, rfl⟩
    · exact ⟨_, _, rfl⟩
  obtain ⟨quote, current, hstep⟩ := hstep
  cases steps with
  | zero => omega
  | succ steps =>
    rw [argLoop, hstep] at hloop
    obtain ⟨out, hout, hfine⟩ := argLoop_fine steps quote current (Nat.succ_le_of_lt hlt) (by omega)
    exact (hfine arg p' (Option.some.inj (hout.symm.trans hloop))).1

end Fine

theorem skipSpaces_spec {input : Bytes} {p : ℕ} (hp : p ≤ input.length) :
    p ≤ skipSpaces input p ∧ skipSpaces input p ≤ input.length ∧
      (input[skipSpaces input p]?).all (!isSpace ·) = true ∧
      balanced .none (input.drop p) = balanced .none (input.drop (skipSpaces input p)) := by
  fun_induction skipSpaces input p with
  | case1 p hspace ih =>
    cases hdrop : input.drop p with
    | nil => simp [List.getElem?_eq_none (List.drop_eq_nil_iff.mp hdrop)] at hspace
    | cons c rest =>
      obtain ⟨hget, hrest, hlength⟩ := drop_eq_cons hdrop
      obtain ⟨hlow, hhigh, hnonspace, hsame⟩ := ih (by omega)
      refine ⟨by omega, hhigh, hnonspace, ?_⟩
      rw [hget, Option.any_some] at hspace
      have hquote : c ≠ 34 ∧ c ≠ 39 := by
        constructor <;> rintro rfl <;> exact absurd hspace (by decide)
      rw [← hsame, hrest]
      simp [balanced, hquote]
  | case2 p hspace =>
    refine ⟨le_rfl, hp, ?_, rfl⟩
    cases hget : input[p]? with
    | none => rfl
    | some c => simpa [hget] using hspace

/-- **The splitter answers every line**, and refuses it if a quote is left open. -/
theorem splitLoop_answers {input : Bytes} {steps p : ℕ} (args : List Bytes)
    (hp : p ≤ input.length) (hsteps : input.length - p < steps) :
    ∃ out, splitLoop input steps p args = some out ∧
      (out ≠ none → balanced .none (input.drop p) = true) := by
  induction steps generalizing p args with
  | zero => omega
  | succ steps ih =>
    obtain ⟨hlow, hhigh, hnonspace, hsame⟩ := skipSpaces_spec hp
    rw [splitLoop, hsame]
    generalize skipSpaces input p = q at *
    split
    next hend =>
      refine ⟨_, rfl, fun _ => ?_⟩
      rw [hend, List.drop_length, balanced]
    next hmore =>
      have hlt : q < input.length := by omega
      obtain ⟨out, hloop, hfine⟩ := argLoop_fine (input.length + 1) .none [] hhigh (by omega)
      rw [hloop]
      rcases out with _ | ⟨arg, p'⟩
      · exact ⟨_, rfl, fun h => absurd rfl h⟩
      · obtain ⟨-, hhigh', hsame'⟩ := hfine arg p' rfl
        rw [List.getElem?_eq_getElem hlt, Option.all_some] at hnonspace
        have hprogress := argLoop_progress (List.getElem?_eq_getElem hlt)
          (by simpa using hnonspace) (by omega) hloop
        obtain ⟨out, hsplit, hout⟩ := ih (args ++ [arg]) hhigh' (by omega)
        exact ⟨out, hsplit, fun h => hsame'.trans (hout h)⟩

/-! ## Quoting every byte -/

/-- A hexadecimal digit, in lower or upper case. -/
def hexDigit (upper : Bool) (d : UInt8) : UInt8 :=
  if d < 10 then d + 48 else if upper then d + 55 else d + 87

/-- A byte as an escape of four bytes. -/
def escapeByte (upper : Bool) (b : UInt8) : Bytes :=
  [92, 120, hexDigit upper (b / 16), hexDigit upper (b % 16)]

/-- An argument in double quotes, every byte escaped. -/
def quoteArg (upper : Bool) (arg : Bytes) : Bytes :=
  34 :: (arg.flatMap (escapeByte upper) ++ [34])

/-- The arguments of a command on one line. -/
def inlineForm (upper : Bool) (args : List Bytes) : Bytes :=
  [32].intercalate (args.map (quoteArg upper))

theorem hexVal_hexDigit (upper : Bool) {d : UInt8} (hd : d < 16) :
    hexVal (hexDigit upper d) = some d := by
  obtain ⟨n, hn, rfl⟩ : ∃ n < 16, d = UInt8.ofNat n :=
    ⟨d.toNat, UInt8.lt_iff_toNat_lt.mp hd, by simp⟩
  cases upper <;> interval_cases n <;> rfl

theorem hexVal_escape (upper : Bool) (b : UInt8) :
    hexVal (hexDigit upper (b / 16)) = some (b / 16) ∧
      hexVal (hexDigit upper (b % 16)) = some (b % 16) ∧ b / 16 * 16 + b % 16 = b := by
  have hb : b.toNat < 256 := b.toNat_lt
  refine ⟨hexVal_hexDigit upper ?_, hexVal_hexDigit upper ?_, ?_⟩
  · rw [UInt8.lt_iff_toNat_lt, UInt8.toNat_div]
    change b.toNat / 16 < 16
    omega
  · rw [UInt8.lt_iff_toNat_lt, UInt8.toNat_mod]
    change b.toNat % 16 < 16
    omega
  · rw [← UInt8.toNat_inj, UInt8.toNat_add, UInt8.toNat_mul, UInt8.toNat_div, UInt8.toNat_mod]
    change (b.toNat / 16 * 16 % 256 + b.toNat % 16) % 256 = b.toNat
    omega

section Quoted

variable {input rest : Bytes} {p : ℕ} (upper : Bool)

/-- **An escaped argument is read back byte by byte.** -/
theorem argLoop_escaped (arg : Bytes) (hend : rest.head?.all isSpace = true) {steps : ℕ}
    (current : Bytes)
    (hdrop : input.drop p = arg.flatMap (escapeByte upper) ++ 34 :: rest)
    (hsteps : input.length - p < steps) :
    ∃ p', argLoop input steps p .double current = some (some (current ++ arg, p')) ∧
      input.drop p' = rest ∧ p < p' := by
  induction arg generalizing p steps current with
  | nil =>
    obtain ⟨hget, hrest, hlength⟩ := drop_eq_cons hdrop
    have hnext : input[p + 1]? = rest.head? := by rw [← hrest, List.head?_drop]
    have hclose : closeAt input p = .ended (p + 1) := by
      rw [closeAt, hnext]
      cases hhead : rest.head? with
      | none => rfl
      | some c => simpa [hhead] using hend
    obtain ⟨steps, rfl⟩ : ∃ n, steps = n + 1 := Nat.exists_eq_add_one.mpr (by omega)
    refine ⟨p + 1, ?_, hrest, by omega⟩
    simp [argLoop, argStep, hget, hclose]
  | cons b arg ih =>
    obtain ⟨hget, hrest, hlength⟩ := drop_eq_cons hdrop
    obtain ⟨hget', hrest', -⟩ := drop_eq_cons hrest
    obtain ⟨hhigh, hrest₂, -⟩ := drop_eq_cons hrest'
    obtain ⟨hlow, hrest₃, -⟩ := drop_eq_cons hrest₂
    obtain ⟨hhighVal, hlowVal, hbyte⟩ := hexVal_escape upper b
    obtain ⟨steps, rfl⟩ : ∃ n, steps = n + 1 := Nat.exists_eq_add_one.mpr (by omega)
    have hstep : argStep input p .double current =
        some (.more (p + 4) .double (current ++ [b])) := by
      simp [argStep, hget, hget', hexEscape, hhigh, hlow, hhighVal, hlowVal, hbyte]
    obtain ⟨p', hloop, hp', hlt⟩ := @ih (p + 4) steps (current ++ [b]) hrest₃
      (by omega)
    refine ⟨p', ?_, hp', by omega⟩
    rw [argLoop, hstep]
    simpa using hloop

theorem skipSpaces_eq_self {c : UInt8} (hget : input[p]? = some c) (hc : isSpace c = false) :
    skipSpaces input p = p := by
  rw [skipSpaces, hget, Option.any_some, hc, if_neg Bool.false_ne_true]

/-- A quoted argument, with or without a space before it, is split off. -/
theorem splitLoop_arg (arg : Bytes) (hend : rest.head?.all isSpace = true) (lead : Bytes)
    (hlead : lead = [] ∨ lead = [32]) {steps : ℕ} (args : List Bytes)
    (hdrop : input.drop p = lead ++ quoteArg upper arg ++ rest) :
    ∃ p', splitLoop input (steps + 1) p args = splitLoop input steps p' (args ++ [arg]) ∧
      input.drop p' = rest ∧ p < p' ∧ p' ≤ input.length := by
  obtain ⟨q, hq, hskip, hple⟩ : ∃ q, input.drop q = quoteArg upper arg ++ rest ∧
      skipSpaces input p = q ∧ p ≤ q := by
    rcases hlead with rfl | rfl
    · have hquote : input.drop p = 34 :: (arg.flatMap (escapeByte upper) ++ [34] ++ rest) := hdrop
      obtain ⟨hget, -, -⟩ := drop_eq_cons hquote
      exact ⟨p, hdrop, skipSpaces_eq_self hget rfl, le_rfl⟩
    · have hblank : input.drop p = 32 :: (quoteArg upper arg ++ rest) := hdrop
      obtain ⟨hspace, hbehind, -⟩ := drop_eq_cons hblank
      have hquote : input.drop (p + 1) = 34 :: (arg.flatMap (escapeByte upper) ++ [34] ++ rest) :=
        hbehind
      obtain ⟨hget, -, -⟩ := drop_eq_cons hquote
      refine ⟨p + 1, hquote, ?_, by omega⟩
      have hisSpace : isSpace 32 = true := rfl
      rw [skipSpaces, hspace, Option.any_some, if_pos hisSpace, skipSpaces_eq_self hget rfl]
  have hopen : input.drop q = 34 :: (arg.flatMap (escapeByte upper) ++ 34 :: rest) := by
    rw [hq, quoteArg]
    simp
  obtain ⟨hget, hrest, hlength⟩ := drop_eq_cons hopen
  obtain ⟨p', hloop, hp', hlt⟩ := @argLoop_escaped _ _ _ upper arg hend input.length [] hrest
    (by omega)
  have harg : argLoop input (input.length + 1) q .none [] = some (some (arg, p')) := by
    have hstep : argStep input q .none [] = some (.more (q + 1) .double []) := by
      simp [argStep, hget, isSpace]
    rw [argLoop, hstep]
    exact hloop
  have hhigh : p' ≤ input.length := by
    obtain ⟨out, hout, hfine⟩ := @argLoop_fine input q (input.length + 1) .none []
      (by omega) (by omega)
    exact (hfine arg p' (Option.some.inj (hout.symm.trans harg))).2.1
  refine ⟨p', ?_, hp', by omega, hhigh⟩
  rw [splitLoop, hskip, if_neg (by omega), harg]

/-- The arguments after the first, each with a space before it. -/
def inlineTail (args : List Bytes) : Bytes := args.flatMap fun arg => 32 :: quoteArg upper arg

theorem inlineForm_cons (arg : Bytes) (args : List Bytes) :
    inlineForm upper (arg :: args) = quoteArg upper arg ++ inlineTail upper args := by
  induction args generalizing arg with
  | nil => simp [inlineForm, inlineTail, List.intercalate]
  | cons next args ih =>
    have hcons : inlineForm upper (arg :: next :: args) =
        quoteArg upper arg ++ 32 :: inlineForm upper (next :: args) := by
      simp [inlineForm, List.intercalate]
    rw [hcons, ih]
    simp [inlineTail]

theorem inlineTail_head (args : List Bytes) :
    (inlineTail upper args).head?.all isSpace = true := by
  cases args <;> simp [inlineTail, isSpace]

theorem splitLoop_inlineTail (args : List Bytes) {steps : ℕ} (read : List Bytes)
    (hp : p ≤ input.length) (hdrop : input.drop p = inlineTail upper args)
    (hsteps : input.length - p < steps) :
    splitLoop input steps p read = some (some (read ++ args)) := by
  obtain ⟨steps, rfl⟩ : ∃ n, steps = n + 1 := Nat.exists_eq_add_one.mpr (by omega)
  induction args generalizing p steps read with
  | nil =>
    have hend : p = input.length := le_antisymm hp (List.drop_eq_nil_iff.mp hdrop)
    have hskip : skipSpaces input p = input.length := by
      rw [skipSpaces, List.getElem?_eq_none (by omega)]
      simpa using hend
    rw [splitLoop, hskip]
    simp
  | cons arg args ih =>
    obtain ⟨p', hsplit, hp', hlt, hhigh⟩ := @splitLoop_arg _ _ _ upper arg (inlineTail_head upper args)
      [32] (.inr rfl) steps read (by rw [hdrop, inlineTail]; simp [inlineTail])
    obtain ⟨steps, rfl⟩ : ∃ n, steps = n + 1 := Nat.exists_eq_add_one.mpr (by omega)
    rw [hsplit, ih (read ++ [arg]) hhigh hp' steps (by omega)]
    simp

/-- **The splitter inverts the quoting.** -/
theorem splitInlineArgs_inlineForm (args : List Bytes) :
    splitInlineArgs (inlineForm upper args) = some (some args) := by
  cases args with
  | nil => simp [splitInlineArgs, inlineForm, List.intercalate, splitLoop, skipSpaces]
  | cons arg args =>
    have hdrop : (inlineForm upper (arg :: args)).drop 0 =
        [] ++ quoteArg upper arg ++ inlineTail upper args := by
      rw [List.drop_zero, inlineForm_cons, List.nil_append]
    obtain ⟨p', hsplit, hp', hlt, hhigh⟩ := @splitLoop_arg _ _ _ upper arg (inlineTail_head upper args)
      [] (.inl rfl) (inlineForm upper (arg :: args)).length [] hdrop
    rw [splitInlineArgs, hsplit, splitLoop_inlineTail upper args _ hhigh hp' (by omega)]
    rfl

end Quoted

end Ephpm.Resp
