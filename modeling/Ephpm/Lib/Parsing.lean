import Mathlib.Data.List.Infix

/-!
# Parsers of messages

A parser takes what it needs from the front of its input.  Three things are asked of the parser
of a message format, and each of them is kept when parsers are put one behind the other:

* it **reads** the encoding of a value as that value, whatever comes later, and reports every
  proper beginning of the encoding as too short (`Reads`);
* it is **local**: what it returns depends on what it took and on nothing behind it (`Local`);
* another parser of the same format **accepts the same** inputs with the same results (`Alike`).
-/

namespace Lib

/-- What stands at an index, and what follows it. -/
theorem drop_eq_cons {α : Type*} {l rest : List α} {i : ℕ} {a : α} (h : l.drop i = a :: rest) :
    l[i]? = some a ∧ l.drop (i + 1) = rest ∧ l.length = i + 1 + rest.length := by
  have hlength := congrArg List.length h
  rw [List.length_drop, List.length_cons] at hlength
  refine ⟨?_, ?_, by omega⟩
  · rw [← Nat.add_zero i, ← List.getElem?_drop, h]
    rfl
  · rw [← List.drop_drop, h]
    rfl

/-- A program that takes from the front of a list. -/
abbrev Parser (σ ε α : Type) := StateT (List σ) (Except ε) α

namespace Parser

variable {σ ε α β : Type} {p q : Parser σ ε α} {input input' : List σ} {a : α} {b : β}
  {short : ε → Prop}

theorem bind_ok {f : α → Parser σ ε β} {rest : List σ} (h : p input = .ok (a, rest)) :
    (p >>= f) input = f a rest := by
  simp only [bind, StateT.bind, h, Except.bind]

theorem bind_error {f : α → Parser σ ε β} {e : ε} (h : p input = .error e) :
    (p >>= f) input = .error e := by
  simp only [bind, StateT.bind, h, Except.bind]

/-- What a sequence accepts, its first part accepts. -/
theorem bind_eq_ok {f : α → Parser σ ε β} {rest : List σ} :
    (p >>= f) input = .ok (b, rest) ↔ ∃ a mid, p input = .ok (a, mid) ∧ f a mid = .ok (b, rest) := by
  cases hp : p input with
  | error e =>
    rw [bind_error hp]
    constructor
    · intro h
      cases h
    · rintro ⟨_, _, h, _⟩
      cases h
  | ok out =>
    rw [bind_ok hp]
    constructor
    · exact fun h => ⟨out.1, out.2, rfl, h⟩
    · rintro ⟨a, mid, h, hf⟩
      obtain rfl := Except.ok.inj h
      exact hf

/-! ## Reading -/

/-- The parser reads the input as the value, and is left short by every proper beginning of
it. -/
structure Reads (short : ε → Prop) (p : Parser σ ε α) (input : List σ) (a : α) : Prop where
  whole : ∀ later, p (input ++ later) = .ok (a, later)
  cut : ∀ start, start <+: input → start ≠ input → ∃ e, p start = .error e ∧ short e

theorem reads_pure (a : α) : Reads short (pure a : Parser σ ε α) [] a where
  whole _ := rfl
  cut _ hstart hne := absurd (List.prefix_nil.mp hstart) hne

theorem Reads.bind {f : α → Parser σ ε β} (h : Reads short p input a)
    (hf : Reads short (f a) input' b) : Reads short (p >>= f) (input ++ input') b where
  whole later := by
    rw [List.append_assoc, bind_ok (h.whole _), hf.whole]
  cut start hstart hne := by
    -- the beginning ends within the first part, or it contains it
    rcases List.prefix_or_prefix_of_prefix hstart (List.prefix_append input input') with
      hfirst | ⟨more, rfl⟩
    · by_cases heq : start = input
      · subst heq
        have hne' : ([] : List σ) ≠ input' := by
          rintro rfl
          exact hne (List.append_nil _).symm
        obtain ⟨e, he, hshort⟩ := hf.cut [] List.nil_prefix hne'
        refine ⟨e, ?_, hshort⟩
        have hwhole := h.whole []
        rw [List.append_nil] at hwhole
        rw [bind_ok hwhole, he]
      · obtain ⟨e, he, hshort⟩ := h.cut start hfirst heq
        exact ⟨e, bind_error he, hshort⟩
    · have hmore : more <+: input' := (List.prefix_append_right_inj input).mp hstart
      obtain ⟨e, he, hshort⟩ := hf.cut more hmore fun heq => hne (by rw [heq])
      exact ⟨e, by rw [bind_ok (h.whole more), he], hshort⟩

/-! ## Locality -/

/-- What the parser returns depends on what it took only. -/
def Local (p : Parser σ ε α) : Prop :=
  ∀ input a rest, p input = .ok (a, rest) →
    ∃ taken, input = taken ++ rest ∧ ∀ later, p (taken ++ later) = .ok (a, later)

theorem local_pure (a : α) : Local (pure a : Parser σ ε α) := by
  intro input b rest h
  obtain ⟨rfl, rfl⟩ := Prod.mk.inj (Except.ok.inj h)
  exact ⟨[], rfl, fun later => rfl⟩

theorem local_throw (e : ε) : Local (throw e : Parser σ ε α) := by
  intro input b rest h
  cases h

theorem Local.bind {f : α → Parser σ ε β} (h : Local p) (hf : ∀ a, Local (f a)) :
    Local (p >>= f) := by
  intro input b rest hok
  obtain ⟨a, mid, hp, hfa⟩ := bind_eq_ok.mp hok
  obtain ⟨taken, rfl, htaken⟩ := h input a mid hp
  obtain ⟨taken', rfl, htaken'⟩ := hf a mid b rest hfa
  refine ⟨taken ++ taken', by rw [List.append_assoc], fun later => ?_⟩
  rw [List.append_assoc, bind_ok (htaken _), htaken']

/-! ## Agreement -/

/-- The parsers accept the same inputs, with the same results. -/
def Alike (p q : Parser σ ε α) : Prop := ∀ input out, p input = .ok out ↔ q input = .ok out

theorem Alike.refl (p : Parser σ ε α) : Alike p p := fun _ _ => Iff.rfl

theorem Alike.bind {f g : α → Parser σ ε β} (h : Alike p q) (hf : ∀ a, Alike (f a) (g a)) :
    Alike (p >>= f) (q >>= g) := by
  intro input out
  rw [bind_eq_ok, bind_eq_ok]
  constructor
  · rintro ⟨a, mid, hp, hfa⟩
    exact ⟨a, mid, (h input _).mp hp, (hf a mid out).mp hfa⟩
  · rintro ⟨a, mid, hq, hga⟩
    exact ⟨a, mid, (h input _).mpr hq, (hf a mid out).mpr hga⟩

end Parser

end Lib
