import Mathlib.Data.List.DropRight
import Ephpm.Lib.Percent
import Ephpm.Lib.Split

/-!
# The redirect to the login page

A request without a session is sent to the login service, with the path it asked for and the name
of its site in the query of the URL.  Both come from outside, so two things have to be kept apart.

**What is put into the query**: a value must arrive as it was, as the value of its parameter, and
must not become a parameter, a fragment or another URL.  All of it is percent encoded, so none of
the separators a URL has can come from a value.

**Where the path leads**: the login service sends the browser back to it.  A browser reads `//` at
the beginning as the name of a host, and before it looks it removes some bytes and takes a
backslash for a slash (`browserForm`).  A path in which these occur is not sent along.

Texts are lists of bytes.
-/

namespace Ephpm.Middleware

open Lib.Percent

/-! ## The source -/

/-- A slash. -/
def slash : UInt8 := 0x2F

/-- A backslash. -/
def backslash : UInt8 := 0x5C

/-- A question mark. -/
def question : UInt8 := 0x3F

/-- An ampersand. -/
def ampersand : UInt8 := 0x26

/-- An equals sign. -/
def equals : UInt8 := 0x3D

/-- A hash sign. -/
def hash : UInt8 := 0x23

/-- `MAX_RETURN_TO`. -/
def maxReturnTo : ℕ := 2048

/-- `SessionCookie`, as far as the redirect uses it. -/
structure SessionCookie where
  loginUrl : List UInt8
  returnToParam : Option (List UInt8)
  siteParam : Option (List UInt8)

/-- A byte that must not be in a path to return to. -/
def isUnsafe (b : UInt8) : Bool := !(0x21 ≤ b && b ≤ 0x7E) || b == backslash || b == hash

/-- `same_origin_return_to`: the path that the user is sent back to, if it is one of this origin. -/
def sameOriginReturnTo (path query : List UInt8) : Option (List UInt8) :=
  if ¬[slash] <+: path ∨ [slash, slash] <+: path ∨ [slash, backslash] <+: path then none
  else if path.length + query.length + 1 > maxReturnTo then none
  else if path.any isUnsafe || query.any isUnsafe then none
  else if query = [] then some path
  else some (path ++ question :: query)

/-- `percent_encode`. -/
def percentEncode (value : List UInt8) : List UInt8 := encode value

/-- A parameter with its separator. -/
def parameter (sep : UInt8) (p : List UInt8 × List UInt8) : List UInt8 :=
  sep :: (percentEncode p.1 ++ equals :: percentEncode p.2)

/-- `login_location`: the URL that the user is sent to. -/
def SessionCookie.loginLocation (c : SessionCookie) (returnTo site : Option (List UInt8)) :
    List UInt8 :=
  let url := c.loginUrl
  let sep := if question ∈ url then ampersand else question
  let (url, sep) :=
    match c.returnToParam, returnTo with
    | some param, some target => (url ++ parameter sep (param, target), ampersand)
    | _, _ => (url, sep)
  match c.siteParam, site with
  | some param, some site => if site ≠ [] then url ++ parameter sep (param, site) else url
  | _, _ => url

/-! ## What is sent -/

/-- A parameter, if it has a name and a value. -/
def named (name value : Option (List UInt8)) : List (List UInt8 × List UInt8) :=
  (name.bind fun name => value.map fun value => (name, value)).toList

/-- The parameters that are to be sent.  An empty name of a site is not. -/
def SessionCookie.parameters (c : SessionCookie) (returnTo site : Option (List UInt8)) :
    List (List UInt8 × List UInt8) :=
  named c.returnToParam returnTo ++
    named c.siteParam (site.bind fun site => if site = [] then none else some site)

/-- The parameters as they are appended. -/
def appended (sep : UInt8) : List (List UInt8 × List UInt8) → List UInt8
  | [] => []
  | p :: more => parameter sep p ++ appended ampersand more

/-- **The location is the login page with the parameters appended.** -/
theorem SessionCookie.loginLocation_eq (c : SessionCookie) (returnTo site : Option (List UInt8)) :
    c.loginLocation returnTo site = c.loginUrl ++
      appended (if question ∈ c.loginUrl then ampersand else question)
        (c.parameters returnTo site) := by
  obtain ⟨url, returnToParam, siteParam⟩ := c
  rcases returnToParam with _ | param <;> rcases returnTo with _ | target <;>
    rcases siteParam with _ | param' <;> rcases site with _ | ⟨_ | ⟨b, site⟩⟩ <;>
    simp [loginLocation, parameters, named, appended]

/-! ## How a URL is read -/

/-- What stands before the query. -/
def page (url : List UInt8) : List UInt8 := url.takeWhile (· ≠ question)

/-- The parts of the query, which are separated by `&`. -/
def queryFields (url : List UInt8) : List (List UInt8) :=
  match Lib.cutAt question url with
  | some (_, query) => query.splitOnP (· == ampersand)
  | none => []

/-- A part is cut at `=` and both sides are decoded. -/
def decodeField (field : List UInt8) : Option (List UInt8 × List UInt8) := do
  let (name, value) ← Lib.cutAt equals field
  return (← decode name, ← decode value)

/-- What is written for a parameter. -/
def field (p : List UInt8 × List UInt8) : List UInt8 :=
  percentEncode p.1 ++ equals :: percentEncode p.2

theorem decodeField_field (p : List UInt8 × List UInt8) : decodeField (field p) = some p := by
  have hequals : equals ∉ percentEncode p.1 := notMem_encode (by decide) (by decide) _
  rw [decodeField, field, Lib.cutAt_append hequals]
  simp [percentEncode, decode_encode]

theorem mem_field {p : List UInt8 × List UInt8} {b : UInt8} (h : b ∈ field p) :
    isUnreserved b = true ∨ b = percent ∨ b = equals := by
  rw [field, List.mem_append, List.mem_cons] at h
  rcases h with h | h | h
  · exact (mem_encode h).imp_right .inl
  · exact .inr (.inr h)
  · exact (mem_encode h).imp_right .inl

theorem mem_appended {sep b : UInt8} {params : List (List UInt8 × List UInt8)}
    (h : b ∈ appended sep params) :
    isUnreserved b = true ∨ b = percent ∨ b = equals ∨ b = ampersand ∨ b = sep := by
  induction params generalizing sep with
  | nil => cases h
  | cons p more ih =>
    rcases List.mem_append.mp h with h | h
    · rcases List.mem_cons.mp h with h | h
      · exact .inr (.inr (.inr (.inr h)))
      · exact (mem_field h).imp_right fun h => h.imp_right .inl
    · rcases ih h with h | h | h | h | h
      · exact .inl h
      · exact .inr (.inl h)
      · exact .inr (.inr (.inl h))
      · exact .inr (.inr (.inr (.inl h)))
      · exact .inr (.inr (.inr (.inl h)))

theorem splitOnP_field (p : List UInt8 × List UInt8) :
    (field p).splitOnP (· == ampersand) = [field p] := by
  refine List.splitOnP_eq_singleton fun b hb => ?_
  rw [beq_eq_false_iff_ne]
  rintro rfl
  exact absurd (mem_field hb) (by decide)

theorem splitOnP_appended (query : List UInt8) (params : List (List UInt8 × List UInt8)) :
    (query ++ appended ampersand params).splitOnP (· == ampersand) =
      query.splitOnP (· == ampersand) ++ params.map field := by
  induction params generalizing query with
  | nil => simp [appended]
  | cons p more ih =>
    have hform : query ++ appended ampersand (p :: more) =
        query ++ ampersand :: (field p ++ appended ampersand more) := rfl
    rw [hform, List.splitOnP_append_cons (p := (· == ampersand)) _ _ (beq_self_eq_true _), ih,
      splitOnP_field]
    rfl

/-- **The query of the location is the query of the login page and the parameters.** -/
theorem queryFields_appended (url : List UInt8) (params : List (List UInt8 × List UInt8)) :
    queryFields (url ++ appended (if question ∈ url then ampersand else question) params) =
      queryFields url ++ params.map field := by
  by_cases hquery : question ∈ url
  · obtain ⟨first, query, hfree, rfl⟩ : ∃ first query, question ∉ first ∧
        url = first ++ question :: query := by
      obtain ⟨query, first, rfl, hfree⟩ := List.eq_append_cons_of_mem hquery
      exact ⟨_, _, hfree, rfl⟩
    rw [if_pos hquery, queryFields, List.append_assoc, List.cons_append, Lib.cutAt_append hfree,
      queryFields, Lib.cutAt_append hfree]
    exact splitOnP_appended _ _
  · rw [if_neg hquery]
    cases params with
    | nil => simp [appended]
    | cons p more =>
      have hform : url ++ appended question (p :: more) =
          url ++ question :: (field p ++ appended ampersand more) := rfl
      rw [hform, queryFields, Lib.cutAt_append hquery, queryFields, Lib.cutAt_eq_none hquery]
      show (field p ++ appended ampersand more).splitOnP _ = _
      rw [splitOnP_appended, splitOnP_field]
      rfl

theorem page_appended (url : List UInt8) (params : List (List UInt8 × List UInt8)) :
    page (url ++ appended (if question ∈ url then ampersand else question) params) = page url := by
  rw [page, page, List.takeWhile_append]
  split_ifs with hlength hquery
  · -- A page that is the whole URL has no query.
    have htake : url.takeWhile (· ≠ question) = url :=
      (List.takeWhile_prefix _).eq_of_length hlength
    have hfree := List.takeWhile_eq_self_iff.mp htake question hquery
    simp at hfree
  · have htake : url.takeWhile (· ≠ question) = url :=
      (List.takeWhile_prefix _).eq_of_length hlength
    rw [htake]
    cases params with
    | nil => simp [appended]
    | cons p more => simp [appended, parameter]
  · rfl

/-! ## Where a path leads -/

/-- Bytes that a browser removes at both ends of a reference. -/
def isTrimmed (b : UInt8) : Bool := b ≤ 0x20

/-- Bytes that a browser removes anywhere. -/
def isRemoved (b : UInt8) : Bool := b == 0x09 || b == 0x0A || b == 0x0D

/-- A reference as a browser resolves it. -/
def browserForm (url : List UInt8) : List UInt8 :=
  (((url.dropWhile isTrimmed).rdropWhile isTrimmed).filter fun b => !isRemoved b).map fun b =>
    if b = backslash then slash else b

/-- The kinds of references. -/
inductive Reference
  /-- with a scheme -/
  | absolute
  /-- with a host -/
  | network
  /-- a path on the same origin -/
  | path
  | relative
deriving DecidableEq

/-- A letter of ASCII. -/
def isAlphabetic (b : UInt8) : Bool := (0x41 ≤ b && b ≤ 0x5A) || (0x61 ≤ b && b ≤ 0x7A)

/-- A colon. -/
def colon : UInt8 := 0x3A

/-- The scheme of a reference: a letter, and what may follow in a scheme up to a colon. -/
def hasScheme (url : List UInt8) : Bool :=
  match Lib.cutAt colon url with
  | some (scheme, _) =>
    scheme.head?.any isAlphabetic && scheme.all fun b => isUnreserved b || b == 0x2B
  | none => false

/-- What a browser takes a URL for. -/
def reference (url : List UInt8) : Reference :=
  if hasScheme url then .absolute
  else if [slash, slash] <+: url then .network
  else if [slash] <+: url then .path
  else .relative

/-- A safe byte is left as it is. -/
theorem safe_facts {b : UInt8} (h : isUnsafe b = false) :
    isTrimmed b = false ∧ isRemoved b = false ∧ b ≠ backslash := by
  rw [isUnsafe, Bool.or_eq_false_iff, Bool.or_eq_false_iff, Bool.not_eq_false',
    Bool.and_eq_true, decide_eq_true_eq, decide_eq_true_eq] at h
  obtain ⟨⟨⟨hlow, -⟩, hback⟩, -⟩ := h
  simp only [isTrimmed, isRemoved, ← Bool.not_eq_true, Bool.or_eq_true, decide_eq_true_eq,
    beq_iff_eq, ne_eq, ← UInt8.toNat_inj, UInt8.le_iff_toNat_le, UInt8.reduceToNat]
    at hlow hback ⊢
  omega

theorem browserForm_safe {url : List UInt8} (h : ∀ b ∈ url, isUnsafe b = false) :
    browserForm url = url := by
  have hdrop : url.dropWhile isTrimmed = url := by
    rw [List.dropWhile_eq_self_iff]
    intro hpos
    rw [(safe_facts (h _ (List.getElem_mem hpos))).1]
    exact Bool.false_ne_true
  have hrdrop : url.rdropWhile isTrimmed = url := by
    rw [List.rdropWhile_eq_self_iff]
    intro hne
    rw [(safe_facts (h _ (List.getLast_mem hne))).1]
    exact Bool.false_ne_true
  have hfilter : url.filter (fun b => !isRemoved b) = url := by
    rw [List.filter_eq_self]
    intro b hb
    rw [(safe_facts (h b hb)).2.1]
    rfl
  rw [browserForm, hdrop, hrdrop, hfilter]
  conv_rhs => rw [← List.map_id url]
  exact List.map_congr_left fun b hb => if_neg (safe_facts (h b hb)).2.2

theorem reference_path {rest : List UInt8} (h : rest.head? ≠ some slash) :
    reference (slash :: rest) = .path := by
  have hscheme : hasScheme (slash :: rest) = false := by
    unfold hasScheme
    split
    next scheme _ hcut =>
        have heq := Lib.cutAt_eq_some hcut
        cases scheme with
        | nil => cases heq
        | cons b scheme =>
          rw [List.cons_append, List.cons.injEq] at heq
          rw [← heq.1]
          rfl
    next => rfl
  have hnetwork : ¬[slash, slash] <+: slash :: rest := by
    rintro ⟨more, heq⟩
    rw [List.cons_append, List.cons.injEq] at heq
    rw [← heq.2] at h
    exact h rfl
  rw [reference, hscheme, if_neg Bool.false_ne_true, if_neg hnetwork, if_pos ⟨rest, rfl⟩]

/-- **A path to return to is one on the same origin**, as it is and as a browser reads it. -/
theorem reference_returnTo {path query target : List UInt8}
    (h : sameOriginReturnTo path query = some target) :
    browserForm target = target ∧ reference target = .path := by
  simp only [sameOriginReturnTo] at h
  split_ifs at h with hstart hlong hrisky hempty
  all_goals
    obtain rfl := Option.some.inj h
    rw [not_or, not_or, not_not] at hstart
    obtain ⟨⟨rest, rfl⟩, hnetwork, -⟩ := hstart
    rw [Bool.or_eq_true, not_or, Bool.not_eq_true, Bool.not_eq_true, List.any_eq_false,
      List.any_eq_false] at hrisky
    have hhead : rest.head? ≠ some slash := by
      intro hhead
      obtain ⟨more, rfl⟩ := List.head?_eq_some_iff.mp hhead
      exact hnetwork ⟨more, rfl⟩
  · exact ⟨browserForm_safe fun b hb => Bool.eq_false_iff.mpr (hrisky.1 b hb),
      reference_path hhead⟩
  · constructor
    · refine browserForm_safe fun b hb => ?_
      rcases List.mem_append.mp hb with hb | hb
      · exact Bool.eq_false_iff.mpr (hrisky.1 b hb)
      · rcases List.mem_cons.mp hb with rfl | hb
        · decide
        · exact Bool.eq_false_iff.mpr (hrisky.2 b hb)
    · refine reference_path ?_
      cases rest with
      | nil => exact fun h => absurd (Option.some.inj h) (by decide)
      | cons b rest => exact hhead

/-- **Nothing is injected into the redirect.**  The location begins with the login page, and adds
unreserved bytes, escapes and separators; it has no fragment and the page is the configured one;
its query is the one of the login page and the configured parameters with the values as they were;
and the path to return to is one on the same origin. -/
theorem login_location_safe (c : SessionCookie) (hfragment : hash ∉ c.loginUrl)
    (path query : List UInt8) (site : Option (List UInt8)) :
    (∃ added, c.loginLocation (sameOriginReturnTo path query) site = c.loginUrl ++ added ∧
      ∀ b ∈ added, isUnreserved b = true ∨ b = percent ∨ b = equals ∨ b = ampersand ∨
        b = question) ∧
    hash ∉ c.loginLocation (sameOriginReturnTo path query) site ∧
    page (c.loginLocation (sameOriginReturnTo path query) site) = page c.loginUrl ∧
    (∃ fields, queryFields (c.loginLocation (sameOriginReturnTo path query) site) =
        queryFields c.loginUrl ++ fields ∧
      fields.mapM decodeField = some (c.parameters (sameOriginReturnTo path query) site)) ∧
    ∀ target, sameOriginReturnTo path query = some target →
      browserForm target = target ∧ reference (browserForm target) = .path := by
  have hsep : ∀ b, b = (if question ∈ c.loginUrl then ampersand else question) →
      b = ampersand ∨ b = question := by
    rintro b rfl
    split_ifs
    · exact .inl rfl
    · exact .inr rfl
  have hadded : ∀ b ∈ appended (if question ∈ c.loginUrl then ampersand else question)
      (c.parameters (sameOriginReturnTo path query) site), isUnreserved b = true ∨ b = percent ∨
        b = equals ∨ b = ampersand ∨ b = question := by
    intro b hb
    rcases mem_appended hb with h | h | h | h | h
    · exact .inl h
    · exact .inr (.inl h)
    · exact .inr (.inr (.inl h))
    · exact .inr (.inr (.inr (.inl h)))
    · exact .inr (.inr (.inr (hsep b h)))
  rw [c.loginLocation_eq]
  refine ⟨⟨_, rfl, hadded⟩, ?_, page_appended _ _, ⟨_, queryFields_appended _ _, ?_⟩, ?_⟩
  · rw [List.mem_append]
    rintro (h | h)
    · exact hfragment h
    · exact absurd (hadded hash h) (by decide)
  · generalize c.parameters (sameOriginReturnTo path query) site = params
    induction params with
    | nil => rfl
    | cons p more ih => rw [List.map_cons, List.mapM_cons, decodeField_field, ih]; rfl
  · intro target htarget
    obtain ⟨hform, hpath⟩ := reference_returnTo htarget
    exact ⟨hform, by rw [hform, hpath]⟩

/-- A login page with a query of its own and a path that has separators in it. -/
theorem login_location_safe_tenant :
    reference (browserForm [slash, 0x61, question, 0x62, equals, ampersand]) = .path := by
  have htarget : sameOriginReturnTo [slash, 0x61] [0x62, equals, ampersand] =
      some [slash, 0x61, question, 0x62, equals, ampersand] := by decide
  exact ((login_location_safe ⟨[slash, question, 0x74], some [0x6E], some [0x73]⟩ (by decide)
    [slash, 0x61] [0x62, equals, ampersand] (some [0x78])).2.2.2.2 _ htarget).2

end Ephpm.Middleware
