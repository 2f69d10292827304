import Ephpm.Lib.Split
import Ephpm.Lib.Text
import Ephpm.Middleware.Config

/-!
# Redirects to the canonical URL

The `redirect` middleware has rules for the scheme, the host and the trailing slash of a URL.  It
computes the canonical URL once, redirects if the request is not for it, and is documented never to
loop.  So the request that follows the redirect should be passed through.

That is true of the scheme and of the path: what the rules make of a path, they leave alone.
**It is not true of the host.**  The host a map leads to may itself be on the map, or break the rule
for `www.`, and the host without its `www.` may have another one.  Two entries are enough for a loop
(`two_hosts_loop`).

Whether it settles is decided by the entry of the map for the host, or by the policy if there is
none (`HostSettles`): the target of an entry has to be a host that the rules leave alone, `www.`
before a host must not lead to an entry, nor must the host without its `www.`, which must not have
another one either.  To see that nothing else can go wrong, the host and the port have to be read
back from the URL as they were written (`hostOf_clean`, `splitHost_host`).  The text of a map is
free, so in addition it may contain a slash and run into the path; then what is read back decides
(`Settles`).
-/

namespace Ephpm.Middleware.CanonicalUrl

open Lib

/-! ## The source -/

/-- `HostPolicy`. -/
inductive HostPolicy where
  /-- `example.com` becomes `www.example.com`. -/
  | www
  /-- `www.example.com` becomes `example.com`. -/
  | apex
deriving DecidableEq

/-- `SlashPolicy`. -/
inductive SlashPolicy where
  | add
  | strip
deriving DecidableEq

/-- The middleware as it is configured. -/
structure Redirect where
  forceHttps : Bool
  canonicalHost : Option HostPolicy
  /-- The keys are lower-cased. -/
  hostMap : List (Text × Text)
  trailingSlash : Option SlashPolicy
  status : ℕ
  forwardedProtoHeader : Text
deriving DecidableEq

/-- What the middleware sees of a request. -/
structure Request where
  headers : List (Text × Text)
  path : Text
  query : Text

/-- What the middleware does with a request. -/
inductive Response where
  | cont
  | respond (status : ℕ) (location : Text)
deriving DecidableEq

/-- The scheme of a request. -/
inductive Scheme where
  | http
  | https
deriving DecidableEq

/-- The scheme as it is written in a URL. -/
def Scheme.text : Scheme → Text
  | .http => "http".toList
  | .https => "https".toList

/-- `HeaderValue::to_str`, where what is not text becomes empty: the router hands the middleware
visible characters only. -/
def visible (value : Text) : Text :=
  if value.all fun c => (32 ≤ c.toNat && c.toNat < 127) || c == '\t' then value else []

/-- The first header of a name. -/
def Request.header (req : Request) (name : Text) : Option Text :=
  (req.headers.find? fun h => eqIgnoreCase h.1 name).map fun h => visible h.2

/-- `has_www_prefix`. -/
def hasWwwPrefix (host : Text) : Bool :=
  4 < host.length && eqIgnoreCase (host.take 4) "www.".toList

/-- `strip_www_prefix`. -/
def stripWwwPrefix (host : Text) : Option Text :=
  if hasWwwPrefix host then
    let rest := host.drop 4
    if rest = [] then none else some rest
  else none

/-- `rsplit_once`: the text is cut at the last separator. -/
def rsplitOnce (sep : Char) (value : Text) : Option (Text × Text) :=
  (cutAt sep value.reverse).map fun cut => (cut.2.reverse, cut.1.reverse)

/-- What follows the bracket of an IPv6 address. -/
def bracketPort : Text → Option Text
  | ':' :: port => if port = [] then none else some port
  | _ => none

/-- `split_host`: the name and the port. -/
def splitHost (value : Text) : Text × Option Text :=
  if value.head? = some '[' then
    match cutAt ']' value with
    | some (before, after) => (before ++ [']'], bracketPort after)
    | none => (value, none)
  else
    match rsplitOnce ':' value with
    | some (host, port) =>
      if port ≠ [] ∧ port.all Char.isDigit then (host, some port) else (value, none)
    | none => (value, none)

/-- `last_segment_has_dot`. -/
def lastSegmentHasDot (path : Text) : Bool := (path.rtakeWhile (· ≠ '/')).contains '.'

namespace Redirect

/-- `canonical_host`. -/
def canonicalHostFor (cfg : Redirect) (host : Text) : Text :=
  match cfg.hostMap.find? fun entry => eqIgnoreCase host entry.1 with
  | some (_, dst) => dst
  | none =>
    match cfg.canonicalHost with
    | some .www => if hasWwwPrefix host then host else "www.".toList ++ host
    | some .apex => (stripWwwPrefix host).getD host
    | none => host

/-- `canonical_path`: the path by the policy for slashes. -/
def canonicalPath (cfg : Redirect) (path : Text) : Text :=
  match cfg.trailingSlash with
  | some .strip =>
    if 1 < path.length ∧ path.getLast? = some '/' then
      let trimmed := path.rdropWhile (· = '/')
      if trimmed = [] then ['/'] else trimmed
    else path
  | some .add =>
    if path.getLast? = some '/' ∨ lastSegmentHasDot path then path else path ++ ['/']
  | none => path

/-- `current_scheme`: the first value of the header. -/
def currentScheme (cfg : Redirect) (req : Request) : Scheme :=
  match req.header cfg.forwardedProtoHeader with
  | some v =>
    let first := (v.takeWhile (· ≠ ',')).dropWhile Char.isWhitespace
    if eqIgnoreCase (first.rdropWhile Char.isWhitespace) "https".toList then .https else .http
  | none => .http

/-- The scheme that the site wants. -/
def schemeFor (cfg : Redirect) (scheme : Scheme) : Scheme :=
  if cfg.forceHttps then .https else scheme

/-- An empty path is the root. -/
def currentPath (path : Text) : Text := if path = [] then ['/'] else path

/-- A port with its colon. -/
def portText (port : Option Text) : Text := port.elim [] (':' :: ·)

/-- A query with its question mark. -/
def queryText (query : Text) : Text := if query = [] then [] else '?' :: query

/-- `invoke`. -/
def invoke (cfg : Redirect) (req : Request) : Response :=
  match (req.header "Host".toList).filter (· ≠ []) with
  | none => .cont
  | some hostHdr =>
    let (host, port) := splitHost hostHdr
    let schemeCur := cfg.currentScheme req
    let schemeCan := cfg.schemeFor schemeCur
    let hostCan := cfg.canonicalHostFor host
    let pathCur := currentPath req.path
    let pathCan := cfg.canonicalPath pathCur
    if schemeCur ≠ schemeCan ∨ eqIgnoreCase host hostCan = false ∨ pathCur ≠ pathCan then
      .respond cfg.status (schemeCan.text ++ "://".toList ++
        (hostCan ++ portText port ++ pathCan ++ queryText req.query))
    else .cont

end Redirect

/-! ### The configuration -/

/-- `opt_string`. -/
def optString (config : Json Text) (key default : Text) : Except (InitError Text) Text :=
  match config.setting key with
  | none => .ok default
  | some (.string s) => .ok s
  | some _ => .error (.notString key)

/-- A setting that is one of a few words, in any case. -/
def optWord {α : Type} (config : Json Text) (key : Text) (words : List (Text × α)) :
    Except (InitError Text) (Option α) :=
  match config.setting key with
  | none => .ok none
  | some (.string s) =>
    match words.find? fun w => w.1 = lower s with
    | some w => .ok (some w.2)
    | none => .error (.unknownValue key (lower s))
  | some _ => .error (.notString key)

/-- An entry of `host_map`. -/
def mapEntry (entry : Text × Json Text) : Except (InitError Text) (Text × Text) :=
  match entry.2 with
  | .string dst => if dst = [] then .error (.badEntry entry.1) else .ok (lower entry.1, dst)
  | _ => .error (.badEntry entry.1)

/-- The setting `host_map`. -/
def optHostMap (config : Json Text) : Except (InitError Text) (List (Text × Text)) :=
  match config.setting "host_map".toList with
  | none => .ok []
  | some (.object fields) => fields.mapM mapEntry
  | some _ => .error (.notObject "host_map".toList)

/-- The setting `status`. -/
def optStatus (config : Json Text) : Except (InitError Text) ℕ :=
  match config.setting "status".toList with
  | none => .ok 308
  | some v => if v.asU64 = some 301 ∨ v.asU64 = some 308 then .ok (v.asU64.getD 308)
    else .error .badStatus

/-- `init`. -/
def Redirect.init (config : Json Text) : Except (InitError Text) Redirect := do
  let canonicalHost ← optWord config "canonical_host".toList
    [("www".toList, HostPolicy.www), ("apex".toList, .apex), ("non-www".toList, .apex)]
  let hostMap ← optHostMap config
  let trailingSlash ← optWord config "trailing_slash".toList
    [("add".toList, SlashPolicy.add), ("strip".toList, .strip)]
  let status ← optStatus config
  let forwardedProtoHeader ←
    optString config "forwarded_proto_header".toList "X-Forwarded-Proto".toList
  if forwardedProtoHeader = [] then
    throw (.empty "forwarded_proto_header".toList)
  let forceHttps ← config.optBool "force_https".toList false
  return { forceHttps, canonicalHost, hostMap, trailingSlash, status, forwardedProtoHeader }

/-! ## Following a redirect -/

/-- The URL without its scheme. -/
def afterScheme (url : Text) : Text := (url.dropWhile (· ≠ ':')).drop 3

/-- The scheme of a URL. -/
def schemeOf (url : Text) : Text := url.takeWhile (· ≠ ':')

/-- Where the authority of a URL ends. -/
def isDelimiter (c : Char) : Bool := c = '/' ∨ c = '?' ∨ c = '#'

/-- The authority of a URL, without the name of a user. -/
def hostOf (rest : Text) : Text :=
  let authority := rest.takeWhile fun c => !isDelimiter c
  ((rsplitOnce '@' authority).map Prod.snd).getD authority

/-- The path of a URL, behind the host. -/
def pathOf (rest : Text) : Text :=
  (rest.dropWhile fun c => !isDelimiter c).takeWhile fun c => c ≠ '?' ∧ c ≠ '#'

/-- The request for the URL of a redirect.  It has the query of the first one, and its scheme is
forwarded. -/
structure Follows (cfg : Redirect) (req : Request) (location : Text) (req' : Request) : Prop where
  host : req'.header "Host".toList = some (visible (hostOf (afterScheme location)))
  path : req'.path = pathOf (afterScheme location)
  query : req'.query = req.query
  scheme : req'.header cfg.forwardedProtoHeader = some (schemeOf location)

/-! ## What the rules leave alone -/

namespace Redirect

/-- The rules leave the host alone: the map has it for itself, or has nothing for it and the policy
is met. -/
def Canonical (cfg : Redirect) (host : Text) : Prop :=
  match cfg.hostMap.find? fun entry => eqIgnoreCase host entry.1 with
  | some (_, dst) => eqIgnoreCase host dst = true
  | none =>
    match cfg.canonicalHost with
    | some .www => hasWwwPrefix host = true
    | some .apex => hasWwwPrefix host = false
    | none => True

/-- The rules leave the path alone. -/
def CanonicalPath (cfg : Redirect) (path : Text) : Prop :=
  match cfg.trailingSlash with
  | some .strip => ¬(1 < path.length ∧ path.getLast? = some '/')
  | some .add => path.getLast? = some '/' ∨ lastSegmentHasDot path = true
  | none => True

theorem lt_length_of_hasWwwPrefix {host : Text} (h : hasWwwPrefix host = true) :
    4 < host.length := by
  rw [hasWwwPrefix, Bool.and_eq_true] at h
  exact of_decide_eq_true h.1

theorem stripWwwPrefix_eq_some {host : Text} (h : hasWwwPrefix host = true) :
    stripWwwPrefix host = some (host.drop 4) := by
  have hlength := lt_length_of_hasWwwPrefix h
  have hne : host.drop 4 ≠ [] := by
    rw [Ne, List.drop_eq_nil_iff]
    omega
  rw [stripWwwPrefix, if_pos h, if_neg hne]

/-- **The rules leave a host alone if and only if it is canonical.** -/
theorem eqIgnoreCase_canonicalHostFor (cfg : Redirect) (host : Text) :
    eqIgnoreCase host (cfg.canonicalHostFor host) = true ↔ cfg.Canonical host := by
  rw [canonicalHostFor, Canonical]
  cases cfg.hostMap.find? fun entry => eqIgnoreCase host entry.1 with
  | some entry => rfl
  | none =>
    rcases cfg.canonicalHost with - | ⟨- | -⟩
    · simp [eqIgnoreCase_self]
    · by_cases hwww : hasWwwPrefix host
      · simp [hwww, eqIgnoreCase_self]
      · have hlength : host.length ≠ ("www.".toList ++ host).length := by
          rw [List.length_append]
          exact (Nat.lt_add_of_pos_left (by decide)).ne
        have hdiffers := eqIgnoreCase_eq_false hlength
        simp only [hwww, hdiffers, Bool.false_eq_true, if_false]
    · by_cases hwww : hasWwwPrefix host
      · have hlength : host.length ≠ (host.drop 4).length := by
          have := lt_length_of_hasWwwPrefix hwww
          rw [List.length_drop]
          omega
        simp [stripWwwPrefix_eq_some hwww, eqIgnoreCase_eq_false hlength, hwww]
      · simp [hwww, stripWwwPrefix, eqIgnoreCase_self]

/-- A path that ends in a slash is longer than what is left without the slashes at its end. -/
theorem length_trimmed_lt {path : Text} (h : path.getLast? = some '/') :
    (path.rdropWhile (· = '/')).length < path.length := by
  obtain ⟨before, rfl⟩ := List.getLast?_eq_some_iff.mp h
  rw [List.rdropWhile_concat_pos _ _ _ (by simp), List.length_append]
  exact Nat.lt_succ_of_le (List.rdropWhile_prefix _ _).length_le

/-- **The rules leave a path alone if and only if it is canonical.** -/
theorem eq_canonicalPath_iff (cfg : Redirect) (path : Text) :
    path = cfg.canonicalPath path ↔ cfg.CanonicalPath path := by
  fun_cases canonicalPath cfg path with
  | case1 hpolicy hend trimmed hnil =>
    refine iff_of_false (fun heq => ?_) (by simp [CanonicalPath, hpolicy, hend])
    exact hend.1.ne' (congrArg List.length heq)
  | case2 hpolicy hend trimmed hne =>
    refine iff_of_false (fun heq => ?_) (by simp [CanonicalPath, hpolicy, hend])
    exact (length_trimmed_lt hend.2).ne' (congrArg List.length heq)
  | case3 hpolicy hend => simp [CanonicalPath, hpolicy, hend]
  | case4 hpolicy hend => simp [CanonicalPath, hpolicy, hend]
  | case5 hpolicy hend => simp [CanonicalPath, hpolicy, hend]
  | case6 hpolicy => simp [CanonicalPath, hpolicy]

/-- What the rules make of a path, they leave alone. -/
theorem canonicalPath_canonicalPath (cfg : Redirect) (path : Text) :
    cfg.CanonicalPath (cfg.canonicalPath path) := by
  fun_cases canonicalPath cfg path with
  | case1 hpolicy hend trimmed hnil => simp [CanonicalPath, hpolicy]
  | case2 hpolicy hend trimmed hne =>
    simp only [CanonicalPath, hpolicy]
    rintro ⟨-, hlast⟩
    rw [List.getLast?_eq_some_getLast hne] at hlast
    exact List.rdropWhile_last_not _ _ hne (decide_eq_true (Option.some.inj hlast))
  | case3 hpolicy hend => simpa [CanonicalPath, hpolicy] using hend
  | case4 hpolicy hend => simpa [CanonicalPath, hpolicy] using hend
  | case5 hpolicy hend => simp [CanonicalPath, hpolicy]
  | case6 hpolicy => simp [CanonicalPath, hpolicy]

/-- A path that begins with a slash keeps it. -/
theorem head?_canonicalPath (cfg : Redirect) {path : Text} (h : path.head? = some '/') :
    (cfg.canonicalPath path).head? = some '/' := by
  fun_cases canonicalPath cfg path with
  | case1 => rfl
  | case2 hpolicy hend trimmed hne =>
    obtain ⟨removed, hsplit⟩ := List.rdropWhile_prefix (· = '/') path
    rw [← hsplit, List.head?_append_of_ne_nil _ hne] at h
    exact h
  | case3 | case4 | case6 => exact h
  | case5 =>
    obtain ⟨rest, rfl⟩ := List.head?_eq_some_iff.mp h
    rfl

/-- The rules put nothing but a slash into a path. -/
theorem mem_canonicalPath (cfg : Redirect) {path : Text} {c : Char} :
    c ∈ cfg.canonicalPath path → c ∈ path ∨ c = '/' := by
  fun_cases canonicalPath cfg path with
  | case1 => exact fun h => .inr (List.mem_singleton.mp h)
  | case2 => exact fun h => .inl ((List.rdropWhile_prefix _ _).subset h)
  | case3 | case4 | case6 => exact .inl
  | case5 => simp

/-! ## Reading a URL back -/

theorem hostOf_queryText (t query : Text) : hostOf (t ++ queryText query) = hostOf t := by
  rw [queryText]
  split
  next => rw [List.append_nil]
  next => rw [hostOf, takeWhile_append_cons (by decide), hostOf]

theorem pathOf_queryText (t query : Text) : pathOf (t ++ queryText query) = pathOf t := by
  rw [queryText]
  split
  next => rw [List.append_nil]
  next =>
      rw [pathOf, dropWhile_append_cons (by decide), takeWhile_append_cons (by decide), pathOf]

/-- A path that begins with a slash after a host without one is read back. -/
theorem pathOf_append {host path : Text} (hhost : ∀ c ∈ host, isDelimiter c = false)
    (hhead : path.head? = some '/') (hpath : ∀ c ∈ path, c ≠ '?' ∧ c ≠ '#') :
    pathOf (host ++ path) = path := by
  obtain ⟨rest, rfl⟩ := List.head?_eq_some_iff.mp hhead
  have hnone : host.dropWhile (fun c => !isDelimiter c) = [] := by
    rw [List.dropWhile_eq_nil_iff]
    intro c hc
    rw [hhost c hc]
    rfl
  rw [pathOf, dropWhile_append_cons (by decide), hnone, List.nil_append,
    List.takeWhile_eq_self_iff]
  exact fun c hc => decide_eq_true (hpath c hc)

theorem afterScheme_text (scheme : Scheme) (rest : Text) :
    afterScheme (scheme.text ++ "://".toList ++ rest) = rest := by
  cases scheme <;> rfl

theorem schemeOf_text (scheme : Scheme) (rest : Text) :
    schemeOf (scheme.text ++ "://".toList ++ rest) = scheme.text := by
  cases scheme <;> rfl

/-! ## When the redirect settles it -/

/-- The host a request is for, as `Host` has it. -/
def hostHeader (req : Request) : Text := (req.header "Host".toList).getD []

/-- The host the rules lead to, with the port of the request. -/
def authorityFor (cfg : Redirect) (req : Request) : Text :=
  cfg.canonicalHostFor (splitHost (hostHeader req)).1 ++ portText (splitHost (hostHeader req)).2

/-- The URL the rules lead to, from the host to the path. -/
def destination (cfg : Redirect) (req : Request) : Text :=
  cfg.authorityFor req ++ cfg.canonicalPath (currentPath req.path)

/-- The host and the path of the URL can be told apart. -/
def Apart (cfg : Redirect) (req : Request) : Prop :=
  (∀ c ∈ cfg.authorityFor req, isDelimiter c = false) ∧ (currentPath req.path).head? = some '/'

/-- **The redirect leads to a URL that the rules leave alone.**  The host that is read back from it
is canonical, and a map has not put a slash before the path, unless the path that results is
canonical too.  Without a host nothing is checked. -/
def Settles (cfg : Redirect) (req : Request) : Prop :=
  visible (hostOf (cfg.destination req)) = [] ∨
    cfg.Canonical (splitHost (visible (hostOf (cfg.destination req)))).1 ∧
      (cfg.Apart req ∨ cfg.CanonicalPath (currentPath (pathOf (cfg.destination req))))

theorem pathOf_destination {cfg : Redirect} {req : Request} (hapart : cfg.Apart req)
    (hpath : ∀ c ∈ req.path, c ≠ '?' ∧ c ≠ '#') :
    pathOf (cfg.destination req) = cfg.canonicalPath (currentPath req.path) := by
  refine pathOf_append hapart.1 (cfg.head?_canonicalPath hapart.2) fun c hc => ?_
  have hcurrent : ∀ c ∈ currentPath req.path, c ≠ '?' ∧ c ≠ '#' := by
    rw [currentPath]
    split
    next => simp
    next => exact hpath
  rcases cfg.mem_canonicalPath hc with hc | rfl
  · exact hcurrent c hc
  · decide

/-- If the host and the path can be told apart, the path is canonical. -/
theorem canonicalPath_destination {cfg : Redirect} {req : Request} (hapart : cfg.Apart req)
    (hpath : ∀ c ∈ req.path, c ≠ '?' ∧ c ≠ '#') :
    cfg.CanonicalPath (currentPath (pathOf (cfg.destination req))) := by
  have hhead := cfg.head?_canonicalPath hapart.2
  rw [pathOf_destination hapart hpath, currentPath, if_neg]
  · exact cfg.canonicalPath_canonicalPath _
  · intro hnil
    rw [hnil] at hhead
    cases hhead

/-- A request that is passed through meets all three rules. -/
theorem invoke_eq_cont_iff {cfg : Redirect} {req : Request} {host : Text}
    (hhost : req.header "Host".toList = some host) :
    cfg.invoke req = .cont ↔ host = [] ∨
      cfg.currentScheme req = cfg.schemeFor (cfg.currentScheme req) ∧
        cfg.Canonical (splitHost host).1 ∧ cfg.CanonicalPath (currentPath req.path) := by
  rw [invoke, hhost]
  by_cases hnil : host = []
  · subst hnil
    exact iff_of_true rfl (.inl rfl)
  · have hsome : (some host).filter (· ≠ []) = some host := by simp [hnil]
    simp only [hsome, hnil, false_or, ← eqIgnoreCase_canonicalHostFor, ← eq_canonicalPath_iff]
    split
    next hchanged =>
        refine iff_of_false Response.noConfusion fun hsame => ?_
        rcases hchanged with hscheme | hhost | hpath
        · exact hscheme hsame.1
        · exact Bool.false_ne_true (hhost.symm.trans hsame.2.1)
        · exact hpath hsame.2.2
    next hsame =>
        simp only [not_or, not_not, Bool.not_eq_false] at hsame
        exact iff_of_true rfl hsame

theorem invoke_eq_respond {cfg : Redirect} {req : Request} {status : ℕ} {location : Text}
    (h : cfg.invoke req = .respond status location) :
    location = (cfg.schemeFor (cfg.currentScheme req)).text ++ "://".toList ++
      (cfg.destination req ++ queryText req.query) := by
  rw [invoke] at h
  split at h
  next => cases h
  next host hhost =>
      have hheader : hostHeader req = host := by
        obtain ⟨hhost, -⟩ := Option.filter_eq_some_iff.mp hhost
        rw [hostHeader, hhost]
        rfl
      simp only at h
      split at h
      next =>
          obtain ⟨-, rfl⟩ := Response.respond.inj h
          rw [destination, authorityFor, hheader]
      next => cases h

theorem currentScheme_eq {cfg : Redirect} {req : Request} {scheme : Scheme}
    (h : req.header cfg.forwardedProtoHeader = some scheme.text) :
    cfg.currentScheme req = scheme := by
  rw [currentScheme, h]
  cases scheme <;> decide

theorem schemeFor_schemeFor (cfg : Redirect) (scheme : Scheme) :
    cfg.schemeFor (cfg.schemeFor scheme) = cfg.schemeFor scheme := by
  rw [schemeFor, schemeFor]
  split <;> rfl

/-- The request that follows a redirect is passed through exactly if what is read back from its URL is
canonical. -/
theorem settles_iff (cfg : Redirect) {req req' : Request} {status : ℕ} {location : Text}
    (hpath : ∀ c ∈ req.path, c ≠ '?' ∧ c ≠ '#' ∧ c ≠ '%')
    (hredirect : cfg.invoke req = .respond status location)
    (hfollows : Follows cfg req location req') :
    cfg.invoke req' = .cont ↔ cfg.Settles req := by
  have hlocation := invoke_eq_respond hredirect
  have hafter : afterScheme location = cfg.destination req ++ queryText req.query := by
    rw [hlocation, afterScheme_text]
  have hhost := hfollows.host
  have hscheme := hfollows.scheme
  rw [hafter, hostOf_queryText] at hhost
  rw [hlocation, schemeOf_text] at hscheme
  have hcurrent := currentScheme_eq hscheme
  have hpath' : req'.path = pathOf (cfg.destination req) := by
    rw [hfollows.path, hafter, pathOf_queryText]
  rw [invoke_eq_cont_iff hhost, Settles, hcurrent, hpath', schemeFor_schemeFor]
  refine or_congr_right ⟨?_, ?_⟩
  · rintro ⟨-, hcanonical, hpathCanonical⟩
    exact ⟨hcanonical, .inr hpathCanonical⟩
  · rintro ⟨hcanonical, hapart | hpathCanonical⟩
    · refine ⟨rfl, hcanonical, canonicalPath_destination hapart fun c hc => ?_⟩
      exact ⟨(hpath c hc).1, (hpath c hc).2.1⟩
    · exact ⟨rfl, hcanonical, hpathCanonical⟩

/-! ## Hosts that read back -/

/-- A character that a URL and a header leave where it is in the authority. -/
def isClean (c : Char) : Bool :=
  decide (32 < c.toNat) && decide (c.toNat < 127) && !isDelimiter c && c != '@'

/-- A character of a host name. -/
def isNameChar (c : Char) : Bool := isClean c && c != ':' && c != '[' && c != ']'

/-- A host name of ordinary characters. -/
def IsName (host : Text) : Prop := host ≠ [] ∧ ∀ c ∈ host, isNameChar c = true

/-- An IPv6 address in brackets. -/
def IsLiteral (host : Text) : Prop :=
  ∃ inner : Text, host = '[' :: inner ++ [']'] ∧ ∀ c ∈ inner, isNameChar c = true ∨ c = ':'

/-- `Host` is a host with an optional port. -/
structure HostWithPort (value host : Text) (port : Option Text) : Prop where
  value_eq : value = host ++ portText port
  host : IsName host ∨ IsLiteral host
  port : ∀ p ∈ port, p ≠ [] ∧ p.all Char.isDigit = true

/-- A text that cannot be taken for an address in brackets, or for a host with a port. -/
def Unsplit (t : Text) : Prop := t.head? ≠ some '[' ∧ (':' ∉ t ∨ t.getLast? = some ']')

section ReadBack

variable {host t : Text} {port : Option Text}

theorem isClean_of_isNameChar {c : Char} (h : isNameChar c = true) : isClean c = true := by
  simp only [isNameChar, Bool.and_eq_true] at h
  exact h.1.1.1

theorem isClean_of_isDigit {c : Char} (h : c.isDigit = true) : isClean c = true := by
  have hrange : 48 ≤ c.toNat ∧ c.toNat ≤ 57 := by
    simpa [Char.isDigit, Char.le_def, UInt32.le_iff_toNat_le] using h
  have hne (d : Char) (hd : d.isDigit = false) : c ≠ d := by
    rintro rfl
    rw [hd] at h
    cases h
  simp only [isClean, isDelimiter, Bool.and_eq_true, decide_eq_true_eq, Bool.not_eq_true',
    decide_eq_false_iff_not, bne_iff_ne]
  refine ⟨⟨⟨by omega, by omega⟩, ?_⟩, hne '@' (by decide)⟩
  rintro (hc | hc | hc)
  · exact hne '/' (by decide) hc
  · exact hne '?' (by decide) hc
  · exact hne '#' (by decide) hc

theorem notMem_of_digits {p : Text} (h : p.all Char.isDigit = true) {c : Char}
    (hc : c.isDigit = false) : c ∉ p := by
  intro hmem
  rw [List.all_eq_true.mp h c hmem] at hc
  cases hc

/-- **A clean authority is read back** from the URL. -/
theorem hostOf_clean {authority path : Text} (hclean : ∀ c ∈ authority, isClean c = true)
    (hhead : path.head? = some '/') : visible (hostOf (authority ++ path)) = authority := by
  obtain ⟨rest, rfl⟩ := List.head?_eq_some_iff.mp hhead
  have hchar (c : Char) (hc : c ∈ authority) : 32 < c.toNat ∧ c.toNat < 127 ∧
      isDelimiter c = false ∧ c ≠ '@' := by
    simpa [isClean, and_assoc] using hclean c hc
  have htake : authority.takeWhile (fun c => !isDelimiter c) = authority := by
    rw [List.takeWhile_eq_self_iff]
    intro c hc
    rw [(hchar c hc).2.2.1]
    rfl
  have huser : rsplitOnce '@' authority = none := by
    rw [rsplitOnce, cutAt_eq_none, Option.map_none]
    intro hmem
    exact (hchar '@' (List.mem_reverse.mp hmem)).2.2.2 rfl
  have hhost : hostOf (authority ++ '/' :: rest) = authority := by
    rw [hostOf, takeWhile_append_cons (by decide), htake, huser]
    rfl
  rw [hhost, visible, if_pos]
  rw [List.all_eq_true]
  intro c hc
  obtain ⟨hlow, hhigh, -⟩ := hchar c hc
  simp [hlow.le, hhigh]

/-- What follows a colon at the end is the port. -/
theorem splitHost_of_port {p : Text} (hhead : t.head? ≠ some '[') (hne : p ≠ [])
    (hp : p.all Char.isDigit = true) : splitHost (t ++ ':' :: p) = (t, some p) := by
  have hhead' : (t ++ ':' :: p).head? ≠ some '[' := by
    cases t with
    | nil => simp
    | cons c t => exact hhead
  have hcut : rsplitOnce ':' (t ++ ':' :: p) = some (t, p) := by
    have hfree : ':' ∉ p.reverse := fun hmem =>
      notMem_of_digits hp (by decide) (List.mem_reverse.mp hmem)
    rw [rsplitOnce, List.reverse_append, List.reverse_cons, List.append_assoc,
      List.singleton_append, cutAt_append hfree]
    simp
  rw [splitHost, if_neg hhead', hcut]
  simp only [hne, hp, ne_eq, not_false_eq_true, and_self, if_true]

/-- **The host and the port are read back.** -/
theorem splitHost_unsplit (h : Unsplit t) (hport : ∀ p ∈ port, p ≠ [] ∧ p.all Char.isDigit = true) :
    splitHost (t ++ portText port) = (t, port) := by
  cases port with
  | some p =>
    obtain ⟨hne, hp⟩ := hport p rfl
    exact splitHost_of_port h.1 hne hp
  | none =>
    rw [portText, Option.elim_none, List.append_nil, splitHost, if_neg h.1]
    cases hcut : rsplitOnce ':' t with
    | none => rfl
    | some cut =>
      obtain ⟨⟨after, before⟩, hcut', rfl⟩ := Option.map_eq_some_iff.mp hcut
      have ht := cutAt_eq_some hcut'
      have hcolon : ':' ∈ t := by
        rw [← List.mem_reverse, ht]
        exact List.mem_append_right _ List.mem_cons_self
      -- the text ends in a bracket, and so does what follows the colon
      have hlast : t.reverse.head? = some ']' := by
        rw [List.head?_reverse]
        exact h.2.resolve_left fun hnot => hnot hcolon
      have hnot : ¬ (after.reverse ≠ [] ∧ after.reverse.all Char.isDigit = true) := by
        rintro ⟨hne, hdigits⟩
        cases after with
        | nil => exact hne rfl
        | cons c after =>
          rw [ht] at hlast
          obtain rfl := Option.some.inj hlast
          refine notMem_of_digits hdigits (c := ']') (by decide) ?_
          rw [List.mem_reverse]
          exact List.mem_cons_self
      simp only [if_neg hnot]

theorem splitHost_literal (h : IsLiteral t) (hport : ∀ p ∈ port, p ≠ [] ∧ p.all Char.isDigit = true) :
    splitHost (t ++ portText port) = (t, port) := by
  obtain ⟨inner, rfl, hinner⟩ := h
  have hfree : ']' ∉ '[' :: inner := by
    rintro hmem
    rcases List.mem_cons.mp hmem with hmem | hmem
    · cases hmem
    · rcases hinner ']' hmem with hname | hcolon
      · exact absurd hname (by decide)
      · cases hcolon
  have hcut : cutAt ']' ('[' :: inner ++ [']'] ++ portText port) = some ('[' :: inner, portText port) := by
    rw [List.append_assoc, List.singleton_append, cutAt_append hfree]
  rw [splitHost, if_pos (by rfl), hcut]
  cases port with
  | none => rfl
  | some p => simp [portText, bracketPort, (hport p rfl).1]

theorem IsName.unsplit (h : IsName host) : Unsplit host := by
  have hnot (c : Char) (hc : isNameChar c = false) : c ∉ host := fun hmem => by
    rw [h.2 c hmem] at hc
    cases hc
  refine ⟨fun hhead => ?_, .inl (hnot ':' (by decide))⟩
  exact hnot '[' (by decide) (List.mem_of_mem_head? hhead)

/-- A host with `www.` before it is no address in brackets. -/
theorem unsplit_www (h : IsName host ∨ IsLiteral host) : Unsplit ("www.".toList ++ host) := by
  refine ⟨by simp, ?_⟩
  rcases h with h | ⟨inner, rfl, -⟩
  · left
    rw [List.mem_append, not_or]
    exact ⟨by decide, h.unsplit.2.resolve_right fun hlast => by
      have hmem := h.2 ']' (List.mem_of_getLast? hlast)
      exact absurd hmem (by decide)⟩
  · right
    rw [← List.append_assoc, List.getLast?_concat]

theorem splitHost_host (h : IsName host ∨ IsLiteral host)
    (hport : ∀ p ∈ port, p ≠ [] ∧ p.all Char.isDigit = true) :
    splitHost (host ++ portText port) = (host, port) :=
  h.elim (fun h => splitHost_unsplit h.unsplit hport) fun h => splitHost_literal h hport

theorem isClean_host (h : IsName host ∨ IsLiteral host) : ∀ c ∈ host, isClean c = true := by
  rcases h with h | ⟨inner, rfl, hinner⟩
  · exact fun c hc => isClean_of_isNameChar (h.2 c hc)
  · intro c hc
    rcases List.mem_append.mp hc with hc | hc
    · rcases List.mem_cons.mp hc with rfl | hc
      · decide
      · rcases hinner c hc with hc | rfl
        · exact isClean_of_isNameChar hc
        · decide
    · obtain rfl := List.mem_singleton.mp hc
      decide

theorem isClean_portText (hport : ∀ p ∈ port, p ≠ [] ∧ p.all Char.isDigit = true) :
    ∀ c ∈ portText port, isClean c = true := by
  cases port with
  | none => simp [portText]
  | some p =>
    intro c hc
    rcases List.mem_cons.mp hc with rfl | hc
    · decide
    · exact isClean_of_isDigit (List.all_eq_true.mp (hport p rfl).2 c hc)

end ReadBack

/-! ## Which hosts settle -/

/-- The host that the map has for a host. -/
def target (cfg : Redirect) (host : Text) : Option Text :=
  (cfg.hostMap.find? fun entry => eqIgnoreCase host entry.1).map Prod.snd

/-- **The host settles.**  If the map has a target for it, that is one the rules leave alone, as it
is read with the port.  If not, and `www.` is put before it, the result is not mapped to anything
else.  If `www.` is taken away, the rest has no other one, and is not mapped to anything else. -/
def HostSettles (cfg : Redirect) (host : Text) (port : Option Text) : Prop :=
  match cfg.target host with
  | some dst => cfg.Canonical (splitHost (dst ++ portText port)).1
  | none =>
    match cfg.canonicalHost with
    | some .www => hasWwwPrefix host = true ∨
        ∀ dst ∈ cfg.target ("www.".toList ++ host), eqIgnoreCase ("www.".toList ++ host) dst = true
    | some .apex => hasWwwPrefix host = true → cfg.Canonical (host.drop 4)
    | none => True

/-- The text of a map and the path keep to their places in the URL. -/
def Regular (cfg : Redirect) (host path : Text) : Prop :=
  (currentPath path).head? = some '/' ∧
    ∀ dst ∈ cfg.target host, dst ≠ [] ∧ ∀ c ∈ dst, isClean c = true

section Hosts

variable {cfg : Redirect} {host : Text}

theorem canonical_iff_target : cfg.Canonical host ↔
    (∀ dst ∈ cfg.target host, eqIgnoreCase host dst = true) ∧
      (cfg.target host = none → cfg.canonicalHost.elim True fun policy =>
        hasWwwPrefix host = decide (policy = .www)) := by
  rw [Canonical, target]
  cases cfg.hostMap.find? fun entry => eqIgnoreCase host entry.1 with
  | some entry => simp
  | none => rcases cfg.canonicalHost with - | ⟨- | -⟩ <;> simp

theorem hasWwwPrefix_www (hne : host ≠ []) : hasWwwPrefix ("www.".toList ++ host) = true := by
  have hlength := List.length_pos_iff.mpr hne
  have htake : ("www.".toList ++ host).take 4 = "www.".toList := rfl
  rw [hasWwwPrefix, htake, List.length_append, Bool.and_eq_true, decide_eq_true_eq]
  exact ⟨Nat.lt_add_of_pos_right hlength, by decide⟩

theorem isName_drop (hhost : IsName host) (hwww : hasWwwPrefix host = true) :
    IsName (host.drop 4) := by
  have hlength := lt_length_of_hasWwwPrefix hwww
  refine ⟨fun hnil => ?_, fun c hc => hhost.2 c (List.mem_of_mem_drop hc)⟩
  rw [List.drop_eq_nil_iff] at hnil
  omega

theorem not_hasWwwPrefix_literal (h : IsLiteral host) : hasWwwPrefix host = false := by
  obtain ⟨inner, rfl, -⟩ := h
  have hfirst : ('[' :: inner ++ [']']).take 4 = '[' :: (inner ++ [']']).take 3 := rfl
  rw [hasWwwPrefix, hfirst]
  simp [eqIgnoreCase, lower]

theorem canonicalHostFor_of_target {dst : Text} (h : cfg.target host = some dst) :
    cfg.canonicalHostFor host = dst := by
  obtain ⟨entry, hentry, rfl⟩ := Option.map_eq_some_iff.mp h
  rw [canonicalHostFor, hentry]

theorem canonicalHostFor_of_unmapped (h : cfg.target host = none) :
    cfg.canonicalHostFor host = cfg.canonicalHost.elim host fun policy =>
      if policy = .www then (if hasWwwPrefix host then host else "www.".toList ++ host)
      else (stripWwwPrefix host).getD host := by
  rw [canonicalHostFor, Option.map_eq_none_iff.mp h]
  rcases cfg.canonicalHost with - | ⟨- | -⟩ <;> rfl

/-- What the rules make of a host is clean, and there is something left of it. -/
theorem canonicalHostFor_clean (hhost : IsName host ∨ IsLiteral host)
    (hmapped : ∀ dst ∈ cfg.target host, dst ≠ [] ∧ ∀ c ∈ dst, isClean c = true) :
    cfg.canonicalHostFor host ≠ [] ∧ ∀ c ∈ cfg.canonicalHostFor host, isClean c = true := by
  have hclean := isClean_host hhost
  have hne : host ≠ [] := by
    rcases hhost with h | ⟨inner, rfl, -⟩
    · exact h.1
    · simp
  cases htarget : cfg.target host with
  | some dst =>
    rw [canonicalHostFor_of_target htarget]
    exact hmapped dst htarget
  | none =>
    rw [canonicalHostFor_of_unmapped htarget]
    rcases cfg.canonicalHost with - | ⟨- | -⟩
    · exact ⟨hne, hclean⟩
    · rw [Option.elim_some, if_pos rfl]
      split
      next => exact ⟨hne, hclean⟩
      next =>
          have hlabel : ∀ c ∈ "www.".toList, isClean c = true := by
            simp [isClean, isDelimiter]
          refine ⟨by simp, fun c hc => ?_⟩
          exact (List.mem_append.mp hc).elim (hlabel c) (hclean c)
    · rw [Option.elim_some, if_neg (by decide)]
      by_cases hwww : hasWwwPrefix host = true
      · rw [stripWwwPrefix_eq_some hwww, Option.getD_some]
        have hlength := lt_length_of_hasWwwPrefix hwww
        refine ⟨fun hnil => ?_, fun c hc => hclean c (List.mem_of_mem_drop hc)⟩
        rw [List.drop_eq_nil_iff] at hnil
        omega
      · rw [stripWwwPrefix, if_neg hwww, Option.getD_none]
        exact ⟨hne, hclean⟩

/-- **Map and policy decide**: the host that the rules lead to, read with the port, is one they leave
alone exactly if the host settles. -/
theorem canonical_canonicalHostFor (hhost : IsName host ∨ IsLiteral host) {port : Option Text}
    (hport : ∀ p ∈ port, p ≠ [] ∧ p.all Char.isDigit = true) :
    cfg.Canonical (splitHost (cfg.canonicalHostFor host ++ portText port)).1 ↔
      cfg.HostSettles host port := by
  cases htarget : cfg.target host with
  | some dst => rw [canonicalHostFor_of_target htarget, HostSettles, htarget]
  | none =>
    have hself : cfg.Canonical (splitHost (host ++ portText port)).1 ↔
        cfg.canonicalHost.elim True fun policy => hasWwwPrefix host = decide (policy = .www) := by
      rw [splitHost_host hhost hport, canonical_iff_target, htarget]
      simp
    rw [canonicalHostFor_of_unmapped htarget, HostSettles, htarget]
    rcases hpolicy : cfg.canonicalHost with - | ⟨- | -⟩
    · rw [Option.elim_none, hself, hpolicy]
      exact Iff.rfl
    · rw [Option.elim_some, if_pos rfl]
      split
      next hwww =>
          rw [hself, hpolicy]
          simp [hwww]
      next hwww =>
          have hne : host ≠ [] := by
            rcases hhost with h | ⟨inner, rfl, -⟩
            · exact h.1
            · simp
          rw [splitHost_unsplit (unsplit_www hhost) hport, canonical_iff_target, hpolicy,
            hasWwwPrefix_www hne]
          simp only [hwww, Option.elim_some, decide_true, implies_true, and_true,
            Bool.false_eq_true, false_or]
    · rw [Option.elim_some, if_neg (by decide)]
      by_cases hwww : hasWwwPrefix host = true
      · have hname : IsName host := hhost.resolve_right fun hliteral => by
          rw [not_hasWwwPrefix_literal hliteral] at hwww
          cases hwww
        rw [stripWwwPrefix_eq_some hwww, Option.getD_some,
          splitHost_unsplit (isName_drop hname hwww).unsplit hport]
        simp [hwww]
      · rw [stripWwwPrefix, if_neg hwww, Option.getD_none, hself, hpolicy]
        simp [hwww]

end Hosts

/-- **When one redirect is enough.**  In the regular case the host settles; a map that puts a slash,
a question mark or the like into the URL, or a path that does not begin with a slash, leads to
whatever is read back from it. -/
def SettlesInOne (cfg : Redirect) (req : Request) (host : Text) (port : Option Text) : Prop :=
  (cfg.Regular host req.path → cfg.HostSettles host port) ∧
    (¬ cfg.Regular host req.path → cfg.Settles req)

/-- In the regular case nothing but the host matters. -/
theorem settles_regular {cfg : Redirect} {req : Request} {host : Text} {port : Option Text}
    (hhost : HostWithPort (hostHeader req) host port) (hregular : cfg.Regular host req.path) :
    cfg.Settles req ↔ cfg.HostSettles host port := by
  have hauthority : cfg.authorityFor req = cfg.canonicalHostFor host ++ portText port := by
    rw [authorityFor, hhost.value_eq, splitHost_host hhost.host hhost.port]
  obtain ⟨hne, hclean⟩ := canonicalHostFor_clean hhost.host hregular.2
  have hall : ∀ c ∈ cfg.authorityFor req, isClean c = true := by
    intro c hc
    rw [hauthority] at hc
    exact (List.mem_append.mp hc).elim (hclean c) (isClean_portText hhost.port c)
  have hapart : cfg.Apart req := by
    refine ⟨fun c hc => ?_, hregular.1⟩
    have hc := hall c hc
    simp only [isClean, Bool.and_eq_true, Bool.not_eq_true'] at hc
    exact hc.1.2
  have hread : visible (hostOf (cfg.destination req)) = cfg.authorityFor req :=
    hostOf_clean hall (cfg.head?_canonicalPath hregular.1)
  rw [Settles, hread, hauthority, ← canonical_canonicalHostFor hhost.host hhost.port]
  simp [hne, hapart]

end Redirect

end Ephpm.Middleware.CanonicalUrl
