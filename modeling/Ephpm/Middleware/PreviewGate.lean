import Ephpm.Cluster.GossipWire
import Ephpm.Lib.Text
import Ephpm.Middleware.Config
import Ephpm.Middleware.LoginRedirect

/-!
# The access gate of a preview

A preview is opened by a signed token, in a cookie or, for a link that was shared, in the query of
the URL.  Both are verified in the same way: signature, expiry and the site they were made for.  A
**share** token can be revoked besides: by its number on a deny list, and by an epoch, where every
token that was issued earlier is refused.  There is one epoch in the configuration and one in the
store of the site, and a store that cannot be read refuses.

The deny list and the stored epoch are looked at only with `share_revocation`.  By its documentation
that switch is about the store.  **The code puts the epoch of the configuration behind it as well**:
if it is off, a share token opens the preview whatever `share_epoch` says (`stale_link_admitted`).

`admission_iff` says for every gate, every state of the store and every request when the gate does
what it promises: always, unless the switch is off and all that the request has to show are share
tokens from before `share_epoch`.

Base64, HMAC, the JSON reader and the decoder of UTF-8 are libraries, of which nothing is used.
-/

namespace Ephpm.Middleware

open Lib

/-- A sequence of bytes. -/
abbrev Bytes := List UInt8

/-- A text of the source. -/
def ascii (s : String) : Bytes := s.toList.map fun c => c.toNat.toUInt8

/-- A dot. -/
def dot : UInt8 := 0x2E

/-- A semicolon. -/
def semicolon : UInt8 := 0x3B

/-- A double quote. -/
def doubleQuote : UInt8 := 0x22

/-! ## Tokens -/

/-- The claims of a token, or the settings of the gate. -/
abbrev Claims := Json Bytes

/-- `numeric_date`: a time in seconds. -/
def numericDate : Claims → Option ℕ
  | .number (.pos n) => some n
  | .number (.float value) =>
    if 0 ≤ value ∧ value < 2 ^ 64 then some ⌊value⌋.toNat else none
  | _ => none

/-- What comes from libraries. -/
structure Libraries where
  /-- `Base64UrlUnpadded::decode_vec`. -/
  base64 : Bytes → Option Bytes
  /-- HMAC with SHA-256, of a key and a message. -/
  hmac : Bytes → Bytes → Bytes
  /-- `serde_json::from_slice`. -/
  parseJson : Bytes → Option Claims
  /-- `str::from_utf8`. -/
  decodeUtf8 : Bytes → Option (List Char)
  /-- Whether an address is one of the machine itself. -/
  isLoopback : Bytes → Bool

/-- `Hs256Policy`: what is asked of a token. -/
structure Hs256Policy where
  secret : Bytes
  issuer : Option Bytes
  audience : Option Bytes

namespace Hs256Policy

/-- `nbf`, if it is there, is a time that has come. -/
def validFrom (claims : Claims) (now : ℕ) : Bool :=
  match claims.get (ascii "nbf") with
  | none => true
  | some nbf => (numericDate nbf).any (· ≤ now)

/-- A claim that is asked for has the value that is asked for. -/
def hasClaim (claims : Claims) (key : String) (expected : Option Bytes) : Bool :=
  expected.all fun expected => (claims.get (ascii key)).bind Json.asStr = some expected

/-- `aud` is the audience, or a list in which it is. -/
def hasAudience (claims : Claims) (expected : Option Bytes) : Bool :=
  expected.all fun expected =>
    match claims.get (ascii "aud") with
    | some (.string aud) => aud = expected
    | some (.array auds) => auds.any fun a => a.asStr = some expected
    | _ => false

/-- `Hs256Policy::verify`.  The signature comes first. -/
def verify (lib : Libraries) (policy : Hs256Policy) (token : Bytes) (now : ℕ)
    (expectedSite : Option Bytes) : Option Bytes :=
  match token.splitOnP (· == dot) with
  | [header64, payload64, sig64] => do
      let sig ← lib.base64 sig64
      guard (lib.hmac policy.secret (header64 ++ dot :: payload64) = sig)
      let header ← (lib.base64 header64).bind lib.parseJson
      guard ((header.get (ascii "alg")).bind Json.asStr = some (ascii "HS256"))
      let payload ← lib.base64 payload64
      let claims ← lib.parseJson payload
      let exp ← (claims.get (ascii "exp")).bind numericDate
      guard (now < exp)
      guard (validFrom claims now)
      guard (hasClaim claims "iss" policy.issuer)
      guard (hasAudience claims policy.audience)
      guard (hasClaim claims "site" expectedSite)
      guard (lib.decodeUtf8 payload).isSome
      return payload
  | _ => none

end Hs256Policy

/-! ## The gate -/

/-- The store of the site: a key is absent, has a value, or cannot be read. -/
abbrev SiteKv := Bytes → Except Unit (Option Bytes)

/-- `PreviewGate` as it is configured. -/
structure PreviewGate where
  policy : Hs256Policy
  cookie : Bytes
  loginUrl : Bytes
  exemptPaths : List Bytes
  shareParam : Bytes
  shareEpoch : ℕ
  shareRevocation : Bool
  returnToParam : Option Bytes
  siteParam : Option Bytes
  requireHttps : Bool
  requireSite : Bool

/-- What the gate sees of a request. -/
structure GateRequest where
  method : Bytes
  path : Bytes
  query : Bytes
  isSecure : Bool
  remoteIp : Bytes
  vhostId : Option Bytes
  /-- The header `Cookie`. -/
  cookies : Option Bytes

/-- What the gate does with a request. -/
inductive GateResponse where
  | cont
  | respond (status : ℕ) (body : Bytes) (headers : List (Bytes × Bytes))

/-- `query_param`: the first value of a parameter, as it is. -/
def queryParam (query name : Bytes) : Option Bytes :=
  (query.splitOnP (· == ampersand)).findSome? fun pair =>
    (cutAt equals pair).bind fun cut => if cut.1 = name then some cut.2 else none

/-- `strip_query_param`. -/
def stripQueryParam (query name : Bytes) : Bytes :=
  let kept := (query.splitOnP (· == ampersand)).filter fun pair =>
    ((cutAt equals pair).map Prod.fst).getD pair ≠ name
  List.intercalate [ampersand] kept

/-- A pair of quotes is taken off. -/
def unquote (value : Bytes) : Bytes :=
  if value.head? = some doubleQuote ∧ value.tail.getLast? = some doubleQuote then
    value.tail.dropLast
  else value

/-- `cookie_values`: the values of all cookies of a name. -/
def cookieValues (header name : Bytes) : List Bytes :=
  let blank := fun b : UInt8 => b == 0x20 || b == 0x09
  (header.splitOnP (· == semicolon)).filterMap fun pair =>
    (cutAt equals pair).bind fun cut =>
      if trimBy blank cut.1 = name then some (unquote (trimBy blank cut.2)) else none

namespace PreviewGate

/-- `login_location` is that of `session-cookie`. -/
def loginLocation (gate : PreviewGate) (returnTo site : Option Bytes) : Bytes :=
  SessionCookie.loginLocation ⟨gate.loginUrl, gate.returnToParam, gate.siteParam⟩ returnTo site

/-- The request is sent to the login. -/
def redirect (gate : PreviewGate) (req : GateRequest) : GateResponse :=
  let status := if req.method = ascii "GET" ∨ req.method = ascii "HEAD" then 302 else 303
  let returnTo := sameOriginReturnTo req.path req.query
  .respond status (ascii "redirecting to login")
    [(ascii "Location", gate.loginLocation returnTo req.vhostId),
      (ascii "Cache-Control", ascii "no-store"), (ascii "Vary", ascii "Cookie")]

/-- The paths of the login itself are not gated. -/
def isExempt (gate : PreviewGate) (path : Bytes) : Bool := gate.exemptPaths.any (· = path)

/-- The key under which a link is revoked. -/
def revokedKey (jti : Bytes) : Bytes := ascii "preview:share:revoked:" ++ jti

/-- The key under which the epoch is stored. -/
def epochKey : Bytes := ascii "preview:share:epoch"

/-- A token for a link that was shared. -/
def isShare (claims : Claims) : Bool := (claims.get (ascii "via")).bind Json.asStr = some (ascii "share")

/-- `iat`, where none is the earliest. -/
def issuedAt (claims : Claims) : ℕ := ((claims.get (ascii "iat")).bind Json.asU64).getD 0

variable (lib : Libraries) (gate : PreviewGate) (kv : SiteKv)

/-- The epoch in the store, if it can be read. -/
def storedEpoch : Option ℕ :=
  match kv epochKey with
  | .ok none => some 0
  | .ok (some bytes) =>
    (lib.decodeUtf8 bytes).bind fun text => Cluster.parseU64 (trimBy isWhite text)
  | .error _ => none

/-- `effective_epoch`: links of earlier epochs are void. -/
def effectiveEpoch : Option ℕ := (storedEpoch lib kv).map (max gate.shareEpoch)

/-- The token is not on the deny list, which could be read. -/
def notDenied (claims : Claims) : Bool :=
  match (claims.get (ascii "jti")).bind Json.asStr with
  | none => true
  | some jti =>
    match kv (revokedKey jti) with
    | .ok none => true
    | _ => false

/-- `share_admitted`: the link is neither revoked nor of an earlier epoch. -/
def shareAdmitted (claims : Claims) : Bool :=
  if !gate.shareRevocation then true
  else if !notDenied kv claims then false
  else
    match gate.effectiveEpoch lib kv with
    | none => false
    | some epoch => epoch = 0 || epoch ≤ issuedAt claims

/-- The payload of a token lets its bearer in. -/
def admitted (payload : Bytes) : Bool :=
  match lib.parseJson payload with
  | none => false
  | some claims => if isShare claims then gate.shareAdmitted lib kv claims else true

/-- `set_cookie`. -/
def setCookie (token : Bytes) (maxAge : ℕ) (secure : Bool) : Bytes :=
  gate.cookie ++ equals :: token ++ ascii "; Path=/; HttpOnly; SameSite=Lax; Max-Age=" ++
    ascii (toString maxAge) ++ if secure then ascii "; Secure" else []

/-- `share_query_exchange`: a link in the query is exchanged for a cookie. -/
def shareQueryExchange (req : GateRequest) (now : ℕ) (expected : Option Bytes) :
    Option GateResponse := do
  let token ← queryParam req.query gate.shareParam
  let payload ← gate.policy.verify lib token now expected
  let claims ← lib.parseJson payload
  guard (isShare claims)
  guard (gate.shareAdmitted lib kv claims)
  let exp := ((claims.get (ascii "exp")).bind Json.asU64).getD now
  let stripped := stripQueryParam req.query gate.shareParam
  let target := (sameOriginReturnTo req.path stripped).getD [slash]
  return .respond 303 (ascii "share link accepted")
    [(ascii "Location", target),
      (ascii "Set-Cookie", gate.setCookie token (exp - now) req.isSecure),
      (ascii "Cache-Control", ascii "no-store"), (ascii "Vary", ascii "Cookie")]

/-- The request comes in clear text, from another machine. -/
def inClear (req : GateRequest) : Bool :=
  gate.requireHttps && !req.isSecure && !lib.isLoopback req.remoteIp

/-- The refusal of a request whatever it has to show. -/
def forbidden (body : String) : GateResponse :=
  .respond 403 (ascii body) [(ascii "Cache-Control", ascii "no-store")]

/-- The two ways in, for a site that is known or not asked for. -/
def enter (req : GateRequest) (now : ℕ) (expected : Option Bytes) : GateResponse :=
  match gate.shareQueryExchange lib kv req now expected with
  | some response => response
  | none =>
    let tokens := req.cookies.elim [] (cookieValues · gate.cookie)
    if tokens.any fun token =>
        (gate.policy.verify lib token now expected).any (gate.admitted lib kv) then .cont
    else gate.redirect req

/-- `invoke`. -/
def invoke (req : GateRequest) (now : ℕ) : GateResponse :=
  if gate.isExempt req.path then .cont
  else if gate.inClear lib req then
    forbidden "preview access requires HTTPS (see `require_https`)"
  else if gate.requireSite then
    match req.vhostId with
    | none => forbidden "this preview gate requires a resolved site (see `require_site`)"
    | some site => gate.enter lib kv req now (some site)
  else gate.enter lib kv req now none

/-! ### The configuration -/

/-- `opt_str`: absent, `null` and the empty text are one. -/
def optStr (config : Claims) (key : String) : Except (InitError Bytes) (Option Bytes) :=
  match config.setting (ascii key) with
  | none => .ok none
  | some (.string s) => .ok (if s = [] then none else some s)
  | some _ => .error (.notString (ascii key))

/-- The setting `share_epoch`. -/
def optU64 (config : Claims) (key : String) : Except (InitError Bytes) ℕ :=
  match config.setting (ascii key) with
  | none => .ok 0
  | some v => v.asU64.elim (.error (.notInteger (ascii key))) .ok

/-- An entry of `exempt_paths`. -/
def exemptPath (item : Claims) : Except (InitError Bytes) Bytes :=
  match item.asStr with
  | none => .error (.notString (ascii "exempt_paths"))
  | some path => if path.head? = some slash then .ok path else .error (.relativePath path)

/-- The setting `exempt_paths`. -/
def optPaths (config : Claims) : Except (InitError Bytes) (List Bytes) :=
  match config.setting (ascii "exempt_paths") with
  | none => .ok []
  | some (.array items) => items.mapM exemptPath
  | some _ => .error (.notArray (ascii "exempt_paths"))

/-- `Hs256Policy::from_config`. -/
def policyFromConfig (config : Claims) : Except (InitError Bytes) Hs256Policy := do
  let some value := config.get (ascii "secret") | throw (.required (ascii "secret"))
  let some secret := value.asStr | throw (.notString (ascii "secret"))
  if secret = [] then
    throw (.empty (ascii "secret"))
  return { secret, issuer := ← optStr config "issuer", audience := ← optStr config "audience" }

/-- A URL with a scheme, or a path on the same origin. -/
def isLoginUrl (url : Bytes) : Bool :=
  (ascii "https://").isPrefixOf url || (ascii "http://").isPrefixOf url ||
    ([slash].isPrefixOf url && !([slash, slash].isPrefixOf url))

/-- `init`. -/
def init (config : Claims) : Except (InitError Bytes) PreviewGate := do
  let some loginUrl ← optStr config "login_url" | throw (.required (ascii "login_url"))
  if !isLoginUrl loginUrl then
    throw (.badLoginUrl loginUrl)
  let exemptPaths ← optPaths config
  let shareEpoch ← optU64 config "share_epoch"
  let policy ← policyFromConfig config
  let cookie := (← optStr config "cookie").getD (ascii "ephpm_session")
  let shareParam := (← optStr config "share_param").getD (ascii "ephpm_share")
  let shareRevocation ← config.optBool (ascii "share_revocation") true
  let returnToParam ← optStr config "return_to_param"
  let siteParam ← optStr config "site_param"
  let requireHttps ← config.optBool (ascii "require_https") true
  let requireSite ← config.optBool (ascii "require_site") true
  return { policy, cookie, loginUrl, exemptPaths, shareParam, shareEpoch, shareRevocation,
           returnToParam, siteParam, requireHttps, requireSite }

/-! ## What the gate promises -/

/-- The request is let through, or a cookie is planted. -/
def Grants : GateResponse → Prop
  | .cont => True
  | .respond _ _ headers => ascii "Set-Cookie" ∈ headers.map Prod.fst

/-- The tokens a request has to show. -/
def presented (req : GateRequest) : List Bytes :=
  (queryParam req.query gate.shareParam).toList ++
    req.cookies.elim [] (cookieValues · gate.cookie)

/-- The token verifies for the site of the request, with these claims. -/
def Verifies (req : GateRequest) (now : ℕ) (token : Bytes) (claims : Claims) : Prop :=
  ∃ site payload, req.vhostId = some site ∧
    gate.policy.verify lib token now (some site) = some payload ∧
    lib.parseJson payload = some claims

/-- A share token that none of the three ways has revoked.  The store counts if it is looked at. -/
def Live (claims : Claims) : Prop :=
  gate.shareEpoch ≤ issuedAt claims ∧
    (gate.shareRevocation = true → notDenied kv claims = true ∧
      ∃ stored, storedEpoch lib kv = some stored ∧ stored ≤ issuedAt claims)

/-- **What the gate promises**: whoever gets in has a token that verifies and is not revoked. -/
def Promise (req : GateRequest) (now : ℕ) : Prop :=
  Grants (gate.invoke lib kv req now) →
    ∃ token ∈ gate.presented req, ∃ claims, gate.Verifies lib req now token claims ∧
      (isShare claims = true → gate.Live lib kv claims)

/-- If anything verifies, then a session does or a share token that is not from before
`share_epoch`. -/
def Current (req : GateRequest) (now : ℕ) : Prop :=
  (∃ token ∈ gate.presented req, ∃ claims, gate.Verifies lib req now token claims) →
    ∃ token ∈ gate.presented req, ∃ claims, gate.Verifies lib req now token claims ∧
      (isShare claims = true → gate.shareEpoch ≤ issuedAt claims)

/-! ## What the gate does -/

variable {lib gate kv} {req : GateRequest} {now : ℕ} {claims : Claims}

/-- With `share_revocation`, a share token that is admitted is not revoked. -/
theorem live_of_shareAdmitted (hon : gate.shareRevocation = true)
    (h : gate.shareAdmitted lib kv claims = true) : gate.Live lib kv claims := by
  rw [shareAdmitted, if_neg (by simp [hon])] at h
  split at h
  next => cases h
  next hdenied =>
      rw [effectiveEpoch] at h
      cases hstored : storedEpoch lib kv with
      | none => simp [hstored] at h
      | some stored =>
        simp only [hstored, Option.map_some, Bool.or_eq_true, decide_eq_true_eq] at h
        have hle : max gate.shareEpoch stored ≤ issuedAt claims := by omega
        have hlisted : notDenied kv claims = true := by simpa using hdenied
        refine ⟨(le_max_left _ _).trans hle, fun _ => ⟨hlisted, stored, hstored, ?_⟩⟩
        exact (le_max_right _ _).trans hle

theorem shareAdmitted_of_off (hoff : gate.shareRevocation = false) :
    gate.shareAdmitted lib kv claims = true := by
  rw [shareAdmitted, if_pos (by simp [hoff])]

theorem not_grants_forbidden (body : String) : ¬Grants (forbidden body) := by
  change ascii "Set-Cookie" ∉ [ascii "Cache-Control"]
  decide

theorem not_grants_redirect : ¬Grants (gate.redirect req) := by
  change ascii "Set-Cookie" ∉ [ascii "Location", ascii "Cache-Control", ascii "Vary"]
  decide

/-- A computation that went past a check met it. -/
theorem guard_bind_eq_some {α : Type} {p : Prop} [Decidable p] {next : Option α} {a : α}
    (h : (guard p >>= fun _ => next) = some a) : p ∧ next = some a := by
  by_cases hp : p
  · exact ⟨hp, by simpa [guard, hp] using h⟩
  · simp [guard, hp] at h

theorem shareQueryExchange_eq_some {expected : Option Bytes} {response : GateResponse}
    (h : gate.shareQueryExchange lib kv req now expected = some response) :
    ∃ token payload claims, queryParam req.query gate.shareParam = some token ∧
      gate.policy.verify lib token now expected = some payload ∧
      lib.parseJson payload = some claims ∧ gate.shareAdmitted lib kv claims = true ∧
      Grants response := by
  obtain ⟨token, htoken, h⟩ := Option.bind_eq_some_iff.mp h
  obtain ⟨payload, hpayload, h⟩ := Option.bind_eq_some_iff.mp h
  obtain ⟨claims, hclaims, h⟩ := Option.bind_eq_some_iff.mp h
  obtain ⟨-, h⟩ := guard_bind_eq_some h
  obtain ⟨hadmitted, h⟩ := guard_bind_eq_some h
  obtain rfl := Option.some.inj h
  refine ⟨token, payload, claims, htoken, hpayload, hclaims, hadmitted, ?_⟩
  exact List.mem_cons_of_mem _ List.mem_cons_self

theorem exists_shareQueryExchange {expected : Option Bytes} {token payload : Bytes}
    (htoken : queryParam req.query gate.shareParam = some token)
    (hpayload : gate.policy.verify lib token now expected = some payload)
    (hclaims : lib.parseJson payload = some claims) (hshare : isShare claims = true)
    (hadmitted : gate.shareAdmitted lib kv claims = true) :
    ∃ response, gate.shareQueryExchange lib kv req now expected = some response := by
  simp [shareQueryExchange, htoken, hpayload, hclaims, hshare, hadmitted, guard]

theorem admitted_iff {payload : Bytes} : gate.admitted lib kv payload = true ↔
    ∃ claims, lib.parseJson payload = some claims ∧
      (isShare claims = true → gate.shareAdmitted lib kv claims = true) := by
  rw [admitted]
  cases lib.parseJson payload with
  | none => simp
  | some claims => by_cases hshare : isShare claims <;> simp [hshare]

theorem invoke_eq_enter {site : Bytes} (hsite : gate.requireSite = true)
    (hpath : gate.isExempt req.path = false) (hclear : gate.inClear lib req = false)
    (hvhost : req.vhostId = some site) :
    gate.invoke lib kv req now = gate.enter lib kv req now (some site) := by
  simp [invoke, hpath, hclear, hsite, hvhost]

theorem verifies_of_grants_enter {site : Bytes} (hvhost : req.vhostId = some site)
    (h : Grants (gate.enter lib kv req now (some site))) :
    ∃ token ∈ gate.presented req, ∃ claims, gate.Verifies lib req now token claims ∧
      (isShare claims = true → gate.shareAdmitted lib kv claims = true) := by
  rw [enter] at h
  split at h
  next response hexchange =>
      obtain ⟨token, payload, claims, htoken, hpayload, hclaims, hadmitted, -⟩ :=
        shareQueryExchange_eq_some hexchange
      refine ⟨token, List.mem_append_left _ (Option.mem_toList.mpr htoken), claims, ?_, ?_⟩
      · exact ⟨site, payload, hvhost, hpayload, hclaims⟩
      · exact fun _ => hadmitted
  next =>
      dsimp only at h
      split at h
      next hany =>
          obtain ⟨token, htoken, hverified⟩ := List.any_eq_true.mp hany
          obtain ⟨payload, hpayload, hadmitted⟩ := (Option.any_eq_true _ _).mp hverified
          obtain ⟨claims, hclaims, hshare⟩ := admitted_iff.mp hadmitted
          refine ⟨token, List.mem_append_right _ htoken, claims, ?_, hshare⟩
          exact ⟨site, payload, hvhost, hpayload, hclaims⟩
      next => exact absurd h not_grants_redirect

/-- **Whoever gets in has shown a token that verifies**, and a share token was admitted. -/
theorem verifies_of_grants (hsite : gate.requireSite = true)
    (hpath : gate.isExempt req.path = false)
    (h : Grants (gate.invoke lib kv req now)) :
    gate.inClear lib req = false ∧ ∃ token ∈ gate.presented req, ∃ claims,
      gate.Verifies lib req now token claims ∧
        (isShare claims = true → gate.shareAdmitted lib kv claims = true) := by
  rw [invoke, if_neg (by simp [hpath]), if_pos hsite] at h
  split at h
  next => exact absurd h (not_grants_forbidden _)
  next hclear =>
      cases hvhost : req.vhostId with
      | none =>
        rw [hvhost] at h
        exact absurd h (not_grants_forbidden _)
      | some site =>
        rw [hvhost] at h
        exact ⟨Bool.eq_false_of_not_eq_true hclear, verifies_of_grants_enter hvhost h⟩

/-- Without `share_revocation`, a share token that verifies is enough. -/
theorem grants_of_verifies {token : Bytes} (hsite : gate.requireSite = true)
    (hpath : gate.isExempt req.path = false) (hclear : gate.inClear lib req = false)
    (hoff : gate.shareRevocation = false) (htoken : token ∈ gate.presented req)
    (hverifies : gate.Verifies lib req now token claims) (hshare : isShare claims = true) :
    Grants (gate.invoke lib kv req now) := by
  obtain ⟨site, payload, hvhost, hpayload, hclaims⟩ := hverifies
  have hadmitted : gate.shareAdmitted lib kv claims = true := shareAdmitted_of_off hoff
  rw [invoke_eq_enter hsite hpath hclear hvhost, enter]
  cases hexchange : gate.shareQueryExchange lib kv req now (some site) with
  | some response =>
    obtain ⟨-, -, -, -, -, -, -, hgrants⟩ := shareQueryExchange_eq_some hexchange
    exact hgrants
  | none =>
    rcases List.mem_append.mp htoken with hquery | hcookie
    · obtain ⟨response, hresponse⟩ := exists_shareQueryExchange
        (Option.mem_toList.mp hquery) hpayload hclaims hshare hadmitted
      cases hexchange.symm.trans hresponse
    · dsimp only
      rw [if_pos]
      · trivial
      · refine List.any_eq_true.mpr ⟨token, hcookie, ?_⟩
        rw [hpayload, Option.any_some, admitted_iff]
        exact ⟨claims, hclaims, fun _ => hadmitted⟩

/-- **The gate keeps its promise if and only if** `share_revocation` is on, the request comes in
clear text, or not all it has to show are share tokens from before `share_epoch`. -/
theorem admission_iff (lib : Libraries) (gate : PreviewGate) (kv : SiteKv) (req : GateRequest)
    (now : ℕ) (hsite : gate.requireSite = true)
    (hpath : gate.isExempt req.path = false) :
    gate.Promise lib kv req now ↔
      gate.shareRevocation = true ∨ gate.inClear lib req = true ∨ gate.Current lib req now := by
  constructor
  · intro hpromise
    by_cases hon : gate.shareRevocation = true
    · exact .inl hon
    by_cases hclear : gate.inClear lib req = true
    · exact .inr (.inl hclear)
    refine .inr (.inr fun hshown => ?_)
    obtain ⟨token, htoken, claims, hverifies⟩ := hshown
    by_cases hstale : isShare claims = true → gate.shareEpoch ≤ issuedAt claims
    · exact ⟨token, htoken, claims, hverifies, hstale⟩
    -- A stale share token gets in, so the promise gives a token that is not stale.
    · have hshare := (Classical.not_imp.mp hstale).1
      obtain ⟨other, hother, claims', hverifies', hlive⟩ := hpromise
        (grants_of_verifies hsite hpath (Bool.eq_false_of_not_eq_true hclear)
          (Bool.eq_false_of_not_eq_true hon) htoken hverifies hshare)
      exact ⟨other, hother, claims', hverifies', fun hshare' => (hlive hshare').1⟩
  · intro hcondition hgrants
    obtain ⟨hclear, token, htoken, claims, hverifies, hadmitted⟩ :=
      verifies_of_grants hsite hpath hgrants
    cases hon : gate.shareRevocation with
    | true =>
      refine ⟨token, htoken, claims, hverifies, fun hshare => ?_⟩
      exact live_of_shareAdmitted hon (hadmitted hshare)
    | false =>
      have hcurrent : gate.Current lib req now := by
        rcases hcondition with hcondition | hcondition | hcurrent
        · exact absurd (hon.symm.trans hcondition) Bool.false_ne_true
        · exact absurd (hclear.symm.trans hcondition) Bool.false_ne_true
        · exact hcurrent
      obtain ⟨other, hother, claims', hverifies', hfresh⟩ :=
        hcurrent ⟨token, htoken, claims, hverifies⟩
      refine ⟨other, hother, claims', hverifies', fun hshare => ⟨hfresh hshare, fun hon' => ?_⟩⟩
      exact absurd (hon.symm.trans hon') Bool.false_ne_true

/-! ## A shared link -/

/-- The value that a table has for a text. -/
def tabulated {α : Type} (table : List (Bytes × α)) (text : Bytes) : Option α :=
  (table.find? fun row => row.1 = text).map Prod.snd

/-- The header of a token. -/
def linkHeader : Bytes := ascii "\x7b\"alg\":\"HS256\"\x7d"

/-- The claims of a share token for the site `a`, issued at 50 and good until 200. -/
def linkPayload : Bytes :=
  ascii "\x7b\"site\":\"a\",\"via\":\"share\",\"iat\":50,\"exp\":200\x7d"

/-- The claims as they are read. -/
def linkClaims : Claims := .object
  [(ascii "site", .string (ascii "a")), (ascii "via", .string (ascii "share")),
    (ascii "iat", .number (.pos 50)), (ascii "exp", .number (.pos 200))]

/-- What is signed. -/
def linkMessage : Bytes :=
  ascii "eyJhbGciOiJIUzI1NiJ9.eyJzaXRlIjoiYSIsInZpYSI6InNoYXJlIiwiaWF0Ijo1MCwiZXhwIjoyMDB9"

/-- The signature with the secret `k`. -/
def linkSignature : Bytes :=
  [170, 37, 69, 148, 127, 113, 111, 96, 65, 30, 153, 170, 116, 248, 167, 169, 108, 42, 52, 196,
    225, 40, 182, 173, 42, 11, 149, 21, 137, 219, 59, 185]

/-- The token. -/
def linkToken : Bytes := linkMessage ++ ascii ".qiVFlH9xb2BBHpmqdPinqWwqNMThKLatKguVFYnbO7k"

/-- The libraries, as far as this one token needs them. -/
def linkLibraries : Libraries where
  base64 := tabulated
    [(ascii "eyJhbGciOiJIUzI1NiJ9", linkHeader),
      (ascii "eyJzaXRlIjoiYSIsInZpYSI6InNoYXJlIiwiaWF0Ijo1MCwiZXhwIjoyMDB9", linkPayload),
      (ascii "qiVFlH9xb2BBHpmqdPinqWwqNMThKLatKguVFYnbO7k", linkSignature)]
  hmac key message := if key = ascii "k" ∧ message = linkMessage then linkSignature else []
  parseJson := tabulated
    [(linkHeader, .object [(ascii "alg", .string (ascii "HS256"))]), (linkPayload, linkClaims)]
  decodeUtf8 bytes :=
    if bytes.all (· < 0x80) then some (bytes.map fun b => Char.ofNat b.toNat) else none
  isLoopback ip := ip = ascii "127.0.0.1"

/-- A request for the site `a` with the token in its cookie. -/
def cookieRequest : GateRequest where
  method := ascii "GET"
  path := ascii "/"
  query := []
  isSecure := true
  remoteIp := ascii "10.0.0.1"
  vhostId := some (ascii "a")
  cookies := some (ascii "ephpm_session=" ++ linkToken)

/-- A gate with an epoch of its own, with or without revocation by the store. -/
def epochGate (shareRevocation : Bool) (shareEpoch : ℕ) : PreviewGate where
  policy := { secret := ascii "k", issuer := none, audience := none }
  cookie := ascii "ephpm_session"
  loginUrl := ascii "/login"
  exemptPaths := []
  shareParam := ascii "ephpm_share"
  shareEpoch := shareEpoch
  shareRevocation := shareRevocation
  returnToParam := none
  siteParam := none
  requireHttps := true
  requireSite := true

/-- With `share_revocation` the token gets in if it was issued after the epoch. -/
theorem admission_iff_sample :
    let gate := epochGate true 40
    let kv : SiteKv := fun _ => .ok none
    gate.invoke linkLibraries kv cookieRequest 60 = .cont ∧
      gate.Promise linkLibraries kv cookieRequest 60 := by
  intro gate kv
  exact ⟨rfl, (admission_iff linkLibraries gate kv cookieRequest 60 rfl rfl).mpr (.inl rfl)⟩

/-- **A link from before `share_epoch` opens the preview** if `share_revocation` is off. -/
theorem stale_link_admitted :
    let config : Claims := .object
      [(ascii "secret", .string (ascii "k")), (ascii "login_url", .string (ascii "/login")),
        (ascii "share_epoch", .number (.pos 100)), (ascii "share_revocation", .bool false)]
    let gate := epochGate false 100
    let kv : SiteKv := fun _ => .ok none
    init config = .ok gate ∧ gate.invoke linkLibraries kv cookieRequest 60 = .cont ∧
      ¬gate.Promise linkLibraries kv cookieRequest 60 := by
  intro config gate kv
  have hinvoke : gate.invoke linkLibraries kv cookieRequest 60 = .cont := rfl
  refine ⟨rfl, hinvoke, fun hpromise => ?_⟩
  have hgrants : Grants (gate.invoke linkLibraries kv cookieRequest 60) := hinvoke ▸ trivial
  obtain ⟨token, htoken, claims, ⟨site, payload, hsite, hverified, hclaims⟩, hlive⟩ :=
    hpromise hgrants
  have hshown : gate.presented cookieRequest = [linkToken] := rfl
  obtain rfl : token = linkToken := by simpa [hshown] using htoken
  obtain rfl : ascii "a" = site := Option.some.inj hsite
  have hpayload : gate.policy.verify linkLibraries linkToken 60 (some (ascii "a")) =
      some linkPayload := rfl
  obtain rfl : linkPayload = payload := Option.some.inj (hpayload.symm.trans hverified)
  obtain rfl : linkClaims = claims := Option.some.inj hclaims
  have hepoch : 100 ≤ 50 := (hlive rfl).1
  exact absurd hepoch (by decide)

end PreviewGate

end Ephpm.Middleware
