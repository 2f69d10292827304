import Mathlib.Data.Fintype.Basic
import Mathlib.Tactic.FinCases
import Ephpm.Lib.Text

/-!
# The client's address behind trusted proxies

A request that comes from a trusted proxy is attributed to an address that its `X-Forwarded-For`
lines name.  Every proxy adds the address it was called from at the right end, so the list is
read **from the right**: trusted addresses are the proxies' own, and the first address that is
not trusted is the client.  What stands further to the left is the client's own text, and
nothing there should matter.

**What does matter.**  The walk stops before it gets to the client's text, but the lines are
turned into text before the walk begins, and that fails for a line with a byte that is not
visible ASCII.  Then the request is attributed to the proxy itself.  So the client decides
between its address and the proxy's, and this is all it can decide
(`client_address_iff`).

Header values are lists of bytes, each written as the character with its code.
-/

namespace Ephpm.Server

open Lib

/-! ## Addresses and headers -/

/-- What the server takes from libraries: addresses as texts and networks of addresses. -/
structure Addressing (Ip Net : Type) where
  /-- `str::parse::<IpAddr>`. -/
  parse : List Char → Option Ip
  /-- The text of an address, as a proxy writes it. -/
  display : Ip → List Char
  /-- `IpAddr::to_canonical`. -/
  toCanonical : Ip → Ip
  /-- `IpNet::contains`. -/
  contains : Net → Ip → Bool
  parse_display : ∀ ip, parse (display ip) = some ip
  /-- An address is written in digits, letters, dots and colons. -/
  graphic : ∀ ip, ∀ c ∈ display ip, 33 ≤ c.toNat ∧ c.toNat < 127 ∧ c ≠ ','

/-- A byte that `HeaderValue::to_str` takes. -/
def isVisible (c : Char) : Bool := (32 ≤ c.toNat && c.toNat < 127) || c = '\t'

/-- `HeaderValue::to_str`. -/
def toStr (value : List Char) : Option (List Char) :=
  if value.all isVisible then some value else none

/-- The white space that a visible text can hold. -/
def isBlank (c : Char) : Bool := c = ' ' || c = '\t'

/-- The headers a request's origin is read from. -/
structure ProxyHeaders where
  forwardedFor : List (List Char)
  forwardedProto : Option (List Char)

/-! ## Resolving -/

section

variable {Ip Net : Type} (a : Addressing Ip Net) (trusted : List Net)

/-- `is_trusted_proxy`. -/
def isTrustedProxy (ip : Ip) : Bool := trusted.any fun net => a.contains net (a.toCanonical ip)

/-- The entries of a comma-separated list; `none` for one that is no address. -/
def entries (text : List Char) : List (Option Ip) :=
  (text.splitOnP (· = ',')).map fun entry => a.parse (trimBy isBlank entry)

/-- The walk of `resolve_xff` over the entries, the rightmost one first: what it returns, if it
does. -/
def walkXff : List (Option Ip) → Option (Option Ip)
  | [] => none
  | none :: _ => some none
  | some ip :: rest => if isTrustedProxy a trusted ip then walkXff rest else some (some ip)

/-- `resolve_xff`: if all entries are trusted, the leftmost one counts. -/
def resolveXff (xff : List Char) : Option Ip :=
  (walkXff a trusted (entries a xff).reverse).getD (entries a xff).head?.join

/-- The lines as one list. -/
def joinLines (first : List Char) (rest : List (List Char)) : Option (List Char) :=
  rest.foldlM (fun joined line => (toStr line).map fun text => joined ++ ',' :: text) first

/-- `forwarded_client_ip`: all lines have to be readable. -/
def forwardedClientIp : List (List Char) → Option Ip
  | [] => none
  | first :: rest =>
    (toStr first).bind fun first => (joinLines first rest).bind (resolveXff a trusted)

/-- `resolve_proxy_info`: the address with its port, and whether the client used TLS. -/
def resolveProxyInfo (req : ProxyHeaders) (remoteAddr : Ip × ℕ) (isTls : Bool) :
    (Ip × ℕ) × Bool :=
  if trusted.isEmpty || !isTrustedProxy a trusted remoteAddr.1 then (remoteAddr, isTls)
  else
    let realIp := (forwardedClientIp a trusted req.forwardedFor).getD remoteAddr.1
    let isHttps := ((req.forwardedProto.bind toStr).map fun proto =>
      decide (proto.map Char.toLower = "https".toList)).getD isTls
    ((realIp, remoteAddr.2), isHttps)

/-! ## What proxies do to the lines -/

/-- How a proxy adds an address: as a line of its own, or at the end of the last line. -/
inductive How where
  | addLine
  | extendLast (blanks : ℕ)

/-- An address is added. -/
def appendHop (lines : List (List Char)) (hop : How × Ip) : List (List Char) :=
  match hop.1, lines.getLast? with
  | .extendLast blanks, some last =>
    lines.dropLast ++ [last ++ ',' :: (List.replicate blanks ' ' ++ a.display hop.2)]
  | _, _ => lines ++ [a.display hop.2]

end

/-! ## Joining the lines -/

section

variable {Ip Net : Type} {a : Addressing Ip Net} {trusted : List Net}

/-- The lines become one text if all of them are visible. -/
theorem joinLines_eq (first : List Char) (rest : List (List Char)) :
    joinLines first rest =
      if ∀ line ∈ rest, line.all isVisible = true then
        some (first ++ rest.flatMap fun line => ',' :: line)
      else none := by
  induction rest generalizing first with
  | nil => simp [joinLines]
  | cons line rest ih =>
    rw [joinLines, List.foldlM_cons, toStr]
    by_cases hline : line.all isVisible = true
    · have hjoin := ih (first ++ ',' :: line)
      rw [joinLines] at hjoin
      simp only [hline, if_true, Option.map_some, Option.bind_eq_bind, Option.bind_some, hjoin,
        List.forall_mem_cons, true_and, List.flatMap_cons, List.append_assoc, List.cons_append]
    · rw [if_neg hline, if_neg fun hall => hline (hall line List.mem_cons_self)]
      rfl

theorem entries_join (first : List Char) (rest : List (List Char)) :
    entries a (first ++ rest.flatMap fun line => ',' :: line) =
      (first :: rest).flatMap (entries a) := by
  induction rest generalizing first with
  | nil => simp
  | cons line rest ih =>
    have hsplit := List.splitOnP_append_cons (p := fun c => decide (c = ',')) first
      (line ++ rest.flatMap fun line => ',' :: line) (decide_eq_true rfl)
    have htail := ih line
    simp only [entries] at htail ⊢
    rw [List.flatMap_cons, List.cons_append, hsplit, List.map_append, htail]
    rfl

/-! ## Adding addresses -/

theorem entries_hop (blanks : ℕ) (ip : Ip) :
    entries a (List.replicate blanks ' ' ++ a.display ip) = [some ip] := by
  have hfree : ∀ c ∈ List.replicate blanks ' ' ++ a.display ip, decide (c = ',') = false := by
    intro c hc
    rw [decide_eq_false_iff_not]
    rcases List.mem_append.mp hc with hblank | hgraphic
    · rw [List.eq_of_mem_replicate hblank]
      decide
    · exact (a.graphic ip c hgraphic).2.2
  have hends : ∀ c ∈ a.display ip, isBlank c = false := by
    intro c hc
    have hlow := (a.graphic ip c hc).1
    rw [isBlank, Bool.or_eq_false_iff]
    constructor <;>
    · rw [decide_eq_false_iff_not]
      rintro rfl
      exact absurd hlow (by decide)
  have htrim : trimBy isBlank (List.replicate blanks ' ' ++ a.display ip) = a.display ip := by
    rw [trimBy_append_left fun c hc => by rw [List.eq_of_mem_replicate hc]; rfl]
    exact trimBy_eq_self (fun c hc => hends c (List.mem_of_mem_head? hc))
      fun c hc => hends c (List.mem_of_mem_getLast? hc)
  rw [entries, List.splitOnP_eq_singleton hfree, List.map_singleton, htrim, a.parse_display]

/-- However it is added, an address is one more entry at the right end. -/
theorem entries_appendHop (lines : List (List Char)) (hop : How × Ip) :
    (appendHop a lines hop).flatMap (entries a) = lines.flatMap (entries a) ++ [some hop.2] := by
  have hbare : entries a (a.display hop.2) = [some hop.2] := entries_hop 0 hop.2
  unfold appendHop
  split
  next blanks last _ hlast =>
    have hlines : lines = lines.dropLast ++ [last] :=
      (List.dropLast_append_getLast? last hlast).symm
    have hsplit := List.splitOnP_append_cons (p := fun c => decide (c = ',')) last
      (List.replicate blanks ' ' ++ a.display hop.2) (decide_eq_true rfl)
    have hlastEntries : entries a (last ++ ',' :: (List.replicate blanks ' ' ++ a.display hop.2)) =
        entries a last ++ [some hop.2] := by
      rw [entries, hsplit, List.map_append, ← entries_hop blanks hop.2]
      rfl
    conv_rhs => rw [hlines]
    simp only [List.flatMap_append, List.flatMap_singleton, hlastEntries, List.append_assoc]
  · rw [List.flatMap_append, List.flatMap_singleton, hbare]

/-- Adding an address changes nothing about what is visible. -/
theorem visible_appendHop (lines : List (List Char)) (hop : How × Ip) :
    (∀ line ∈ appendHop a lines hop, line.all isVisible = true) ↔
      ∀ line ∈ lines, line.all isVisible = true := by
  have hdisplay : (a.display hop.2).all isVisible = true := by
    refine List.all_eq_true.mpr fun c hc => ?_
    obtain ⟨hlow, hhigh, -⟩ := a.graphic hop.2 c hc
    simp only [isVisible, Bool.or_eq_true, Bool.and_eq_true, decide_eq_true_eq]
    exact Or.inl ⟨by omega, hhigh⟩
  unfold appendHop
  split
  next blanks last _ hlast =>
    have hlines : lines = lines.dropLast ++ [last] :=
      (List.dropLast_append_getLast? last hlast).symm
    have hblanks : (List.replicate blanks ' ').all isVisible = true :=
      List.all_eq_true.mpr fun c hc => by rw [List.eq_of_mem_replicate hc]; rfl
    have hcomma : isVisible ',' = true := rfl
    conv_rhs => rw [hlines]
    simp only [List.forall_mem_append, List.forall_mem_singleton, List.all_append, List.all_cons,
      hblanks, hdisplay, hcomma, Bool.and_true]
  · simp only [List.forall_mem_append, List.forall_mem_singleton, hdisplay, and_true]

/-- All the addresses that were added, in order. -/
theorem entries_hops (lines : List (List Char)) (hops : List (How × Ip)) :
    (hops.foldl (appendHop a) lines).flatMap (entries a) =
      lines.flatMap (entries a) ++ hops.map fun hop => some hop.2 := by
  induction hops generalizing lines with
  | nil => simp
  | cons hop hops ih =>
    rw [List.foldl_cons, ih, entries_appendHop, List.append_assoc, List.map_cons]
    rfl

theorem visible_hops (lines : List (List Char)) (hops : List (How × Ip)) :
    (∀ line ∈ hops.foldl (appendHop a) lines, line.all isVisible = true) ↔
      ∀ line ∈ lines, line.all isVisible = true := by
  induction hops generalizing lines with
  | nil => rfl
  | cons hop hops ih => rw [List.foldl_cons, ih, visible_appendHop]

/-! ## The walk -/

/-- Trusted addresses are passed over, and the first other one is returned. -/
theorem walkXff_append {hops : List (How × Ip)} {c : Ip}
    (hhops : ∀ hop ∈ hops, isTrustedProxy a trusted hop.2 = true)
    (hc : isTrustedProxy a trusted c = false) (rest : List (Option Ip)) :
    walkXff a trusted ((hops.map fun hop => some hop.2) ++ some c :: rest) = some (some c) := by
  induction hops with
  | nil => simp [walkXff, hc]
  | cons hop hops ih =>
    rw [List.forall_mem_cons] at hhops
    rw [List.map_cons, List.cons_append, walkXff, if_pos hhops.1, ih hhops.2]

/-- **The client's address is found** in lines that are all visible. -/
theorem forwardedClientIp_hops {client : List (List Char)} {origin : How × Ip}
    {hops : List (How × Ip)} (hc : isTrustedProxy a trusted origin.2 = false)
    (hhops : ∀ hop ∈ hops, isTrustedProxy a trusted hop.2 = true) :
    forwardedClientIp a trusted ((origin :: hops).foldl (appendHop a) client) =
      if ∀ line ∈ client, line.all isVisible = true then some origin.2 else none := by
  have hentries := entries_hops (a := a) client (origin :: hops)
  have hvisible := visible_hops (a := a) client (origin :: hops)
  generalize hlines : (origin :: hops).foldl (appendHop a) client = lines at hentries hvisible
  cases lines with
  | nil =>
    rw [List.flatMap_nil, List.map_cons] at hentries
    exact absurd hentries.symm (by simp)
  | cons first rest =>
    simp only [forwardedClientIp, toStr, joinLines_eq]
    by_cases hall : ∀ line ∈ client, line.all isVisible = true
    · obtain ⟨hfirst, hrest⟩ := List.forall_mem_cons.mp (hvisible.mpr hall)
      have hwalk : walkXff a trusted ((first :: rest).flatMap (entries a)).reverse =
          some (some origin.2) := by
        rw [hentries, List.map_cons, List.reverse_append, List.reverse_cons, List.append_assoc,
          List.singleton_append, ← List.map_reverse]
        exact walkXff_append (fun hop hmem => hhops hop (List.mem_reverse.mp hmem)) hc _
      rw [if_pos hfirst, Option.bind_some, if_pos hrest, if_pos hall, Option.bind_some,
        resolveXff, entries_join, hwalk]
      rfl
    · rw [if_neg hall]
      by_cases hfirst : first.all isVisible = true
      · rw [if_pos hfirst, Option.bind_some, if_neg, Option.bind_none]
        exact fun hrest => hall (hvisible.mp (List.forall_mem_cons.mpr ⟨hfirst, hrest⟩))
      · rw [if_neg hfirst, Option.bind_none]

/-- **What the client decides.**  The proxies added the client's address, which is not trusted,
and then trusted ones, in whatever way.  The request is attributed to the client exactly if
every byte of the lines that the client sent is visible; otherwise to the proxy. -/
theorem client_address_iff (req : ProxyHeaders) (client : List (List Char)) (origin : How × Ip)
    (hops : List (How × Ip)) (remoteAddr : Ip × ℕ) (isTls : Bool)
    (hreq : req.forwardedFor = (origin :: hops).foldl (appendHop a) client)
    (hpeer : isTrustedProxy a trusted remoteAddr.1 = true)
    (hc : isTrustedProxy a trusted origin.2 = false)
    (hhops : ∀ hop ∈ hops, isTrustedProxy a trusted hop.2 = true) :
    (resolveProxyInfo a trusted req remoteAddr isTls).1.1 = origin.2 ↔
      ∀ line ∈ client, ∀ byte ∈ line, isVisible byte = true := by
  have hsome : trusted.isEmpty = false := by
    rw [List.isEmpty_eq_false_iff]
    rintro rfl
    exact absurd hpeer (by simp [isTrustedProxy])
  have hne : remoteAddr.1 ≠ origin.2 := by
    intro heq
    rw [heq, hc] at hpeer
    cases hpeer
  have hvis : (∀ line ∈ client, line.all isVisible = true) ↔
      ∀ line ∈ client, ∀ byte ∈ line, isVisible byte = true := by
    simp only [List.all_eq_true]
  simp only [resolveProxyInfo, hsome, hpeer, Bool.not_true, Bool.or_self, Bool.false_eq_true,
    if_false, hreq, forwardedClientIp_hops hc hhops, ← hvis]
  by_cases hall : ∀ line ∈ client, line.all isVisible = true
  · rw [if_pos hall, Option.getD_some]
    exact ⟨fun _ => hall, fun _ => rfl⟩
  · rw [if_neg hall, Option.getD_none]
    exact ⟨fun heq => absurd heq hne, fun h => absurd h hall⟩

end

/-! ## A client behind two proxies -/

/-- `10.0.0.n` -/
def tenNet (n : Fin 3) : List Char := "10.0.0.".toList ++ [Nat.digitChar n]

/-- Two addresses that are trusted and one that is not. -/
def tenAddresses : Addressing (Fin 3) (List (Fin 3)) where
  parse text := (List.finRange 3).find? fun ip => tenNet ip = text
  display := tenNet
  toCanonical ip := ip
  contains net ip := decide (ip ∈ net)
  parse_display ip := by fin_cases ip <;> decide
  graphic ip c hc := by
    have hall : (tenNet ip).all (fun c => decide (33 ≤ c.toNat ∧ c.toNat < 127 ∧ c ≠ ',')) := by
      fin_cases ip <;> rfl
    exact of_decide_eq_true (List.all_eq_true.mp hall c hc)

/-- The client's text names a trusted address and no address at all; the proxies add the
client's address and the first proxy's. -/
theorem client_address_digits :
    (resolveProxyInfo tenAddresses [[0, 1]]
      ⟨["x, 10.0.0.1".toList, "y,10.0.0.2, 10.0.0.1".toList], none⟩ (0, 80) false).1.1 = 2 := by
  have hvisible : (["x, 10.0.0.1".toList, "y".toList].all fun line => line.all isVisible) = true := by
    decide
  refine (@client_address_iff _ _ tenAddresses [[0, 1]] _ ["x, 10.0.0.1".toList, "y".toList]
    (.extendLast 0, 2) [(.extendLast 1, 1)] (0, 80) false rfl rfl rfl (by decide)).mpr ?_
  exact fun line hline => List.all_eq_true.mp (List.all_eq_true.mp hvisible line hline)

/-- **A byte that is not ASCII.**  The same lines, with such a byte in what the client sent: the
request is attributed to the proxy. -/
theorem proxy_address_digits :
    (resolveProxyInfo tenAddresses [[0, 1]]
      ⟨["x, 10.0.0.1".toList, 'é' :: ",10.0.0.2, 10.0.0.1".toList], none⟩ (0, 80) false).1.1 ≠ 2 := by
  decide

end Ephpm.Server
