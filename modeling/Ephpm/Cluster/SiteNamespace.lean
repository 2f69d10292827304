import Ephpm.Cluster.Node
import Ephpm.Lib.Split

/-!
# Site envelopes

Every site of a node has a store of its own, and the transports carry one flat namespace.  A
key of a site travels in an **envelope** that names the site (`site_namespace.rs`):

    \x1f <site> \x1f <key>

and a key of the global store travels as it is.  A site is named by a valid site key, which
cannot contain the separator; so the first separator after the leading one ends the name,
whatever the key contains.

A field of a hash of a site is wrapped twice: the key of the field (`HashField.encodeKey`)
inside the envelope of the site.  `transport_keys_canonical` says that both encodings and
their composition can be undone, that no two fields share a key, and that a key of a field is
accepted in one spelling only.
-/

namespace Ephpm.Cluster

open Kv Lib

namespace SiteNamespace

/-- `SEP`: what the fields of an envelope are separated by. -/
def sep : Char := '\x1f'

/-- `MAX_SITE_KEY_LEN`, in bytes. -/
def maxSiteKeyLen : ℕ := 255

/-- A character of a site key. -/
def isSiteChar (c : Char) : Bool :=
  c.isLower || c.isDigit || c = '.' || c = '_' || c = '-'

/-- `is_valid_site_key`. -/
def isValidSiteKey (site : String) : Bool :=
  if site.toList.isEmpty || decide (maxSiteKeyLen < keyLen site) then false
  else if !site.toList.all isSiteChar then false
  else !(site.toList.splitOn '.').any List.isEmpty

/-- `encode`: wrap a key in the envelope of a site. -/
def encode (site key : String) : String :=
  String.ofList (sep :: (site.toList ++ sep :: key.toList))

/-- `decode`: the site and the key of an envelope. -/
def decode (transport : String) : Option (String × String) :=
  match transport.toList with
  | [] => none
  | c :: rest =>
    if c = sep then
      (cutAt sep rest).bind fun cut =>
        if isValidSiteKey (String.ofList cut.1) then
          some (String.ofList cut.1, String.ofList cut.2)
        else none
    else none

example : decode (encode "blog.example" "user:1") = some ("blog.example", "user:1") := by decide

/-! ## Round trips -/

/-- A site key does not contain the separator. -/
theorem sep_notMem {site : String} (valid : isValidSiteKey site = true) : sep ∉ site.toList := by
  unfold isValidSiteKey at valid
  split at valid
  · cases valid
  · split at valid
    · cases valid
    next hchars =>
      rw [Bool.not_eq_true', Bool.not_eq_false, List.all_eq_true] at hchars
      intro hmem
      exact absurd (hchars sep hmem) (by decide)

/-- **Envelopes come back**, whatever the key contains. -/
theorem decode_encode {site : String} (valid : isValidSiteKey site = true) (key : String) :
    decode (encode site key) = some (site, key) := by
  have hcut : cutAt sep (site.toList ++ sep :: key.toList) = some (site.toList, key.toList) :=
    cutAt_append (sep_notMem valid)
  simp only [decode, encode, String.toList_ofList, if_true, hcut, Option.bind_some,
    String.ofList_toList, valid]

/-- **One envelope for a key of a site**: what is accepted is what would have been sent. -/
theorem encode_of_decode {transport site key : String} (h : decode transport = some (site, key)) :
    encode site key = transport ∧ isValidSiteKey site = true := by
  unfold decode at h
  split at h
  · cases h
  next c rest hchars =>
    split at h
    next hsep =>
      obtain ⟨cut, hcut, hsite⟩ := Option.bind_eq_some_iff.mp h
      split at hsite
      next valid =>
        obtain ⟨rfl, rfl⟩ := Prod.mk.inj (Option.some.inj hsite)
        refine ⟨?_, valid⟩
        rw [encode, String.toList_ofList, String.toList_ofList, ← cutAt_eq_some hcut, ← hsep,
          ← hchars, String.ofList_toList]
      · cases hsite
    · cases h

/-! ## Fields of hashes of sites -/

/-- The transport key of a field of a hash of a site. -/
def encodeField (site key field : String) : String :=
  encode site (Cluster.HashField.encodeKey key field)

/-- The site, the hash and the field of a transport key. -/
def decodeField (transport : String) : Option (String × String × String) :=
  (decode transport).bind fun envelope =>
    (Cluster.HashField.decodeKey envelope.2).map fun field => (envelope.1, field)

theorem decodeField_encodeField {site key : String} (valid : isValidSiteKey site = true)
    (hlen : keyLen key ≤ u64Max) (field : String) :
    decodeField (encodeField site key field) = some (site, key, field) := by
  rw [decodeField, encodeField, decode_encode valid, Option.bind_some,
    Cluster.HashField.decodeKey_encodeKey field hlen, Option.map_some]

/-- **Transport keys are unambiguous.**  For every valid site and all keys and fields, as
long as a string can be: the envelope of a site comes back, the key of a field comes back,
both together come back, distinct fields have distinct transport keys, and a string is
accepted as the key of a field only if it is the one that would be sent. -/
theorem transport_keys_canonical :
    (∀ site key, isValidSiteKey site = true → decode (encode site key) = some (site, key)) ∧
      (∀ key field, keyLen key ≤ u64Max →
        Cluster.HashField.decodeKey (Cluster.HashField.encodeKey key field) = some (key, field)) ∧
      (∀ site key field, isValidSiteKey site = true → keyLen key ≤ u64Max →
        decodeField (encodeField site key field) = some (site, key, field)) ∧
      (∀ site key field site' key' field', isValidSiteKey site = true →
        isValidSiteKey site' = true → keyLen key ≤ u64Max → keyLen key' ≤ u64Max →
        encodeField site key field = encodeField site' key' field' →
        (site, key, field) = (site', key', field')) ∧
      ∀ transport key field, Cluster.HashField.decodeKey transport = some (key, field) →
        Cluster.HashField.encodeKey key field = transport := by
  refine ⟨fun site key valid => decode_encode valid key,
    fun key field hlen => Cluster.HashField.decodeKey_encodeKey field hlen,
    fun site key field valid hlen => decodeField_encodeField valid hlen field, ?_,
    fun transport key field h => Cluster.HashField.encodeKey_of_decodeKey h⟩
  intro site key field site' key' field' valid valid' hlen hlen' heq
  have hback := decodeField_encodeField valid hlen field
  rw [heq, decodeField_encodeField valid' hlen' field'] at hback
  exact (Option.some.inj hback).symm

end SiteNamespace

end Ephpm.Cluster
