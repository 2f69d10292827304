import Ephpm.Cluster.DataPlane

/-!
# Sites are isolated on the receiving side

A key names one place: a site, if it is the envelope of that site, or the global store, if it
claims none (`Tenants.placeOf`).  Serving a request or a gossip event is **confined** to that
place: it changes no other store, and what it answers and leaves behind would be the same
whatever the other stores held.  A key that names no place changes nothing, and its answer
says nothing about any store (`requests_confined`).

There is one request whose key is not a transport key.  A node that starts asks its peers for
its share under its own id, and the peers walk all their stores.  Whatever string is given as
the id, values of sites come back (`share_reads_all`).
-/

namespace Ephpm.Cluster

open Kv Lib

namespace Tenants

/-- The place a transport key names. -/
def placeOf (transport : String) (T : Tenants) : Option Place :=
  (T.resolve transport).map Prod.fst

/-- Two nodes that differ at most in what their stores hold. -/
structure Alike (T T' : Tenants) : Prop where
  selfId : T'.selfId = T.selfId
  smallKeyThreshold : T'.smallKeyThreshold = T.smallKeyThreshold
  siteConfig : T'.siteConfig = T.siteConfig
  sites : T'.sites.isSome = T.sites.isSome
  applied : T'.applied = T.applied

/-- **An action is confined to a place**: no other store changes, and nothing depends on what
the other stores hold.  Without a place, that is all of them. -/
structure Confined {R : Type} (place : Option Place) (act : Tenants → R × Tenants) (T : Tenants) :
    Prop where
  frame : ∀ q, place ≠ some q → (act T).2.storeAt q = T.storeAt q
  blind : ∀ T', Alike T T' → (∀ q, place = some q → T'.storeAt q = T.storeAt q) →
    (act T').1 = (act T).1 ∧ ∀ q, place = some q → (act T').2.storeAt q = (act T).2.storeAt q

/-! ## Parts -/

section Parts

variable {T T' : Tenants} {place q : Place} {n : Node}

/-- A place a key can be routed to. -/
def Open (place : Place) (T : Tenants) : Prop := place = .main ∨ T.sites.isSome = true

theorem open_of_resolve {transport key : String} (h : T.resolve transport = some (place, key)) :
    T.Open place := by
  cases place with
  | main => exact Or.inl rfl
  | site site => exact Or.inr (resolve_site h).2.2

theorem storeAt_put_self (hopen : T.Open place) : (T.put place n).storeAt place = n.store := by
  cases place with
  | main => rfl
  | site site =>
    obtain ⟨sites, hsites⟩ := Option.isSome_iff_exists.mp (hopen.resolve_left (by simp))
    simp [put, setStore, storeAt, hsites, Assoc.get_insert]

theorem storeAt_put_of_ne (h : q ≠ place) : (T.put place n).storeAt q = T.storeAt q := by
  cases place with
  | main =>
    cases q with
    | main => exact absurd rfl h
    | site other => rfl
  | site site =>
    cases q with
    | main => rfl
    | site other =>
      have hne : other ≠ site := fun heq => h (by rw [heq])
      simp only [put, setStore, storeAt]
      cases T.sites with
      | none => rfl
      | some sites => simp [Assoc.get_insert, hne]

/-- Nodes that are alike have the same part where they hold the same. -/
theorem Alike.part_eq (alike : Alike T T') (hstore : T'.storeAt place = T.storeAt place) :
    T'.part place = T.part place := by
  simp only [part, alike.selfId, alike.smallKeyThreshold, alike.applied, hstore]

theorem Alike.resolve_eq (alike : Alike T T') (transport : String) :
    T'.resolve transport = T.resolve transport := by
  simp only [resolve, alike.sites]

end Parts

/-! ## What is confined -/

section Confined

variable {R : Type} {T : Tenants}

/-- Doing nothing, with a fixed answer, is confined anywhere. -/
theorem confined_const (place : Option Place) {act : Tenants → R × Tenants} (answer : R)
    (h : act T = (answer, T)) (h' : ∀ T', Alike T T' → act T' = (answer, T')) :
    Confined place act T where
  frame q _ := by rw [h]
  blind T' alike hstores := by
    rw [h, h' T' alike]
    exact ⟨rfl, hstores⟩

theorem confined_part {act : Tenants → R × Tenants} {place : Place} (hopen : T.Open place)
    (serve : Node → R × Node)
    (h : act T = ((serve (T.part place)).1, T.put place (serve (T.part place)).2))
    (h' : ∀ T', Alike T T' →
      act T' = ((serve (T'.part place)).1, T'.put place (serve (T'.part place)).2)) :
    Confined (some place) act T where
  frame q hq := by
    rw [h]
    exact storeAt_put_of_ne fun heq => hq (by rw [heq])
  blind T' alike hstores := by
    have hpart := alike.part_eq (hstores place rfl)
    have hopen' : T'.Open place := hopen.imp id fun hsome => alike.sites.trans hsome
    rw [h, h' T' alike, hpart]
    refine ⟨rfl, fun q hq => ?_⟩
    obtain rfl := Option.some.inj hq
    rw [storeAt_put_self hopen, storeAt_put_self hopen']

variable [P : Platform]

theorem serveRequest_confined (now : Instant) (request : Request) (T : Tenants) :
    Confined (T.placeOf request.key) (serveRequest now request) T := by
  unfold placeOf
  cases hroute : T.resolve request.key with
  | none =>
    refine confined_const _ request.verb.refused ?_ fun T' alike => ?_
    · simp only [serveRequest, hroute]
    · simp only [serveRequest, alike.resolve_eq, hroute]
  | some target =>
    obtain ⟨place, key⟩ := target
    by_cases hfield : (request.verb.isSet && (Cluster.HashField.decodeKey key).isSome) = true
    · refine confined_const _ Status.rejected.answer ?_ fun T' alike => ?_
      · simp only [serveRequest, hroute, hfield, if_true]
      · simp only [serveRequest, alike.resolve_eq, hroute, hfield, if_true]
    · refine confined_part (open_of_resolve hroute)
        (fun n => n.serve now request.key key request.verb) ?_ fun T' alike => ?_
      · simp only [serveRequest, hroute, hfield, if_false, Bool.false_eq_true]
      · simp only [serveRequest, alike.resolve_eq, hroute, hfield, if_false, Bool.false_eq_true]

theorem deliver_confined (now : Instant) (origin : String) (e : Event) (T : Tenants) :
    Confined (T.placeOf e.key) (fun T => ((), T.deliver now origin e)) T := by
  by_cases hself : origin = T.selfId
  · refine confined_const _ () ?_ fun T' alike => ?_
    · simp only [deliver, hself, if_true]
    · simp only [deliver, hself, alike.selfId, if_true]
  · unfold placeOf
    cases hroute : T.resolve e.key with
    | none =>
      refine confined_const _ () ?_ fun T' alike => ?_
      · simp only [deliver, hself, if_false, routeTarget_eq_resolve, hroute]
      · simp only [deliver, alike.selfId, hself, if_false, routeTarget_eq_resolve,
          alike.resolve_eq, hroute]
    | some target =>
      obtain ⟨place, key⟩ := target
      refine confined_part (open_of_resolve hroute)
        (fun n => ((), (n.applyIfNewer e.key e.stamp fun s =>
          ((), Node.materialize now key (e.write.change now) s)).2.2)) ?_ fun T' alike => ?_
      · simp only [deliver, hself, if_false, routeTarget_eq_resolve, hroute]
      · simp only [deliver, alike.selfId, hself, if_false, routeTarget_eq_resolve,
          alike.resolve_eq, hroute]

end Confined

/-! ## Isolation -/

/-- **Sites are isolated.**  For every transport key, every request under it that is not for a
share, and every gossip event: at most one store is read or changed, the one the key names.
That is the store of a site only if the key is the envelope of that site, and the global
store only if the key does not begin with the separator.  A key that begins with it and does
not decode, or reaches a node without sites, names no store. -/
theorem requests_confined [Platform] (now : Instant) (source : Option HandoffSource) (T : Tenants)
    (transport : String) (verb : Verb) (hverb : verb ≠ .share) :
    Confined (T.placeOf transport) (handle now source ⟨transport, verb⟩) T ∧
      (∀ origin stamp write, Confined (T.placeOf transport)
        (fun T => ((), T.deliver now origin ⟨transport, stamp, write⟩)) T) ∧
      (∀ site, T.placeOf transport = some (.site site) →
        SiteNamespace.isValidSiteKey site = true ∧
          ∃ key, transport = SiteNamespace.encode site key) ∧
      (T.placeOf transport = some .main → isEnveloped transport = false) ∧
      (isEnveloped transport = true →
        SiteNamespace.decode transport = none ∨ T.sites = none → T.placeOf transport = none) := by
  refine ⟨?_, fun origin stamp write => deliver_confined now origin ⟨transport, stamp, write⟩ T,
    fun site hplace => ?_, fun hplace => ?_, fun henveloped hrefused => ?_⟩
  · have hserve : handle now source ⟨transport, verb⟩ = serveRequest now ⟨transport, verb⟩ := by
      funext T
      cases verb with
      | share => exact absurd rfl hverb
      | _ => rfl
    rw [hserve]
    exact serveRequest_confined now ⟨transport, verb⟩ T
  · obtain ⟨⟨place, key⟩, hroute, rfl⟩ := Option.map_eq_some_iff.mp hplace
    obtain ⟨hkey, hvalid, -⟩ := resolve_site hroute
    exact ⟨hvalid, key, hkey.symm⟩
  · obtain ⟨⟨place, key⟩, hroute, rfl⟩ := Option.map_eq_some_iff.mp hplace
    exact (resolve_main hroute).1
  · rw [placeOf, resolve_refused henveloped hrefused, Option.map_none]

/-- A node with one site, which holds a value. -/
def sample [Platform] : Tenants where
  selfId := "n"
  smallKeyThreshold := 1
  main := Store.new ⟨0, .noEviction, CompressionConfig.default⟩
  siteConfig := ⟨0, .noEviction, CompressionConfig.default⟩
  sites := some (Assoc.empty.insert "blog"
    ((Store.new ⟨0, .noEviction, CompressionConfig.default⟩).setLocal 0 "k" [1, 2] none).2)
  applied := Assoc.empty.insert (SiteNamespace.encode "blog" "k") ⟨7, 1⟩

/-- The node after it has lost what the stores held. -/
def bareSample [Platform] : Tenants := { sample with sites := some Assoc.empty }

/-- A read of a key whose envelope does not decode finds nothing, whatever the stores hold. -/
theorem requests_confined_refused :
    letI := Platform.small
    Alike sample bareSample ∧ (handle 1 none ⟨"\x1fk", .get⟩ sample).1 = notFound ∧
      (handle 1 none ⟨"\x1fk", .get⟩ bareSample).1 = notFound := by
  let _ := Platform.small
  have alike : Alike sample bareSample := ⟨rfl, rfl, rfl, rfl, rfl⟩
  obtain ⟨hconfined, -, -, -, hnowhere⟩ :=
    requests_confined 1 none sample "\x1fk" .get (by decide)
  have hplace : sample.placeOf "\x1fk" = none := hnowhere (by decide) (Or.inl (by decide))
  have hblind := hconfined.blind bareSample alike fun q hq => by
    rw [hplace] at hq
    cases hq
  have hfound : (handle 1 none ⟨"\x1fk", .get⟩ sample).1 = notFound := by decide
  exact ⟨alike, hfound, hblind.1.trans hfound⟩

/-- **A share reads every store.**  The key of a share is the id of the node that asks, and is
not routed.  An id that is no envelope of any site is answered with the values of a site. -/
theorem share_reads_all :
    letI := Platform.small
    isEnveloped "\x1fx" = true ∧ SiteNamespace.decode "\x1fx" = none ∧
      (handle 1 (some ⟨"n", 1, 2, ["n"], fun _ => 0⟩) ⟨"\x1fx", .share⟩ sample).1 =
        .shared [⟨SiteNamespace.encode "blog" "k", [1, 2], 0, ⟨7, 1⟩⟩] := by
  decide

end Tenants

end Ephpm.Cluster
