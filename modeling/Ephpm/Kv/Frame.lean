import Ephpm.Kv.Operations

/-!
# String operations beside a hash of the same name

A name may be a string and a hash at once.  The string operations are meant for the
string: what they do to the hash of that name, and to any other key, should be
nothing but what making room takes.  `Framed` says that, and `framed_iff` that it
holds **except** where `APPEND`, `EXPIRE` or `PERSIST` finds the string expired: those
three then remove the whole name, and the hash with it.
-/

namespace Ephpm.Kv

open Lib

namespace Store

/-- The string operations on `key`. -/
inductive OnString (key : String) : Op → Prop
  | set (value : Bytes) (ttl : Option Duration) : OnString key (.set key value ttl)
  | setNx (value : Bytes) (ttl : Option Duration) : OnString key (.setNx key value ttl)
  | setIfEq (expected value : Bytes) (ttl : SetTtl) :
      OnString key (.setIfEq key expected value ttl)
  | delIfEq (token : Bytes) : OnString key (.delIfEq key token)
  | getdel : OnString key (.getdel key)
  | get : OnString key (.get key)
  | incrBy (delta : ℤ) (ttl : Option Duration) : OnString key (.incrBy key delta ttl)
  | append (value : Bytes) : OnString key (.append key value)
  | expireLocal (ttl : Duration) : OnString key (.expireLocal key ttl)
  | persistString : OnString key (.persistString key)

/-- The string operations that remove the whole name when they find it expired. -/
def removesName : Op → Bool
  | .append _ _ => true
  | .expireLocal _ _ => true
  | .persistString _ => true
  | _ => false

/-- **A reader sees every hash, and every string but the one at `key`, as before**,
except for what had expired and what was evicted on record. -/
def Framed (now : Instant) (key : String) (s s' : Store) : Prop :=
  ∃ new, s'.events = new ++ s.events ∧
    (∀ name, name ≠ key → StringSpared now new name s s') ∧
    ∀ name, HashSpared now new name s s'

section Frame

variable {s t u : Store} {now : Instant} {key : String}

theorem Spared.framed (spared : Spared now s t) (key : String) : Framed now key s t := by
  obtain ⟨new, hnew, hkeys⟩ := spared.log
  exact ⟨new, hnew, fun name _ => (hkeys name).1, fun name => (hkeys name).2⟩

theorem Framed.refl (s : Store) : Framed now key s s := (Spared.refl s).framed key

theorem Framed.trans (h : Framed now key s t) (h' : Framed now key t u) : Framed now key s u := by
  obtain ⟨first, hfirst, hstrings, hviews⟩ := h
  obtain ⟨second, hsecond, hstrings', hviews'⟩ := h'
  exact ⟨second ++ first, by rw [hsecond, hfirst, List.append_assoc],
    fun name hname => (hstrings name hname).trans (hstrings' name hname),
    fun name => (hviews name).trans (hviews' name)⟩

/-- Whatever happens to the string at `key` alone is framed. -/
theorem framed_of_change (hevents : t.events = s.events)
    (hdata : ∀ name, name ≠ key → t.data.get name = s.data.get name)
    (hhashes : t.hashes = s.hashes) : Framed now key s t := by
  refine ⟨[], hevents, fun name hname => .inl (hdata name hname), fun name => .inl ?_⟩
  rw [hashView, hhashes, hashView]

theorem writeString_framed (entry : Option Entry) : Framed now key s (s.writeString key entry) := by
  refine framed_of_change (by simp) (fun name hname => ?_) (by simp)
  rw [writeString_data, BucketMap.get_set, if_neg hname]

theorem putString_framed (entry : Option Entry) : Framed now key s (s.putString key entry) := by
  refine framed_of_change rfl (fun name hname => ?_) rfl
  show (s.data.set key entry).get name = _
  rw [BucketMap.get_set, if_neg hname]

end Frame

section Operations

variable [P : Platform] {s t : Store} {now : Instant} {key : String}

/-- **A change to the string at `key` is framed**, and making room is. -/
theorem StringChange.framed {phase : Phase} (change : StringChange now key phase s t)
    (inv : Inv s) : Framed now key s t := by
  cases change with
  | room needed => exact (ensureMemory_spared inv needed).framed key
  | remove => exact writeString_framed none
  | retime _ _ _ _ _ => exact putString_framed _
  | write _ => exact writeString_framed _

theorem Script.framed (script : Script (StringChange now key) s t) (inv : Inv s) :
    Framed now key s t := by
  obtain ⟨middle, early, late⟩ := script
  have along {phase : Phase} {a b : Store} (changes : Path (StringChange now key phase) a b)
      (inv : Inv a) : Framed now key a b :=
    Path.relates (fun _ _ inv change => StringChange.inv change inv) Framed.refl
      (fun _ _ _ => Framed.trans) (fun _ _ inv change => StringChange.framed change inv) changes inv
  exact (along early inv).trans (along late (changes_inv (string_changes early) inv))

theorem get_framed (inv : Inv s) : Framed now key s (s.get now key).2 := by
  rw [get_eq inv]
  split
  · exact Framed.refl s
  · split
    · exact writeString_framed none
    · exact putString_framed _

/-! ## Where the name is removed -/

omit P in
theorem Room.noHash {t : Store} (room : Room now s t) (hnone : s.hashes.get key = none) :
    t.hashes.get key = none ∧
      ∃ new, t.events = new ++ s.events ∧ Event.evictedHash key ∉ new := by
  induction room with
  | refl => exact ⟨hnone, [], rfl, List.not_mem_nil⟩
  | tail _ step ih =>
    obtain ⟨hgone, new, hnew, hnever⟩ := ih
    cases step with
    | reap step =>
      refine ⟨?_, new, step.events.trans hnew, hnever⟩
      cases step with
      | string hget hexp => simpa using hgone
      | @hash other h hget =>
        have hother : key ≠ other := fun heq => by
          rw [← heq, hgone] at hget
          cases hget
        simpa [reaped, putHash, hother] using hgone
      | advance _ _ _ => exact hgone
    | @evictString other e hget =>
      refine ⟨by simpa [record] using hgone, .evictedString other e.expiresAt :: new, ?_, ?_⟩
      · simp [record, hnew]
      · simpa using hnever
    | @evictHash other h hget =>
      have hother : key ≠ other := fun heq => by
        rw [← heq, hgone] at hget
        cases hget
      refine ⟨by simpa [record, putHash, hother] using hgone, .evictedHash other :: new, ?_, ?_⟩
      · simp [record, putHash, hnew]
      · simpa [hother] using hnever
    | sample _ _ => exact ⟨hgone, new, hnew, hnever⟩

omit P in
theorem not_framed_of_gone {t : Store} {view : Assoc String HashField × Option Instant}
    (hview : s.hashView now key = some view) (hgone : t.hashes.get key = none) {new : List Event}
    (hnew : t.events = new ++ s.events) (hnever : Event.evictedHash key ∉ new) :
    ¬ Framed now key s t := by
  rintro ⟨new', hnew', -, hviews⟩
  obtain rfl : new' = new := List.append_cancel_right (hnew'.symm.trans hnew)
  have hnone : t.hashView now key = none := by rw [hashView, hgone, Option.bind_none]
  rcases hviews key with hsame | ⟨-, hevicted⟩
  · rw [hnone, hview] at hsame
    cases hsame
  · exact hnever hevicted

/-- Removing the name takes the hash and records no eviction. -/
theorem removeLocal_gone (inv : Inv s) (now : Instant) (key : String) :
    (s.removeLocal now key).2.hashes.get key = none ∧
      (s.removeLocal now key).2.events = s.events := by
  rw [removeLocal_snd inv]
  split
  · exact ⟨by simp [putHash], by simp [putHash]⟩
  · exact ⟨by simp [putHash], by simp [putHash]⟩

theorem removesName_not_framed (inv : Inv s) {e : Entry} (hget : s.data.get key = some e)
    (hexp : e.isExpired now = true) {view : Assoc String HashField × Option Instant}
    (hview : s.hashView now key = some view) {op : Op} (hop : OnString key op)
    (hremoves : removesName op = true) : ¬ Framed now key s (s.step now op).2 := by
  obtain ⟨hgone, hevents⟩ := removeLocal_gone inv now key
  have hremoved : ¬ Framed now key s (s.removeLocal now key).2 :=
    not_framed_of_gone hview hgone (hevents.trans (List.nil_append _).symm) List.not_mem_nil
  cases hop with
  | append value =>
    have hstep : (s.step now (.append key value)).2 =
        ((s.removeLocal now key).2.appendCreate now key value).2 := by
      show (s.append now key value).2 = _
      rw [append_eq inv]
      simp only [hget, hexp, if_true]
    have hremove : Path (Change now .late) s (s.removeLocal now key).2 := removeLocal_changes inv
    have invRemoved := changes_inv hremove inv
    have hroom (needed : ℕ) : Room now (s.removeLocal now key).2
        ((s.removeLocal now key).2.ensureMemory now needed).2 := ensureMemory_room invRemoved needed
    rw [hstep]
    show ¬ Framed now key s ((s.removeLocal now key).2.replaceEntry now key _).2
    rw [replaceEntry_eq invRemoved]
    obtain ⟨hstill, new, hnew, hnever⟩ := (hroom _).noHash hgone
    rw [hevents] at hnew
    simp only
    split
    · exact not_framed_of_gone hview (by rwa [writeString_hashes])
        (by rw [writeString_events]; exact hnew) hnever
    · exact not_framed_of_gone hview hstill hnew hnever
  | expireLocal ttl =>
    have hstep : (s.step now (.expireLocal key ttl)).2 = (s.removeLocal now key).2 := by
      show (s.expireLocal now key ttl).2 = _
      rw [expireLocal_eq inv]
      simp only [hget, hexp, if_true]
    rwa [hstep]
  | persistString =>
    have hstep : (s.step now (.persistString key)).2 = (s.removeLocal now key).2 := by
      show (s.persistString now key).2 = _
      rw [persistString_eq inv]
      simp only [hget, hexp, if_true]
    rwa [hstep]
  | set _ _ => cases hremoves
  | setNx _ _ => cases hremoves
  | setIfEq _ _ _ => cases hremoves
  | delIfEq _ => cases hremoves
  | getdel => cases hremoves
  | get => cases hremoves
  | incrBy _ _ => cases hremoves

end Operations

/-- **String operations leave hashes and other keys alone**, up to eviction, exactly if
they do not meet an expired string with `APPEND`, `EXPIRE` or `PERSIST`. -/
theorem framed_iff [Platform] {s : Store} (inv : Inv s) (now : Instant) (key : String) {e : Entry}
    (hget : s.data.get key = some e) {view : Assoc String HashField × Option Instant}
    (hview : s.hashView now key = some view) (op : Op) (hop : OnString key op) :
    Framed now key s (s.step now op).2 ↔ ¬ (removesName op = true ∧ e.isExpired now = true) := by
  constructor
  · rintro hframed ⟨hremoves, hexp⟩
    exact removesName_not_framed inv hget hexp hview hop hremoves hframed
  · intro hkeeps
    have hlive : removesName op = true → e.isExpired now = false := by
      simpa using hkeeps
    cases hop with
    | set value ttl => exact (setLocal_script inv value ttl).framed inv
    | setNx value ttl => exact (setNxOutcomeLocal_script inv value ttl).framed inv
    | setIfEq expected value ttl => exact (setIfEqLocal_script inv expected value ttl).framed inv
    | delIfEq token => exact (delIfEqLocal_script inv token).framed inv
    | getdel => exact (getdel_script inv).framed inv
    | get => exact get_framed inv
    | incrBy delta ttl => exact (incrByWithTtl_script inv delta ttl).framed inv
    | append value => exact (append_live_script inv hget (hlive rfl) value).framed inv
    | expireLocal ttl =>
      have hchange : StringChange now key .late s _ :=
        expireLocal_live_change inv hget (hlive rfl) ttl
      exact hchange.framed inv
    | persistString =>
      exact Script.framed (.ofLate (persistString_live_changes inv hget (hlive rfl))) inv

/-- A `SET` over an expired string beside a live hash. -/
theorem framed_iff_sample :
    letI := Platform.small
    let s := (new ⟨0, .noEviction, CompressionConfig.default⟩).runState
      [(0, .set "k" [1] (some 10)), (1, .hset "k" [("f", [2])])]
    Framed 20 "k" s (s.step 20 (.set "k" [3] none)).2 ∧
      (s.step 20 (.hget "k" "f")).1 = .bytes (some [2]) := by
  let _ := Platform.small
  set s := (new ⟨0, .noEviction, CompressionConfig.default⟩).runState
    [(0, .set "k" [1] (some 10)), (1, .hset "k" [("f", [2])])] with hs
  have hget : s.data.get "k" = some ⟨[1], false, some 10, 0, 138⟩ := by decide
  have hview : (s.hashView 20 "k").isSome = true := by decide
  obtain ⟨view, hview⟩ := Option.isSome_iff_exists.mp hview
  exact ⟨(framed_iff ((new_isNew _).inv.runState _) 20 "k" hget hview _ (.set [3] none)).mpr
    (by decide), by decide⟩

/-- **`EXPIRE` on an expired string removes the hash of that name.** -/
theorem expired_string_takes_hash :
    letI := Platform.small
    ¬ ∀ (s : Store) (now : Instant) (key : String) (e : Entry)
        (view : Assoc String HashField × Option Instant) (op : Op), Inv s →
          s.data.get key = some e → s.hashView now key = some view → OnString key op →
            Framed now key s (s.step now op).2 := by
  let _ := Platform.small
  intro hclaim
  set s := (new ⟨0, .noEviction, CompressionConfig.default⟩).runState
    [(0, .set "k" [1] (some 10)), (1, .hset "k" [("f", [2])])] with hs
  have hview : (s.hashView 20 "k").isSome = true := by decide
  obtain ⟨view, hview⟩ := Option.isSome_iff_exists.mp hview
  obtain ⟨new, hnew, -, hviews⟩ := hclaim s 20 "k" ⟨[1], false, some 10, 0, 138⟩ view
    (.expireLocal "k" 5) ((new_isNew _).inv.runState _) (by decide) hview (.expireLocal 5)
  have hgone : ((s.step 20 (.expireLocal "k" 5)).2.hashView 20 "k").isNone = true := by decide
  rw [Option.isNone_iff_eq_none] at hgone
  have hsilent : (s.step 20 (.expireLocal "k" 5)).2.events = s.events := by decide
  rcases hviews "k" with hsame | ⟨-, hevicted⟩
  · rw [hgone, hview] at hsame
    cases hsame
  · obtain rfl : new = [] := by simpa [hsilent] using hnew
    cases hevicted

end Store

end Ephpm.Kv
