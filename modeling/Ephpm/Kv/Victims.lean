import Ephpm.Kv.Completeness

/-!
# Whom making room reaches

Nothing exempts a key from eviction, so whether a write loses the key it is about is decided
before it starts: by the bytes it asks for, the limit and the bytes in use, and by the **order** in
which the policy would evict.

`evictionOrder` is that order, taken to its end, with the bytes each candidate gives back.  A
reservation that is short of some bytes takes as many candidates from the front as it needs to
cover them (`cover`) and is refused if all of them are too few.  `ensureMemory_refused_iff`,
`views_ensureMemory` say that this is all there is to it.

A refusal costs nobody anything, except under `volatile-lru`: there it has taken every string with
an expiry, and what an earlier sample has left in the pool (`refused_reaches_iff`).
-/

namespace Ephpm.Kv

open Lib

/-- The candidates from the front of a list that together give back at least `missing` bytes, or all
of them. -/
def cover {α : Type} : ℕ → List (α × ℕ) → List α
  | _, [] => []
  | missing, (candidate, bytes) :: rest =>
    if missing = 0 then [] else candidate :: cover (missing - bytes) rest

/-- What all candidates give back together. -/
def yield {α : Type} (candidates : List (α × ℕ)) : ℕ := (candidates.map Prod.snd).sum

theorem mem_of_mem_cover {α : Type} {candidate : α} {missing : ℕ} {candidates : List (α × ℕ)}
    (mem : candidate ∈ cover missing candidates) : candidate ∈ candidates.map Prod.fst := by
  induction candidates generalizing missing with
  | nil => cases mem
  | cons head rest ih =>
    rw [cover] at mem
    split at mem
    · cases mem
    · rcases List.mem_cons.mp mem with rfl | hrest
      · exact List.mem_cons_self
      · exact List.mem_cons_of_mem _ (ih hrest)

/-- Where all candidates are too few, all are taken. -/
theorem cover_of_yield_lt {α : Type} {missing : ℕ} {candidates : List (α × ℕ)}
    (hfew : yield candidates < missing) : cover missing candidates = candidates.map Prod.fst := by
  induction candidates generalizing missing with
  | nil => rfl
  | cons head rest ih =>
    have hsum : yield (head :: rest) = head.2 + yield rest := List.sum_cons
    rw [cover, if_neg (by omega), ih (by omega)]
    rfl

/-- A string or a hash: its name, and whether it is the hash of that name. -/
abbrev Name := String × Bool

/-- The string or hash that a candidate names. -/
def Victim.name (victim : Victim) : Name := (victim.key, victim.hash)

namespace Store

variable [P : Platform] {s : Store} {now : Instant} {needed : ℕ}

/-! ## The order of eviction -/

omit P in
/-- The bytes that are missing for `needed` more. -/
def shortfall (needed : ℕ) (s : Store) : ℕ :=
  if s.config.memoryLimit = 0 then 0 else s.memUsed + needed - s.config.memoryLimit

omit P in
theorem fits_iff_shortfall : s.fits needed = true ↔ s.shortfall needed = 0 := by
  rw [shortfall]
  split
  next hlimit => simp [fits, hlimit]
  next hlimit => simp [fits, hlimit, Nat.sub_eq_zero_iff_le]

/-- **The order of eviction**: whom the policy takes, one after the other, if it is never enough,
with the bytes that each gives back. -/
def evictionOrder (now : Instant) : ℕ → Store → List (Name × ℕ)
  | 0, _ => []
  | fuel + 1, s =>
    let picked := s.nextVictim now
    match picked.1 with
    | none => []
    | some victim =>
      (victim.name, picked.2.charge victim) ::
        evictionOrder now fuel (picked.2.evictVictim victim).2

/-- An eviction takes the candidate it names and nothing else. -/
theorem evictVictim_get (inv : Inv s) (victim : Victim) (key : String) :
    (s.evictVictim victim).2.data.get key =
        (if (key, false) = victim.name then none else s.data.get key) ∧
      (s.evictVictim victim).2.hashes.get key =
        if (key, true) = victim.name then none else s.hashes.get key := by
  rw [evictVictim_eq inv, Victim.name]
  cases victim.hash with
  | true =>
    cases hget : s.hashes.get victim.key with
    | none =>
      refine ⟨by simp, ?_⟩
      simp only [if_true, Prod.mk.injEq, and_true]
      split
      next hkey => rw [hkey, hget]
      next => rfl
    | some h => simp [putHash, record]
  | false =>
    cases hget : s.data.get victim.key with
    | none =>
      refine ⟨?_, by simp⟩
      simp only [Bool.false_eq_true, if_false, Prod.mk.injEq, and_true]
      split
      next hkey => rw [hkey, hget]
      next => rfl
    | some e => simp [record]

/-- An eviction changes neither the configuration nor the pool. -/
theorem evictVictim_frame (inv : Inv s) (victim : Victim) :
    (s.evictVictim victim).2.config = s.config ∧
      (s.evictVictim victim).2.evictionPool = s.evictionPool := by
  rw [evictVictim_eq inv]
  split
  · cases s.hashes.get victim.key <;> simp [putHash, record]
  · cases s.data.get victim.key <;> simp [record]

/-- **Taking victims follows the order**: it ends well if the order gives back what is missing, and
what it takes is the part of the order that covers it. -/
theorem takeVictims_order (now : Instant) (needed fuel : ℕ) (inv : Inv s) :
    ((takeVictims now needed fuel s).1 = true ↔
        s.shortfall needed ≤ yield (evictionOrder now fuel s)) ∧
      ∀ key, (takeVictims now needed fuel s).2.data.get key =
          (if (key, false) ∈ cover (s.shortfall needed) (evictionOrder now fuel s) then none
          else s.data.get key) ∧
        (takeVictims now needed fuel s).2.hashes.get key =
          if (key, true) ∈ cover (s.shortfall needed) (evictionOrder now fuel s) then none
          else s.hashes.get key := by
  induction fuel generalizing s with
  | zero =>
    refine ⟨?_, fun key => ⟨rfl, rfl⟩⟩
    rw [takeVictims, evictionOrder, fits_iff_shortfall]
    exact Nat.le_zero.symm
  | succ fuel ih =>
    rw [takeVictims]
    split
    next hfits =>
      have hnone : ∀ order : List (Name × ℕ), cover (s.shortfall needed) order = [] := by
        rw [fits_iff_shortfall.mp hfits]
        rintro (_ | _) <;> rfl
      refine ⟨iff_of_true rfl ?_, fun key => ?_⟩
      · rw [fits_iff_shortfall.mp hfits]
        exact Nat.zero_le _
      · simp [hnone]
    next hfull =>
      have hshort : s.shortfall needed ≠ 0 := fun h => hfull (fits_iff_shortfall.mpr h)
      have hpick : RoomStep now s (s.nextVictim now).2 := nextVictim_step
      obtain ⟨rng, pool, hsame⟩ := nextVictim_reseed now (s := s)
      have hinv := hpick.inv inv
      rw [evictionOrder]
      cases hvictim : s.nextVictim now with
      | mk picked after =>
        rw [hvictim] at hsame hinv
        simp only at hsame hinv ⊢
        subst hsame
        cases picked with
        | none =>
          refine ⟨iff_of_false Bool.false_ne_true ?_, fun key => ⟨rfl, rfl⟩⟩
          exact Nat.not_le.mpr (Nat.pos_of_ne_zero hshort)
        | some victim =>
          set after : Store := { s.reseed rng with evictionPool := pool }
          have hroom : Room now after (after.evictVictim victim).2 := evictVictim_room hinv victim
          have hused := evictVictim_memUsed hinv victim
          have hconfig := (evictVictim_frame hinv victim).1
          have hless : (after.evictVictim victim).2.shortfall needed =
              s.shortfall needed - after.charge victim := by
            rw [shortfall, hconfig]
            change _ = s.memUsed at hused
            change (if s.config.memoryLimit = 0 then 0 else
              (after.evictVictim victim).2.memUsed + needed - s.config.memoryLimit) = _
            rw [shortfall]
            split <;> omega
          obtain ⟨hgranted, hkeys⟩ := ih (hroom.inv hinv)
          rw [hless] at hgranted hkeys
          refine ⟨hgranted.trans ?_, fun key => ?_⟩
          · have hsum : yield ((victim.name, after.charge victim) ::
                evictionOrder now fuel (after.evictVictim victim).2) =
                  after.charge victim + yield _ := List.sum_cons
            rw [hsum]
            omega
          · have hget := evictVictim_get hinv victim key
            rw [(hkeys key).1, (hkeys key).2, hget.1, hget.2, cover, if_neg hshort]
            simp only [List.mem_cons]
            constructor
            all_goals
              split
              next hlater => rw [if_pos (Or.inr hlater)]
              next hnot => simp only [hnot, or_false]; rfl

/-- Under `volatile-lru` the order names strings with an expiry and candidates of the pool. -/
theorem evictionOrder_volatile (fuel : ℕ) (inv : Inv s)
    (hpolicy : s.config.evictionPolicy = .volatileLru) {name : Name}
    (mem : name ∈ (evictionOrder now fuel s).map Prod.fst) :
    name ∈ s.evictionPool.map Victim.name ∨
      name.2 = false ∧ ∃ e, s.data.get name.1 = some e ∧ e.expiresAt.isSome = true := by
  -- Whatever is pooled or volatile later was so at the beginning.
  set p : String → Bool → Prop := fun key hash =>
    (key, hash) ∈ s.evictionPool.map Victim.name ∨
      hash = false ∧ ∃ e, s.data.get key = some e ∧ e.expiresAt.isSome = true with hp
  have hpool : ∀ v ∈ s.evictionPool, p v.key v.hash := fun v mem => .inl (List.mem_map_of_mem mem)
  have hvolatile : ∀ key e, s.data.get key = some e → e.expiresAt.isSome = true → p key false :=
    fun key e hget hexpires => .inr ⟨rfl, e, hget, hexpires⟩
  change p name.1 name.2
  clear_value p
  clear hp
  induction fuel generalizing s with
  | zero => cases mem
  | succ fuel ih =>
    have hpick : RoomStep now s (s.nextVictim now).2 := nextVictim_step
    obtain ⟨hpool', hvictim'⟩ := nextVictim_forall now inv hpolicy hpool hvolatile
    obtain ⟨rng, pool, hsame⟩ := nextVictim_reseed now (s := s)
    have hinv := hpick.inv inv
    rw [evictionOrder] at mem
    cases hvictim : s.nextVictim now with
    | mk picked after =>
      rw [hvictim] at hsame hinv hpool' hvictim' mem
      simp only at hsame hinv hpool' hvictim' mem
      subst hsame
      cases picked with
      | none => cases mem
      | some victim =>
        rcases List.mem_cons.mp mem with rfl | hrest
        · exact hvictim' victim rfl
        · have hroom : Room now _ _ := evictVictim_room hinv victim
          refine ih (hroom.inv hinv) ?_ hrest ?_ ?_
          · rw [(evictVictim_frame hinv victim).1]
            exact hpolicy
          · rw [(evictVictim_frame hinv victim).2]
            exact hpool'
          · intro key e hget hexpires
            rw [(evictVictim_get hinv victim key).1] at hget
            split at hget
            · cases hget
            · exact hvolatile key e hget hexpires

/-! ## Making room -/

/-- The order of eviction for a reservation, once the expired keys are reclaimed. -/
def candidates (now : Instant) (needed : ℕ) (s : Store) : List (Name × ℕ) :=
  let reclaimed := s.reclaimExpiredFor now needed
  evictionOrder now reclaimed.evictFuel reclaimed

/-- **When a reservation is refused**: it does not fit, and it is more than the limit, or all
candidates give back too little. -/
def Refuses (now : Instant) (needed : ℕ) (s : Store) : Prop :=
  s.fits needed = false ∧ (s.config.memoryLimit < needed ∨
    yield (s.candidates now needed) < (s.reclaimExpiredFor now needed).shortfall needed)

/-- **Whom a reservation takes**: it does not fit, it is not more than the limit, and the name is
among the first candidates that cover what is missing. -/
def Reaches (now : Instant) (needed : ℕ) (name : Name) (s : Store) : Prop :=
  s.fits needed = false ∧ needed ≤ s.config.memoryLimit ∧
    name ∈ cover ((s.reclaimExpiredFor now needed).shortfall needed) (s.candidates now needed)

instance (name : Name) : Decidable (s.Reaches now needed name) :=
  inferInstanceAs (Decidable (_ ∧ _ ∧ _))

/-- **A reservation is refused when it should be.** -/
theorem ensureMemory_refused_iff (inv : Inv s) (now : Instant) (needed : ℕ) :
    (s.ensureMemory now needed).1 = false ↔ s.Refuses now needed := by
  have hreclaim : Reaps now s _ := reclaimExpiredFor_reaps inv needed
  have horder := (takeVictims_order now needed (s.reclaimExpiredFor now needed).evictFuel
    (hreclaim.inv inv)).1
  rw [ensureMemory_eq inv, Refuses, candidates]
  split
  next hfits => simp [hfits]
  next hfull =>
    split
    next hlimit => simp [hfull, hlimit]
    next hlimit =>
      rw [← Bool.not_eq_true, horder]
      simp [hfull, hlimit]

/-- **Making room takes whom it reaches**, and a reader sees the others as before. -/
theorem views_ensureMemory (inv : Inv s) (now : Instant) (needed : ℕ) (key : String) :
    (s.ensureMemory now needed).2.stringView now key =
        (if s.Reaches now needed (key, false) then none else s.stringView now key) ∧
      (s.ensureMemory now needed).2.hashView now key =
        if s.Reaches now needed (key, true) then none else s.hashView now key := by
  have hreclaim : Reaps now s _ := reclaimExpiredFor_reaps inv needed
  have hunseen := hreclaim.reads.unseen key
  have hspared : Spared now s (s.ensureMemory now needed).2 := ensureMemory_spared inv needed
  have hconfig := hspared.config
  rw [ensureMemory_eq inv] at hconfig ⊢
  by_cases hfits : s.fits needed = true
  · simp [hfits, Reaches]
  rw [if_neg hfits] at hconfig ⊢
  by_cases hlimit : s.config.memoryLimit < needed
  · have hnone : ∀ name, ¬ s.Reaches now needed name := fun name h =>
      absurd h.2.1 (Nat.not_le.mpr hlimit)
    rw [if_pos hlimit, if_neg (hnone _), if_neg (hnone _)]
    exact hunseen
  · have hreach : ∀ name, s.Reaches now needed name ↔ name ∈ cover _ (s.candidates now needed) :=
      fun name => ⟨fun h => h.2.2, fun h => ⟨by simpa using hfits, Nat.not_lt.mp hlimit, h⟩⟩
    rw [if_neg hlimit] at hconfig ⊢
    obtain ⟨hdata, hhashes⟩ := (takeVictims_order now needed
      (s.reclaimExpiredFor now needed).evictFuel (hreclaim.inv inv)).2 key
    rw [← hunseen.1, ← hunseen.2]
    constructor
    · split
      next htaken => exact stringView_of_absent (by rw [hdata]; exact if_pos ((hreach _).mp htaken))
      next hkept =>
        refine stringView_congr ?_ (by rw [hconfig, (hreclaim.room.spared inv).config])
        rw [hdata]
        exact if_neg (mt (hreach _).mpr hkept)
    · rw [hashView, hhashes]
      split
      next htaken => rw [if_pos ((hreach _).mpr htaken), Option.bind_none]
      next hkept => rw [if_neg (mt (hreach _).mp hkept), hashView]

/-! ## Refusals -/

/-- A reader sees the string or the hash. -/
def Seen (now : Instant) (name : Name) (s : Store) : Prop :=
  if name.2 then (s.hashView now name.1).isSome = true else (s.stringView now name.1).isSome = true

/-- **Whom a refusal costs**: under `volatile-lru`, if the reservation is not more than the limit,
every string with an expiry, and of the candidates in the pool those whose turn comes. -/
def Drains (now : Instant) (needed : ℕ) (name : Name) (s : Store) : Prop :=
  s.config.evictionPolicy = .volatileLru ∧ needed ≤ s.config.memoryLimit ∧
    (name.2 = false ∧ (s.data.get name.1).any (·.expiresAt.isSome) = true ∨
      name ∈ s.evictionPool.map Victim.name ∧ name ∈ (s.candidates now needed).map Prod.fst)

omit P in
theorem evictionOrder_noEviction [Platform] (hpolicy : s.config.evictionPolicy = .noEviction)
    (fuel : ℕ) : evictionOrder now fuel s = [] := by
  cases fuel with
  | zero => rfl
  | succ fuel => simp only [evictionOrder, nextVictim, hpolicy]

omit P in
theorem Reaps.evictionPool {s' : Store} (reaps : Reaps now s s') :
    s'.evictionPool = s.evictionPool := by
  induction reaps with
  | refl => rfl
  | tail _ step ih =>
    rw [← ih]
    cases step with
    | string _ _ => exact writeString_evictionPool _ _ _
    | hash _ => exact wake_evictionPool _ _ _
    | advance _ _ _ => rfl

/-- Where room is refused that is not more than the limit, whom it reaches is exposed to
`volatile-lru`. -/
theorem Reaches.drains (inv : Inv s) (hrefused : s.Refuses now needed) {name : Name}
    (hreaches : s.Reaches now needed name) : s.Drains now needed name := by
  obtain ⟨-, hneeded, mem⟩ := hreaches
  have hreclaim : Reaps now s _ := reclaimExpiredFor_reaps inv needed
  have hspared := hreclaim.room.spared inv
  have hcandidate := mem_of_mem_cover mem
  have hpolicy : s.config.evictionPolicy = .volatileLru := by
    have hrefused' := (ensureMemory_refused_iff inv now needed).mpr hrefused
    cases hpolicy : s.config.evictionPolicy with
    | volatileLru => rfl
    | noEviction =>
      rw [candidates, evictionOrder_noEviction (by rw [hspared.config, hpolicy])] at hcandidate
      cases hcandidate
    | allKeysLru =>
      rw [ensureMemory_of_allKeys inv (.inl hpolicy) hneeded] at hrefused'
      cases hrefused'
    | allKeysRandom =>
      rw [ensureMemory_of_allKeys inv (.inr hpolicy) hneeded] at hrefused'
      cases hrefused'
  refine ⟨hpolicy, hneeded, ?_⟩
  rcases evictionOrder_volatile _ (hreclaim.inv inv) (by rw [hspared.config, hpolicy]) hcandidate with
    hpooled | ⟨hstring, e, hget, hexpires⟩
  · rw [hreclaim.evictionPool] at hpooled
    exact .inr ⟨hpooled, hcandidate⟩
  · refine .inl ⟨hstring, ?_⟩
    obtain ⟨_, -, hkeys⟩ := hspared.log
    rcases (hkeys name.1).1 with hsame | ⟨hgone, -⟩
    · rw [← hsame, hget]
      exact hexpires
    · rw [hgone] at hget
      cases hget

/-- **Whom a refusal reaches**: nobody but those that `volatile-lru` may take. -/
theorem refused_reaches_iff (inv : Inv s) (hrefused : s.Refuses now needed) {name : Name}
    (hseen : s.Seen now name) : s.Reaches now needed name ↔ s.Drains now needed name := by
  refine ⟨fun h => h.drains inv hrefused, ?_⟩
  rintro ⟨hpolicy, hneeded, hwho⟩
  have hfew := hrefused.2.resolve_left (Nat.not_lt.mpr hneeded)
  rcases hwho with ⟨hstring, hexpires⟩ | ⟨-, hcandidate⟩
  · -- A string with an expiry that is still there could have been evicted.
    obtain ⟨key, hash⟩ := name
    obtain rfl : hash = false := hstring
    by_contra hspared
    have hafter := (views_ensureMemory inv now needed key).1
    rw [if_neg hspared] at hafter
    obtain ⟨view, hview⟩ : ∃ view, s.stringView now key = some view :=
      Option.isSome_iff_exists.mp hseen
    rw [hview] at hafter
    obtain ⟨e, hget, rfl⟩ := Option.map_eq_some_iff.mp hview
    obtain ⟨e', hget', hsame⟩ := Option.map_eq_some_iff.mp hafter
    have hold := (Option.filter_eq_some_iff.mp hget).1
    have hnew := (Option.filter_eq_some_iff.mp hget').1
    have hkept : e'.expiresAt = e.expiresAt := congrArg Prod.snd hsame
    rw [hold, Option.any_some, ← hkept] at hexpires
    refine (not_eligible_of_refused inv hneeded
      ((ensureMemory_refused_iff inv now needed).mpr hrefused)).1 ?_
    rw [Eligible, (ensureMemory_spared inv needed).config, hpolicy]
    exact ⟨key, e', hnew, Option.isSome_iff_ne_none.mp hexpires⟩
  · refine ⟨hrefused.1, hneeded, ?_⟩
    rw [cover_of_yield_lt hfew]
    exact hcandidate

end Store

end Ephpm.Kv
