import Mathlib.Algebra.EuclideanDomain.Field
import Mathlib.Tactic.FieldSimp
import Mathlib.Tactic.Linarith
import Ephpm.Lib.IdealBucket
import Ephpm.Server.RateLimit

/-!
# The buckets of the limiter are ideal buckets

A bucket of the limiter is refilled when a request looks at it.  It may be swept away when it is
full, and made again later.  **Nobody can tell** (`checks_exact`): read with exact numbers, a key is
told at each request what an ideal bucket would tell it that is refilled all the time.

What connects the two is the level that a stored bucket stands for at a time, `State.level`: what it
holds and what has come in since.  A key without an entry stands for a full bucket.  Making an
entry, sweeping a full one and everything that other keys do leaves the level as it is, and a
request takes one token from it.

A rate of zero means that there is no limit.  Then a request does not look at a bucket at all,
whether there is one or not.
-/

namespace Ephpm.Server.RateLimit

open Lib

variable {I S : Type} [DecidableEq I] [DecidableEq S]

/-- A request of a key. -/
structure Call where
  nowMs : ℕ
  /-- the key had an entry or got one -/
  tracked : Bool
  allowed : Bool
deriving DecidableEq, Repr

/-- The clock in seconds. -/
def Call.seconds (call : Call) : ℚ := call.nowMs / 1000

namespace State

variable (cfg : ResolvedLimits) (key : Key I S)

/-- The requests of a key in a history, with exact numbers. -/
def log : State I S → List (Event I S) → List Call
  | _, [] => []
  | s, e :: events =>
    if e = .check key then
      ⟨s.nowMs, !s.limiter.noRoom key, (s.checked id cfg key).1⟩ :: log (s.step id cfg e) events
    else log (s.step id cfg e) events

/-- The level that the bucket of a key stands for. -/
def level (s : State I S) : ℚ :=
  match s.limiter.bucket key with
  | some b => IdealBucket.refill (cfg.rate key) (cfg.burst key) (b.tokens / 1000)
      ((s.nowMs - b.lastRefillMs) / 1000)
  | none => cfg.burst key

/-- A bucket is not from the future and not over its burst. -/
def Sound (s : State I S) : Prop :=
  ∀ b, s.limiter.bucket key = some b → b.lastRefillMs ≤ s.nowMs ∧ b.tokens ≤ cfg.burst key * 1000

variable {cfg key} {s : State I S}

theorem level_of_none (h : s.limiter.bucket key = none) : s.level cfg key = cfg.burst key := by
  simp only [level, h]

theorem level_of_some {b : TokenBucket} (h : s.limiter.bucket key = some b) :
    s.level cfg key = IdealBucket.refill (cfg.rate key) (cfg.burst key) (b.tokens / 1000)
      ((s.nowMs - b.lastRefillMs) / 1000) := by
  simp only [level, h]

/-- A bucket that was filled just now stands for what it holds. -/
theorem level_of_now {b : TokenBucket} (h : s.limiter.bucket key = some b)
    (hnow : b.lastRefillMs = s.nowMs) (hle : b.tokens ≤ cfg.burst key * 1000) :
    s.level cfg key = b.tokens / 1000 := by
  rw [level_of_some h, hnow, sub_self, zero_div, IdealBucket.refill, mul_zero, add_zero]
  exact min_eq_right (by linarith)

theorem level_le (s : State I S) (cfg : ResolvedLimits) (key : Key I S) :
    s.level cfg key ≤ cfg.burst key := by
  cases h : s.limiter.bucket key with
  | none => exact (level_of_none h).le
  | some b => exact (level_of_some h).le.trans (IdealBucket.refill_le _ _)

section Rate

variable (hrate : 0 < cfg.rate key)

include hrate

theorem level_of_isFull (hs : s.Sound cfg key) {b : TokenBucket} (h : s.limiter.bucket key = some b)
    (hfull : b.isFull (cfg.burst key * 1000) = true) : s.level cfg key = cfg.burst key := by
  have htokens : (cfg.burst key : ℚ) * 1000 ≤ b.tokens := of_decide_eq_true hfull
  have hlast : (b.lastRefillMs : ℚ) ≤ s.nowMs := by exact_mod_cast (hs b h).1
  have hgain : 0 ≤ cfg.rate key * ((s.nowMs - b.lastRefillMs) / 1000) :=
    mul_nonneg hrate.le (div_nonneg (by linarith) (by norm_num))
  rw [level_of_some h]
  exact min_eq_left (by linarith)

/-- **Time fills the level**, whether there is a bucket or not. -/
theorem level_wait (s : State I S) (ms : ℕ) :
    (s.step id cfg (.wait ms)).level cfg key =
      IdealBucket.refill (cfg.rate key) (cfg.burst key) (s.level cfg key) (ms / 1000) := by
  have hms : (0 : ℚ) ≤ ms / 1000 := by positivity
  cases h : s.limiter.bucket key with
  | none =>
    rw [level_of_none h, level_of_none (show (s.step id cfg (.wait ms)).limiter.bucket key = none from h)]
    have hgain : 0 ≤ cfg.rate key * (ms / 1000) := mul_nonneg hrate.le hms
    exact (min_eq_left (by linarith)).symm
  | some b =>
    rw [level_of_some h, IdealBucket.refill_refill hrate.le hms,
      level_of_some (show (s.step id cfg (.wait ms)).limiter.bucket key = some b from h)]
    congr 1
    simp only [step]
    push_cast
    ring

/-- The bucket that a request finds, once it is refilled, holds the level. -/
theorem refilled_found (hs : s.Sound cfg key) :
    ((s.found cfg key).refilled id s.nowMs (cfg.rate key) (cfg.burst key * 1000)) =
      ⟨s.level cfg key * 1000, s.nowMs⟩ := by
  cases h : s.limiter.bucket key with
  | none =>
    rw [level_of_none h]
    simp [found, h, Limiter.fullBucket, TokenBucket.full, TokenBucket.refilled]
  | some b =>
    obtain ⟨hlast, htokens⟩ := hs b h
    have hfound : s.found cfg key = b := by simp [found, h]
    rw [hfound, TokenBucket.refilled]
    rcases hlast.lt_or_eq with hlt | heq
    · have helapsed : ((s.nowMs - b.lastRefillMs : ℕ) : ℚ) = s.nowMs - b.lastRefillMs :=
        Nat.cast_sub hlast
      have hpos : (0 : ℚ) < s.nowMs - b.lastRefillMs := by
        rw [← helapsed]
        exact_mod_cast Nat.sub_pos_of_lt hlt
      rw [helapsed, if_pos ⟨Nat.sub_pos_of_lt hlt, mul_pos hrate hpos⟩, level_of_some h,
        IdealBucket.refill, min_comm, min_mul_of_nonneg _ _ (by norm_num : (0 : ℚ) ≤ 1000)]
      congr 2
      simp only [id]
      field_simp
    · rw [if_neg (by simp [heq]), level_of_now h heq htokens]
      obtain ⟨tokens, last⟩ := b
      simp only at heq
      simp [heq]

theorem taken_eq (hs : s.Sound cfg key) :
    s.taken id cfg key =
      if 1 ≤ s.level cfg key then (true, ⟨(s.level cfg key - 1) * 1000, s.nowMs⟩)
      else (false, ⟨s.level cfg key * 1000, s.nowMs⟩) := by
  rw [taken, TokenBucket.tryTake, refilled_found hrate hs, takeOneToken]
  by_cases h : 1 ≤ s.level cfg key
  · rw [if_pos h, if_pos (by linarith)]
    simp only [sub_mul, one_mul]
  · rw [if_neg h, if_neg (by linarith)]

/-- What a bucket becomes, in a state with the same clock, if it is not by a request. -/
theorem level_eq_of_bucket (hs : s.Sound cfg key) {s' : State I S} (hnow : s'.nowMs = s.nowMs)
    (h : s'.limiter.bucket key = s.limiter.bucket key ∨
      (s.limiter.bucket key = none ∧
        s'.limiter.bucket key = some (Limiter.fullBucket cfg s.nowMs key)) ∨
      (s'.limiter.bucket key = none ∧
        ∃ b, s.limiter.bucket key = some b ∧ b.isFull (cfg.burst key * 1000) = true)) :
    s'.level cfg key = s.level cfg key ∧ s'.Sound cfg key := by
  rcases h with hsame | ⟨hnone, hmade⟩ | ⟨hgone, b, hb, hfull⟩
  · refine ⟨by simp only [level, hsame, hnow], fun b hb => ?_⟩
    rw [hnow]
    exact hs b (hsame ▸ hb)
  · refine ⟨?_, fun b hb => ?_⟩
    · rw [level_of_now hmade hnow.symm le_rfl, level_of_none hnone]
      simp [Limiter.fullBucket, TokenBucket.full]
    · rw [hmade] at hb
      obtain rfl := Option.some.inj hb
      exact ⟨hnow.symm.le, le_rfl⟩
  · refine ⟨?_, fun b' hb' => ?_⟩
    · rw [level_of_none hgone, level_of_isFull hrate hs hb hfull]
    · rw [hgone] at hb'
      cases hb'

/-- **Only time and its own requests move the level of a key.** -/
theorem level_step (hs : s.Sound cfg key) {e : Event I S} (hwait : ∀ ms, e ≠ .wait ms)
    (he : e = .check key → s.limiter.noRoom key = true) :
    (s.step id cfg e).nowMs = s.nowMs ∧ (s.step id cfg e).level cfg key = s.level cfg key ∧
      (s.step id cfg e).Sound cfg key := by
  have hnow : (s.step id cfg e).nowMs = s.nowMs := by
    cases e with
    | wait ms => exact absurd rfl (hwait ms)
    | dropGuard index =>
      simp only [step]
      cases s.guards[index]? <;> rfl
    | tryAcquireConnection ip => rfl
    | check key => rfl
    | cleanupStale => rfl
  exact ⟨hnow, level_eq_of_bucket hrate hs hnow (bucket_step id cfg s key e fun h => .inr (he h))⟩

/-- A request of a key with an entry is told whether there is a token, and takes it. -/
theorem level_check (hs : s.Sound cfg key) (hroom : s.limiter.noRoom key = false) :
    (s.checked id cfg key).1 = decide (1 ≤ s.level cfg key) ∧
      (s.step id cfg (.check key)).level cfg key =
        (if 1 ≤ s.level cfg key then s.level cfg key - 1 else s.level cfg key) ∧
      (s.step id cfg (.check key)).Sound cfg key := by
  obtain ⟨hanswer, hbucket⟩ := checked_of_room id cfg s hrate hroom
  have hafter : (s.step id cfg (.check key)).limiter.bucket key = some (s.taken id cfg key).2 := by
    simp only [step, hbucket, if_true]
  have hle := s.level_le cfg key
  rw [taken_eq hrate hs] at hanswer hafter
  by_cases h : 1 ≤ s.level cfg key
  · simp only [if_pos h] at hanswer hafter ⊢
    have hcap : (s.level cfg key - 1) * 1000 ≤ cfg.burst key * 1000 := by linarith
    refine ⟨by simp [hanswer, h], ?_, fun b hb => ?_⟩
    · rw [level_of_now hafter rfl hcap, mul_div_cancel_right₀ _ (by norm_num)]
    · rw [hafter] at hb
      obtain rfl := Option.some.inj hb
      exact ⟨le_rfl, hcap⟩
  · simp only [if_neg h] at hanswer hafter ⊢
    have hcap : s.level cfg key * 1000 ≤ cfg.burst key * 1000 := by linarith
    refine ⟨by simp [hanswer, h], ?_, fun b hb => ?_⟩
    · rw [level_of_now hafter rfl hcap, mul_div_cancel_right₀ _ (by norm_num)]
    · rw [hafter] at hb
      obtain rfl := Option.some.inj hb
      exact ⟨le_rfl, hcap⟩

/-! ## Whole histories -/

/-- **A history tells a key what the ideal bucket would**, from any state and any ideal bucket that
is as full as the level of the key. -/
theorem log_eq_calls {level last : ℚ} (events : List (Event I S)) (hs : s.Sound cfg key)
    (hlevel : s.level cfg key =
      IdealBucket.refill (cfg.rate key) (cfg.burst key) level (s.nowMs / 1000 - last)) :
    ((s.log cfg key events).filter (·.tracked)).map (fun call => (call.seconds, call.allowed)) =
      IdealBucket.calls (cfg.rate key) (cfg.burst key) level last
        (((s.log cfg key events).filter (·.tracked)).map Call.seconds) := by
  induction events generalizing s level last with
  | nil => rfl
  | cons e events ih =>
    by_cases hwait : ∃ ms, e = .wait ms
    · obtain ⟨ms, rfl⟩ := hwait
      rw [log, if_neg (by simp)]
      refine ih (fun b hb => ⟨(hs b hb).1.trans (Nat.le_add_right _ _), (hs b hb).2⟩) ?_
      rw [level_wait hrate, hlevel, IdealBucket.refill_refill hrate.le (by positivity)]
      congr 1
      simp only [step]
      push_cast
      ring
    · have hwait' : ∀ ms, e ≠ .wait ms := fun ms h => hwait ⟨ms, h⟩
      by_cases he : e = .check key
      · subst he
        rw [log, if_pos rfl]
        cases hroom : s.limiter.noRoom key with
        | true =>
          obtain ⟨hnow, hsame, hs'⟩ := level_step hrate hs hwait' fun _ => hroom
          simp only [Bool.not_true, List.filter_cons, Bool.false_eq_true, if_false]
          exact ih hs' (by rw [hsame, hlevel, hnow])
        | false =>
          obtain ⟨hanswer, hafter, hs'⟩ := level_check hrate hs hroom
          simp only [Bool.not_false, List.filter_cons, if_true, List.map_cons, hanswer]
          have hnext : ∀ level', (s.step id cfg (.check key)).level cfg key = level' →
              (s.step id cfg (.check key)).level cfg key =
                IdealBucket.refill (cfg.rate key) (cfg.burst key) level'
                  ((s.step id cfg (.check key)).nowMs / 1000 - (s.nowMs : ℚ) / 1000) := by
            rintro level' rfl
            have hle := (s.step id cfg (.check key)).level_le cfg key
            simp only [step, sub_self, IdealBucket.refill, mul_zero, add_zero] at hle ⊢
            exact (min_eq_right hle).symm
          by_cases htoken : 1 ≤ s.level cfg key
          · rw [IdealBucket.calls_cons_of_le _ (hlevel ▸ htoken)]
            rw [if_pos htoken] at hafter
            simp only [Call.seconds, htoken, decide_true, ← hlevel]
            rw [← ih hs' (hnext _ hafter)]
            rfl
          · rw [IdealBucket.calls_cons_of_lt _ (hlevel ▸ htoken)]
            rw [if_neg htoken] at hafter
            simp only [Call.seconds, htoken, decide_false, ← hlevel]
            rw [← ih hs' (hnext _ hafter)]
            rfl
      · obtain ⟨hnow, hsame, hs'⟩ := level_step hrate hs hwait' fun h => absurd h he
        rw [log, if_neg he]
        exact ih hs' (by rw [hsame, hlevel, hnow])

/-- Who has no entry is not allowed anything. -/
theorem tracked_of_allowed {events : List (Event I S)} {call : Call}
    (h : call ∈ s.log cfg key events) (hallowed : call.allowed = true) : call.tracked = true := by
  induction events generalizing s with
  | nil => cases h
  | cons e events ih =>
    rw [log] at h
    split_ifs at h with he
    · rcases List.mem_cons.mp h with rfl | h
      · cases hroom : s.limiter.noRoom key with
        | false => rfl
        | true =>
          simp only [checked_of_noRoom id cfg s hrate hroom] at hallowed
          cases hallowed
      · exact ih h
    · exact ih h

end Rate

theorem log_pairwise (s : State I S) (cfg : ResolvedLimits) (key : Key I S)
    (events : List (Event I S)) :
    (s.nowMs :: (s.log cfg key events).map (·.nowMs)).Pairwise (· ≤ ·) := by
  induction events generalizing s with
  | nil => simp [log]
  | cons e events ih =>
    have hlater := ih (s.step id cfg e)
    have hnow : s.nowMs ≤ (s.step id cfg e).nowMs := by
      cases e with
      | wait ms => exact Nat.le_add_right _ _
      | dropGuard index =>
        simp only [step]
        cases s.guards[index]? <;> exact le_rfl
      | tryAcquireConnection ip => exact le_rfl
      | check key => exact le_rfl
      | cleanupStale => exact le_rfl
    have hrest := (List.pairwise_cons.mp hlater).1
    have htail : (s.nowMs :: ((s.step id cfg e).log cfg key events).map (·.nowMs)).Pairwise (· ≤ ·) :=
      List.pairwise_cons.mpr ⟨fun t ht => hnow.trans (hrest t ht), (List.pairwise_cons.mp hlater).2⟩
    rw [log]
    split_ifs with he
    · rw [List.map_cons]
      refine List.pairwise_cons.mpr ⟨fun t ht => ?_, htail⟩
      rcases List.mem_cons.mp ht with rfl | ht
      · exact le_rfl
      · exact (List.pairwise_cons.mp htail).1 t ht
    · exact htail

/-- A request without a limit is allowed. -/
theorem allowed_of_rate_le (h : cfg.rate key ≤ 0) {events : List (Event I S)} {call : Call}
    (hcall : call ∈ s.log cfg key events) : call.allowed = true := by
  induction events generalizing s with
  | nil => cases hcall
  | cons e events ih =>
    rw [log] at hcall
    split_ifs at hcall
    · rcases List.mem_cons.mp hcall with rfl | hcall
      · simp only [checked_of_rate_le id cfg s h]
      · exact ih hcall
    · exact ih hcall

end State

/-- Two logs with the same requests, of which the tracked ones have the same answers and the others
are refused. -/
theorem log_ext {xs ys : List Call} (hkey : xs.map (fun c => (c.nowMs, c.tracked)) =
      ys.map fun c => (c.nowMs, c.tracked))
    (hanswers : (xs.filter (·.tracked)).map (·.allowed) = (ys.filter (·.tracked)).map (·.allowed))
    (hxs : ∀ c ∈ xs, c.allowed = true → c.tracked = true)
    (hys : ∀ c ∈ ys, c.allowed = true → c.tracked = true) : xs = ys := by
  induction xs generalizing ys with
  | nil => exact (List.map_eq_nil_iff.mp hkey.symm).symm
  | cons x xs ih =>
    cases ys with
    | nil => cases hkey
    | cons y ys =>
      obtain ⟨nowMs, tracked, allowed⟩ := x
      obtain ⟨nowMs', tracked', allowed'⟩ := y
      simp only [List.map_cons, List.cons.injEq, Prod.mk.injEq] at hkey
      obtain ⟨⟨rfl, rfl⟩, hkey⟩ := hkey
      have hxs' : ∀ c ∈ xs, c.allowed = true → c.tracked = true := fun c hc => hxs c (by simp [hc])
      have hys' : ∀ c ∈ ys, c.allowed = true → c.tracked = true := fun c hc => hys c (by simp [hc])
      cases tracked with
      | true =>
        simp only [List.filter_cons, if_true, List.map_cons, List.cons.injEq] at hanswers
        rw [hanswers.1, ih hkey hanswers.2 hxs' hys']
      | false =>
        simp only [List.filter_cons, Bool.false_eq_true, if_false] at hanswers
        have hx : allowed = false := by simpa using hxs _ (List.mem_cons_self ..)
        have hy : allowed' = false := by simpa using hys _ (List.mem_cons_self ..)
        rw [hx, hy, ih hkey hanswers hxs' hys']

/-- **The limiter is exact.**  In every history, with sweeps and the requests of other keys
anywhere, the requests of a key that find or get an entry are told what an ideal bucket tells them
that is full at the beginning.  Hence a window lets no more of them through than the burst and what
comes in during it, and two histories that differ in what others do tell a key the same.  Without a
limit every request is allowed. -/
theorem checks_exact (cfg : ResolvedLimits) (key : Key I S) (events : List (Event I S)) :
    let log := State.start.log cfg key events
    (0 < cfg.rate key →
      (log.filter (·.tracked)).map (fun call => (call.seconds, call.allowed)) =
          IdealBucket.calls (cfg.rate key) (cfg.burst key) (cfg.burst key) 0
            ((log.filter (·.tracked)).map Call.seconds) ∧
        (∀ t₀ t₁ : ℚ, t₀ ≤ t₁ →
          (IdealBucket.allowed t₀ t₁ (log.map fun call => (call.seconds, call.allowed)) : ℚ) ≤
            cfg.burst key + cfg.rate key * (t₁ - t₀)) ∧
        ∀ events' : List (Event I S),
          (State.start.log cfg key events').map (fun call => (call.nowMs, call.tracked)) =
              log.map (fun call => (call.nowMs, call.tracked)) →
            State.start.log cfg key events' = log) ∧
      (cfg.rate key ≤ 0 → ∀ call ∈ log, call.allowed = true) := by
  intro log
  refine ⟨fun hrate => ?_, fun hrate call hcall => State.allowed_of_rate_le hrate hcall⟩
  have hexact : ∀ events : List (Event I S),
      ((State.start.log cfg key events).filter (·.tracked)).map
          (fun call => (call.seconds, call.allowed)) =
        IdealBucket.calls (cfg.rate key) (cfg.burst key) (cfg.burst key) 0
          (((State.start.log cfg key events).filter (·.tracked)).map Call.seconds) := by
    intro events
    have hnone : (State.start : State I S).limiter.bucket key = none := by
      cases key <;> rfl
    refine State.log_eq_calls hrate events ?_ ?_
    · intro b hb
      rw [hnone] at hb
      cases hb
    · rw [State.level_of_none hnone]
      simp [State.start, IdealBucket.refill]
  refine ⟨hexact events, fun t₀ t₁ hwindow => ?_, fun events' hsame => ?_⟩
  · have htracked : IdealBucket.allowed t₀ t₁ (log.map fun call => (call.seconds, call.allowed)) =
        IdealBucket.allowed t₀ t₁
          ((log.filter (·.tracked)).map fun call => (call.seconds, call.allowed)) := by
      simp only [IdealBucket.allowed, List.countP_map, List.countP_filter]
      refine List.countP_congr fun call hcall => ?_
      have htracked := State.tracked_of_allowed hrate hcall
      simp only [Function.comp_apply, Bool.and_eq_true]
      exact ⟨fun h => ⟨h, htracked h.2⟩, fun h => h.1⟩
    rw [htracked, hexact events]
    refine IdealBucket.allowed_le hrate.le (by positivity) hwindow (by positivity) le_rfl ?_
    have hordered := (State.start : State I S).log_pairwise cfg key events
    have hscaled : ((0 : ℚ) :: log.map Call.seconds).Pairwise (· ≤ ·) := by
      have hmap := hordered.map (fun ms : ℕ => (ms : ℚ) / 1000) fun a b hab =>
        div_le_div_of_nonneg_right (Nat.cast_le.mpr hab : (a : ℚ) ≤ b) (by norm_num : (0 : ℚ) ≤ 1000)
      rw [List.map_cons, List.map_map, show (State.start : State I S).nowMs = 0 from rfl, Nat.cast_zero,
        zero_div] at hmap
      exact hmap
    exact hscaled.sublist ((List.filter_sublist.map _).cons_cons _)
  · have hseconds : ((State.start.log cfg key events').filter (·.tracked)).map Call.seconds =
        (log.filter (·.tracked)).map Call.seconds := by
      have hfilter := congrArg
        (fun calls => (calls.filter (·.2)).map fun call : ℕ × Bool => (call.1 : ℚ) / 1000) hsame
      simp only [List.filter_map, List.map_map] at hfilter
      exact hfilter
    have hanswers := congrArg (List.map Prod.snd) ((hexact events').trans
      ((congrArg _ hseconds).trans (hexact events).symm))
    refine log_ext hsame ?_ (fun c hc => State.tracked_of_allowed hrate hc)
      fun c hc => State.tracked_of_allowed hrate hc
    simpa [Function.comp_def] using hanswers

/-- Without a rate the bucket of an IP is not asked: it is empty, and the request is allowed. -/
theorem unlimited_ignores_bucket :
    let cfg : ResolvedLimits := ⟨0, 1, 0, 0, 0, 0⟩
    let key : Key ℕ ℕ := .ip 7
    let events := [Event.tryAcquireConnection 7, .check key]
    (State.start.run id cfg [Event.tryAcquireConnection 7]).limiter.bucket key = some ⟨0, 0⟩ ∧
      State.start.log cfg key events = [⟨0, true, true⟩] ∧
      IdealBucket.calls (cfg.rate key) (cfg.burst key) (cfg.burst key) 0 [0] = [(0, false)] := by
  decide +kernel

end Ephpm.Server.RateLimit
