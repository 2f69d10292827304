import Mathlib.Tactic.Linarith
import Mathlib.Tactic.Positivity
import Ephpm.Server.RateLimit

/-!
# Connection limits are exact

The limiter counts connections by hand: a counter for all of them and one for each IP that has an
entry. An attempt raises the first counter, then the second, and takes back what it has raised if
one of them is over its limit.  A guard remembers whether the second one was raised for it, and
drops accordingly.

**The counters are the numbers of guards** (`connections_exact`): of all guards that are alive, and
of the counted ones of an IP.  That an entry comes into being only after some guards of its IP does
no harm, since those are not counted and do not decrement.  That entries are swept does no harm
either, since one with a connection is not.
-/

namespace Ephpm.Server.RateLimit

open Lib

variable {I S : Type} [DecidableEq I] [DecidableEq S]

namespace Limiter

variable (l : Limiter I S)

/-- The counter of an IP, if it has an entry. -/
def connections (ip : I) : Option ℤ := (l.perIp.get ip).map (·.connections)

/-- The counter of an IP in a table where it may have no entry. -/
def connectionsD (ip : I) : ℤ := (l.connections ip).getD 0

omit [DecidableEq S] in
@[simp] theorem connections_addGlobal (n : ℤ) (ip : I) :
    (l.addGlobal n).connections ip = l.connections ip := rfl

omit [DecidableEq S] in
@[simp] theorem connectionsD_addGlobal (n : ℤ) (ip : I) :
    (l.addGlobal n).connectionsD ip = l.connectionsD ip := rfl

omit [DecidableEq S] in
@[simp] theorem connections_setIp (ip : I) (state : IpState) (ip' : I) :
    (l.setIp ip state).connections ip' =
      if ip' = ip then some state.connections else l.connections ip' := by
  by_cases h : ip' = ip <;> simp [connections, setIp, h]

omit [DecidableEq S] in
@[simp] theorem connectionsD_setIp (ip : I) (state : IpState) (ip' : I) :
    (l.setIp ip state).connectionsD ip' =
      if ip' = ip then state.connections else l.connectionsD ip' := by
  by_cases h : ip' = ip <;> simp [connectionsD, h]

/-- The counters are the same, and no entry is removed. -/
structure Keeps (l l' : Limiter I S) : Prop where
  global : l'.globalConnections = l.globalConnections
  count : ∀ ip, l'.connectionsD ip = l.connectionsD ip
  entry : ∀ ip, (l.connections ip).isSome → (l'.connections ip).isSome

variable {l}

omit [DecidableEq S] in
theorem Keeps.refl : Keeps l l := ⟨rfl, fun _ => rfl, fun _ => id⟩

omit [DecidableEq S] in
theorem Keeps.trans {l' l'' : Limiter I S} (h : Keeps l l') (h' : Keeps l' l'') : Keeps l l'' :=
  ⟨h'.global.trans h.global, fun ip => (h'.count ip).trans (h.count ip),
    fun ip hsome => h'.entry ip (h.entry ip hsome)⟩

omit [DecidableEq S] in
/-- An entry that is changed or made keeps its counter. -/
theorem keeps_setIp {ip : I} {state : IpState} (h : state.connections = l.connectionsD ip) :
    Keeps l (l.setIp ip state) where
  global := rfl
  count ip' := by
    by_cases hip : ip' = ip <;> simp [hip, h]
  entry ip' hsome := by
    by_cases hip : ip' = ip <;> simp [hip, hsome]

omit [DecidableEq S] in
/-- The counter of an entry that is there. -/
theorem connections_of_get {ip : I} {state : IpState} (h : l.perIp.get ip = some state) :
    l.connections ip = some state.connections := by rw [connections, h, Option.map_some]

omit [DecidableEq S] in
/-- What the counters of an IP with an entry are, and of one without. -/
theorem connectionsD_of_get {ip : I} {entry : Option IpState} (h : l.perIp.get ip = entry) :
    l.connectionsD ip = entry.elim 0 (·.connections) := by
  rw [connectionsD, connections, h]
  cases entry <;> rfl

variable (l) (asU64 : ℚ → ℚ) (cfg : ResolvedLimits) (nowMs : ℕ)

/-- **What an attempt can do.**  It is refused and has changed no counter, or it raises the counter
of all connections, and that of the IP if its guard is counted. -/
theorem tryAcquireConnection_cases (ip : I) :
    (∃ l', l.tryAcquireConnection cfg nowMs ip = (none, l') ∧
      l'.globalConnections = l.globalConnections ∧ ∀ ip', l'.connections ip' = l.connections ip') ∨
    ∃ counted l', l.tryAcquireConnection cfg nowMs ip = (some ⟨ip, counted⟩, l') ∧
      l'.globalConnections = l.globalConnections + 1 ∧
      (0 < cfg.maxConnections → l.globalConnections < cfg.maxConnections) ∧
      (counted = true → 0 < cfg.perIpMaxConnections → l.connectionsD ip < cfg.perIpMaxConnections) ∧
      (∀ ip', l'.connectionsD ip' = l.connectionsD ip' + if counted ∧ ip' = ip then 1 else 0) ∧
      ∀ ip', (l.connections ip').isSome → (l'.connections ip').isSome := by
  simp only [tryAcquireConnection]
  split_ifs with hglobal hlimit
  · exact .inl ⟨_, rfl, by simp [addGlobal], fun ip' => by simp⟩
  · have hroom : 0 < cfg.maxConnections → l.globalConnections < cfg.maxConnections :=
      fun h => not_le.mp fun hle => hglobal ⟨h, hle⟩
    rcases (l.addGlobal 1).getOrCreateIp_cases cfg nowMs ip with
      ⟨state, hget, heq⟩ | ⟨-, -, heq⟩ | ⟨hget, -, heq⟩
    · have hcount : l.connections ip = some state.connections := connections_of_get hget
      rw [heq]
      dsimp only
      split_ifs with hfull
      · refine .inl ⟨_, rfl, by simp [addGlobal, setIp], fun ip' => ?_⟩
        by_cases hip : ip' = ip <;> simp [hip, hcount]
      · refine .inr ⟨true, _, rfl, rfl, hroom, fun _ _ => ?_, fun ip' => ?_, fun ip' hsome => ?_⟩
        · simpa [connectionsD, hcount] using hfull
        · by_cases hip : ip' = ip <;> simp [hip, connectionsD, hcount]
        · by_cases hip : ip' = ip <;> simp [hip, hsome]
    · rw [heq]
      exact .inl ⟨_, rfl, by simp [addGlobal], fun ip' => by simp⟩
    · have hcount : l.connectionsD ip = 0 := connectionsD_of_get hget
      rw [heq]
      dsimp only
      rw [if_neg (by simpa using hlimit.ne')]
      refine .inr ⟨true, _, rfl, rfl, hroom, fun _ _ => ?_, fun ip' => ?_, fun ip' hsome => ?_⟩
      · simpa [hcount] using hlimit
      · by_cases hip : ip' = ip <;> simp [hip, hcount]
      · by_cases hip : ip' = ip <;> simp [hip, hsome]
  · have hroom : 0 < cfg.maxConnections → l.globalConnections < cfg.maxConnections :=
      fun h => not_le.mp fun hle => hglobal ⟨h, hle⟩
    cases hget : (l.addGlobal 1).perIp.get ip with
    | none =>
      exact .inr ⟨false, _, rfl, rfl, hroom, fun h => absurd h Bool.false_ne_true,
        fun ip' => by simp, fun ip' => id⟩
    | some state =>
      have hcount : l.connectionsD ip = state.connections := connectionsD_of_get hget
      refine .inr ⟨true, _, rfl, rfl, hroom, fun _ h => absurd h hlimit, fun ip' => ?_,
        fun ip' hsome => ?_⟩
      · by_cases hip : ip' = ip <;> simp [hip, hcount]
      · by_cases hip : ip' = ip <;> simp [hip, hsome]

omit [DecidableEq S] in
/-- A guard takes back what it has raised. -/
theorem dropGuard_globalConnections (guard : ConnectionGuard I) :
    (l.dropGuard guard).globalConnections = l.globalConnections - 1 := by
  simp only [dropGuard]
  split_ifs
  · cases (l.addGlobal (-1)).perIp.get guard.ip <;> rfl
  · rfl

omit [DecidableEq S] in
/-- A guard that is counted decrements the entry of its IP, if there is one. -/
theorem dropGuard_connections (guard : ConnectionGuard I) (ip : I) :
    (l.dropGuard guard).connections ip =
      if guard.counted = true ∧ ip = guard.ip then (l.connections ip).map (· - 1)
      else l.connections ip := by
  simp only [dropGuard]
  by_cases hcounted : guard.counted = true
  · rw [if_pos hcounted]
    cases hget : (l.addGlobal (-1)).perIp.get guard.ip with
    | none =>
      have hcount : l.connections guard.ip = none := congrArg (Option.map IpState.connections) hget
      by_cases hip : ip = guard.ip <;> simp [hip, hcount]
    | some state =>
      have hcount : l.connections guard.ip = some state.connections := connections_of_get hget
      by_cases hip : ip = guard.ip <;> simp [hip, hcount, hcounted]
  · rw [if_neg hcounted, if_neg fun h => hcounted h.1]
    rfl

omit [DecidableEq S] in
/-- A sweep keeps what has a connection, and changes no counter of what it keeps. -/
theorem cleanupStale_connections (ip : I) :
    (l.cleanupStale cfg).connections ip = l.connections ip ∨
      (l.cleanupStale cfg).connections ip = none ∧ l.connectionsD ip ≤ 0 := by
  cases hget : l.perIp.get ip with
  | none => exact .inl (by simp [connections, cleanupStale, hget])
  | some state =>
    by_cases hkeep : (decide (0 < state.connections) ||
        !state.bucket.isFull (ipBurstTokens cfg)) = true
    · exact .inl (by simp only [connections, cleanupStale, Assoc.get_retain, hget, Option.filter,
        hkeep, if_true])
    · refine .inr ⟨by simp only [connections, cleanupStale, Assoc.get_retain, hget, Option.filter,
        if_neg hkeep, Option.map_none], ?_⟩
      simp only [Bool.or_eq_true, decide_eq_true_eq, not_or] at hkeep
      rw [connectionsD_of_get hget]
      exact not_lt.mp hkeep.1

end Limiter

namespace State

variable (asU64 : ℚ → ℚ) (cfg : ResolvedLimits) (s : State I S)

/-- A check makes an entry without connections at most. -/
theorem checked_keeps (key : Key I S) : s.limiter.Keeps (s.checked asU64 cfg key).2 := by
  cases key with
  | ip ip =>
    simp only [checked, Limiter.checkRate]
    split_ifs
    · exact .refl
    · rcases s.limiter.getOrCreateIp_cases cfg s.nowMs ip with
        ⟨state, hget, heq⟩ | ⟨-, -, heq⟩ | ⟨hget, -, heq⟩
      · rw [heq]
        exact Limiter.keeps_setIp (Limiter.connectionsD_of_get hget).symm
      · rw [heq]
        exact .refl
      · rw [heq]
        exact .trans (Limiter.keeps_setIp (Limiter.connectionsD_of_get hget).symm)
          (Limiter.keeps_setIp (by simp))
  | site key =>
    simp only [checked, Limiter.checkSiteRate]
    split_ifs
    · exact .refl
    · rcases s.limiter.getOrCreateSite_cases cfg s.nowMs key with
        ⟨b, -, heq⟩ | ⟨-, -, heq⟩ | ⟨-, -, heq⟩ <;> rw [heq] <;> exact ⟨rfl, fun _ => rfl, fun _ => id⟩

/-! ## The invariant -/

/-- The counted guards of an IP that are alive. -/
def counted (ip : I) : ℕ := s.guards.countP fun guard => guard.counted && decide (guard.ip = ip)

/-- The counters are right and within their limits. -/
structure Exact : Prop where
  global : s.limiter.globalConnections = s.guards.length
  perIp : ∀ ip, s.limiter.connectionsD ip = s.counted ip
  globalLimit : 0 < cfg.maxConnections → s.limiter.globalConnections ≤ cfg.maxConnections
  perIpLimit : 0 < cfg.perIpMaxConnections →
    ∀ ip, s.limiter.connectionsD ip ≤ cfg.perIpMaxConnections

variable {cfg s}

omit [DecidableEq S] in
/-- At the beginning there are no guards. -/
theorem Exact.start : (start : State I S).Exact cfg where
  global := rfl
  perIp _ := rfl
  globalLimit _ := Int.natCast_nonneg _
  perIpLimit _ _ := Int.natCast_nonneg _

omit [DecidableEq S] in
/-- The counter of an entry is right. -/
theorem Exact.eq_counted (h : s.Exact cfg) {ip : I} {n : ℤ}
    (hn : s.limiter.connections ip = some n) : n = s.counted ip := by
  rw [← h.perIp, Limiter.connectionsD, hn, Option.getD_some]

omit [DecidableEq S] in
/-- An IP with a counted guard has an entry. -/
theorem Exact.tracked (h : s.Exact cfg) {ip : I} (hpos : 0 < s.counted ip) :
    (s.limiter.connections ip).isSome := by
  have hcount := h.perIp ip
  cases hget : s.limiter.connections ip with
  | some n => rfl
  | none =>
    rw [Limiter.connectionsD, hget, Option.getD_none] at hcount
    omega

omit [DecidableEq S] in
/-- What leaves guards and counters as they are. -/
theorem Exact.of_counters (h : s.Exact cfg) {l' : Limiter I S} {now : ℕ}
    (hglobal : l'.globalConnections = s.limiter.globalConnections)
    (hcount : ∀ ip, l'.connectionsD ip = s.limiter.connectionsD ip) :
    Exact cfg { s with limiter := l', nowMs := now } where
  global := hglobal.trans h.global
  perIp ip := (hcount ip).trans (h.perIp ip)
  globalLimit hmax := hglobal.trans_le (h.globalLimit hmax)
  perIpLimit hmax ip := (hcount ip).trans_le (h.perIpLimit hmax ip)

/-- An attempt keeps the counters right. -/
theorem Exact.tryAcquireConnection (h : s.Exact cfg) (ip : I) :
    (s.step asU64 cfg (.tryAcquireConnection ip)).Exact cfg := by
  simp only [step]
  rcases s.limiter.tryAcquireConnection_cases cfg s.nowMs ip with
    ⟨l', heq, hglobal, hcount⟩ | ⟨counted, l', heq, hglobal, hroom, hlimit, hcount, -⟩
  · rw [heq]
    exact h.of_counters hglobal fun ip' => congrArg (Option.getD · 0) (hcount ip')
  · rw [heq]
    refine ⟨?_, fun ip' => ?_, fun hmax => ?_, fun hmax ip' => ?_⟩
    · simp [hglobal, h.global]
    · simp only [hcount, h.perIp, State.counted, Option.toList_some, List.singleton_append,
        List.countP_cons]
      simp [@eq_comm _ ip]
    · have := hroom hmax
      dsimp only
      omega
    · have hle := h.perIpLimit hmax ip'
      rw [hcount]
      split_ifs with hip
      · rw [hip.2]
        exact Int.add_one_le_iff.mpr (hlimit hip.1 hmax)
      · omega

omit [DecidableEq I] in
/-- What is counted before and after one of several is removed. -/
theorem counted_eraseIdx {guards : List (ConnectionGuard I)} {index : ℕ} {guard : ConnectionGuard I}
    (h : guards[index]? = some guard) (p : ConnectionGuard I → Bool) :
    guards.countP p = (guards.eraseIdx index).countP p + if p guard then 1 else 0 := by
  induction guards generalizing index with
  | nil => simp at h
  | cons head rest ih =>
    cases index with
    | zero =>
      obtain rfl := Option.some.inj h
      simp [List.countP_cons]
    | succ index =>
      rw [List.getElem?_cons_succ] at h
      rw [List.eraseIdx_cons_succ, List.countP_cons, List.countP_cons, ih h]
      omega

/-- A guard that is dropped keeps the counters right. -/
theorem Exact.dropGuard (h : s.Exact cfg) (index : ℕ) :
    (s.step asU64 cfg (.dropGuard index)).Exact cfg := by
  simp only [step]
  cases hget : s.guards[index]? with
  | none => exact h
  | some guard =>
    have hlength : s.guards.length = (s.guards.eraseIdx index).length + 1 := by
      obtain ⟨hlt, -⟩ := List.getElem?_eq_some_iff.mp hget
      rw [List.length_eraseIdx_of_lt hlt]
      omega
    have hcount : ∀ ip, (s.limiter.dropGuard guard).connectionsD ip =
        s.limiter.connectionsD ip - if guard.counted = true ∧ ip = guard.ip then 1 else 0 := by
      intro ip
      rw [Limiter.connectionsD, Limiter.dropGuard_connections]
      split_ifs with hip
      · -- the guard is one of those that are counted, so there is an entry
        have hpos : 0 < s.counted ip :=
          List.countP_pos_iff.mpr ⟨guard, List.mem_of_getElem? hget, by simp [hip]⟩
        obtain ⟨n, hn⟩ := Option.isSome_iff_exists.mp (h.tracked hpos)
        simp [Limiter.connectionsD, hn]
      · rw [sub_zero, Limiter.connectionsD]
    refine ⟨?_, fun ip => ?_, fun hmax => ?_, fun hmax ip => ?_⟩
    · have hglobal := h.global
      simp only [Limiter.dropGuard_globalConnections]
      omega
    · have hsplit := counted_eraseIdx hget fun guard => guard.counted && decide (guard.ip = ip)
      rw [hcount, h.perIp, State.counted, hsplit]
      simp [@eq_comm _ guard.ip, State.counted]
    · have hle := h.globalLimit hmax
      simp only [Limiter.dropGuard_globalConnections]
      omega
    · have hle := h.perIpLimit hmax ip
      rw [hcount]
      split_ifs <;> omega

/-- Every step keeps the counters right. -/
theorem Exact.step (h : s.Exact cfg) (e : Event I S) : (s.step asU64 cfg e).Exact cfg := by
  cases e with
  | wait ms => exact h.of_counters rfl fun ip => rfl
  | tryAcquireConnection ip => exact h.tryAcquireConnection asU64 ip
  | dropGuard index => exact h.dropGuard asU64 index
  | check key =>
    have hkeeps := s.checked_keeps asU64 cfg key
    exact h.of_counters hkeeps.global hkeeps.count
  | cleanupStale =>
    refine h.of_counters rfl fun ip => ?_
    rcases s.limiter.cleanupStale_connections cfg ip with heq | ⟨hgone, hle⟩
    · exact congrArg (Option.getD · 0) heq
    · have hcount := h.perIp ip
      rw [Limiter.connectionsD, hgone, Option.getD_none]
      omega

/-- Every history keeps the counters right. -/
theorem Exact.run (h : s.Exact cfg) (events : List (Event I S)) :
    (s.run asU64 cfg events).Exact cfg := by
  induction events generalizing s with
  | nil => exact h
  | cons e events ih => exact ih (h.step asU64 e)

/-- The entry of an IP with a counted guard survives every step. -/
theorem Exact.isSome_step (h : s.Exact cfg) (e : Event I S) {ip : I} (hpos : 0 < s.counted ip) :
    ((s.step asU64 cfg e).limiter.connections ip).isSome := by
  have hsome := h.tracked hpos
  cases e with
  | wait ms => exact hsome
  | tryAcquireConnection ip' =>
    simp only [State.step]
    rcases s.limiter.tryAcquireConnection_cases cfg s.nowMs ip' with
      ⟨l', heq, -, hcount⟩ | ⟨_, l', heq, -, -, -, -, hentry⟩
    · rw [heq]
      exact (hcount ip).symm ▸ hsome
    · rw [heq]
      exact hentry ip hsome
  | dropGuard index =>
    simp only [State.step]
    cases s.guards[index]? with
    | none => exact hsome
    | some guard =>
      simp only [Limiter.dropGuard_connections]
      split_ifs
      · simpa using hsome
      · exact hsome
  | check key => exact (s.checked_keeps asU64 cfg key).entry ip hsome
  | cleanupStale =>
    rcases s.limiter.cleanupStale_connections cfg ip with heq | ⟨-, hle⟩
    · exact heq.symm ▸ hsome
    · have hcount := h.perIp ip
      omega

end State

/-- **The limits on connections are exact.**  After every history the counters are the numbers of
guards that are alive, none is negative and none is over its limit.  No step removes the entry of an
IP that has a counted guard, and an attempt that is refused changes no counter. -/
theorem connections_exact (asU64 : ℚ → ℚ) (cfg : ResolvedLimits) (events : List (Event I S)) :
    let s : State I S := State.start.run asU64 cfg events
    s.limiter.globalConnections = s.guards.length ∧
      (∀ ip n, s.limiter.connections ip = some n → n = s.counted ip) ∧
      (0 < cfg.maxConnections → s.limiter.globalConnections ≤ cfg.maxConnections) ∧
      (0 < cfg.perIpMaxConnections →
        ∀ ip n, s.limiter.connections ip = some n → n ≤ cfg.perIpMaxConnections) ∧
      (0 ≤ s.limiter.globalConnections ∧ ∀ ip n, s.limiter.connections ip = some n → 0 ≤ n) ∧
      (∀ ip, 0 < s.counted ip → (s.limiter.connections ip).isSome ∧
        ∀ e, ((s.step asU64 cfg e).limiter.connections ip).isSome) ∧
      ∀ ip, (s.limiter.tryAcquireConnection cfg s.nowMs ip).1 = none →
        let l' := (s.limiter.tryAcquireConnection cfg s.nowMs ip).2
        l'.globalConnections = s.limiter.globalConnections ∧
          ∀ ip', l'.connections ip' = s.limiter.connections ip' := by
  intro s
  have h : s.Exact cfg := State.Exact.start.run asU64 events
  refine ⟨h.global, fun ip n => h.eq_counted, h.globalLimit, fun hmax ip n hn => ?_,
    ⟨?_, fun ip n hn => ?_⟩, fun ip hpos => ⟨h.tracked hpos, fun e => h.isSome_step asU64 e hpos⟩,
    fun ip hrefused => ?_⟩
  · rw [h.eq_counted hn, ← h.perIp]
    exact h.perIpLimit hmax ip
  · rw [h.global]
    positivity
  · rw [h.eq_counted hn]
    positivity
  · rcases s.limiter.tryAcquireConnection_cases cfg s.nowMs ip with
      ⟨l', heq, hglobal, hcount⟩ | ⟨_, l', heq, -⟩
    · rw [heq]
      exact ⟨hglobal, hcount⟩
    · rw [heq] at hrefused
      cases hrefused

end Ephpm.Server.RateLimit
