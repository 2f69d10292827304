import Ephpm.Db.PoolTasks

/-!
# What was given back stays

A connection that was given back is in the pool's keeping: it is in the queue, or a health check has
it in its hands.  There are three good reasons for it to leave.  An acquire takes it, it has passed
one of its limits, or a health check finds it dead (`Leaves`).

**There is a fourth reason that is not good.**  A health check ends with replacing the queue by
what it has found healthy.  Everything that was put into the queue since it began is closed
with that, among it connections that clients have given back and that are in perfect order
(`returned_connection_lost`).

If at the end of every health check the queue has no connection that was given back and could still
be used, then nothing is lost (`returned_connection_kept`).
-/

namespace Ephpm.Db.Pooling

namespace State

variable (cfg : PoolConfig) (s : State)

/-- The connection is in the pool's keeping. -/
def keeps (c : ℕ) : Prop :=
  (∃ slot ∈ s.idle, slot.connection = c) ∨
    ∃ task ∈ s.tasks, ∃ slot ∈ task.underCheck, slot.connection = c

instance (c : ℕ) : Decidable (s.keeps c) := inferInstanceAs (Decidable (_ ∨ _))

/-- The good reasons for which a connection leaves in a step. -/
inductive Leaves (c : ℕ) : Event → Prop
  /-- an acquire takes it -/
  | taken {slot rest e} (seeks : s.seeks e = true) (first : s.fromCandidate cfg = slot :: rest)
      (eq : slot.connection = c) : Leaves c e
  /-- it is too old or was idle for too long -/
  | expired {slot e} (mem : slot ∈ s.idle) (eq : slot.connection = c)
      (limit : cfg.keeps s.now slot = false) : Leaves c e
  /-- the ping of a health check fails -/
  | failed {slot slots healthy} (eq : slot.connection = c) :
      Leaves c (.checked slot slots healthy false)

/-- The last ping of a health check, after which it writes the queue. -/
def writesBack : Event → Bool
  | .checked _ slots _ _ => slots.isEmpty
  | _ => false

/-- A step after which no usable connection that was given back is overwritten. -/
def Careful (e : Event) : Prop :=
  writesBack e = true →
    ∀ slot ∈ s.idle, slot.connection ∈ s.returned → cfg.keeps s.now slot = false

instance (e : Event) : Decidable (s.Careful cfg e) := inferInstanceAs (Decidable (_ → _))

/-- A step of an open pool. -/
def CarefulStep (s s' : State) : Prop :=
  ∃ e, (e ≠ .close ∧ s.Careful cfg e) ∧ s.step cfg e = some s'

variable {cfg s} {s' : State} {c : ℕ} {e : Event} {task : Task}

/-! ## Single steps -/

theorem keeps_begins (h : s.keeps c) : (s.begins task).keeps c := by
  rcases h with h | ⟨task', hmem, h⟩
  · exact Or.inl h
  · exact Or.inr ⟨task', List.mem_cons_of_mem _ hmem, h⟩

/-- A task that is no health check may end. -/
theorem keeps_ends (hends : s.ends task = some s') (htask : task.underCheck = [])
    (h : s.keeps c) : s'.keeps c := by
  obtain ⟨hperm, heq⟩ := ends_eq_some hends
  rcases h with h | ⟨task', hmem, slot, hslot, hc⟩
  · rw [heq]
    exact Or.inl h
  · rcases List.mem_cons.mp (hperm.mem_iff.mp hmem) with rfl | hmem
    · rw [htask] at hslot
      cases hslot
    · exact Or.inr ⟨task', hmem, slot, hslot, hc⟩

/-- What only adds to the queue. -/
theorem keeps_of_subset (hidle : s.idle ⊆ s'.idle) (htasks : s'.tasks = s.tasks) (h : s.keeps c) :
    s'.keeps c := by
  rcases h with ⟨slot, hmem, hc⟩ | h
  · exact Or.inl ⟨slot, hidle hmem, hc⟩
  · rw [← htasks] at h
    exact Or.inr h

theorem keeps_recycled (checkout : Checkout) (h : s.keeps c) : (s.recycled checkout).keeps c :=
  keeps_of_subset (List.subset_append_left _ _) rfl h

theorem keeps_warmOn (needed : ℕ) (h : s.keeps c) : (s.warmOn needed).keeps c := by
  cases needed with
  | zero => exact h
  | succ more =>
    rw [warmOn]
    split_ifs
    · exact h
    · exact keeps_begins h

/-- An acquire that looks for a connection. -/
theorem keeps_seek (cfg : PoolConfig) (h : s.keeps c) :
    (s.seek cfg).keeps c ∨ (∃ slot rest, s.fromCandidate cfg = slot :: rest ∧ slot.connection = c) ∨
      ∃ slot ∈ s.idle, slot.connection = c ∧ cfg.keeps s.now slot = false := by
  rcases h with ⟨slot, hmem, hc⟩ | h
  · have hcases : slot ∈ s.fromCandidate cfg ∨ cfg.keeps s.now slot = false := mem_fromCandidate hmem
    rcases hcases with hcand | hlimit
    · rcases seek_cases cfg s with ⟨hnone, -⟩ | ⟨first, rest, task, hfirst, -, heq⟩
      · rw [hnone] at hcand
        cases hcand
      · rw [hfirst, List.mem_cons] at hcand
        rcases hcand with rfl | hrest
        · exact Or.inr (Or.inl ⟨slot, rest, hfirst, hc⟩)
        · rw [heq]
          exact Or.inl (keeps_begins (Or.inl ⟨slot, hrest, hc⟩))
    · exact Or.inr (Or.inr ⟨slot, hmem, hc, hlimit⟩)
  · left
    rcases seek_cases cfg s with ⟨-, heq⟩ | ⟨_, _, task, -, -, heq⟩
    · rw [heq]
      exact keeps_begins (Or.inr h)
    · rw [heq]
      exact keeps_begins (Or.inr h)

/-- What a health check does with what it has and what it has taken out of the queue. -/
theorem keeps_checkOn {slots healthy : List Slot}
    (h : ∃ slot ∈ healthy ++ slots, slot.connection = c) : (s.checkOn slots healthy).keeps c := by
  obtain ⟨slot, hmem, hc⟩ := h
  cases slots with
  | nil =>
    rw [List.append_nil] at hmem
    exact Or.inl ⟨slot, hmem, hc⟩
  | cons next slots => exact Or.inr ⟨_, List.mem_cons_self, slot, hmem, hc⟩

/-- The same in the steps in which an acquire looks for a connection, where other things of the
state have changed. -/
theorem seek_leaves {t : State} (hidle : t.idle = s.idle) (hnow : t.now = s.now)
    (hseeks : s.seeks e = true) (h : t.keeps c) : (t.seek cfg).keeps c ∨ s.Leaves cfg c e := by
  have hcand : t.fromCandidate cfg = s.fromCandidate cfg := by
    rw [fromCandidate, fromCandidate, hidle, hnow]
  rcases keeps_seek cfg h with h | ⟨slot, rest, hfirst, hc⟩ | ⟨slot, hmem, hc, hlimit⟩
  · exact Or.inl h
  · exact Or.inr (.taken hseeks (hcand ▸ hfirst) hc)
  · exact Or.inr (.expired (hidle ▸ hmem) hc (hnow ▸ hlimit))

theorem checked_leaves {slot : Slot} {slots healthy : List Slot} {alive : Bool}
    (hcareful : s.Careful cfg (.checked slot slots healthy alive)) (hreturned : c ∈ s.returned)
    (hends : s.ends (.checking slot slots healthy) = some s') (h : s.keeps c) :
    (s'.checkOn slots (if alive then healthy ++ [slot] else healthy)).keeps c ∨
      s.Leaves cfg c (.checked slot slots healthy alive) := by
  obtain ⟨hperm, heq⟩ := ends_eq_some hends
  rcases h with ⟨found, hmem, hc⟩ | ⟨task, hmem, found, hfound, hc⟩
  · -- It is in the queue, which is overwritten after the last ping.
    cases slots with
    | nil => exact Or.inr (.expired hmem hc (hcareful rfl found hmem (hc ▸ hreturned)))
    | cons next slots =>
      left
      rw [heq]
      exact keeps_begins (Or.inl ⟨found, hmem, hc⟩)
  · rcases List.mem_cons.mp (hperm.mem_iff.mp hmem) with rfl | hmem
    · -- This health check has it.
      rw [Task.underCheck, List.mem_append, List.mem_cons] at hfound
      rcases hfound with hfound | rfl | hfound
      · left
        refine keeps_checkOn ⟨found, List.mem_append_left _ ?_, hc⟩
        split_ifs
        · exact List.mem_append_left _ hfound
        · exact hfound
      · cases alive with
        | true =>
          left
          exact keeps_checkOn ⟨found, by simp, hc⟩
        | false => exact Or.inr (.failed hc)
      · exact Or.inl (keeps_checkOn ⟨found, List.mem_append_right _ hfound, hc⟩)
    · -- Another one has it.
      left
      have hkeeps : s'.keeps c := Or.inr ⟨task, hmem, found, hfound, hc⟩
      cases slots with
      | nil => exact Or.inr ⟨task, hmem, found, hfound, hc⟩
      | cons next slots => exact keeps_begins hkeeps

/-- **A connection that was given back stays in a careful step, or leaves for a good reason.** -/
theorem step_keeps (hopen : e ≠ .close) (hcareful : s.Careful cfg e)
    (hstep : s.step cfg e = some s') (hreturned : c ∈ s.returned) (h : s.keeps c) :
    s'.keeps c ∨ s.Leaves cfg c e := by
  cases step_move hstep with
  | refused | full | tick => exact Or.inl h
  | waits => exact Or.inl (keeps_begins h)
  | acquires isOpen some =>
    refine seek_leaves rfl rfl ?_ h
    simp [seeks, isOpen, some]
  | grant _ ends | connected ends =>
    have hkeeps := keeps_ends ends rfl h
    exact Or.inl (keeps_begins hkeeps)
  | resume ends | invalid ends =>
    have heq := (ends_eq_some ends).2
    exact seek_leaves (by rw [heq]) (by rw [heq]) rfl (keeps_ends ends rfl h)
  | valid ends | reset ends => exact Or.inl (keeps_begins (keeps_ends ends rfl h))
  | @dropped t task client ends =>
    have hnone : task.underCheck = [] := by cases task <;> first | rfl | cases client
    have hkeeps := keeps_ends ends hnone h
    exact Or.inl hkeeps
  | recycle ends | wasReset ends => exact Or.inl (keeps_recycled _ (keeps_ends ends rfl h))
  | pruneIdle =>
    rcases h with ⟨slot, hmem, hc⟩ | h
    · by_cases hlimit : cfg.keeps s.now slot = true
      · exact Or.inl (Or.inl ⟨slot, List.mem_filter.mpr ⟨hmem, hlimit⟩, hc⟩)
      · exact Or.inr (.expired hmem hc (Bool.eq_false_iff.mpr hlimit))
    · exact Or.inl (Or.inr h)
  | warm => exact Or.inl (keeps_warmOn _ h)
  | warmed ends =>
    have hkeeps := keeps_ends ends rfl h
    exact Or.inl (keeps_warmOn _ (keeps_of_subset (List.subset_append_left _ _) rfl hkeeps))
  | unwarmed ends => exact Or.inl (keeps_warmOn _ (keeps_ends ends rfl h))
  | healthCheck =>
    left
    rcases h with h | h
    · exact keeps_checkOn h
    · have hkeeps : keeps { s with idle := [] } c := Or.inr h
      cases hidle : s.idle with
      | nil => exact Or.inr h
      | cons next slots => exact keeps_begins hkeeps
  | alive ends | dead ends => exact checked_leaves hcareful hreturned ends h
  | close => exact absurd rfl hopen

theorem returned_ends (hends : s.ends task = some s') : s'.returned = s.returned := by
  rw [(ends_eq_some hends).2]

theorem returned_seek (cfg : PoolConfig) (s : State) : (s.seek cfg).returned = s.returned := by
  rcases seek_cases cfg s with ⟨-, heq⟩ | ⟨_, _, _, -, -, heq⟩ <;> rw [heq] <;> rfl

theorem returned_warmOn (needed : ℕ) : (s.warmOn needed).returned = s.returned := by
  cases needed with
  | zero => rfl
  | succ more =>
    rw [warmOn]
    split_ifs <;> rfl

theorem returned_checkOn (slots healthy : List Slot) :
    (s.checkOn slots healthy).returned = s.returned := by
  cases slots <;> rfl

/-- That a connection was given back is not forgotten. -/
theorem returned_mono (hstep : s.step cfg e = some s') : s.returned ⊆ s'.returned := by
  cases step_move hstep with
  | refused | waits | full | pruneIdle | close | tick => rfl
  | acquires => rw [returned_seek]
  | grant _ ends | valid ends | connected ends | dropped _ ends | reset ends =>
    exact (returned_ends ends).ge
  | resume ends | invalid ends => rw [returned_seek, returned_ends ends]
  | recycle ends | wasReset ends =>
    exact (returned_ends ends).ge.trans (Finset.subset_insert _ _)
  | warm => rw [returned_warmOn]
  | warmed ends | unwarmed ends =>
    rw [returned_warmOn]
    exact (returned_ends ends).ge
  | healthCheck => rw [returned_checkOn]
  | alive ends | dead ends => rw [returned_checkOn, returned_ends ends]

end State

open State

variable {cfg : PoolConfig} {s₀ s₁ s : State} {e : Event} {checkout : Checkout}

/-- A connection that was given back, followed through a run. -/
theorem path_keeps {c : ℕ} (path : Lib.Path (CarefulStep cfg) s₁ s) (hreturned : c ∈ s₁.returned)
    (h : s₁.keeps c) :
    c ∈ s.returned ∧ (s.keeps c ∨ ∃ a b e, Lib.Path (CarefulStep cfg) s₁ a ∧
      a.step cfg e = some b ∧ Lib.Path (CarefulStep cfg) b s ∧ a.Leaves cfg c e) := by
  induction path with
  | refl => exact ⟨hreturned, Or.inl h⟩
  | @tail a b before hab ih =>
    obtain ⟨hret, hcases⟩ := ih
    obtain ⟨e, ⟨hopen, hcareful⟩, hstep⟩ := id hab
    refine ⟨returned_mono hstep hret, ?_⟩
    rcases hcases with hkeeps | ⟨a', b', e', hpath, hstep', hpath', hleaves⟩
    · rcases step_keeps hopen hcareful hstep hret hkeeps with hkeeps | hleaves
      · exact Or.inl hkeeps
      · exact Or.inr ⟨a, b, e, before, hstep, .refl, hleaves⟩
    · exact Or.inr ⟨a', b', e', hpath, hstep', hpath'.tail hab, hleaves⟩

/-- **In every run of an open pool in which each health check, when it writes the queue, finds no
usable connection there that was given back: a connection that is given back is in the pool's
keeping until an acquire takes it, it has passed a limit, or a ping on it fails.** -/
theorem returned_connection_kept (hrecycle : e = .recycle checkout ∨ e = .wasReset checkout)
    (hstep : s₀.step cfg e = some s₁) (path : Lib.Path (CarefulStep cfg) s₁ s) :
    s.keeps checkout.connection ∨ ∃ a b e, Lib.Path (CarefulStep cfg) s₁ a ∧
      a.step cfg e = some b ∧ Lib.Path (CarefulStep cfg) b s ∧
      a.Leaves cfg checkout.connection e := by
  have hput : ∃ t : State, s₁ = t.recycled checkout := by
    rcases hrecycle with rfl | rfl
    · obtain ⟨t, -, rfl⟩ := Option.map_eq_some_iff.mp hstep
      exact ⟨t, rfl⟩
    · obtain ⟨t, -, rfl⟩ := Option.map_eq_some_iff.mp hstep
      exact ⟨t, rfl⟩
  obtain ⟨t, rfl⟩ := hput
  refine (path_keeps path ?_ ?_).2
  · exact Finset.mem_insert_self _ _
  · exact Or.inl ⟨_, List.mem_append_right _ (List.mem_singleton_self _), rfl⟩

/-- Up to three connections, with limits that are far away. -/
def smallPool : PoolConfig := ⟨0, 3, 1000000000000, 1000000000000⟩

/-- One connection is idle and another is checked out. -/
def idleAndOut : State := ⟨[⟨0, 0, 0⟩], 2, false, [.out ⟨1, 0⟩], 0, 2, {0}⟩

/-- The second connection is given back and then both are checked. -/
theorem returned_connection_kept_through_check :
    ∃ s₁ s, idleAndOut.step smallPool (.recycle ⟨1, 0⟩) = some s₁ ∧
      Lib.Path (CarefulStep smallPool) s₁ s ∧
      (s.keeps 1 ∨ ∃ a b e, Lib.Path (CarefulStep smallPool) s₁ a ∧
        a.step smallPool e = some b ∧ Lib.Path (CarefulStep smallPool) b s ∧
        a.Leaves smallPool 1 e) := by
  have hstep : idleAndOut.step smallPool (.recycle ⟨1, 0⟩) =
      some ⟨[⟨0, 0, 0⟩, ⟨1, 0, 0⟩], 3, false, [], 0, 2, {1, 0}⟩ := by decide +kernel
  have hrun : ([.healthCheck, .checked ⟨0, 0, 0⟩ [⟨1, 0, 0⟩] [] true,
        .checked ⟨1, 0, 0⟩ [] [⟨0, 0, 0⟩] true] : List Event).foldlM
      (fun (s : State) e =>
        if e ≠ .close ∧ s.Careful smallPool e then s.step smallPool e else none)
      ⟨[⟨0, 0, 0⟩, ⟨1, 0, 0⟩], 3, false, [], 0, 2, {1, 0}⟩ =
      some ⟨[⟨0, 0, 0⟩, ⟨1, 0, 0⟩], 3, false, [], 0, 2, {1, 0}⟩ := by decide +kernel
  have hpath := Lib.Path.of_guarded_foldlM hrun
  exact ⟨_, _, hstep, hpath, returned_connection_kept (Or.inl rfl) hstep hpath⟩

/-- **The second connection is given back while the first is being checked**, and when the check is
over it is not in the queue and nobody has it.  There was no reason for that. -/
theorem returned_connection_lost :
    ∃ s₁ s₂ s, idleAndOut.step smallPool .healthCheck = some s₁ ∧
      s₁.step smallPool (.recycle ⟨1, 0⟩) = some s₂ ∧
      s₂.step smallPool (.checked ⟨0, 0, 0⟩ [] [] true) = some s ∧
      ¬s.keeps 1 ∧ ¬s₂.Leaves smallPool 1 (.checked ⟨0, 0, 0⟩ [] [] true) := by
  refine ⟨⟨[], 2, false, [.checking ⟨0, 0, 0⟩ [] [], .out ⟨1, 0⟩], 0, 2, {0}⟩,
    ⟨[⟨1, 0, 0⟩], 3, false, [.checking ⟨0, 0, 0⟩ [] []], 0, 2, {1, 0}⟩,
    ⟨[⟨0, 0, 0⟩], 3, false, [], 0, 2, {1, 0}⟩, by decide +kernel, by decide +kernel,
    by decide +kernel, by decide +kernel, ?_⟩
  intro h
  cases h with
  | taken seeks first eq => cases seeks
  | expired mem eq limit =>
    rw [List.mem_singleton.mp mem] at limit
    revert limit
    decide +kernel

end Ephpm.Db.Pooling
