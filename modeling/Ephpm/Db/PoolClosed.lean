import Ephpm.Db.PoolLimit

/-!
# A pool that is closed

`close` sets a flag and empties the queue.  The flag is read at the beginning of `acquire` and
between two connections of `warm`, and nowhere else.  A call that waits when the pool is closed goes
on as if it were open: **an acquire gets its permit and opens a connection, and a connection that is
given back goes into the queue**, where nobody will ever take it out.  The errors of the semaphore
are turned into `PoolClosed`, but `close` does not close the semaphore.

So the pool stays closed exactly if nothing was under way when it was closed (`stays_closed_iff`).
-/

namespace Ephpm.Db.Pooling

/-- A connection that is checked out. -/
def Task.isOut : Task → Bool
  | out _ => true
  | _ => false

namespace State

variable {cfg : PoolConfig} {s s' t : State} {task : Task} {e : Event}

/-- A step that hands out no connection and puts none into the queue. -/
def Still (s s' : State) : Prop :=
  s'.idle.Sublist s.idle ∧ s'.tasks.countP Task.isOut ≤ s.tasks.countP Task.isOut

/-- From here on no connection is handed out, and none put into the queue. -/
def StaysClosed (cfg : PoolConfig) (s : State) : Prop :=
  ∀ a b e, Lib.Path (fun a b => ∃ e, a.step cfg e = some b) s a → a.step cfg e = some b → Still a b

/-- Nothing is under way.  In a pool without any permits an acquire that waits does so for ever. -/
def Finished (cfg : PoolConfig) (s : State) : Prop :=
  ∀ task ∈ s.tasks, task = .waiting ∧ cfg.maxConnections = 0

/-! ## Nothing under way -/

/-- Closed, empty, and without permits if anyone waits for one. -/
structure Dormant (s : State) : Prop where
  closed : s.closed = true
  idle : s.idle = []
  tasks : ∀ task ∈ s.tasks, task = .waiting ∧ s.permits = 0

theorem mem_of_ends (h : s.ends task = some t) : task ∈ s.tasks :=
  (ends_eq_some h).1.mem_iff.mpr List.mem_cons_self

theorem Dormant.not_ends (h : Dormant s) (hne : task ≠ .waiting) : s.ends task ≠ some t :=
  fun hends => hne (h.tasks task (mem_of_ends hends)).1

theorem Dormant.step (h : Dormant s) (hstep : s.step cfg e = some s') :
    Dormant s' ∧ Still s s' := by
  have hself : Still s s := ⟨List.Sublist.refl _, le_rfl⟩
  obtain ⟨hclosed, hidle, htasks⟩ := h
  cases step_move hstep with
  | refused | full => exact ⟨⟨hclosed, hidle, htasks⟩, hself⟩
  | waits hnone =>
    refine ⟨⟨hclosed, hidle, fun task hmem => ?_⟩, hself⟩
    rcases List.mem_cons.mp hmem with rfl | hmem
    · exact ⟨rfl, hnone⟩
    · exact htasks task hmem
  | acquires isOpen => rw [hclosed] at isOpen; cases isOpen
  | grant hsome ends => exact absurd (htasks _ (mem_of_ends ends)).2 hsome
  | resume ends | valid ends | invalid ends | connected ends | recycle ends | reset ends
  | wasReset ends | warmed ends | unwarmed ends | alive ends | dead ends =>
    exact absurd ends (Dormant.not_ends ⟨hclosed, hidle, htasks⟩ (by simp))
  | @dropped t task client ends =>
    obtain ⟨hperm, heq⟩ := ends_eq_some ends
    obtain ⟨rfl, hnone⟩ := htasks task (mem_of_ends ends)
    have hsub : ∀ task ∈ t.tasks, task ∈ s.tasks := fun task hmem =>
      hperm.mem_iff.mpr (List.mem_cons_of_mem _ hmem)
    have hpermits : t.permits = s.permits := permits_ends ends
    have hidle' : t.idle = s.idle := by rw [heq]
    refine ⟨⟨by rw [heq]; exact hclosed, hidle'.trans hidle, fun task hmem =>
      ⟨(htasks task (hsub task hmem)).1, hpermits.trans hnone⟩⟩, ?_, ?_⟩
    · rw [← hidle']
    · rw [hperm.countP_eq]
      exact le_rfl
  | pruneIdle =>
    have hfilter : s.idle.filter (cfg.keeps s.now) = [] := by rw [hidle]; rfl
    exact ⟨⟨hclosed, hfilter, htasks⟩, List.filter_sublist, le_rfl⟩
  | warm =>
    have hwarm : s.warmOn (s.needed cfg) = s := by
      cases s.needed cfg with
      | zero => rfl
      | succ more => rw [warmOn, if_pos hclosed]
    rw [hwarm]
    exact ⟨⟨hclosed, hidle, htasks⟩, hself⟩
  | healthCheck =>
    rw [hidle]
    exact ⟨⟨hclosed, rfl, htasks⟩, List.nil_sublist _, le_rfl⟩
  | close => exact ⟨⟨rfl, rfl, htasks⟩, List.nil_sublist _, le_rfl⟩
  | tick later => exact ⟨⟨hclosed, hidle, htasks⟩, hself⟩

theorem Dormant.staysClosed (h : Dormant s) : StaysClosed cfg s := by
  intro a b e path hstep
  have hdormant : Dormant a :=
    Lib.Path.preserves (fun _ _ h hstep => (h.step hstep.choose_spec).1) path h
  exact (hdormant.step hstep).2

/-! ## Something under way -/

theorem StaysClosed.step (h : StaysClosed cfg s) (hstep : s.step cfg e = some s') :
    StaysClosed cfg s' := fun a b e path => h a b e (.head ⟨_, hstep⟩ path)

theorem StaysClosed.still (h : StaysClosed cfg s) (hstep : s.step cfg e = some s') :
    Still s s' := h s s' e .refl hstep

/-- The state without a task. -/
def without (s : State) (task : Task) : State := { s with tasks := s.tasks.erase task }

theorem ends_of_mem (h : task ∈ s.tasks) : s.ends task = some (s.without task) := if_pos h

/-- A connection in the queue is one too many. -/
theorem Still.idle_eq_nil (h : Still s s') (hidle : s.idle = []) : s'.idle = [] :=
  List.sublist_nil.mp (hidle ▸ h.1)

theorem Still.not_begins {checkout : Checkout} (hends : s.ends task = some t)
    (hout : task.isOut = false) (htasks : s'.tasks = .out checkout :: t.tasks) : ¬Still s s' := by
  rintro ⟨-, hcount⟩
  rw [(ends_eq_some hends).1.countP_eq, htasks, List.countP_cons, List.countP_cons, hout] at hcount
  simp [Task.isOut] at hcount

theorem not_staysClosed_connecting (h : .connecting ∈ s.tasks) : ¬StaysClosed cfg s := by
  intro hstays
  have hstep : s.step cfg .connected = some ({ s.without .connecting with
      opened := s.opened + 1 }.begins (.out ⟨s.opened, s.now⟩)) := by
    rw [step, ends_of_mem h]
    rfl
  exact Still.not_begins (ends_of_mem h) rfl rfl (hstays.still hstep)

/-- An acquire that has its permit opens a connection. -/
theorem not_staysClosed_granted (hidle : s.idle = []) (h : .granted ∈ s.tasks) :
    ¬StaysClosed cfg s := by
  intro hstays
  have hseek : (s.without .granted).seek cfg = { s.without .granted with idle := [] }.begins
      .connecting := by
    have hnone : (s.without .granted).fromCandidate cfg = [] := by
      rw [fromCandidate, show (s.without .granted).idle = [] from hidle, List.dropWhile_nil]
    rw [seek, hnone]
  have hstep : s.step cfg .resume = some ({ s.without .granted with idle := [] }.begins
      .connecting) := by
    rw [step, ends_of_mem h, Option.map_some, hseek]
  exact not_staysClosed_connecting List.mem_cons_self (hstays.step hstep)

theorem not_staysClosed_checking {slot : Slot} {slots healthy : List Slot} (hidle : s.idle = [])
    (h : .checking slot slots healthy ∈ s.tasks) : ¬StaysClosed cfg s := by
  induction slots generalizing s slot healthy with
  | nil =>
    intro hstays
    have hstep : s.step cfg (.checked slot [] healthy true) =
        some ((s.without (.checking slot [] healthy)).checkOn [] (healthy ++ [slot])) := by
      rw [step, ends_of_mem h]
      rfl
    have hnil := (hstays.still hstep).idle_eq_nil hidle
    simp [checkOn] at hnil
  | cons next slots ih =>
    intro hstays
    have hstep : s.step cfg (.checked slot (next :: slots) healthy true) =
        some ((s.without (.checking slot (next :: slots) healthy)).checkOn (next :: slots)
          (healthy ++ [slot])) := by
      rw [step, ends_of_mem h]
      rfl
    exact ih ((hstays.still hstep).idle_eq_nil hidle) List.mem_cons_self (hstays.step hstep)

/-- **Whoever has a permit goes on.** -/
theorem not_staysClosed_hasPermit (hidle : s.idle = []) (h : task ∈ s.tasks)
    (hpermit : task.hasPermit = true) : ¬StaysClosed cfg s := by
  cases task with
  | waiting | warming | checking => cases hpermit
  | granted => exact not_staysClosed_granted hidle h
  | connecting => exact not_staysClosed_connecting h
  | validating slot =>
    intro hstays
    have hstep : s.step cfg (.pinged slot true) = some
        ((s.without (.validating slot)).begins (.out ⟨slot.connection, slot.createdAt⟩)) := by
      rw [step, ends_of_mem h]
      rfl
    exact Still.not_begins (ends_of_mem h) rfl rfl (hstays.still hstep)
  | out checkout =>
    intro hstays
    have hstep : s.step cfg (.recycle checkout) =
        some ((s.without (.out checkout)).recycled checkout) := by
      rw [step, ends_of_mem h]
      rfl
    have hnil := (hstays.still hstep).idle_eq_nil hidle
    simp [recycled] at hnil
  | resetting checkout =>
    intro hstays
    have hstep : s.step cfg (.wasReset checkout) =
        some ((s.without (.resetting checkout)).recycled checkout) := by
      rw [step, ends_of_mem h]
      rfl
    have hnil := (hstays.still hstep).idle_eq_nil hidle
    simp [recycled] at hnil

theorem not_staysClosed (accounted : Accounted cfg s) (hidle : s.idle = [])
    (h : ¬Finished cfg s) : ¬StaysClosed cfg s := by
  simp only [Finished, not_forall] at h
  obtain ⟨task, hmem, hnot⟩ := h
  by_cases hpermit : task.hasPermit = true
  · exact not_staysClosed_hasPermit hidle hmem hpermit
  cases task with
  | granted | validating | connecting | out | resetting => exact absurd rfl hpermit
  | warming more =>
    intro hstays
    have hstep : s.step cfg (.warmed more true) =
        some ((s.without (.warming more)).parked.warmOn more) := by
      rw [step, ends_of_mem hmem]
      rfl
    have hnil := (hstays.still hstep).idle_eq_nil hidle
    have hlength : ∀ (t : State) needed, (t.warmOn needed).idle = t.idle := by
      intro t needed
      cases needed with
      | zero => rfl
      | succ more =>
        rw [warmOn]
        split <;> rfl
    rw [hlength] at hnil
    simp [parked] at hnil
  | checking slot slots healthy => exact not_staysClosed_checking hidle hmem
  | waiting =>
    have hmax : cfg.maxConnections ≠ 0 := fun hzero => hnot ⟨rfl, hzero⟩
    rw [Accounted] at accounted
    by_cases hnone : s.permits = 0
    · have hholder : 0 < s.tasks.countP Task.hasPermit := by
        rw [holders] at accounted
        omega
      obtain ⟨holder, hholder, hhas⟩ := List.countP_pos_iff.mp hholder
      exact not_staysClosed_hasPermit hidle hholder hhas
    · intro hstays
      have hstep : s.step cfg .grant = some ({ s.without .waiting with
          permits := s.permits - 1 }.begins .granted) := by
        rw [step, if_neg hnone, ends_of_mem hmem]
        rfl
      refine not_staysClosed_granted ?_ List.mem_cons_self (hstays.step hstep)
      exact hidle

end State

open State

/-- **A closed pool stays closed exactly if nothing was under way**: from the moment it is closed no
acquire is given a connection and none is put into the queue, in any order of steps. -/
theorem stays_closed_iff (cfg : PoolConfig) {s s' : State}
    (path : Lib.Path (fun a b => ∃ e, a.step cfg e = some b) (start cfg) s)
    (hclose : s.step cfg .close = some s') : StaysClosed cfg s' ↔ Finished cfg s := by
  have haccounted : Accounted cfg s :=
    Lib.Path.preserves (fun _ _ h hstep => h.step hstep) path rfl
  obtain rfl := Option.some.inj hclose
  constructor
  · intro hstays
    by_contra hnot
    exact not_staysClosed (s := { s with closed := true, idle := [] }) haccounted rfl hnot hstays
  · intro hfinished
    refine Dormant.staysClosed ⟨rfl, rfl, fun task hmem => ⟨(hfinished task hmem).1, ?_⟩⟩
    have hzero := (hfinished task hmem).2
    rw [Accounted] at haccounted
    show s.permits = 0
    omega

/-- A connection is opened, used and given back before the pool is closed. -/
theorem stays_closed_after_use :
    let used : State := ⟨[⟨0, 0, 0⟩], 1, false, [], 0, 1, {0}⟩
    [.acquire, .connected, .recycle ⟨0, 0⟩].foldlM (State.step singlePool) (start singlePool) =
        some used ∧
      Finished singlePool used ∧ StaysClosed singlePool { used with closed := true, idle := [] } := by
  intro used
  have hrun : [.acquire, .connected, .recycle ⟨0, 0⟩].foldlM (State.step singlePool)
      (start singlePool) = some used := by decide +kernel
  have hfinished : Finished singlePool used := fun task hmem => by cases hmem
  exact ⟨hrun, hfinished,
    (stays_closed_iff singlePool (Lib.Path.of_foldlM hrun) rfl).mpr hfinished⟩

/-- A client waits for the only connection of a pool that is closed meanwhile.  It gets one all the
same, and a connection is put into the queue. -/
theorem closed_pool_hands_out :
    (∃ s : State, [.acquire, .connected, .acquire, .close, .dropped (.out ⟨0, 0⟩), .grant, .resume,
        .connected].foldlM (State.step singlePool) (start singlePool) = some s ∧
      s.closed = true ∧ .out ⟨1, 0⟩ ∈ s.tasks) ∧
    ∃ s : State, [.acquire, .connected, .close, .recycle ⟨0, 0⟩].foldlM (State.step singlePool)
        (start singlePool) = some s ∧ s.closed = true ∧ s.idle = [⟨0, 0, 0⟩] := by
  constructor
  · exact ⟨⟨[], 0, true, [.out ⟨1, 0⟩], 0, 2, ∅⟩, by decide +kernel, rfl, List.mem_cons_self⟩
  · exact ⟨⟨[⟨0, 0, 0⟩], 1, true, [], 0, 1, {0}⟩, by decide +kernel, rfl, rfl⟩

end Ephpm.Db.Pooling
