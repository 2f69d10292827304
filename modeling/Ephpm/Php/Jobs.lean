import Ephpm.Php.Barge

/-!
# The order of the jobs

A job is accepted when `try_push_inner` takes it, for a call of `try_push` or for a call of `push`
that may have waited.  It is in the hands of an idle thread then, or at the end of the queue.  A
**ledger** beside the dispatcher writes down what is accepted and what goes to the threads.

Calls of `push` overtake each other, but once a job is accepted **nothing overtakes it**: threads are
idle only while the queue is empty, so the jobs go to the threads in the order in which they were
accepted, each of them once (`jobs_in_order`).
-/

namespace Ephpm.Php.Barge

variable {α : Type}

/-- The job with which a call comes to `try_push_inner`. -/
def Call.tries : Call α → Option α
  | starting job | enabled job _ => some job
  | _ => none

namespace Dispatcher

/-- The job, if `try_push_inner` takes it. -/
def placing (s : Dispatcher α) (thread : ℕ) (job : α) : List α :=
  match (s.tryPushInner job thread).2 with
  | .ok _ => [job]
  | _ => []

/-- What is accepted in an event. -/
def accepts (s : Dispatcher α) : Event α → List α
  | .tryPush job thread => s.placing thread job
  | .advance c choice => (s.calls[c]?.bind Call.tries).elim [] (s.placing choice)
  | _ => []

/-- What goes to a thread: the head of the queue, or what is placed with an idle one. -/
def hands (s : Dispatcher α) : Event α → List α
  | .recv _ => s.queue.take 1
  | e => if s.idle.isEmpty then [] else s.accepts e

end Dispatcher

/-- The dispatcher, with what was accepted and what went to the threads. -/
structure Ledger (α : Type) where
  dispatcher : Dispatcher α
  accepted : List α
  handed : List α

namespace Ledger

/-- An event that cannot happen changes nothing. -/
def step (l : Ledger α) (e : Event α) : Ledger α :=
  (l.dispatcher.step e).elim l fun s' =>
    ⟨s', l.accepted ++ l.dispatcher.accepts e, l.handed ++ l.dispatcher.hands e⟩

/-- The books after some events. -/
def run (capacity : ℕ) (events : List (Event α)) : Ledger α :=
  events.foldl step ⟨.new capacity, [], []⟩

end Ledger

namespace Dispatcher

variable {s s' : Dispatcher α} {c choice : ℕ} {call : Call α} {accepted handed : List α}

/-- Threads and jobs do not wait for each other, and the queue is not too long. -/
structure Orderly (s : Dispatcher α) : Prop where
  bounded : s.queue.length ≤ s.capacity
  apart : s.idle = [] ∨ s.queue = []

/-- In a step, nothing overtakes what waits. -/
structure Passes (s s' : Dispatcher α) (accepted handed : List α) : Prop where
  capacity : s'.capacity = s.capacity
  orderly : s.Orderly → s'.Orderly
  line : s.Orderly → s.queue ++ accepted = handed ++ s'.queue

/-- The calls do not matter. -/
theorem Passes.of_eq {t : Dispatcher α} (h : Passes s s' accepted handed)
    (hcapacity : t.capacity = s'.capacity) (hidle : t.idle = s'.idle) (hqueue : t.queue = s'.queue) :
    Passes s t accepted handed where
  capacity := hcapacity.trans h.capacity
  orderly ho :=
    ⟨hqueue ▸ hcapacity ▸ (h.orderly ho).bounded, hidle ▸ hqueue ▸ (h.orderly ho).apart⟩
  line ho := hqueue ▸ h.line ho

theorem Passes.refl (s : Dispatcher α) : Passes s s [] [] :=
  ⟨rfl, id, fun _ => List.append_nil _⟩

theorem passes_setCall (s : Dispatcher α) (c : ℕ) (next : Call α) :
    Passes s (s.setCall c next) [] [] := (Passes.refl s).of_eq rfl rfl rfl

theorem Passes.notifyOne (h : Passes s s' accepted handed) (waiter : ℕ) :
    Passes s (s'.notifyOne waiter) accepted handed := by
  rcases notifyOne_spec s' waiter with ⟨i, call, -, -, heq⟩ | ⟨-, heq⟩ <;> rw [heq]
  · exact h.of_eq rfl rfl rfl
  · exact h.of_eq rfl rfl rfl

/-- A thread is idle only if the queue is empty, so what it is given does not overtake anything. -/
theorem passes_tryPushInner (s : Dispatcher α) (job : α) (thread : ℕ) :
    Passes s (s.tryPushInner job thread).1 (s.placing thread job)
      (if s.idle.isEmpty then [] else s.placing thread job) := by
  rw [placing]
  fun_cases tryPushInner s job thread with
  | case1 | case3 => simpa using Passes.refl s
  | case2 hclosed hidle s' =>
    have hqueue (h : s.Orderly) : s.queue = [] := h.apart.resolve_left (by simpa using hidle)
    refine ⟨rfl, fun h => ⟨h.bounded, .inr (hqueue h)⟩, fun h => ?_⟩
    simp [s', hqueue h, (by simpa using hidle : s.idle.isEmpty = false)]
  | case4 hclosed hidle hfull s' =>
    have hempty : s.idle = [] := by simpa using hidle
    refine ⟨rfl, fun h => ⟨?_, .inl hempty⟩, fun _ => by simp [s', hempty]⟩
    simp only [s', List.length_append, List.length_singleton]
    omega

theorem passes_advance (hadvance : s.advance c choice call = some s') :
    Passes s s' (call.tries.elim [] (s.placing choice))
      (if s.idle.isEmpty then [] else call.tries.elim [] (s.placing choice)) := by
  cases call <;> simp only [advance, reduceCtorEq] at hadvance
  case starting job | enabled job _ =>
      split at hadvance
      next => cases hadvance
      next =>
          split at hadvance <;> obtain rfl := Option.some.inj hadvance <;>
            exact (passes_tryPushInner s job choice).of_eq rfl rfl rfl
  all_goals simp only [Call.tries, Option.elim_none, ite_self]
  case created job epoch =>
      rw [← Option.some.inj hadvance, enable]
      split_ifs <;> exact (Passes.refl s).of_eq rfl rfl rfl
  case awaiting job n =>
      split at hadvance
      next => cases hadvance
      next => exact Option.some.inj hadvance ▸ passes_setCall s c _
  case passing n =>
      exact Option.some.inj hadvance ▸ (passes_setCall s c _).notifyOne choice
  case dropping result n =>
      split at hadvance
      next => exact Option.some.inj hadvance ▸ (passes_setCall s c _).notifyOne choice
      next => exact Option.some.inj hadvance ▸ passes_setCall s c _
  all_goals exact Option.some.inj hadvance ▸ (Passes.refl s).of_eq rfl rfl rfl

theorem passes_recv (s : Dispatcher α) (thread : ℕ) :
    Passes s (s.recv thread) [] (s.queue.take 1) := by
  fun_cases recv s thread with
  | case1 _ queue hqueue =>
    refine ⟨rfl, fun h => ⟨?_, .inl (h.apart.resolve_right ?_)⟩, fun _ => ?_⟩
    · exact (Nat.le_succ _).trans ((congrArg List.length hqueue).symm.trans_le h.bounded)
    all_goals simp [hqueue]
  | case2 hqueue => simpa [hqueue] using Passes.refl s
  | case3 hqueue =>
    exact ⟨rfl, fun h => ⟨h.bounded, .inr hqueue⟩, fun _ => by simp [hqueue]⟩

theorem passes_step {e : Event α} (hstep : s.step e = some s') :
    Passes s s' (s.accepts e) (s.hands e) := by
  cases e <;> simp only [step] at hstep <;> simp only [hands, accepts, ite_self]
  case tryPush job thread =>
      split at hstep
      next => cases hstep
      next => exact Option.some.inj hstep ▸ passes_tryPushInner s job thread
  case push job => exact Option.some.inj hstep ▸ (Passes.refl s).of_eq rfl rfl rfl
  case recv thread =>
      split at hstep
      next => cases hstep
      next => exact Option.some.inj hstep ▸ passes_recv s thread
  case close =>
      split at hstep
      next => cases hstep
      next =>
          obtain rfl := Option.some.inj hstep
          exact ⟨rfl, fun h => ⟨h.bounded, .inl rfl⟩, fun _ => List.append_nil _⟩
  case advance c choice =>
      obtain ⟨call, hc, hadvance⟩ := Option.bind_eq_some_iff.mp hstep
      rw [hc]
      exact passes_advance hadvance
  case notify waiter =>
      split at hstep
      next => exact Option.some.inj hstep ▸ ((Passes.refl s).notifyOne waiter).of_eq rfl rfl rfl
      next => cases hstep
  case notifyWaiters =>
      split at hstep
      next => cases hstep
      next => exact Option.some.inj hstep ▸ (Passes.refl s).of_eq rfl rfl rfl
  case cancel c =>
      obtain ⟨call, -, hcancel⟩ := Option.bind_eq_some_iff.mp hstep
      split at hcancel
      next => exact Option.some.inj hcancel ▸ passes_setCall s c _
      next => cases hcancel

end Dispatcher

namespace Ledger

/-- What holds between the dispatcher and its ledger. -/
structure Kept (capacity : ℕ) (l : Ledger α) : Prop extends l.dispatcher.Orderly where
  capacity : l.dispatcher.capacity = max capacity 1
  line : l.accepted = l.handed ++ l.dispatcher.queue

theorem Kept.step {capacity : ℕ} {l : Ledger α} (h : Kept capacity l) (e : Event α) :
    Kept capacity (l.step e) := by
  rw [Ledger.step]
  cases hstep : l.dispatcher.step e with
  | none => exact h
  | some s' =>
    have hpasses := Dispatcher.passes_step hstep
    have horder := h.toOrderly
    refine ⟨hpasses.orderly horder, hpasses.capacity.trans h.capacity, ?_⟩
    rw [Option.elim_some, h.line, List.append_assoc, hpasses.line horder, List.append_assoc]

/-- **Accepted jobs are handed out once and in order**, whatever the callers, the threads and the
cancellations do: those that went to threads are the first that were accepted, and the others are in
the queue.  The queue keeps to its capacity, and no thread is idle while a job waits. -/
theorem jobs_in_order (capacity : ℕ) (events : List (Event α)) :
    (run capacity events).accepted =
        (run capacity events).handed ++ (run capacity events).dispatcher.queue ∧
      (run capacity events).dispatcher.queue.length ≤ max capacity 1 ∧
      ((run capacity events).dispatcher.idle = [] ∨ (run capacity events).dispatcher.queue = []) := by
  have h : Kept capacity (run capacity events) :=
    List.foldlRecOn events Ledger.step ⟨⟨Nat.zero_le _, .inl rfl⟩, rfl, rfl⟩ fun l h e _ => h.step e
  exact ⟨h.line, h.capacity ▸ h.bounded, h.apart⟩

end Ledger

end Ephpm.Php.Barge
