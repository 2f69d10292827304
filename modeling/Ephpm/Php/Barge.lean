import Mathlib.Algebra.Order.BigOperators.Group.List
import Mathlib.Algebra.Order.Ring.Nat
import Ephpm.Lib.Path
import Ephpm.Lib.Tally

/-!
# Who waits for room in the job dispatcher

`Dispatcher::push` waits while every PHP thread is busy and the overflow queue is full.  Nobody
keeps the callers in order: whoever comes first takes the room, and the others go back to sleep on a
`tokio::sync::Notify`.  So a caller can be woken for room that is gone, room can appear that nobody
was woken for, and a caller can be cancelled with a wake-up in its hands.

The model has one step for each section under the lock and for each access to `push_waiters` or to
the `Notify` outside it.  Any number of calls run at the same time, and each of them can be
cancelled where it waits.  A `Notify` keeps at most one permit, gives a wake-up to any of those that
wait, and the future that is dropped with a wake-up hands it on.

The rule behind it is that room and a sleeping caller mean that **somebody owes a wake-up**: a
thread that is about to notify, or a call that has yet to look at the room or to pass its wake-up on
(`Inv.woken`).  A call that still owes one can go on, so when nothing can go on any more, nobody is
left waiting (`none_stranded`).
-/

namespace Ephpm.Php.Barge

open Lib

/-- The future that `Notify::notified` returns, once it is enabled. -/
inductive Notified where
  /-- On the list of those who wait. -/
  | waiting
  /-- Woken by `notify_one`. -/
  | one
  /-- Woken by `notify_waiters`. -/
  | all
  /-- It found the permit, or a `notify_waiters` since it was created. -/
  | complete
deriving DecidableEq

/-- What a call of `push` comes to. -/
inductive Result (α : Type) where
  | pushed
  | closed (job : α)
  | cancelled
deriving DecidableEq

/-- Where a call of `push` is: what comes next. -/
inductive Call (α : Type) where
  /-- The fast path. -/
  | starting (job : α)
  /-- It counts itself as a waiter. -/
  | counting (job : α)
  /-- At the head of its loop: it calls `notified`. -/
  | looping (job : α)
  /-- It enables the future that was created after this many calls of `notify_waiters`. -/
  | created (job : α) (epoch : ℕ)
  /-- It tries again. -/
  | enabled (job : α) (n : Notified)
  /-- At `notified.await`. -/
  | awaiting (job : α) (n : Notified)
  /-- Its job is placed: it looks if there are other waiters. -/
  | placed (spaceLeft : Bool) (n : Notified)
  /-- It notifies one. -/
  | passing (n : Notified)
  /-- It drops the future. -/
  | dropping (result : Result α) (n : Notified)
  /-- It drops the `WaiterGuard`. -/
  | leaving (result : Result α)
  | done (result : Result α)
deriving DecidableEq

namespace Call

variable {α : Type}

/-- The future is on the list of those who wait. -/
def waits : Call α → Bool
  | enabled _ n | awaiting _ n | placed _ n | passing n | dropping _ n => n = .waiting
  | _ => false

/-- What becomes of a call when its future is woken. -/
def wake (n : Notified) : Call α → Call α
  | enabled job _ => enabled job n
  | awaiting job _ => awaiting job n
  | placed spaceLeft _ => placed spaceLeft n
  | passing _ => passing n
  | dropping result _ => dropping result n
  | call => call

/-- It sleeps, and nobody has woken it. -/
def asleep : Call α → Bool
  | awaiting _ n => n = .waiting
  | _ => false

/-- The `WaiterGuard` is there. -/
def counted : Call α → ℕ
  | starting _ | counting _ | done _ => 0
  | _ => 1

/-- It has yet to look at the room, or to pass a wake-up on. -/
def owes : Call α → Bool
  | looping _ | created _ _ | enabled _ _ | passing _ => true
  | placed spaceLeft n => spaceLeft || n = .one
  | awaiting _ n | dropping _ n => n = .one
  | _ => false

end Call

/-- The dispatcher with the calls that use it. -/
structure Dispatcher (α : Type) where
  capacity : ℕ
  /-- The threads on the idle stack. -/
  idle : List ℕ
  queue : List α
  closed : Bool
  pushWaiters : ℕ
  /-- The permit of the `Notify`. -/
  permit : Bool
  /-- How often `notify_waiters` was called. -/
  epoch : ℕ
  calls : List (Call α)
  /-- A thread holds the lock in `recv` and is about to notify. -/
  notifying : Bool
  /-- The calls of `close` that are about to notify all. -/
  closing : ℕ
deriving DecidableEq

/-- What can happen.  The number of a thread or of a waiter says which one is taken if there are
several. -/
inductive Event (α : Type) where
  /-- A call of `try_push`. -/
  | tryPush (job : α) (thread : ℕ)
  /-- A call of `push`. -/
  | push (job : α)
  /-- The section of `recv` under the lock, up to its notification. -/
  | recv (thread : ℕ)
  /-- The section of `close` under the lock. -/
  | close
  /-- A call of `push` goes on. -/
  | advance (c : ℕ) (choice : ℕ)
  /-- The thread in `recv` notifies one, and unlocks. -/
  | notify (waiter : ℕ)
  /-- A call of `close` notifies all. -/
  | notifyWaiters
  /-- A call of `push` is cancelled where it waits. -/
  | cancel (c : ℕ)

/-- The event is the rest of an operation that was begun. -/
def Event.goesOn {α : Type} : Event α → Bool
  | .advance _ _ | .notify _ | .notifyWaiters => true
  | _ => false

/-- What `try_push_inner` says. -/
inductive TryPush where
  | ok (spaceLeft : Bool)
  | full
  | closed

namespace Dispatcher

variable {α : Type}

/-- A dispatcher without jobs. -/
def new (capacity : ℕ) : Dispatcher α where
  capacity := max capacity 1
  idle := []
  queue := []
  closed := false
  pushWaiters := 0
  permit := false
  epoch := 0
  calls := []
  notifying := false
  closing := 0

/-- An idle thread or a free slot in the queue. -/
def hasRoom (s : Dispatcher α) : Bool := !s.idle.isEmpty || s.queue.length < s.capacity

/-- A call changes. -/
def setCall (s : Dispatcher α) (c : ℕ) (call : Call α) : Dispatcher α :=
  { s with calls := s.calls.set c call }

/-- `take_idle`: the top of the stack, or one below it that still spins. -/
def takeIdle (idle : List ℕ) (thread : ℕ) : List ℕ := idle.eraseIdx (min thread (idle.length - 1))

/-- `try_push_inner`: to an idle thread, or to the end of the queue if it has room. -/
def tryPushInner (s : Dispatcher α) (job : α) (thread : ℕ) : Dispatcher α × TryPush :=
  if s.closed then (s, .closed)
  else if !s.idle.isEmpty then
    let s' := { s with idle := takeIdle s.idle thread }
    (s', .ok s'.hasRoom)
  else if s.capacity ≤ s.queue.length then (s, .full)
  else
    let s' := { s with queue := s.queue ++ [job] }
    (s', .ok (s'.queue.length < s'.capacity))

/-- The waiter that `notify_one` picks. -/
def target (calls : List (Call α)) (waiter : ℕ) : Option ℕ :=
  if calls[waiter]?.any Call.waits then some waiter else calls.findIdx? Call.waits

/-- `Notify::notify_one`: one of those who wait is woken, or else the permit is left. -/
def notifyOne (s : Dispatcher α) (waiter : ℕ) : Dispatcher α :=
  match target s.calls waiter with
  | some i => { s with calls := s.calls.modify i (Call.wake .one) }
  | none => { s with permit := true }

/-- `Notified::enable`. -/
def enable (s : Dispatcher α) (c : ℕ) (job : α) (epoch : ℕ) : Dispatcher α :=
  if s.epoch ≠ epoch then s.setCall c (.enabled job .complete)
  else if s.permit then { s.setCall c (.enabled job .complete) with permit := false }
  else s.setCall c (.enabled job .waiting)

/-- The next step of a call of `push`. -/
def advance (s : Dispatcher α) (c choice : ℕ) : Call α → Option (Dispatcher α)
  | .starting job =>
    if s.notifying then none
    else
      let (s', outcome) := s.tryPushInner job choice
      match outcome with
      | .ok _ => some (s'.setCall c (.done .pushed))
      | .full => some (s'.setCall c (.counting job))
      | .closed => some (s'.setCall c (.done (.closed job)))
  | .counting job => some { s.setCall c (.looping job) with pushWaiters := s.pushWaiters + 1 }
  | .looping job => some (s.setCall c (.created job s.epoch))
  | .created job epoch => some (s.enable c job epoch)
  | .enabled job n =>
    if s.notifying then none
    else
      let (s', outcome) := s.tryPushInner job choice
      match outcome with
      | .ok spaceLeft => some (s'.setCall c (.placed spaceLeft n))
      | .full => some (s'.setCall c (.awaiting job n))
      | .closed => some (s'.setCall c (.dropping (.closed job) n))
  | .awaiting job n => if n = .waiting then none else some (s.setCall c (.looping job))
  | .placed spaceLeft n =>
    some (s.setCall c
      (if spaceLeft && 1 < s.pushWaiters then .passing n else .dropping .pushed n))
  | .passing n => some ((s.setCall c (.dropping .pushed n)).notifyOne choice)
  | .dropping result n =>
    -- A future that was woken alone hands its wake-up on.
    if n = .one then some ((s.setCall c (.leaving result)).notifyOne choice)
    else some (s.setCall c (.leaving result))
  | .leaving result => some { s.setCall c (.done result) with pushWaiters := s.pushWaiters - 1 }
  | .done _ => none

/-- `recv_with_hook` under the lock, with `pop_queued`: a job, or the idle stack. -/
def recv (s : Dispatcher α) (thread : ℕ) : Dispatcher α :=
  match s.queue with
  | _ :: queue => { s with queue := queue, notifying := decide (0 < s.pushWaiters) }
  | [] =>
    if s.closed then s
    else { s with idle := s.idle ++ [thread], notifying := decide (0 < s.pushWaiters) }

/-- One event, if it can happen. -/
def step (s : Dispatcher α) : Event α → Option (Dispatcher α)
  | .tryPush job thread => if s.notifying then none else some (s.tryPushInner job thread).1
  | .push job => some { s with calls := s.calls ++ [.starting job] }
  | .recv thread => if s.notifying || s.idle.contains thread then none else some (s.recv thread)
  | .close =>
    if s.notifying then none
    else some { s with closed := true, idle := [], closing := s.closing + 1 }
  | .advance c choice => s.calls[c]?.bind (s.advance c choice)
  | .notify waiter =>
    if s.notifying then some { s.notifyOne waiter with notifying := false } else none
  | .notifyWaiters =>
    if s.closing = 0 then none
    else some
      { s with
        epoch := s.epoch + 1
        calls := s.calls.map fun call => if call.waits then call.wake .all else call
        closing := s.closing - 1 }
  | .cancel c =>
    s.calls[c]?.bind fun call =>
      match call with
      | .awaiting _ n => some (s.setCall c (.dropping .cancelled n))
      | _ => none

/-- A step of some call. -/
def Step (s s' : Dispatcher α) : Prop := ∃ e, s.step e = some s'

/-- No operation that was begun can go on. -/
def Quiet (s : Dispatcher α) : Prop := ∀ e : Event α, e.goesOn = true → s.step e = none

/-! ## What the operations do -/

variable {s s' : Dispatcher α} {c choice : ℕ} {call next : Call α}

/-- What `try_push_inner` does, and what its answer says about the room afterwards. -/
structure Tried (s s' : Dispatcher α) (outcome : TryPush) : Prop where
  same : ∃ idle queue, s' = { s with idle := idle, queue := queue }
  room : s'.hasRoom = true → s.hasRoom = true
  ok : ∀ spaceLeft, outcome = .ok spaceLeft → s'.hasRoom = spaceLeft
  full : outcome = .full → s'.hasRoom = false ∧ s'.closed = false
  closed : outcome = .closed → s'.closed = true

/-- The function does one of these. -/
theorem tried_tryPushInner (s : Dispatcher α) (job : α) (thread : ℕ) :
    Tried s (s.tryPushInner job thread).1 (s.tryPushInner job thread).2 := by
  fun_cases tryPushInner s job thread with
  | case1 hclosed => exact ⟨⟨_, _, rfl⟩, id, by simp, by simp, fun _ => hclosed⟩
  | case2 hclosed hidle s' =>
    refine ⟨⟨_, _, rfl⟩, fun _ => ?_, fun spaceLeft h => ?_, by simp, by simp⟩
    · simp [hasRoom, hidle]
    · exact TryPush.ok.inj h
  | case3 hclosed hidle hfull =>
    have hopen := Bool.eq_false_of_not_eq_true hclosed
    refine ⟨⟨_, _, rfl⟩, id, by simp, fun _ => ⟨?_, hopen⟩, by simp⟩
    simp only [hasRoom, Bool.eq_false_of_not_eq_true hidle, Bool.false_or, decide_eq_false_iff_not]
    exact Nat.not_lt.mpr hfull
  | case4 hclosed hidle hfull s' =>
    refine ⟨⟨_, _, rfl⟩, fun _ => ?_, fun spaceLeft h => ?_, by simp, by simp⟩
    · simp [hasRoom, Nat.lt_of_not_le hfull]
    · have hempty : s'.idle.isEmpty = true := by simpa using hidle
      rw [hasRoom, hempty]
      exact TryPush.ok.inj h

/-- Whoever is woken waits. -/
theorem target_eq_some {calls : List (Call α)} {waiter i : ℕ} (h : target calls waiter = some i) :
    ∃ call, calls[i]? = some call ∧ call.waits = true := by
  rw [target] at h
  split at h
  next hany =>
      obtain rfl := Option.some.inj h
      exact (Option.any_eq_true _ _).mp hany
  next =>
      obtain ⟨hi, hwaits, -⟩ := List.findIdx?_eq_some_iff_getElem.mp h
      exact ⟨calls[i], List.getElem?_eq_getElem hi, hwaits⟩

/-- If nobody is woken, nobody waits. -/
theorem target_eq_none {calls : List (Call α)} {waiter : ℕ} (h : target calls waiter = none) :
    ∀ call ∈ calls, call.waits = false := by
  rw [target] at h
  split at h
  next => cases h
  next => exact List.findIdx?_eq_none_iff.mp h

/-- `notify_one` wakes somebody, or nobody waits. -/
theorem notifyOne_spec (s : Dispatcher α) (waiter : ℕ) :
    (∃ i call, s.calls[i]? = some call ∧ call.waits = true ∧
      s.notifyOne waiter = s.setCall i (call.wake .one)) ∨
    ((∀ call ∈ s.calls, call.waits = false) ∧ s.notifyOne waiter = { s with permit := true }) := by
  fun_cases notifyOne s waiter with
  | case1 i htarget =>
    obtain ⟨call, hcall, hwaits⟩ := target_eq_some htarget
    refine .inl ⟨i, call, hcall, hwaits, ?_⟩
    rw [setCall, List.modify_eq_set_getElem?, hcall]
    rfl
  | case2 htarget => exact .inr ⟨target_eq_none htarget, rfl⟩

theorem counted_wake (n : Notified) (call : Call α) : (call.wake n).counted = call.counted := by
  cases call <;> rfl

/-- Whoever is woken owes a wake-up. -/
theorem owes_wake (hwaits : call.waits = true) : (call.wake .one).owes = true := by
  cases call <;> simp_all [Call.waits, Call.wake, Call.owes]

theorem not_asleep_wake {n : Notified} (hn : n ≠ .waiting) (call : Call α) :
    ¬ (call.wake n).asleep = true := by
  cases call <;> simp [Call.wake, Call.asleep, hn]

/-- Whoever is asleep waits. -/
theorem waits_of_asleep (hasleep : call.asleep = true) : call.waits = true := by
  cases call <;> simp_all [Call.asleep, Call.waits]

/-- Whoever is asleep is counted. -/
theorem counted_of_asleep (hasleep : call.asleep = true) : call.counted = 1 := by
  cases call <;> simp_all [Call.asleep, Call.counted]

/-! ## The invariant -/

/-- Who is counted, and that nobody sleeps in a closed dispatcher once all were notified. -/
structure Base (s : Dispatcher α) : Prop where
  counted : s.pushWaiters = tally Call.counted s.calls
  shut : s.closed = true → s.closing = 0 → ∀ call ∈ s.calls, ¬ call.asleep = true

/-- **Room and a sleeping call mean that somebody owes a wake-up.** -/
def Woken (s : Dispatcher α) : Prop :=
  s.closed = false → s.hasRoom = true → (∃ call ∈ s.calls, call.asleep = true) →
    s.notifying = true ∨ ∃ call ∈ s.calls, call.owes = true

/-- What is true of every state that is reached. -/
structure Inv (s : Dispatcher α) : Prop extends Base s where
  woken : s.Woken

/-- At the beginning nobody is there. -/
theorem Inv.new (capacity : ℕ) : Inv (new capacity : Dispatcher α) where
  counted := rfl
  shut := fun hclosed => absurd hclosed Bool.false_ne_true
  woken := by
    rintro - - ⟨call, hcall, -⟩
    exact absurd hcall List.not_mem_nil

/-- The calls after one of them has gone on. -/
theorem mem_setCall {x : Call α} (hx : x ∈ (s.setCall c next).calls) : x = next ∨ x ∈ s.calls :=
  (List.mem_or_eq_of_mem_set hx).symm

/-- The call that has gone on is one of them. -/
theorem mem_setCall_self (hc : s.calls[c]? = some call) : next ∈ (s.setCall c next).calls :=
  List.mem_set (List.getElem?_eq_some_iff.mp hc).1 next

/-- The other calls stay. -/
theorem mem_setCall_of_ne {x : Call α} (hc : s.calls[c]? = some call) (hx : x ∈ s.calls)
    (hne : x ≠ call) : x ∈ (s.setCall c next).calls := by
  obtain ⟨i, hi⟩ := List.mem_iff_getElem?.mp hx
  refine List.mem_iff_getElem?.mpr ⟨i, ?_⟩
  have hci : c ≠ i := by
    rintro rfl
    exact hne (Option.some.inj (hi.symm.trans hc))
  rw [setCall, List.getElem?_set_ne hci, hi]

/-- A call goes on without a change of the count. -/
theorem Base.setCall (h : Base s) (hc : s.calls[c]? = some call)
    (hcounted : next.counted = call.counted)
    (hawake : s.closed = true → ¬ next.asleep = true) : Base (s.setCall c next) := by
  refine ⟨h.counted.trans (tally_set_eq hc hcounted).symm, fun hclosed hclosing x hx => ?_⟩
  rcases mem_setCall hx with rfl | hx
  · exact hawake hclosed
  · exact h.shut hclosed hclosing x hx

/-- A call that goes on keeps what it owes. -/
theorem Woken.setCall (h : s.Woken) (hc : s.calls[c]? = some call) (hawake : ¬ next.asleep = true)
    (howes : call.owes = true → next.owes = true) : (s.setCall c next).Woken := by
  rintro hclosed hroom ⟨x, hx, hasleep⟩
  have hbefore : x ∈ s.calls := by
    refine (mem_setCall hx).resolve_left ?_
    rintro rfl
    exact hawake hasleep
  refine (h hclosed hroom ⟨x, hbefore, hasleep⟩).imp_right ?_
  rintro ⟨y, hy, hdebt⟩
  by_cases hne : y = call
  · exact ⟨next, mem_setCall_self hc, howes (hne ▸ hdebt)⟩
  · exact ⟨y, mem_setCall_of_ne hc hy hne, hdebt⟩

/-- A call goes on, awake and with what it owes. -/
theorem Inv.setCall (h : Inv s) (hc : s.calls[c]? = some call)
    (hcounted : next.counted = call.counted) (hawake : ¬ next.asleep = true)
    (howes : call.owes = true → next.owes = true) : Inv (s.setCall c next) :=
  ⟨h.toBase.setCall hc hcounted fun _ => hawake, h.woken.setCall hc hawake howes⟩

/-- Jobs and idle threads may be taken. -/
theorem Inv.tried {outcome : TryPush} (h : Inv s) (htried : Tried s s' outcome) :
    Inv s' ∧ s'.calls = s.calls := by
  obtain ⟨idle, queue, rfl⟩ := htried.same
  refine ⟨⟨⟨h.counted, h.shut⟩, fun hclosed hroom => ?_⟩, rfl⟩
  exact h.woken hclosed (htried.room hroom)

/-- After `notify_one`, somebody owes the wake-up or nobody sleeps. -/
theorem notifyOne_awake (s : Dispatcher α) (waiter : ℕ) :
    (∃ call ∈ (s.notifyOne waiter).calls, call.owes = true) ∨
      ∀ call ∈ (s.notifyOne waiter).calls, ¬ call.asleep = true := by
  rcases notifyOne_spec s waiter with ⟨i, call, hi, hwaits, heq⟩ | ⟨hnone, heq⟩
  · exact .inl ⟨call.wake .one, heq ▸ mem_setCall_self hi, owes_wake hwaits⟩
  · refine .inr fun call hcall hasleep => ?_
    rw [heq] at hcall
    exact Bool.false_ne_true ((hnone call hcall).symm.trans (waits_of_asleep hasleep))

/-- A wake-up changes no count. -/
theorem Base.notifyOne (h : Base s) (waiter : ℕ) : Base (s.notifyOne waiter) := by
  rcases notifyOne_spec s waiter with ⟨i, call, hi, hwaits, heq⟩ | ⟨hnone, heq⟩
  · rw [heq]
    exact h.setCall hi (counted_wake _ _) fun _ => not_asleep_wake (by decide) call
  · exact heq ▸ ⟨h.counted, h.shut⟩

/-- `notify_one` pays what is owed, with the lock or without it. -/
theorem Base.inv_notifyOne (h : Base s) (waiter : ℕ) (locked : Bool) :
    Inv { s.notifyOne waiter with notifying := locked } := by
  have hbase := h.notifyOne waiter
  refine ⟨⟨hbase.counted, hbase.shut⟩, ?_⟩
  rintro - - ⟨x, hx, hasleep⟩
  refine .inr ((notifyOne_awake s waiter).resolve_right fun hawake => ?_)
  exact hawake x hx hasleep

/-- No other call is counted, so no other sleeps. -/
theorem Base.alone (h : Base s) (hc : s.calls[c]? = some call) (hcounted : call.counted = 1)
    (hwaiters : s.pushWaiters ≤ 1) (hnext : ¬ next.asleep = true) :
    ∀ x ∈ (s.setCall c next).calls, ¬ x.asleep = true := by
  intro x hx
  obtain ⟨i, hi⟩ := List.mem_iff_getElem?.mp hx
  by_cases hci : c = i
  · rw [← hci, Dispatcher.setCall, List.getElem?_set_self (List.getElem?_eq_some_iff.mp hc).1] at hi
    exact Option.some.inj hi ▸ hnext
  · rw [Dispatcher.setCall, List.getElem?_set_ne hci] at hi
    have hmem : x ∈ s.calls.eraseIdx c := List.mem_eraseIdx_iff_getElem?.mpr ⟨i, Ne.symm hci, hi⟩
    have hle : x.counted ≤ tally Call.counted (s.calls.eraseIdx c) :=
      List.le_sum_of_mem (List.mem_map_of_mem hmem)
    have hsum := tally_eraseIdx (f := Call.counted) hc
    have hall := h.counted
    intro hasleep
    have hone := counted_of_asleep hasleep
    omega

/-! ## What a step keeps -/

/-- A call that got room owes a wake-up if there is more. -/
theorem Inv.place {job : α} {n : Notified} {spaceLeft : Bool} (h : Inv s)
    (hc : s.calls[c]? = some (.enabled job n)) (hroom : s.hasRoom = spaceLeft) :
    Inv (s.setCall c (.placed spaceLeft n)) := by
  cases spaceLeft with
  | true => exact h.setCall hc rfl Bool.false_ne_true fun _ => rfl
  | false =>
    refine ⟨h.toBase.setCall hc rfl fun _ => Bool.false_ne_true, fun _ hspace => ?_⟩
    exact absurd (hroom.symm.trans hspace) Bool.false_ne_true

/-- A call goes to sleep if there is no room. -/
theorem Inv.await {job : α} {n : Notified} (h : Inv s)
    (hc : s.calls[c]? = some (.enabled job n)) (hfull : s.hasRoom = false ∧ s.closed = false) :
    Inv (s.setCall c (.awaiting job n)) := by
  refine ⟨h.toBase.setCall hc rfl fun hclosed => ?_, fun _ hroom => ?_⟩
  · exact absurd (hfull.2.symm.trans hclosed) Bool.false_ne_true
  · exact absurd (hfull.1.symm.trans hroom) Bool.false_ne_true

/-- A call gives up because the dispatcher is closed. -/
theorem Inv.giveBack {job : α} {n : Notified} (h : Inv s)
    (hc : s.calls[c]? = some (.enabled job n)) (hclosed : s.closed = true) :
    Inv (s.setCall c (.dropping (.closed job) n)) := by
  refine ⟨h.toBase.setCall hc rfl fun _ => Bool.false_ne_true, fun hopen => ?_⟩
  exact absurd (hopen.symm.trans hclosed) Bool.false_ne_true

/-- A call that has placed its job passes the room on, unless it is the only one that waits. -/
theorem Inv.pass {spaceLeft : Bool} {n : Notified} (h : Inv s)
    (hc : s.calls[c]? = some (.placed spaceLeft n)) :
    Inv (s.setCall c
      (if spaceLeft && decide (1 < s.pushWaiters) then .passing n else .dropping .pushed n)) := by
  split
  next => exact h.setCall hc rfl Bool.false_ne_true fun _ => rfl
  next hstop =>
      have hbase : Base (s.setCall c (.dropping .pushed n)) :=
        h.toBase.setCall hc rfl fun _ => Bool.false_ne_true
      cases spaceLeft with
      | false => exact h.setCall hc rfl Bool.false_ne_true id
      | true =>
        have hwaiters : s.pushWaiters ≤ 1 := by simpa using hstop
        refine ⟨hbase, ?_⟩
        rintro - - ⟨x, hx, hasleep⟩
        refine absurd hasleep (h.toBase.alone hc rfl hwaiters ?_ x hx)
        exact Bool.false_ne_true

/-- A call begins to listen. -/
theorem Inv.enable {job : α} {epoch : ℕ} (h : Inv s)
    (hc : s.calls[c]? = some (.created job epoch)) : Inv (s.enable c job epoch) := by
  fun_cases Dispatcher.enable s c job epoch with
  | case1 | case3 => exact h.setCall hc rfl Bool.false_ne_true fun _ => rfl
  | case2 =>
    have hnext : Inv (s.setCall c (.enabled job .complete)) :=
      h.setCall hc rfl Bool.false_ne_true fun _ => rfl
    exact ⟨⟨hnext.counted, hnext.shut⟩, hnext.woken⟩

/-- A call is counted or no longer counted. -/
theorem Inv.recount {waiters : ℕ} (h : Inv s) (hc : s.calls[c]? = some call)
    (hwaiters : waiters + call.counted = s.pushWaiters + next.counted)
    (hawake : ¬ next.asleep = true) (howes : ¬ call.owes = true) :
    Inv { s.setCall c next with pushWaiters := waiters } := by
  have hset := tally_set_eraseIdx (f := Call.counted) hc next
  have hbefore := tally_eraseIdx (f := Call.counted) hc
  have hcounted := h.counted
  refine ⟨⟨?_, fun hclosed hclosing x hx => ?_⟩, ?_⟩
  · change waiters = tally Call.counted (s.calls.set c next)
    omega
  · rcases mem_setCall hx with rfl | hx
    · exact hawake
    · exact h.shut hclosed hclosing x hx
  · exact h.woken.setCall hc hawake (absurd · howes)

/-- Whatever a call does keeps the invariant. -/
theorem Inv.advance (h : Inv s) (hc : s.calls[c]? = some call)
    (hadvance : s.advance c choice call = some s') : Inv s' := by
  cases call <;> simp only [Dispatcher.advance, reduceCtorEq] at hadvance
  case starting job =>
      obtain ⟨h', hcalls⟩ := h.tried (tried_tryPushInner s job choice)
      rw [← hcalls] at hc
      split at hadvance
      next => cases hadvance
      next =>
          split at hadvance <;> obtain rfl := Option.some.inj hadvance <;>
            exact h'.setCall hc rfl Bool.false_ne_true (absurd · Bool.false_ne_true)
  case counting job =>
      exact Option.some.inj hadvance ▸
        h.recount hc rfl Bool.false_ne_true Bool.false_ne_true
  case looping job =>
      exact Option.some.inj hadvance ▸ h.setCall hc rfl Bool.false_ne_true fun _ => rfl
  case created job epoch => exact Option.some.inj hadvance ▸ h.enable hc
  case enabled job n =>
      have htried := tried_tryPushInner s job choice
      obtain ⟨h', hcalls⟩ := h.tried htried
      rw [← hcalls] at hc
      split at hadvance
      next => cases hadvance
      next =>
          split at hadvance
          next spaceLeft heq =>
              exact Option.some.inj hadvance ▸ h'.place hc (htried.ok spaceLeft heq)
          next heq => exact Option.some.inj hadvance ▸ h'.await hc (htried.full heq)
          next heq => exact Option.some.inj hadvance ▸ h'.giveBack hc (htried.closed heq)
  case awaiting job n =>
      split at hadvance
      next => cases hadvance
      next => exact Option.some.inj hadvance ▸ h.setCall hc rfl Bool.false_ne_true fun _ => rfl
  case placed spaceLeft n => exact Option.some.inj hadvance ▸ h.pass hc
  case passing n =>
      have hbase : Base (s.setCall c (.dropping .pushed n)) :=
        h.toBase.setCall hc rfl fun _ => Bool.false_ne_true
      exact Option.some.inj hadvance ▸ hbase.inv_notifyOne choice _
  case dropping result n =>
      have hbase : Base (s.setCall c (.leaving result)) :=
        h.toBase.setCall hc rfl fun _ => Bool.false_ne_true
      split at hadvance
      next => exact Option.some.inj hadvance ▸ hbase.inv_notifyOne choice _
      next hn =>
          refine Option.some.inj hadvance ▸ h.setCall hc rfl Bool.false_ne_true fun howes => ?_
          exact absurd (of_decide_eq_true howes) hn
  case leaving result =>
      have hone : 1 ≤ s.pushWaiters := by
        have hsum := tally_eraseIdx (f := Call.counted) hc
        have hcounted := h.counted
        simp only [Call.counted] at hsum
        omega
      exact Option.some.inj hadvance ▸ h.recount hc (Nat.sub_add_cancel hone) Bool.false_ne_true
        Bool.false_ne_true

/-- Room that a thread makes is announced if anybody may sleep. -/
theorem Inv.recv (h : Inv s) (thread : ℕ) : Inv (s.recv thread) := by
  have hnotify : (∃ call ∈ s.calls, call.asleep = true) → decide (0 < s.pushWaiters) = true := by
    rintro ⟨call, hcall, hasleep⟩
    have hle : call.counted ≤ tally Call.counted s.calls :=
      List.le_sum_of_mem (List.mem_map_of_mem hcall)
    have hone := counted_of_asleep hasleep
    have hcounted := h.counted
    exact decide_eq_true (by omega)
  fun_cases Dispatcher.recv s thread with
  | case2 => exact h
  | case1 | case3 => exact ⟨⟨h.counted, h.shut⟩, fun _ _ hasleep => .inl (hnotify hasleep)⟩

/-- When all are woken, nobody is asleep. -/
theorem Inv.notifyWaiters (h : Inv s) :
    Inv { s with
      epoch := s.epoch + 1
      calls := s.calls.map fun call => if call.waits then call.wake .all else call
      closing := s.closing - 1 } := by
  have hawake : ∀ call ∈ s.calls.map fun call => if call.waits then call.wake .all else call,
      ¬ call.asleep = true := by
    intro call hcall
    obtain ⟨before, -, rfl⟩ := List.mem_map.mp hcall
    split
    next => exact not_asleep_wake (by decide) before
    next hwaits => exact fun hasleep => hwaits (waits_of_asleep hasleep)
  refine ⟨⟨?_, fun _ _ => hawake⟩, ?_⟩
  · refine h.counted.trans ?_
    change _ = tally Call.counted (s.calls.map _)
    rw [tally, tally, List.map_map]
    refine congrArg List.sum (List.map_congr_left fun call _ => ?_)
    rw [Function.comp_apply]
    split
    next => exact (counted_wake _ _).symm
    next => rfl
  · rintro - - ⟨x, hx, hasleep⟩
    exact absurd hasleep (hawake x hx)

/-- A call of `push` is added. -/
theorem Inv.push (h : Inv s) (job : α) : Inv { s with calls := s.calls ++ [.starting job] } := by
  have hmem : ∀ x ∈ s.calls ++ [.starting job], x.asleep = true → x ∈ s.calls := by
    intro x hx hasleep
    rcases List.mem_append.mp hx with hx | hx
    · exact hx
    · obtain rfl := List.mem_singleton.mp hx
      exact absurd hasleep Bool.false_ne_true
  have hcounted : tally Call.counted (s.calls ++ [.starting job]) = tally Call.counted s.calls :=
    tally_concat s.calls _
  refine ⟨⟨h.counted.trans hcounted.symm, fun hclosed hclosing x hx hasleep => ?_⟩, ?_⟩
  · exact h.shut hclosed hclosing x (hmem x hx hasleep) hasleep
  · rintro hclosed hroom ⟨x, hx, hasleep⟩
    refine (h.woken hclosed hroom ⟨x, hmem x hx hasleep, hasleep⟩).imp_right ?_
    rintro ⟨y, hy, howes⟩
    exact ⟨y, List.mem_append_left _ hy, howes⟩

/-- **Every step keeps the invariant.** -/
theorem Inv.step (h : Inv s) (hstep : Step s s') : Inv s' := by
  obtain ⟨e, hstep⟩ := hstep
  cases e <;> simp only [Dispatcher.step] at hstep
  case tryPush job thread =>
      split at hstep
      next => cases hstep
      next => exact Option.some.inj hstep ▸ (h.tried (tried_tryPushInner s job thread)).1
  case push job => exact Option.some.inj hstep ▸ h.push job
  case recv thread =>
      split at hstep
      next => cases hstep
      next => exact Option.some.inj hstep ▸ h.recv thread
  case close =>
      split at hstep
      next => cases hstep
      next =>
          obtain rfl := Option.some.inj hstep
          exact ⟨⟨h.counted, fun _ hclosing => absurd hclosing (Nat.succ_ne_zero _)⟩,
            fun hopen => absurd hopen.symm Bool.false_ne_true⟩
  case advance c choice =>
      obtain ⟨call, hc, hadvance⟩ := Option.bind_eq_some_iff.mp hstep
      exact h.advance hc hadvance
  case notify waiter =>
      split at hstep
      next => exact Option.some.inj hstep ▸ h.toBase.inv_notifyOne waiter false
      next => cases hstep
  case notifyWaiters =>
      split at hstep
      next => cases hstep
      next => exact Option.some.inj hstep ▸ h.notifyWaiters
  case cancel c =>
      obtain ⟨call, hc, hcancel⟩ := Option.bind_eq_some_iff.mp hstep
      split at hcancel
      next job n => exact Option.some.inj hcancel ▸ h.setCall hc rfl Bool.false_ne_true id
      next => cases hcancel

/-! ## Nobody is stranded -/

/-- Only a call that sleeps or is done cannot go on. -/
theorem done_of_advance_eq_none (hfree : s.notifying = false)
    (hadvance : s.advance c choice call = none) :
    call.asleep = true ∨ ∃ result, call = .done result := by
  cases call <;> simp only [Dispatcher.advance, reduceCtorEq] at hadvance
  case starting | enabled =>
      rw [if_neg (by simp [hfree])] at hadvance
      split at hadvance <;> cases hadvance
  case awaiting job n =>
      split at hadvance
      next hn => exact .inl (decide_eq_true hn)
      next => cases hadvance
  case dropping result n => split at hadvance <;> cases hadvance
  case done result => exact .inr ⟨result, rfl⟩

/-- If nothing can go on, no thread is about to notify. -/
theorem Quiet.notifying (h : s.Quiet) : s.notifying = false := by
  refine Bool.eq_false_of_not_eq_true fun hnotifying => ?_
  have hnone := h (.notify 0) rfl
  rw [Dispatcher.step, if_pos hnotifying] at hnone
  cases hnone

/-- If nothing can go on, nobody is closing. -/
theorem Quiet.closing (h : s.Quiet) : s.closing = 0 := by
  by_contra hclosing
  have hnone := h .notifyWaiters rfl
  rw [Dispatcher.step, if_neg hclosing] at hnone
  cases hnone

/-- If nothing can go on, every call is asleep or done. -/
theorem Quiet.sleeps_or_done (h : s.Quiet) (hcall : call ∈ s.calls) :
    call.asleep = true ∨ ∃ result, call = .done result := by
  obtain ⟨c, hc⟩ := List.mem_iff_getElem?.mp hcall
  have hnone := h (.advance c 0) rfl
  rw [Dispatcher.step, hc, Option.bind_some] at hnone
  exact done_of_advance_eq_none h.notifying hnone

/-- **No call of `push` is left waiting** when nothing can go on, if there is room or the dispatcher
is closed. -/
theorem none_stranded {capacity : ℕ} {s : Dispatcher α} (path : Path Step (new capacity) s)
    (hquiet : s.Quiet) (hroom : s.hasRoom = true ∨ s.closed = true) :
    ∀ call ∈ s.calls, ∃ result, call = .done result := by
  have h : Inv s := Path.preserves (fun _ _ h hstep => h.step hstep) path (.new capacity)
  have howes : ¬ ∃ call ∈ s.calls, call.owes = true := by
    rintro ⟨call, hcall, howes⟩
    rcases hquiet.sleeps_or_done hcall with hasleep | ⟨result, rfl⟩
    · cases call <;> simp_all [Call.asleep, Call.owes]
    · exact absurd howes Bool.false_ne_true
  intro call hcall
  refine (hquiet.sleeps_or_done hcall).resolve_left fun hasleep => ?_
  cases hclosed : s.closed with
  | true =>
    exact h.shut hclosed hquiet.closing call hcall hasleep
  | false =>
    have hroom := hroom.resolve_right fun hshut => Bool.false_ne_true (hclosed.symm.trans hshut)
    rcases h.woken hclosed hroom ⟨call, hcall, hasleep⟩ with hnotifying | hdebt
    · exact absurd (hquiet.notifying.symm.trans hnotifying) Bool.false_ne_true
    · exact howes hdebt

/-- A queue of one job is full when `push` comes, which sleeps until a thread takes the job. -/
theorem none_stranded_sample :
    ∃ s : Dispatcher ℕ, Path Step (new 1) s ∧ s.Quiet ∧ s.hasRoom = true ∧ s.calls ≠ [] ∧
      ∀ call ∈ s.calls, ∃ result, call = .done result := by
  let s : Dispatcher ℕ :=
    { capacity := 1, idle := [], queue := [], closed := false, pushWaiters := 0, permit := false
      epoch := 0, calls := [.done .pushed], notifying := false, closing := 0 }
  have hrun : ([Event.tryPush 0 0, .push 1] ++ List.replicate 5 (Event.advance 0 0) ++
      [Event.recv 0, .notify 0] ++ List.replicate 7 (Event.advance 0 0) ++ [Event.recv 1]).foldlM
      Dispatcher.step (new 1) = some s := by decide
  have path : Path Step (new 1) s := Path.of_foldlM hrun
  have hquiet : s.Quiet := by
    intro e he
    cases e with
    | advance c choice => rcases c with - | c <;> rfl
    | notify waiter => rfl
    | notifyWaiters => rfl
    | tryPush | push | recv | close | cancel => exact absurd he Bool.false_ne_true
  exact ⟨s, path, hquiet, rfl, by decide, none_stranded path hquiet (.inl rfl)⟩

end Dispatcher

end Ephpm.Php.Barge
