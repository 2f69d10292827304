import Mathlib.Data.Prod.Lex
import Ephpm.Kv.Entry

/-!
# Write stamps and the clock that issues them

Every replicated write carries a `Stamp`: a write number, which packs the wall
clock's millisecond with a sequence number below it, and the tag of the node that
issued it.  Stamps are ordered lexicographically, and the last writer in that order
wins on every node.

**One call, one step.**  `StampClock::next_after` reads the wall clock, and then
retries a compare-and-exchange on the last write number until nobody has moved it in
between.  The exchange that succeeds decides alone, so concurrent callers behave as
some sequence of calls, each with the wall clock it read; `StampClock.issued` is such
a sequence.  Wall clocks are arguments: nothing says that they grow.

**Machine words.**  Write numbers are `u64`.  Shifting a millisecond into place drops
what does not fit (`pack`), the two increments saturate (`saturatingAdd`).
-/

namespace Ephpm.Cluster

open Kv (u64Max)

/-! ## Stamps -/

/-- `SEQ_BITS`: the bits of a write number below the millisecond. -/
def seqBits : ℕ := 20

/-- `MAX_OBSERVED_DRIFT_MS`: how far ahead of this node's wall clock a stamp it has
seen may pull its own clock. -/
def maxObservedDriftMs : ℕ := 5000

/-- A write's position in the cluster-wide order. -/
@[ext] structure Stamp where
  write : ℕ
  nodeTag : ℕ
deriving DecidableEq, Repr

namespace Stamp

/-- The pair that orders a stamp. -/
def key (s : Stamp) : ℕ ×ₗ ℕ := toLex (s.write, s.nodeTag)

/-- `epoch_ms`: the millisecond in a write number. -/
def epochMs (s : Stamp) : ℕ := s.write >>> seqBits

/-- The derived order of the source: by write number, then by tag. -/
instance : LinearOrder Stamp := LinearOrder.lift' Stamp.key fun a b h => by
  have h' : (a.write, a.nodeTag) = (b.write, b.nodeTag) := h
  exact Stamp.ext (congrArg Prod.fst h') (congrArg Prod.snd h')

theorem lt_iff (a b : Stamp) :
    a < b ↔ a.write < b.write ∨ (a.write = b.write ∧ a.nodeTag < b.nodeTag) :=
  Prod.Lex.toLex_lt_toLex

/-- A greater write number decides, whatever the tags are. -/
theorem lt_of_write_lt {a b : Stamp} (h : a.write < b.write) : a < b :=
  (lt_iff a b).2 (Or.inl h)

end Stamp

/-- `node_tag`: FNV-1a over the bytes of a node id. -/
def nodeTag (nodeId : String) : ℕ :=
  nodeId.toUTF8.toList.foldl
    (fun h b => (h ^^^ b.toNat) * 0x100000001b3 % 2 ^ 64) 0xcbf29ce484222325

/-! ## Words -/

/-- `u64::saturating_add`. -/
def saturatingAdd (a b : ℕ) : ℕ := min (a + b) u64Max

/-- `ms << SEQ_BITS` on a `u64`: the bits shifted out are lost. -/
def pack (ms : ℕ) : ℕ := ms * 2 ^ seqBits % 2 ^ 64

/-- `clamp_observed`: a write number, capped at the packed drift bound. -/
def clampObserved (write nowMs : ℕ) : ℕ :=
  let ceiling := pack (saturatingAdd nowMs maxObservedDriftMs)
  if write ≤ ceiling then write else ceiling

theorem saturatingAdd_le (a b : ℕ) : saturatingAdd a b ≤ u64Max := min_le_right _ _

theorem pack_le (ms : ℕ) : pack ms ≤ u64Max := by
  have hlt : pack ms < 2 ^ 64 := Nat.mod_lt _ (Nat.two_pow_pos 64)
  simp only [u64Max]
  omega

/-- Milliseconds below `2 ^ 44` are packed without loss. -/
theorem pack_eq {ms : ℕ} (h : ms < 2 ^ 44) : pack ms = ms * 2 ^ 20 := by
  have : ms * 2 ^ seqBits < 2 ^ 64 := by
    unfold seqBits
    omega
  exact Nat.mod_eq_of_lt this

theorem clampObserved_eq_min (write nowMs : ℕ) :
    clampObserved write nowMs = min write (pack (saturatingAdd nowMs maxObservedDriftMs)) := rfl

/-! ## The clock -/

/-- A node's stamp clock: the last write number issued, and the node's tag. -/
structure StampClock where
  last : ℕ
  nodeTag : ℕ

/-- What a call of `next_after` works with: the wall clock it reads, and the stamp to
beat.  `next` is the call with nothing to beat. -/
structure Call where
  now : ℕ
  seen : Option Stamp

namespace StampClock

/-- A clock for the node `nodeId`. -/
def new (nodeId : String) : StampClock := ⟨0, Cluster.nodeTag nodeId⟩

/-- `next_after`: issue the next stamp, above `seen` when given. -/
def nextAfter (now : ℕ) (seen : Option Stamp) (c : StampClock) : Stamp × StampClock :=
  let base := pack now
  let floor := seen.elim 0 fun s => saturatingAdd (clampObserved s.write now) 1
  let next := max (max base (saturatingAdd c.last 1)) floor
  (⟨next, c.nodeTag⟩, { c with last := next })

/-- The stamps a sequence of calls issues. -/
def issued : List Call → StampClock → List Stamp
  | [], _ => []
  | call :: rest, c =>
    let first := c.nextAfter call.now call.seen
    first.1 :: issued rest first.2

/-- The clock a sequence of calls leaves behind. -/
def after : List Call → StampClock → StampClock
  | [], c => c
  | call :: rest, c => after rest (c.nextAfter call.now call.seen).2

@[simp] theorem issued_cons (call : Call) (rest : List Call) (c : StampClock) :
    c.issued (call :: rest) =
      (c.nextAfter call.now call.seen).1 ::
        (c.nextAfter call.now call.seen).2.issued rest := rfl

@[simp] theorem after_cons (call : Call) (rest : List Call) (c : StampClock) :
    c.after (call :: rest) = (c.nextAfter call.now call.seen).2.after rest := by
  -- without its definition in the way, the clock is not computed here
  delta after after._f
  generalize nextAfter = step
  rfl

/-- The write number issued is the one the clock remembers. -/
@[simp] theorem nextAfter_last (now : ℕ) (seen : Option Stamp) (c : StampClock) :
    (c.nextAfter now seen).2.last = (c.nextAfter now seen).1.write := by
  rw [nextAfter]

/-! ## One call -/

section Call

variable {now : ℕ} {seen : Option Stamp} {c : StampClock}

/-- Nothing issued leaves the `u64` range. -/
theorem nextAfter_le_max (now : ℕ) (seen : Option Stamp) (c : StampClock) :
    (c.nextAfter now seen).1.write ≤ u64Max := by
  have hfloor : seen.elim 0 (fun s => saturatingAdd (clampObserved s.write now) 1) ≤ u64Max := by
    cases seen with
    | none => exact Nat.zero_le _
    | some s => exact saturatingAdd_le _ _
  exact max_le (max_le (pack_le now) (saturatingAdd_le _ _)) hfloor

theorem saturatingAdd_le_nextAfter (now : ℕ) (seen : Option Stamp) (c : StampClock) :
    saturatingAdd c.last 1 ≤ (c.nextAfter now seen).1.write :=
  (le_max_right _ _).trans (le_max_left _ _)

/-- A call moves the clock forward, unless it stands at the largest `u64`. -/
theorem lt_nextAfter (h : c.last < u64Max) : c.last < (c.nextAfter now seen).1.write := by
  have hsucc : saturatingAdd c.last 1 = c.last + 1 := min_eq_left (Nat.succ_le_of_lt h)
  have hle := saturatingAdd_le_nextAfter now seen c
  omega

/-- A call never moves the clock backward. -/
theorem le_nextAfter (h : c.last ≤ u64Max) : c.last ≤ (c.nextAfter now seen).1.write := by
  refine le_trans ?_ (saturatingAdd_le_nextAfter now seen c)
  exact le_min (Nat.le_succ _) h

/-- The drift bound a wall clock below `2 ^ 44 - 5000` allows, unpacked. -/
theorem ceiling_eq (hnow : now < 2 ^ 44 - 5000) :
    pack (saturatingAdd now maxObservedDriftMs) = (now + 5000) * 2 ^ 20 := by
  have hsum : saturatingAdd now maxObservedDriftMs = now + 5000 := by
    refine min_eq_left ?_
    simp only [maxObservedDriftMs, u64Max]
    omega
  rw [hsum]
  exact pack_eq (by omega)

/-- A stamp within the drift bound is beaten. -/
theorem seen_lt_nextAfter {s : Stamp} (hnow : now < 2 ^ 44 - 5000)
    (hs : s.write ≤ (now + 5000) * 2 ^ 20) : s < (c.nextAfter now (some s)).1 := by
  apply Stamp.lt_of_write_lt
  have hclamp : clampObserved s.write now = s.write := by
    rw [clampObserved_eq_min, ceiling_eq hnow]
    exact min_eq_left hs
  have hfloor : saturatingAdd (clampObserved s.write now) 1 = s.write + 1 := by
    rw [hclamp]
    refine min_eq_left ?_
    simp only [u64Max]
    omega
  have hle : saturatingAdd (clampObserved s.write now) 1 ≤ (c.nextAfter now (some s)).1.write :=
    le_max_right _ _
  omega

/-- Whatever was seen, the clock ends at most one above the drift bound or one above
where it stood. -/
theorem nextAfter_le (hnow : now < 2 ^ 44 - 5000) :
    (c.nextAfter now seen).1.write ≤ max (c.last + 1) ((now + 5000) * 2 ^ 20 + 1) := by
  have hbase : pack now = now * 2 ^ 20 := pack_eq (by omega)
  have hprev : saturatingAdd c.last 1 ≤ c.last + 1 := min_le_left _ _
  have hfloor : seen.elim 0 (fun s => saturatingAdd (clampObserved s.write now) 1) ≤
      (now + 5000) * 2 ^ 20 + 1 := by
    cases seen with
    | none => exact Nat.zero_le _
    | some s =>
      refine (min_le_left _ _).trans (Nat.succ_le_succ ?_)
      rw [clampObserved_eq_min, ceiling_eq hnow]
      exact min_le_right _ _
  refine max_le (max_le ?_ (hprev.trans (le_max_left _ _))) (hfloor.trans (le_max_right _ _))
  exact le_max_of_le_right (by omega)

end Call

/-! ## Sequences of calls -/

/-- The calls read wall clocks below `2 ^ 44 - 5000` ms. -/
def Timely (calls : List Call) : Prop := ∀ call ∈ calls, call.now < 2 ^ 44 - 5000

instance (calls : List Call) : Decidable (Timely calls) :=
  inferInstanceAs (Decidable (∀ call ∈ calls, call.now < 2 ^ 44 - 5000))

/-- No stamp issued later falls below where the clock stands. -/
theorem le_of_mem_issued {calls : List Call} {c : StampClock} {s : Stamp}
    (hc : c.last ≤ u64Max) (hs : s ∈ c.issued calls) : c.last ≤ s.write := by
  induction calls generalizing c with
  | nil => exact absurd hs List.not_mem_nil
  | cons call rest ih =>
    have hstep : c.last ≤ (c.nextAfter call.now call.seen).1.write := le_nextAfter hc
    rw [issued_cons, List.mem_cons] at hs
    rcases hs with rfl | hs
    · exact hstep
    · exact hstep.trans (ih (nextAfter_le_max _ _ _) hs)

/-- While the clock is below the largest `u64`, every stamp issued later is above it. -/
theorem lt_of_mem_issued {calls : List Call} {c : StampClock} {s : Stamp}
    (hc : c.last < u64Max) (hs : s ∈ c.issued calls) : c.last < s.write := by
  cases calls with
  | nil => exact absurd hs List.not_mem_nil
  | cons call rest =>
    have hstep : c.last < (c.nextAfter call.now call.seen).1.write := lt_nextAfter hc
    rw [issued_cons, List.mem_cons] at hs
    rcases hs with rfl | hs
    · exact hstep
    · exact hstep.trans_le (le_of_mem_issued (nextAfter_le_max _ _ _) hs)

/-- Write numbers grow along a sequence of calls until the largest `u64` is reached. -/
theorem issued_pairwise (calls : List Call) (c : StampClock) :
    (c.issued calls).Pairwise fun a b => a.write ≠ u64Max → a.write < b.write := by
  induction calls generalizing c with
  | nil => exact List.Pairwise.nil
  | cons call rest ih =>
    rw [issued_cons, List.pairwise_cons]
    refine ⟨fun s hs hne => ?_, ih _⟩
    exact lt_of_mem_issued (lt_of_le_of_ne (nextAfter_le_max _ _ _) hne) hs

/-- A call lifts the clock by one, or to at most one above `2 ^ 64 - 2 ^ 20`, the drift
bound of the latest wall clock. -/
theorem nextAfter_le_succ {call : Call} {c : StampClock} {bound : ℕ}
    (hnow : call.now < 2 ^ 44 - 5000) (hc : c.last ≤ bound) (hbound : 2 ^ 64 - 2 ^ 20 ≤ bound) :
    (c.nextAfter call.now call.seen).1.write ≤ bound + 1 := by
  refine (nextAfter_le hnow).trans (max_le (Nat.succ_le_succ hc) ?_)
  omega

/-- From `2 ^ 64 - 2 ^ 20` on only one call after the other brings the clock further, so
a sequence that fits below the largest `u64` is strictly increasing. -/
theorem issued_increasing {calls : List Call} {c : StampClock} {bound : ℕ}
    (timely : Timely calls) (hc : c.last ≤ bound) (hbound : 2 ^ 64 - 2 ^ 20 ≤ bound)
    (hfits : bound + calls.length ≤ u64Max) :
    (c.issued calls).Pairwise (·.write < ·.write) := by
  induction calls generalizing c bound with
  | nil => exact List.Pairwise.nil
  | cons call rest ih =>
    have hnow : call.now < 2 ^ 44 - 5000 := timely call List.mem_cons_self
    have hstep := nextAfter_le_succ hnow hc hbound
    rw [List.length_cons] at hfits
    rw [issued_cons, List.pairwise_cons]
    constructor
    · intro s hs
      -- a later stamp needs a later call, which leaves room above this one
      have hrest : 0 < rest.length := by
        cases rest with
        | nil => exact absurd hs List.not_mem_nil
        | cons _ _ => exact Nat.succ_pos _
      have hlt : (c.nextAfter call.now call.seen).2.last < u64Max := by
        rw [nextAfter_last]
        omega
      exact lt_of_mem_issued hlt hs
    · exact ih (fun call' h => timely call' (List.mem_cons_of_mem _ h)) hstep
        (by omega) (by omega)

/-- **The stamp clock.**  Take any sequence of calls to a new clock, with wall clocks
below `2 ^ 44 - 5000` ms that may go backward, and any stamps seen.

* Write numbers grow strictly, unless the earlier one is the largest `u64`; a sequence
  of fewer than `2 ^ 20` calls cannot exhaust the range, so its write numbers are
  strictly increasing.
* A call beats the stamp it has seen whenever that stamp is within the drift bound.
* A call brings the clock at most one above where it stood or one above the drift bound. -/
theorem stamps_ordered (nodeId : String) (calls : List Call) (timely : Timely calls) :
    ((new nodeId).issued calls).Pairwise (fun a b => a.write ≠ u64Max → a.write < b.write) ∧
    (calls.length < 2 ^ 20 → ((new nodeId).issued calls).Pairwise (·.write < ·.write)) ∧
    ∀ first call rest, calls = first ++ call :: rest →
      let clock := (new nodeId).after first
      let stamp := (clock.nextAfter call.now call.seen).1
      (∀ seen ∈ call.seen, seen.write ≤ (call.now + 5000) * 2 ^ 20 → seen < stamp) ∧
      stamp.write ≤ max (clock.last + 1) ((call.now + 5000) * 2 ^ 20 + 1) := by
  refine ⟨issued_pairwise calls _, fun hlen => ?_, ?_⟩
  · refine issued_increasing timely (Nat.zero_le _) le_rfl ?_
    simp only [u64Max]
    omega
  · intro first call rest hcalls clock stamp
    have hnow : call.now < 2 ^ 44 - 5000 := timely call (by simp [hcalls])
    refine ⟨fun seen hseen hle => ?_, nextAfter_le hnow⟩
    have hcall : call.seen = some seen := hseen
    show seen < (clock.nextAfter call.now call.seen).1
    rw [hcall]
    exact seen_lt_nextAfter hnow hle

/-- The wall clock jumps back an hour, and a peer's stamp from the far future is seen. -/
theorem stamps_ordered_backward :
    let calls : List Call :=
      [⟨3600001, none⟩, ⟨1, some ⟨2 ^ 63, 7⟩⟩, ⟨6000000, some ⟨6000000 * 2 ^ 20 + 9, 7⟩⟩]
    Timely calls ∧ ((new "node-a").issued calls).Pairwise (·.write < ·.write) ∧
      ⟨6000000 * 2 ^ 20 + 9, 7⟩ <
        (((new "node-a").after (calls.take 2)).nextAfter 6000000
          (some ⟨6000000 * 2 ^ 20 + 9, 7⟩)).1 := by
  intro calls
  have timely : Timely calls := by decide
  obtain ⟨_, hincreasing, hcall⟩ := stamps_ordered "node-a" calls timely
  refine ⟨timely, hincreasing (by decide), ?_⟩
  exact (hcall (calls.take 2) _ [] rfl).1 _ rfl (by decide)

/-! ## Where the clock stops -/

theorem issued_append (first second : List Call) (c : StampClock) :
    c.issued (first ++ second) = c.issued first ++ (c.after first).issued second := by
  induction first generalizing c with
  | nil => rfl
  | cons call rest ih => rw [List.cons_append, issued_cons, issued_cons, after_cons, ih,
      List.cons_append]

/-- A call with nothing to beat and no help from the wall clock counts up by one. -/
theorem nextAfter_zero_none (c : StampClock) :
    (c.nextAfter 0 none).1.write = min (c.last + 1) u64Max := by
  show max (max (pack 0) (saturatingAdd c.last 1)) 0 = _
  rw [Nat.max_zero, show pack 0 = 0 from rfl, Nat.zero_max]
  rfl

/-- Such calls count up to the largest `u64`, and stay there. -/
theorem after_replicate (n : ℕ) {c : StampClock} (hc : c.last ≤ u64Max) :
    (c.after (List.replicate n ⟨0, none⟩)).last = min (c.last + n) u64Max := by
  induction n generalizing c with
  | zero => exact (min_eq_left hc).symm
  | succ n ih =>
    rw [List.replicate_succ, after_cons, ih (nextAfter_le_max _ _ _), nextAfter_last,
      nextAfter_zero_none]
    omega

/-- A clock at the largest `u64` repeats itself. -/
theorem not_increasing_of_eq_max {c : StampClock} (hc : c.last = u64Max) :
    ¬ (c.issued [⟨0, none⟩, ⟨0, none⟩]).Pairwise (·.write < ·.write) := by
  intro hincreasing
  have hfirst : (c.nextAfter 0 none).1.write = u64Max := by
    rw [nextAfter_zero_none, hc]
    rfl
  rw [issued_cons, List.pairwise_cons] at hincreasing
  have hlt := hincreasing.1 _ List.mem_cons_self
  exact absurd (hfirst ▸ hlt) (Nat.not_lt.2 (nextAfter_le_max _ _ _))

/-- A call, and then `n` calls and two more that only count up. -/
def exhausting (call : Call) (n : ℕ) : List Call :=
  call :: (List.replicate n ⟨0, none⟩ ++ [⟨0, none⟩, ⟨0, none⟩])

theorem timely_exhausting {call : Call} (n : ℕ) (hnow : call.now < 2 ^ 44 - 5000) :
    Timely (exhausting call n) := by
  intro call' hcall
  rw [exhausting, List.mem_cons, List.mem_append] at hcall
  rcases hcall with rfl | hcall | hcall
  · exact hnow
  · rw [List.eq_of_mem_replicate hcall]
    decide
  · rw [List.eq_of_mem_replicate (n := 2) hcall]
    decide

/-- Calls that only count up exhaust the `u64`, and then repeat themselves. -/
theorem not_increasing_exhausting {call : Call} {n : ℕ} {c : StampClock}
    (hlast : u64Max ≤ (c.nextAfter call.now call.seen).1.write + n) :
    ¬ (c.issued (exhausting call n)).Pairwise (·.write < ·.write) := by
  intro hincreasing
  rw [exhausting, issued_cons, List.pairwise_cons, issued_append,
    List.pairwise_append] at hincreasing
  refine not_increasing_of_eq_max ?_ hincreasing.2.2.1
  rw [after_replicate _ (nextAfter_le_max _ _ _)]
  exact min_eq_right hlast

/-- A wall clock at the end of its range and a stamp from beyond it bring the clock to
the drift bound; `2 ^ 20` further calls exhaust the `u64`, and then it repeats itself. -/
theorem issued_repeats :
    let calls := exhausting ⟨2 ^ 44 - 5001, some ⟨2 ^ 64 - 1, 0⟩⟩ (2 ^ 20)
    Timely calls ∧ ¬ ((new "node-a").issued calls).Pairwise (·.write < ·.write) := by
  refine ⟨timely_exhausting _ (by decide), not_increasing_exhausting ?_⟩
  have hceiling : pack (saturatingAdd (2 ^ 44 - 5001) maxObservedDriftMs) = 2 ^ 64 - 2 ^ 20 :=
    ceiling_eq (by decide)
  have hfloor : saturatingAdd (clampObserved (2 ^ 64 - 1) (2 ^ 44 - 5001)) 1 ≤
      ((new "node-a").nextAfter (2 ^ 44 - 5001) (some ⟨2 ^ 64 - 1, 0⟩)).1.write :=
    le_max_right _ _
  have hclamp : saturatingAdd (clampObserved (2 ^ 64 - 1) (2 ^ 44 - 5001)) 1 =
      2 ^ 64 - 2 ^ 20 + 1 := by
    rw [clampObserved_eq_min, hceiling]
    decide
  rw [hclamp] at hfloor
  simp only [u64Max]
  omega

end StampClock

end Ephpm.Cluster
