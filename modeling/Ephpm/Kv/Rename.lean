import Ephpm.Kv.Pressure
import Ephpm.Kv.Frame

/-!
# The law of `RENAME`

`RENAME a b` is put together from four commands: the value of `a` is read, then what `PTTL` says
of `a`, then `b` is set, and then the whole key `a` is removed.  It is meant to move the string,
with its expiry, or to change nothing.  Three of the seams show:

* if `a` and `b` are the same name, the last command removes what the third has set;
* `PTTL` answers in whole milliseconds, and an answer of zero is taken for "no expiry": in its
  last millisecond a string becomes **persistent**, and before that it loses a fraction;
* a refused `SET` may have evicted keys before it gave up, `a` and `b` among them.

`rename_law_iff` says that there are no others.
-/

namespace Ephpm.Kv

open Lib

namespace Store

/-- What a reader at `now` sees of a key: the string and the hash of that name. -/
def keyView [Platform] (now : Instant) (key : String) (s : Store) :
    Option (Option Bytes × Option Instant) × Option (Assoc String HashField × Option Instant) :=
  (s.stringView now key, s.hashView now key)

section Victims

variable [P : Platform] {s : Store} {now : Instant}

/-- The string and the hash of a name. -/
def namesOf (key : String) : List Name := [(key, false), (key, true)]

/-- A refusal shows a reader every key as before, but for those at whose cost it is. -/
theorem keyView_refused (inv : Inv s) {needed : ℕ} (hrefused : s.Refuses now needed)
    (key : String) :
    (s.ensureMemory now needed).2.keyView now key = s.keyView now key ↔
      ∀ name ∈ namesOf key, s.Seen now name → ¬ s.Drains now needed name := by
  obtain ⟨hstring, hhash⟩ := views_ensureMemory inv now needed key
  have hcost (name : Name) : (s.Seen now name → ¬ s.Reaches now needed name) ↔
      (s.Seen now name → ¬ s.Drains now needed name) :=
    forall_congr' fun hseen => not_congr (refused_reaches_iff inv hrefused hseen)
  have hkept {α : Type} (view : Option α) (reached : Prop) [Decidable reached] :
      (if reached then none else view) = view ↔ (view.isSome = true → ¬ reached) := by
    cases view <;> simp
  simp only [namesOf, List.forall_mem_cons, List.not_mem_nil, false_implies, implies_true, and_true,
    keyView, Prod.mk.injEq, hstring, hhash, hkept]
  exact and_congr (hcost (key, false)) (hcost (key, true))

end Victims

/-! ## The expiry that is carried over -/

/-- A whole number of milliseconds that fits an `i64`. -/
def WholeMillis (remaining : ℕ) : Prop :=
  1000000 ∣ remaining ∧ remaining ≤ (2 ^ 63 - 1) * 1000000

theorem millis_toNat (d : ℕ) : (millis d).toNat = min (d / 1000000) (2 ^ 63 - 1) := by
  rw [millis]
  omega

theorem millis_pos_iff (d : ℕ) : 0 < millis d ↔ 1000000 ≤ d := by
  rw [millis]
  omega

theorem renameTtl_millis (d : ℕ) :
    renameTtl (some (millis d))
      = if 1000000 ≤ d then some ((millis d).toNat * 1000000) else none := by
  rw [renameTtl, Option.bind_some]
  exact if_congr (millis_pos_iff d) rfl rfl

theorem wholeMillis_iff {d ms : ℕ} (h : ms = min (d / 1000000) (2 ^ 63 - 1)) :
    ms * 1000000 = d ↔ WholeMillis d := by
  rw [WholeMillis]
  constructor
  · intro heq
    constructor <;> omega
  · rintro ⟨hdvd, hle⟩
    omega

/-- The deadline that the new name gets is the one of the old name exactly if what remains is a
whole number of milliseconds. -/
theorem renameTtl_eq_iff {now deadline : ℕ} (hlive : now < deadline) :
    (renameTtl (some (millis (deadline - now)))).map (now + ·) = some deadline ↔
      WholeMillis (deadline - now) := by
  obtain ⟨d, rfl⟩ := Nat.exists_eq_add_of_le hlive.le
  have hpos : 0 < d := Nat.lt_add_right_iff_pos.mp hlive
  rw [Nat.add_sub_cancel_left, renameTtl_millis, ← wholeMillis_iff (millis_toNat d)]
  generalize (millis d).toNat = ms
  split
  next =>
      rw [Option.map_some, Option.some.injEq]
      exact Nat.add_left_cancel_iff
  next hshort =>
      refine iff_of_false (by simp) ?_
      omega

theorem renameTtl_not_expired (now : ℕ) (left : Option ℤ) :
    ((renameTtl left).map (now + ·)).any (· ≤ now) = false := by
  unfold renameTtl
  cases left with
  | none => rfl
  | some ms =>
    rw [Option.bind_some]
    split
    next hpos =>
        have hnat : 0 < ms.toNat * 1000000 := by omega
        rw [Option.map_some, Option.any_some, decide_eq_false_iff_not]
        generalize ms.toNat * 1000000 = ttl at hnat ⊢
        exact Nat.not_le.mpr (Nat.lt_add_of_pos_right hnat)
    next => rfl

/-! ## The law -/

section Law

variable [P : Platform]

/-- **The law**: an answer of `OK` means that the string is under the new name, with its expiry,
and nothing under the old one, or that the key is as it was if both are the same; a refusal means
that both keys are as they were. -/
def RenameLaw (now : Instant) (a b : String) (s : Store) : Prop :=
  let result := s.rename now a b
  (result.1 = .ok → a = b → result.2.keyView now a = s.keyView now a) ∧
    (result.1 = .ok → a ≠ b →
      result.2.stringView now b = s.stringView now a ∧
        result.2.data.get a = none ∧ result.2.hashes.get a = none) ∧
    (result.1 = .outOfMemory →
      result.2.keyView now a = s.keyView now a ∧ result.2.keyView now b = s.keyView now b) ∧
    result.1 ≠ .noSuchKey

/-- **When it holds**: the names differ and what remains of the lifetime is whole milliseconds, if
there is room for the copy; and if there is none, the refusal is not at the cost of what a reader
sees of either name. -/
def RenamesCleanly (now : Instant) (a b : String) (value : Bytes) (expiresAt : Option Instant)
    (s : Store) : Prop :=
  let read := s.touched now a
  let needed := read.copyGrowth now b value expiresAt
  (¬ read.Refuses now needed → a ≠ b ∧ ∀ deadline ∈ expiresAt, WholeMillis (deadline - now)) ∧
    (read.Refuses now needed → ∀ name ∈ namesOf a ++ namesOf b,
      read.Seen now name → ¬ read.Drains now needed name)

variable {s : Store} {now : Instant} {a : String} {e : Entry} {w : Bytes} (inv : Inv s)
  (hget : s.data.get a = some e) (hlive : e.isExpired now = false)

omit P inv hget in
include hlive in
/-- The expiry of the copy is that of the string if what remains is whole milliseconds. -/
theorem carried_iff :
    carried now e.expiresAt = e.expiresAt ↔
      ∀ deadline ∈ e.expiresAt, WholeMillis (deadline - now) := by
  cases hexp : e.expiresAt with
  | none => exact iff_of_true rfl (fun _ mem => (by cases mem))
  | some deadline =>
    have hbefore : now < deadline := by simpa [Entry.isExpired, hexp] using hlive
    rw [carried, Option.elim_some, renameTtl_eq_iff hbefore]
    simp

include inv hget hlive in
/-- **When `RENAME` is what it says.**  On a live string it obeys its law exactly if it renames
cleanly. -/
theorem rename_law_iff (lossless : P.Lossless) (b : String)
    (hvalue : e.plain s.config.compression.algo = some w) :
    s.RenameLaw now a b ↔ s.RenamesCleanly now a b w e.expiresAt := by
  have hrename := rename_eq inv hget hlive b hvalue
  have invRead : Inv (s.touched now a) := inv.touched hget
  have hseen (name : String) : (s.touched now a).keyView now name = s.keyView now name :=
    Prod.ext (touched_unseen hget name).1 (touched_unseen hget name).2
  set read := s.touched now a
  set deadline' := carried now e.expiresAt
  set copy := read.written now b w deadline'
  set needed := read.copyGrowth now b w e.expiresAt with hneeded
  have hrefuses := ensureMemory_refused_iff invRead now needed
  have hclean : s.RenamesCleanly now a b w e.expiresAt ↔
      (¬ read.Refuses now needed → a ≠ b ∧ deadline' = e.expiresAt) ∧
        (read.Refuses now needed → ∀ name ∈ namesOf a ++ namesOf b,
          read.Seen now name → ¬ read.Drains now needed name) := by
    rw [RenamesCleanly, ← carried_iff hlive]
  simp only [← hneeded] at hrename
  rw [RenameLaw, hrename, hclean, ← hrefuses]
  cases hgranted : (read.ensureMemory now needed).1 with
  | false =>
    have hkept (name : String) := keyView_refused invRead (hrefuses.mp hgranted) name
    simp only [hseen] at hkept
    simp [hkept, or_imp, forall_and]
  | true =>
    set room := (read.ensureMemory now needed).2
    have hspared : Spared now read room := ensureMemory_spared invRead needed
    have hsized : ∀ e', some copy = some e' → e'.Sized b := fun e' he' => by
      obtain rfl := Option.some.inj he'
      exact Entry.new_sized _ _ _ _ _
    have invAfter : Inv (room.writeString b (some copy)) :=
      (invRead.ensureMemory now needed).writeString b hsized
    have hcopy : (room.writeString b (some copy)).stringView now b
        = some (some w, deadline') := by
      have hplain : copy.plain read.config.compression.algo = some w :=
        encodeValue_plain lossless read.config w rfl rfl
      have hfresh : copy.isExpired now = false := renameTtl_not_expired now _
      rw [stringView_writeString, if_pos rfl, Option.filter_some, hfresh, hspared.config]
      change some (copy.plain read.config.compression.algo, deadline') = _
      rw [hplain]
    have hbefore : s.stringView now a = some (some w, e.expiresAt) := by
      rw [stringView_of_live hget hlive, hvalue]
    have hstring : a ≠ b →
        ((room.writeString b (some copy)).removeLocal now a).2.stringView now b
          = some (some w, deadline') := fun hname => by
      rw [stringView_removeLocal invAfter, if_neg (Ne.symm hname), hcopy]
    have hgone :
        ((room.writeString b (some copy)).removeLocal now a).2.stringView now a = none := by
      rw [stringView_removeLocal invAfter, if_pos rfl]
    have habsent : ((room.writeString b (some copy)).removeLocal now a).2.data.get a = none := by
      rw [removeLocal_data_get invAfter, if_pos rfl]
    simp only [if_true, true_implies]
    rw [hbefore]
    constructor
    · rintro ⟨hsame, hdiffers, -⟩
      have hname : a ≠ b := by
        intro hname
        have hkept := congrArg Prod.fst (hsame hname)
        rw [keyView, hgone, keyView, hbefore] at hkept
        cases hkept
      have hview := (hdiffers hname).1
      rw [hstring hname, Option.some.injEq, Prod.mk.injEq] at hview
      exact ⟨fun _ => ⟨hname, hview.2⟩, fun h => (by cases h)⟩
    · rintro ⟨hnames, -⟩
      obtain ⟨hname, hcarried⟩ := hnames nofun
      refine ⟨fun hsame => absurd hsame hname, fun _ => ⟨?_, habsent, ?_⟩, fun h => (by cases h),
        fun h => (by cases h)⟩
      · rw [hstring hname, hcarried]
      · exact (removeLocal_gone invAfter now a).1

end Law

/-- A string with two seconds to live is renamed cleanly. -/
theorem rename_law_iff_sample :
    letI := Platform.small
    let s := (new ⟨0, .allKeysLru, CompressionConfig.default⟩).runState
      [(0, .set "a" [1] (some 2000000000))]
    s.RenameLaw 0 "a" "b" ∧
      (s.rename 0 "a" "b").2.stringView 0 "b" = some (some [1], some 2000000000) := by
  let _ := Platform.small
  set s := (new ⟨0, .allKeysLru, CompressionConfig.default⟩).runState
    [(0, .set "a" [1] (some 2000000000))] with hs
  have inv : Inv s := (new_isNew _).inv.runState _
  have hget : s.data.get "a" = some ⟨[1], false, some 2000000000, 0, 138⟩ := by decide
  have hfits : ∀ needed, (s.touched 0 "a").fits needed = true := fun needed => by
    have hlimit : (s.touched 0 "a").config.memoryLimit = 0 := by decide
    simp [fits, hlimit]
  have hwhole : WholeMillis 2000000000 := ⟨by decide, by decide⟩
  have hclean : s.RenamesCleanly 0 "a" "b" [1] (some 2000000000) := by
    refine ⟨fun _ => ⟨by decide, fun deadline mem => ?_⟩, fun hrefused => ?_⟩
    · obtain rfl := Option.some.inj mem
      exact hwhole
    · have hfull := hrefused.1
      rw [hfits] at hfull
      cases hfull
  exact ⟨(rename_law_iff inv hget (by decide) Platform.small_lossless "b" rfl).mpr hclean,
    by decide⟩

/-- **A key that is renamed to itself is lost.** -/
theorem rename_to_itself :
    letI := Platform.small
    ¬ ∀ (s : Store) (e : Entry) (w : Bytes) (now : Instant) (a b : String), Inv s →
        s.data.get a = some e → e.isExpired now = false →
          e.plain s.config.compression.algo = some w → s.RenameLaw now a b := by
  let _ := Platform.small
  intro hclaim
  set s := (new ⟨0, .allKeysLru, CompressionConfig.default⟩).runState
    [(0, .set "k" [1] none)] with hs
  have hlaw := hclaim s ⟨[1], false, none, 0, 138⟩ [1] 0 "k" "k"
    ((new_isNew _).inv.runState _) (by decide) rfl rfl
  have hok : (s.rename 0 "k" "k").1 = .ok := by decide
  have hstring := congrArg Prod.fst (hlaw.1 hok rfl)
  exact absurd hstring (by decide)

end Store

end Ephpm.Kv
