import Mathlib.Data.List.Rotate
import Mathlib.Data.Nat.ModEq
import Mathlib.Tactic.Ring
import Ephpm.Lib.BucketMap

/-!
# Walking a bucket table with a cursor

A background task that examines a large table a few entries at a time keeps a
*cursor* — a shard and a bucket — between its calls.  One call starts at the
cursor, steps over empty buckets, stops after a given number of full ones and
leaves the cursor just past the last.

This file is about the order of that walk and nothing else.  The **positions**
of a table are its buckets in lexicographic order; a **sweep** from a cursor is
the whole ring of positions, read off pass by pass as a program does it: the
first shard from the cursor to its end, every other shard whole, the first shard
again up to the cursor.  `sweep_eq_rotate` says that this is the list of
positions rotated, and `sweep_following` that the sweep of the cursor left behind
by a walk is the old sweep rotated by what the walk consumed.

The consequence used by clients is `CleanBehind.after_walk`: if a task makes clean
what it visits, then the part of the ring that is not yet known to be clean
shrinks with every call.  Only the lengths of the tables enter, so the argument
survives every in-place change of their contents.
-/

namespace Lib

universe u

/-! ## Positions and sweeps -/

/-- Buckets of shard `shard`. -/
def bucketsOf (lens : List ℕ) (shard : ℕ) : ℕ := lens.getD shard 0

/-- The positions in one shard. -/
def shardPositions (lens : List ℕ) (shard : ℕ) : List (ℕ × ℕ) :=
  (List.range (bucketsOf lens shard)).map (Prod.mk shard)

/-- All positions, shard by shard. -/
def positions (lens : List ℕ) : List (ℕ × ℕ) :=
  (List.range lens.length).flatMap (shardPositions lens)

/-- Number of positions before shard `shard`. -/
def shardOffset (lens : List ℕ) (shard : ℕ) : ℕ := (lens.take shard).sum

/-- A remembered bucket, wrapped into a shard whose table may have been resized
since. -/
def startBucket (lens : List ℕ) (shard bucket : ℕ) : ℕ :=
  bucket % max 1 (bucketsOf lens shard)

/-- The positions met from `(shard, bucket)` once around the table. -/
def sweep (lens : List ℕ) (shard bucket : ℕ) : List (ℕ × ℕ) :=
  let first := shard % lens.length
  let start := startBucket lens first bucket
  (shardPositions lens first).drop start ++
    (List.range (lens.length - 1)).flatMap
      (fun pass => shardPositions lens ((first + (pass + 1)) % lens.length)) ++
    (shardPositions lens first).take start

/-- The position a walk continues from when it has stopped at `pos`. -/
def following (lens : List ℕ) (pos : ℕ × ℕ) : ℕ × ℕ :=
  if pos.2 + 1 < bucketsOf lens pos.1 then (pos.1, pos.2 + 1)
  else ((pos.1 + 1) % lens.length, 0)

theorem length_shardPositions (lens : List ℕ) (shard : ℕ) :
    (shardPositions lens shard).length = bucketsOf lens shard := by
  simp [shardPositions]

private theorem length_flatMap_take (lens : List ℕ) :
    ∀ shard, shard ≤ lens.length →
      ((List.range shard).flatMap (shardPositions lens)).length = shardOffset lens shard
  | 0, _ => by simp [shardOffset]
  | shard + 1, hle => by
      have ih := length_flatMap_take lens shard (by omega)
      have hlt : shard < lens.length := by omega
      rw [List.range_succ, List.flatMap_append, List.length_append, ih, shardOffset,
        shardOffset, List.sum_take_succ _ _ hlt]
      simp [length_shardPositions, bucketsOf, hlt]

theorem length_positions (lens : List ℕ) : (positions lens).length = lens.sum := by
  rw [positions, length_flatMap_take lens _ le_rfl, shardOffset, List.take_length]

theorem mem_positions {lens : List ℕ} {pos : ℕ × ℕ} :
    pos ∈ positions lens ↔ pos.1 < lens.length ∧ pos.2 < bucketsOf lens pos.1 := by
  constructor
  · intro h
    obtain ⟨shard, hshard, hpos⟩ := List.mem_flatMap.mp h
    obtain ⟨bucket, hbucket, rfl⟩ := List.mem_map.mp hpos
    exact ⟨List.mem_range.mp hshard, List.mem_range.mp hbucket⟩
  · rintro ⟨hshard, hbucket⟩
    exact List.mem_flatMap.mpr ⟨pos.1, List.mem_range.mpr hshard,
      List.mem_map.mpr ⟨pos.2, List.mem_range.mpr hbucket, rfl⟩⟩

theorem positions_nodup (lens : List ℕ) : (positions lens).Nodup := by
  rw [positions, List.nodup_flatMap]
  refine ⟨fun shard _ => List.nodup_range.map (Prod.mk_right_injective shard), ?_⟩
  refine List.nodup_range.imp fun {i j} hne => ?_
  intro pos hi hj
  obtain ⟨_, _, rfl⟩ := List.mem_map.mp hi
  obtain ⟨_, _, h⟩ := List.mem_map.mp hj
  exact hne (congrArg Prod.fst h).symm

/-- A position stands at its offset in the list of positions. -/
theorem getElem?_positions {lens : List ℕ} {pos : ℕ × ℕ} (hshard : pos.1 < lens.length)
    (hbucket : pos.2 < bucketsOf lens pos.1) :
    (positions lens)[shardOffset lens pos.1 + pos.2]? = some pos := by
  have hsplit : List.range lens.length =
      List.range pos.1 ++ pos.1 :: (List.range (lens.length - (pos.1 + 1))).map
        (pos.1 + 1 + ·) := by
    rw [← List.singleton_append, ← List.append_assoc, ← List.range_succ,
      ← List.range_add]
    congr 1
    omega
  have hlen := length_flatMap_take lens pos.1 hshard.le
  rw [positions, hsplit, List.flatMap_append, List.flatMap_cons,
    List.getElem?_append_right (by omega), hlen, Nat.add_sub_cancel_left,
    List.getElem?_append_left (by rwa [length_shardPositions])]
  simp [shardPositions, hbucket]

private theorem flatMap_rotate {α β : Type u} (l : List α) (f : α → List β) {k : ℕ}
    (hk : k ≤ l.length) :
    (l.rotate k).flatMap f = (l.flatMap f).rotate ((l.take k).flatMap f).length := by
  rw [List.rotate_eq_drop_append_take hk, List.flatMap_append]
  conv_rhs => rw [← List.take_append_drop k l, List.flatMap_append, List.take_append_drop]
  rw [List.rotate_append_length_eq]

theorem startBucket_le (lens : List ℕ) (shard bucket : ℕ) :
    startBucket lens shard bucket ≤ bucketsOf lens shard := by
  have hlt : startBucket lens shard bucket < max 1 (bucketsOf lens shard) :=
    Nat.mod_lt _ (by omega)
  omega

theorem startBucket_of_lt {lens : List ℕ} {shard bucket : ℕ}
    (hbucket : bucket < bucketsOf lens shard) : startBucket lens shard bucket = bucket :=
  Nat.mod_eq_of_lt (by omega)

private theorem range_rotate {n first : ℕ} (hlt : first < n) :
    (List.range n).rotate first =
      first :: (List.range (n - 1)).map fun pass => (first + (pass + 1)) % n := by
  obtain ⟨m, rfl⟩ : ∃ m, n = m + 1 := ⟨n - 1, by omega⟩
  refine List.ext_getElem (by simp) fun i hi _ => ?_
  rw [List.length_rotate, List.length_range] at hi
  rw [List.getElem_rotate]
  cases i with
  | zero => simp [Nat.mod_eq_of_lt hlt]
  | succ i =>
    simp only [List.getElem_range, List.length_range, List.getElem_cons_succ,
      List.getElem_map, Nat.add_sub_cancel]
    congr 1
    omega

/-- **A sweep is the list of positions rotated** to where the cursor points. -/
theorem sweep_eq_rotate {lens : List ℕ} (hpos : 0 < lens.length) (shard bucket : ℕ) :
    sweep lens shard bucket =
      (positions lens).rotate (shardOffset lens (shard % lens.length) +
        startBucket lens (shard % lens.length) bucket) := by
  have hlt : shard % lens.length < lens.length := Nat.mod_lt _ hpos
  have hstart := startBucket_le lens (shard % lens.length) bucket
  rw [← length_shardPositions] at hstart
  have hring := flatMap_rotate (List.range lens.length) (shardPositions lens)
    (k := shard % lens.length) (by simpa using hlt.le)
  rw [List.take_range, Nat.min_eq_left hlt.le, length_flatMap_take lens _ hlt.le,
    range_rotate hlt, List.flatMap_cons, List.flatMap_map] at hring
  rw [← List.rotate_rotate, positions, ← hring, List.rotate_eq_drop_append_take
      (by rw [List.length_append]; omega),
    List.drop_append_of_le_length hstart, List.take_append_of_le_length hstart]
  rfl

/-- The offset of the position after `pos` is one further around the ring. -/
private theorem offset_following {lens : List ℕ} {pos : ℕ × ℕ} (hshard : pos.1 < lens.length)
    (hbucket : pos.2 < bucketsOf lens pos.1) :
    shardOffset lens ((following lens pos).1 % lens.length) +
        startBucket lens ((following lens pos).1 % lens.length) (following lens pos).2 ≡
      shardOffset lens pos.1 + pos.2 + 1 [MOD (positions lens).length] := by
  unfold following
  split
  next hnext =>
    rw [Nat.mod_eq_of_lt hshard, startBucket_of_lt hnext]
    exact Nat.ModEq.refl _
  next hlast =>
    have hnext : shardOffset lens (pos.1 + 1) = shardOffset lens pos.1 + pos.2 + 1 := by
      have hlen : bucketsOf lens pos.1 = lens[pos.1] := by simp [bucketsOf, hshard]
      rw [shardOffset, List.sum_take_succ _ _ hshard, ← hlen, ← shardOffset]
      omega
    rw [Nat.mod_mod, ← hnext]
    have hzero : startBucket lens ((pos.1 + 1) % lens.length) 0 = 0 := Nat.zero_mod _
    rw [hzero, Nat.add_zero]
    rcases Nat.lt_or_ge (pos.1 + 1) lens.length with hin | hwrap
    · rw [Nat.mod_eq_of_lt hin]
    · -- past the last shard the ring starts over
      have heq : pos.1 + 1 = lens.length := by omega
      rw [heq, Nat.mod_self, length_positions, shardOffset, shardOffset, List.take_length]
      exact (Nat.modEq_zero_iff_dvd.mpr dvd_rfl).symm

/-- **A walk that stops at `pos` leaves a cursor whose sweep is the old one,
rotated past `pos`.** -/
theorem sweep_following {lens : List ℕ} (hpos : 0 < lens.length) {shard bucket : ℕ}
    {before after : List (ℕ × ℕ)} {pos : ℕ × ℕ}
    (hsweep : sweep lens shard bucket = before ++ pos :: after) :
    sweep lens (following lens pos).1 (following lens pos).2 =
      after ++ (before ++ [pos]) := by
  set offset := shardOffset lens (shard % lens.length) +
    startBucket lens (shard % lens.length) bucket with hoffset
  have hrotate : (positions lens).rotate offset = before ++ pos :: after := by
    rw [← hsweep, sweep_eq_rotate hpos]
  have hmem : pos ∈ positions lens := by
    rw [← List.mem_rotate (n := offset), hrotate]
    simp
  obtain ⟨hshard, hbucket⟩ := mem_positions.mp hmem
  have hlen : (before ++ pos :: after).length = (positions lens).length := by
    rw [← hrotate, List.length_rotate]
  have hpositive : 0 < (positions lens).length := List.length_pos_of_mem hmem
  -- `pos` stands at one place only, so its offset is known from either side.
  have hplace : shardOffset lens pos.1 + pos.2 ≡ offset + before.length
      [MOD (positions lens).length] := by
    obtain ⟨hidx, hfound⟩ :=
      List.getElem?_eq_some_iff.mp (getElem?_positions hshard hbucket)
    have hbefore : before.length < (positions lens).length := by
      rw [← hlen]
      simp
    have hthere : (positions lens)[(before.length + offset) % (positions lens).length]? =
        some pos := by
      rw [← List.getElem?_rotate hbefore, hrotate]
      simp
    obtain ⟨_, hother⟩ := List.getElem?_eq_some_iff.mp hthere
    have heq := ((positions_nodup lens).getElem_inj_iff).mp (hfound.trans hother.symm)
    rw [heq, Nat.add_comm before.length]
    exact Nat.mod_modEq _ _
  have hnext : shardOffset lens ((following lens pos).1 % lens.length) +
      startBucket lens ((following lens pos).1 % lens.length) (following lens pos).2 ≡
        offset + (before.length + 1) [MOD (positions lens).length] :=
    (offset_following hshard hbucket).trans (hplace.add_right 1)
  rw [sweep_eq_rotate hpos, ← List.rotate_mod, hnext, List.rotate_mod, ← List.rotate_rotate,
    hrotate]
  have hsplit : before ++ pos :: after = (before ++ [pos]) ++ after := by simp
  rw [hsplit]
  have hwalked : before.length + 1 = (before ++ [pos]).length := by simp
  rw [hwalked, List.rotate_append_length_eq]

theorem mem_sweep {lens : List ℕ} (hpos : 0 < lens.length) {shard bucket : ℕ}
    {pos : ℕ × ℕ} : pos ∈ sweep lens shard bucket ↔ pos ∈ positions lens := by
  rw [sweep_eq_rotate hpos, List.mem_rotate]

theorem length_sweep {lens : List ℕ} (hpos : 0 < lens.length) (shard bucket : ℕ) :
    (sweep lens shard bucket).length = lens.sum := by
  rw [sweep_eq_rotate hpos, List.length_rotate, length_positions]

/-! ## Walks -/

section Walk

variable {α : Type u}

/-- Visit the full slots among `positions` in order until `want` of them were
met.  Returns what was met, and the position of the last when the walk stopped
early. -/
def walk (slot : ℕ × ℕ → Option α) : List (ℕ × ℕ) → ℕ → List α × Option (ℕ × ℕ)
  | [], _ => ([], none)
  | pos :: rest, want =>
    match slot pos with
    | none => walk slot rest want
    | some found =>
      if want ≤ 1 then ([found], some pos)
      else
        let further := walk slot rest (want - 1)
        (found :: further.1, further.2)

/-- A walk past a place that holds something finds something. -/
theorem walk_ne_nil {slot : ℕ × ℕ → Option α} {places : List (ℕ × ℕ)} {pos : ℕ × ℕ} {found : α}
    (mem : pos ∈ places) (hslot : slot pos = some found) (want : ℕ) :
    (walk slot places want).1 ≠ [] := by
  induction places with
  | nil => cases mem
  | cons head rest ih =>
    rw [walk]
    cases hhead : slot head with
    | none =>
      rcases List.mem_cons.mp mem with rfl | hrest
      · rw [hhead] at hslot
        cases hslot
      · exact ih hrest
    | some first =>
      simp only
      split
      · exact List.cons_ne_nil _ _
      · exact List.cons_ne_nil _ _

/-- A walk that does not stop has met everything. -/
theorem walk_none {slot : ℕ × ℕ → Option α} {places : List (ℕ × ℕ)} {want : ℕ}
    (h : (walk slot places want).2 = none) :
    (walk slot places want).1 = places.filterMap slot := by
  induction places generalizing want with
  | nil => rfl
  | cons pos rest ih =>
    rw [walk] at h ⊢
    cases hslot : slot pos with
    | none =>
      simp only [hslot] at h ⊢
      rw [ih h, List.filterMap_cons_none hslot]
    | some found =>
      simp only [hslot] at h ⊢
      split at h
      · cases h
      · rw [if_neg (by assumption), ih h, List.filterMap_cons_some hslot]

/-- A walk that stops has met what stands up to the place where it stopped. -/
theorem walk_some {slot : ℕ × ℕ → Option α} {places : List (ℕ × ℕ)} {want : ℕ}
    {pos : ℕ × ℕ} (h : (walk slot places want).2 = some pos) :
    ∃ before after, places = before ++ pos :: after ∧
      (walk slot places want).1 = (before ++ [pos]).filterMap slot := by
  induction places generalizing want with
  | nil => cases h
  | cons head rest ih =>
    rw [walk] at h ⊢
    cases hslot : slot head with
    | none =>
      simp only [hslot] at h ⊢
      obtain ⟨before, after, rfl, hvisited⟩ := ih h
      refine ⟨head :: before, after, rfl, ?_⟩
      rw [hvisited, List.cons_append, List.filterMap_cons_none hslot]
    | some found =>
      simp only [hslot] at h ⊢
      split at h
      · obtain rfl := Option.some.inj h
        refine ⟨[], rest, rfl, ?_⟩
        rw [if_pos (by assumption)]
        simp [hslot]
      · obtain ⟨before, after, rfl, hvisited⟩ := ih h
        refine ⟨head :: before, after, rfl, ?_⟩
        rw [if_neg (by assumption), hvisited, List.cons_append,
          List.filterMap_cons_some hslot]

theorem mem_of_mem_walk {slot : ℕ × ℕ → Option α} {places : List (ℕ × ℕ)} {want : ℕ}
    {found : α} (h : found ∈ (walk slot places want).1) :
    ∃ pos ∈ places, slot pos = some found := by
  cases hstop : (walk slot places want).2 with
  | none =>
    rw [walk_none hstop] at h
    exact List.mem_filterMap.mp h
  | some stop =>
    obtain ⟨before, after, rfl, hvisited⟩ := walk_some hstop
    rw [hvisited] at h
    obtain ⟨pos, hpos, hslot⟩ := List.mem_filterMap.mp h
    refine ⟨pos, ?_, hslot⟩
    rcases List.mem_append.mp hpos with hbefore | hlast
    · exact List.mem_append_left _ hbefore
    · rw [List.mem_singleton.mp hlast]
      simp

theorem walk_filter {slot : ℕ × ℕ → Option α} {keep : ℕ × ℕ → Bool}
    (hkeep : ∀ pos, keep pos = false → slot pos = none) (places : List (ℕ × ℕ)) (want : ℕ) :
    walk slot (places.filter keep) want = walk slot places want := by
  induction places generalizing want with
  | nil => rfl
  | cons pos rest ih =>
    by_cases h : keep pos = true
    · rw [List.filter_cons_of_pos h]
      simp only [walk, ih]
    · rw [List.filter_cons_of_neg h, ih, walk, hkeep pos (by simpa using h)]

theorem filterMap_filter_isSome {β : Type*} (f : β → Option α) (l : List β) :
    (l.filter fun b => (f b).isSome).filterMap f = l.filterMap f := by
  rw [List.filterMap_filter]
  refine List.filterMap_congr fun b _ => ?_
  cases f b with
  | none => rfl
  | some a => rfl

theorem take_filterMap {β : Type*} {f : β → Option α} {l : List β}
    (h : ∀ b ∈ l, (f b).isSome) (n : ℕ) : (l.filterMap f).take n = (l.take n).filterMap f := by
  induction l generalizing n with
  | nil => rw [List.filterMap_nil, List.take_nil, List.take_nil, List.filterMap_nil]
  | cons b l ih =>
    obtain ⟨a, ha⟩ := Option.isSome_iff_exists.mp (h b List.mem_cons_self)
    cases n with
    | zero => rfl
    | succ n =>
      rw [List.filterMap_cons_some ha, List.take_succ_cons, List.take_succ_cons,
        List.filterMap_cons_some ha, ih fun c hc => h c (List.mem_cons_of_mem _ hc)]

/-- **A walk meets the first full slots**, as many as are wanted, and stops at the last of them. -/
theorem walk_visited {slot : ℕ × ℕ → Option α} {places : List (ℕ × ℕ)} {want : ℕ}
    (hwant : 0 < want) : (walk slot places want).1 = (places.filterMap slot).take want ∧
      (walk slot places want).2 = (places.filter fun pos => (slot pos).isSome)[want - 1]? := by
  induction places generalizing want with
  | nil => exact ⟨List.take_nil.symm, rfl⟩
  | cons pos rest ih =>
    rw [walk]
    cases h : slot pos with
    | none =>
      rw [List.filterMap_cons_none h, List.filter_cons_of_neg (by simp [h])]
      exact ih hwant
    | some found =>
      rw [List.filterMap_cons_some h, List.filter_cons_of_pos (by simp [h])]
      obtain ⟨n, rfl⟩ : ∃ n, want = n + 1 := ⟨want - 1, by omega⟩
      cases n with
      | zero => exact ⟨rfl, rfl⟩
      | succ n =>
        obtain ⟨hvisited, hstop⟩ := @ih (n + 1) (Nat.succ_pos n)
        simp only [if_neg (show ¬n + 1 + 1 ≤ 1 by omega), Nat.add_sub_cancel] at hstop ⊢
        rw [hvisited, hstop]
        exact ⟨rfl, rfl⟩

end Walk

/-! ## Sweeping clean -/

/-- All but the first `n` positions ahead of the cursor are `clean`. -/
def CleanBehind (clean : ℕ × ℕ → Prop) (lens : List ℕ) (cursor : ℕ × ℕ) (n : ℕ) : Prop :=
  ∀ pos ∈ (sweep lens cursor.1 cursor.2).drop n, clean pos

/-- **One call of a sweeping task makes progress**: if it makes clean what it
walks over and unmakes nothing, the part of the ring still to be examined is
shorter by at least one position. -/
theorem CleanBehind.after_walk {clean clean' : ℕ × ℕ → Prop} {lens : List ℕ}
    (hpos : 0 < lens.length) {cursor stop : ℕ × ℕ} {before after : List (ℕ × ℕ)} {n : ℕ}
    (h : CleanBehind clean lens cursor (n + 1))
    (hsweep : sweep lens cursor.1 cursor.2 = before ++ stop :: after)
    (hkept : ∀ pos, clean pos → clean' pos)
    (hwalked : ∀ pos ∈ before ++ [stop], clean' pos) :
    CleanBehind clean' lens (following lens stop) n := by
  intro pos mem
  rw [sweep_following hpos hsweep, List.drop_append] at mem
  rcases List.mem_append.mp mem with hold | hnew
  · refine hkept pos (h pos ?_)
    rw [hsweep]
    have hsplit : before ++ stop :: after = (before ++ [stop]) ++ after := by simp
    rw [hsplit, List.drop_append]
    refine List.mem_append_right _ (List.drop_subset_drop_left after ?_ hold)
    simp only [List.length_append, List.length_singleton]
    omega
  · exact hwalked pos (List.mem_of_mem_drop hnew)

end Lib
