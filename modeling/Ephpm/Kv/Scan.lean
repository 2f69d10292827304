import Mathlib.Data.List.Chain
import Ephpm.Kv.Operations

/-!
# What a full `SCAN` returns

`SCAN` walks the shards of the string map and then those of the hash map, a few at
a time, and hands the client the number of the next shard as its cursor.  Between
two calls the store may change in any way.

**Why nothing is missed.**  A key never leaves its shard: the shard is a function of
the key, and no operation changes that function or the number of shards
(`SameShards`).  So a key that is there throughout is there when its shard is
walked.  **Why nothing comes twice.**  The shards walked by the calls of one scan
are consecutive ranges, so each is walked once, in one call.

A name may be a string and a hash at once and is then returned once for each.  The
statement therefore speaks of *finds*, a key together with the type it was found as:
the keys of the pages are those of a list of finds without repetition
(`scan_guarantee`).
-/

namespace Ephpm.Kv

open Lib

/-! ## Shards -/

section Shards

variable {V : Type}

/-- Two maps that lay their keys out over the same shards. -/
def SameLayout (map map' : BucketMap String V) : Prop :=
  map'.shardOf = map.shardOf ∧ map'.shards.length = map.shards.length

theorem sameLayout_set (map : BucketMap String V) (key : String) (value : Option V) :
    SameLayout map (map.set key value) := by
  cases value with
  | none => exact ⟨rfl, List.length_map ..⟩
  | some new =>
    rw [BucketMap.set_some, BucketMap.insert]
    split
    · exact ⟨rfl, List.length_map ..⟩
    · exact ⟨rfl, List.length_set ..⟩

theorem sameLayout_filter (map : BucketMap String V) (p : String → V → Bool) :
    SameLayout map (map.filter p) := ⟨rfl, List.length_map ..⟩

theorem sameLayout_shrinkWhere (map : BucketMap String V) (sparse : ℕ → ℕ → Bool) :
    SameLayout map (map.shrinkWhere sparse) := ⟨rfl, List.length_mapIdx ..⟩

/-- The keys a shard copy returns are the live keys of that shard. -/
theorem mem_copyShard {map : BucketMap String V} {index : ℕ} {isLive : V → Bool}
    {key : String} :
    key ∈ (Store.copyShard map index isLive).2 ↔
      map.shardOf key = index ∧ (map.get key).any isLive = true := by
  unfold Store.copyShard
  constructor
  · intro mem
    cases hshard : map.shards[index]? with
    | none =>
      rw [hshard] at mem
      cases mem
    | some table =>
      rw [hshard] at mem
      obtain ⟨entry, hentry, rfl⟩ := List.mem_map.mp mem
      obtain ⟨hin, hlive⟩ := List.mem_filter.mp hentry
      have hget : map.get entry.1 = some entry.2 :=
        BucketMap.get_eq_some_iff.mpr (BucketMap.mem_entries_of_shard hshard hin)
      exact ⟨map.home index table hshard entry hin, by rw [hget]; exact hlive⟩
  · rintro ⟨rfl, hlive⟩
    obtain ⟨value, hget, hvalue⟩ := (Option.any_eq_true ..).mp hlive
    rw [BucketMap.get_eq_some_iff, BucketMap.entries_eq_flatMap, List.mem_flatMap] at hget
    obtain ⟨table, htable, hentry⟩ := hget
    obtain ⟨index, hshard⟩ := List.mem_iff_getElem?.mp htable
    obtain rfl : map.shardOf key = index := map.home index table hshard (key, value) hentry
    rw [hshard]
    exact List.mem_map.mpr ⟨(key, value), List.mem_filter.mpr ⟨hentry, hvalue⟩, rfl⟩

theorem copyShard_nodup (map : BucketMap String V) (index : ℕ) (isLive : V → Bool) :
    (Store.copyShard map index isLive).2.Nodup := by
  unfold Store.copyShard
  cases hshard : map.shards[index]? with
  | none => exact List.nodup_nil
  | some table =>
    have hkeys : (table.entries.map Prod.fst).Nodup :=
      map.table_nodup (List.mem_of_getElem? hshard)
    exact hkeys.sublist (List.filter_sublist.map Prod.fst)

theorem flatMap_copyShard (map : BucketMap String V) (isLive : V → Bool) :
    (List.range map.shards.length).flatMap (fun index => (Store.copyShard map index isLive).2) =
      collectKeys map isLive := by
  have hshards : (List.range map.shards.length).flatMap (fun index =>
      (Store.copyShard map index isLive).2) = map.shards.flatMap fun table =>
        (table.entries.filter fun entry => isLive entry.2).map Prod.fst := by
    rw [List.flatMap_def, List.flatMap_def]
    refine congrArg List.flatten (List.ext_getElem (by simp) fun index _ hindex => ?_)
    rw [List.length_map] at hindex
    simp [Store.copyShard, List.getElem?_eq_getElem hindex]
  rw [hshards, collectKeys, BucketMap.entries_eq_flatMap, List.filter_flatMap, List.map_flatMap]

end Shards

namespace Store

/-- The keys of `s'` are laid out over the shards as those of `s` are. -/
def SameShards (s s' : Store) : Prop :=
  SameLayout s.data s'.data ∧ SameLayout s.hashes s'.hashes

theorem SameShards.refl (s : Store) : SameShards s s := ⟨⟨rfl, rfl⟩, rfl, rfl⟩

theorem SameShards.trans {s s' s'' : Store} (h : SameShards s s') (h' : SameShards s' s'') :
    SameShards s s'' :=
  ⟨⟨h'.1.1.trans h.1.1, h'.1.2.trans h.1.2⟩, h'.2.1.trans h.2.1, h'.2.2.trans h.2.2⟩

section Layout

variable [P : Platform] {s s' : Store}

/-- No change moves a key to another shard. -/
theorem Move.sameShards (move : Move s s') : SameShards s s' := by
  cases move with
  | write _ =>
    rw [writeString, notifyWrite_eq]
    exact ⟨sameLayout_set .., rfl, rfl⟩
  | retime _ _ _ _ => exact ⟨sameLayout_set .., rfl, rfl⟩
  | hash _ _ _ => exact ⟨⟨rfl, rfl⟩, sameLayout_set ..⟩
  | notify key =>
    rw [notifyWrite_eq]
    exact SameShards.refl s
  | watch hget =>
    rw [Store.watchSlot, hget]
    exact SameShards.refl s
  | flush => exact ⟨sameLayout_filter .., sameLayout_filter ..⟩
  | shrink => exact ⟨sameLayout_shrinkWhere .., sameLayout_shrinkWhere ..⟩
  | record _ => exact SameShards.refl s
  | resample _ _ _ _ _ => exact SameShards.refl s

theorem runState_sameShards (inv : Inv s) (ops : List (Instant × Op)) :
    SameShards s (s.runState ops) :=
  Path.relates (fun _ _ inv move => Move.inv move inv) SameShards.refl
    (fun _ _ _ h h' => h.trans h') (fun _ _ _ move => Move.sameShards move)
    (runState_moves inv ops) inv

end Layout

/-! ## One call -/

section Call

variable (now : Instant) (kind : Option KeyKind) (s : Store)

/-- Whether `key` is live as a value of type `k`. -/
def liveAs (now : Instant) (k : KeyKind) (key : String) (s : Store) : Bool :=
  match k with
  | .string => (s.data.get key).any (!·.isExpired now)
  | .hash => (s.hashes.get key).any (·.isLive now)
  | .other => false

/-- Shards a scan walks. -/
def shardCount (s : Store) : ℕ := s.data.shards.length + s.hashes.shards.length

/-- The shard in which a scan finds `key` as a value of type `k`. -/
def placeOf (s : Store) (found : KeyKind × String) : ℕ :=
  match found.1 with
  | .string => s.data.shardOf found.2
  | .hash => s.data.shards.length + s.hashes.shardOf found.2
  | .other => 0

/-- What the shard at `position` adds to a scan, with the type it was found as. -/
def shardFinds (position : ℕ) : List (KeyKind × String) :=
  (s.scanShard now kind position).2.map
    (Prod.mk (if position < s.data.shards.length then .string else .hash))

variable {now kind s}

/-- **A shard yields the live keys of the requested type that belong to it.** -/
theorem mem_shardFinds {position : ℕ} {found : KeyKind × String} :
    found ∈ s.shardFinds now kind position ↔
      kind.all (· = found.1) = true ∧ s.liveAs now found.1 found.2 = true ∧
        s.placeOf found = position := by
  obtain ⟨k, key⟩ := found
  have hstring := s.data.shardOf_lt key
  have hmem : (k, key) ∈ s.shardFinds now kind position ↔
      k = (if position < s.data.shards.length then .string else .hash) ∧
        key ∈ (s.scanShard now kind position).2 := by
    rw [shardFinds, List.mem_map]
    constructor
    · rintro ⟨name, hname, heq⟩
      obtain ⟨rfl, rfl⟩ := Prod.mk.inj heq
      exact ⟨rfl, hname⟩
    · rintro ⟨rfl, hname⟩
      exact ⟨key, hname, rfl⟩
  rw [hmem, scanShard]
  by_cases hpos : position < s.data.shards.length
  · simp only [if_pos hpos]
    cases k with
    | string =>
      by_cases hkind : kind.all (· = .string) = true
      · simp only [hkind, if_true, mem_copyShard, true_and, liveAs, placeOf]
        exact And.comm
      · simp [hkind]
    | hash =>
      simp only [reduceCtorEq, false_and, placeOf, false_iff, not_and]
      omega
    | other => simp [liveAs]
  · simp only [if_neg hpos]
    cases k with
    | string =>
      simp only [reduceCtorEq, false_and, placeOf, false_iff, not_and]
      omega
    | hash =>
      by_cases hkind : kind.all (· = .hash) = true
      · simp only [hkind, if_true, mem_copyShard, true_and, liveAs, placeOf]
        rw [And.comm]
        refine and_congr_right fun _ => ?_
        omega
      · simp [hkind]
    | other => simp [liveAs]

theorem shardFinds_nodup (position : ℕ) : (s.shardFinds now kind position).Nodup := by
  refine List.Nodup.map (Prod.mk_right_injective _) ?_
  unfold scanShard
  simp only
  split
  · split
    · exact copyShard_nodup ..
    · exact List.nodup_nil
  · split
    · exact copyShard_nodup ..
    · exact List.nodup_nil

/-- The loop of a call walks consecutive shards, at least one if it may walk any. -/
theorem scanLoop_eq (now : Instant) (kind : Option KeyKind) (s : Store)
    (want shards position examined : ℕ) :
    ∃ walked ≤ shards, (0 < shards → examined < want → 0 < walked) ∧
      s.scanLoop now kind want shards position examined =
        (walked, (List.range' position walked).flatMap fun index =>
          (s.scanShard now kind index).2) := by
  induction shards generalizing position examined with
  | zero => exact ⟨0, le_rfl, fun h => absurd h (lt_irrefl 0), rfl⟩
  | succ shards ih =>
    by_cases hmore : examined < want
    · obtain ⟨walked, hle, -, hrest⟩ :=
        ih (position + 1) (examined + (s.scanShard now kind position).1)
      refine ⟨walked + 1, Nat.succ_le_succ hle, fun _ _ => Nat.succ_pos _, ?_⟩
      simp only [scanLoop, if_pos hmore, hrest]
      rw [List.range'_succ, List.flatMap_cons]
    · exact ⟨0, Nat.zero_le _, fun _ h => absurd h hmore, by simp [scanLoop, hmore]⟩

/-- What a call that walks `walked` shards from `cursor` finds. -/
def callFinds (now : Instant) (matching : String → Bool) (kind : Option KeyKind) (s : Store)
    (cursor walked : ℕ) : List (KeyKind × String) :=
  ((List.range' cursor walked).flatMap (s.shardFinds now kind)).filter fun found =>
    matching found.2

/-- The keys of the finds of a call. -/
theorem map_snd_callFinds (now : Instant) (matching : String → Bool) (kind : Option KeyKind)
    (s : Store) (cursor walked : ℕ) :
    (callFinds now matching kind s cursor walked).map Prod.snd =
      ((List.range' cursor walked).flatMap fun index =>
        (s.scanShard now kind index).2).filter matching := by
  rw [callFinds, ← Function.comp_def matching Prod.snd, ← List.filter_map, List.map_flatMap]
  simp [shardFinds, Function.comp_def]

/-- **One call** walks at least one shard, returns what it finds there and says where
to go on; `0` means that no shard is left. -/
theorem scan_eq (now : Instant) {cursor : ℕ} (matching : String → Bool) (count : ℕ)
    (kind : Option KeyKind) (hcursor : cursor < s.shardCount) :
    ∃ walked, 0 < walked ∧ cursor + walked ≤ s.shardCount ∧
      s.scan now cursor matching count kind =
        ⟨if s.shardCount ≤ cursor + walked then 0 else cursor + walked,
          (callFinds now matching kind s cursor walked).map Prod.snd⟩ := by
  obtain ⟨walked, hle, hpos, hloop⟩ := scanLoop_eq now kind s (max count 1)
    (s.shardCount - cursor) cursor 0
  refine ⟨walked, hpos (by omega) (by omega), by omega, ?_⟩
  rw [map_snd_callFinds]
  unfold shardCount at hcursor hloop ⊢
  rw [scan, if_neg (Nat.not_le_of_lt hcursor), hloop]

end Call

/-! ## A whole scan -/

section Session

/-- One call of a scan: what happens to the store before it, and its arguments. -/
structure ScanCall where
  between : List (Instant × Op)
  now : Instant
  count : ℕ

/-- The pages of a scan from `cursor`: each call continues where the last one
stopped, until a page says that nothing is left. -/
def scanSession [Platform] (matching : String → Bool) (kind : Option KeyKind) :
    List ScanCall → ℕ → Store → List ScanPage
  | [], _, _ => []
  | call :: rest, cursor, s =>
    let s := s.runState call.between
    let page := s.scan call.now cursor matching call.count kind
    page :: if page.cursor = 0 then [] else scanSession matching kind rest page.cursor s

/-- The stores the calls find, with the time of each call. -/
def callStates [Platform] : List ScanCall → Store → List (Instant × Store)
  | [], _ => []
  | call :: rest, s =>
    (call.now, s.runState call.between) :: callStates rest (s.runState call.between)

/-- What a list of pages says about a scan from `cursor` that found the stores
`states`: the cursors rise and end with `0`, and the keys are those of a list of
finds without repetition, each of which was live at some call and among which is
everything that was live at every call. -/
structure Covers (matching : String → Bool) (kind : Option KeyKind) (s : Store) (cursor : ℕ)
    (states : List (Instant × Store)) (pages : List ScanPage) : Prop where
  cursors : ∃ cursors, pages.map (·.cursor) = cursors ++ [0] ∧
    (cursor :: cursors).IsChain (· < ·)
  finds : ∃ finds : List (KeyKind × String), finds.map Prod.snd = pages.flatMap (·.keys) ∧
    finds.Nodup ∧
    (∀ found ∈ finds, cursor ≤ s.placeOf found) ∧
    (∀ found ∈ finds, kind.all (· = found.1) = true ∧ matching found.2 = true ∧
      ∃ state ∈ states.take pages.length, state.2.liveAs state.1 found.1 found.2 = true) ∧
    ∀ found, cursor ≤ s.placeOf found → kind.all (· = found.1) = true →
      matching found.2 = true →
      (∀ state ∈ states.take pages.length, state.2.liveAs state.1 found.1 found.2 = true) →
        found ∈ finds

theorem SameShards.shardCount {s s' : Store} (h : SameShards s s') :
    s'.shardCount = s.shardCount := by
  rw [Store.shardCount, h.1.2, h.2.2, Store.shardCount]

theorem SameShards.placeOf {s s' : Store} (h : SameShards s s') (found : KeyKind × String) :
    s'.placeOf found = s.placeOf found := by
  unfold Store.placeOf
  rw [h.1.1, h.1.2, h.2.1]

theorem placeOf_lt (s : Store) (found : KeyKind × String) : s.placeOf found < s.shardCount := by
  have hstring := s.data.shardOf_lt found.2
  have hhash := s.hashes.shardOf_lt found.2
  unfold placeOf shardCount
  split <;> omega

theorem mem_callFinds {now : Instant} {matching : String → Bool} {kind : Option KeyKind}
    {s : Store} {cursor walked : ℕ} {found : KeyKind × String} :
    found ∈ callFinds now matching kind s cursor walked ↔
      (kind.all (· = found.1) = true ∧ matching found.2 = true ∧
        s.liveAs now found.1 found.2 = true) ∧
        cursor ≤ s.placeOf found ∧ s.placeOf found < cursor + walked := by
  simp only [callFinds, List.mem_filter, List.mem_flatMap, List.mem_range'_1, mem_shardFinds]
  constructor
  · rintro ⟨⟨index, ⟨hle, hlt⟩, hkind, hlive, rfl⟩, hmatch⟩
    exact ⟨⟨hkind, hmatch, hlive⟩, hle, hlt⟩
  · rintro ⟨⟨hkind, hmatch, hlive⟩, hle, hlt⟩
    exact ⟨⟨_, ⟨hle, hlt⟩, hkind, hlive, rfl⟩, hmatch⟩

theorem callFinds_nodup (now : Instant) (matching : String → Bool) (kind : Option KeyKind)
    (s : Store) (cursor walked : ℕ) : (callFinds now matching kind s cursor walked).Nodup := by
  refine List.Nodup.filter _ (List.nodup_flatMap.mpr ⟨fun index _ => shardFinds_nodup index, ?_⟩)
  refine (List.nodup_range' ..).imp fun {i j} hne => ?_
  intro found hi hj
  exact hne ((mem_shardFinds.mp hi).2.2.symm.trans (mem_shardFinds.mp hj).2.2)

/-- The last call of a scan, which reaches the end. -/
theorem covers_last {matching : String → Bool} {kind : Option KeyKind} {s s' : Store}
    (same : SameShards s s') {now : Instant} {cursor walked : ℕ}
    (hend : s.shardCount ≤ cursor + walked) (states : List (Instant × Store)) :
    Covers matching kind s cursor ((now, s') :: states)
      [⟨0, (callFinds now matching kind s' cursor walked).map Prod.snd⟩] := by
  refine ⟨⟨[], rfl, List.isChain_singleton _⟩,
    callFinds now matching kind s' cursor walked, by simp, callFinds_nodup .., ?_, ?_, ?_⟩
  · intro found mem
    rw [← same.placeOf]
    exact (mem_callFinds.mp mem).2.1
  · intro found mem
    obtain ⟨⟨hkind, hmatch, hlive⟩, -⟩ := mem_callFinds.mp mem
    exact ⟨hkind, hmatch, _, List.mem_cons_self, hlive⟩
  · intro found hplace hkind hmatch hlive
    have hlt := placeOf_lt s found
    refine mem_callFinds.mpr ⟨⟨hkind, hmatch, hlive _ List.mem_cons_self⟩, ?_, ?_⟩
    · rwa [same.placeOf]
    · rw [same.placeOf]
      omega

/-- One more call in front of a scan that goes on where it stops. -/
theorem Covers.cons {matching : String → Bool} {kind : Option KeyKind} {s s' : Store}
    (same : SameShards s s') {now : Instant} {cursor walked : ℕ} (hpos : 0 < walked)
    {states : List (Instant × Store)} {pages : List ScanPage}
    (h : Covers matching kind s' (cursor + walked) states pages) :
    Covers matching kind s cursor ((now, s') :: states)
      (⟨cursor + walked, (callFinds now matching kind s' cursor walked).map Prod.snd⟩ ::
        pages) := by
  obtain ⟨⟨cursors, hcursors, hchain⟩, finds, hkeys, hnodup, hplaces, hsound, hcomplete⟩ := h
  refine ⟨⟨(cursor + walked) :: cursors, by simp [hcursors], ?_⟩,
    callFinds now matching kind s' cursor walked ++ finds, by simp [hkeys], ?_, ?_, ?_, ?_⟩
  · exact List.isChain_cons_cons.mpr ⟨by omega, hchain⟩
  · -- the first call stays below the place where the others start
    refine List.nodup_append.mpr ⟨callFinds_nodup .., hnodup, ?_⟩
    rintro found hfirst other hlater rfl
    have hbelow := (mem_callFinds.mp hfirst).2.2
    have habove := hplaces found hlater
    omega
  · intro found mem
    rcases List.mem_append.mp mem with hfirst | hlater
    · rw [← same.placeOf]
      exact (mem_callFinds.mp hfirst).2.1
    · have habove := hplaces found hlater
      rw [same.placeOf] at habove
      omega
  · intro found mem
    rcases List.mem_append.mp mem with hfirst | hlater
    · obtain ⟨⟨hkind, hmatch, hlive⟩, -⟩ := mem_callFinds.mp hfirst
      exact ⟨hkind, hmatch, _, List.mem_cons_self, hlive⟩
    · obtain ⟨hkind, hmatch, state, hstate, hlive⟩ := hsound found hlater
      exact ⟨hkind, hmatch, state, List.mem_cons_of_mem _ hstate, hlive⟩
  · intro found hplace hkind hmatch hlive
    rw [← same.placeOf] at hplace
    rcases Nat.lt_or_ge (s'.placeOf found) (cursor + walked) with hhere | hlater
    · exact List.mem_append_left _ (mem_callFinds.mpr
        ⟨⟨hkind, hmatch, hlive _ List.mem_cons_self⟩, hplace, hhere⟩)
    · exact List.mem_append_right _ (hcomplete found hlater hkind hmatch fun state hstate =>
        hlive state (List.mem_cons_of_mem _ hstate))

variable [P : Platform]

/-- **A scan covers what lies ahead of its cursor**, however the store changes
between its calls.  As many calls as there are shards left are enough. -/
theorem scanSession_covers (matching : String → Bool) (kind : Option KeyKind)
    (calls : List ScanCall) {s : Store} (inv : Inv s) {cursor : ℕ}
    (hcursor : cursor < s.shardCount) (henough : s.shardCount ≤ cursor + calls.length) :
    Covers matching kind s cursor (s.callStates calls)
      (s.scanSession matching kind calls cursor) := by
  induction calls generalizing s cursor with
  | nil =>
    rw [List.length_nil] at henough
    omega
  | cons call rest ih =>
    have same := runState_sameShards inv call.between
    have hinv : Inv (s.runState call.between) := inv.runState call.between
    obtain ⟨walked, hpos, -, hpage⟩ := scan_eq call.now matching call.count kind
      (show cursor < (s.runState call.between).shardCount by rwa [same.shardCount])
    simp only [scanSession, callStates, hpage, same.shardCount]
    by_cases hend : s.shardCount ≤ cursor + walked
    · simp only [if_pos hend, if_true]
      exact covers_last same hend _
    · have hne : ¬ cursor + walked = 0 := by omega
      simp only [if_neg hend, if_neg hne]
      refine Covers.cons same hpos (ih hinv ?_ ?_)
      · rw [same.shardCount]
        omega
      · rw [same.shardCount]
        rw [List.length_cons] at henough
        omega

/-- On a store nothing happens to, the pages are the live keys of the shards that lie
ahead, in order. -/
theorem scanSession_unchanged (matching : String → Bool) (kind : Option KeyKind) (now : Instant)
    (calls : List ScanCall) (hcalls : ∀ call ∈ calls, call.between = [] ∧ call.now = now)
    (s : Store) {cursor : ℕ} (hcursor : cursor < s.shardCount)
    (henough : s.shardCount ≤ cursor + calls.length) :
    (s.scanSession matching kind calls cursor).flatMap (·.keys) =
      (callFinds now matching kind s cursor (s.shardCount - cursor)).map Prod.snd := by
  induction calls generalizing cursor with
  | nil =>
    rw [List.length_nil] at henough
    omega
  | cons call rest ih =>
    obtain ⟨hnothing, rfl⟩ := hcalls call List.mem_cons_self
    obtain ⟨walked, hpos, hle, hpage⟩ := scan_eq call.now matching call.count kind hcursor
    simp only [scanSession, hnothing, runState_nil, hpage]
    by_cases hend : s.shardCount ≤ cursor + walked
    · have hwalked : walked = s.shardCount - cursor := by omega
      rw [← hwalked]
      simp only [if_pos hend, if_true, List.flatMap_cons, List.flatMap_nil, List.append_nil]
    · have hne : ¬ cursor + walked = 0 := by omega
      have hrest := ih (fun later mem => hcalls later (List.mem_cons_of_mem _ mem))
        (Nat.lt_of_not_le hend) (by rw [List.length_cons] at henough; omega)
      have hsplit : s.shardCount - cursor = walked + (s.shardCount - (cursor + walked)) := by
        omega
      simp only [if_neg hend, if_neg hne, List.flatMap_cons, hrest]
      rw [hsplit, map_snd_callFinds, map_snd_callFinds, map_snd_callFinds,
        ← List.range'_append_1, List.flatMap_append, List.filter_append]

omit P in
/-- The live keys of all shards are what `KEYS` returns. -/
theorem callFinds_all (now : Instant) (matching : String → Bool) (s : Store) :
    (callFinds now matching none s 0 s.shardCount).map Prod.snd = s.keys now matching := by
  have hstrings : ∀ index ∈ List.range s.data.shards.length,
      (s.scanShard now none index).2 =
        (copyShard s.data index fun e => !e.isExpired now).2 := by
    intro index mem
    simp [scanShard, List.mem_range.mp mem]
  have hhashes : ∀ index ∈ List.range s.hashes.shards.length,
      (s.scanShard now none (s.data.shards.length + index)).2 =
        (copyShard s.hashes index fun h => h.isLive now).2 := by
    intro index _
    simp [scanShard]
  rw [map_snd_callFinds, ← List.range_eq_range', shardCount, List.range_add,
    List.flatMap_append, List.flatMap_map, List.flatMap_congr hstrings,
    List.flatMap_congr hhashes, flatMap_copyShard, flatMap_copyShard, List.filter_append]
  rfl

/-- **The guarantee of a full scan.**  Started at cursor `0` with at least as many
calls as there are shards, whatever happens to the store between them:

* the cursors rise strictly until a page says `0`;
* the keys of the pages are those of a list of finds without repetition; a find was
  live as what it was found as at some call, and whatever was live at every call, of
  the requested type and matching, is among the finds — once;
* on a store nothing happens to, the pages together are the answer of `KEYS`. -/
theorem scan_guarantee (s : Store) (inv : Inv s) (matching : String → Bool)
    (kind : Option KeyKind) (calls : List ScanCall) (henough : s.shardCount ≤ calls.length) :
    let pages := s.scanSession matching kind calls 0
    let states := (s.callStates calls).take pages.length
    (∃ cursors, pages.map (·.cursor) = cursors ++ [0] ∧ (0 :: cursors).IsChain (· < ·)) ∧
      (∃ finds : List (KeyKind × String), finds.map Prod.snd = pages.flatMap (·.keys) ∧
        finds.Nodup ∧
        (∀ found ∈ finds, kind.all (· = found.1) = true ∧ matching found.2 = true ∧
          ∃ state ∈ states, state.2.liveAs state.1 found.1 found.2 = true) ∧
        ∀ found, kind.all (· = found.1) = true → matching found.2 = true →
          (∀ state ∈ states, state.2.liveAs state.1 found.1 found.2 = true) → found ∈ finds) ∧
      ∀ now, (∀ call ∈ calls, call.between = [] ∧ call.now = now) → kind = none →
        pages.flatMap (·.keys) = s.keys now matching := by
  intro pages states
  have hpos : 0 < s.shardCount := Nat.zero_lt_of_lt (placeOf_lt s (.string, ""))
  have hcovers : Covers matching kind s 0 (s.callStates calls) pages :=
    scanSession_covers matching kind calls inv hpos (by omega)
  obtain ⟨hcursors, finds, hkeys, hnodup, -, hsound, hcomplete⟩ := hcovers
  refine ⟨hcursors, ⟨finds, hkeys, hnodup, hsound, fun found =>
    hcomplete found (Nat.zero_le _)⟩, ?_⟩
  rintro now hcalls rfl
  have hall := scanSession_unchanged matching none now calls hcalls s hpos (by omega)
  rw [Nat.sub_zero, callFinds_all] at hall
  exact hall

omit P in
/-- Two calls over one string shard and one hash shard, with a write and an expiry in
between. -/
theorem scan_guarantee_sample :
    letI := Platform.small
    let s := (new ⟨0, .noEviction, ⟨.none, 6, 4⟩⟩).runState
      [(0, .set "a" [1] none), (0, .hset "a" [("f", [1])]), (0, .hset "b" [("f", [1])])]
    let calls : List ScanCall :=
      [⟨[(1, .set "c" [2] none)], 2, 1⟩, ⟨[(3, .hexpire "b" ["f"] 1 .always)], 9, 1⟩]
    (s.scanSession (fun _ => true) none calls 0).flatMap (·.keys) = ["a", "c", "a"] ∧
      ∃ finds : List (KeyKind × String), finds.map Prod.snd = ["a", "c", "a"] ∧ finds.Nodup := by
  let _ := Platform.small
  set s := (new ⟨0, .noEviction, ⟨.none, 6, 4⟩⟩).runState
    [(0, .set "a" [1] none), (0, .hset "a" [("f", [1])]), (0, .hset "b" [("f", [1])])] with hs
  have inv : Inv s := (new_isNew _).inv.runState _
  have hpages : (s.scanSession (fun _ => true) none
      [⟨[(1, .set "c" [2] none)], 2, 1⟩, ⟨[(3, .hexpire "b" ["f"] 1 .always)], 9, 1⟩] 0).flatMap
        (·.keys) = ["a", "c", "a"] := by decide
  obtain ⟨-, ⟨finds, hkeys, hnodup, -⟩, -⟩ := scan_guarantee s inv (fun _ => true) none
    [⟨[(1, .set "c" [2] none)], 2, 1⟩, ⟨[(3, .hexpire "b" ["f"] 1 .always)], 9, 1⟩] (by decide)
  exact ⟨hpages, finds, hkeys.trans hpages, hnodup⟩

end Session

end Store

end Ephpm.Kv
