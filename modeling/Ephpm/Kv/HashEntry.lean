import Ephpm.Kv.Entry

/-!
# Hash values

A hash (`store/hash.rs`) is a map from field names to fields, a key expiry and
three derived figures the source keeps by hand: the bytes it is charged, the
number of fields that carry an expiry, and a hint for the earliest of those.

Two of the figures depend on the fields alone, and the record carries the proof
that they are right: `volatile` is the number of fields with an expiry, and
`nextFieldExpiry` is never later than one of them.  An update that forgot one of
them could not be written down.  What a hash is charged depends on its key as
well; `HashEntry.Charged` states it, and each update below comes with the lemma
that keeps it.

**Liveness.**  A field is live before its own expiry; a hash exists for a reader
before its key expiry while one of its fields is live.  `liveView` is that part
of a hash, and `liveView_purgeExpiredFields` says that purging does not change it.
-/

namespace Ephpm.Kv

open Lib

/-- Bytes charged for a hash beyond its key and fields. -/
def hashBaseOverhead : ℕ := 64

/-- Bytes charged for a field beyond its name and value. -/
def hashFieldOverhead : ℕ := 96

/-- Bytes charged for a hash keyed `key` with no fields. -/
def hashBaseCost (key : String) : ℕ := keyLen key + hashBaseOverhead

/-- Bytes charged for one field. -/
def hashFieldCost (field : String) (valueLen : ℕ) : ℕ :=
  keyLen field + valueLen + hashFieldOverhead

/-- The earlier of two deadlines, where `none` is no deadline. -/
def minDeadline : Option Instant → Option Instant → Option Instant
  | some a, some b => some (min a b)
  | some a, none => some a
  | none, b => b

/-- A hint that is no later than a deadline: `none` as a hint says that there
is no deadline. -/
def NotLater (hint deadline : Option Instant) : Prop :=
  ∀ d, deadline = some d → ∃ h, hint = some h ∧ h ≤ d

theorem NotLater.refl (deadline : Option Instant) : NotLater deadline deadline :=
  fun d h => ⟨d, h, le_rfl⟩

/-- A hint that is no later than another one covers what that one covers. -/
theorem NotLater.trans {a b c : Option Instant} (hab : NotLater a b) (hbc : NotLater b c) :
    NotLater a c := by
  intro d hd
  obtain ⟨e, he, hle⟩ := hbc d hd
  obtain ⟨f, hf, hle'⟩ := hab e he
  exact ⟨f, hf, hle'.trans hle⟩

/-- Nothing to wait for is covered by any hint. -/
@[simp] theorem notLater_none (hint : Option Instant) : NotLater hint none := by
  intro d h
  cases h

/-- The earlier of two deadlines covers the first. -/
theorem minDeadline_left (a b : Option Instant) : NotLater (minDeadline a b) a := by
  rintro d rfl
  cases b with
  | none => exact ⟨d, rfl, le_rfl⟩
  | some b => exact ⟨min d b, rfl, min_le_left d b⟩

/-- The earlier of two deadlines covers the second. -/
theorem minDeadline_right (a b : Option Instant) : NotLater (minDeadline a b) b := by
  rintro d rfl
  cases a with
  | none => exact ⟨d, rfl, le_rfl⟩
  | some a => exact ⟨min a d, rfl, min_le_right a d⟩

/-- A minimum is one of the two. -/
theorem minDeadline_cases (a b : Option Instant) :
    minDeadline a b = a ∨ minDeadline a b = b := by
  cases a with
  | none => exact Or.inr rfl
  | some a =>
    cases b with
    | none => exact Or.inl rfl
    | some b =>
      rcases min_choice a b with h | h
      · exact Or.inl (by rw [minDeadline, h])
      · exact Or.inr (by rw [minDeadline, h])

/-! ## Fields -/

/-- A field of a hash, and when it expires. -/
structure HashField where
  value : Bytes
  expiresAt : Option Instant
deriving DecidableEq, Repr

namespace HashField

/-- Whether the field is live at `now`. -/
def isLive (f : HashField) (now : Instant) : Bool := f.expiresAt.all (now < ·)

/-- `1` for a field that carries an expiry. -/
def volatility (f : HashField) : ℕ := if f.expiresAt.isSome then 1 else 0

/-- Bytes the field is charged. -/
def cost (name : String) (f : HashField) : ℕ := hashFieldCost name f.value.length

/-- A field is dead once its deadline is there. -/
theorem isLive_eq_false_iff {f : HashField} {now : Instant} :
    f.isLive now = false ↔ ∃ deadline, f.expiresAt = some deadline ∧ deadline ≤ now := by
  cases h : f.expiresAt <;> simp [isLive, h]

/-- A field that is live later is live now. -/
theorem isLive_of_le {f : HashField} {now later : Instant} (hle : now ≤ later)
    (h : f.isLive later = true) : f.isLive now = true := by
  by_contra hdead
  obtain ⟨deadline, hdeadline, hnow⟩ := isLive_eq_false_iff.mp (by simpa using hdead)
  have := isLive_eq_false_iff.mpr ⟨deadline, hdeadline, hnow.trans hle⟩
  rw [h] at this
  cases this

end HashField

/-- Number of fields that carry an expiry. -/
def volatileCount (fields : Assoc String HashField) : ℕ :=
  fields.weight fun _ f => f.volatility

/-- A field with a deadline is one of those that are counted. -/
theorem volatility_le_count {fields : Assoc String HashField} {name : String}
    {f : HashField} (h : fields.get name = some f) : f.volatility ≤ volatileCount fields :=
  fields.get_le_weight (fun _ f => f.volatility) h

/-- The count after a field is put: without the old one, with the new one. -/
theorem volatileCount_insert (fields : Assoc String HashField) (name : String)
    (f : HashField) :
    volatileCount (fields.insert name f) =
      volatileCount fields - (fields.get name).elim 0 HashField.volatility + f.volatility := by
  have hweight := fields.weight_insert (fun _ f => f.volatility) name f
  rw [← volatileCount, ← volatileCount] at hweight
  cases hget : fields.get name with
  | none =>
    rw [hget] at hweight
    simpa using hweight
  | some old =>
    have hle := volatility_le_count hget
    rw [hget] at hweight
    simp only [Option.elim_some] at hweight ⊢
    omega

/-- The count after a field is removed. -/
theorem volatileCount_erase (fields : Assoc String HashField) (name : String) :
    volatileCount (fields.erase name) =
      volatileCount fields - (fields.get name).elim 0 HashField.volatility := by
  have hweight : volatileCount (fields.erase name) +
      (fields.get name).elim 0 HashField.volatility = volatileCount fields :=
    fields.weight_erase (fun _ f => f.volatility) name
  omega

/-- The earliest expiry among a list of fields. -/
def earliestExpiry : List (String × HashField) → Option Instant
  | [] => none
  | field :: rest => minDeadline field.2.expiresAt (earliestExpiry rest)

/-- No field expires before the earliest expiry. -/
theorem earliestExpiry_notLater {fields : List (String × HashField)}
    {field : String × HashField} (mem : field ∈ fields) :
    NotLater (earliestExpiry fields) field.2.expiresAt := by
  induction fields with
  | nil => cases mem
  | cons head rest ih =>
    rcases List.mem_cons.mp mem with rfl | hrest
    · exact minDeadline_left _ _
    · exact (minDeadline_right _ _).trans (ih hrest)

/-- The earliest expiry is that of a field. -/
theorem exists_of_earliestExpiry {fields : List (String × HashField)} {deadline : Instant}
    (h : earliestExpiry fields = some deadline) :
    ∃ field ∈ fields, field.2.expiresAt = some deadline := by
  induction fields with
  | nil => cases h
  | cons head rest ih =>
    rw [earliestExpiry] at h
    rcases minDeadline_cases head.2.expiresAt (earliestExpiry rest) with hhead | hrest
    · exact ⟨head, List.mem_cons_self, hhead ▸ h⟩
    · obtain ⟨field, mem, hfield⟩ := ih (hrest ▸ h)
      exact ⟨field, List.mem_cons_of_mem _ mem, hfield⟩

/-! ## Hashes -/

/-- A hash value, with its derived figures in step. -/
structure HashEntry where
  fields : Assoc String HashField
  expiresAt : Option Instant
  lastAccessed : ℕ
  mem : ℕ
  volatile : ℕ
  nextFieldExpiry : Option Instant
  volatile_eq : volatile = volatileCount fields
  next_notLater : ∀ name f, fields.get name = some f → NotLater nextFieldExpiry f.expiresAt

namespace HashEntry

/-- The hash is charged its base cost and the cost of each field. -/
def Charged (key : String) (h : HashEntry) : Prop :=
  h.mem = hashBaseCost key + h.fields.weight HashField.cost

/-- An empty hash for `key`. -/
def new (key : String) (nowNanos : ℕ) : HashEntry where
  fields := Assoc.empty
  expiresAt := none
  lastAccessed := nowNanos
  mem := hashBaseCost key
  volatile := 0
  nextFieldExpiry := none
  volatile_eq := rfl
  next_notLater _ _ h := by cases h

/-- Touch the access clock. -/
def touch (h : HashEntry) (nowNanos : ℕ) : HashEntry :=
  { h with lastAccessed := touchClock h.lastAccessed nowNanos }

/-- Set the key expiry. -/
def withExpiry (h : HashEntry) (expiresAt : Option Instant) : HashEntry :=
  { h with expiresAt := expiresAt }

/-- Whether the key expiry has passed. -/
def keyExpired (h : HashEntry) (now : Instant) : Bool := h.expiresAt.any (· ≤ now)

/-- Whether some field may have expired: the hint has passed. -/
def mayHaveExpiredFields (h : HashEntry) (now : Instant) : Bool :=
  h.nextFieldExpiry.any (· ≤ now)

/-- Whether the hash exists for a reader at `now`. -/
def isLive (h : HashEntry) (now : Instant) : Bool :=
  if h.keyExpired now then false
  else if h.mayHaveExpiredFields now then h.fields.entries.any fun field => field.2.isLive now
  else !h.fields.entries.isEmpty

/-- The live field `name`. -/
def live (h : HashEntry) (name : String) (now : Instant) : Option HashField :=
  (h.fields.get name).filter (·.isLive now)

/-- Number of live fields. -/
def liveLen (h : HashEntry) (now : Instant) : ℕ :=
  if h.mayHaveExpiredFields now then
    (h.fields.entries.filter fun field => field.2.isLive now).length
  else h.fields.len

/-- The fields that have not expired. -/
def liveFields (h : HashEntry) (now : Instant) : List (String × HashField) :=
  h.fields.entries.filter fun field => field.2.isLive now

/-- The earliest moment anything in the hash expires, or earlier. -/
def earliestDeadline (h : HashEntry) : Option Instant :=
  minDeadline h.expiresAt h.nextFieldExpiry

/-- Recompute `volatile` and `nextFieldExpiry` for new fields. -/
def recomputeFieldExpiry (h : HashEntry) (fields : Assoc String HashField) (mem : ℕ) :
    HashEntry where
  fields := fields
  expiresAt := h.expiresAt
  lastAccessed := h.lastAccessed
  mem := mem
  volatile := volatileCount fields
  nextFieldExpiry := earliestExpiry fields.entries
  volatile_eq := rfl
  next_notLater _ _ hget := earliestExpiry_notLater (Assoc.get_eq_some_iff.mp hget)

/-- Drop every field whose expiry has passed; the bytes freed. -/
def purgeExpiredFields (h : HashEntry) (now : Instant) : ℕ × HashEntry :=
  if h.mayHaveExpiredFields now then
    let freed := h.fields.weight fun name f =>
      if f.isLive now then 0 else hashFieldCost name f.value.length
    let kept := h.fields.retain fun _ f => f.isLive now
    (freed, h.recomputeFieldExpiry kept (h.mem - freed))
  else (0, h)

/-- Reset a key-expired hash to empty, keeping only its base charge. -/
def reset (h : HashEntry) (base : ℕ) : HashEntry where
  fields := Assoc.empty
  expiresAt := none
  lastAccessed := h.lastAccessed
  mem := base
  volatile := 0
  nextFieldExpiry := none
  volatile_eq := rfl
  next_notLater _ _ hget := by cases hget

/-- Insert or replace a field.  The flag is whether the field was newly created,
where a replaced expired field counts as new. -/
def putField (h : HashEntry) (name : String) (value : Bytes) (expiresAt : Option Instant)
    (now : Instant) : Bool × HashEntry :=
  let field : HashField := ⟨value, expiresAt⟩
  let previous := h.fields.get name
  (previous.elim true fun old => !old.isLive now,
    { fields := h.fields.insert name field
      expiresAt := h.expiresAt
      lastAccessed := h.lastAccessed
      mem := h.mem + field.cost name - previous.elim 0 (HashField.cost name)
      volatile := h.volatile - previous.elim 0 HashField.volatility + field.volatility
      nextFieldExpiry := minDeadline h.nextFieldExpiry expiresAt
      volatile_eq := by rw [volatileCount_insert, h.volatile_eq]
      next_notLater := by
        intro name' f hget
        rw [Assoc.get_insert] at hget
        split at hget
        · cases hget
          exact minDeadline_right _ _
        · exact (minDeadline_left _ _).trans (h.next_notLater name' f hget) })

/-- What is left of a hash without the field `name`, where `old` is that
field. -/
def dropField (h : HashEntry) (name : String) (old : HashField)
    (hget : h.fields.get name = some old) : HashEntry where
  fields := h.fields.erase name
  expiresAt := h.expiresAt
  lastAccessed := h.lastAccessed
  mem := h.mem - old.cost name
  volatile := h.volatile - old.volatility
  nextFieldExpiry := h.nextFieldExpiry
  volatile_eq := by rw [volatileCount_erase, hget, h.volatile_eq, Option.elim_some]
  next_notLater := by
    intro name' f hfield
    rw [Assoc.get_erase] at hfield
    split at hfield
    · cases hfield
    · exact h.next_notLater name' f hfield

/-- Remove a field, live or not. -/
def takeField (h : HashEntry) (name : String) : Option (HashField × HashEntry) :=
  match hget : h.fields.get name with
  | none => none
  | some old => some (old, h.dropField name old hget)

/-- `volatile` after the expiry of one field went from `old` to `new`. -/
def volatileAfter (volatile : ℕ) (old new : Option Instant) : ℕ :=
  match old.isSome, new.isSome with
  | false, true => volatile + 1
  | true, false => volatile - 1
  | _, _ => volatile

/-- The running count is the count of the fields with the new deadline. -/
private theorem volatileAfter_eq {fields : Assoc String HashField} {name : String}
    {old : HashField} (hget : fields.get name = some old) (expiresAt : Option Instant) :
    volatileAfter (volatileCount fields) old.expiresAt expiresAt =
      volatileCount (fields.insert name ⟨old.value, expiresAt⟩) := by
  have hle := volatility_le_count hget
  rw [volatileCount_insert, hget, Option.elim_some]
  cases hold : old.expiresAt <;> cases expiresAt <;>
    simp only [volatileAfter, HashField.volatility, hold, Option.isSome_none,
      Option.isSome_some, if_true, Bool.false_eq_true, if_false] at hle ⊢ <;> omega

/-- A hash whose field `name` now expires at `expiresAt`. -/
def retimeField (h : HashEntry) (name : String) (old : HashField)
    (hget : h.fields.get name = some old) (expiresAt : Option Instant) : HashEntry where
  fields := h.fields.insert name ⟨old.value, expiresAt⟩
  expiresAt := h.expiresAt
  lastAccessed := h.lastAccessed
  mem := h.mem
  volatile := volatileAfter h.volatile old.expiresAt expiresAt
  nextFieldExpiry :=
    if volatileAfter h.volatile old.expiresAt expiresAt = 0 then none
    else minDeadline h.nextFieldExpiry expiresAt
  volatile_eq := by rw [h.volatile_eq, volatileAfter_eq hget]
  next_notLater := by
    intro name' f hfield
    split
    next hzero =>
      -- No field counts as volatile, so this one has no expiry.
      have hle := volatility_le_count hfield
      rw [h.volatile_eq, volatileAfter_eq hget] at hzero
      cases hexp : f.expiresAt with
      | none => exact notLater_none _
      | some deadline =>
        rw [HashField.volatility, hexp, hzero] at hle
        simp at hle
    next =>
      rw [Assoc.get_insert] at hfield
      split at hfield
      · cases hfield
        exact minDeadline_right _ _
      · exact (minDeadline_left _ _).trans (h.next_notLater name' f hfield)

/-- Set (or clear) the expiry of an existing field. -/
def setFieldExpiry (h : HashEntry) (name : String) (expiresAt : Option Instant) : HashEntry :=
  match hget : h.fields.get name with
  | none => h
  | some old => h.retimeField name old hget expiresAt

/-- The part of `HashEntry::from_parts` after the key expiry is checked: put
every field that has not expired. -/
def putParts (now : Instant) : List (String × HashField) → HashEntry → HashEntry
  | [], h => h
  | (name, f) :: rest, h =>
    if f.isLive now then putParts now rest (h.putField name f.value f.expiresAt now).2
    else putParts now rest h

/-- Rebuild a hash from its persistent state.  `none` when the key has expired
or no field is left. -/
def fromParts (key : String) (fields : List (String × HashField))
    (expiresAt : Option Instant) (now : Instant) (nowNanos : ℕ) : Option HashEntry :=
  if expiresAt.any (· ≤ now) then none
  else
    let h := putParts now fields ((new key nowNanos).withExpiry expiresAt)
    if h.fields.entries.isEmpty then none else some h

/-! ## What a hash is charged -/

/-- A hash without fields is charged its base cost. -/
theorem new_charged (key : String) (nowNanos : ℕ) : (new key nowNanos).Charged key := rfl

theorem Charged.touch {key : String} {h : HashEntry} (charged : h.Charged key)
    (nowNanos : ℕ) : (h.touch nowNanos).Charged key := charged

theorem Charged.withExpiry {key : String} {h : HashEntry} (charged : h.Charged key)
    (expiresAt : Option Instant) : (h.withExpiry expiresAt).Charged key := charged

theorem reset_charged (key : String) (h : HashEntry) :
    (h.reset (hashBaseCost key)).Charged key := rfl

/-- Putting a field charges for it, and no more for one that it replaces. -/
theorem Charged.putField {key : String} {h : HashEntry} (charged : h.Charged key)
    (name : String) (value : Bytes) (expiresAt : Option Instant) (now : Instant) :
    (h.putField name value expiresAt now).2.Charged key := by
  have hweight := h.fields.weight_insert HashField.cost name ⟨value, expiresAt⟩
  simp only [Charged, HashEntry.putField] at charged ⊢
  omega

/-- Dropping a field gives its charge back. -/
theorem Charged.dropField {key : String} {h : HashEntry} (charged : h.Charged key)
    {name : String} {old : HashField} (hget : h.fields.get name = some old) :
    (h.dropField name old hget).Charged key := by
  have hweight := h.fields.weight_erase HashField.cost name
  rw [hget, Option.elim_some] at hweight
  simp only [Charged, HashEntry.dropField] at charged ⊢
  omega

/-- A field with another deadline costs the same. -/
theorem Charged.retimeField {key : String} {h : HashEntry} (charged : h.Charged key)
    {name : String} {old : HashField} (hget : h.fields.get name = some old)
    (expiresAt : Option Instant) :
    (h.retimeField name old hget expiresAt).Charged key := by
  have hweight := h.fields.weight_insert HashField.cost name ⟨old.value, expiresAt⟩
  rw [hget, Option.elim_some] at hweight
  simp only [Charged, HashEntry.retimeField, HashField.cost] at charged hweight ⊢
  omega

theorem Charged.setFieldExpiry {key : String} {h : HashEntry} (charged : h.Charged key)
    (name : String) (expiresAt : Option Instant) :
    (h.setFieldExpiry name expiresAt).Charged key := by
  unfold HashEntry.setFieldExpiry
  split
  · exact charged
  · exact charged.retimeField _ expiresAt

/-- A purge gives back the charge of what it drops. -/
theorem Charged.purgeExpiredFields {key : String} {h : HashEntry} (charged : h.Charged key)
    (now : Instant) : (h.purgeExpiredFields now).2.Charged key := by
  unfold HashEntry.purgeExpiredFields
  split
  · have hweight := h.fields.weight_retain (fun _ f => f.isLive now) HashField.cost
    simp only [Charged, HashEntry.recomputeFieldExpiry, HashField.cost] at charged hweight ⊢
    omega
  · exact charged

/-- A hash that is put together from its fields is charged for each of them. -/
theorem Charged.putParts {key : String} (now : Instant) :
    ∀ (fields : List (String × HashField)) {h : HashEntry}, h.Charged key →
      (HashEntry.putParts now fields h).Charged key
  | [], _, charged => charged
  | (name, f) :: rest, h, charged => by
      rw [HashEntry.putParts]
      split
      · exact Charged.putParts now rest (charged.putField name f.value f.expiresAt now)
      · exact Charged.putParts now rest charged

/-- A hash that is restored is charged right and has a field. -/
theorem fromParts_charged {key : String} {fields : List (String × HashField)}
    {expiresAt : Option Instant} {now : Instant} {nowNanos : ℕ} {h : HashEntry}
    (hparts : fromParts key fields expiresAt now nowNanos = some h) :
    h.Charged key ∧ h.fields.entries ≠ [] := by
  unfold fromParts at hparts
  split at hparts
  · cases hparts
  · simp only at hparts
    split at hparts
    · cases hparts
    next hsome =>
      obtain rfl := Option.some.inj hparts
      exact ⟨Charged.putParts now fields (new_charged key nowNanos),
        by simpa using hsome⟩

/-! ## What a reader sees -/

/-- A hash none of whose fields may have expired has only live fields. -/
theorem all_live_of_hint {h : HashEntry} {now : Instant}
    (hhint : h.mayHaveExpiredFields now = false) {name : String} {f : HashField}
    (hget : h.fields.get name = some f) : f.isLive now = true := by
  by_contra hdead
  obtain ⟨deadline, hdeadline, hle⟩ :=
    HashField.isLive_eq_false_iff.mp (by simpa using hdead)
  obtain ⟨next, hnext, hbefore⟩ := h.next_notLater name f hget deadline hdeadline
  simp only [mayHaveExpiredFields, hnext, Option.any_some, decide_eq_false_iff_not] at hhint
  exact hhint (hbefore.trans hle)

/-- The fields of a hash that are live at `now`. -/
def liveOnly (h : HashEntry) (now : Instant) : Assoc String HashField :=
  h.fields.retain fun _ f => f.isLive now

/-- If the hint is still to come, no field is dead. -/
theorem liveOnly_of_hint {h : HashEntry} {now : Instant}
    (hhint : h.mayHaveExpiredFields now = false) : h.liveOnly now = h.fields :=
  Assoc.retain_eq_self fun _ _ hget => all_live_of_hint hhint hget

/-- **Purging leaves exactly the live fields**, whether or not the hint made it
look for expired ones. -/
theorem purgeExpiredFields_fields (h : HashEntry) (now : Instant) :
    (h.purgeExpiredFields now).2.fields = h.liveOnly now := by
  unfold purgeExpiredFields
  split
  · rfl
  next hhint => exact (liveOnly_of_hint (by simpa using hhint)).symm

@[simp] theorem purgeExpiredFields_expiresAt (h : HashEntry) (now : Instant) :
    (h.purgeExpiredFields now).2.expiresAt = h.expiresAt := by
  unfold purgeExpiredFields
  split <;> rfl

/-- What a purge leaves are the live fields. -/
theorem liveOnly_entries (h : HashEntry) (now : Instant) :
    (h.liveOnly now).entries = h.liveFields now := Assoc.retain_entries _ _

/-- A hash is live if its key is and it has a live field. -/
theorem isLive_iff {h : HashEntry} {now : Instant} :
    h.isLive now = true ↔ h.keyExpired now = false ∧ h.liveFields now ≠ [] := by
  unfold isLive
  by_cases hkey : h.keyExpired now = true
  · simp [hkey]
  · rw [Bool.not_eq_true] at hkey
    simp only [hkey, Bool.false_eq_true, if_false, true_and]
    split
    · simp [liveFields, List.any_eq_true, List.filter_eq_nil_iff]
    next hhint =>
      rw [← liveOnly_entries, liveOnly_of_hint (by simpa using hhint)]
      simp

/-- What a reader at `now` sees of a hash: its live fields and its key expiry. -/
def liveView (h : HashEntry) (now : Instant) :
    Option (Assoc String HashField × Option Instant) :=
  if h.isLive now then some (h.liveOnly now, h.expiresAt) else none

/-- The live fields of what is left are the live fields. -/
theorem liveOnly_purgeExpiredFields (h : HashEntry) (now : Instant) :
    (h.purgeExpiredFields now).2.liveOnly now = h.liveOnly now := by
  rw [liveOnly, purgeExpiredFields_fields]
  refine Assoc.retain_eq_self fun name f hget => ?_
  rw [liveOnly, Assoc.get_retain] at hget
  exact (Option.filter_eq_some_iff.mp hget).2

/-- A purge of fields does not change the expiry of the key. -/
@[simp] theorem keyExpired_purgeExpiredFields (h : HashEntry) (now now' : Instant) :
    (h.purgeExpiredFields now).2.keyExpired now' = h.keyExpired now' := by
  rw [keyExpired, purgeExpiredFields_expiresAt, keyExpired]

/-- **Purging does not change what a reader sees.** -/
theorem liveView_purgeExpiredFields (h : HashEntry) (now : Instant) :
    (h.purgeExpiredFields now).2.liveView now = h.liveView now := by
  have hlive : (h.purgeExpiredFields now).2.isLive now = h.isLive now := by
    rw [Bool.eq_iff_iff, isLive_iff, isLive_iff, keyExpired_purgeExpiredFields,
      ← liveOnly_entries, ← liveOnly_entries, liveOnly_purgeExpiredFields]
  rw [liveView, liveView, hlive, liveOnly_purgeExpiredFields, purgeExpiredFields_expiresAt]

/-- What has a deadline after a purge had one before. -/
theorem earliestDeadline_purgeExpiredFields {h : HashEntry} {now : Instant}
    (hsome : (h.purgeExpiredFields now).2.earliestDeadline.isSome = true) :
    h.earliestDeadline.isSome = true := by
  unfold purgeExpiredFields at hsome
  split at hsome
  next hhint =>
    -- The hint has passed, so there is one.
    rw [mayHaveExpiredFields] at hhint
    cases hfield : h.nextFieldExpiry with
    | none =>
      rw [hfield] at hhint
      cases hhint
    | some next =>
      rw [earliestDeadline, hfield]
      cases h.expiresAt <;> rfl
  next => exact hsome

/-- **The live fields are counted without looking at them** if the hint allows it. -/
theorem liveLen_eq (h : HashEntry) (now : Instant) :
    h.liveLen now = (h.liveFields now).length := by
  unfold liveLen
  split
  · rfl
  next hhint =>
      rw [← liveOnly_entries, liveOnly_of_hint (by simpa using hhint)]
      rfl

/-! ## Every sequence of updates -/

/-- What can be done to a hash, and when. -/
inductive Update where
  | putField (name : String) (value : Bytes) (expiresAt : Option Instant) (now : Instant)
  | takeField (name : String)
  | setFieldExpiry (name : String) (expiresAt : Option Instant)
  | purgeExpiredFields (now : Instant)
  | reset
  /-- The hash is replaced by one that is rebuilt from its parts, if that exists. -/
  | fromParts (fields : List (String × HashField)) (expiresAt : Option Instant) (now : Instant)
      (nowNanos : ℕ)
  | touch (nowNanos : ℕ)
  | withExpiry (expiresAt : Option Instant)

/-- The hash under `key` after an update. -/
def apply (key : String) (h : HashEntry) : Update → HashEntry
  | .putField name value expiresAt now => (h.putField name value expiresAt now).2
  | .takeField name => (h.takeField name).elim h Prod.snd
  | .setFieldExpiry name expiresAt => h.setFieldExpiry name expiresAt
  | .purgeExpiredFields now => (h.purgeExpiredFields now).2
  | .reset => h.reset (hashBaseCost key)
  | .fromParts fields expiresAt now nowNanos =>
    (HashEntry.fromParts key fields expiresAt now nowNanos).getD h
  | .touch nowNanos => h.touch nowNanos
  | .withExpiry expiresAt => h.withExpiry expiresAt

/-- An update keeps the charge right. -/
theorem Charged.apply {key : String} {h : HashEntry} (charged : h.Charged key) (u : Update) :
    (h.apply key u).Charged key := by
  cases u with
  | putField name value expiresAt now => exact charged.putField name value expiresAt now
  | takeField name =>
    change ((h.takeField name).elim h Prod.snd).Charged key
    unfold HashEntry.takeField
    split
    next => exact charged
    next hget => exact charged.dropField hget
  | setFieldExpiry name expiresAt => exact charged.setFieldExpiry name expiresAt
  | purgeExpiredFields now => exact charged.purgeExpiredFields now
  | reset => exact reset_charged key h
  | fromParts fields expiresAt now nowNanos =>
    rw [HashEntry.apply]
    cases hparts : HashEntry.fromParts key fields expiresAt now nowNanos with
    | none => exact charged
    | some rebuilt => exact (fromParts_charged hparts).1
  | touch nowNanos => exact charged.touch nowNanos
  | withExpiry expiresAt => exact charged.withExpiry expiresAt

/-- Any number of updates keep the charge right. -/
theorem Charged.foldl_apply {key : String} (updates : List Update) {h : HashEntry}
    (charged : h.Charged key) : (updates.foldl (HashEntry.apply key) h).Charged key := by
  induction updates generalizing h with
  | nil => exact charged
  | cons u updates ih => exact ih (charged.apply u)

/-- The count is the number of fields with a deadline. -/
theorem volatileCount_eq_countP (fields : Assoc String HashField) :
    volatileCount fields = fields.entries.countP fun field => field.2.expiresAt.isSome := by
  rw [volatileCount, Assoc.weight, weight]
  induction fields.entries with
  | nil => rfl
  | cons field rest ih =>
    rw [List.map_cons, List.sum_cons, ih, List.countP_cons, HashField.volatility, add_comm]

/-- **The summaries of a hash say what a scan of its fields would.**  After any updates of a new
hash: the bytes are the base cost and the costs of the fields, `volatile` is the number of fields
with an expiry, the hint is there if one has an expiry, and not later than any; and so at any
moment the answers that trust the summaries are those of a scan. -/
theorem summaries_eq_scan (key : String) (nowNanos : ℕ) (updates : List Update) :
    let h := updates.foldl (apply key) (new key nowNanos)
    h.mem = hashBaseCost key
        + (h.fields.entries.map fun field => hashFieldCost field.1 field.2.value.length).sum ∧
      h.volatile = h.fields.entries.countP (fun field => field.2.expiresAt.isSome) ∧
      (∀ field ∈ h.fields.entries, ∀ deadline, field.2.expiresAt = some deadline →
        ∃ next, h.nextFieldExpiry = some next ∧ next ≤ deadline) ∧
      ∀ now,
        h.isLive now
            = (!h.keyExpired now && h.fields.entries.any fun field => field.2.isLive now) ∧
          h.liveLen now = h.fields.entries.countP fun field => field.2.isLive now := by
  intro h
  have charged : h.Charged key := Charged.foldl_apply updates (new_charged key nowNanos)
  refine ⟨charged, ?_, ?_, fun now => ⟨?_, ?_⟩⟩
  · rw [h.volatile_eq, volatileCount_eq_countP]
  · intro field hmem deadline hdeadline
    exact h.next_notLater field.1 field.2 (Assoc.get_eq_some_iff.mpr hmem) deadline hdeadline
  · rw [Bool.eq_iff_iff, isLive_iff]
    simp [liveFields, List.filter_eq_nil_iff, List.any_eq_true]
  · rw [liveLen_eq, liveFields, List.countP_eq_length_filter]

end HashEntry

end Ephpm.Kv
