import Ephpm.Cluster.SiteNamespace

/-!
# The registry of the databases of the sites

Every site has a file of its own, opened when somebody first asks for it.  The registry keeps one
slot per site, for as long as it runs.  The database stands in the slot, behind the lock of the
slot: a call of `get_or_open` reads it, opens it if it is not there, and then closes databases that
nobody uses if too many are open.

A call is a `Call`: where it stands, and what it has.  **A step is what one of the calls does until
it comes to a lock or waits.**  Which call goes on, how long it takes to open a file and whether
that succeeds, in which order the slots are looked at, and when a handle is copied or dropped is
up to whoever makes the `Action`s.  An action that cannot be taken changes nothing: a call that
waits for a lock goes on waiting.

A handle counts as long as somebody has it.  The call that has opened a database has one while it
evicts others.  `strongCount` is the count of `Arc`, and **a database is closed when it falls to
zero** (`release`).

What may go wrong is that a database is opened twice, or closed while there is a handle on it.  The
lock of the slot is held while a database is opened, and a database is closed only if its slot
has the one reference to it.  So a handle is always one on the database in the slot (`Inv`).
-/

namespace Ephpm.Server.SiteBackends

open Cluster.SiteNamespace (isValidSiteKey)

/-! ## Slots -/

/-- `SiteSlot`.  Databases are numbered as they are opened. -/
structure Slot where
  /-- how many calls have the lock for reading -/
  readers : ℕ
  /-- the call that has it for writing -/
  writer : Option ℕ
  current : Option ℕ
  /-- the hint for the eviction -/
  isOpen : Bool
  lastUsed : ℕ

/-- `SiteSlot::new`. -/
def Slot.new (now : ℕ) : Slot := ⟨0, none, none, false, now⟩

/-- `SiteSlot::touch`. -/
def Slot.touch (slot : Slot) (now : ℕ) : Slot := { slot with lastUsed := now }

/-- Whether the lock can be had for writing. -/
def Slot.isFree (slot : Slot) : Bool := slot.readers = 0 ∧ slot.writer = none

/-! ## Calls -/

/-- A call of `get_or_open` and what has become of it. -/
inductive Call
  | started (key : String)
  /-- `slot_for` has found no slot -/
  | inserting (key : String)
  /-- wants to read -/
  | arrived (key : String)
  | reading (key : String)
  /-- wants to write -/
  | missed (key : String)
  | writing (key : String)
  /-- waits for the file, and has the lock for writing -/
  | opening (key : String)
  | opened (key : String) (db openNow : ℕ)
  /-- `evict_over_cap` looks at the slots: how many there were when it began, those it has seen,
  and the candidates among them -/
  | scanning (key : String) (db due : ℕ) (seen : List String) (found : List (ℕ × String))
  /-- `evict_over_cap` before a candidate -/
  | evicting (key : String) (db : ℕ) (candidates : List String)
  /-- `close_if_idle` of a site -/
  | trying (key : String) (db : ℕ) (victim : String) (candidates : List String)
  /-- the caller has the handle -/
  | returned (key : String) (db : ℕ)
  /-- failed, given up, or its handle was dropped -/
  | finished
deriving DecidableEq

namespace Call

/-- The site whose slot the call has. -/
def site : Call → Option String
  | arrived key | reading key | missed key | writing key | opening key => some key
  | _ => none

/-- The site whose slot the call has locked for writing. -/
def writes : Call → Option String
  | writing key | opening key => some key
  | _ => none

/-- The handle that the call, or its caller, has. -/
def handle : Call → Option (String × ℕ)
  | opened key db _ | scanning key db .. | evicting key db _ | trying key db .. | returned key db =>
    some (key, db)
  | _ => none

/-- A call locks the slot that it has. -/
theorem site_of_writes {call : Call} {key : String} (h : call.writes = some key) :
    call.site = some key := by
  cases call <;> first | exact h | cases h

theorem handle_of_site {call : Call} {key : String} (h : call.site = some key) :
    call.handle = none := by
  cases call <;> first | rfl | cases h

/-- Whether it is a handle on this database. -/
def holds (db : ℕ) (call : Call) : Bool := call.handle.any (·.2 = db)

end Call

/-! ## The registry -/

/-- What happens to files. -/
inductive Event
  | opened (key : String) (db : ℕ)
  | closed (key : String) (db : ℕ)
deriving DecidableEq

namespace Event

/-- The database that the event is about. -/
def db : Event → ℕ
  | opened _ db | closed _ db => db

/-- A database of the key is opened. -/
def opens (key : String) : Event → Bool
  | opened k _ => k = key
  | _ => false

/-- A database of the key is closed. -/
def closes (key : String) : Event → Bool
  | closed k _ => k = key
  | _ => false

end Event

/-- `Inner`, the calls, and what has happened so far. -/
structure State where
  /-- the sites that have a slot -/
  keys : List String
  slot : String → Slot
  openCount : ℕ
  calls : List Call
  log : List Event

/-- Nothing is open. -/
def init : State := ⟨[], fun _ => Slot.new 0, 0, [], []⟩

namespace State

/-- A call goes on to where it stands next. -/
def goto (s : State) (t : ℕ) (call : Call) : State := { s with calls := s.calls.set t call }

/-- A slot changes. -/
def setSlot (s : State) (key : String) (slot : Slot) : State :=
  { s with slot := Function.update s.slot key slot }

/-- `Arc::strong_count`: the slots and the handles that refer to a database. -/
def strongCount (s : State) (db : ℕ) : ℕ :=
  s.keys.countP (fun key => (s.slot key).current = some db) + s.calls.countP (Call.holds db)

/-- A reference to a database is gone.  If it was the last one, the file is closed. -/
def release (s : State) (key : String) (db : ℕ) : State :=
  if s.strongCount db = 0 then { s with log := s.log ++ [.closed key db] } else s

/-- The entry of a site, made if there is none. -/
def insert (s : State) (key : String) (now : ℕ) : State :=
  if key ∈ s.keys then s
  else { s.setSlot key (Slot.new now) with keys := s.keys ++ [key] }

/-- The file is open: the database is put into the slot and the lock is given back. -/
def install (s : State) (key : String) (now : ℕ) : State :=
  { s.setSlot key ({ s.slot key with
      current := some s.log.length, isOpen := true, writer := none }.touch now) with
    openCount := s.openCount + 1
    log := s.log ++ [.opened key s.log.length] }

/-- The database is taken from a slot. -/
def emptySlot (s : State) (key : String) : State :=
  { s.setSlot key { s.slot key with current := none, isOpen := false } with
    openCount := s.openCount - 1 }

/-- `close_if_idle`. -/
def closeIfIdle (s : State) (key : String) : State :=
  if (s.slot key).isFree then
    match (s.slot key).current with
    | some db =>
      if s.strongCount db = 1 then (s.emptySlot key).release key db else s
    | none => s
  else s

variable (maxOpen : ℕ)

/-- What a call does until it comes to a lock or waits. -/
def resume (s : State) (t now : ℕ) : Call → State
  | .started key =>
    if key ∈ s.keys then s.goto t (.arrived key)
    else if isValidSiteKey key then s.goto t (.inserting key) else s.goto t .finished
  | .inserting key => (s.insert key now).goto t (.arrived key)
  | .arrived key =>
    let slot := s.slot key
    if slot.writer = none then
      (s.setSlot key { slot with readers := slot.readers + 1 }).goto t (.reading key)
    else s
  | .reading key =>
    let slot := { s.slot key with readers := (s.slot key).readers - 1 }
    match slot.current with
    | some db => (s.setSlot key (slot.touch now)).goto t (.returned key db)
    | none =>
      (s.setSlot key slot).goto t (if isValidSiteKey key then .missed key else .finished)
  | .missed key =>
    let slot := s.slot key
    if slot.isFree then
      (s.setSlot key { slot with writer := some t }).goto t (.writing key)
    else s
  | .writing key =>
    let slot := s.slot key
    match slot.current with
    | some db =>
      (s.setSlot key ({ slot with writer := none }.touch now)).goto t (.returned key db)
    | none => s.goto t (.opening key)
  | .opening key => (s.install key now).goto t (.opened key s.log.length (s.openCount + 1))
  | .opened key db openNow =>
    if maxOpen < openNow then s.goto t (.scanning key db s.keys.length [] [])
    else s.goto t (.returned key db)
  | .scanning key db due seen found =>
    if (s.keys.take due).all (· ∈ seen) then
      s.goto t (.evicting key db ((found.mergeSort (·.1 ≤ ·.1)).map Prod.snd))
    else s
  | .evicting key db (victim :: candidates) =>
    if s.openCount ≤ maxOpen then s.goto t (.returned key db)
    else s.goto t (.trying key db victim candidates)
  | .evicting key db [] => s.goto t (.returned key db)
  | .trying key db victim candidates =>
    (s.closeIfIdle victim).goto t (.evicting key db candidates)
  | .returned .. | .finished => s

/-- `evict_over_cap` looks at the slot of a site.  The map may be walked in any order, and a slot
that was added on the way may be seen or not. -/
def look (s : State) (t : ℕ) (key : String) : Call → State
  | .scanning protect db due seen found =>
    if key ∈ s.keys ∧ key ∉ seen then
      let slot := s.slot key
      s.goto t (.scanning protect db due (key :: seen)
        (if key ≠ protect ∧ slot.isOpen then found ++ [(slot.lastUsed, key)] else found))
    else s
  | _ => s

/-- The file cannot be opened, or nobody waits for the call any more. -/
def abandon (s : State) (t : ℕ) : Call → State
  | .opening key => (s.setSlot key { s.slot key with writer := none }).goto t .finished
  | .started _ | .arrived _ | .missed _ => s.goto t .finished
  | _ => s

end State

/-- What happens next. -/
inductive Action
  | call (key : String)
  | resume (t now : ℕ)
  | look (t : ℕ) (key : String)
  | abandon (t : ℕ)
  /-- somebody copies the handle that a call has returned -/
  | clone (t : ℕ)
  | drop (t : ℕ)

/-- One step of the registry, in which a call is at most where it waits next. -/
def step (maxOpen : ℕ) (s : State) : Action → State
  | .call key => { s with calls := s.calls ++ [.started key] }
  | .resume t now => (s.calls[t]?).elim s (s.resume maxOpen t now)
  | .look t key => (s.calls[t]?).elim s (s.look t key)
  | .abandon t => (s.calls[t]?).elim s (s.abandon t)
  | .clone t =>
    match s.calls[t]? with
    | some (.returned key db) => { s with calls := s.calls ++ [.returned key db] }
    | _ => s
  | .drop t =>
    match s.calls[t]? with
    | some (.returned key db) => (s.goto t .finished).release key db
    | _ => s

/-- The state after some actions. -/
def run (maxOpen : ℕ) (actions : List Action) : State := actions.foldl (step maxOpen) init

/-! ## The invariant -/

/-- A database that was opened and has not been closed. -/
def State.IsOpen (s : State) (key : String) (db : ℕ) : Prop :=
  .opened key db ∈ s.log ∧ .closed key db ∉ s.log

/-- How many slots hold a database. -/
def State.holding (s : State) : ℕ := s.keys.countP fun key => (s.slot key).current.isSome

/-- What is true of a call: its site has a slot, it has the lock it thinks it has, and its handle
is one on the database in the slot. -/
structure Allowed (s : State) (t : ℕ) (call : Call) : Prop where
  site : ∀ key, call.site = some key → key ∈ s.keys
  writes : ∀ key, call.writes = some key → (s.slot key).writer = some t
  opening : ∀ key, call = .opening key → (s.slot key).current = none
  handle : ∀ key db, call.handle = some (key, db) → (s.slot key).current = some db

/-- What is true of the slots: the log tells what is in them, and the counter how many are not
empty. -/
structure State.Sound (s : State) : Prop where
  nodup : s.keys.Nodup
  absent : ∀ key, key ∉ s.keys → (s.slot key).current = none
  fresh : ∀ event ∈ s.log, event.db < s.log.length
  current_iff : ∀ key db, (s.slot key).current = some db ↔ s.IsOpen key db
  opens : ∀ key, s.log.countP (Event.opens key) =
    s.log.countP (Event.closes key) + if (s.slot key).current.isSome then 1 else 0
  openCount : s.openCount = s.holding

/-- What is true in every state. -/
structure State.Inv (s : State) : Prop where
  sound : s.Sound
  calls : ∀ t call, s.calls[t]? = some call → Allowed s t call

variable {s s' : State} {key : String} {t now db : ℕ} {call : Call} {slot : Slot}

@[simp] theorem State.setSlot_slot_self : (s.setSlot key slot).slot key = slot :=
  Function.update_self ..

@[simp] theorem State.setSlot_slot_ne {k : String} (h : k ≠ key) :
    (s.setSlot key slot).slot k = s.slot k := Function.update_of_ne h ..

/-! ### Calls -/

/-- A call without a slot and a handle is allowed. -/
theorem Allowed.of_none (hsite : call.site = none) (hhandle : call.handle = none) :
    Allowed s t call := by
  refine ⟨fun key h => ?_, fun key h => ?_, fun key h => ?_, fun key db h => ?_⟩
  · cases hsite.symm.trans h
  · cases hsite.symm.trans (Call.site_of_writes h)
  · cases hsite.symm.trans (congrArg Call.site h)
  · cases hhandle.symm.trans h

theorem Allowed.of_handle (hhandle : call.handle = some (key, db))
    (hcurrent : (s.slot key).current = some db) : Allowed s t call := by
  refine ⟨fun k h => ?_, fun k h => ?_, fun k h => ?_, fun k d h => ?_⟩
  · cases hhandle.symm.trans (Call.handle_of_site h)
  · cases hhandle.symm.trans (Call.handle_of_site (Call.site_of_writes h))
  · cases hhandle.symm.trans (congrArg Call.handle h)
  · cases hhandle.symm.trans h
    exact hcurrent

theorem Allowed.of_site (hkey : key ∈ s.keys) (hsite : call.site = some key)
    (hwrites : call.writes = none) : Allowed s t call := by
  refine ⟨fun k h => ?_, fun k h => ?_, fun k h => ?_, fun k d h => ?_⟩
  · cases hsite.symm.trans h
    exact hkey
  · cases hwrites.symm.trans h
  · cases hwrites.symm.trans (congrArg Call.writes h)
  · cases (Call.handle_of_site hsite).symm.trans h

theorem Allowed.of_slot (h : Allowed s t call) (hslot : ∀ k, k ≠ key → s'.slot k = s.slot k)
    (hkeys : ∀ k ∈ s.keys, k ∈ s'.keys)
    (hwrites : call.writes = some key → (s'.slot key).writer = some t)
    (hopening : call = .opening key → (s'.slot key).current = none)
    (hhandle : ∀ db, call.handle = some (key, db) → (s'.slot key).current = some db) :
    Allowed s' t call := by
  refine ⟨fun k hk => hkeys k (h.site k hk), fun k hk => ?_, fun k hk => ?_, fun k d hk => ?_⟩
  all_goals
    by_cases heq : k = key
    · subst heq
      first | exact hwrites hk | exact hopening hk | exact hhandle d hk
    · rw [hslot k heq]
      first | exact h.writes k hk | exact h.opening k hk | exact h.handle k d hk

/-! ### Slots -/

/-- Locks and times do not matter. -/
theorem State.Sound.congr (h : s.Sound) (hkeys : s'.keys = s.keys) (hlog : s'.log = s.log)
    (hcount : s'.openCount = s.openCount)
    (hcurrent : ∀ k, (s'.slot k).current = (s.slot k).current) : s'.Sound := by
  refine ⟨?_, ?_, ?_, ?_, ?_, ?_⟩
  · rw [hkeys]
    exact h.nodup
  · intro k hk
    rw [hcurrent]
    exact h.absent k (hkeys ▸ hk)
  · rw [hlog]
    exact h.fresh
  · intro k d
    rw [hcurrent, State.IsOpen, hlog]
    exact h.current_iff k d
  · intro k
    rw [hcurrent, hlog]
    exact h.opens k
  · rw [hcount, h.openCount, State.holding, State.holding, hkeys]
    simp only [hcurrent]

/-- The counter follows the slot that changes. -/
theorem countP_succ {keys : List String} (hnodup : keys.Nodup) (hkey : key ∈ keys)
    {p q : String → Bool} (hp : p key = false) (hq : q key = true)
    (hother : ∀ k, k ≠ key → p k = q k) : keys.countP q = keys.countP p + 1 := by
  have hperm := List.perm_cons_erase hkey
  have hrest : (keys.erase key).countP q = (keys.erase key).countP p :=
    List.countP_congr fun k hk => by
      rw [hother k (hnodup.mem_erase_iff.mp hk).1]
  rw [hperm.countP_eq, hperm.countP_eq, List.countP_cons_of_pos hq,
    List.countP_cons_of_neg (by rw [hp]; decide), hrest]

/-- A new site has an empty slot. -/
theorem State.Sound.insert (h : s.Sound) : (s.insert key now).Sound := by
  rw [State.insert]
  split_ifs with hkey
  · exact h
  · have hcurrent : ∀ k, ((s.setSlot key (Slot.new now)).slot k).current = (s.slot k).current := by
      intro k
      by_cases hk : k = key
      · subst hk
        rw [State.setSlot_slot_self, h.absent k hkey]
        rfl
      · rw [State.setSlot_slot_ne hk]
    have hsound : (s.setSlot key (Slot.new now)).Sound := h.congr rfl rfl rfl hcurrent
    refine ⟨?_, ?_, hsound.fresh, hsound.current_iff, hsound.opens, ?_⟩
    · exact List.nodup_append.mpr ⟨h.nodup, List.nodup_singleton _, fun a ha b hb => by
        rw [List.mem_singleton.mp hb]
        exact fun heq => hkey (heq ▸ ha)⟩
    · exact fun k hk => hsound.absent k fun hmem => hk (List.mem_append_left _ hmem)
    · rw [State.holding]
      have hlast : ((s.setSlot key (Slot.new now)).slot key).current.isSome = false := by
        rw [State.setSlot_slot_self]
        rfl
      simp only [List.countP_append, List.countP_singleton, hlast]
      exact hsound.openCount

theorem State.Sound.of_event (h : s.Sound) {event : Event} (hkey : key ∈ s.keys)
    (hevent : event = .opened key db ∨ event = .closed key db) (hdb : db ≤ s.log.length)
    (hkeys : s'.keys = s.keys) (hother : ∀ k, k ≠ key → s'.slot k = s.slot k)
    (hlog : s'.log = s.log ++ [event])
    (hcurrent : ∀ d, (s'.slot key).current = some d ↔ s'.IsOpen key d)
    (hopens : s'.log.countP (Event.opens key) =
      s'.log.countP (Event.closes key) + if (s'.slot key).current.isSome then 1 else 0)
    (hcount : s'.openCount = s'.holding) : s'.Sound := by
  refine ⟨hkeys ▸ h.nodup, fun k hk => ?_, fun e he => ?_, fun k d => ?_, fun k => ?_, hcount⟩
  · rw [hkeys] at hk
    rw [hother k fun heq => hk (heq ▸ hkey)]
    exact h.absent k hk
  · rw [hlog, List.mem_append, List.mem_singleton] at he
    rw [hlog, List.length_append, List.length_singleton, Nat.lt_succ_iff]
    rcases he with hold | rfl
    · exact (h.fresh e hold).le
    · rcases hevent with rfl | rfl <;> exact hdb
  · by_cases hk : k = key
    · exact hk ▸ hcurrent d
    · have hne : ∀ e : Event, e = .opened k d ∨ e = .closed k d → (e ∈ s'.log ↔ e ∈ s.log) := by
        intro e he
        rw [hlog, List.mem_append, List.mem_singleton, or_iff_left]
        rintro rfl
        rcases hevent with rfl | rfl <;> rcases he with he | he <;> cases he <;> exact hk rfl
      rw [hother k hk, h.current_iff, State.IsOpen, State.IsOpen, hne _ (Or.inl rfl),
        hne _ (Or.inr rfl)]
  · by_cases hk : k = key
    · exact hk ▸ hopens
    · have hne : ¬key = k := fun heq => hk heq.symm
      rw [hother k hk, hlog, List.countP_append, List.countP_append, h.opens]
      rcases hevent with rfl | rfl <;> simp [Event.opens, Event.closes, hne]

/-- A file is opened for an empty slot. -/
theorem State.Sound.install (h : s.Sound) (hkey : key ∈ s.keys)
    (hnone : (s.slot key).current = none) : (s.install key now).Sound := by
  have hself : ((s.install key now).slot key).current = some s.log.length := by
    rw [State.install, State.setSlot_slot_self]
    rfl
  have hother : ∀ k, k ≠ key → (s.install key now).slot k = s.slot k := fun k hk =>
    State.setSlot_slot_ne hk
  have hlog : (s.install key now).log = s.log ++ [.opened key s.log.length] := rfl
  refine h.of_event hkey (Or.inl rfl) le_rfl rfl hother hlog (fun d => ?_) ?_ ?_
  · rw [State.IsOpen, hlog, hself, Option.some.injEq]
    constructor
    · rintro rfl
      refine ⟨List.mem_append_right _ (List.mem_singleton_self _), fun hmem => ?_⟩
      rcases List.mem_append.mp hmem with hold | hnew
      · exact (h.fresh _ hold).false
      · cases List.mem_singleton.mp hnew
    · rintro ⟨hopened, hclosed⟩
      rcases List.mem_append.mp hopened with hold | hnew
      · have hopen : s.IsOpen key d := ⟨hold, fun hmem => hclosed (List.mem_append_left _ hmem)⟩
        cases hnone.symm.trans ((h.current_iff key d).mpr hopen)
      · cases List.mem_singleton.mp hnew
        rfl
  · rw [hlog, List.countP_append, List.countP_append, h.opens, hself, hnone]
    simp [Event.opens, Event.closes]
  · have hcount : (s.install key now).holding = s.holding + 1 := by
      refine countP_succ h.nodup hkey ?_ ?_ fun k hk => ?_
      · rw [hnone]
        rfl
      · rw [hself]
        rfl
      · rw [hother k hk]
    rw [hcount, ← h.openCount]
    rfl

/-- What `close_if_idle` leaves of a slot with a database. -/
def State.closeSlot (s : State) (key : String) (db : ℕ) : State :=
  { s.emptySlot key with log := s.log ++ [.closed key db] }

/-- The file of a slot is closed. -/
theorem State.Sound.closeSlot (h : s.Sound) (hsome : (s.slot key).current = some db) :
    (s.closeSlot key db).Sound := by
  have hkey : key ∈ s.keys := by
    by_contra hkey
    cases hsome.symm.trans (h.absent key hkey)
  have hself : ((s.closeSlot key db).slot key).current = none := by
    rw [State.closeSlot, State.emptySlot, State.setSlot_slot_self]
  have hother : ∀ k, k ≠ key → (s.closeSlot key db).slot k = s.slot k := fun k hk =>
    State.setSlot_slot_ne hk
  have hlog : (s.closeSlot key db).log = s.log ++ [.closed key db] := rfl
  have hfresh := h.fresh _ ((h.current_iff key db).mp hsome).1
  refine h.of_event hkey (Or.inr rfl) hfresh.le rfl hother hlog (fun d => ?_) ?_ ?_
  · rw [State.IsOpen, hlog, hself]
    refine iff_of_false (by rintro ⟨⟩) ?_
    rintro ⟨hopened, hclosed⟩
    rcases List.mem_append.mp hopened with hold | hnew
    · have hopen : s.IsOpen key d := ⟨hold, fun hmem => hclosed (List.mem_append_left _ hmem)⟩
      cases hsome.symm.trans ((h.current_iff key d).mpr hopen)
      exact hclosed (List.mem_append_right _ (List.mem_singleton_self _))
    · cases List.mem_singleton.mp hnew
  · rw [hlog, List.countP_append, List.countP_append, h.opens, hself, hsome]
    simp [Event.opens, Event.closes]
  · have hcount : s.holding = (s.closeSlot key db).holding + 1 := by
      refine countP_succ h.nodup hkey ?_ ?_ fun k hk => ?_
      · rw [hself]
        rfl
      · rw [hsome]
        rfl
      · rw [hother k hk]
    have hbefore := h.openCount
    have hafter : (s.closeSlot key db).openCount = s.openCount - 1 := rfl
    omega

/-! ### Steps -/

namespace State.Inv

/-- A call goes on from a state that suits the others. -/
theorem goto_of (hsound : s'.Sound)
    (hothers : ∀ t' call', t' ≠ t → s'.calls[t']? = some call' → Allowed s' t' call')
    (hcall : Allowed s' t call) : (s'.goto t call).Inv := by
  refine ⟨hsound.congr rfl rfl rfl fun _ => rfl, fun t' call' hcall' => ?_⟩
  have hset : (s'.calls.set t call)[t']? = some call' := hcall'
  rw [List.getElem?_set] at hset
  have hkeep : Allowed s' t' call' := by
    split_ifs at hset with heq hlt
    · cases hset
      exact heq ▸ hcall
    · exact hothers t' call' (fun h => heq h.symm) hset
  exact ⟨hkeep.site, hkeep.writes, hkeep.opening, hkeep.handle⟩

theorem goto (h : s.Inv) (hcall : Allowed s t call) : (s.goto t call).Inv :=
  goto_of h.sound (fun t' call' _ => h.calls t' call') hcall

/-- A new call, or a copy of a handle. -/
theorem append (h : s.Inv) (hcall : ∀ t, Allowed s t call) :
    State.Inv { s with calls := s.calls ++ [call] } := by
  refine ⟨h.sound.congr rfl rfl rfl fun _ => rfl, fun t' call' hcall' => ?_⟩
  have hget : (s.calls ++ [call])[t']? = some call' := hcall'
  have hkeep : Allowed s t' call' := by
    rw [List.getElem?_append] at hget
    split_ifs at hget with hlt
    · exact h.calls t' call' hget
    · rw [List.mem_singleton.mp (List.mem_of_getElem? hget)]
      exact hcall t'
  exact ⟨hkeep.site, hkeep.writes, hkeep.opening, hkeep.handle⟩

/-- A call goes on and takes or gives back a lock, and the database stays in its slot. -/
theorem move (h : s.Inv) (hcurrent : slot.current = (s.slot key).current)
    (hwriter : slot.writer = (s.slot key).writer ∨ (s.slot key).writer = none ∨
      (s.slot key).writer = some t)
    (hcall : Allowed (s.setSlot key slot) t call) : ((s.setSlot key slot).goto t call).Inv := by
  have hslot : ∀ k, ((s.setSlot key slot).slot k).current = (s.slot k).current := by
    intro k
    by_cases hk : k = key
    · subst hk
      rw [setSlot_slot_self, hcurrent]
    · rw [setSlot_slot_ne hk]
  refine goto_of (h.sound.congr rfl rfl rfl hslot) (fun t' call' ht hcall' => ?_) hcall
  have hallowed := h.calls t' call' hcall'
  refine hallowed.of_slot (fun k hk => setSlot_slot_ne hk) (fun k hk => hk) ?_ ?_ ?_
  · intro hwrites
    have hold := hallowed.writes key hwrites
    rw [setSlot_slot_self]
    rcases hwriter with hsame | hnone | hmine
    · exact hsame.trans hold
    · cases hnone.symm.trans hold
    · exact absurd (Option.some.inj (hold.symm.trans hmine)) ht
  · intro hopening
    rw [hslot]
    exact hallowed.opening key hopening
  · intro db hhandle
    rw [hslot]
    exact hallowed.handle key db hhandle

theorem insert (h : s.Inv) : ((s.insert key now).goto t (.arrived key)).Inv := by
  have hmem : key ∈ (s.insert key now).keys := by
    rw [State.insert]
    split_ifs with hkey
    · exact hkey
    · exact List.mem_append_right _ (List.mem_singleton_self _)
  refine goto_of h.sound.insert (fun t' call' _ hcall' => ?_) (.of_site hmem rfl rfl)
  rw [State.insert] at hcall' ⊢
  split_ifs at hcall' ⊢ with hkey
  · exact h.calls t' call' hcall'
  · have hallowed := h.calls t' call' hcall'
    have hslot : ∀ k, k ≠ key → (s.setSlot key (Slot.new now)).slot k = s.slot k :=
      fun k hk => setSlot_slot_ne hk
    refine hallowed.of_slot hslot (fun k hk => List.mem_append_left _ hk) ?_ ?_ ?_
    · exact fun hwrites => absurd (hallowed.site key (Call.site_of_writes hwrites)) hkey
    · exact fun hopening => absurd (hallowed.site key (by rw [hopening]; rfl)) hkey
    · intro db hhandle
      cases (h.sound.absent key hkey).symm.trans (hallowed.handle key db hhandle)

theorem install (h : s.Inv) (hcall : s.calls[t]? = some (.opening key)) :
    ((s.install key now).goto t (.opened key s.log.length (s.openCount + 1))).Inv := by
  have hmine := h.calls t _ hcall
  have hnone := hmine.opening key rfl
  have hself : ((s.install key now).slot key).current = some s.log.length := by
    rw [State.install, setSlot_slot_self]
    rfl
  have hslot : ∀ k, k ≠ key → (s.install key now).slot k = s.slot k := fun k hk => setSlot_slot_ne hk
  refine goto_of (h.sound.install (hmine.site key rfl) hnone) (fun t' call' ht hcall' => ?_)
    (.of_handle rfl hself)
  have hallowed := h.calls t' call' hcall'
  have hwrites : call'.writes ≠ some key := fun hwrites =>
    ht (Option.some.inj ((hallowed.writes key hwrites).symm.trans (hmine.writes key rfl)))
  refine hallowed.of_slot hslot (fun k hk => hk) (fun h => absurd h hwrites) ?_ ?_
  · exact fun hopening => absurd (by rw [hopening]; rfl) hwrites
  · intro db hhandle
    cases hnone.symm.trans (hallowed.handle key db hhandle)

/-- The slot has one of the references to its database. -/
theorem strongCount_eq (h : s.Inv) (hcurrent : (s.slot key).current = some db) :
    s.strongCount db = (s.emptySlot key).strongCount db + 1 := by
  have hkey : key ∈ s.keys := by
    by_contra hkey
    cases hcurrent.symm.trans (h.sound.absent key hkey)
  have hself : ((s.emptySlot key).slot key).current = none := by
    rw [State.emptySlot, setSlot_slot_self]
  have hother : ∀ k, k ≠ key → (s.emptySlot key).slot k = s.slot k := fun k hk => setSlot_slot_ne hk
  have hcount := @countP_succ key s.keys h.sound.nodup hkey
    (fun k => ((s.emptySlot key).slot k).current = some db) (fun k => (s.slot k).current = some db)
    (by simp [hself]) (by simp [hcurrent]) (fun k hk => by simp only [hother k hk])
  rw [State.strongCount, hcount, Nat.add_right_comm]
  rfl

/-- What `close_if_idle` does: nothing, or it closes a database on which there is no handle. -/
theorem closeIfIdle_cases (h : s.Inv) (key : String) :
    s.closeIfIdle key = s ∨ ∃ db, (s.slot key).current = some db ∧
      (∀ call ∈ s.calls, ∀ k, call.handle ≠ some (k, db)) ∧
      s.closeIfIdle key = s.closeSlot key db := by
  rw [State.closeIfIdle]
  split_ifs with hfree
  · cases hcurrent : (s.slot key).current with
    | none => exact Or.inl rfl
    | some db =>
      by_cases hcount : s.strongCount db = 1
      · have hafter : (s.emptySlot key).strongCount db = 0 :=
          Nat.succ.inj ((h.strongCount_eq hcurrent).symm.trans hcount)
        simp only [hcount, if_true]
        refine Or.inr ⟨db, rfl, fun call hcall k hhandle => ?_, ?_⟩
        · have hnone := (Nat.add_eq_zero_iff.mp hafter).2
          have hholds := List.countP_eq_zero.mp hnone call hcall
          exact hholds (by simp [Call.holds, hhandle])
        · rw [State.release, if_pos hafter]
          rfl
      · simp only [hcount, if_false]
        exact Or.inl trivial
  · exact Or.inl rfl

theorem closeIfIdle (h : s.Inv) (key : String) : (s.closeIfIdle key).Inv := by
  rcases h.closeIfIdle_cases key with hsame | ⟨db, hcurrent, halone, hclose⟩
  · rw [hsame]
    exact h
  · rw [hclose]
    refine ⟨h.sound.closeSlot hcurrent, fun t call hcall => ?_⟩
    have hallowed := h.calls t call hcall
    have hslot : ∀ k, k ≠ key → (s.closeSlot key db).slot k = s.slot k :=
      fun k hk => setSlot_slot_ne hk
    refine hallowed.of_slot hslot (fun k hk => hk) (fun hwrites => ?_) (fun _ => ?_)
      fun d hhandle => ?_
    · rw [State.closeSlot, State.emptySlot, setSlot_slot_self]
      exact hallowed.writes key hwrites
    · rw [State.closeSlot, State.emptySlot, setSlot_slot_self]
    · have hd := Option.some.inj ((hallowed.handle key d hhandle).symm.trans hcurrent)
      exact absurd (hd ▸ hhandle) (halone call (List.mem_of_getElem? hcall) key)

/-- **A call goes on.** -/
theorem resume (h : s.Inv) {maxOpen : ℕ} (hcall : s.calls[t]? = some call) :
    (s.resume maxOpen t now call).Inv := by
  have hmine := h.calls t call hcall
  cases call with
  | started key =>
    rw [State.resume]
    split_ifs with hkey
    · exact h.goto (.of_site hkey rfl rfl)
    · exact h.goto (.of_none rfl rfl)
    · exact h.goto (.of_none rfl rfl)
  | inserting key => exact h.insert
  | arrived key =>
    simp only [State.resume]
    split_ifs
    · exact h.move rfl (Or.inl rfl) (.of_site (hmine.site key rfl) rfl rfl)
    · exact h
  | reading key =>
    simp only [State.resume]
    cases hcurrent : (s.slot key).current with
    | none =>
      refine h.move hcurrent.symm (Or.inl rfl) ?_
      split_ifs
      · exact .of_site (hmine.site key rfl) rfl rfl
      · exact .of_none rfl rfl
    | some db =>
      refine h.move hcurrent.symm (Or.inl rfl) (.of_handle rfl ?_)
      rw [setSlot_slot_self]
      rfl
  | missed key =>
    simp only [State.resume]
    split_ifs with hfree
    · have hnone : (s.slot key).writer = none := (of_decide_eq_true hfree).2
      refine h.move rfl (Or.inr (Or.inl hnone)) ⟨?_, ?_, ?_, ?_⟩
      · exact hmine.site
      · rintro k hk
        cases hk
        rw [setSlot_slot_self]
      · exact fun k hk => by cases hk
      · exact fun k d hk => by cases hk
    · exact h
  | writing key =>
    simp only [State.resume]
    have hwriter := hmine.writes key rfl
    cases hcurrent : (s.slot key).current with
    | none =>
      refine h.goto ⟨hmine.site, hmine.writes, fun k hk => ?_, fun k d hk => by cases hk⟩
      cases hk
      exact hcurrent
    | some db =>
      refine h.move hcurrent.symm (Or.inr (Or.inr hwriter)) (.of_handle rfl ?_)
      rw [setSlot_slot_self]
      rfl
  | opening key => exact h.install hcall
  | opened key db openNow =>
    have hcurrent := hmine.handle key db rfl
    rw [State.resume]
    split_ifs
    · exact h.goto (.of_handle rfl hcurrent)
    · exact h.goto (.of_handle rfl hcurrent)
  | scanning key db due seen found =>
    have hcurrent := hmine.handle key db rfl
    rw [State.resume]
    split_ifs
    · exact h.goto (.of_handle rfl hcurrent)
    · exact h
  | evicting key db candidates =>
    have hcurrent := hmine.handle key db rfl
    cases candidates with
    | nil => exact h.goto (.of_handle rfl hcurrent)
    | cons victim candidates =>
      rw [State.resume]
      split_ifs
      · exact h.goto (.of_handle rfl hcurrent)
      · exact h.goto (.of_handle rfl hcurrent)
  | trying key db victim candidates =>
    -- the call has a handle on its own database, which is not closed
    have hclosed := h.closeIfIdle victim
    have hstill : (s.closeIfIdle victim).calls[t]? = some (.trying key db victim candidates) := by
      rcases h.closeIfIdle_cases victim with hsame | ⟨_, -, -, hclose⟩
      · rw [hsame, hcall]
      · rw [hclose]
        exact hcall
    exact hclosed.goto (.of_handle rfl ((hclosed.calls t _ hstill).handle key db rfl))
  | returned key db => exact h
  | finished => exact h

theorem look (h : s.Inv) (hcall : s.calls[t]? = some call) : (s.look t key call).Inv := by
  cases call with
  | scanning protect db due seen found =>
    rw [State.look]
    split_ifs
    · exact h.goto (.of_handle rfl ((h.calls t _ hcall).handle protect db rfl))
    · exact h
  | _ => exact h

theorem abandon (h : s.Inv) (hcall : s.calls[t]? = some call) : (s.abandon t call).Inv := by
  cases call with
  | opening key =>
    exact h.move rfl (Or.inr (Or.inr ((h.calls t _ hcall).writes key rfl))) (.of_none rfl rfl)
  | started key => exact h.goto (.of_none rfl rfl)
  | arrived key => exact h.goto (.of_none rfl rfl)
  | missed key => exact h.goto (.of_none rfl rfl)
  | _ => exact h

/-- The last handle on a database does not close it: the slot still refers to it. -/
theorem drop (h : s.Inv) (hcall : s.calls[t]? = some (.returned key db)) :
    ((s.goto t .finished).release key db).Inv := by
  have hgoto : (s.goto t .finished).Inv := h.goto (.of_none rfl rfl)
  have hcount := hgoto.strongCount_eq ((h.calls t _ hcall).handle key db rfl)
  rw [State.release, if_neg (by omega)]
  exact hgoto

/-- **A step keeps the invariant.** -/
theorem step (h : s.Inv) (maxOpen : ℕ) (action : Action) : (step maxOpen s action).Inv := by
  cases action with
  | call key => exact h.append fun _ => .of_none rfl rfl
  | resume t now =>
    rw [SiteBackends.step]
    cases hcall : s.calls[t]? with
    | none => exact h
    | some call => exact h.resume hcall
  | look t key =>
    rw [SiteBackends.step]
    cases hcall : s.calls[t]? with
    | none => exact h
    | some call => exact h.look hcall
  | abandon t =>
    rw [SiteBackends.step]
    cases hcall : s.calls[t]? with
    | none => exact h
    | some call => exact h.abandon hcall
  | clone t =>
    rw [SiteBackends.step]
    split
    next key db hcall =>
      have hcurrent := (h.calls t _ hcall).handle key db rfl
      exact h.append fun _ => .of_handle rfl hcurrent
    next => exact h
  | drop t =>
    rw [SiteBackends.step]
    split
    next key db hcall => exact h.drop hcall
    next => exact h

end State.Inv

theorem init_inv : init.Inv where
  sound :=
    { nodup := List.nodup_nil
      absent := fun _ _ => rfl
      fresh := fun _ h => absurd h List.not_mem_nil
      current_iff := fun _ _ => iff_of_false (by rintro ⟨⟩) fun h => absurd h.1 List.not_mem_nil
      opens := fun _ => rfl
      openCount := rfl }
  calls := fun _ _ h => absurd (List.mem_of_getElem? h) List.not_mem_nil

/-- Whatever happens, in whatever order. -/
theorem run_inv (maxOpen : ℕ) (actions : List Action) : (run maxOpen actions).Inv := by
  induction actions using List.reverseRecOn with
  | nil => exact init_inv
  | append_singleton actions action ih =>
    rw [run, List.foldl_append]
    exact ih.step maxOpen action

/-! ## The registry is safe -/

/-- **The databases of the sites.**  Whatever the calls, in whatever order they go on:

* a site has at most one open database, at most one call opens it, and none does while it is open;
* a handle that was returned and not dropped is one on the open database in the slot of its site;
* a site was opened once, and once more for every time it was closed;
* the counter tells how many slots hold a database. -/
theorem registry_safe (maxOpen : ℕ) (actions : List Action) :
    let s := run maxOpen actions
    (∀ key db db', s.IsOpen key db → s.IsOpen key db' → db = db') ∧
      (∀ (key : String) (t t' : ℕ), s.calls[t]? = some (Call.opening key) →
        s.calls[t']? = some (Call.opening key) → t = t') ∧
      (∀ (key : String) (t db : ℕ), s.calls[t]? = some (Call.opening key) → ¬s.IsOpen key db) ∧
      (∀ (key : String) (t db : ℕ), s.calls[t]? = some (Call.returned key db) →
        (s.slot key).current = some db ∧ s.IsOpen key db) ∧
      (∀ key, s.log.countP (Event.opens key) =
        s.log.countP (Event.closes key) + if (s.slot key).current.isSome then 1 else 0) ∧
      s.openCount = s.holding := by
  intro s
  have h : s.Inv := run_inv maxOpen actions
  refine ⟨?_, ?_, ?_, ?_, h.sound.opens, h.sound.openCount⟩
  · intro key db db' hopen hopen'
    exact Option.some.inj (((h.sound.current_iff key db).mpr hopen).symm.trans
      ((h.sound.current_iff key db').mpr hopen'))
  · intro key t t' hcall hcall'
    exact Option.some.inj (((h.calls t _ hcall).writes key rfl).symm.trans
      ((h.calls t' _ hcall').writes key rfl))
  · intro key t db hcall hopen
    cases ((h.calls t _ hcall).opening key rfl).symm.trans ((h.sound.current_iff key db).mpr hopen)
  · intro key t db hcall
    have hcurrent := (h.calls t _ hcall).handle key db rfl
    exact ⟨hcurrent, (h.sound.current_iff key db).mp hcurrent⟩

-- one database may be open: the handle on the first is dropped, and it makes room for the second
example :
    let first := List.replicate 9 (Action.resume 0 1)
    let second := List.replicate 8 (Action.resume 1 2)
    let evict := [Action.look 1 "b", .look 1 "a", .resume 1 3, .resume 1 3, .resume 1 3]
    (run 1 ([[.call "a"], first, [.drop 0, .call "b"], second, evict].flatten)).log =
      [.opened "a" 0, .opened "b" 1, .closed "a" 0] := by decide +kernel

end Ephpm.Server.SiteBackends
