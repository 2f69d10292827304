import Ephpm.Resp.Decoder

/-!
# How the bytes arrive does not matter

A connection appends what it reads to the buffer and takes frames out of it until there is none.
Here it is shown that **the pieces in which a stream arrives do not matter**: the frames, what is
left in the buffer and the first error are those of the stream as a whole (`feed_pieces`).

The argument has two halves.  A turn that has come to something comes to the same when more bytes
follow (`turn_append`): only waiting can change.  And a decoder that waits has skipped nothing that
it would have to find: up to `resume` there is no end of line (`Safe`), so it goes on just as a
decoder that starts the element anew.
-/

namespace Ephpm.Resp

open Lib
open Ephpm.Kv (Bytes)

section Append

variable {buf : Bytes} (more : Bytes) {d : Decoder}

theorem isCrlf_append {i : ℕ} (h : i + 2 ≤ buf.length) :
    isCrlf (buf ++ more) i = isCrlf buf i := by
  rw [isCrlf, isCrlf, List.getElem?_append_left (by omega), List.getElem?_append_left (by omega)]

theorem findCrlf_append {resume start crlf : ℕ} (h : findCrlf buf resume start = some crlf) :
    findCrlf (buf ++ more) resume start = some crlf := by
  obtain ⟨hcrlf, hbounds, hfirst⟩ := firstFrom_eq_some.mp h
  have hlt := isCrlf_lt hcrlf
  refine firstFrom_eq_some.mpr ⟨?_, ⟨hbounds.1, ?_⟩, fun j hj hlow => ?_⟩
  · rwa [isCrlf_append more hlt]
  · rw [List.length_append]
    omega
  · rw [isCrlf_append more (by omega)]
    exact hfirst j hj hlow

/-- The length of the buffer matters to a payload that is not all there only. -/
theorem scanBody_longer {kind : UInt8} {line : Bytes} {crlf len len' : ℕ} (hle : len ≤ len')
    (h : ∀ resume, scanBody kind line crlf len ≠ .ok (.incomplete resume)) :
    scanBody kind line crlf len' = scanBody kind line crlf len := by
  simp only [scanBody] at h ⊢
  split
  · rfl
  split
  · rfl
  cases hn : parseLineInt line with
  | error e => rfl
  | ok n =>
    simp only [hn] at h ⊢
    split
    · rfl
    split
    · rfl
    split
    · split
      · rfl
      · by_cases hshort : len < crlf + 2 + n.toNat + 2
        · simp_all
        · rw [if_neg hshort, if_neg (by omega)]
    · rfl

theorem scanElement_append (h : ∀ resume, scanElement buf d ≠ .ok (.incomplete resume)) :
    scanElement (buf ++ more) d = scanElement buf d := by
  unfold scanElement at h ⊢
  cases hget : buf[d.pos]? with
  | none => exact absurd (by rw [hget]) (h d.resume)
  | some kind =>
    obtain ⟨hlt, -⟩ := List.getElem?_eq_some_iff.mp hget
    rw [List.getElem?_append_left hlt, hget]
    simp only [hget] at h ⊢
    split
    · rfl
    split
    · rfl
    cases hcrlf : findCrlf buf d.resume (d.pos + 1) with
    | none => simp_all
    | some crlf =>
      have hbounds := findCrlf_bounds hcrlf
      simp only [findCrlf_append more hcrlf]
      rw [List.take_append_of_le_length (by omega)]
      refine scanBody_longer (by simp) fun resume => ?_
      simp_all

theorem scanInline_append (h : scanInline buf 0 ≠ .ok none) :
    scanInline (buf ++ more) 0 = scanInline buf 0 := by
  unfold scanInline at h ⊢
  rw [Nat.zero_min] at h ⊢
  rw [Nat.zero_min]
  cases hnewline : firstFrom (fun i => buf[i]? == some 10) 0 buf.length with
  | none =>
    -- A line that is already too long stays so, wherever it ends.
    have hbig : maxInlineLen < buf.length := by
      by_contra hsmall
      simp [hnewline, hsmall] at h
    simp only [hbig, if_true]
    cases hlater : firstFrom (fun i => (buf ++ more)[i]? == some 10) 0 (buf ++ more).length with
    | none => simp only [List.length_append, show maxInlineLen < buf.length + more.length by omega, if_true]
    | some newline =>
      obtain ⟨hten, -, -⟩ := firstFrom_eq_some.mp hlater
      have hge : buf.length ≤ newline := by
        by_contra hlt
        rw [List.getElem?_append_left (by omega)] at hten
        rw [firstFrom_eq_none.mp hnewline newline (Nat.zero_le _) (by omega)] at hten
        cases hten
      simp only [show maxInlineLen < newline by omega, if_true]
  | some newline =>
    obtain ⟨hten, hbounds, hfirst⟩ := firstFrom_eq_some.mp hnewline
    have hlater : firstFrom (fun i => (buf ++ more)[i]? == some 10) 0 (buf ++ more).length =
        some newline := by
      refine firstFrom_eq_some.mpr ⟨?_, ⟨hbounds.1, ?_⟩, fun j hj hlow => ?_⟩
      · rwa [List.getElem?_append_left hbounds.2]
      · rw [List.length_append]
        omega
      · rw [List.getElem?_append_left (by omega)]
        exact hfirst j hj hlow
    simp only [hlater, List.take_append_of_le_length hbounds.2.le]

/-- A turn with more bytes behind it. -/
def Turn.append (more : Bytes) : Turn → Turn
  | .waits d => .waits d
  | .fails e => .fails e
  | .yields frame rest => .yields frame (rest ++ more)
  | .again buf d => .again (buf ++ more) d

theorem elementTurn_append (h : ∀ d', elementTurn buf d ≠ .waits d') :
    elementTurn (buf ++ more) d = (elementTurn buf d).append more := by
  have hscan : ∀ resume, scanElement buf d ≠ .ok (.incomplete resume) := by
    intro resume hscan
    refine h { d with resume := resume } ?_
    rw [elementTurn, hscan]
  unfold elementTurn
  rw [scanElement_append more hscan]
  cases hresult : scanElement buf d with
  | error e => rfl
  | ok scan =>
    cases scan with
    | incomplete resume => exact absurd hresult (hscan resume)
    | arrayStart count start => rfl
    | element spec stop =>
      have hbounds := scanElement_element hresult
      cases hdeliver : deliver d.stack spec with
      | inl stack => simp only [hdeliver, Turn.append]
      | inr spec =>
        simp only [hdeliver, Turn.append, List.take_append_of_le_length hbounds.2,
          List.drop_append_of_le_length hbounds.2]

theorem inlineTurn_append (hresume : d.resume = 0) (h : ∀ d', inlineTurn buf d ≠ .waits d') :
    inlineTurn (buf ++ more) d = (inlineTurn buf d).append more := by
  have hsome : buf.isEmpty = false := by
    by_contra hempty
    exact h d (by rw [inlineTurn, if_pos (by simpa using hempty)])
  have hscan : scanInline buf 0 ≠ .ok none := by
    intro hscan
    refine h { d with resume := buf.length } ?_
    simp [inlineTurn, hsome, hresume, hscan]
  have hsome' : (buf ++ more).isEmpty = false := by simp_all
  unfold inlineTurn
  rw [hsome, hsome', hresume, scanInline_append more hscan]
  simp only [Bool.false_eq_true, if_false]
  cases hresult : scanInline buf 0 with
  | error e => rfl
  | ok found =>
    cases found with
    | none => exact absurd hresult hscan
    | some found =>
      obtain ⟨args, stop⟩ := found
      have hbounds := scanInline_bounds hresult
      simp only [List.drop_append_of_le_length hbounds.2]
      split <;> rfl

theorem turn_nil (d : Decoder) : turn [] d = .waits d := by
  unfold turn
  split
  · rfl
  · rfl

/-- **What a turn has come to, it comes to when more follows.** -/
theorem turn_append (hrewound : d.resume = d.pos) (h : ∀ d', turn buf d ≠ .waits d') :
    turn (buf ++ more) d = (turn buf d).append more := by
  have hsome : buf ≠ [] := by
    rintro rfl
    exact h d (turn_nil d)
  have hsame : d.atInline (buf ++ more) = d.atInline buf := by
    rw [Decoder.atInline, Decoder.atInline, List.head?_append_of_ne_nil _ hsome]
  unfold turn at h ⊢
  rw [hsame]
  split
  next hinline =>
    have hpos : d.pos = 0 := Decoder.pos_of_atInline hinline
    exact inlineTurn_append more (hrewound.trans hpos) (by simpa [hinline] using h)
  next hinline => exact elementTurn_append more (by simpa [hinline] using h)

end Append

/-! ## A decoder that waits has skipped nothing -/

/-- Up to `resume` there is nothing to find: no line end for an element, and no newline for an
inline command.  Where nothing was looked at, `resume` is `pos`. -/
structure Safe (buf : Bytes) (d : Decoder) : Prop where
  atEnd : buf.length ≤ d.pos → d.resume = d.pos
  crlf : d.atInline buf = false → ∀ i, d.pos < i → i < d.resume →
    i + 2 ≤ buf.length ∧ isCrlf buf i = false
  newline : d.atInline buf = true → ∀ i < d.resume, i < buf.length ∧ (buf[i]? == some 10) = false

section Waiting

variable {buf : Bytes} {d d' : Decoder}

theorem Safe.append (safe : Safe buf d) (more : Bytes) : Safe (buf ++ more) d := by
  by_cases hnil : buf = []
  · -- Nothing has been looked at.
    have hresume : d.resume = d.pos := safe.atEnd (by simp [hnil])
    refine ⟨fun _ => hresume, fun _ i hlow hhigh => by omega, fun hinline i hi => ?_⟩
    simp only [Decoder.atInline, Bool.and_eq_true, beq_iff_eq] at hinline
    omega
  · have hsame : d.atInline (buf ++ more) = d.atInline buf := by
      rw [Decoder.atInline, Decoder.atInline, List.head?_append_of_ne_nil _ hnil]
    refine ⟨fun hend => safe.atEnd ?_, fun hinline i hlow hhigh => ?_, fun hinline i hi => ?_⟩
    · rw [List.length_append] at hend
      omega
    · obtain ⟨hlt, hcrlf⟩ := safe.crlf (hsame ▸ hinline) i hlow hhigh
      exact ⟨by rw [List.length_append]; omega, by rw [isCrlf_append more hlt, hcrlf]⟩
    · obtain ⟨hlt, hten⟩ := safe.newline (hsame ▸ hinline) i hi
      exact ⟨by rw [List.length_append]; omega, by rw [List.getElem?_append_left hlt, hten]⟩

/-- The decoder at the start of its element. -/
def Decoder.rewound (d : Decoder) : Decoder := { d with resume := d.pos }

theorem Decoder.rewound_eq_self (h : d.resume = d.pos) : d.rewound = d := by
  cases d
  simp_all [Decoder.rewound]

/-- A search may start where there was nothing to find before. -/
theorem firstFrom_skip {test : ℕ → Bool} {start start' len : ℕ} (hle : start ≤ start')
    (hnone : ∀ i, start ≤ i → i < start' → test i = false) :
    firstFrom test start' len = firstFrom test start len := by
  cases h : firstFrom test start len with
  | none =>
    rw [firstFrom_eq_none] at h ⊢
    exact fun j hj hlen => h j (by omega) hlen
  | some i =>
    rw [firstFrom_eq_some] at h ⊢
    obtain ⟨htest, hbounds, hfirst⟩ := h
    have hge : start' ≤ i := by
      by_contra hlt
      rw [hnone i hbounds.1 (by omega)] at htest
      cases htest
    exact ⟨htest, ⟨hge, hbounds.2⟩, fun j hj hlow => hfirst j (by omega) hlow⟩

theorem Safe.scanElement_eq (safe : Safe buf d) (hinline : d.atInline buf = false) :
    scanElement buf d = scanElement buf d.rewound := by
  have hfind : findCrlf buf d.resume (d.pos + 1) = findCrlf buf d.pos (d.pos + 1) := by
    refine (firstFrom_skip (by omega) fun i hlow hhigh => ?_)
    exact (safe.crlf hinline i (by omega) (by omega)).2
  unfold scanElement Decoder.rewound
  rw [hfind]
  cases hget : buf[d.pos]? with
  | none => rw [safe.atEnd (List.getElem?_eq_none_iff.mp hget)]
  | some kind => rfl

theorem Safe.scanInline_eq (safe : Safe buf d) (hinline : d.atInline buf = true) :
    scanInline buf d.resume = scanInline buf 0 := by
  have hle : d.resume ≤ buf.length := by
    by_contra hlt
    have := (safe.newline hinline buf.length (by omega)).1
    omega
  unfold scanInline
  rw [min_eq_left hle, Nat.zero_min, firstFrom_skip (Nat.zero_le _) fun i _ hi =>
    (safe.newline hinline i hi).2]

/-- **A safe decoder goes on as if it started the element anew.** -/
theorem Safe.turn_eq (safe : Safe buf d) : turn buf d = turn buf d.rewound := by
  have hsame : d.rewound.atInline buf = d.atInline buf := rfl
  unfold turn
  rw [hsame]
  split
  next hinline =>
    have hpos : d.rewound.resume = 0 := Decoder.pos_of_atInline hinline
    unfold inlineTurn
    rw [hpos, safe.scanInline_eq hinline]
    split
    next hempty =>
      have hresume : d.resume = d.pos := safe.atEnd (by simp_all)
      rw [Decoder.rewound_eq_self hresume]
    next =>
      cases scanInline buf 0 with
      | error e => rfl
      | ok found => cases found <;> rfl
  next hinline =>
    unfold elementTurn
    rw [safe.scanElement_eq (by simpa using hinline)]
    cases scanElement buf d.rewound with
    | error e => rfl
    | ok scan => cases scan <;> rfl

/-- **A decoder that was told to wait is safe**, and has not moved. -/
theorem Safe.of_waits (hrewound : d.resume = d.pos) (h : turn buf d = .waits d') :
    Safe buf d' ∧ d'.rewound = d := by
  have hself : ∀ resume, ({ d with resume := resume } : Decoder).rewound = d := fun _ =>
    Decoder.rewound_eq_self hrewound
  unfold turn at h
  split at h
  next hinline =>
    have hpos := Decoder.pos_of_atInline hinline
    unfold inlineTurn at h
    split at h
    next hempty =>
      obtain rfl := Turn.waits.inj h
      refine ⟨⟨fun _ => hrewound, fun _ i hlow hhigh => by omega, fun _ i hi => by omega⟩, hself _⟩
    next hsome =>
      split at h
      · cases h
      next hscan =>
        obtain rfl := Turn.waits.inj h
        have hpositive : buf.length ≠ 0 := by simpa using hsome
        refine ⟨⟨fun hend => ?_, fun hno => ?_, fun _ i hi => ⟨hi, ?_⟩⟩, hself _⟩
        · simp only at hend
          omega
        · exact absurd (hinline.symm.trans hno) (by decide)
        · unfold scanInline at hscan
          rw [hrewound, hpos, Nat.zero_min] at hscan
          split at hscan
          next hnewline => exact firstFrom_eq_none.mp hnewline i (Nat.zero_le _) hi
          · split at hscan
            · cases hscan
            · split at hscan <;> cases hscan
      · split at h <;> cases h
  next hinline =>
    unfold elementTurn at h
    split at h
    · cases h
    next resume hscan =>
      obtain rfl := Turn.waits.inj h
      refine ⟨⟨fun hend => ?_, fun _ i hlow hhigh => ?_, fun hyes => absurd hyes hinline⟩, hself _⟩
      all_goals simp only at *
      · obtain ⟨-, hscan⟩ | ⟨hlt, -, -⟩ | ⟨crlf, hlt, -, -⟩ := scanElement_cases hscan
        · injection hscan with hresume
          omega
        · omega
        · omega
      · obtain ⟨-, hscan⟩ | ⟨-, hnone, hscan⟩ | ⟨crlf, -, hcrlf, hscan⟩ := scanElement_cases hscan
        · injection hscan with hresume
          omega
        · injection hscan with hresume
          refine ⟨by omega, firstFrom_eq_none.mp hnone i (by omega) (by omega)⟩
        · obtain ⟨htest, hbounds, hfirst⟩ := firstFrom_eq_some.mp hcrlf
          have hresume : resume = crlf := hscan
          have hlt := isCrlf_lt htest
          exact ⟨by omega, hfirst i (by omega) (by omega)⟩
    · cases h
    · split at h <;> cases h

theorem decode_congr (h : turn buf d = turn buf d') : decode buf d = decode buf d' := by
  cases hturn : turn buf d' with
  | waits d₁ => rw [decode_waits hturn, decode_waits (h.trans hturn)]
  | fails e => rw [decode_fails hturn, decode_fails (h.trans hturn)]
  | yields frame rest => rw [decode_yields hturn, decode_yields (h.trans hturn)]
  | again buf' d₁ => rw [decode_again hturn, decode_again (h.trans hturn)]

/-- Going on with more bytes. -/
def Decoded.goOn (more : Bytes) : Decoded → Decoded
  | .waits buf d => decode (buf ++ more) d
  | .fails e => .fails e
  | .yields frame rest => .yields frame (rest ++ more)

/-- **Decoding goes on where it had to wait**, as if all the bytes had been there. -/
theorem decode_append (more : Bytes) (hrewound : d.resume = d.pos) :
    decode (buf ++ more) d = (decode buf d).goOn more := by
  induction hn : buf.length - d.pos using Nat.strong_induction_on generalizing buf d with
  | _ n ih =>
    cases hturn : turn buf d with
    | waits d' =>
      obtain ⟨safe, hself⟩ := Safe.of_waits hrewound hturn
      rw [decode_waits hturn, Decoded.goOn]
      refine decode_congr ?_
      rw [(safe.append more).turn_eq, hself]
    | fails e =>
      have hmore := @turn_append buf more d hrewound (by simp [hturn])
      rw [hturn] at hmore
      rw [decode_fails hturn, decode_fails hmore]
      rfl
    | yields frame rest =>
      have hmore := @turn_append buf more d hrewound (by simp [hturn])
      rw [hturn] at hmore
      rw [decode_yields hturn, decode_yields hmore]
      rfl
    | again buf' d' =>
      have hmore := @turn_append buf more d hrewound (by simp [hturn])
      rw [hturn] at hmore
      have hlt := turn_again_lt hturn
      rw [decode_again hturn, decode_again hmore]
      exact ih _ (by omega) (turn_again_cases hturn).1 rfl

theorem decode_yields_lt {frame : Frame} {rest : Bytes} (h : decode buf d = .yields frame rest) :
    rest.length < buf.length := by
  induction hn : buf.length - d.pos using Nat.strong_induction_on generalizing buf d with
  | _ n ih =>
    cases hturn : turn buf d with
    | waits d' => cases (decode_waits hturn).symm.trans h
    | fails e => cases (decode_fails hturn).symm.trans h
    | yields frame' rest' =>
      rw [decode_yields hturn] at h
      obtain ⟨rfl, rfl⟩ := Decoded.yields.inj h
      obtain ⟨stop, hpos, hle, rfl⟩ := turn_yields_cases hturn
      rw [List.length_drop]
      omega
    | again buf' d' =>
      have hlt := turn_again_lt hturn
      rw [decode_again hturn] at h
      have hless := ih _ (by omega) h rfl
      obtain ⟨-, -, ⟨-, -, -, stop, -, -, rfl⟩ | ⟨rfl, -⟩⟩ := turn_again_cases hturn
      · rw [List.length_drop] at hless
        omega
      · exact hless

end Waiting

/-! ## The connection -/

/-- A connection waits for more bytes, or has met an error. -/
inductive Status where
  | waiting (buf : Bytes) (d : Decoder)
  | failed (e : ParseError)

/-- What has come of the bytes so far: the frames, in order, and where decoding stands. -/
structure Session where
  frames : List Frame
  status : Status

section Session

variable (inline : Bool)

/-- Call `decode` until it returns no frame. -/
def drain (buf : Bytes) (d : Decoder) : Session :=
  match _h : decode buf d with
  | .waits buf d => ⟨[], .waiting buf d⟩
  | .fails e => ⟨[], .failed e⟩
  | .yields frame rest =>
    let later := drain rest (Decoder.fresh inline)
    ⟨frame :: later.frames, later.status⟩
termination_by buf.length
decreasing_by exact decode_yields_lt _h

/-- A new connection. -/
def Session.start : Session := ⟨[], .waiting [] (Decoder.fresh inline)⟩

/-- Append a piece to the buffer and take out the frames.  After an error nothing is read. -/
def Session.feed (s : Session) (piece : Bytes) : Session :=
  match s.status with
  | .waiting buf d =>
    let later := drain inline (buf ++ piece) d
    ⟨s.frames ++ later.frames, later.status⟩
  | .failed _ => s

theorem drain_waits {buf buf' : Bytes} {d d' : Decoder} (h : decode buf d = .waits buf' d') :
    drain inline buf d = ⟨[], .waiting buf' d'⟩ := by
  rw [drain]
  split <;> simp_all

theorem drain_fails {buf : Bytes} {d : Decoder} {e : ParseError} (h : decode buf d = .fails e) :
    drain inline buf d = ⟨[], .failed e⟩ := by
  rw [drain]
  split <;> simp_all

theorem drain_yields {buf rest : Bytes} {d : Decoder} {frame : Frame}
    (h : decode buf d = .yields frame rest) :
    drain inline buf d = ⟨frame :: (drain inline rest (Decoder.fresh inline)).frames,
      (drain inline rest (Decoder.fresh inline)).status⟩ := by
  rw [drain]
  split <;> simp_all

theorem drain_congr {buf buf' : Bytes} {d d' : Decoder} (h : decode buf d = decode buf' d') :
    drain inline buf d = drain inline buf' d' := by
  cases hdecode : decode buf' d' with
  | waits _ _ => rw [drain_waits inline hdecode, drain_waits inline (h.trans hdecode)]
  | fails _ => rw [drain_fails inline hdecode, drain_fails inline (h.trans hdecode)]
  | yields _ _ => rw [drain_yields inline hdecode, drain_yields inline (h.trans hdecode)]

/-- **Taking frames out goes on where it had to wait.** -/
theorem drain_append (buf more : Bytes) {d : Decoder} (hrewound : d.resume = d.pos) :
    drain inline (buf ++ more) d = (drain inline buf d).feed inline more := by
  induction hn : buf.length using Nat.strong_induction_on generalizing buf d with
  | _ n ih =>
    have hmore := @decode_append buf d more hrewound
    cases hdecode : decode buf d with
    | waits buf' d' =>
      rw [hdecode] at hmore
      rw [drain_waits inline hdecode, drain_congr inline hmore]
      rfl
    | fails e =>
      rw [hdecode] at hmore
      rw [drain_fails inline hdecode, drain_fails inline hmore]
      rfl
    | yields frame rest =>
      rw [hdecode] at hmore
      have hlt := decode_yields_lt hdecode
      have hrest := ih rest.length (by omega) rest (d := Decoder.fresh inline) rfl rfl
      rw [drain_yields inline hdecode, drain_yields inline hmore, hrest]
      obtain ⟨frames, status⟩ := drain inline rest (Decoder.fresh inline)
      cases status <;> rfl

/-- **How the bytes arrive does not matter.**  Whatever the pieces of a stream, the frames, what is
left in the buffer and the first error are those of the stream in one piece. -/
theorem feed_pieces (pieces : List Bytes) :
    pieces.foldl (Session.feed inline) (Session.start inline) =
      (Session.start inline).feed inline pieces.flatten := by
  have hstart (stream : Bytes) :
      (Session.start inline).feed inline stream = drain inline stream (Decoder.fresh inline) := rfl
  -- From what a stream has come to, each piece leads to what the longer stream comes to.
  have hfrom (stream : Bytes) : pieces.foldl (Session.feed inline)
      (drain inline stream (Decoder.fresh inline)) =
        drain inline (stream ++ pieces.flatten) (Decoder.fresh inline) := by
    induction pieces generalizing stream with
    | nil => rw [List.foldl_nil, List.flatten_nil, List.append_nil]
    | cons piece pieces ih =>
      rw [List.foldl_cons, ← drain_append inline stream piece rfl, ih, List.flatten_cons,
        List.append_assoc]
  have hempty : Session.start inline = drain inline [] (Decoder.fresh inline) :=
    (drain_waits inline (decode_waits (turn_nil _))).symm
  rw [hstart]
  conv_lhs => rw [hempty]
  exact hfrom []

end Session

end Ephpm.Resp
