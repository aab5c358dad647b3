import ApiGateway.Http.Head

/-!
# Feeding the parser

`drive` is the loop of `Connection::try_parse_message`: it hands the buffered bytes to the
parser, then calls it again without input while it makes progress. `feedPieces` drives a parser
with the pieces of a stream until the request is decided.

On a stream whose head selects no chunked body, driving a parser runs the stream machine until it
settles (`drives_of_settles`). A machine settles in the same state however its input is cut, so
the outcome does not depend on the pieces. This is the main result,
`feed_split_independent`.
-/

namespace ApiGateway.Http

open Loop Search

/-- How `try_parse_message` leaves its loop. -/
inductive Verdict where
  | waiting
  | complete
  | failed
  deriving DecidableEq

namespace HttpParser

/-- The loop of `try_parse_message` over the parser and the read buffer, with a bound on its
passes and on those of the parser. -/
def drive : Nat → HttpParser → Bytes → Option (Verdict × HttpParser × Bytes)
  | 0, _, _ => none
  | fuel + 1, p, buf =>
      if buf = [] ∧ p.pending = [] then some (.waiting, p, buf)
      else do
        let parsed ← p.parse fuel buf
        let rest := buf.drop parsed.2
        if parsed.1.state = .error then some (.failed, parsed.1, rest)
        else if parsed.1.state = .complete then some (.complete, parsed.1, rest)
        else if parsed.2 = 0 then some (.waiting, parsed.1, rest)
        else drive fuel parsed.1 rest

/-- The loop returns with this verdict, parser and read buffer. -/
def Drives (p : HttpParser) (buf : Bytes) (result : Verdict × HttpParser × Bytes) : Prop :=
  ∃ fuel, drive fuel p buf = some result

variable {p q r t : HttpParser} {buf data : Bytes} {consumed : Nat}
  {result other : Verdict × HttpParser × Bytes}

/-! ## Rules of the loop -/

theorem parse_mono {fuel more : Nat} (hle : fuel ≤ more)
    (h : p.parse fuel data = some (q, consumed)) : p.parse more data = some (q, consumed) := by
  by_cases hstate : p.state = .error ∨ p.state = .complete
  · rw [parse, if_pos hstate] at h ⊢
    exact h
  · rw [parse, if_neg hstate] at h ⊢
    obtain ⟨r, hr, hrest⟩ := Option.bind_eq_some_iff.1 h
    exact Option.bind_eq_some_iff.2 ⟨r, run_mono hle hr, hrest⟩

/-- One pass of the loop. -/
theorem drive_pass {fuel : Nat} (hbusy : ¬ (buf = [] ∧ p.pending = []))
    (h : p.parse fuel buf = some (q, consumed)) :
    drive (fuel + 1) p buf =
      if q.state = .error then some (.failed, q, buf.drop consumed)
      else if q.state = .complete then some (.complete, q, buf.drop consumed)
      else if consumed = 0 then some (.waiting, q, buf.drop consumed)
      else drive fuel q (buf.drop consumed) := by
  rw [drive, if_neg hbusy, h]
  rfl

theorem drive_mono {fuel more : Nat} (hle : fuel ≤ more) (h : drive fuel p buf = some result) :
    drive more p buf = some result := by
  induction fuel generalizing p buf more with
  | zero => cases h
  | succ fuel ih =>
      obtain ⟨more, rfl⟩ : ∃ n, more = n + 1 := ⟨more - 1, by omega⟩
      by_cases hidle : buf = [] ∧ p.pending = []
      · rw [drive, if_pos hidle] at h ⊢
        exact h
      cases hparse : p.parse fuel buf with
      | none =>
          rw [drive, if_neg hidle, hparse] at h
          cases h
      | some parsed =>
          rw [drive_pass hidle hparse] at h
          rw [drive_pass hidle (parse_mono (by omega) hparse)]
          by_cases herror : parsed.1.state = .error
          · rw [if_pos herror] at h ⊢
            exact h
          rw [if_neg herror] at h ⊢
          by_cases hcomplete : parsed.1.state = .complete
          · rw [if_pos hcomplete] at h ⊢
            exact h
          rw [if_neg hcomplete] at h ⊢
          by_cases hconsumed : parsed.2 = 0
          · rw [if_pos hconsumed] at h ⊢
            exact h
          · rw [if_neg hconsumed] at h ⊢
            exact ih (by omega) h

/-- The loop has at most one result. -/
theorem Drives.unique (h : Drives p buf result) (hother : Drives p buf other) :
    result = other := by
  obtain ⟨fuel, hfuel⟩ := h
  obtain ⟨more, hmore⟩ := hother
  have hmax := drive_mono (Nat.le_max_left fuel more) hfuel
  exact Option.some.inj (hmax.symm.trans (drive_mono (Nat.le_max_right fuel more) hmore))

/-- Without input and pending bytes the loop does nothing. -/
theorem drives_idle (hpending : p.pending = []) : Drives p [] (.waiting, p, []) :=
  ⟨1, if_pos ⟨rfl, hpending⟩⟩

theorem drives_failed (hbusy : ¬ (buf = [] ∧ p.pending = [])) (h : Parses p buf q consumed)
    (hq : q.state = .error) : Drives p buf (.failed, q, buf.drop consumed) := by
  obtain ⟨fuel, hfuel⟩ := h
  exact ⟨fuel + 1, by rw [drive_pass hbusy hfuel, if_pos hq]⟩

theorem drives_complete (hbusy : ¬ (buf = [] ∧ p.pending = [])) (h : Parses p buf q consumed)
    (hq : q.state = .complete) : Drives p buf (.complete, q, buf.drop consumed) := by
  obtain ⟨fuel, hfuel⟩ := h
  exact ⟨fuel + 1, by rw [drive_pass hbusy hfuel, if_neg (by simp [hq]), if_pos hq]⟩

theorem drives_starved (hbusy : ¬ (buf = [] ∧ p.pending = [])) (h : Parses p buf q 0)
    (hq : q.state ≠ .error ∧ q.state ≠ .complete) : Drives p buf (.waiting, q, buf) := by
  obtain ⟨fuel, hfuel⟩ := h
  exact ⟨fuel + 1, by rw [drive_pass hbusy hfuel, if_neg hq.1, if_neg hq.2, if_pos rfl]; rfl⟩

theorem drives_again (hbusy : ¬ (buf = [] ∧ p.pending = [])) (h : Parses p buf q consumed)
    (hq : q.state ≠ .error ∧ q.state ≠ .complete) (hconsumed : consumed ≠ 0)
    (hrest : Drives q (buf.drop consumed) result) : Drives p buf result := by
  obtain ⟨fuel, hfuel⟩ := h
  obtain ⟨more, hmore⟩ := hrest
  refine ⟨max fuel more + 1, ?_⟩
  rw [drive_pass hbusy (parse_mono (Nat.le_max_left fuel more) hfuel), if_neg hq.1, if_neg hq.2,
    if_neg hconsumed]
  exact drive_mono (Nat.le_max_right fuel more) hmore

/-! ## What the loop keeps -/

theorem drop_reported (p : HttpParser) (data : Bytes) (r : HttpParser) :
    data.drop (reported p data r) = [] := by
  rw [List.drop_eq_nil_iff, reported]
  split <;> omega

/-- A call takes over its input, and the bytes it consumes are within the limit, unless it ends in
error. -/
theorem parses_spec (h : Parses p data q consumed)
    (hstate : p.state ≠ .error ∧ p.state ≠ .complete) :
    q.maxSize = p.maxSize ∧ (q.state ≠ .error →
      q.raw.length ≤ sizeT q.maxSize ∧ q.raw ++ q.pending = p.raw ++ p.pending ++ data ∧
        data.drop consumed = []) := by
  obtain ⟨r, hr, hresult⟩ := (parses_iff (by simp [hstate])).1 h
  have hconsumes := process_consumes hr
  simp only [parseResult] at hresult
  split at hresult
  · cases hresult
    exact ⟨hconsumes.1, fun hne => absurd rfl hne⟩
  · rename_i hlimit
    cases hresult
    refine ⟨hconsumes.1, fun _ => ⟨Nat.le_of_not_lt hlimit, ?_, drop_reported p data q⟩⟩
    rw [hconsumes.raw_append_pending, feed_raw, feed_pending, List.append_assoc]

/-- What holds of the parser when `try_parse_message` leaves its loop. -/
structure DriveSpec (p : HttpParser) (buf : Bytes) (v : Verdict) (q : HttpParser) (rest : Bytes) :
    Prop where
  framed : Framed q
  maxSize : q.maxSize = p.maxSize
  failed_iff : v = .failed ↔ q.state = .error
  complete_iff : v = .complete ↔ q.state = .complete
  limit : v ≠ .failed → q.raw.length ≤ sizeT q.maxSize
  bytes : v ≠ .failed → q.raw ++ q.pending ++ rest = p.raw ++ p.pending ++ buf
  rest_nil : v ≠ .failed → rest = []

theorem Drives.spec {v : Verdict} {rest : Bytes} (h : Drives p buf (v, q, rest)) (hp : Framed p)
    (hstate : p.state ≠ .error ∧ p.state ≠ .complete) (hlimit : p.raw.length ≤ sizeT p.maxSize) :
    DriveSpec p buf v q rest := by
  obtain ⟨fuel, hfuel⟩ := h
  induction fuel generalizing p buf with
  | zero => cases hfuel
  | succ fuel ih =>
      by_cases hidle : buf = [] ∧ p.pending = []
      · rw [drive, if_pos hidle] at hfuel
        cases hfuel
        exact ⟨hp, rfl, by simp [hstate], by simp [hstate], fun _ => hlimit, fun _ => rfl,
          fun _ => hidle.1⟩
      cases hparse : p.parse fuel buf with
      | none =>
          rw [drive, if_neg hidle, hparse] at hfuel
          cases hfuel
      | some parsed =>
          obtain ⟨r, consumed⟩ := parsed
          obtain ⟨hmax, hspec⟩ := parses_spec ⟨fuel, hparse⟩ hstate
          have hframed := parses_framed ⟨fuel, hparse⟩ hp
          rw [drive_pass hidle hparse] at hfuel
          by_cases herror : r.state = .error
          · rw [if_pos herror] at hfuel
            cases hfuel
            exact ⟨hframed, hmax, by simp [herror], by simp [herror], fun h => absurd rfl h,
              fun h => absurd rfl h, fun h => absurd rfl h⟩
          obtain ⟨hwithin, hbytes, hdrop⟩ := hspec herror
          rw [if_neg herror, hdrop] at hfuel
          have hbytes' : r.raw ++ r.pending ++ [] = p.raw ++ p.pending ++ buf := by
            rw [List.append_nil, hbytes]
          by_cases hcomplete : r.state = .complete
          · rw [if_pos hcomplete] at hfuel
            cases hfuel
            exact ⟨hframed, hmax, by simp [hcomplete], by simp [hcomplete], fun _ => hwithin,
              fun _ => hbytes', fun _ => rfl⟩
          rw [if_neg hcomplete] at hfuel
          by_cases hconsumed : consumed = 0
          · rw [if_pos hconsumed] at hfuel
            cases hfuel
            exact ⟨hframed, hmax, by simp [herror], by simp [hcomplete], fun _ => hwithin,
              fun _ => hbytes', fun _ => rfl⟩
          · rw [if_neg hconsumed] at hfuel
            have hrest := ih hframed ⟨herror, hcomplete⟩ hwithin hfuel
            exact ⟨hrest.framed, hrest.maxSize.trans hmax, hrest.failed_iff, hrest.complete_iff,
              hrest.limit, fun hv => (hrest.bytes hv).trans hbytes', hrest.rest_nil⟩

/-! ## Driving the machine -/

/-- No chunked body is reached. -/
def Plain (p : HttpParser) : Prop :=
  ∀ t, machine.Steps p t → t.state ≠ .chunkedBody

theorem Plain.steps (hp : Plain p) (h : machine.Steps p q) : Plain q :=
  fun t ht => hp t (h.trans ht)

/-- What driving a parser leads to, in terms of the state `t` in which the machine settles: the
limit is exceeded or the request is refused, or the loop ends in `t`. -/
inductive Ends (t : HttpParser) : Verdict × HttpParser × Bytes → Prop where
  | failed (q : HttpParser) (rest : Bytes) (hq : q.state = .error)
      (h : t.state = .error ∨ sizeT t.maxSize < t.raw.length) : Ends t (.failed, q, rest)
  | complete (hstate : t.state = .complete) (hlimit : t.raw.length ≤ sizeT t.maxSize) :
      Ends t (.complete, t, [])
  | waiting (herror : t.state ≠ .error) (hcomplete : t.state ≠ .complete)
      (hlimit : t.raw.length ≤ sizeT t.maxSize) : Ends t (.waiting, t, [])

/-- A settled parser without input stays as it is. -/
theorem drives_settled (hsettled : p.tick = none) (hplain : Plain p)
    (hstate : p.state ≠ .error ∧ p.state ≠ .complete)
    (hlimit : p.raw.length ≤ sizeT p.maxSize) : Drives p [] (.waiting, p, []) := by
  by_cases hpending : p.pending = []
  · exact drives_idle hpending
  obtain ⟨q, hreturns, hsteps, -⟩ := process_settles hplain
  have hsame : q = p := by
    rcases hsteps.cases_head with heq | ⟨t, ht, -⟩
    · exact heq.symm
    · rw [show machine.step p = none from hsettled] at ht
      cases ht
  rw [hsame] at hreturns
  refine drives_starved (by simp [hpending]) ?_ hstate
  have hparses : Parses p [] p (reported p [] p) :=
    parses_within (by simp [hstate]) (by rwa [feed_nil]) hlimit
  simpa [reported] using hparses

theorem eq_of_settles (h : machine.Settles p t) (hp : p.tick = none) : t = p :=
  h.unique ⟨.refl p, hp⟩

theorem tick_decided (h : p.state = .error ∨ p.state = .complete) : p.tick = none := by
  rcases h with h | h <;> simp [tick, h]

/-- Driving a parser runs the machine until it settles. -/
theorem drives_of_settles (hplain : Plain (p.feed buf))
    (hstate : p.state ≠ .error ∧ p.state ≠ .complete) (hlimit : p.raw.length ≤ sizeT p.maxSize)
    (hidle : buf = [] → p.pending = [] → p.tick = none) (ht : machine.Settles (p.feed buf) t) :
    ∃ result, Drives p buf result ∧ Ends t result := by
  induction hn : (p.feed buf).pending.length using Nat.strong_induction_on generalizing p buf with
  | _ n ih =>
      by_cases hbusy : buf = [] ∧ p.pending = []
      · obtain ⟨rfl, hpending⟩ := hbusy
        rw [feed_nil] at ht
        obtain rfl := eq_of_settles ht (hidle rfl hpending)
        exact ⟨_, drives_idle hpending, .waiting hstate.1 hstate.2 hlimit⟩
      obtain ⟨q, hreturns, hsteps, hcase⟩ := process_settles hplain
      have hqt := hsteps.settles_iff.1 ht
      obtain ⟨hmax, hraw⟩ : t.maxSize = q.maxSize ∧ q.raw.length ≤ t.raw.length :=
        ⟨(steps_consumes hqt.1).1, (steps_consumes hqt.1).raw_length_le⟩
      have hundecided : ¬ (p.state = .error ∨ p.state = .complete) := by simp [hstate]
      by_cases hover : sizeT q.maxSize < q.raw.length
      · have hparses := parses_over hundecided hreturns hover
        refine ⟨_, drives_failed hbusy hparses rfl, .failed _ _ rfl (Or.inr ?_)⟩
        rw [hmax]
        omega
      have hwithin := Nat.le_of_not_lt hover
      have hparses := parses_within hundecided hreturns hwithin
      have hrest := drop_reported p buf q
      by_cases hdecided : q.state = .error ∨ q.state = .complete
      · obtain rfl := eq_of_settles hqt (tick_decided hdecided)
        rcases hdecided with hq | hq
        · exact ⟨_, drives_failed hbusy hparses hq, .failed _ _ hq (Or.inl hq)⟩
        · refine ⟨_, drives_complete hbusy hparses hq, ?_⟩
          rw [hrest]
          exact .complete hq hwithin
      rw [not_or] at hdecided
      by_cases hsettled : q.tick = none
      · obtain rfl := eq_of_settles hqt hsettled
        refine ⟨_, ?_, .waiting hdecided.1 hdecided.2 hwithin⟩
        by_cases hconsumed : reported p buf t = 0
        · have hbuf : buf = [] := by
            by_contra hne
            have hpos := List.length_pos_iff.2 hne
            rw [reported, if_pos hpos] at hconsumed
            omega
          rw [hconsumed] at hparses
          subst hbuf
          exact drives_starved hbusy hparses hdecided
        · refine drives_again hbusy hparses hdecided hconsumed ?_
          rw [hrest]
          exact drives_settled hsettled (hplain.steps hsteps) hdecided hwithin
      · -- an empty line before the request line: the loop goes on without input
        obtain ⟨-, hq, hgrown⟩ := hcase.resolve_left hsettled
        have hshort : q.pending.length < (p.feed buf).pending.length := by
          have := congrArg List.length (steps_consumes hsteps).raw_append_pending
          simp only [List.length_append] at this
          omega
        have hidle' : q.pending = [] → q.tick = none := fun hnil => by
          simp [tick, hq, tickRequestLine, hnil]
        obtain ⟨result, hresult, hends⟩ := ih q.pending.length (by omega)
          (show Plain (q.feed []) by simpa using hplain.steps hsteps) hdecided hwithin
          (fun _ => hidle') (by simpa using hqt) (by simp)
        refine ⟨result, drives_again hbusy hparses hdecided ?_ (by rwa [hrest]), hends⟩
        rw [feed_raw] at hgrown
        rw [reported]
        split <;> omega

/-! ## Pieces -/

/-- Drive a parser with the pieces of a stream, until the request is decided. The result tells
what has not been given to the parser. -/
def feedPieces (fuel : Nat) :
    HttpParser → Bytes → List Bytes → Option (Verdict × HttpParser × Bytes)
  | p, left, [] => some (.waiting, p, left)
  | p, left, piece :: pieces => do
      let driven ← drive fuel p (left ++ piece)
      match driven with
      | (.waiting, q, rest) => feedPieces fuel q rest pieces
      | (.complete, q, rest) => some (.complete, q, rest ++ pieces.flatten)
      | (.failed, q, rest) => some (.failed, q, rest ++ pieces.flatten)

/-- Feeding the pieces returns, with this result. -/
def Feeds (p : HttpParser) (left : Bytes) (pieces : List Bytes)
    (result : Verdict × HttpParser × Bytes) : Prop :=
  ∃ fuel, feedPieces fuel p left pieces = some result

section Feeds

variable {left rest piece : Bytes} {pieces : List Bytes}

theorem feed_pieces_mono {fuel more : Nat} (hle : fuel ≤ more)
    (h : feedPieces fuel p left pieces = some result) :
    feedPieces more p left pieces = some result := by
  induction pieces generalizing p left with
  | nil => exact h
  | cons piece pieces ih =>
      obtain ⟨⟨v, q, rest⟩, hdrive, hrest⟩ := Option.bind_eq_some_iff.1 h
      refine Option.bind_eq_some_iff.2 ⟨(v, q, rest), drive_mono hle hdrive, ?_⟩
      cases v with
      | waiting => exact ih hrest
      | complete => exact hrest
      | failed => exact hrest

theorem Feeds.unique (h : Feeds p left pieces result) (hother : Feeds p left pieces other) :
    result = other := by
  obtain ⟨fuel, hfuel⟩ := h
  obtain ⟨more, hmore⟩ := hother
  have hmax := feed_pieces_mono (Nat.le_max_left fuel more) hfuel
  exact Option.some.inj (hmax.symm.trans (feed_pieces_mono (Nat.le_max_right fuel more) hmore))

theorem feeds_nil : Feeds p left [] (.waiting, p, left) :=
  ⟨0, rfl⟩

theorem feeds_failed (h : Drives p (left ++ piece) (.failed, q, rest)) :
    Feeds p left (piece :: pieces) (.failed, q, rest ++ pieces.flatten) := by
  obtain ⟨fuel, hfuel⟩ := h
  exact ⟨fuel, Option.bind_eq_some_iff.2 ⟨_, hfuel, rfl⟩⟩

theorem feeds_complete (h : Drives p (left ++ piece) (.complete, q, rest)) :
    Feeds p left (piece :: pieces) (.complete, q, rest ++ pieces.flatten) := by
  obtain ⟨fuel, hfuel⟩ := h
  exact ⟨fuel, Option.bind_eq_some_iff.2 ⟨_, hfuel, rfl⟩⟩

theorem feeds_waiting (h : Drives p (left ++ piece) (.waiting, q, rest))
    (hrest : Feeds q rest pieces result) : Feeds p left (piece :: pieces) result := by
  obtain ⟨fuel, hfuel⟩ := h
  obtain ⟨more, hmore⟩ := hrest
  refine ⟨max fuel more, Option.bind_eq_some_iff.2
    ⟨_, drive_mono (Nat.le_max_left fuel more) hfuel, ?_⟩⟩
  exact feed_pieces_mono (Nat.le_max_right fuel more) hmore

end Feeds

/-- What feeding a whole stream leads to, in terms of the state `t` in which the machine settles on
the stream. A complete request leaves the rest of the stream behind, in the parser or not yet
fed. -/
inductive FeedEnds (t : HttpParser) : Verdict × HttpParser × Bytes → Prop where
  | failed (q : HttpParser) (unfed : Bytes) (hq : q.state = .error)
      (h : t.state = .error ∨ sizeT t.maxSize < t.raw.length) : FeedEnds t (.failed, q, unfed)
  | complete (q : HttpParser) (unfed : Bytes) (hq : q.state = .complete) (ht : t.state = .complete)
      (hlimit : t.raw.length ≤ sizeT t.maxSize) (hraw : q.raw = t.raw)
      (hrequest : q.request = t.request) (hpending : q.pending ++ unfed = t.pending) :
      FeedEnds t (.complete, q, unfed)
  | waiting (herror : t.state ≠ .error) (hcomplete : t.state ≠ .complete)
      (hlimit : t.raw.length ≤ sizeT t.maxSize) : FeedEnds t (.waiting, t, [])

theorem Plain.of_feed (h : Plain (p.feed data)) : Plain p :=
  fun t ht => h (t.feed data) (ht.feed data)

/-- Feeding pieces runs the machine on their concatenation. -/
theorem feeds_of_settles {pieces : List Bytes} (hplain : Plain (p.feed pieces.flatten))
    (hstate : p.state ≠ .error ∧ p.state ≠ .complete) (hlimit : p.raw.length ≤ sizeT p.maxSize)
    (hp : p.tick = none) (ht : machine.Settles (p.feed pieces.flatten) t) :
    ∃ result, Feeds p [] pieces result ∧ FeedEnds t result := by
  induction pieces generalizing p with
  | nil =>
      rw [List.flatten_nil, feed_nil] at ht
      obtain rfl := eq_of_settles ht hp
      exact ⟨_, feeds_nil, .waiting hstate.1 hstate.2 hlimit⟩
  | cons piece pieces ih =>
      rw [List.flatten_cons, ← feed_feed] at ht hplain
      obtain ⟨t₁, ht₁⟩ := exists_settles (p.feed piece)
      have ht' : machine.Settles (t₁.feed pieces.flatten) t :=
        (StreamMachine.settles_feed_iff ht₁ pieces.flatten).1 ht
      obtain ⟨result, hdrives, hends⟩ :=
        drives_of_settles hplain.of_feed hstate hlimit (fun _ _ => hp) ht₁
      cases hends with
      | failed q rest hq hfail =>
          refine ⟨_, feeds_failed hdrives, .failed _ _ hq ?_⟩
          rcases hfail with herror | hover
          · rw [eq_of_settles ht' (tick_decided (Or.inl herror))]
            exact Or.inl herror
          · have hconsumes := steps_consumes ht'.1
            have hraw := hconsumes.raw_length_le
            rw [feed_raw] at hraw
            refine Or.inr ?_
            rw [hconsumes.1, feed_max_size]
            omega
      | complete hcomplete hwithin =>
          obtain rfl := eq_of_settles ht' (tick_decided (Or.inr hcomplete))
          exact ⟨_, feeds_complete hdrives, .complete _ _ hcomplete hcomplete hwithin rfl rfl rfl⟩
      | waiting herror hcomplete hwithin =>
          have hsteps : machine.Steps ((p.feed piece).feed pieces.flatten)
              (t₁.feed pieces.flatten) := ht₁.1.feed pieces.flatten
          obtain ⟨result, hfeeds, hends⟩ :=
            ih (hplain.steps hsteps) ⟨herror, hcomplete⟩ hwithin ht₁.2 ht'
          exact ⟨result, feeds_waiting hdrives hfeeds, hends⟩

/-- A stream whose head selects no chunked body leads to no chunked body. -/
theorem plain_of_head {maxSize : Int} {s : Bytes}
    (h : ∀ head : RequestHead, head.bytes <+: s → head.selectsChunked = false) :
    Plain ((fresh maxSize).feed s) := by
  intro t hsteps hstate
  have hbytes : t.raw ++ t.pending = s := (steps_consumes hsteps).raw_append_pending
  cases steps_framed hsteps ((framed_fresh maxSize).feed s) with
  | requestLine _ hs | headers _ hs | body _ _ hs | plainComplete _ _ hs
  | chunkedComplete _ _ hs | error hs => cases hstate.symm.trans hs
  | chunkedBody head content _ hraw _ hselects =>
      have hbegin : head.bytes <+: s := by
        rw [← hbytes, hraw, List.append_assoc]
        exact List.prefix_append _ _
      rw [h head hbegin] at hselects
      cases hselects

/-- Two parsers have come to the same result: both are in error, or both have completed the same
request, or both wait in the same state. -/
def SameOutcome (q r : HttpParser) : Prop :=
  q.state = .error ∧ r.state = .error ∨
  q.state = .complete ∧ r.state = .complete ∧ q.request = r.request ∧ q.raw = r.raw ∨
  (q.state ≠ .error ∧ q.state ≠ .complete) ∧ q.state = r.state ∧ q.request = r.request ∧
    q.raw = r.raw ∧ q.pending = r.pending

theorem FeedEnds.same_outcome (h : FeedEnds t result) (hother : FeedEnds t other) :
    SameOutcome result.2.1 other.2.1 := by
  cases h with
  | failed q _ hq h =>
      cases hother with
      | failed r _ hr => exact Or.inl ⟨hq, hr⟩
      | complete _ _ _ ht hlimit => exact absurd h (by simp [ht]; omega)
      | waiting herror _ hlimit => exact absurd h (by simp [herror]; omega)
  | complete q _ hq ht hlimit hraw hrequest =>
      cases hother with
      | failed _ _ _ h => exact absurd h (by simp [ht]; omega)
      | complete r _ hr _ _ hraw' hrequest' =>
          exact Or.inr (Or.inl ⟨hq, hr, hrequest.trans hrequest'.symm, hraw.trans hraw'.symm⟩)
      | waiting _ hcomplete => exact absurd ht hcomplete
  | waiting herror hcomplete hlimit =>
      cases hother with
      | failed _ _ _ h => exact absurd h (by simp [herror]; omega)
      | complete _ _ _ ht => exact absurd ht hcomplete
      | waiting => exact Or.inr (Or.inr ⟨⟨herror, hcomplete⟩, rfl, rfl, rfl, rfl⟩)

/-- A parser that is not in error holds the bytes it was given. -/
theorem FeedEnds.conserves (h : FeedEnds t result) (hne : result.2.1.state ≠ .error) :
    result.2.1.raw ++ result.2.1.pending ++ result.2.2 = t.raw ++ t.pending := by
  cases h with
  | failed _ _ hq => exact absurd hq hne
  | complete q _ _ _ _ hraw _ hpending => rw [List.append_assoc, hpending, hraw]
  | waiting => exact List.append_nil _

/-- For a stream whose head selects no chunked body, every way of cutting the stream into pieces
leads to the outcome of feeding it whole, and no byte is lost. -/
theorem feed_split_independent (maxSize : Int) (s : Bytes) (pieces : List Bytes)
    (hplain : ∀ head : RequestHead, head.bytes <+: s → head.selectsChunked = false)
    (hpieces : pieces.flatten = s) :
    (∃ whole, Feeds (fresh maxSize) [] [s] whole) ∧ (∃ cut, Feeds (fresh maxSize) [] pieces cut) ∧
      ∀ whole cut, Feeds (fresh maxSize) [] [s] whole → Feeds (fresh maxSize) [] pieces cut →
        SameOutcome whole.2.1 cut.2.1 ∧
        (whole.2.1.state ≠ .error → whole.2.1.raw ++ whole.2.1.pending ++ whole.2.2 = s) ∧
        (cut.2.1.state ≠ .error → cut.2.1.raw ++ cut.2.1.pending ++ cut.2.2 = s) := by
  obtain ⟨t, ht⟩ := exists_settles ((fresh maxSize).feed s)
  have hbytes : t.raw ++ t.pending = s := (steps_consumes ht.1).raw_append_pending
  -- Both ways are described by the state in which the machine settles on the stream.
  have hfeed : ∀ parts : List Bytes, parts.flatten = s →
      ∃ result, Feeds (fresh maxSize) [] parts result ∧ FeedEnds t result := by
    intro parts hparts
    refine feeds_of_settles (hparts ▸ plain_of_head hplain) (by simp [fresh]) (Nat.zero_le _) rfl ?_
    rw [hparts]
    exact ht
  obtain ⟨whole, hwhole, hends⟩ := hfeed [s] (by simp)
  obtain ⟨cut, hcut, hends'⟩ := hfeed pieces hpieces
  refine ⟨⟨whole, hwhole⟩, ⟨cut, hcut⟩, fun whole' cut' hwhole' hcut' => ?_⟩
  obtain rfl := hwhole'.unique hwhole
  obtain rfl := hcut'.unique hcut
  exact ⟨hends.same_outcome hends', fun hne => (hends.conserves hne).trans hbytes,
    fun hne => (hends'.conserves hne).trans hbytes⟩

/-- A request cut inside the line end of its request line. -/
theorem feed_split_get :
    ∃ cut, Feeds (fresh 65536) [] [ascii "GET / HTTP/1.1\r", ascii "\n\r\n"] cut ∧
      (cut.2.1.state ≠ .error →
        cut.2.1.raw ++ cut.2.1.pending ++ cut.2.2 = ascii "GET / HTTP/1.1\r\n\r\n") := by
  have hget :
      (⟨0, ascii "GET / HTTP/1.1", [], by decide, by decide, by simp⟩ : RequestHead).bytes <+:
      ascii "GET / HTTP/1.1\r\n\r\n" := by decide
  obtain ⟨⟨whole, hwhole⟩, ⟨cut, hcut⟩, hboth⟩ := feed_split_independent 65536
    (ascii "GET / HTTP/1.1\r\n\r\n") [ascii "GET / HTTP/1.1\r", ascii "\n\r\n"]
    (fun head hhead => by rw [RequestHead.eq_of_prefixes hhead hget]; decide) (by decide)
  exact ⟨cut, hcut, (hboth whole cut hwhole hcut).2.2⟩

end HttpParser

end ApiGateway.Http
