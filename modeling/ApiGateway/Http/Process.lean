import ApiGateway.Http.Step

/-!
# The processors as machine steps

Each processor of `HttpParser` other than `process_chunked` performs steps of the stream machine.
`process_settles` is the specification of the dispatch loop on inputs that never select a
chunked body: `process` returns, it has performed machine steps, and it stops early only after
a leading empty line.
-/

namespace ApiGateway.Http.HttpParser

open Loop Search

variable {p q r : HttpParser}

/-! ## Single steps -/

theorem tick_consumes (h : p.tick = some q) : Consumes p q := by
  unfold tick at h
  cases hstate : p.state with
  | requestLine =>
      simp only [hstate, tickRequestLine] at h
      split at h
      · cases h
      · cases h
        exact process_request_line_consumes p
  | headers =>
      simp only [hstate, tickHeaders] at h
      split at h
      · cases h
      · cases h
        exact (consume_partial_consumes p 2).trans (finalize_headers_consumes _)
      · rename_i line _ _
        cases h
        exact consume_partial_consumes p (line.length + 2)
  | body =>
      simp only [hstate, tickBody] at h
      split at h
      · cases h
        exact .of_eq rfl rfl rfl
      · split at h
        · cases h
          exact assign_body_consumes p
        · split at h
          · cases h
          · cases h
            exact read_body_consumes p 1
  | chunkedBody | complete | error => simp [hstate] at h

theorem steps_consumes (h : machine.Steps p q) : Consumes p q :=
  h.invariant (Consumes p) (fun _ _ hp hstep => hp.trans (tick_consumes hstep)) (.refl p)

/-- How far the states are from a completed request. -/
def State.rank : State → Nat
  | .requestLine => 3
  | .headers => 2
  | .body => 1
  | .chunkedBody | .complete | .error => 0

/-- What is left to be read. -/
def work (p : HttpParser) : Nat :=
  p.pending.length + State.rank p.state

theorem finalize_headers_chunked (h : (p.isChunked || selectsChunked p.request.headers) = true) :
    p.finalizeHeaders = { p with
      isChunked := true, state := .chunkedBody, chunkPhase := .sizeLine,
      currentChunkSize := 0, currentChunkRead := 0 } := by
  simp only [finalizeHeaders, h, if_true]

theorem finalize_headers_plain (h : ¬ (p.isChunked || selectsChunked p.request.headers) = true) :
    p.finalizeHeaders.state ≠ .chunkedBody := by
  simp only [finalizeHeaders, if_neg h]
  split <;> simp

theorem finalize_headers_state (p : HttpParser) :
    p.finalizeHeaders.state = .chunkedBody ∨
      (p.finalizeHeaders.state = .body ∧ 0 < p.finalizeHeaders.contentLength ∧
        p.finalizeHeaders.bodyRead = 0) ∨
      p.finalizeHeaders.state = .complete := by
  by_cases hchunked : (p.isChunked || selectsChunked p.request.headers) = true
  · simp [finalizeHeaders, hchunked]
  · by_cases hlength : 0 < headerContentLength p.request.headers p.contentLength <;>
      simp [finalizeHeaders, hchunked, hlength]

theorem finalize_headers_work_le (p : HttpParser) :
    p.finalizeHeaders.work ≤ p.pending.length + 1 := by
  have hpending : p.finalizeHeaders.pending = p.pending := by
    by_cases hchunked : (p.isChunked || selectsChunked p.request.headers) = true
    · simp [finalizeHeaders, hchunked]
    · by_cases hlength : 0 < headerContentLength p.request.headers p.contentLength <;>
        simp [finalizeHeaders, hchunked, hlength]
  rcases finalize_headers_state p with h | ⟨h, -, -⟩ | h <;> simp [work, h, hpending, State.rank]

theorem process_request_line_work_lt {line : Bytes} (hstate : p.state = .requestLine)
    (h : extractLine p.pending = some line) : p.processRequestLine.work < p.work := by
  have hlen := extract_line_length h
  by_cases hblank : line = []
  · subst hblank
    simp only [processRequestLine, h, if_true, consumeLine, work, consume_partial_pending_length]
    simp only [consumePartial]
    omega
  · cases hparsed : (parseRequestLine line p.request).1
    · simp [processRequestLine, h, hblank, hparsed, work, hstate, State.rank]
    · simp only [processRequestLine, h, hblank, hparsed, if_false, work, hstate, State.rank,
        Bool.not_true, Bool.false_eq_true, consumeLine, consume_partial_pending_length]
      omega

theorem read_body_state (p : HttpParser) (count : Nat) :
    (p.readBody count).state = .complete ∨ (p.readBody count).state = p.state := by
  simp only [readBody]
  split
  · exact Or.inl rfl
  · exact Or.inr rfl

theorem read_body_pending (p : HttpParser) (count : Nat) :
    (p.readBody count).pending = p.pending.drop count := by
  simp only [readBody, assignBody]
  split
  · split <;> rfl
  · rfl

/-- Every element that is read reduces what is left. -/
theorem tick_work_lt (h : p.tick = some q) : q.work < p.work := by
  unfold tick at h
  cases hstate : p.state with
  | requestLine =>
      simp only [hstate, tickRequestLine] at h
      split at h
      · cases h
      · rename_i line hline
        cases h
        exact process_request_line_work_lt hstate hline
  | headers =>
      simp only [hstate, tickHeaders] at h
      split at h
      · cases h
      · rename_i hline
        cases h
        have hlen := extract_line_length hline
        have hwork := finalize_headers_work_le (p.consumePartial 2)
        simp only [consume_partial_pending_length] at hwork
        simp only [work, hstate, State.rank, List.length_nil] at *
        omega
      · rename_i line _ hline
        cases h
        have hlen := extract_line_length hline
        simp only [takeHeaderLine, consumeLine, work, consume_partial_pending_length]
        simp only [consumePartial]
        omega
  | body =>
      simp only [hstate, tickBody] at h
      split at h
      · cases h
        simp [work, hstate, State.rank]
      · split at h
        · cases h
          have hpending : p.assignBody.pending = p.pending := by
            simp only [assignBody]
            split <;> rfl
          simp [work, hstate, State.rank, hpending]
        · split at h
          · cases h
          · rename_i hpending
            cases h
            have hlen := List.length_pos_iff.2 hpending
            rcases read_body_state p 1 with hs | hs <;>
              simp only [work, hs, hstate, State.rank, read_body_pending, List.length_drop] <;>
              omega
  | chunkedBody | complete | error => simp [hstate] at h

theorem exists_settles (p : HttpParser) : ∃ q, machine.Settles p q :=
  StreamMachine.exists_settles work (fun _ _ h => tick_work_lt h) p

/-! ## Processors -/

/-- `process_headers` reads header lines until it has to wait or the head ends. -/
theorem process_headers_steps (hstate : p.state = .headers) :
    machine.Steps p p.processHeaders ∧
      (p.processHeaders.state = .headers ∧ p.processHeaders.tick = none ∨
        (p.processHeaders.state = .body ∧ 0 < p.processHeaders.contentLength ∧
          p.processHeaders.bodyRead = 0) ∨
        p.processHeaders.state = .chunkedBody ∨ p.processHeaders.state = .complete) := by
  refine (returns_total headers_iter_decreasing p).relates
    (fun s t => s.state = .headers → machine.Steps s t ∧
      (t.state = .headers ∧ t.tick = none ∨
        (t.state = .body ∧ 0 < t.contentLength ∧ t.bodyRead = 0) ∨
        t.state = .chunkedBody ∨ t.state = .complete)) ?_ ?_ hstate
  · intro s t u hbody ih hs
    rw [headers_iter_eq] at hbody
    split at hbody
    · cases hbody
    · cases hbody
    · rename_i line hne hline
      cases hbody
      obtain ⟨hsteps, hlast⟩ := ih hs
      have hstep : machine.step s = some (s.takeHeaderLine line) := by
        show s.tick = _
        simp only [tick, hs, tickHeaders, hline]
      exact ⟨(StreamMachine.Steps.single hstep).trans hsteps, hlast⟩
  · intro s t hbody hs
    rw [headers_iter_eq] at hbody
    split at hbody
    · rename_i hline
      cases hbody
      exact ⟨.refl s, Or.inl ⟨hs, by simp only [tick, hs, tickHeaders, hline]⟩⟩
    · rename_i hline
      cases hbody
      have hstep : machine.step s = some (s.consumePartial 2).finalizeHeaders := by
        show s.tick = _
        simp only [tick, hs, tickHeaders, hline]
      refine ⟨.single hstep, ?_⟩
      rcases finalize_headers_state (s.consumePartial 2) with h | ⟨h, hlength, hread⟩ | h
      · exact Or.inr (Or.inr (Or.inl h))
      · exact Or.inr (Or.inl ⟨h, hlength, hread⟩)
      · exact Or.inr (Or.inr (Or.inr h))
    · cases hbody

/-- Bytes of a body may be read one by one. -/
theorem read_body_steps {count : Nat} (hstate : p.state = .body) (hpos : 0 < p.contentLength)
    (hread : p.bodyRead < p.contentLength.toNat) (hcount : count ≤ p.pending.length)
    (hle : p.bodyRead + count ≤ p.contentLength.toNat) :
    machine.Steps p (p.readBody count) := by
  induction count generalizing p with
  | zero =>
      have : p.readBody 0 = p := by
        simp [readBody, consumePartial, Nat.not_le.2 hread, -Int.toNat_le]
      rw [this]
      exact .refl p
  | succ n ih =>
      have hpending : p.pending ≠ [] := List.length_pos_iff.1 (by omega)
      have hstep : machine.step p = some (p.readBody 1) := by
        show p.tick = _
        simp only [tick, hstate, tickBody]
        rw [if_neg (by omega), if_neg (by omega), if_neg hpending]
      -- the last byte of the body completes the request; before it the state stays
      by_cases hlast : p.contentLength.toNat ≤ p.bodyRead + 1
      · obtain rfl : n = 0 := by omega
        exact .single hstep
      · have hone : p.readBody 1 =
            { p.consumePartial 1 with bodyRead := p.bodyRead + 1 } := by
          simp [readBody, hlast, -Int.toNat_le]
        have hrest : p.readBody (n + 1) = (p.readBody 1).readBody n := by
          rw [hone]
          simp only [readBody, consumePartial, List.append_assoc, List.drop_drop]
          rw [← List.take_add, Nat.add_comm 1 n, Nat.add_assoc p.bodyRead 1 n, Nat.add_comm 1 n]
        rw [hrest]
        refine (StreamMachine.Steps.single hstep).trans (ih ?_ ?_ ?_ ?_ ?_)
        · rw [hone]
          exact hstate
        · rw [hone]
          exact hpos
        · rw [hone]
          show p.bodyRead + 1 < p.contentLength.toNat
          omega
        · rw [hone]
          show n ≤ (p.pending.drop 1).length
          rw [List.length_drop]
          omega
        · rw [hone]
          show p.bodyRead + 1 + n ≤ p.contentLength.toNat
          omega

/-- `process_body` completes the request or reads all pending bytes. -/
theorem process_body_steps (hstate : p.state = .body) :
    machine.Steps p p.processBody ∧
      (p.processBody.state = .complete ∨
        p.processBody.state = .body ∧ p.processBody.pending = [] ∧ p.processBody.tick = none) := by
  by_cases hpos : p.contentLength ≤ 0
  · have h : p.processBody = { p with state := .complete } := by simp [processBody, hpos]
    rw [h]
    refine ⟨.single ?_, Or.inl rfl⟩
    show p.tick = _
    simp [tick, hstate, tickBody, hpos]
  by_cases hread : p.contentLength.toNat - p.bodyRead = 0
  · have h : p.processBody = { p.assignBody with state := .complete } := by
      simp only [processBody, if_neg hpos, if_pos hread]
    rw [h]
    refine ⟨.single ?_, Or.inl rfl⟩
    show p.tick = _
    simp only [tick, hstate, tickBody, if_neg hpos, if_pos hread]
  · have h : p.processBody =
        p.readBody (min p.pending.length (p.contentLength.toNat - p.bodyRead)) := by
      simp only [processBody, if_neg hpos, if_neg hread]
    rw [h]
    refine ⟨read_body_steps hstate (by omega) (by omega) (Nat.min_le_left _ _) (by omega), ?_⟩
    by_cases hall : p.contentLength.toNat - p.bodyRead ≤ p.pending.length
    · left
      rw [Nat.min_eq_right hall]
      simp only [readBody]
      rw [if_pos (by omega)]
    · right
      rw [Nat.min_eq_left (by omega)]
      have hwait : p.readBody p.pending.length =
          { p.consumePartial p.pending.length with bodyRead := p.bodyRead + p.pending.length } := by
        simp only [readBody]
        rw [if_neg (by omega)]
      have hpending : (p.readBody p.pending.length).pending = [] := by
        rw [read_body_pending, List.drop_length]
      refine ⟨by rw [hwait]; exact hstate, hpending, ?_⟩
      rw [hwait] at hpending ⊢
      simp only [tick, consumePartial, hstate, tickBody, List.drop_length] at hpending ⊢
      rw [if_neg hpos, if_neg (by omega), if_pos trivial]

/-! ## The dispatch loop -/

theorem process_iter_finished (h : p.state = .complete ∨ p.state = .error) :
    p.processIter = .done p := by
  rcases h with h | h <;> simp [processIter, h]

/-- The loop goes on from the state `q` that a processor has reached. -/
theorem after_switch_finished (h : q.state = .complete ∨ q.state = .error) :
    q.afterSwitch = .next q := by
  rcases h with h | h <;> simp [afterSwitch, h]

/-- A loop that goes on from a finished state returns it. -/
theorem returns_of_finished (hbody : p.processIter = q.afterSwitch)
    (h : q.state = .complete ∨ q.state = .error) : Returns processIter p q :=
  (returns_next_iff (hbody.trans (after_switch_finished h))).2 (.of_done (process_iter_finished h))

/-- The first line of a request in the state `RequestLine`. -/
theorem process_request_line_steps (hstate : p.state = .requestLine) :
    machine.Steps p p.processRequestLine ∧
      (p.processRequestLine.tick = none ∧ p.processRequestLine = p ∨
        p.processRequestLine.state = .requestLine ∧
          p.raw.length < p.processRequestLine.raw.length ∨
        p.processRequestLine.state = .headers ∨ p.processRequestLine.state = .error) := by
  cases hline : extractLine p.pending with
  | none =>
      have h : p.processRequestLine = p := by simp [processRequestLine, hline]
      rw [h]
      exact ⟨.refl p, Or.inl ⟨by simp [tick, hstate, tickRequestLine, hline], rfl⟩⟩
  | some line =>
      have hlen := extract_line_length hline
      have hstep : machine.step p = some p.processRequestLine := by
        show p.tick = _
        simp only [tick, hstate, tickRequestLine, hline]
      refine ⟨.single hstep, Or.inr ?_⟩
      by_cases hblank : line = []
      · subst hblank
        left
        have h : p.processRequestLine = p.consumePartial 2 := by
          simp [processRequestLine, hline, consumeLine]
        rw [h]
        refine ⟨hstate, ?_⟩
        simp only [consumePartial, List.length_append, List.length_take]
        simp only [List.length_nil] at hlen
        omega
      · right
        cases hparsed : (parseRequestLine line p.request).1 <;>
          simp [processRequestLine, hline, hblank, hparsed]

/-- A body is read whole, or as far as it has arrived. -/
theorem process_settles_body (hstate : p.state = .body) :
    Returns processIter p p.processBody ∧ machine.Settles p p.processBody := by
  obtain ⟨hsteps, hcases⟩ := process_body_steps hstate
  have hiter : p.processIter = p.processBody.afterSwitch := by simp [processIter, hstate]
  rcases hcases with hs | ⟨hs, hpending, htick⟩
  · exact ⟨returns_of_finished hiter (Or.inl hs), hsteps, by simp [machine, tick, hs]⟩
  · exact ⟨.of_done (by simp [hiter, afterSwitch, hs, hpending]), hsteps, htick⟩

/-- A head that selects no chunked body is read, and the body after it. -/
theorem process_settles_headers (hstate : p.state = .headers)
    (hplain : p.processHeaders.state ≠ .chunkedBody) :
    ∃ q, Returns processIter p q ∧ machine.Settles p q := by
  obtain ⟨hsteps, hcases⟩ := process_headers_steps hstate
  have hiter : p.processIter = p.processHeaders.afterSwitch := by simp [processIter, hstate]
  rcases hcases with ⟨hs, htick⟩ | ⟨hs, hlength, hread⟩ | hs | hs
  · exact ⟨_, .of_done (by simp [hiter, afterSwitch, hs]), hsteps, htick⟩
  · by_cases hpending : p.processHeaders.pending = []
    · refine ⟨_, .of_done (by simp [hiter, afterSwitch, hs, hpending]), hsteps, ?_⟩
      show p.processHeaders.tick = none
      simp only [tick, hs, tickBody]
      rw [if_neg (by omega), if_neg (by omega), if_pos hpending]
    · obtain ⟨hreturns, hsettles⟩ := process_settles_body hs
      have hnext : p.processIter = .next p.processHeaders := by
        simp [hiter, afterSwitch, hs, hpending]
      exact ⟨_, (returns_next_iff hnext).2 hreturns, hsteps.settles_iff.2 hsettles⟩
  · exact absurd hs hplain
  · exact ⟨_, returns_of_finished hiter (Or.inl hs), hsteps, by simp [machine, tick, hs]⟩

/-- Where no chunked body is selected, `process` returns. It has performed machine steps, and
it stops before it has to wait only after an empty line before the request line. -/
theorem process_settles (hplain : ∀ t, machine.Steps p t → t.state ≠ .chunkedBody) :
    ∃ q, Returns processIter p q ∧ machine.Steps p q ∧
      (q.tick = none ∨
        p.state = .requestLine ∧ q.state = .requestLine ∧ p.raw.length < q.raw.length) := by
  cases hstate : p.state with
  | complete =>
      exact ⟨p, .of_done (process_iter_finished (Or.inl hstate)), .refl p,
        Or.inl (by simp [tick, hstate])⟩
  | error =>
      exact ⟨p, .of_done (process_iter_finished (Or.inr hstate)), .refl p,
        Or.inl (by simp [tick, hstate])⟩
  | chunkedBody => exact absurd hstate (hplain p (.refl p))
  | body =>
      obtain ⟨hreturns, hsteps, htick⟩ := process_settles_body hstate
      exact ⟨_, hreturns, hsteps, Or.inl htick⟩
  | headers =>
      obtain ⟨q, hreturns, hsteps, htick⟩ :=
        process_settles_headers hstate (hplain _ (process_headers_steps hstate).1)
      exact ⟨q, hreturns, hsteps, Or.inl htick⟩
  | requestLine =>
      obtain ⟨hsteps, hcases⟩ := process_request_line_steps hstate
      have hiter : p.processRequestLine.state ≠ .headers →
          p.processIter = p.processRequestLine.afterSwitch := fun h => by
        simp [processIter, hstate, h]
      rcases hcases with ⟨htick, heq⟩ | ⟨hs, hraw⟩ | hs | hs
      · refine ⟨p, .of_done ?_, .refl p, Or.inl (heq ▸ htick)⟩
        rw [hiter (by rw [heq, hstate]; decide), heq]
        simp [afterSwitch, hstate]
      · refine ⟨_, .of_done ?_, hsteps, Or.inr ⟨rfl, hs, hraw⟩⟩
        rw [hiter (by rw [hs]; decide)]
        simp [afterSwitch, hs]
      · have hnext : p.processIter = .next p.processRequestLine := by
          simp [processIter, hstate, hs]
        obtain ⟨q, hreturns, hrest, htick⟩ := process_settles_headers hs
          (hplain _ (hsteps.trans (process_headers_steps hs).1))
        exact ⟨q, (returns_next_iff hnext).2 hreturns, hsteps.trans hrest, Or.inl htick⟩
      · refine ⟨_, returns_of_finished (hiter (by rw [hs]; decide)) (Or.inr hs), hsteps, ?_⟩
        exact Or.inl (by simp [tick, hs])

theorem after_switch_cases (p : HttpParser) :
    p.afterSwitch = .done p ∨ p.afterSwitch = .next p := by
  simp only [afterSwitch]
  split
  · exact Or.inl rfl
  · split
    · exact Or.inl rfl
    · exact Or.inr rfl

/-- A pass of the dispatch loop runs one processor. -/
theorem process_iter_cases (p : HttpParser) :
    ∃ q, (p.processIter = .done q ∨ p.processIter = .next q) ∧
      (machine.Steps p q ∨ p.state = .chunkedBody ∧ q = p.processChunked) := by
  cases hstate : p.state with
  | complete => exact ⟨p, Or.inl (process_iter_finished (Or.inl hstate)), Or.inl (.refl p)⟩
  | error => exact ⟨p, Or.inl (process_iter_finished (Or.inr hstate)), Or.inl (.refl p)⟩
  | requestLine =>
      refine ⟨p.processRequestLine, ?_, Or.inl (process_request_line_steps hstate).1⟩
      simp only [processIter, hstate]
      split
      · exact Or.inr rfl
      · exact after_switch_cases _
  | headers =>
      refine ⟨p.processHeaders, ?_, Or.inl (process_headers_steps hstate).1⟩
      simpa only [processIter, hstate] using after_switch_cases p.processHeaders
  | body =>
      refine ⟨p.processBody, ?_, Or.inl (process_body_steps hstate).1⟩
      simpa only [processIter, hstate] using after_switch_cases p.processBody
  | chunkedBody =>
      refine ⟨p.processChunked, ?_, Or.inr ⟨rfl, rfl⟩⟩
      simpa only [processIter, hstate] using after_switch_cases p.processChunked

/-- The invariant rule for the dispatch loop: a property kept by the elements of plain requests
and by `process_chunked` is kept by `process`. -/
theorem process_invariant (inv : HttpParser → Prop)
    (htick : ∀ s t, inv s → s.tick = some t → inv t)
    (hchunked : ∀ s, s.state = .chunkedBody → inv s → inv s.processChunked)
    (h : Returns processIter p q) (hp : inv p) : inv q := by
  have hpass : ∀ s, inv s → ∃ t, (s.processIter = .done t ∨ s.processIter = .next t) ∧ inv t := by
    intro s hs
    obtain ⟨t, hiter, hsteps | ⟨hstate, rfl⟩⟩ := process_iter_cases s
    · exact ⟨t, hiter, hsteps.invariant inv htick hs⟩
    · exact ⟨_, hiter, hchunked s hstate hs⟩
  refine h.invariant inv inv ?_ ?_ hp
  · intro s t hs hbody
    obtain ⟨u, hiter | hiter, hu⟩ := hpass s hs
    · cases hiter.symm.trans hbody
    · cases hiter.symm.trans hbody
      exact hu
  · intro s t hs hbody
    obtain ⟨u, hiter | hiter, hu⟩ := hpass s hs
    · cases hiter.symm.trans hbody
      exact hu
    · cases hiter.symm.trans hbody

/-! ## The entry point -/

/-- The number of bytes that `parse` reports, once `process` has returned `r`. -/
def reported (p : HttpParser) (data : Bytes) (r : HttpParser) : Nat :=
  if 0 < data.length then data.length else r.raw.length - p.raw.length

/-- The end of `parse`, once `process` has returned `r`. -/
def parseResult (p : HttpParser) (data : Bytes) (r : HttpParser) : HttpParser × Nat :=
  if sizeT r.maxSize < r.raw.length then ({ r with state := .error }, 0)
  else (r, reported p data r)

/-- A call with a decided request returns at once. -/
theorem parses_of_decided (h : p.state = .error ∨ p.state = .complete) (data : Bytes) :
    Parses p data p 0 :=
  ⟨0, if_pos h⟩

/-- A call returns what `process` leads to. -/
theorem parses_iff {data : Bytes} {consumed : Nat}
    (hstate : ¬ (p.state = .error ∨ p.state = .complete)) :
    Parses p data q consumed ↔
      ∃ r, Returns processIter (p.feed data) r ∧ (q, consumed) = parseResult p data r := by
  have hparse : ∀ fuel, p.parse fuel data =
      (process fuel (p.feed data)).map (parseResult p data) := by
    intro fuel
    refine (if_neg hstate).trans ?_
    cases process fuel (p.feed data) with
    | none => rfl
    | some r =>
        show (if !r.checkSizeLimit.1 then some (r.checkSizeLimit.2, 0)
          else if 0 < data.length then some (r, data.length)
          else some (r, r.raw.length - p.raw.length)) = some (parseResult p data r)
        by_cases hlimit : sizeT r.maxSize < r.raw.length
        · rw [check_size_limit_over hlimit, parseResult, if_pos hlimit]
          rfl
        · rw [check_size_limit_within (Nat.le_of_not_lt hlimit), parseResult, if_neg hlimit]
          by_cases hdata : 0 < data.length <;> simp [hdata, reported]
  constructor
  · intro ⟨fuel, hfuel⟩
    rw [hparse, Option.map_eq_some_iff] at hfuel
    obtain ⟨r, hr, hresult⟩ := hfuel
    exact ⟨r, ⟨fuel, hr⟩, hresult.symm⟩
  · intro ⟨r, ⟨fuel, hr⟩, hresult⟩
    refine ⟨fuel, ?_⟩
    rw [hparse, show process fuel (p.feed data) = some r from hr, hresult]
    rfl

theorem parses_over {data : Bytes} (hstate : ¬ (p.state = .error ∨ p.state = .complete))
    (h : Returns processIter (p.feed data) r) (hover : sizeT r.maxSize < r.raw.length) :
    Parses p data { r with state := .error } 0 :=
  (parses_iff hstate).2 ⟨r, h, (if_pos hover).symm⟩

theorem parses_within {data : Bytes} (hstate : ¬ (p.state = .error ∨ p.state = .complete))
    (h : Returns processIter (p.feed data) r) (hlimit : r.raw.length ≤ sizeT r.maxSize) :
    Parses p data r (reported p data r) :=
  (parses_iff hstate).2 ⟨r, h, (if_neg (Nat.not_lt.2 hlimit)).symm⟩

theorem exists_parses_iff (hstate : ¬ (p.state = .error ∨ p.state = .complete)) (data : Bytes) :
    (∃ q consumed, Parses p data q consumed) ↔ ∃ r, Returns processIter (p.feed data) r := by
  constructor
  · intro ⟨q, consumed, h⟩
    obtain ⟨r, hr, -⟩ := (parses_iff hstate).1 h
    exact ⟨r, hr⟩
  · intro ⟨r, hr⟩
    exact ⟨_, _, (parses_iff hstate).2 ⟨r, hr, rfl⟩⟩

end ApiGateway.Http.HttpParser
