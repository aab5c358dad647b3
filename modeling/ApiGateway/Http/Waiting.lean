import ApiGateway.Http.Driver
import ApiGateway.Http.Termination

/-!
# Where the parser waits

`try_parse_message` waits for input only where the pending bytes are the start of an unfinished
line of the head, or where nothing is pending at all (`Waits`). A message that is found after it has
waited goes beyond all bytes that the parser held before (`Drives.advances`), so nothing that has
waited is left over behind a message.

A line is the bytes before a line end and has no carriage return of its own: `extract_line` looks
only at the first carriage return, and a line in which no line feed follows it is never finished.
-/

namespace ApiGateway.Http

/-- No line ends in these bytes: a first carriage return in them is not followed by a line feed. -/
def Unended (data : Bytes) : Prop :=
  ∀ line rest, cr ∉ line → data ≠ line ++ crlf ++ rest

theorem extract_line_eq_none_iff {data : Bytes} : extractLine data = none ↔ Unended data := by
  constructor
  · intro h line rest hline hdata
    rw [hdata, extract_line_append hline] at h
    cases h
  · intro h
    cases hline : extractLine data with
    | none => rfl
    | some line =>
        obtain ⟨hmem, rest, hdata⟩ := extract_line_eq_some_iff.1 hline
        exact absurd hdata (h line rest hmem)

/-- A line that has not arrived yet ends behind all bytes that have. -/
theorem Unended.length_le {data more line : Bytes} (h : Unended data)
    (hline : extractLine (data ++ more) = some line) : data.length ≤ line.length + 2 := by
  obtain ⟨hmem, rest, hdata⟩ := extract_line_eq_some_iff.1 hline
  by_contra hlong
  have hle : (line ++ crlf).length ≤ data.length := by
    simp only [List.length_append, show crlf.length = 2 from rfl]
    omega
  have hpre : line ++ crlf <+: data :=
    List.prefix_of_prefix_length_le ⟨rest, hdata.symm⟩ ⟨more, rfl⟩ hle
  obtain ⟨tail, htail⟩ := hpre
  exact h line tail hmem htail.symm

namespace HttpParser

open Loop

variable {p q r t : HttpParser} {data buf : Bytes}

/-! ## Where `process` returns -/

/-- The parser cannot go on without input. -/
structure Waits (p : HttpParser) : Prop where
  unended : Unended p.pending
  drained : p.state ≠ .requestLine → p.state ≠ .headers → p.pending = []

theorem waits_of_drained (hpending : p.pending = []) : Waits p := by
  refine ⟨?_, fun _ _ => hpending⟩
  rw [hpending]
  exact extract_line_eq_none_iff.1 extract_line_nil

/-- The tests after the `switch` leave the loop only where it has to wait. -/
theorem after_switch_done (h : q.afterSwitch = .done r) :
    r = q ∧ (q.state = .requestLine ∨ q.state = .headers ∨
      (q.state = .body ∨ q.state = .chunkedBody) ∧ q.pending = []) := by
  unfold afterSwitch at h
  split_ifs at h with hhead hbody
  · cases h
    exact ⟨rfl, hhead.imp_right .inl⟩
  · cases h
    exact ⟨rfl, .inr (.inr ⟨hbody.1, hbody.2.1⟩)⟩

theorem tick_headers_none (hstate : p.state = .headers) (h : p.tick = none) :
    extractLine p.pending = none := by
  simp only [tick, hstate, tickHeaders] at h
  split at h
  · assumption
  · cases h
  · cases h

theorem waits_of_done (hstate : p.state ≠ .requestLine) (h : p.processIter = .done r)
    (hr : r.state ≠ .error ∧ r.state ≠ .complete) : Waits r := by
  cases hcase : p.state with
  | requestLine => exact absurd hcase hstate
  | complete | error =>
      rw [process_iter_finished (by simp [hcase])] at h
      cases h
      exact absurd hcase (by simp [hr])
  | headers =>
      rw [processIter, hcase] at h
      obtain ⟨rfl, hwhere⟩ := after_switch_done h
      obtain ⟨-, ⟨hheaders, hsettled⟩ | ⟨hbody, -⟩ | hchunked | hcomplete⟩ :=
        process_headers_steps hcase
      · refine ⟨extract_line_eq_none_iff.1 (tick_headers_none hheaders hsettled), ?_⟩
        exact fun _ hne => absurd hheaders hne
      · exact waits_of_drained (by simpa [hbody] using hwhere)
      · exact waits_of_drained (by simpa [hchunked] using hwhere)
      · exact absurd hcomplete hr.2
  | body =>
      rw [processIter, hcase] at h
      obtain ⟨rfl, -⟩ := after_switch_done h
      obtain ⟨-, hcomplete | ⟨-, hpending, -⟩⟩ := process_body_steps hcase
      · exact absurd hcomplete hr.2
      · exact waits_of_drained hpending
  | chunkedBody =>
      rw [processIter, hcase] at h
      obtain ⟨rfl, hwhere⟩ := after_switch_done h
      obtain ⟨-, -, hchunked | hdecided, -⟩ := process_chunked_frame hcase
      · exact waits_of_drained (by simpa [hchunked] using hwhere)
      · exact absurd hdecided (by simp [hr])

theorem waits_of_returns (h : Returns processIter p r) (hstate : p.state ≠ .requestLine)
    (hr : r.state ≠ .error ∧ r.state ≠ .complete) : Waits r := by
  refine h.relates (fun s r => s.state ≠ .requestLine →
    r.state ≠ .error ∧ r.state ≠ .complete → Waits r) ?_ ?_ hstate hr
  · intro s t r hnext ih hs
    refine ih ?_
    cases hcase : s.state with
    | requestLine => exact absurd hcase hs
    | complete | error =>
        rw [process_iter_finished (by simp [hcase])] at hnext
        cases hnext
    | headers | body | chunkedBody =>
        rw [processIter, hcase] at hnext
        obtain ⟨rfl, hne, -⟩ := after_switch_next hnext
        exact hne
  · exact fun s r hdone hs => waits_of_done hs hdone

/-- From the request line, `process` returns where it waits, or behind an empty line. -/
theorem waits_of_request_line (hstate : p.state = .requestLine) (h : Returns processIter p r)
    (hr : r.state ≠ .error ∧ r.state ≠ .complete) : Waits r ∨ p.raw.length < r.raw.length := by
  by_cases hheaders : p.processRequestLine.state = .headers
  · have hnext : p.processIter = .next p.processRequestLine := by
      rw [processIter, hstate]
      exact if_pos hheaders
    exact .inl (waits_of_returns ((returns_next_iff hnext).1 h) (by simp [hheaders]) hr)
  have hafter : p.processIter = p.processRequestLine.afterSwitch := by
    rw [processIter, hstate]
    exact if_neg hheaders
  obtain ⟨-, ⟨hsettled, hsame⟩ | ⟨hagain, hgrown⟩ | hread | herror⟩ :=
    process_request_line_steps hstate
  · have hdone : p.processIter = .done p := by
      rw [hafter, hsame]
      exact if_pos (.inl hstate)
    obtain rfl := h.unique (.of_done hdone)
    refine .inl ⟨extract_line_eq_none_iff.1 ?_, fun hne => absurd hstate hne⟩
    rw [hsame] at hsettled
    simp only [tick, hstate, tickRequestLine] at hsettled
    split at hsettled
    · assumption
    · cases hsettled
  · have hdone : p.processIter = .done p.processRequestLine := by
      rw [hafter]
      exact if_pos (.inl hagain)
    obtain rfl := h.unique (.of_done hdone)
    exact .inr hgrown
  · exact absurd hread hheaders
  · obtain rfl := h.unique (returns_of_finished hafter (.inr herror))
    exact absurd herror hr.1

/-- `process` returns where it waits, or has consumed something. -/
theorem process_waits (h : Returns processIter p r)
    (hr : r.state ≠ .error ∧ r.state ≠ .complete) : Waits r ∨ p.raw.length < r.raw.length := by
  by_cases hstate : p.state = .requestLine
  · exact waits_of_request_line hstate h hr
  · exact .inl (waits_of_returns h hstate hr)

/-! ## What is consumed next -/

theorem consume_partial_covers {n : Nat} (h : p.pending.length ≤ n) (data : Bytes) :
    p.raw ++ p.pending <+: ((p.feed data).consumePartial n).raw := by
  refine ⟨data.take (n - p.pending.length), ?_⟩
  show _ = p.raw ++ (p.pending ++ data).take n
  rw [List.take_append, List.take_of_length_le h, List.append_assoc]

/-- The element that a waiting parser reads next includes all bytes that it holds. -/
theorem tick_covers (hp : Waits p) (h : (p.feed data).tick = some t) :
    t.state = .error ∨ p.raw ++ p.pending <+: t.raw := by
  have hlength {line : Bytes} (hline : extractLine (p.feed data).pending = some line) :
      p.pending.length ≤ line.length + 2 := hp.unended.length_le hline
  cases hstate : p.state with
  | requestLine =>
      have hfed : (p.feed data).state = .requestLine := hstate
      simp only [tick, hfed, tickRequestLine] at h
      split at h
      · cases h
      · rename_i line hline
        cases h
        by_cases hempty : line = []
        · subst hempty
          rw [process_request_line_blank hline]
          exact .inr (consume_partial_covers (hlength hline) data)
        · cases hparsed : (parseRequestLine line (p.feed data).request).1 with
          | false =>
              rw [process_request_line_error hline hempty hparsed]
              exact .inl rfl
          | true =>
              rw [process_request_line_headers hline hempty hparsed]
              exact .inr (consume_partial_covers (hlength hline) data)
  | headers =>
      have hfed : (p.feed data).state = .headers := hstate
      simp only [tick, hfed, tickHeaders] at h
      split at h
      · cases h
      · rename_i hline
        cases h
        obtain ⟨-, taken, hraw, -⟩ := finalize_headers_consumes ((p.feed data).consumePartial 2)
        rw [hraw]
        exact .inr ((consume_partial_covers (hlength hline) data).trans ⟨taken, rfl⟩)
      · rename_i line _ hline
        cases h
        exact .inr (consume_partial_covers (hlength hline) data)
  | body | chunkedBody | complete | error =>
      have hpending := hp.drained (by simp [hstate]) (by simp [hstate])
      obtain ⟨-, taken, hraw, -⟩ := tick_consumes h
      rw [hraw, hpending, List.append_nil]
      exact .inr ⟨taken, rfl⟩

/-- With more input, a waiting parser consumes all bytes that it holds or goes on waiting. -/
theorem process_covers (hp : Waits p) (h : Returns processIter (p.feed data) r) :
    r.state = .error ∨ p.raw ++ p.pending <+: r.raw ∨ r = p.feed data := by
  refine process_invariant
    (fun r => r.state = .error ∨ p.raw ++ p.pending <+: r.raw ∨ r = p.feed data)
    ?_ ?_ h (.inr (.inr rfl))
  · intro s t hs htick
    rcases hs with herror | hcovered | rfl
    · simp [tick, herror] at htick
    · obtain ⟨-, taken, hraw, -⟩ := tick_consumes htick
      exact .inr (.inl (hraw ▸ hcovered.trans ⟨taken, rfl⟩))
    · exact (tick_covers hp htick).imp_right .inl
  · intro s hstate hs
    obtain ⟨⟨-, taken, hraw, -⟩, -⟩ := process_chunked_frame hstate
    rcases hs with herror | hcovered | rfl
    · cases hstate.symm.trans herror
    · exact .inr (.inl (hraw ▸ hcovered.trans ⟨taken, rfl⟩))
    · have hchunked : p.state = .chunkedBody := hstate
      have hpending := hp.drained (by simp [hchunked]) (by simp [hchunked])
      rw [hraw, hpending, List.append_nil]
      exact .inr (.inl ⟨taken, rfl⟩)

/-! ## Where the loop waits -/

/-- How the loop of `try_parse_message` moves the bytes of a parser. -/
structure Advances (p : HttpParser) (v : Verdict) (q : HttpParser) : Prop where
  raw : v ≠ .failed → p.raw <+: q.raw
  waiting : v = .waiting → Waits q
  complete : v = .complete → Waits p → p.raw ++ p.pending <+: q.raw

/-- A call that is not refused has moved the bytes as `process` has. -/
theorem parses_returns {consumed : Nat} (h : Parses p data r consumed)
    (hstate : p.state ≠ .error ∧ p.state ≠ .complete) (hr : r.state ≠ .error) :
    Returns processIter (p.feed data) r ∧ consumed = reported p data r := by
  obtain ⟨s, hs, hresult⟩ := (parses_iff (by simp [hstate])).1 h
  simp only [parseResult] at hresult
  split at hresult
  · cases hresult
    exact absurd rfl hr
  · cases hresult
    exact ⟨hs, rfl⟩

theorem process_raw_mono (h : Returns processIter (p.feed data) r) : p.raw <+: r.raw := by
  obtain ⟨-, taken, hraw, -⟩ := process_consumes h
  exact ⟨taken, hraw.symm⟩

/-- One pass of the loop that is followed by others. -/
theorem Advances.after {v : Verdict} (h : Returns processIter (p.feed data) r)
    (hr : r.state ≠ .error ∧ r.state ≠ .complete) (hrest : Advances r v q) : Advances p v q := by
  have hraw : p.raw <+: r.raw := process_raw_mono h
  refine ⟨fun hv => hraw.trans (hrest.raw hv), hrest.waiting, fun hv hp => ?_⟩
  rcases process_covers hp h with herror | hcovered | rfl
  · exact absurd herror hr.1
  · exact hcovered.trans (hrest.raw (by simp [hv]))
  · have hwaits := (process_waits h hr).resolve_right (Nat.lt_irrefl _)
    refine List.IsPrefix.trans ⟨data, ?_⟩ (hrest.complete hv hwaits)
    simp

theorem Drives.advances {v : Verdict} {rest : Bytes} (h : Drives p buf (v, q, rest))
    (hstate : p.state ≠ .error ∧ p.state ≠ .complete) : Advances p v q := by
  obtain ⟨fuel, hfuel⟩ := h
  induction fuel generalizing p buf with
  | zero => cases hfuel
  | succ fuel ih =>
      by_cases hidle : buf = [] ∧ p.pending = []
      · rw [drive, if_pos hidle] at hfuel
        cases hfuel
        exact ⟨fun _ => List.prefix_refl _, fun _ => waits_of_drained hidle.2, by simp⟩
      cases hparse : p.parse fuel buf with
      | none =>
          rw [drive, if_neg hidle, hparse] at hfuel
          cases hfuel
      | some parsed =>
          obtain ⟨r, consumed⟩ := parsed
          rw [drive_pass hidle hparse] at hfuel
          by_cases herror : r.state = .error
          · rw [if_pos herror] at hfuel
            cases hfuel
            exact ⟨fun h => absurd rfl h, by simp, by simp⟩
          obtain ⟨hreturns, hreported⟩ := parses_returns ⟨fuel, hparse⟩ hstate herror
          have hraw : p.raw <+: r.raw := process_raw_mono hreturns
          rw [if_neg herror] at hfuel
          by_cases hcomplete : r.state = .complete
          · rw [if_pos hcomplete] at hfuel
            cases hfuel
            refine ⟨fun _ => hraw, by simp, fun _ hp => ?_⟩
            rcases process_covers hp hreturns with hbad | hcovered | hsame
            · exact absurd hbad herror
            · exact hcovered
            · rw [hsame] at hcomplete
              exact absurd hcomplete hstate.2
          rw [if_neg hcomplete] at hfuel
          by_cases hconsumed : consumed = 0
          · rw [if_pos hconsumed] at hfuel
            cases hfuel
            refine ⟨fun _ => hraw, fun _ => ?_, by simp⟩
            -- a call that reports nothing had no input and has consumed nothing
            refine (process_waits hreturns ⟨herror, hcomplete⟩).resolve_right ?_
            rw [hconsumed, reported] at hreported
            split at hreported
            · omega
            · exact Nat.not_lt.2 (Nat.le_of_sub_eq_zero hreported.symm)
          · rw [if_neg hconsumed] at hfuel
            exact .after hreturns ⟨herror, hcomplete⟩ (ih ⟨herror, hcomplete⟩ hfuel)

end HttpParser

end ApiGateway.Http
