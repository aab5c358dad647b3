import ApiGateway.Http.Chunked

/-!
# When `parse` returns

The dispatch loop of `process` has no exit for a chunked body of which an element other than
chunk data has arrived in part: `process_chunked` returns without a change, the pending bytes are
not empty, and the loop goes round again for ever. `EndsInsideElement` describes these inputs
by their bytes. The main result, `parse_returns_iff`, says that on every other input the loop
returns and every pass that goes round again makes progress.
-/

namespace ApiGateway.Http.HttpParser

open Loop Search

variable {p q r : HttpParser} {line s : Bytes} {n limit : Nat} {chunked : Bool} {req : HttpRequest}

/-! ## The condition on the input -/

/-- The bytes `s`, which continue a head with the given request and `n` bytes before them, end
the head, the head selects a chunked body, and the body ends inside an element. -/
inductive CutInHead (limit : Nat) (chunked : Bool) : HttpRequest → Nat → Bytes → Prop where
  | later {req : HttpRequest} {n : Nat} {s line : Bytes} :
      extractLine s = some line → line ≠ [] →
      CutInHead limit chunked (addHeaderLine req line) (n + (line.length + 2))
        (s.drop (line.length + 2)) →
      CutInHead limit chunked req n s
  | last {req : HttpRequest} {n : Nat} {s : Bytes} :
      extractLine s = some [] → (chunked || selectsChunked req.headers) = true →
      CutInChunk limit .sizeLine 0 (n + 2) (s.drop 2) →
      CutInHead limit chunked req n s

/-- The pending bytes lead into a chunked body and end inside a size line, inside the line end
after chunk data, or inside a trailer line. -/
def EndsInsideElement (p : HttpParser) : Prop :=
  match p.state with
  | .requestLine => ∃ line, extractLine p.pending = some line ∧ line ≠ [] ∧
      (parseRequestLine line p.request).1 = true ∧
      CutInHead (sizeT p.maxSize) p.isChunked (parseRequestLine line p.request).2
        (p.raw.length + (line.length + 2)) (p.pending.drop (line.length + 2))
  | .headers => CutInHead (sizeT p.maxSize) p.isChunked p.request p.raw.length p.pending
  | .chunkedBody => p.Cut
  | .body | .complete | .error => False

theorem not_cut_in_head_none (h : extractLine s = none) : ¬ CutInHead limit chunked req n s := by
  intro hcut
  cases hcut with
  | later hline => simp [h] at hline
  | last hline => simp [h] at hline

theorem cut_in_head_some_iff (h : extractLine s = some line) (hne : line ≠ []) :
    CutInHead limit chunked req n s ↔
      CutInHead limit chunked (addHeaderLine req line) (n + (line.length + 2))
        (s.drop (line.length + 2)) := by
  refine ⟨fun hcut => ?_, .later h hne⟩
  cases hcut with
  | later hline _ hrest =>
      obtain rfl := Option.some.inj (h.symm.trans hline)
      exact hrest
  | last hline => exact absurd (Option.some.inj (h.symm.trans hline)) hne

theorem cut_in_head_blank_iff (h : extractLine s = some []) :
    CutInHead limit chunked req n s ↔ (chunked || selectsChunked req.headers) = true ∧
      CutInChunk limit .sizeLine 0 (n + 2) (s.drop 2) := by
  refine ⟨fun hcut => ?_, fun hcut => .last h hcut.1 hcut.2⟩
  cases hcut with
  | later hline hne => exact absurd (Option.some.inj (h.symm.trans hline)).symm hne
  | last _ hchunked hrest => exact ⟨hchunked, hrest⟩

theorem Cut.pending_ne_nil (h : p.Cut) : p.pending ≠ [] :=
  CutInChunk.ne_nil h

/-! ## The states of the loop -/

/-- A chunked body that `process_chunked` cannot continue keeps the loop going for ever. -/
theorem not_returns_of_stalled (hstate : p.state = .chunkedBody) (hpending : p.pending ≠ [])
    (hagain : p.processChunked = p) : ¬ ∃ r, Returns processIter p r := by
  refine not_returns_of_closed (fun t => t = p) ?_ rfl
  intro t ht
  subst ht
  refine ⟨t, ?_, rfl⟩
  simp [processIter, hstate, hagain, afterSwitch, hpending]

theorem process_iter_chunked (hstate : p.state = .chunkedBody) :
    p.processIter = p.processChunked.afterSwitch := by
  simp [processIter, hstate]

theorem returns_chunked_iff (hstate : p.state = .chunkedBody) :
    (∃ r, Returns processIter p r) ↔ ¬ p.Cut := by
  have hiter := process_iter_chunked hstate
  have hstalls := process_chunked_stalls_iff hstate
  obtain ⟨-, -, hresult, -⟩ := process_chunked_frame hstate
  by_cases hs : p.processChunked.state = .chunkedBody
  · by_cases hpending : p.processChunked.pending = []
    · refine iff_of_true ⟨p.processChunked, .of_done ?_⟩ fun hcut => (hstalls.2 hcut).2 hpending
      rw [hiter]
      simp [afterSwitch, hs, hpending]
    · refine iff_of_false ?_ fun h => h (hstalls.1 ⟨hs, hpending⟩)
      rintro ⟨r, hr⟩
      have hnext : p.processIter = .next p.processChunked := by
        rw [hiter]
        simp [afterSwitch, hs, hpending]
      exact not_returns_of_stalled hs hpending (process_chunked_again hstate hs)
        ⟨r, (returns_next_iff hnext).1 hr⟩
  · refine iff_of_true ⟨_, returns_of_finished hiter (hresult.resolve_left hs)⟩ fun hcut => ?_
    exact hs (hstalls.2 hcut).1

/-- `process_headers` reaches a chunked body that ends inside an element exactly when the bytes
say so. -/
theorem process_headers_cut_iff (hstate : p.state = .headers) :
    (p.processHeaders.state = .chunkedBody ∧ p.processHeaders.Cut) ↔ p.EndsInsideElement := by
  refine Iff.trans ?_ (by rw [EndsInsideElement, hstate])
  refine (returns_total headers_iter_decreasing p).relates
    (fun s t => s.state = .headers → ((t.state = .chunkedBody ∧ t.Cut) ↔
      CutInHead (sizeT s.maxSize) s.isChunked s.request s.raw.length s.pending)) ?_ ?_ hstate
  · intro s t u hbody ih hs
    rw [headers_iter_eq] at hbody
    split at hbody
    · cases hbody
    · cases hbody
    · rename_i line hne hline
      cases hbody
      have hlen := extract_line_length hline
      have hraw : (s.takeHeaderLine line).raw.length = s.raw.length + (line.length + 2) := by
        simp only [takeHeaderLine, consumeLine, consumePartial, List.length_append,
          List.length_take]
        omega
      rw [cut_in_head_some_iff hline hne, ← hraw]
      exact ih hs
  · intro s t hbody hs
    rw [headers_iter_eq] at hbody
    split at hbody
    · rename_i hline
      cases hbody
      refine iff_of_false (fun h => ?_) (not_cut_in_head_none hline)
      cases hs.symm.trans h.1
    · rename_i hline
      cases hbody
      have hlen := extract_line_length hline
      have hraw : (s.consumePartial 2).raw.length = s.raw.length + 2 := by
        simp only [consumePartial, List.length_append, List.length_take]
        simp only [List.length_nil] at hlen
        omega
      rw [cut_in_head_blank_iff hline, ← hraw]
      by_cases hchunked : (s.isChunked || selectsChunked s.request.headers) = true
      · have hfinal : (s.consumePartial 2).finalizeHeaders = _ := finalize_headers_chunked hchunked
        rw [hfinal, and_iff_right rfl, and_iff_right hchunked]
        rfl
      · have hfinal : (s.consumePartial 2).finalizeHeaders.state ≠ .chunkedBody :=
          finalize_headers_plain hchunked
        exact iff_of_false (fun h => hfinal h.1) fun h => hchunked h.1
    · cases hbody

theorem returns_headers_iff (hstate : p.state = .headers) :
    (∃ r, Returns processIter p r) ↔ ¬ p.EndsInsideElement := by
  rw [← process_headers_cut_iff hstate]
  by_cases hs : p.processHeaders.state = .chunkedBody
  · rw [and_iff_right hs]
    have hiter : p.processIter = p.processHeaders.afterSwitch := by simp [processIter, hstate]
    by_cases hpending : p.processHeaders.pending = []
    · refine iff_of_true ⟨p.processHeaders, .of_done ?_⟩ fun hcut => hcut.pending_ne_nil hpending
      rw [hiter]
      simp [afterSwitch, hs, hpending]
    · have hnext : p.processIter = .next p.processHeaders := by
        rw [hiter]
        simp [afterSwitch, hs, hpending]
      rw [← returns_chunked_iff hs]
      exact exists_congr fun r => returns_next_iff hnext
  · obtain ⟨r, hr, -⟩ := process_settles_headers hstate hs
    exact iff_of_true ⟨r, hr⟩ fun h => hs h.1

/-- A head is read on from its request line. -/
theorem ends_inside_request_line_iff (hstate : p.state = .requestLine) :
    p.EndsInsideElement ↔ p.processRequestLine.state = .headers ∧
      p.processRequestLine.EndsInsideElement := by
  rw [EndsInsideElement, hstate]
  cases hline : extractLine p.pending with
  | none => simp [process_request_line_wait hline, hstate]
  | some line =>
      have hraw : (p.consumePartial (line.length + 2)).raw.length =
          p.raw.length + (line.length + 2) := by
        have := extract_line_length hline
        simp only [consumePartial, List.length_append, List.length_take]
        omega
      by_cases hne : line = []
      · subst hne
        simp [process_request_line_blank hline, consumePartial, hstate]
      · cases hparsed : (parseRequestLine line p.request).1 with
        | false => simp [process_request_line_error hline hne hparsed, hparsed]
        | true =>
            rw [process_request_line_headers hline hne hparsed, and_iff_right rfl]
            simp only [EndsInsideElement, Option.some.injEq, exists_eq_left', ne_eq, hne,
              not_false_eq_true, hparsed, true_and, hraw]
            rfl

theorem returns_request_line_iff (hstate : p.state = .requestLine) :
    (∃ r, Returns processIter p r) ↔ ¬ p.EndsInsideElement := by
  rw [ends_inside_request_line_iff hstate]
  by_cases hs : p.processRequestLine.state = .headers
  · have hnext : p.processIter = .next p.processRequestLine := by
      simp [processIter, hstate, hs]
    rw [and_iff_right hs, ← returns_headers_iff hs]
    exact exists_congr fun r => returns_next_iff hnext
  · have hiter : p.processIter = p.processRequestLine.afterSwitch := by
      simp [processIter, hstate, hs]
    refine iff_of_true ?_ fun h => hs h.1
    obtain ⟨-, ⟨-, heq⟩ | ⟨hs', -⟩ | hs' | hs'⟩ := process_request_line_steps hstate
    · refine ⟨p, .of_done ?_⟩
      rw [hiter, heq]
      simp [afterSwitch, hstate]
    · refine ⟨p.processRequestLine, .of_done ?_⟩
      rw [hiter]
      simp [afterSwitch, hs']
    · exact absurd hs' hs
    · exact ⟨_, returns_of_finished hiter (Or.inr hs')⟩

/-- `process` returns unless its input ends inside an element of a chunked body. -/
theorem returns_iff (p : HttpParser) :
    (∃ r, Returns processIter p r) ↔ ¬ p.EndsInsideElement := by
  cases hstate : p.state with
  | requestLine => exact returns_request_line_iff hstate
  | headers => exact returns_headers_iff hstate
  | body =>
      refine iff_of_true ⟨_, (process_settles_body hstate).1⟩ ?_
      simp [EndsInsideElement, hstate]
  | chunkedBody =>
      rw [EndsInsideElement, hstate]
      exact returns_chunked_iff hstate
  | complete =>
      refine iff_of_true ⟨p, .of_done (process_iter_finished (Or.inl hstate))⟩ ?_
      simp [EndsInsideElement, hstate]
  | error =>
      refine iff_of_true ⟨p, .of_done (process_iter_finished (Or.inr hstate))⟩ ?_
      simp [EndsInsideElement, hstate]

/-! ## Progress -/

/-- A pass from `p` to `q` decides the request, changes the state or consumes bytes. -/
def Progress (p q : HttpParser) : Prop :=
  q.state = .complete ∨ q.state = .error ∨ q.state ≠ p.state ∨ q.pending.length < p.pending.length

/-- The loop goes on from `q` unless it has to wait there. -/
theorem after_switch_next (h : p.afterSwitch = .next q) :
    q = p ∧ p.state ≠ .requestLine ∧ p.state ≠ .headers ∧
      (p.state = .body ∨ p.state = .chunkedBody → p.pending ≠ []) := by
  simp only [afterSwitch] at h
  split at h
  · cases h
  split at h
  · cases h
  · rename_i hhead hbody
    cases h
    rw [not_or] at hhead
    refine ⟨rfl, hhead.1, hhead.2, fun hs hpending => hbody ⟨hs, hpending, ?_⟩⟩
    rcases hs with hs | hs <;> simp [hs]

/-- The only pass without progress is one over a chunked body that cannot be continued. -/
theorem process_iter_progress (h : p.processIter = .next q) :
    Progress p q ∨ q.state = .chunkedBody ∧ q.pending ≠ [] ∧ q.processChunked = q := by
  cases hstate : p.state with
  | complete =>
      rw [process_iter_finished (Or.inl hstate)] at h
      cases h
  | error =>
      rw [process_iter_finished (Or.inr hstate)] at h
      cases h
  | requestLine =>
      -- A pass that goes on has left the state.
      simp only [processIter, hstate] at h
      have hne : q.state ≠ .requestLine := by
        split at h
        · rename_i hs
          cases h
          rw [hs]
          simp
        · obtain ⟨rfl, hne, -⟩ := after_switch_next h
          exact hne
      exact Or.inl (Or.inr (Or.inr (Or.inl (by rwa [hstate]))))
  | headers =>
      simp only [processIter, hstate] at h
      obtain ⟨rfl, -, hne, -⟩ := after_switch_next h
      exact Or.inl (Or.inr (Or.inr (Or.inl (by rwa [hstate]))))
  | body =>
      simp only [processIter, hstate] at h
      obtain ⟨rfl, -, -, hpending⟩ := after_switch_next h
      obtain ⟨-, hs | ⟨hs, hempty, -⟩⟩ := process_body_steps hstate
      · exact Or.inl (Or.inl hs)
      · exact absurd hempty (hpending (Or.inl hs))
  | chunkedBody =>
      rw [process_iter_chunked hstate] at h
      obtain ⟨rfl, -, -, hpending⟩ := after_switch_next h
      obtain ⟨-, -, hs | hs | hs, -⟩ := process_chunked_frame hstate
      · exact Or.inr ⟨hs, hpending (Or.inr hs), process_chunked_again hstate hs⟩
      · exact Or.inl (Or.inl hs)
      · exact Or.inl (Or.inr (Or.inl hs))

/-- The loop of `process` returns and every pass that goes round again makes progress, unless the
input ends inside an element of a chunked body. -/
theorem parse_returns_iff (p : HttpParser) (data : Bytes) :
    ((∃ q consumed, Parses p data q consumed) ∧
      ∀ s t, Visits processIter (p.feed data) s → s.processIter = .next t → Progress s t) ↔
    ¬ (p.feed data).EndsInsideElement := by
  rw [← returns_iff]
  have hparses : (∃ q consumed, Parses p data q consumed) ↔
      ∃ r, Returns processIter (p.feed data) r := by
    by_cases hstate : p.state = .error ∨ p.state = .complete
    · exact iff_of_true ⟨p, 0, parses_of_decided hstate data⟩
        ⟨p.feed data, .of_done (process_iter_finished hstate.symm)⟩
    · exact exists_parses_iff hstate data
  rw [hparses]
  refine and_iff_left_of_imp fun ⟨r, hr⟩ s t hvisits hnext => ?_
  -- A pass without progress would leave the loop in a state that never returns.
  rcases process_iter_progress hnext with hprogress | ⟨hs, hpending, hagain⟩
  · exact hprogress
  · have hreturns := (returns_next_iff hnext).1 (hvisits.returns_iff.1 hr)
    exact absurd ⟨r, hreturns⟩ (not_returns_of_stalled hs hpending hagain)

/-- A fresh parser that is given a chunked request up to the first digit of its first size line
never returns. -/
theorem parse_hangs_in_size_line :
    ¬ ∃ q consumed, Parses (fresh 65536)
      (ascii "POST / HTTP/1.1\r\nTransfer-Encoding: chunked\r\n\r\n5") q consumed := by
  rw [exists_parses_iff (by decide), returns_iff, not_not]
  refine ⟨ascii "POST / HTTP/1.1", by decide, by decide, by decide, ?_⟩
  have hline : extractLine (ascii "Transfer-Encoding: chunked\r\n\r\n5") =
      some (ascii "Transfer-Encoding: chunked") := by decide
  refine .later hline (by decide) ?_
  refine .last (by decide) (by decide) ?_
  exact .sizeLine (by decide) (by decide)

end ApiGateway.Http.HttpParser
