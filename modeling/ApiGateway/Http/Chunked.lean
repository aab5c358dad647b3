import ApiGateway.Http.Process

/-!
# Chunked bodies

`process_chunked` reads as many chunk elements as have arrived: size lines, chunk data, the line
end after the data, trailer lines. `CutInChunk` describes the byte strings that end in the middle
of an element which is not chunk data. The main result, `process_chunked_stalls_iff`, says that
these are exactly the inputs on which `process_chunked` returns without having read everything
and without having decided the request.
-/

namespace ApiGateway.Http.HttpParser

open Loop Search

variable {p q r : HttpParser} {line : Bytes} {size : Nat}

/-! ## One pass -/

theorem chunk_size_line_wait (h : extractLine p.pending = none) : p.chunkSizeLine = .done p := by
  simp only [chunkSizeLine, h]

theorem chunk_size_line_error (h : extractLine p.pending = some line)
    (hhex : parseHex (chunkSizeText line) = none) :
    p.chunkSizeLine = .done { p with state := .error } := by
  simp only [chunkSizeLine, h, hhex]

theorem chunk_size_line_last (h : extractLine p.pending = some line)
    (hhex : parseHex (chunkSizeText line) = some 0) :
    p.chunkSizeLine = .next { p.takeSizeLine line 0 with chunkPhase := .trailer } := by
  simp only [chunkSizeLine, h, hhex, if_true]

theorem take_size_line_raw_length (h : extractLine p.pending = some line) (size : Nat) :
    (p.takeSizeLine line size).raw.length = p.raw.length + (line.length + 2) := by
  have hlen := extract_line_length h
  simp only [takeSizeLine, consumePartial, List.length_append, List.length_take]
  omega

theorem chunk_size_line_over (h : extractLine p.pending = some line)
    (hhex : parseHex (chunkSizeText line) = some size) (hsize : size ≠ 0)
    (hlimit : sizeT p.maxSize < p.raw.length + (line.length + 2)) :
    p.chunkSizeLine = .done { p.takeSizeLine line size with state := .error } := by
  have hover : (p.takeSizeLine line size).checkSizeLimit =
      (false, { p.takeSizeLine line size with state := .error }) :=
    check_size_limit_over (by rwa [take_size_line_raw_length h])
  simp only [chunkSizeLine, h, hhex, if_neg hsize, hover, Bool.not_false, if_true]

theorem chunk_size_line_data (h : extractLine p.pending = some line)
    (hhex : parseHex (chunkSizeText line) = some size) (hsize : size ≠ 0)
    (hlimit : p.raw.length + (line.length + 2) ≤ sizeT p.maxSize) :
    p.chunkSizeLine = .next { p.takeSizeLine line size with
      chunkPhase := .data, currentChunkRead := 0 } := by
  have hwithin : (p.takeSizeLine line size).checkSizeLimit = (true, p.takeSizeLine line size) :=
    check_size_limit_within (by rwa [take_size_line_raw_length h])
  simp only [chunkSizeLine, h, hhex, if_neg hsize, hwithin, Bool.not_true, Bool.false_eq_true,
    if_false]

/-- The line end after chunk data has not arrived. -/
theorem chunk_data_wait (hread : p.currentChunkSize - p.currentChunkRead = 0)
    (h : p.pending.length < 2) : p.chunkData = .done p := by
  simp only [chunkData, hread, if_true, if_pos h]

/-- Chunk data is not followed by a line end. -/
theorem chunk_data_error (hread : p.currentChunkSize - p.currentChunkRead = 0)
    (h : ¬ p.pending.length < 2) (hcrlf : p.pending.take 2 ≠ crlf) :
    p.chunkData = .done { p with state := .error } := by
  simp only [chunkData, hread, if_true, if_neg h, if_pos hcrlf]

theorem chunk_data_crlf (hread : p.currentChunkSize - p.currentChunkRead = 0)
    (hcrlf : p.pending.take 2 = crlf) :
    p.chunkData = .next { p.consumePartial 2 with chunkPhase := .sizeLine } := by
  have hlen : ¬ p.pending.length < 2 := by
    have := congrArg List.length hcrlf
    simp only [List.length_take, List.length_cons, List.length_nil] at this
    omega
  simp only [chunkData, hread, if_true, if_neg hlen, if_neg (not_not.2 hcrlf)]

/-- The parser after as much chunk data as has arrived. -/
def takeChunkData (p : HttpParser) : HttpParser :=
  let count := min p.pending.length (p.currentChunkSize - p.currentChunkRead)
  { p.consumePartial count with currentChunkRead := p.currentChunkRead + count }

theorem take_chunk_data_raw_length (p : HttpParser) :
    p.takeChunkData.raw.length =
      p.raw.length + min p.pending.length (p.currentChunkSize - p.currentChunkRead) := by
  simp only [takeChunkData, consumePartial, List.length_append, List.length_take]
  omega

theorem chunk_data_eq (hread : p.currentChunkSize - p.currentChunkRead ≠ 0) :
    p.chunkData = if !p.takeChunkData.checkSizeLimit.1 then
        .done p.takeChunkData.checkSizeLimit.2
      else if p.takeChunkData.currentChunkSize ≤ p.takeChunkData.currentChunkRead then
        .next p.takeChunkData
      else .done p.takeChunkData :=
  if_neg hread

theorem chunk_data_over (hread : p.currentChunkSize - p.currentChunkRead ≠ 0)
    (hlimit : sizeT p.maxSize < p.takeChunkData.raw.length) :
    p.chunkData = .done { p.takeChunkData with state := .error } := by
  rw [chunk_data_eq hread, check_size_limit_over hlimit]
  rfl

theorem take_chunk_data_read_iff (p : HttpParser) :
    p.takeChunkData.currentChunkSize ≤ p.takeChunkData.currentChunkRead ↔
      p.currentChunkSize - p.currentChunkRead ≤ p.pending.length := by
  show p.currentChunkSize ≤ p.currentChunkRead +
    min p.pending.length (p.currentChunkSize - p.currentChunkRead) ↔ _
  omega

/-- The whole chunk has arrived. -/
theorem chunk_data_next (hread : p.currentChunkSize - p.currentChunkRead ≠ 0)
    (hlimit : p.takeChunkData.raw.length ≤ sizeT p.maxSize)
    (hall : p.currentChunkSize - p.currentChunkRead ≤ p.pending.length) :
    p.chunkData = .next p.takeChunkData := by
  rw [chunk_data_eq hread, check_size_limit_within hlimit]
  exact if_pos ((take_chunk_data_read_iff p).2 hall)

/-- Part of the chunk is still to come. -/
theorem chunk_data_incomplete (hread : p.currentChunkSize - p.currentChunkRead ≠ 0)
    (hlimit : p.takeChunkData.raw.length ≤ sizeT p.maxSize)
    (hall : ¬ p.currentChunkSize - p.currentChunkRead ≤ p.pending.length) :
    p.chunkData = .done p.takeChunkData := by
  rw [chunk_data_eq hread, check_size_limit_within hlimit]
  exact if_neg fun h => hall ((take_chunk_data_read_iff p).1 h)

theorem chunked_iter_size_line (hstate : p.state = .chunkedBody)
    (hphase : p.chunkPhase = .sizeLine) :
    p.chunkedIter = p.chunkSizeLine := by
  simp [chunkedIter, hstate, hphase]

theorem chunked_iter_data (hstate : p.state = .chunkedBody) (hphase : p.chunkPhase = .data) :
    p.chunkedIter = p.chunkData := by
  simp [chunkedIter, hstate, hphase]

theorem chunked_iter_trailer (hstate : p.state = .chunkedBody) (hphase : p.chunkPhase = .trailer) :
    p.chunkedIter = if p.skipTrailer.1 then .next p.skipTrailer.2 else .done p.skipTrailer.2 := by
  simp [chunkedIter, hstate, hphase]

theorem chunked_iter_finished (hstate : p.state = .chunkedBody)
    (hphase : p.chunkPhase = .finished) : p.chunkedIter = .done { p with state := .complete } := by
  simp [chunkedIter, hstate, hphase]

/-! ## Frame -/

/-- The trailer loop consumes bytes and, left by `return`, stays in its phase. -/
theorem skip_trailer_frame (p : HttpParser) :
    Consumes p p.skipTrailer.2 ∧ p.skipTrailer.2.request = p.request ∧
      p.skipTrailer.2.state = p.state ∧
      (p.skipTrailer.1 = false → p.skipTrailer.2.chunkPhase = p.chunkPhase) := by
  refine (returns_total trailer_iter_decreasing p).relates
    (fun s t => Consumes s t.2 ∧ t.2.request = s.request ∧ t.2.state = s.state ∧
      (t.1 = false → t.2.chunkPhase = s.chunkPhase)) ?_ ?_
  · intro s t u hbody ih
    rw [trailer_iter_eq] at hbody
    split at hbody
    · cases hbody
    · cases hbody
    · cases hbody
      exact ⟨(consume_partial_consumes s _).trans ih.1, ih.2⟩
  · intro s t hbody
    rw [trailer_iter_eq] at hbody
    split at hbody
    · cases hbody
      exact ⟨.refl s, rfl, rfl, fun _ => rfl⟩
    · cases hbody
      exact ⟨consume_partial_consumes s 2, rfl, rfl, fun h => absurd h (by simp)⟩
    · cases hbody

/-- What a pass over a chunked body leaves alone: it consumes bytes and does not touch the
request. A pass that returns stays in its phase, and completes the request only in the last
one. -/
def ChunkFrame (p : HttpParser) : Iter HttpParser HttpParser → Prop
  | .next q => Consumes p q ∧ q.request = p.request ∧ q.state = .chunkedBody
  | .done r => Consumes p r ∧ r.request = p.request ∧
      (r.state = .chunkedBody ∨ r.state = .complete ∨ r.state = .error) ∧
      (r.raw = p.raw → r.chunkPhase = p.chunkPhase ∧
        (r.state = .complete → p.chunkPhase = .finished))

theorem ChunkFrame.wait (hconsumes : Consumes p r) (hrequest : r.request = p.request)
    (hphase : r.chunkPhase = p.chunkPhase) (hstate : r.state = .chunkedBody) :
    ChunkFrame p (.done r) := by
  refine ⟨hconsumes, hrequest, Or.inl hstate, fun _ => ⟨hphase, fun h => ?_⟩⟩
  cases hstate.symm.trans h

theorem ChunkFrame.error (hconsumes : Consumes p r) (hrequest : r.request = p.request)
    (hphase : r.chunkPhase = p.chunkPhase) (hstate : r.state = .error) :
    ChunkFrame p (.done r) := by
  refine ⟨hconsumes, hrequest, Or.inr (Or.inr hstate), fun _ => ⟨hphase, fun h => ?_⟩⟩
  cases hstate.symm.trans h

theorem chunk_size_line_frame (hstate : p.state = .chunkedBody) :
    ChunkFrame p p.chunkSizeLine := by
  have htake : ∀ line size, Consumes p (p.takeSizeLine line size) := fun line _ =>
    consume_partial_consumes p (line.length + 2)
  simp only [chunkSizeLine]
  split
  · exact .wait (.refl p) rfl rfl hstate
  rename_i line _
  split
  · exact .error (.of_eq rfl rfl rfl) rfl rfl rfl
  rename_i size _
  split
  · exact ⟨htake line size, rfl, hstate⟩
  · by_cases hlimit : sizeT p.maxSize < (p.takeSizeLine line size).raw.length
    · rw [check_size_limit_over hlimit]
      exact .error (htake line size) rfl rfl rfl
    · rw [check_size_limit_within (Nat.le_of_not_lt hlimit)]
      exact ⟨htake line size, rfl, hstate⟩

theorem chunk_data_frame (hstate : p.state = .chunkedBody) : ChunkFrame p p.chunkData := by
  by_cases hread : p.currentChunkSize - p.currentChunkRead = 0
  · by_cases hcrlf : p.pending.take 2 = crlf
    · rw [chunk_data_crlf hread hcrlf]
      exact ⟨consume_partial_consumes p 2, rfl, hstate⟩
    by_cases hlen : p.pending.length < 2
    · rw [chunk_data_wait hread hlen]
      exact .wait (.refl p) rfl rfl hstate
    · rw [chunk_data_error hread hlen hcrlf]
      exact .error (.of_eq rfl rfl rfl) rfl rfl rfl
  · have htake : Consumes p p.takeChunkData := consume_partial_consumes p _
    by_cases hlimit : p.takeChunkData.raw.length ≤ sizeT p.maxSize
    · by_cases hall : p.currentChunkSize - p.currentChunkRead ≤ p.pending.length
      · rw [chunk_data_next hread hlimit hall]
        exact ⟨htake, rfl, hstate⟩
      · rw [chunk_data_incomplete hread hlimit hall]
        exact .wait htake rfl rfl hstate
    · rw [chunk_data_over hread (Nat.lt_of_not_le hlimit)]
      exact .error htake rfl rfl rfl

theorem chunked_iter_frame (hstate : p.state = .chunkedBody) : ChunkFrame p p.chunkedIter := by
  cases hphase : p.chunkPhase with
  | sizeLine =>
      rw [chunked_iter_size_line hstate hphase]
      exact chunk_size_line_frame hstate
  | data =>
      rw [chunked_iter_data hstate hphase]
      exact chunk_data_frame hstate
  | trailer =>
      obtain ⟨hconsumes, hrequest, hsame, hstay⟩ := skip_trailer_frame p
      rw [chunked_iter_trailer hstate hphase]
      split
      · exact ⟨hconsumes, hrequest, hsame.trans hstate⟩
      · rename_i hreturn
        exact .wait hconsumes hrequest (hstay (by simpa using hreturn)) (hsame.trans hstate)
  | finished =>
      rw [chunked_iter_finished hstate hphase]
      exact ⟨.of_eq rfl rfl rfl, rfl, Or.inr (Or.inl rfl), fun _ => ⟨rfl, fun _ => hphase⟩⟩

theorem process_chunked_frame (hstate : p.state = .chunkedBody) :
    ChunkFrame p (.done p.processChunked) := by
  refine (returns_total chunked_iter_decreasing p).relates
    (fun s r => s.state = .chunkedBody → ChunkFrame s (.done r)) ?_ ?_ hstate
  · intro s t r hbody ih hs
    have hstep := chunked_iter_frame hs
    rw [hbody] at hstep
    obtain ⟨hconsumes, hrequest, ht⟩ := hstep
    obtain ⟨hrest, hrequest', hr, -⟩ := ih ht
    refine ⟨hconsumes.trans hrest, hrequest'.trans hrequest, hr, fun hraw => ?_⟩
    -- A pass that goes round again has consumed bytes.
    have hlt := hconsumes.raw_length_lt (chunked_iter_decreasing s t hbody)
    have hle := hrest.raw_length_le
    rw [hraw] at hle
    omega
  · intro s r hbody hs
    have hstep := chunked_iter_frame hs
    rwa [hbody] at hstep

theorem process_consumes (h : Returns processIter p q) : Consumes p q :=
  process_invariant (Consumes p) (fun _ _ hs hstep => hs.trans (tick_consumes hstep))
    (fun _ hstate hs => hs.trans (process_chunked_frame hstate).1) h (.refl p)

/-! ## Inputs that end inside an element -/

/-- The bytes end inside a line of the trailer. -/
inductive CutInTrailer : Bytes → Prop where
  | here {s : Bytes} : s ≠ [] → extractLine s = none → CutInTrailer s
  | later {s line : Bytes} : extractLine s = some line → line ≠ [] →
      CutInTrailer (s.drop (line.length + 2)) → CutInTrailer s

/-- `CutInChunk limit phase remaining n s` says that the bytes `s`, which start in the given phase
with `remaining` bytes of the current chunk to come and `n` bytes of the request before them,
end inside a size line, inside the line end after chunk data, or inside a trailer line, and that
the request stays within the size limit up to there. -/
inductive CutInChunk (limit : Nat) : ChunkPhase → Nat → Nat → Bytes → Prop where
  | sizeLine {remaining n : Nat} {s : Bytes} :
      s ≠ [] → extractLine s = none → CutInChunk limit .sizeLine remaining n s
  | afterSizeLine {remaining n size : Nat} {s line : Bytes} :
      extractLine s = some line → parseHex (chunkSizeText line) = some size → size ≠ 0 →
      n + (line.length + 2) ≤ limit →
      CutInChunk limit .data size (n + (line.length + 2)) (s.drop (line.length + 2)) →
      CutInChunk limit .sizeLine remaining n s
  | afterLastSizeLine {remaining n : Nat} {s line : Bytes} :
      extractLine s = some line → parseHex (chunkSizeText line) = some 0 →
      CutInTrailer (s.drop (line.length + 2)) → CutInChunk limit .sizeLine remaining n s
  | afterData {remaining n : Nat} {s : Bytes} :
      remaining ≠ 0 → remaining ≤ s.length → n + remaining ≤ limit →
      CutInChunk limit .data 0 (n + remaining) (s.drop remaining) →
      CutInChunk limit .data remaining n s
  | dataEnd {n : Nat} {s : Bytes} : s.length = 1 → CutInChunk limit .data 0 n s
  | afterDataEnd {n : Nat} {s : Bytes} : s.take 2 = crlf →
      CutInChunk limit .sizeLine 0 (n + 2) (s.drop 2) → CutInChunk limit .data 0 n s
  | trailer {remaining n : Nat} {s : Bytes} :
      CutInTrailer s → CutInChunk limit .trailer remaining n s

variable {limit remaining n : Nat} {s : Bytes}

theorem cut_in_trailer_some_iff (h : extractLine s = some line) (hne : line ≠ []) :
    CutInTrailer s ↔ CutInTrailer (s.drop (line.length + 2)) := by
  refine ⟨fun hcut => ?_, .later h hne⟩
  cases hcut with
  | here _ hnone => simp [h] at hnone
  | later hline _ hrest =>
      obtain rfl := Option.some.inj (h.symm.trans hline)
      exact hrest

theorem cut_in_trailer_none_iff (h : extractLine s = none) : CutInTrailer s ↔ s ≠ [] := by
  refine ⟨fun hcut => ?_, fun hne => .here hne h⟩
  cases hcut with
  | here hne _ => exact hne
  | later hline _ _ => simp [h] at hline

theorem not_cut_in_trailer_blank (h : extractLine s = some []) : ¬ CutInTrailer s := by
  intro hcut
  cases hcut with
  | here _ hnone => simp [h] at hnone
  | later hline hne _ => exact hne (Option.some.inj (h.symm.trans hline)).symm

/-- What the trailer loop does. Left by `return`, it stands before an incomplete line; the bytes
that remain are empty exactly when the input did not end inside a line. -/
theorem skip_trailer_cases (p : HttpParser) :
    (p.skipTrailer.1 = true ∧ ¬ CutInTrailer p.pending ∧ p.skipTrailer.2.chunkPhase = .finished) ∨
      (p.skipTrailer.1 = false ∧ (p.skipTrailer.2.pending ≠ [] ↔ CutInTrailer p.pending) ∧
        extractLine p.skipTrailer.2.pending = none ∧
        p.skipTrailer.2.chunkPhase = p.chunkPhase) := by
  refine (returns_total trailer_iter_decreasing p).relates
    (fun s t => (t.1 = true ∧ ¬ CutInTrailer s.pending ∧ t.2.chunkPhase = .finished) ∨
      (t.1 = false ∧ (t.2.pending ≠ [] ↔ CutInTrailer s.pending) ∧
        extractLine t.2.pending = none ∧ t.2.chunkPhase = s.chunkPhase)) ?_ ?_
  · intro s t u hbody ih
    rw [trailer_iter_eq] at hbody
    split at hbody
    · cases hbody
    · cases hbody
    · rename_i line hne hline
      cases hbody
      have hcut := cut_in_trailer_some_iff hline (fun h => hne h)
      rw [hcut]
      exact ih
  · intro s t hbody
    rw [trailer_iter_eq] at hbody
    split at hbody
    · rename_i hline
      cases hbody
      exact Or.inr ⟨rfl, (cut_in_trailer_none_iff hline).symm, hline, rfl⟩
    · rename_i hline
      cases hbody
      exact Or.inl ⟨rfl, not_cut_in_trailer_blank hline, rfl⟩
    · cases hbody

theorem cut_size_line_none_iff (h : extractLine s = none) :
    CutInChunk limit .sizeLine remaining n s ↔ s ≠ [] := by
  refine ⟨fun hcut => ?_, fun hne => .sizeLine hne h⟩
  cases hcut with
  | sizeLine hne _ => exact hne
  | afterSizeLine hline => simp [h] at hline
  | afterLastSizeLine hline => simp [h] at hline

theorem not_cut_size_line_error (h : extractLine s = some line)
    (hhex : parseHex (chunkSizeText line) = none) :
    ¬ CutInChunk limit .sizeLine remaining n s := by
  intro hcut
  cases hcut with
  | sizeLine _ hnone => simp [h] at hnone
  | afterSizeLine hline hsize =>
      obtain rfl := Option.some.inj (h.symm.trans hline)
      simp [hhex] at hsize
  | afterLastSizeLine hline hsize =>
      obtain rfl := Option.some.inj (h.symm.trans hline)
      simp [hhex] at hsize

theorem cut_size_line_last_iff (h : extractLine s = some line)
    (hhex : parseHex (chunkSizeText line) = some 0) :
    CutInChunk limit .sizeLine remaining n s ↔ CutInTrailer (s.drop (line.length + 2)) := by
  refine ⟨fun hcut => ?_, .afterLastSizeLine h hhex⟩
  cases hcut with
  | sizeLine _ hnone => simp [h] at hnone
  | afterSizeLine hline hsize hne =>
      obtain rfl := Option.some.inj (h.symm.trans hline)
      exact absurd (Option.some.inj (hhex.symm.trans hsize)).symm hne
  | afterLastSizeLine hline _ hrest =>
      obtain rfl := Option.some.inj (h.symm.trans hline)
      exact hrest

theorem cut_size_line_data_iff (h : extractLine s = some line)
    (hhex : parseHex (chunkSizeText line) = some size) (hne : size ≠ 0) :
    CutInChunk limit .sizeLine remaining n s ↔ n + (line.length + 2) ≤ limit ∧
      CutInChunk limit .data size (n + (line.length + 2)) (s.drop (line.length + 2)) := by
  refine ⟨fun hcut => ?_, fun hcut => .afterSizeLine h hhex hne hcut.1 hcut.2⟩
  cases hcut with
  | sizeLine _ hnone => simp [h] at hnone
  | afterSizeLine hline hsize _ hlimit hrest =>
      obtain rfl := Option.some.inj (h.symm.trans hline)
      obtain rfl := Option.some.inj (hhex.symm.trans hsize)
      exact ⟨hlimit, hrest⟩
  | afterLastSizeLine hline hsize =>
      obtain rfl := Option.some.inj (h.symm.trans hline)
      exact absurd (Option.some.inj (hhex.symm.trans hsize)) hne

theorem cut_data_end_iff : CutInChunk limit .data 0 n s ↔
    s.length = 1 ∨ s.take 2 = crlf ∧ CutInChunk limit .sizeLine 0 (n + 2) (s.drop 2) := by
  refine ⟨fun hcut => ?_, fun hcut => hcut.elim .dataEnd fun h => .afterDataEnd h.1 h.2⟩
  cases hcut with
  | afterData hne => exact absurd rfl hne
  | dataEnd hlen => exact Or.inl hlen
  | afterDataEnd hcrlf hrest => exact Or.inr ⟨hcrlf, hrest⟩

theorem cut_data_iff (h : remaining ≠ 0) : CutInChunk limit .data remaining n s ↔
    remaining ≤ s.length ∧ n + remaining ≤ limit ∧
      CutInChunk limit .data 0 (n + remaining) (s.drop remaining) := by
  refine ⟨fun hcut => ?_, fun hcut => .afterData h hcut.1 hcut.2.1 hcut.2.2⟩
  cases hcut with
  | afterData _ hlen hlimit hrest => exact ⟨hlen, hlimit, hrest⟩
  | dataEnd => exact absurd rfl h
  | afterDataEnd => exact absurd rfl h

theorem cut_size_line_remaining (remaining' : Nat) :
    CutInChunk limit .sizeLine remaining n s ↔ CutInChunk limit .sizeLine remaining' n s := by
  have weaken : ∀ a b, CutInChunk limit .sizeLine a n s → CutInChunk limit .sizeLine b n s := by
    intro a b h
    cases h with
    | sizeLine hne hline => exact .sizeLine hne hline
    | afterSizeLine hline hhex hsize hlimit hrest =>
        exact .afterSizeLine hline hhex hsize hlimit hrest
    | afterLastSizeLine hline hhex hrest => exact .afterLastSizeLine hline hhex hrest
  exact ⟨weaken _ _, weaken _ _⟩

theorem cut_trailer_iff : CutInChunk limit .trailer remaining n s ↔ CutInTrailer s := by
  refine ⟨fun hcut => ?_, .trailer⟩
  cases hcut with
  | trailer h => exact h

theorem not_cut_finished : ¬ CutInChunk limit .finished remaining n s := by
  intro hcut
  cases hcut

theorem CutInTrailer.ne_nil (h : CutInTrailer s) : s ≠ [] := by
  cases h with
  | here hne _ => exact hne
  | later hline _ _ =>
      rintro rfl
      cases hline

/-- An input that ends inside an element is not empty. -/
theorem CutInChunk.ne_nil {phase : ChunkPhase} (h : CutInChunk limit phase remaining n s) :
    s ≠ [] := by
  rintro rfl
  cases h with
  | sizeLine hne _ => exact hne rfl
  | afterSizeLine hline => cases hline
  | afterLastSizeLine hline => cases hline
  | afterData hne hlen => exact hne (Nat.le_zero.1 hlen)
  | dataEnd hlen => cases hlen
  | afterDataEnd hcrlf => cases hcrlf
  | trailer h => exact h.ne_nil rfl

/-! ## Passes and cuts -/

/-- The bytes pending in a chunked body end inside an element. -/
def Cut (p : HttpParser) : Prop :=
  CutInChunk (sizeT p.maxSize) p.chunkPhase (p.currentChunkSize - p.currentChunkRead)
    p.raw.length p.pending

/-- What a pass over a chunked body has to do with the cut of its input: a pass that goes round
again keeps the cut, and a pass that returns undecided with bytes left over has found it. -/
def ReportsCut (p : HttpParser) : Iter HttpParser HttpParser → Prop
  | .next q => q.state = .chunkedBody ∧ (q.Cut ↔ p.Cut)
  | .done r => (r.state = .chunkedBody ∧ r.pending ≠ [] ↔ p.Cut) ∧
      (r.state = .chunkedBody → r.chunkedIter = .done r)

theorem ReportsCut.error (hr : r.state = .error) (hcut : ¬ p.Cut) :
    ReportsCut p (.done r) := by
  refine ⟨⟨fun h => ?_, fun h => absurd h hcut⟩, fun h => ?_⟩
  · cases hr.symm.trans h.1
  · cases hr.symm.trans h

theorem chunk_size_line_reports (hstate : p.state = .chunkedBody)
    (hphase : p.chunkPhase = .sizeLine) : ReportsCut p p.chunkSizeLine := by
  have hcut : p.Cut = CutInChunk (sizeT p.maxSize) .sizeLine
      (p.currentChunkSize - p.currentChunkRead) p.raw.length p.pending := by
    rw [Cut, hphase]
  cases hline : extractLine p.pending with
  | none =>
      have hwait := chunk_size_line_wait hline
      rw [hwait]
      refine ⟨?_, fun _ => (chunked_iter_size_line hstate hphase).trans hwait⟩
      rw [hcut, cut_size_line_none_iff hline]
      simp [hstate]
  | some line =>
      have hraw := take_size_line_raw_length hline
      cases hhex : parseHex (chunkSizeText line) with
      | none =>
          rw [chunk_size_line_error hline hhex]
          exact .error rfl (hcut ▸ not_cut_size_line_error hline hhex)
      | some size =>
          by_cases hsize : size = 0
          · subst hsize
            rw [chunk_size_line_last hline hhex]
            refine ⟨hstate, ?_⟩
            rw [hcut, cut_size_line_last_iff hline hhex]
            exact cut_trailer_iff
          by_cases hlimit : p.raw.length + (line.length + 2) ≤ sizeT p.maxSize
          · rw [chunk_size_line_data hline hhex hsize hlimit]
            refine ⟨hstate, ?_⟩
            rw [hcut, cut_size_line_data_iff hline hhex hsize, ← hraw size]
            rw [← hraw size] at hlimit
            exact (and_iff_right hlimit).symm
          · rw [chunk_size_line_over hline hhex hsize (Nat.lt_of_not_le hlimit)]
            refine .error rfl ?_
            rw [hcut, cut_size_line_data_iff hline hhex hsize]
            exact fun h => hlimit h.1

theorem chunk_data_end_reports (hstate : p.state = .chunkedBody) (hphase : p.chunkPhase = .data)
    (hread : p.currentChunkSize - p.currentChunkRead = 0) : ReportsCut p p.chunkData := by
  have hcut : p.Cut ↔ p.pending.length = 1 ∨ p.pending.take 2 = crlf ∧
      CutInChunk (sizeT p.maxSize) .sizeLine 0 (p.raw.length + 2) (p.pending.drop 2) := by
    rw [Cut, hphase, hread]
    exact cut_data_end_iff
  by_cases hcrlf : p.pending.take 2 = crlf
  · have hlen : 2 ≤ p.pending.length := by
      have := congrArg List.length hcrlf
      simp only [List.length_take, List.length_cons, List.length_nil] at this
      omega
    have hraw : (p.consumePartial 2).raw.length = p.raw.length + 2 := by
      simp only [consumePartial, List.length_append, List.length_take]
      omega
    rw [chunk_data_crlf hread hcrlf]
    refine ⟨hstate, ?_⟩
    rw [hcut, or_iff_right (by omega), and_iff_right hcrlf, ← hraw]
    exact cut_size_line_remaining 0
  by_cases hlen : p.pending.length < 2
  · have hwait := chunk_data_wait hread hlen
    rw [hwait]
    refine ⟨?_, fun _ => (chunked_iter_data hstate hphase).trans hwait⟩
    rw [hcut, or_iff_left fun h => hcrlf h.1, and_iff_right hstate, ← List.length_pos_iff]
    omega
  · rw [chunk_data_error hread hlen hcrlf]
    refine .error rfl ?_
    rw [hcut]
    exact fun h => h.elim (by omega) fun h => hcrlf h.1

/-- Without input the data phase waits. -/
theorem chunk_data_empty (hread : p.currentChunkSize - p.currentChunkRead ≠ 0)
    (hlimit : p.raw.length ≤ sizeT p.maxSize) (h : p.pending = []) : p.chunkData = .done p := by
  have hsame : p.takeChunkData = p := by
    obtain ⟨⟩ := p
    subst h
    simp [takeChunkData, consumePartial]
  have hdata := chunk_data_incomplete hread (by rwa [hsame])
    (by rw [h, List.length_nil]; omega)
  rwa [hsame] at hdata

theorem chunk_data_reports (hstate : p.state = .chunkedBody) (hphase : p.chunkPhase = .data)
    (hread : p.currentChunkSize - p.currentChunkRead ≠ 0) : ReportsCut p p.chunkData := by
  have hcut : p.Cut ↔ p.currentChunkSize - p.currentChunkRead ≤ p.pending.length ∧
      p.raw.length + (p.currentChunkSize - p.currentChunkRead) ≤ sizeT p.maxSize ∧
      CutInChunk (sizeT p.maxSize) .data 0
        (p.raw.length + (p.currentChunkSize - p.currentChunkRead))
        (p.pending.drop (p.currentChunkSize - p.currentChunkRead)) := by
    rw [Cut, hphase]
    exact cut_data_iff hread
  have hraw := take_chunk_data_raw_length p
  by_cases hlimit : p.takeChunkData.raw.length ≤ sizeT p.maxSize
  · by_cases hall : p.currentChunkSize - p.currentChunkRead ≤ p.pending.length
    · rw [chunk_data_next hread hlimit hall]
      have hdone := (take_chunk_data_read_iff p).2 hall
      have hphase' : p.takeChunkData.chunkPhase = .data := hphase
      have hpending : p.takeChunkData.pending =
          p.pending.drop (p.currentChunkSize - p.currentChunkRead) := by
        show p.pending.drop (min _ _) = _
        rw [Nat.min_eq_right hall]
      rw [Nat.min_eq_right hall] at hraw
      refine ⟨hstate, ?_⟩
      rw [hcut, and_iff_right hall, ← hraw, and_iff_right hlimit, ← hpending, Cut, hphase',
        Nat.sub_eq_zero_of_le hdone]
      rfl
    · rw [chunk_data_incomplete hread hlimit hall]
      have hpending : p.takeChunkData.pending = [] := by
        show p.pending.drop (min _ _) = _
        rw [Nat.min_eq_left (by omega), List.drop_length]
      have hread' := mt (take_chunk_data_read_iff p).1 hall
      refine ⟨⟨fun h => absurd hpending h.2, fun h => absurd (hcut.1 h).1 hall⟩, fun _ => ?_⟩
      rw [chunked_iter_data (show p.takeChunkData.state = _ from hstate) hphase]
      exact chunk_data_empty (by omega) hlimit hpending
  · rw [chunk_data_over hread (Nat.lt_of_not_le hlimit)]
    refine .error rfl fun h => hlimit ?_
    have := (hcut.1 h).2.1
    omega

theorem trailer_reports (hstate : p.state = .chunkedBody) (hphase : p.chunkPhase = .trailer) :
    ReportsCut p (if p.skipTrailer.1 then .next p.skipTrailer.2 else .done p.skipTrailer.2) := by
  have hcut : p.Cut ↔ CutInTrailer p.pending := by
    rw [Cut, hphase]
    exact cut_trailer_iff
  have hstate' := (skip_trailer_frame p).2.2.1.trans hstate
  rcases skip_trailer_cases p with ⟨hbreak, hwhole, hfinished⟩ | ⟨hreturn, hleft, hnone, hsame⟩
  · rw [if_pos hbreak]
    refine ⟨hstate', ?_⟩
    rw [hcut, Cut, hfinished]
    exact iff_of_false not_cut_finished hwhole
  · rw [if_neg (by simp [hreturn])]
    refine ⟨by rw [hcut, and_iff_right hstate', hleft], fun _ => ?_⟩
    -- The trailer loop started again stands before the same incomplete line.
    have hagain : p.skipTrailer.2.skipTrailer = (false, p.skipTrailer.2) := by
      refine total_done trailer_iter_decreasing ?_
      rw [trailer_iter_eq, hnone]
    rw [chunked_iter_trailer hstate' (hsame.trans hphase), hagain]
    rfl

theorem chunked_iter_reports (hstate : p.state = .chunkedBody) : ReportsCut p p.chunkedIter := by
  cases hphase : p.chunkPhase with
  | sizeLine =>
      rw [chunked_iter_size_line hstate hphase]
      exact chunk_size_line_reports hstate hphase
  | data =>
      rw [chunked_iter_data hstate hphase]
      by_cases hread : p.currentChunkSize - p.currentChunkRead = 0
      · exact chunk_data_end_reports hstate hphase hread
      · exact chunk_data_reports hstate hphase hread
  | trailer =>
      rw [chunked_iter_trailer hstate hphase]
      exact trailer_reports hstate hphase
  | finished =>
      rw [chunked_iter_finished hstate hphase]
      refine ⟨iff_of_false (fun h => ?_) ?_, fun h => ?_⟩
      · cases h.1
      · rw [Cut, hphase]
        exact not_cut_finished
      · cases h

/-- Over a whole call: the call returns undecided with bytes left over exactly when its input ends
inside an element, and repeating the call then changes nothing. -/
theorem process_chunked_reports (hstate : p.state = .chunkedBody) :
    ReportsCut p (.done p.processChunked) := by
  refine (returns_total chunked_iter_decreasing p).relates
    (fun s r => s.state = .chunkedBody → ReportsCut s (.done r)) ?_ ?_ hstate
  · intro s t r hbody ih hs
    have hstep := chunked_iter_reports hs
    rw [hbody] at hstep
    have hrest := ih hstep.1
    exact ⟨hrest.1.trans hstep.2, hrest.2⟩
  · intro s r hbody hs
    have hstep := chunked_iter_reports hs
    rwa [hbody] at hstep

theorem process_chunked_stalls_iff (hstate : p.state = .chunkedBody) :
    (p.processChunked.state = .chunkedBody ∧ p.processChunked.pending ≠ []) ↔ p.Cut :=
  (process_chunked_reports hstate).1

/-- A call that returns undecided would return the same parser again. -/
theorem process_chunked_again (hstate : p.state = .chunkedBody)
    (h : p.processChunked.state = .chunkedBody) :
    p.processChunked.processChunked = p.processChunked :=
  total_done chunked_iter_decreasing ((process_chunked_reports hstate).2 h)

end ApiGateway.Http.HttpParser
