import ApiGateway.Net.Session

/-!
# The replies of a connection

What a session has sent, next to what it has received. `Session.Ledger` is kept by every step: at
most one message is outstanding, none is while the connection is `Closing`, and the bytes written
to the socket are the beginning of the responses in the order of the replies. The results are
`outstanding_iff`, which reads the number of outstanding messages off the state of the connection,
and `ledger_reachable`.
-/

namespace ApiGateway.Net.Session

open Http HttpParser

variable {s t : Session} {c : Connection} {out : Outcome} {fuel : Nat} {limit : Int}

/-- The account of messages, responses and bytes written. -/
structure Ledger (s : Session) : Prop where
  answered : s.responses.length ≤ s.messages.length
  outstanding : s.messages.length ≤ s.responses.length + 1
  closing : s.conn.state = .closing → s.responses.length = s.messages.length
  written : s.written <+: s.responses.flatten
  unwritten : s.conn.state ≠ .closed → s.written ++ s.conn.writeBuf = s.responses.flatten

theorem record_same (s : Session) : s.record { conn := s.conn } = s := by
  simp [record]

/-- What has been received does not matter. -/
theorem Ledger.with_received (hs : Ledger s) (received : Bytes) :
    Ledger { s with received := received } :=
  ⟨hs.answered, hs.outstanding, hs.closing, hs.written, hs.unwritten⟩

theorem ledger_accept (limit : Int) : Ledger (accept limit) where
  answered := Nat.le_refl _
  outstanding := Nat.le_succ _
  closing := fun _ => rfl
  written := List.prefix_refl _
  unwritten := fun _ => rfl

/-- A closed connection writes nothing more. -/
theorem Ledger.closed (hs : Ledger s) (c : Connection) (hclosed : c.state = .closed)
    (written : Bytes) (hwritten : s.written ++ written <+: s.responses.flatten) :
    Ledger (s.record { conn := c, written := written }) where
  answered := by simpa [record] using hs.answered
  outstanding := by simpa [record] using hs.outstanding
  closing := fun h => by cases hclosed.symm.trans h
  written := hwritten
  unwritten := fun h => absurd hclosed h

/-- The account after `try_parse_message`, started when `written` has emptied the write buffer up
to that of `c`. -/
theorem Parsed.ledger {written : Bytes} (h : Parsed c out) (hs : Ledger s)
    (hstate : c.state = .reading) (hreplies : s.responses.length = s.messages.length)
    (hwritten : s.written ++ written ++ c.writeBuf = s.responses.flatten) :
    Ledger (s.record { out with written := written }) := by
  have hbegin : s.written ++ written <+: s.responses.flatten := ⟨c.writeBuf, hwritten⟩
  cases h with
  | closed hclosed => exact hs.closed _ hclosed written hbegin
  | waiting =>
      refine ⟨?_, ?_, fun h => ?_, hbegin, fun _ => hwritten⟩
      · simp [record, hreplies]
      · simp [record, hreplies]
      · cases hstate.symm.trans h
  | dispatched =>
      refine ⟨?_, ?_, fun h => ?_, hbegin, fun _ => hwritten⟩
      · simp [record, hreplies]
      · simp [record, hreplies]
      · cases h

/-- A burst. -/
theorem ledger_read {b : Burst} (hinv : Inv limit s) (hs : Ledger s)
    (h : s.conn.onRead fuel b = some out) : Ledger (s.record out) := by
  cases hstate : s.conn.state with
  | closing =>
      simp only [Connection.onRead, hstate] at h
      cases h
      exact hs.closed _ rfl [] (by simpa using hs.written)
  | processing | writing | closed =>
      simp only [Connection.onRead, hstate] at h
      cases h
      rw [record_same]
      exact hs
  | reading =>
      obtain ⟨hactive, hbuf, hreplies⟩ := hinv.reading hstate
      have hunwritten : s.written ++ [] ++ s.conn.writeBuf = s.responses.flatten := by
        simpa using hs.unwritten (by simp [hstate])
      cases Connection.on_read_ends hstate (by simp [hbuf]) h with
      | closed buf => exact hs.closed _ rfl [] (by simpa using hs.written)
      | parsed _ _ hparse =>
          have hparsed := try_parse_message_parsed hparse hactive
          have hledger := hparsed.ledger hs hstate hreplies hunwritten
          cases hparsed <;> exact hledger

/-- A write event. -/
theorem ledger_write {w : WriteResults} (hinv : Inv limit s) (hs : Ledger s)
    (h : s.conn.onWrite fuel w = some out) : Ledger (s.record out) := by
  by_cases hstate : s.conn.state = .writing
  · obtain ⟨hreset, -, hreplies⟩ := hinv.writing hstate
    have hunwritten := hs.unwritten (by simp [hstate])
    have hlength : s.responses.length = (s.messages ++ []).length := by simpa using hreplies
    cases Connection.on_write_ends hstate h with
    | blocked buf written hbytes =>
        rw [hbytes, ← List.append_assoc] at hunwritten
        exact ⟨Nat.le_of_eq hlength, Nat.le_succ_of_le (Nat.le_of_eq hlength.symm),
          fun _ => hlength, ⟨buf, hunwritten⟩, fun _ => hunwritten⟩
    | failed buf written hbytes =>
        rw [hbytes, ← List.append_assoc] at hunwritten
        exact hs.closed _ rfl written ⟨buf, hunwritten⟩
    | closing | idle =>
        have hall : s.written ++ s.conn.writeBuf ++ [] = s.responses.flatten := by
          rw [List.append_nil, hunwritten]
        exact ⟨Nat.le_of_eq hlength, Nat.le_succ_of_le (Nat.le_of_eq hlength.symm),
          fun _ => hlength, ⟨[], hall⟩, fun _ => hall⟩
    | parsed _ _ hparse =>
        refine (try_parse_message_parsed hparse (active_reset _)).ledger hs rfl hreplies ?_
        show s.written ++ s.conn.writeBuf ++ [] = s.responses.flatten
        rw [List.append_nil, hunwritten]
  · rw [Connection.on_write_skip hstate] at h
    cases h
    rw [record_same]
    exact hs

/-- Only a message of a closed connection is answered in vain. -/
theorem Ledger.outstanding_state (hs : Ledger s) (hinv : Inv limit s)
    (hpending : s.responses.length < s.messages.length) :
    s.conn.state = .processing ∨ s.conn.state = .closed := by
  rcases hinv.outstanding hpending with h | h | h
  · exact Or.inl h
  · exact absurd (hs.closing h) (by omega)
  · exact Or.inr h

/-- A reply. -/
theorem ledger_reply {data : Bytes} {keepAlive : Bool} {w : WriteResults} (hinv : Inv limit s)
    (hs : Ledger s) (hpending : s.responses.length < s.messages.length)
    (h : s.conn.sendInternal fuel data keepAlive w = some out) :
    Ledger { s.record out with responses := s.responses ++ [data] } := by
  rcases hs.outstanding_state hinv hpending with hstate | hstate
  · rw [Connection.send_internal_processing hstate] at h
    have hunwritten := hs.unwritten (by simp [hstate])
    have hafter : s.written ++ (s.conn.writeBuf ++ data) = (s.responses ++ [data]).flatten := by
      rw [← List.append_assoc, hunwritten]
      simp
    have hlength : (s.responses ++ [data]).length = s.messages.length := by
      have := hs.outstanding
      rw [List.length_append, List.length_singleton]
      omega
    have hanswering : Ledger
        { s with conn := s.conn.answering data keepAlive, responses := s.responses ++ [data] } :=
      ⟨Nat.le_of_eq hlength, Nat.le_succ_of_le (Nat.le_of_eq hlength.symm), fun _ => hlength,
        ⟨_, hafter⟩, fun _ => hafter⟩
    exact ledger_write (hinv.answering hstate data keepAlive) hanswering h
  · -- the response is dropped
    rw [Connection.send_internal_skip (by simp [hstate]) (by simp [hstate])] at h
    cases h
    rw [record_same]
    have hwritten : s.written <+: (s.responses ++ [data]).flatten := by
      rw [List.flatten_append]
      exact hs.written.trans (List.prefix_append _ _)
    refine ⟨by simpa using hpending, ?_, fun h => ?_, hwritten, fun h => absurd hstate h⟩
    · show s.messages.length ≤ (s.responses ++ [data]).length + 1
      have := hs.outstanding
      rw [List.length_append]
      omega
    · cases hstate.symm.trans h

theorem ledger_step {e : Event} (hinv : Inv limit s) (hs : Ledger s) (h : Step e s t) :
    Ledger t := by
  cases h with
  | read h => exact (ledger_read hinv hs h).with_received _
  | write h => exact ledger_write hinv hs h
  | reply hpending h => exact ledger_reply hinv hs hpending h
  | close =>
      have hclosed := hs.closed s.conn.closeInternal rfl [] (by simpa using hs.written)
      simpa [record] using hclosed

theorem ledger_reachable (h : Reachable limit s) : Ledger s := by
  induction h with
  | refl => exact ledger_accept limit
  | tail hrun hstep ih =>
      obtain ⟨e, hstep⟩ := hstep
      exact ledger_step (inv_reachable hrun) ih hstep

/-- A connection that is not closed is processing exactly when one of its messages is
outstanding. -/
theorem outstanding_iff (h : Reachable limit s) (hopen : s.conn.state ≠ .closed) :
    s.conn.state = .processing ↔ s.messages.length = s.responses.length + 1 := by
  have hinv := inv_reachable h
  have hs := ledger_reachable h
  constructor
  · intro hstate
    exact (hinv.processing hstate).2.2.symm
  · intro hlength
    exact (hs.outstanding_state hinv (by omega)).resolve_right hopen

end ApiGateway.Net.Session
