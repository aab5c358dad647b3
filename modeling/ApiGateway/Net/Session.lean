import ApiGateway.Net.Connection

/-!
# Runs of a connection

A `Session` is a connection with the history that its results are about: the bytes read from the
socket, the messages passed to `message_callback_`, the responses given to `send_internal`, and
the bytes written to the socket. Its steps are bursts, write events, replies and closes in any
order, with at most one reply for each message.

`Session.Inv` is kept by every step. It says that the history and the four places in which bytes
wait account for every byte (`session_bytes`), and that nothing is parsed while a request is
outstanding, so that neither `reset` discards anything.
-/

namespace ApiGateway.Net

open Http HttpParser

/-- A connection and its history. -/
structure Session where
  conn : Connection
  received : Bytes := []
  messages : List Bytes := []
  responses : List Bytes := []
  written : Bytes := []

namespace Session

/-- A new connection. -/
def accept (maxRequestSize : Int) : Session :=
  { conn := .accept maxRequestSize }

/-- Record what a handler has done. -/
def record (s : Session) (out : Outcome) : Session :=
  { s with
    conn := out.conn
    messages := s.messages ++ out.message.toList
    written := s.written ++ out.written }

/-- The bytes that `on_read` takes from the socket: only a connection in the state `Reading`
reads. -/
def taken (s : Session) (b : Burst) : Bytes :=
  if s.conn.state = .reading then b.bytes else []

/-- The events of a connection. A reply is the execution of `send_internal` for a message. -/
inductive Event where
  | read (b : Burst)
  | write (w : WriteResults)
  | reply (data : Bytes) (keepAlive : Bool) (w : WriteResults)
  | close

/-- One event of a connection. -/
inductive Step : Event → Session → Session → Prop where
  | read {s : Session} {fuel : Nat} {out : Outcome} {b : Burst}
      (h : s.conn.onRead fuel b = some out) :
      Step (.read b) s { s.record out with received := s.received ++ s.taken b }
  | write {s : Session} {fuel : Nat} {out : Outcome} {w : WriteResults}
      (h : s.conn.onWrite fuel w = some out) : Step (.write w) s (s.record out)
  | reply {s : Session} {fuel : Nat} {out : Outcome} {data : Bytes} {keepAlive : Bool}
      {w : WriteResults} (hpending : s.responses.length < s.messages.length)
      (h : s.conn.sendInternal fuel data keepAlive w = some out) :
      Step (.reply data keepAlive w) s { s.record out with responses := s.responses ++ [data] }
  | close {s : Session} : Step .close s { s with conn := s.conn.closeInternal }

/-- The sessions that a new connection can reach. -/
def Reachable (maxRequestSize : Int) : Session → Prop :=
  Relation.ReflTransGen (fun s t => ∃ e, Step e s t) (accept maxRequestSize)

/-- The bytes that wait in the buffers of a connection. -/
def held (c : Connection) : Bytes :=
  c.parser.raw ++ c.parser.pending ++ c.readBuf

/-- A parser that is in the middle of a request. -/
structure Active (p : HttpParser) : Prop where
  framed : Framed p
  undecided : p.state ≠ .error ∧ p.state ≠ .complete
  limit : p.raw.length ≤ sizeT p.maxSize

/-- What the state of the connection says about the parser and the replies. -/
def Phase (s : Session) : Prop :=
  match s.conn.state with
  | .reading =>
      Active s.conn.parser ∧ s.conn.readBuf = [] ∧ s.responses.length = s.messages.length
  | .processing =>
      s.conn.parser.reset = s.conn.parser ∧ s.conn.readBuf = [] ∧
        s.responses.length + 1 = s.messages.length
  | .writing =>
      s.conn.parser.reset = s.conn.parser ∧ s.conn.readBuf = [] ∧
        s.responses.length = s.messages.length
  | .closing | .closed => True

/-- The connection is neither `Closing` nor `Closed`. -/
def Live (c : Connection) : Prop :=
  c.state ≠ .closing ∧ c.state ≠ .closed

/-- The invariant of all sessions with the given request limit. -/
structure Inv (limit : Int) (s : Session) : Prop where
  size : s.conn.maxRequestSize = limit
  maxSize : s.conn.parser.maxSize = limit
  phase : Phase s
  messages : ∀ m ∈ s.messages, m ≠ [] ∧ m.length ≤ sizeT limit
  bytes : Live s.conn → s.messages.flatten ++ held s.conn = s.received

/-! ## Finding messages -/

theorem reset_reset (p : HttpParser) : p.reset.reset = p.reset := rfl

theorem active_reset (p : HttpParser) : Active p.reset :=
  ⟨.requestLine 0 rfl rfl rfl rfl rfl, by simp [HttpParser.reset], Nat.zero_le _⟩

/-- What `try_parse_message` can do to a connection in the state `Reading`. -/
inductive Parsed (c : Connection) : Outcome → Prop where
  | closed {c' : Connection} (hstate : c'.state = .closed)
      (hsize : c'.maxRequestSize = c.maxRequestSize)
      (hmax : c'.parser.maxSize = c.parser.maxSize) : Parsed c { conn := c' }
  | waiting {p : HttpParser} (hp : Active p) (hmax : p.maxSize = c.parser.maxSize)
      (hheld : p.raw ++ p.pending = held c) :
      Parsed c { conn := { c with parser := p, readBuf := [] } }
  | dispatched {p : HttpParser} {m : Bytes} (hreset : p.reset = p)
      (hmax : p.maxSize = c.parser.maxSize) (hne : m ≠ [])
      (hlimit : m.length ≤ sizeT c.parser.maxSize) (hheld : m ++ p.pending = held c) :
      Parsed c {
        conn := { c with parser := p, readBuf := [], state := .processing }, message := some m }

theorem try_parse_message_parsed {c : Connection} {fuel : Nat} {out : Outcome}
    (h : c.tryParseMessage fuel = some out) (hc : Active c.parser) : Parsed c out := by
  obtain ⟨⟨v, p, rest⟩, hdrive, hout⟩ := Option.bind_eq_some_iff.1 h
  have hspec := Drives.spec ⟨fuel, hdrive⟩ hc.framed hc.undecided hc.limit
  cases v with
  | failed =>
      cases hout
      exact .closed rfl rfl hspec.maxSize
  | complete =>
      have hcomplete := hspec.complete_iff.1 rfl
      have hlimit := hspec.limit (by simp)
      have hbytes := hspec.bytes (by simp)
      cases hout
      obtain rfl := hspec.rest_nil (by simp)
      refine .dispatched (reset_reset p) hspec.maxSize (hspec.framed.raw_ne_nil hcomplete)
        (hspec.maxSize ▸ hlimit) ?_
      rw [List.append_nil] at hbytes
      exact hbytes
  | waiting =>
      have hbytes := hspec.bytes (by simp)
      have herror : p.state ≠ .error := fun he => by cases hspec.failed_iff.2 he
      have hcomplete : p.state ≠ .complete := fun he => by cases hspec.complete_iff.2 he
      cases hout
      obtain rfl := hspec.rest_nil (by simp)
      refine .waiting ⟨hspec.framed, ⟨herror, hcomplete⟩, hspec.limit (by simp)⟩ hspec.maxSize ?_
      rw [List.append_nil] at hbytes
      exact hbytes

/-! ## The invariant -/

variable {s t : Session} {c : Connection} {out : Outcome} {fuel : Nat} {limit : Int}

theorem inv_accept (limit : Int) : Inv limit (accept limit) where
  size := rfl
  maxSize := rfl
  phase := ⟨⟨framed_fresh _, by simp [accept, Connection.accept, fresh], Nat.zero_le _⟩, rfl, rfl⟩
  messages := by simp [accept]
  bytes := fun _ => rfl

/-- What has been written does not matter. -/
theorem Inv.with_written (hs : Inv limit s) (written : Bytes) :
    Inv limit { s with written := written } :=
  ⟨hs.size, hs.maxSize, hs.phase, hs.messages, hs.bytes⟩

/-- A connection that is closing or closed keeps the invariant whatever it holds. -/
theorem Inv.not_live (hs : Inv limit s) (c : Connection) (hsize : c.maxRequestSize = limit)
    (hmax : c.parser.maxSize = limit) (hlive : c.state = .closing ∨ c.state = .closed)
    (received : Bytes) (responses : List Bytes) :
    Inv limit { s.record { conn := c } with received := received, responses := responses } where
  size := hsize
  maxSize := hmax
  phase := by rcases hlive with h | h <;> simp [Phase, record, h]
  messages := by
    show ∀ m ∈ s.messages ++ [], m ≠ [] ∧ m.length ≤ sizeT limit
    rw [List.append_nil]
    exact hs.messages
  bytes := fun h => by rcases hlive with hl | hl <;> simp [Live, record, hl] at h

/-- The invariant after `try_parse_message`, started on a connection `c` that holds the bytes not
accounted for by the messages. -/
theorem Parsed.inv {received : Bytes} (h : Parsed c out) (hs : Inv limit s)
    (hstate : c.state = .reading) (hsize : c.maxRequestSize = limit)
    (hmax : c.parser.maxSize = limit) (hreplies : s.responses.length = s.messages.length)
    (hbytes : s.messages.flatten ++ held c = received) :
    Inv limit { s.record out with received := received } := by
  cases h with
  | closed hclosed hsize' hmax' =>
      exact hs.not_live _ (hsize'.trans hsize) (hmax'.trans hmax) (Or.inr hclosed) received _
  | @waiting p hp hmax' hheld =>
      refine ⟨hsize, hmax'.trans hmax, ?_, ?_, fun _ => ?_⟩
      · simp only [Phase, record, hstate]
        exact ⟨hp, trivial, by simpa using hreplies⟩
      · show ∀ m ∈ s.messages ++ [], m ≠ [] ∧ m.length ≤ sizeT limit
        rw [List.append_nil]
        exact hs.messages
      · show (s.messages ++ []).flatten ++ (p.raw ++ p.pending ++ []) = received
        rw [List.append_nil, List.append_nil, hheld, hbytes]
  | @dispatched p m hreset hmax' hne hfits hheld =>
      have hraw : p.raw = [] := by
        rw [← hreset]
        rfl
      refine ⟨hsize, hmax'.trans hmax, ?_, ?_, fun _ => ?_⟩
      · show p.reset = p ∧ ([] : Bytes) = [] ∧ s.responses.length + 1 = (s.messages ++ [m]).length
        exact ⟨hreset, rfl, by simp [hreplies]⟩
      · intro m' hm'
        rcases List.mem_append.1 hm' with hm' | hm'
        · exact hs.messages m' hm'
        · obtain rfl : m' = m := List.mem_singleton.1 hm'
          exact ⟨hne, hmax ▸ hfits⟩
      · show (s.messages ++ [m]).flatten ++ (p.raw ++ p.pending ++ []) = received
        rw [hraw, List.nil_append, List.append_nil, List.flatten_append, List.append_assoc,
          List.flatten_singleton, hheld, hbytes]

theorem Inv.reading (h : Inv limit s) (hstate : s.conn.state = .reading) :
    Active s.conn.parser ∧ s.conn.readBuf = [] ∧ s.responses.length = s.messages.length := by
  have := h.phase
  rwa [Phase, hstate] at this

theorem Inv.processing (h : Inv limit s) (hstate : s.conn.state = .processing) :
    s.conn.parser.reset = s.conn.parser ∧ s.conn.readBuf = [] ∧
      s.responses.length + 1 = s.messages.length := by
  have := h.phase
  rwa [Phase, hstate] at this

theorem Inv.writing (h : Inv limit s) (hstate : s.conn.state = .writing) :
    s.conn.parser.reset = s.conn.parser ∧ s.conn.readBuf = [] ∧
      s.responses.length = s.messages.length := by
  have := h.phase
  rwa [Phase, hstate] at this

/-- A burst. -/
theorem inv_read {b : Burst} (hs : Inv limit s) (h : s.conn.onRead fuel b = some out) :
    Inv limit { s.record out with received := s.received ++ s.taken b } := by
  cases hstate : s.conn.state with
  | closing =>
      simp only [Connection.onRead, hstate] at h
      cases h
      exact hs.not_live s.conn.closeInternal hs.size hs.maxSize (Or.inr rfl) _ _
  | processing | writing | closed =>
      simp only [Connection.onRead, hstate] at h
      cases h
      have hsame :
          { s.record { conn := s.conn } with received := s.received ++ s.taken b } = s := by
        simp [record, taken, hstate]
      rw [hsame]
      exact hs
  | reading =>
      obtain ⟨hactive, hbuf, hreplies⟩ := hs.reading hstate
      cases Connection.on_read_ends hstate (by simp [hbuf]) h with
      | closed buf _ =>
          exact hs.not_live { s.conn with readBuf := buf }.closeInternal hs.size hs.maxSize
            (Or.inr rfl) _ _
      | parsed _ _ h =>
          refine (try_parse_message_parsed h hactive).inv hs hstate hs.size hs.maxSize hreplies ?_
          have hbytes := hs.bytes (by simp [Live, hstate])
          simp only [held, hbuf, List.append_nil] at hbytes
          simp only [held, hbuf, List.nil_append, taken, hstate, if_true, ← hbytes,
            List.append_assoc]

/-- The parser is fresh while a response is written, so resetting it discards nothing. -/
theorem renewed_of_reset (hreset : c.parser.reset = c.parser) :
    c.renewed = { c with state := .reading, writeBuf := [] } := by
  rw [Connection.renewed, hreset]

/-- A write event. -/
theorem inv_write {w : WriteResults} (hs : Inv limit s) (h : s.conn.onWrite fuel w = some out) :
    Inv limit (s.record out) := by
  by_cases hstate : s.conn.state = .writing
  · obtain ⟨hreset, hbuf, hreplies⟩ := hs.writing hstate
    have hbytes := hs.bytes (by simp [Live, hstate])
    have hactive : Active s.conn.parser := hreset ▸ active_reset s.conn.parser
    cases Connection.on_write_ends hstate h with
    | blocked buf written _ =>
        have hrecord : s.record { conn := { s.conn with writeBuf := buf }, written := written } =
            { s with
              conn := { s.conn with writeBuf := buf }, written := s.written ++ written } := by
          simp [record]
        rw [hrecord]
        exact ⟨hs.size, hs.maxSize, hs.phase, hs.messages, hs.bytes⟩
    | failed buf written _ _ =>
        exact (hs.not_live { s.conn with writeBuf := buf }.closeInternal hs.size hs.maxSize
          (Or.inr rfl) _ _).with_written _
    | closing _ =>
        exact (hs.not_live { s.conn with writeBuf := [], state := .closing } hs.size hs.maxSize
          (Or.inl rfl) _ _).with_written _
    | idle _ _ =>
        have hwaiting : Parsed { s.conn with state := .reading, writeBuf := [] }
            { conn := { s.conn with state := .reading, writeBuf := [], readBuf := [] } } :=
          .waiting hactive rfl (by simp [held, hbuf])
        have hinv := hwaiting.inv hs rfl hs.size hs.maxSize hreplies hbytes
        rw [renewed_of_reset hreset, hbuf]
        exact hinv.with_written _
    | parsed _ _ hparse =>
        rw [renewed_of_reset hreset] at hparse
        have hinv := (try_parse_message_parsed hparse hactive).inv hs rfl hs.size hs.maxSize
          hreplies hbytes
        exact hinv.with_written _
  · rw [Connection.on_write_skip hstate] at h
    cases h
    simpa [record] using hs

/-- Taking over a response answers the outstanding message. -/
theorem Inv.answering (hs : Inv limit s) (hstate : s.conn.state = .processing) (data : Bytes)
    (keepAlive : Bool) :
    Inv limit
      { s with conn := s.conn.answering data keepAlive, responses := s.responses ++ [data] } := by
  obtain ⟨hreset, hbuf, hreplies⟩ := hs.processing hstate
  exact ⟨hs.size, hs.maxSize, ⟨hreset, hbuf, by simpa using hreplies⟩, hs.messages,
    fun _ => hs.bytes (by simp [Live, hstate])⟩

/-- A message without a reply is outstanding: the connection is processing it, or is on its way
out. -/
theorem Inv.outstanding (hs : Inv limit s) (hpending : s.responses.length < s.messages.length) :
    s.conn.state = .processing ∨ s.conn.state = .closing ∨ s.conn.state = .closed := by
  cases hstate : s.conn.state with
  | reading => exact absurd (hs.reading hstate).2.2 (by omega)
  | writing => exact absurd (hs.writing hstate).2.2 (by omega)
  | processing => exact Or.inl rfl
  | closing => exact Or.inr (Or.inl rfl)
  | closed => exact Or.inr (Or.inr rfl)

/-- A reply. -/
theorem inv_reply {data : Bytes} {keepAlive : Bool} {w : WriteResults} (hs : Inv limit s)
    (hpending : s.responses.length < s.messages.length)
    (h : s.conn.sendInternal fuel data keepAlive w = some out) :
    Inv limit { s.record out with responses := s.responses ++ [data] } := by
  rcases hs.outstanding hpending with hstate | hstate
  · rw [Connection.send_internal_processing hstate] at h
    have hanswering := hs.answering hstate data keepAlive
    exact inv_write hanswering h
  · have hskip : s.conn.state ≠ .processing ∧ s.conn.state ≠ .reading := by
      rcases hstate with hstate | hstate <;> simp [hstate]
    rw [Connection.send_internal_skip hskip.1 hskip.2] at h
    cases h
    exact hs.not_live s.conn hs.size hs.maxSize hstate _ _

theorem inv_step {e : Event} (hs : Inv limit s) (h : Step e s t) : Inv limit t := by
  cases h with
  | read h => exact inv_read hs h
  | write h => exact inv_write hs h
  | reply hpending h => exact inv_reply hs hpending h
  | close =>
      have := hs.not_live s.conn.closeInternal hs.size hs.maxSize (Or.inr rfl) s.received
        s.responses
      simpa [record] using this

theorem inv_reachable (h : Reachable limit s) : Inv limit s := by
  induction h with
  | refl => exact inv_accept limit
  | tail _ hstep ih =>
      obtain ⟨e, hstep⟩ := hstep
      exact inv_step ih hstep

theorem size_t_le {n : Int} (h : 0 ≤ n) : (sizeT n : Int) ≤ n := by
  unfold sizeT
  omega

/-- In every session, the messages passed on so far, the bytes the parser has consumed and those
that wait in it, and the read buffer make up the bytes read from the socket; and every message is
non-empty and within the limit. -/
theorem session_bytes (limit : Int) (s : Session) (h : Reachable limit s) :
    (Live s.conn → s.messages.flatten ++ s.conn.parser.raw ++ s.conn.parser.pending ++
      s.conn.readBuf = s.received) ∧
    ∀ m ∈ s.messages, m ≠ [] ∧ (0 ≤ limit → (m.length : Int) ≤ limit) := by
  have hinv := inv_reachable h
  refine ⟨fun hlive => ?_, fun m hm => ?_⟩
  · have hbytes := hinv.bytes hlive
    simpa [held] using hbytes
  · obtain ⟨hne, hlimit⟩ := hinv.messages m hm
    refine ⟨hne, fun hpos => ?_⟩
    have := size_t_le hpos
    omega

/-- A session in which a request has been passed on and the start of the next one waits. -/
theorem session_bytes_pipelined : ∃ s, Reachable 65536 s ∧
    s.messages = [ascii "GET / HTTP/1.1\r\n\r\n"] ∧ s.conn.state = .processing ∧
    s.messages.flatten ++ s.conn.parser.raw ++ s.conn.parser.pending ++ s.conn.readBuf =
      s.received := by
  have hread : ((accept 65536).conn.onRead 9
      ⟨[ascii "GET / HTTP/1.1\r\n\r\nG"], .again, by decide⟩).any (fun out =>
        out.message = some (ascii "GET / HTTP/1.1\r\n\r\n") ∧ out.conn.state = .processing) =
      true := by decide
  obtain ⟨out, hout, hpost⟩ := (Option.any_eq_true _ _).1 hread
  obtain ⟨hmessage, hstate⟩ := of_decide_eq_true hpost
  have hreach : Reachable 65536 _ := .single ⟨_, Step.read hout⟩
  refine ⟨_, hreach, ?_, hstate, (session_bytes 65536 _ hreach).1 ?_⟩
  · show [] ++ out.message.toList = _
    rw [hmessage]
    rfl
  · show out.conn.state ≠ .closing ∧ out.conn.state ≠ .closed
    rw [hstate]
    decide

/-- A closed connection stays closed. -/
theorem step_closed {e : Event} (h : Step e s t) (hclosed : s.conn.state = .closed) :
    t.conn.state = .closed := by
  cases h with
  | read h =>
      simp only [Connection.onRead, hclosed] at h
      cases h
      exact hclosed
  | write h =>
      rw [Connection.on_write_skip (by simp [hclosed])] at h
      cases h
      exact hclosed
  | reply _ h =>
      rw [Connection.send_internal_skip (by simp [hclosed]) (by simp [hclosed])] at h
      cases h
      exact hclosed
  | close => rfl

end Session

end ApiGateway.Net
