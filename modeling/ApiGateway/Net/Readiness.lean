import ApiGateway.Library.EdgeTriggered
import ApiGateway.Net.Handlers

/-!
# Edge-triggered readiness

A connection with its socket in the kernel and its entry in the epoll set. The entry is
edge-triggered: `epoll_wait` reports it once when something has happened to the socket, and not
again although bytes are left. `on_read` skips its work while a request is processed or a response
is written, so that a report can be lost; what makes up for it are the calls of `mod_fd` in
`send_internal` and `finish_response`, which put an entry that is ready back on the list.

The main result is `sleeps_only_for_others`, for every kernel that keeps the promises of
`Kernel.Lawful`: whenever `epoll_wait` has nothing to report of a connection, the connection waits
for its client, for a worker, or for the kernel to take more bytes.
-/

namespace ApiGateway.Net

/-- A connection, its socket, all bytes that have arrived for it, and the events that its callback
has still to work on. -/
structure Watched (K : Kernel UInt8) where
  session : Session
  socket : K.Socket
  arrived : Bytes
  events : Events := {}

namespace Watched

section Handlers

variable (K : Kernel UInt8)

/-- The socket after `on_read`, which reads only in the state `Reading`. -/
def ReadEnds (k : K.Socket) (c : Connection) (b : Burst) (k' : K.Socket) : Prop :=
  if c.state = .reading then K.Reads k b.bytes (decide (b.stop = .again)) k' else k' = k

/-- The socket after `on_write`, which ends with the `mod_fd` of `finish_response` when the buffer
is empty, and otherwise with `EAGAIN` or an error. -/
def WriteEnds (k : K.Socket) (c : Connection) (w : WriteResults) (k' : K.Socket) : Prop :=
  if c.state = .writing then
    let wrote := c.writeLoop w.counts w.stop
    if wrote.2.2 then ∃ k₁, K.Writes k wrote.2.1 false k₁ ∧ K.Mods k₁ false k'
    else K.Writes k wrote.2.1 (decide (w.stop = .again)) k'
  else k' = k

/-- The socket after `send_internal`. -/
def SendEnds (k : K.Socket) (c : Connection) (data : Bytes) (keepAlive : Bool) (w : WriteResults)
    (k' : K.Socket) : Prop :=
  if c.state ≠ .processing ∧ c.state ≠ .reading then k' = k
  else ∃ k₁, K.Mods k true k₁ ∧ WriteEnds K k₁ (c.answering data keepAlive) w k'

end Handlers

variable {K : Kernel UInt8}

/-- What happens to a connection that is not closed: the client sends, ends its stream or receives;
`epoll_wait` reports the entry; the callback handles the events one after the other; and the event
loop runs a deferred reply or close. -/
inductive Step : Watched K → Watched K → Prop where
  | change {s : Watched K} {bytes : Bytes} {k : K.Socket} (hopen : s.session.conn.state ≠ .closed)
      (hchanges : K.Changes s.socket bytes k) :
      Step s { s with socket := k, arrived := s.arrived ++ bytes }
  | wait {s : Watched K} {e : Events} {k : K.Socket} (hopen : s.session.conn.state ≠ .closed)
      (hevents : s.events = {}) (hwaits : K.Waits s.socket e k) :
      Step s { s with socket := k, events := e }
  | read {s : Watched K} {b : Burst} {t : Session} {k : K.Socket}
      (hevents : s.events.readable = true)
      (hends : ReadEnds K s.socket s.session.conn b k) (h : Session.Step (.read b) s.session t) :
      Step s { s with session := t, socket := k, events := { s.events with readable := false } }
  | write {s : Watched K} {w : WriteResults} {t : Session} {k : K.Socket}
      (hevents : s.events = ⟨false, true⟩) (hends : WriteEnds K s.socket s.session.conn w k)
      (h : Session.Step (.write w) s.session t) :
      Step s { s with session := t, socket := k, events := {} }
  | reply {s : Watched K} {data : Bytes} {keepAlive : Bool} {w : WriteResults} {t : Session}
      {k : K.Socket} (hends : SendEnds K s.socket s.session.conn data keepAlive w k)
      (h : Session.Step (.reply data keepAlive w) s.session t) :
      Step s { s with session := t, socket := k }
  | close {s : Watched K} {t : Session} (h : Session.Step .close s.session t) :
      Step s { s with session := t }

/-- A new connection after `add_fd`, for which bytes or the end of the stream may be there
already. -/
def Accepted (limit : Int) (s : Watched K) : Prop :=
  ∃ k k', K.Mods k false k' ∧
    s = { session := .accept limit, socket := k', arrived := K.unread k' }

/-- The states of a connection with the given request limit. -/
def Reachable (limit : Int) (s : Watched K) : Prop :=
  ∃ start, Accepted limit start ∧ Relation.ReflTransGen Step start s

/-! ## Nothing is overlooked -/

/-- What is left to be done for a connection is on the list or has been reported: to read, if
it waits for a request or for the end of the stream, and to write, if it has not written a
response yet. -/
structure Attends (c : Connection) (k : K.Socket) (e : Events) : Prop where
  input : c.state = .reading ∨ c.state = .closing → K.InputSeen k e
  output : c.state = .writing → c.writeBuf ≠ [] ∧ K.OutputSeen k e

/-- The invariant. -/
structure Inv (limit : Int) (s : Watched K) : Prop where
  session : Session.Reachable limit s.session
  attends : Attends s.session.conn s.socket s.events
  arrived : s.session.conn.state ≠ .closed → s.session.received ++ K.unread s.socket = s.arrived

variable {limit : Int} {s t : Watched K} {c : Connection} {k k' : K.Socket} {e : Events}

/-- A connection that is neither writing nor unaware of what can be read. -/
theorem attends_of_not_writing (hstate : c.state ≠ .writing) (h : K.InputSeen k e) :
    Attends c k e where
  input := fun _ => h
  output := fun hwriting => absurd hwriting hstate

theorem attends_closed (k : K.Socket) (e : Events) : Attends c.closeInternal k e where
  input := by simp [Connection.closeInternal]
  output := by simp [Connection.closeInternal]

/-- Left before the buffer is empty, the write loop has met `EAGAIN`, or it has closed the
connection. -/
theorem write_loop_blocked {counts : List Nat} {stop : WriteStop}
    (h : (c.writeLoop counts stop).2.2 = false) :
    (stop = .again ∧ (c.writeLoop counts stop).1.writeBuf ≠ []) ∨
      (c.writeLoop counts stop).1.state = .closed := by
  induction counts generalizing c with
  | nil =>
      simp only [Connection.writeLoop] at h ⊢
      split at h
      · cases h
      · rename_i hbuf
        rw [if_neg hbuf]
        cases stop with
        | again => exact .inl ⟨rfl, hbuf⟩
        | error => exact .inr rfl
  | cons n counts ih =>
      simp only [Connection.writeLoop] at h ⊢
      split at h
      · cases h
      · rename_i hbuf
        rw [if_neg hbuf]
        exact ih h

/-- The write loop changes the state only to close the connection. -/
theorem write_loop_state (c : Connection) (counts : List Nat) (stop : WriteStop) :
    (c.writeLoop counts stop).1.state = c.state ∨
      (c.writeLoop counts stop).1.state = .closed := by
  obtain ⟨buf, -, ⟨-, -, hconn⟩ | ⟨-, hconn | ⟨-, hconn⟩⟩⟩ :=
    Connection.write_loop_spec c counts stop
  · exact .inl (by rw [hconn])
  · exact .inl (by rw [hconn])
  · exact .inr (by rw [hconn]; rfl)

section Lawful

variable (hK : K.Lawful)

include hK

theorem inv_accepted (h : Accepted limit s) : Inv limit s := by
  obtain ⟨k, k', hmods, rfl⟩ := h
  exact ⟨.refl, attends_of_not_writing (fun h => by cases h) (hK.input_mods hmods),
    fun _ => rfl⟩

theorem Attends.changes (h : Attends c k e) {bytes : Bytes} (hchanges : K.Changes k bytes k') :
    Attends c k' e where
  input := fun hstate => hK.input_changes (h.input hstate) hchanges
  output := fun hstate =>
    ⟨(h.output hstate).1, (h.output hstate).2.keeps (hK.changes_keeps hchanges) rfl⟩

theorem Attends.waits (h : Attends c k {}) (hwaits : K.Waits k e k') : Attends c k' e where
  input := fun _ => hK.input_waits hwaits
  output := fun hstate => ⟨(h.output hstate).1, hK.output_waits (h.output hstate).2 hwaits⟩

/-! ## Reading -/

/-- `on_read` leaves nothing to be read if it goes on, and touches nothing if it is skipped. -/
theorem attends_read {fuel : Nat} {b : Burst} {out : Outcome} {session : Session}
    (hinv : Session.Inv limit session) (h : Attends session.conn k e)
    (hends : ReadEnds K k session.conn b k') (hread : session.conn.onRead fuel b = some out) :
    Attends out.conn k' { e with readable := false } := by
  cases hstate : session.conn.state with
  | closing =>
      simp only [Connection.onRead, hstate] at hread
      cases hread
      exact attends_closed _ _
  | processing | writing | closed =>
      simp only [Connection.onRead, hstate] at hread
      cases hread
      have hsame : k' = k := by simpa [ReadEnds, hstate] using hends
      rw [hsame]
      exact ⟨by simp [hstate], h.output⟩
  | reading =>
      obtain ⟨hactive, hbuf, -⟩ := hinv.reading hstate
      cases Connection.on_read_ends hstate (by simp [hbuf]) hread with
      | closed => exact attends_closed _ _
      | parsed hstop _ hparse =>
          -- the burst has ended with `EAGAIN`
          have hreads : K.Reads k b.bytes true k' := by simpa [ReadEnds, hstate, hstop] using hends
          exact attends_of_not_writing
            ((Session.try_parse_message_parsed hparse hactive).not_writing hstate)
            (hK.input_reads hreads)

/-! ## Writing -/

/-- `on_write` empties the buffer and asks for what can be read, or meets `EAGAIN`, or closes the
connection. -/
theorem attends_write {fuel : Nat} {w : WriteResults} {out : Outcome}
    (h : c.state ≠ .writing → Attends c k e) (hout : c.state = .writing → K.asksOut k = true)
    (hends : WriteEnds K k c w k') (hwrite : c.onWrite fuel w = some out) :
    Attends out.conn k' { e with writable := false } := by
  by_cases hstate : c.state = .writing
  · simp only [Connection.onWrite, hstate, ne_eq, not_true_eq_false, if_false] at hwrite
    simp only [WriteEnds, hstate, if_true] at hends
    by_cases hfinished : (c.writeLoop w.counts w.stop).2.2 = true
    · rw [if_pos hfinished, Option.map_eq_some_iff] at hwrite
      obtain ⟨out', hout', rfl⟩ := hwrite
      rw [if_pos hfinished] at hends
      obtain ⟨k₁, -, hmods⟩ := hends
      have hleft := Session.finish_response_not_writing hout'
      exact attends_of_not_writing hleft (hK.input_mods hmods)
    · rw [if_neg hfinished] at hwrite hends
      cases hwrite
      have hsame := write_loop_state c w.counts w.stop
      rw [hstate] at hsame
      refine ⟨fun hinput => ?_, fun hwriting => ?_⟩
      · -- the state is `Writing` or `Closed`
        rcases hsame with hsame | hsame <;> simp [hsame] at hinput
      · obtain ⟨hagain, hbuf⟩ | hclosed := write_loop_blocked (Bool.eq_false_iff.2 hfinished)
        · rw [hagain] at hends
          exact ⟨hbuf, hK.output_writes (hout hstate) hends⟩
        · cases hclosed.symm.trans hwriting
  · rw [Connection.on_write_skip hstate] at hwrite
    cases hwrite
    obtain rfl : k' = k := by simpa [WriteEnds, hstate] using hends
    exact ⟨(h hstate).input, fun hwriting => absurd hwriting hstate⟩

/-- `send_internal` asks for `EPOLLOUT` before it writes. -/
theorem attends_send {fuel : Nat} {data : Bytes} {keepAlive : Bool} {w : WriteResults}
    {out : Outcome} (h : Attends c k e) (hends : SendEnds K k c data keepAlive w k')
    (hsend : c.sendInternal fuel data keepAlive w = some out) : Attends out.conn k' e := by
  unfold Connection.sendInternal at hsend
  unfold SendEnds at hends
  split at hsend
  · rename_i hskip
    cases hsend
    rw [if_pos hskip] at hends
    rw [hends]
    exact h
  · rename_i hanswers
    rw [if_neg hanswers] at hends
    obtain ⟨k₁, hmods, hwrites⟩ := hends
    have hafter := attends_write hK (e := e) (fun hstate => absurd rfl hstate)
      (fun _ => (hK.mods_same hmods).2) hwrites hsend
    refine ⟨hafter.input, fun hwriting => ?_⟩
    obtain ⟨hbuf, hasks, hseen⟩ := hafter.output hwriting
    refine ⟨hbuf, hasks, hseen.imp_right fun hnow => ⟨hnow.1, hnow.2.imp_right fun hfalse => ?_⟩⟩
    cases hfalse

/-! ## Runs -/

/-- What `on_read` takes from the socket is what it has received. -/
theorem received_read {b : Burst} (session : Session) (hends : ReadEnds K k session.conn b k') :
    session.received ++ session.taken b ++ K.unread k' = session.received ++ K.unread k := by
  unfold ReadEnds at hends
  unfold Session.taken
  split at hends
  · rename_i hstate
    rw [if_pos hstate, hK.reads_unread hends, List.append_assoc]
  · rename_i hstate
    rw [if_neg hstate, hends, List.append_nil]

theorem unread_write {w : WriteResults} (hends : WriteEnds K k c w k') :
    K.unread k' = K.unread k := by
  simp only [WriteEnds] at hends
  split at hends
  · split at hends
    · obtain ⟨k₁, hwrites, hmods⟩ := hends
      exact (hK.mods_same hmods).1.trans (hK.writes_same hwrites).1
    · exact (hK.writes_same hends).1
  · rw [hends]

theorem unread_send {data : Bytes} {keepAlive : Bool} {w : WriteResults}
    (hends : SendEnds K k c data keepAlive w k') : K.unread k' = K.unread k := by
  unfold SendEnds at hends
  split at hends
  · rw [hends]
  · obtain ⟨k₁, hmods, hwrites⟩ := hends
    exact (unread_write hK hwrites).trans (hK.mods_same hmods).1

omit hK in
/-- An event of the session that leaves the received bytes and the unread ones together as they
are. -/
theorem Inv.event (hs : Inv limit s) {event : Session.Event} {u : Session}
    (h : Session.Step event s.session u) (hattends : Attends u.conn k e)
    (hreceived : u.received ++ K.unread k = s.session.received ++ K.unread s.socket) :
    Inv limit { s with session := u, socket := k, events := e } where
  session := hs.session.tail ⟨event, h⟩
  attends := hattends
  arrived := fun hopen =>
    hreceived.trans (hs.arrived fun hclosed => hopen (Session.step_closed h hclosed))

theorem inv_step (hs : Inv limit s) (h : Step s t) : Inv limit t := by
  have hinv := Session.inv_reachable hs.session
  cases h with
  | @change bytes k hopen hchanges =>
      refine ⟨hs.session, hs.attends.changes hK hchanges, fun _ => ?_⟩
      show s.session.received ++ K.unread k = s.arrived ++ bytes
      rw [hK.changes_unread hchanges, ← List.append_assoc, hs.arrived hopen]
  | @wait e k hopen hevents hwaits =>
      refine ⟨hs.session, (hevents ▸ hs.attends : Attends _ _ {}).waits hK hwaits, fun _ => ?_⟩
      show s.session.received ++ K.unread k = s.arrived
      rw [(hK.waits_same hwaits).1, hs.arrived hopen]
  | read hevents hends hstep =>
      cases hstep with
      | read hread =>
          exact hs.event (.read hread) (attends_read hK hinv hs.attends hends hread)
            (received_read hK s.session hends)
  | write hevents hends hstep =>
      cases hstep with
      | write hwrite =>
          have hafter := attends_write hK (fun _ => hs.attends)
            (fun hstate => (hs.attends.output hstate).2.1) hends hwrite
          rw [hevents] at hafter
          refine hs.event (.write hwrite) hafter ?_
          rw [unread_write hK hends]
          rfl
  | reply hends hstep =>
      cases hstep with
      | reply hpending hsend =>
          refine hs.event (.reply hpending hsend) (attends_send hK hs.attends hends hsend) ?_
          rw [unread_send hK hends]
          rfl
  | close hstep =>
      cases hstep with
      | close => exact hs.event .close (attends_closed _ _) rfl

theorem inv_reachable (h : Reachable limit s) : Inv limit s := by
  obtain ⟨start, hstart, hrun⟩ := h
  induction hrun with
  | refl => exact inv_accepted hK hstart
  | tail _ hstep ih => exact inv_step hK ih hstep

end Lawful

/-- The entry is not on the list, and the callback has worked on everything that was reported. -/
def Quiet (s : Watched K) : Prop :=
  K.listed s.socket = false ∧ s.events = {}

theorem Inv.not_readable (hs : Inv limit s) (hquiet : s.Quiet)
    (hstate : s.session.conn.state = .reading ∨ s.session.conn.state = .closing) :
    K.unread s.socket = [] ∧ K.ended s.socket = false :=
  (hquiet.2 ▸ hs.attends.input hstate : K.InputSeen _ {}).not_readable hquiet.1

/-- Whenever `epoll_wait` has nothing to report of a connection and its callback is not running, the
connection waits for somebody else. In the state `Reading` it has read everything that has arrived,
which is the messages and the beginning of the next one, has answered all messages, has written all
answers, and the client has not ended its stream. In `Processing` one message has no answer yet. In
`Writing` the kernel takes no more bytes and owes an event for the time when it does. In `Closing`
all answers are written, nothing has arrived, and the client has not ended its stream. -/
theorem sleeps_only_for_others (K : Kernel UInt8) (hK : K.Lawful) (limit : Int) (s : Watched K)
    (h : Reachable limit s) (hquiet : s.Quiet) :
    (s.session.conn.state = .reading →
      s.session.messages.flatten ++ s.session.conn.parser.raw ++ s.session.conn.parser.pending =
          s.arrived ∧
        K.ended s.socket = false ∧ s.session.responses.length = s.session.messages.length ∧
        s.session.written = s.session.responses.flatten) ∧
      (s.session.conn.state = .processing →
        s.session.messages.length = s.session.responses.length + 1) ∧
      (s.session.conn.state = .writing →
        K.writable s.socket = false ∧ K.asksOut s.socket = true ∧ K.owesOut s.socket = true ∧
          s.session.conn.writeBuf ≠ []) ∧
      (s.session.conn.state = .closing →
        K.unread s.socket = [] ∧ K.ended s.socket = false ∧
          s.session.responses.length = s.session.messages.length ∧
          s.session.written = s.session.responses.flatten) := by
  have hs := inv_reachable hK h
  have hinv := Session.inv_reachable hs.session
  have hledger := Session.ledger_reachable hs.session
  have hwritten : s.session.conn.state ≠ .writing → s.session.conn.state ≠ .closed →
      s.session.written = s.session.responses.flatten := by
    intro hwriting hopen
    have hunwritten := hledger.unwritten hopen
    rwa [Session.flushed_reachable hs.session hwriting hopen, List.append_nil] at hunwritten
  refine ⟨fun hstate => ?_, fun hstate => ?_, fun hstate => ?_, fun hstate => ?_⟩
  · obtain ⟨hunread, hended⟩ := hs.not_readable hquiet (.inl hstate)
    obtain ⟨-, hbuf, hreplies⟩ := hinv.reading hstate
    have hbytes := hinv.bytes (by simp [Session.Live, hstate])
    have harrived := hs.arrived (by simp [hstate])
    rw [hunread, List.append_nil] at harrived
    refine ⟨?_, hended, hreplies, hwritten (by simp [hstate]) (by simp [hstate])⟩
    rw [← harrived, ← hbytes, Session.held, hbuf]
    simp
  · exact (hinv.processing hstate).2.2.symm
  · obtain ⟨hbuf, hseen⟩ := hs.attends.output hstate
    have howes := (hquiet.2 ▸ hseen : K.OutputSeen _ {}).owes hquiet.1
    exact ⟨hK.owes_blocked howes, hseen.1, howes, hbuf⟩
  · obtain ⟨hunread, hended⟩ := hs.not_readable hquiet (.inr hstate)
    exact ⟨hunread, hended, hledger.closing hstate,
      hwritten (by simp [hstate]) (by simp [hstate])⟩

/-- A socket with a send buffer that counts as writable from a low-water mark on. -/
structure MarkedSocket where
  unread : Bytes := []
  ended : Bool := false
  space : Nat := 0
  asksOut : Bool := false
  blocked : Bool := false
  listed : Bool := false

/-- A kernel with such sockets, which reports that a socket has become writable only after
`EAGAIN`. -/
def markedKernel (mark : Nat) : Kernel UInt8 where
  Socket := MarkedSocket
  unread k := k.unread
  ended k := k.ended
  writable k := decide (mark ≤ k.space)
  asksOut k := k.asksOut
  owesOut k := k.blocked && decide (k.space < mark)
  listed k := k.listed
  Changes k new k' := ∃ (ended : Bool) (freed : Nat), k' =
    { k with
      unread := k.unread ++ new
      ended := k.ended || ended
      space := k.space + freed
      listed := k.listed || !new.isEmpty || ended ||
        (k.asksOut && k.blocked && decide (mark ≤ k.space + freed)) }
  Waits k e k' := k.listed = true ∧ k' = { k with listed := false } ∧
    e = ⟨!k.unread.isEmpty || k.ended, k.asksOut && decide (mark ≤ k.space)⟩
  Reads k got again k' := ∃ rest, k.unread = got ++ rest ∧
    (again = true → rest = [] ∧ k.ended = false) ∧ k' = { k with unread := rest }
  Writes k taken again k' := taken.length ≤ k.space ∧
    (again = true → k.space - taken.length < mark) ∧
    k' = { k with space := k.space - taken.length, blocked := k.blocked || again }
  Mods k out k' := k' =
    { k with
      asksOut := out
      listed := k.listed || !k.unread.isEmpty || k.ended || (out && decide (mark ≤ k.space)) }

theorem marked_lawful (mark : Nat) : (markedKernel mark).Lawful := by
  constructor
  case owes_blocked =>
    intro k h
    have hless : k.space < mark := of_decide_eq_true (Bool.and_eq_true_iff.1 h).2
    exact decide_eq_false (not_le.2 hless)
  case changes_unread =>
    rintro k k' new ⟨ended, freed, rfl⟩
    rfl
  case changes_listed =>
    rintro k k' new ⟨ended, freed, rfl⟩
    cases new <;> cases ended <;> simp [markedKernel]
  case changes_keeps =>
    rintro k k' new ⟨ended, freed, rfl⟩
    refine ⟨rfl, fun h => ?_, fun h => ?_, fun hasks howes => ?_⟩
    · have hlisted : k.listed = true := h
      simp [markedKernel, hlisted]
    · have hmark : mark ≤ k.space := of_decide_eq_true h
      exact decide_eq_true (hmark.trans (Nat.le_add_right _ _))
    · have hasks' : k.asksOut = true := hasks
      have hblocked : k.blocked = true := (Bool.and_eq_true_iff.1 howes).1
      by_cases hmark : mark ≤ k.space + freed
      · exact .inr ⟨decide_eq_true hmark, by simp [markedKernel, hasks', hblocked, hmark]⟩
      · exact .inl (by simp [markedKernel, hblocked, not_le.1 hmark])
  case waits_events =>
    rintro k k' e ⟨-, -, he⟩
    exact he
  case waits_same =>
    rintro k k' e ⟨-, rfl, -⟩
    exact ⟨rfl, rfl, rfl, rfl, rfl⟩
  case reads_unread =>
    rintro k k' got again ⟨rest, hgot, -, rfl⟩
    exact hgot
  case reads_again =>
    rintro k k' got ⟨rest, -, hagain, rfl⟩
    simp [Kernel.readable, markedKernel, hagain rfl]
  case reads_keeps =>
    rintro k k' got again ⟨rest, -, -, rfl⟩
    exact ⟨rfl, id, id, fun _ h => .inl h⟩
  case writes_same =>
    rintro k k' taken again ⟨-, -, rfl⟩
    exact ⟨rfl, rfl⟩
  case writes_again =>
    rintro k k' taken ⟨-, hagain, rfl⟩
    simpa [markedKernel] using hagain rfl
  case mods_same =>
    rintro k k' out rfl
    exact ⟨rfl, rfl⟩
  case mods_listed =>
    rintro k k' out rfl hreadable
    have hready : (!k.unread.isEmpty || k.ended) = true := hreadable
    show (k.listed || !k.unread.isEmpty || k.ended || (out && decide (mark ≤ k.space))) = true
    rw [Bool.or_assoc k.listed, hready, Bool.or_true, Bool.true_or]

/-- The first byte of a request has been read, and the client sends nothing more. -/
theorem sleeps_only_for_others_started : ∃ s : Watched (markedKernel 100), Reachable 65536 s ∧
    s.Quiet ∧ s.session.conn.state = .reading ∧
    s.session.messages.flatten ++ s.session.conn.parser.raw ++ s.session.conn.parser.pending =
      ascii "G" := by
  have hread : ((Session.accept 65536).conn.onRead 3 ⟨[ascii "G"], .again, by decide⟩).any
      (fun out => out.conn.state = .reading) = true := by decide
  obtain ⟨out, hout, hstate⟩ := (Option.any_eq_true _ _).1 hread
  let start : Watched (markedKernel 100) :=
    { session := .accept 65536, socket := ({ space := 300 } : MarkedSocket), arrived := [] }
  have haccepted : Accepted 65536 start :=
    ⟨({ space := 300 } : MarkedSocket), _, rfl, rfl⟩
  have hchanges : (markedKernel 100).Changes start.socket (ascii "G") _ := ⟨false, 0, rfl⟩
  have harrives := Relation.ReflTransGen.single (Step.change (by decide) hchanges)
  have hwaits := harrives.tail (.wait (by decide) rfl ⟨rfl, rfl, rfl⟩)
  have hreads := hwaits.tail (.read (b := ⟨[ascii "G"], .again, by decide⟩) rfl
    ⟨[], rfl, fun _ => ⟨rfl, rfl⟩, rfl⟩ (.read hout))
  have hreach : Reachable 65536 _ := ⟨start, haccepted, hreads⟩
  have hreading := of_decide_eq_true hstate
  have hresult :=
    (sleeps_only_for_others (markedKernel 100) (marked_lawful 100) 65536 _ hreach ⟨rfl, rfl⟩).1
      hreading
  exact ⟨_, hreach, ⟨rfl, rfl⟩, hreading, hresult.1⟩

end Watched

end ApiGateway.Net
