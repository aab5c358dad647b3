import ApiGateway.Http.Driver

/-!
# Client connections

`Connection` of `connection.cpp`: reading bursts from the socket, finding messages in them,
writing responses and closing. The two buffers are byte queues. What the kernel does is an
argument of each event: the results of the `readv` calls of one `on_read` (`Burst`) and of the
`write` calls of one `on_write` (`WriteResults`). Every handler answers with the connection and
with what it has done to the outside: the message passed to `message_callback_` and the bytes
accepted by the socket.

A handler that parses takes the bound of the parser loop and answers `none` when it is used up.
-/

namespace ApiGateway.Net

open Http HttpParser

/-- `Connection::State`. -/
inductive ConnState where
  | reading
  | processing
  | writing
  | closing
  | closed
  deriving DecidableEq

/-- Why `on_read` stops reading: `EAGAIN`, end of stream, or another error. -/
inductive ReadStop where
  | again
  | eof
  | error
  deriving DecidableEq

/-- The results of the `readv` calls of one `on_read`: some that return bytes, and the last one. -/
structure Burst where
  chunks : List Bytes
  stop : ReadStop
  chunks_ne_nil : ∀ chunk ∈ chunks, chunk ≠ []

/-- The bytes of a burst. -/
def Burst.bytes (b : Burst) : Bytes :=
  b.chunks.flatten

/-- Why `on_write` stops before the buffer is empty: `EAGAIN` or a result of zero, or another
error. -/
inductive WriteStop where
  | again
  | error
  deriving DecidableEq

/-- The results of the `write` calls of one `on_write`: byte counts, and what follows them if the
buffer is not empty by then. -/
structure WriteResults where
  counts : List Nat
  stop : WriteStop
  counts_pos : ∀ n ∈ counts, 0 < n

/-- `class Connection`. -/
structure Connection where
  state : ConnState := .reading
  maxRequestSize : Int
  readBuf : Bytes := []
  writeBuf : Bytes := []
  parser : HttpParser
  keepAlive : Bool := false
  deriving DecidableEq

/-- What a handler leaves behind: the connection, the message passed to `message_callback_`, and
the bytes accepted by the socket. -/
structure Outcome where
  conn : Connection
  message : Option Bytes := none
  written : Bytes := []
  deriving DecidableEq

namespace Connection

/-- The constructor. -/
def accept (maxRequestSize : Int) : Connection :=
  { maxRequestSize := maxRequestSize, parser := fresh maxRequestSize }

/-- `close_internal`. -/
def closeInternal (c : Connection) : Connection :=
  { c with state := .closed }

/-- `try_parse_message`. -/
def tryParseMessage (fuel : Nat) (c : Connection) : Option Outcome := do
  match ← drive fuel c.parser c.readBuf with
  | (.failed, p, rest) => some { conn := { c with parser := p, readBuf := rest }.closeInternal }
  | (.complete, p, rest) =>
      some {
        conn := { c with parser := p.reset, readBuf := rest, state := .processing }
        message := some p.raw }
  | (.waiting, p, rest) => some { conn := { c with parser := p, readBuf := rest } }

/-- The read loop of `on_read`, and whether it was left by `break`. A buffer that has grown beyond
the request limit closes the connection. -/
def readLoop : Connection → List Bytes → ReadStop → Connection × Bool
  | c, [], .again => (c, true)
  | c, [], .eof => (c.closeInternal, false)
  | c, [], .error => (c.closeInternal, false)
  | c, chunk :: chunks, stop =>
      let c' := { c with readBuf := c.readBuf ++ chunk }
      if sizeT c.maxRequestSize < c'.readBuf.length then (c'.closeInternal, false)
      else readLoop c' chunks stop

/-- `on_read`. -/
def onRead (fuel : Nat) (c : Connection) (b : Burst) : Option Outcome :=
  match c.state with
  | .closing => some { conn := c.closeInternal }
  | .processing | .writing | .closed => some { conn := c }
  | .reading =>
      let read := c.readLoop b.chunks b.stop
      if read.2 then read.1.tryParseMessage fuel else some { conn := read.1 }

/-- `finish_response`. -/
def finishResponse (fuel : Nat) (c : Connection) : Option Outcome :=
  if c.keepAlive then
    let c' := { c with state := .reading, parser := c.parser.reset }
    if c'.parser.pending ≠ [] then c'.tryParseMessage fuel else some { conn := c' }
  else some { conn := { c with state := .closing } }

/-- The write loop of `on_write`: the connection, the bytes written, and whether the buffer is
empty. -/
def writeLoop : Connection → List Nat → WriteStop → Connection × Bytes × Bool
  | c, [], stop =>
      if c.writeBuf = [] then (c, [], true)
      else
        match stop with
        | .again => (c, [], false)
        | .error => (c.closeInternal, [], false)
  | c, n :: counts, stop =>
      if c.writeBuf = [] then (c, [], true)
      else
        let next := writeLoop { c with writeBuf := c.writeBuf.drop n } counts stop
        (next.1, c.writeBuf.take n ++ next.2.1, next.2.2)

/-- `on_write`. -/
def onWrite (fuel : Nat) (c : Connection) (w : WriteResults) : Option Outcome :=
  if c.state ≠ .writing then some { conn := c }
  else
    let wrote := c.writeLoop w.counts w.stop
    if wrote.2.2 then
      (finishResponse fuel wrote.1).map fun out => { out with written := wrote.2.1 }
    else some { conn := wrote.1, written := wrote.2.1 }

/-- The connection when `send_internal` has taken over a response. -/
def answering (c : Connection) (data : Bytes) (keepAlive : Bool) : Connection :=
  { c with keepAlive := keepAlive, writeBuf := c.writeBuf ++ data, state := .writing }

/-- `send_internal`. -/
def sendInternal (fuel : Nat) (c : Connection) (data : Bytes) (keepAlive : Bool)
    (w : WriteResults) : Option Outcome :=
  if c.state ≠ .processing ∧ c.state ≠ .reading then some { conn := c }
  else (c.answering data keepAlive).onWrite fuel w

variable {c : Connection} {fuel : Nat} {out : Outcome}

/-! ## The read loop -/

/-- The read loop stays within the limit exactly when the whole burst does. -/
theorem read_loop_again_iff (chunks : List Bytes) (stop : ReadStop)
    (hlimit : c.readBuf.length ≤ sizeT c.maxRequestSize) :
    (c.readLoop chunks stop).2 = true ↔
      stop = .again ∧ (c.readBuf ++ chunks.flatten).length ≤ sizeT c.maxRequestSize := by
  induction chunks generalizing c with
  | nil => cases stop <;> simp [readLoop, hlimit]
  | cons chunk chunks ih =>
      simp only [readLoop]
      split
      · rename_i hover
        refine iff_of_false (by simp) fun h => ?_
        have := h.2
        simp only [List.flatten_cons, List.length_append] at this hover
        omega
      · rename_i hwithin
        have hrest := ih (c := { c with readBuf := c.readBuf ++ chunk }) (Nat.le_of_not_lt hwithin)
        simpa using hrest

/-- Left by `break`, the read loop has appended the burst to the buffer. -/
theorem read_loop_again {chunks : List Bytes} {stop : ReadStop}
    (h : (c.readLoop chunks stop).2 = true) :
    (c.readLoop chunks stop).1 = { c with readBuf := c.readBuf ++ chunks.flatten } := by
  induction chunks generalizing c with
  | nil =>
      cases stop with
      | again => simp [readLoop]
      | eof => cases h
      | error => cases h
  | cons chunk chunks ih =>
      simp only [readLoop] at h ⊢
      split at h
      · cases h
      · rename_i hwithin
        rw [if_neg hwithin, ih h]
        simp

/-- Left by `return`, it has closed the connection. -/
theorem read_loop_closed {chunks : List Bytes} {stop : ReadStop}
    (h : (c.readLoop chunks stop).2 = false) :
    ∃ buf, (c.readLoop chunks stop).1 = { c with readBuf := buf }.closeInternal := by
  induction chunks generalizing c with
  | nil =>
      cases stop with
      | again => cases h
      | eof => exact ⟨c.readBuf, rfl⟩
      | error => exact ⟨c.readBuf, rfl⟩
  | cons chunk chunks ih =>
      simp only [readLoop] at h ⊢
      split at h
      · rename_i hover
        rw [if_pos hover]
        exact ⟨_, rfl⟩
      · rename_i hwithin
        rw [if_neg hwithin]
        exact ih h

/-! ## The write loop -/

/-- The write loop takes bytes from the front of the write buffer. Left at its condition it has
emptied the buffer; left by `return` it changes the state only to close. -/
theorem write_loop_spec (c : Connection) (counts : List Nat) (stop : WriteStop) :
    ∃ buf, c.writeBuf = (c.writeLoop counts stop).2.1 ++ buf ∧
      ((c.writeLoop counts stop).2.2 = true ∧ buf = [] ∧
          (c.writeLoop counts stop).1 = { c with writeBuf := [] } ∨
        (c.writeLoop counts stop).2.2 = false ∧
          ((c.writeLoop counts stop).1 = { c with writeBuf := buf } ∨
            stop = .error ∧
              (c.writeLoop counts stop).1 = { c with writeBuf := buf }.closeInternal)) := by
  induction counts generalizing c with
  | nil =>
      simp only [writeLoop]
      split
      · rename_i hnil
        refine ⟨[], by simpa using hnil, Or.inl ⟨rfl, rfl, ?_⟩⟩
        rw [← hnil]
      · cases stop with
        | again => exact ⟨c.writeBuf, rfl, Or.inr ⟨rfl, Or.inl rfl⟩⟩
        | error => exact ⟨c.writeBuf, rfl, Or.inr ⟨rfl, Or.inr ⟨rfl, rfl⟩⟩⟩
  | cons n counts ih =>
      simp only [writeLoop]
      split
      · rename_i hnil
        refine ⟨[], by simpa using hnil, Or.inl ⟨rfl, rfl, ?_⟩⟩
        rw [← hnil]
      · obtain ⟨buf, hbuf, hcases⟩ := ih { c with writeBuf := c.writeBuf.drop n }
        refine ⟨buf, ?_, hcases⟩
        rw [List.append_assoc, ← hbuf, List.take_append_drop]

/-! ## What the handlers can do -/

/-- What `on_read` can do in the state `Reading`. -/
inductive ReadEnds (fuel : Nat) (c : Connection) (b : Burst) : Outcome → Prop where
  | closed (buf : Bytes)
      (hwhy : b.stop ≠ .again ∨ sizeT c.maxRequestSize < (c.readBuf ++ b.bytes).length) :
      ReadEnds fuel c b { conn := { c with readBuf := buf }.closeInternal }
  | parsed {out : Outcome} (hstop : b.stop = .again)
      (hlimit : (c.readBuf ++ b.bytes).length ≤ sizeT c.maxRequestSize)
      (h : { c with readBuf := c.readBuf ++ b.bytes }.tryParseMessage fuel = some out) :
      ReadEnds fuel c b out

theorem on_read_within {b : Burst} (hstate : c.state = .reading)
    (hlimit : c.readBuf.length ≤ sizeT c.maxRequestSize) (hstop : b.stop = .again)
    (hfits : (c.readBuf ++ b.bytes).length ≤ sizeT c.maxRequestSize) :
    c.onRead fuel b = { c with readBuf := c.readBuf ++ b.bytes }.tryParseMessage fuel := by
  have hbreak := (read_loop_again_iff b.chunks b.stop hlimit).2 ⟨hstop, hfits⟩
  simp only [onRead, hstate]
  rw [if_pos hbreak, read_loop_again hbreak]
  simp only [hstate, Burst.bytes]

theorem on_read_closes {b : Burst} (fuel : Nat) (hstate : c.state = .reading)
    (hlimit : c.readBuf.length ≤ sizeT c.maxRequestSize)
    (hwhy : b.stop ≠ .again ∨ sizeT c.maxRequestSize < (c.readBuf ++ b.bytes).length) :
    ∃ buf, c.onRead fuel b = some { conn := { c with readBuf := buf }.closeInternal } := by
  have hreturn : (c.readLoop b.chunks b.stop).2 ≠ true := fun hbreak => by
    obtain ⟨hstop, hfits⟩ := (read_loop_again_iff b.chunks b.stop hlimit).1 hbreak
    exact hwhy.elim (fun hne => hne hstop) (Nat.not_lt.2 hfits)
  obtain ⟨buf, hclosed⟩ := read_loop_closed (by simpa using hreturn)
  refine ⟨buf, ?_⟩
  simp only [onRead, hstate]
  rw [if_neg hreturn, hclosed]
  rfl

theorem on_read_ends {b : Burst} (hstate : c.state = .reading)
    (hlimit : c.readBuf.length ≤ sizeT c.maxRequestSize) (h : c.onRead fuel b = some out) :
    ReadEnds fuel c b out := by
  by_cases hwhy : b.stop ≠ .again ∨ sizeT c.maxRequestSize < (c.readBuf ++ b.bytes).length
  · obtain ⟨buf, hclosed⟩ := on_read_closes fuel hstate hlimit hwhy
    cases hclosed.symm.trans h
    exact .closed buf hwhy
  · rw [not_or, not_not, Nat.not_lt] at hwhy
    rw [on_read_within hstate hlimit hwhy.1 hwhy.2] at h
    exact .parsed hwhy.1 hwhy.2 h

/-- A connection after a response that keeps it alive. -/
def renewed (c : Connection) : Connection :=
  { c with state := .reading, writeBuf := [], parser := c.parser.reset }

/-- What `on_write` can do in the state `Writing`. -/
inductive WriteEnds (fuel : Nat) (c : Connection) (w : WriteResults) : Outcome → Prop where
  | blocked (buf written : Bytes) (hbytes : c.writeBuf = written ++ buf) :
      WriteEnds fuel c w { conn := { c with writeBuf := buf }, written := written }
  | failed (buf written : Bytes) (hbytes : c.writeBuf = written ++ buf) (hstop : w.stop = .error) :
      WriteEnds fuel c w { conn := { c with writeBuf := buf }.closeInternal, written := written }
  | closing (hkeep : c.keepAlive = false) :
      WriteEnds fuel c w
        { conn := { c with writeBuf := [], state := .closing }, written := c.writeBuf }
  | idle (hkeep : c.keepAlive = true) (hpending : c.parser.pending = []) :
      WriteEnds fuel c w { conn := c.renewed, written := c.writeBuf }
  | parsed {out : Outcome} (hkeep : c.keepAlive = true) (hpending : c.parser.pending ≠ [])
      (h : c.renewed.tryParseMessage fuel = some out) :
      WriteEnds fuel c w { out with written := c.writeBuf }

theorem on_write_ends {w : WriteResults} (hstate : c.state = .writing)
    (h : c.onWrite fuel w = some out) : WriteEnds fuel c w out := by
  simp only [onWrite, hstate, ne_eq, not_true_eq_false, if_false] at h
  obtain ⟨buf, hbuf, ⟨hfinished, rfl, hconn⟩ | ⟨hreturn, hconn⟩⟩ :=
    write_loop_spec c w.counts w.stop
  · rw [List.append_nil] at hbuf
    rw [if_pos hfinished, hconn, ← hbuf, Option.map_eq_some_iff] at h
    obtain ⟨out', hout', rfl⟩ := h
    simp only [finishResponse] at hout'
    split at hout'
    · rename_i hkeep
      split at hout'
      · rename_i hpending
        exact .parsed hkeep hpending hout'
      · rename_i hpending
        cases hout'
        exact .idle hkeep (not_not.1 hpending)
    · rename_i hkeep
      cases hout'
      exact .closing (by simpa using hkeep)
  · rw [if_neg (by simp [hreturn])] at h
    cases h
    rcases hconn with hconn | ⟨hstop, hconn⟩
    · rw [hconn]
      exact .blocked buf _ hbuf
    · rw [hconn]
      exact .failed buf _ hbuf hstop

theorem on_write_skip {w : WriteResults} (hstate : c.state ≠ .writing) :
    c.onWrite fuel w = some { conn := c } :=
  if_pos hstate

theorem send_internal_processing {data : Bytes} {keepAlive : Bool} {w : WriteResults}
    (hstate : c.state = .processing) :
    c.sendInternal fuel data keepAlive w = (c.answering data keepAlive).onWrite fuel w :=
  if_neg fun h => h.1 hstate

theorem send_internal_skip {data : Bytes} {keepAlive : Bool} {w : WriteResults}
    (hprocessing : c.state ≠ .processing) (hreading : c.state ≠ .reading) :
    c.sendInternal fuel data keepAlive w = some { conn := c } :=
  if_pos ⟨hprocessing, hreading⟩

end Connection

end ApiGateway.Net
