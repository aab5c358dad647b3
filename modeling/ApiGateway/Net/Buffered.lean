import ApiGateway.Net.Buffer
import ApiGateway.Net.Handlers

/-!
# Connections over their buffers

`Connection` once more, with the two `Buffer`s it really has in place of byte queues: its handlers
read with `read_from_fd`, hand `readable_data` to the parser, `consume` what the parser reports,
`append` a response and write it with `write_to_fd`. A `BufferedSession` is a run of such a
connection.

`buffered_session_refines` connects the two levels: every run over buffers is a run over queues, no
copy of a handler leaves the bounds of its vector and none of them throws, and the two vectors stay
within bounds that depend only on the limits for requests and responses.
-/

namespace ApiGateway.Net

open Http

namespace Buffer

/-- A buffer that represents a queue whose first byte is right behind the reserve. -/
structure Packed (b : Buffer) (queue : Bytes) : Prop extends Holds b queue where
  start : b.readIdx = prependable

variable {b : Buffer} {queue data : Bytes} {n : Nat}

theorem packed_fresh : fresh.Packed [] :=
  ⟨holds_fresh, rfl⟩

theorem size_fresh : fresh.buf.size = 4224 :=
  List.length_replicate

theorem Packed.write_idx (h : b.Packed queue) : b.writeIdx = 128 + queue.length := by
  have hlength := h.length_eq
  have hstart : b.readIdx = 128 := h.start
  omega

/-- The room that is needed is at the end of the vector, which grows by no more than that. -/
theorem Packed.ensure_writable (h : b.Packed queue)
    (hlimit : 128 + queue.length + n ≤ 2 ^ 63 - 1) :
    ∃ b', b.ensureWritable n = .ok b' ∧ b'.Packed queue ∧ n ≤ b'.writableSize ∧
      b'.buf.size = max b.buf.size (128 + queue.length + n) := by
  have hwrite := h.write_idx
  have hsize := h.writable_size_eq
  have hstart : b.readIdx = 128 := h.start
  have hvector : b.buf.size ≤ 2 ^ 63 - 1 := b.buf.size_le
  unfold ensureWritable
  split_ifs with hroom hmove
  · exact ⟨b, rfl, h, hroom, by omega⟩
  · -- nothing can be gained by moving the queue
    have hmove' : (n + 128) % 2 ^ 64 ≤ (b.readIdx + b.writableSize) % 2 ^ 64 := hmove
    omega
  · have hsum : (b.buf.size + (n - b.writableSize)) % 2 ^ 64 = 128 + queue.length + n := by omega
    obtain ⟨buf, hbuf, hgrown⟩ := resize_of_le (v := b.buf) hlimit
    have hmeets := h.resize (n := 128 + queue.length + n) (by omega)
    rw [hbuf] at hmeets
    obtain ⟨hholds, -, -⟩ := hmeets
    refine ⟨{ b with buf := buf }, ?_, ⟨hholds, h.start⟩, ?_, ?_⟩
    · simp only [hsum, hbuf]
      rfl
    · have hsize' := hholds.writable_size_eq
      have hread' : ({ b with buf := buf } : Buffer).readIdx = 128 := hstart
      have hgrown' : ({ b with buf := buf } : Buffer).buf.size = 128 + queue.length + n := hgrown
      omega
    · show buf.size = _
      omega

theorem Packed.append (h : b.Packed queue) (data : Bytes)
    (hlimit : 128 + queue.length + data.length ≤ 2 ^ 63 - 1) :
    ∃ b', b.append data = .ok b' ∧ b'.Packed (queue ++ data) ∧
      b'.buf.size = max b.buf.size (128 + queue.length + data.length) := by
  have hwrite := h.write_idx
  have hsize := h.write_le
  unfold Buffer.append
  split_ifs with hempty
  · rw [List.length_eq_zero_iff.1 hempty, List.append_nil]
    refine ⟨b, rfl, h, ?_⟩
    rw [List.length_nil]
    omega
  · obtain ⟨b', hb', hpacked, hroom, hgrown⟩ := h.ensure_writable hlimit
    obtain ⟨buf, hbuf, hsame, hadded⟩ := hpacked.write hroom
    refine ⟨_, ?_, ⟨hadded, hpacked.start⟩, hsame.trans hgrown⟩
    rw [hb', ok_bind, hbuf]
    rfl

/-- What `readv` has received is added behind the queue. The vector only grows if the writable space
is smaller than `stack_buf`. -/
theorem Packed.read_from_fd (h : b.Packed queue) (hdata : data.length ≤ b.offered)
    (hlimit : 128 + queue.length + data.length ≤ 2 ^ 63 - 1) :
    ∃ r, b.readFromFd (some data) = .ok r ∧ r.2.Packed (queue ++ data) ∧
      r.2.buf.size ≤ max b.buf.size (queue.length + 131200) := by
  have hwrite := h.write_idx
  have hsize := h.writable_size_eq
  have hstart : b.readIdx = 128 := h.start
  show ∃ r, (if data.length = 0 then _ else _) = _ ∧ _
  split_ifs with hempty hfits
  · rw [List.length_eq_zero_iff.1 hempty, List.append_nil]
    exact ⟨_, rfl, h, le_max_left _ _⟩
  · rw [List.take_of_length_le hfits]
    obtain ⟨buf, hbuf, hsame, hadded⟩ := h.write hfits
    rw [hbuf, ok_bind]
    exact ⟨_, rfl, ⟨hadded, h.start⟩, hsame.trans_le (le_max_left _ _)⟩
  · obtain ⟨buf, hbuf, hadded⟩ := h.write_full (Nat.le_of_not_le hfits)
    have hfull : Packed { b with buf := buf, writeIdx := buf.size }
        (queue ++ data.take b.writableSize) := ⟨hadded, h.start⟩
    have hsame := hfull.write_idx
    have htake : (data.take b.writableSize).length = b.writableSize :=
      List.length_take_of_le (Nat.le_of_not_le hfits)
    have hstack : stackSize = 65536 := rfl
    unfold offered at hdata
    obtain ⟨b', hb', hpacked, hgrown⟩ := hfull.append (data.drop b.writableSize) (by
      rw [List.length_append, List.length_drop, htake]
      omega)
    rw [List.append_assoc, List.take_append_drop] at hpacked
    refine ⟨(data.length, b'), ?_, hpacked, ?_⟩
    · rw [hbuf, ok_bind, hb']
      rfl
    · show b'.buf.size ≤ _
      rw [hgrown, List.length_append, List.length_drop, htake]
      rw [List.length_append, htake] at hsame
      have hsame' : buf.size = 128 + (queue.length + b.writableSize) := hsame
      show max buf.size _ ≤ _
      split_ifs at hdata <;> omega

/-- An empty queue is right behind the reserve. -/
structure Tidy (b : Buffer) (queue : Bytes) : Prop extends Holds b queue where
  start : queue = [] → b.readIdx = prependable

theorem Packed.tidy (h : b.Packed queue) : b.Tidy queue :=
  ⟨h.toHolds, fun _ => h.start⟩

theorem Tidy.packed (h : b.Tidy []) : b.Packed [] :=
  ⟨h.toHolds, h.start rfl⟩

/-- `consume` moves `read_idx_` forward, and puts both indices back when nothing is left. -/
theorem consume_cases (b : Buffer) (n : Nat) :
    b.consume n = { b with readIdx := prependable, writeIdx := prependable } ∨
      ∃ readIdx, readIdx ≠ b.writeIdx ∧ b.consume n = { b with readIdx := readIdx } := by
  simp only [Buffer.consume]
  generalize (b.readIdx + (if b.readableSize < n then b.readableSize else n)) % 2 ^ 64 = readIdx
  by_cases hall : readIdx = b.writeIdx
  · exact Or.inl (if_pos hall)
  · exact Or.inr ⟨readIdx, hall, if_neg hall⟩

theorem size_consume (b : Buffer) (n : Nat) : (b.consume n).buf.size = b.buf.size := by
  rw [consume_buf]

/-- `consume` puts an empty queue back behind the reserve. -/
theorem Holds.consume_tidy (h : b.Holds queue) (n : Nat) :
    (b.consume n).Tidy (queue.drop n) := by
  have hholds := h.consume n
  refine ⟨hholds, fun hnil => ?_⟩
  have hlength := hholds.length_eq
  rw [hnil, List.length_nil, Nat.add_zero] at hlength
  obtain hconsume | ⟨readIdx, hne, hconsume⟩ := b.consume_cases n
  · rw [hconsume]
  · rw [hconsume] at hlength
    exact absurd hlength hne

theorem Holds.readable_size_eq_zero_iff (h : b.Holds queue) : b.readableSize = 0 ↔ queue = [] := by
  have hlength := h.length_eq
  rw [h.readable_size, ← List.length_eq_zero_iff]
  omega

theorem Holds.readable_size_eq (h : b.Holds queue) : b.readableSize = queue.length := by
  have hlength := h.length_eq
  rw [h.readable_size]
  omega

end Buffer

open Buffer

/-- `class Connection`, with its buffers. -/
structure BufferedConnection where
  state : ConnState := .reading
  maxRequestSize : Int
  readBuf : Buffer := .fresh
  writeBuf : Buffer := .fresh
  parser : HttpParser
  keepAlive : Bool := false

/-- What a handler leaves behind: the connection, the message passed to `message_callback_`, the
pieces taken from the socket and the bytes accepted by it. -/
structure BufferedOutcome where
  conn : BufferedConnection
  message : Option Bytes := none
  pieces : List Bytes := []
  written : Bytes := []

namespace BufferedConnection

/-- The constructor. -/
def accept (maxRequestSize : Int) : BufferedConnection :=
  { maxRequestSize := maxRequestSize, parser := HttpParser.fresh maxRequestSize }

/-- `close_internal`. -/
def closeInternal (c : BufferedConnection) : BufferedConnection :=
  { c with state := .closed }

/-- The loop of `try_parse_message`, with a bound on its passes and on those of the parser. -/
def drive : Nat → HttpParser → Buffer → Except Fault (Option (Verdict × HttpParser × Buffer))
  | 0, _, _ => .ok none
  | fuel + 1, p, readBuf =>
      if readBuf.readableSize = 0 ∧ p.pending = [] then .ok (some (.waiting, p, readBuf))
      else do
        let data ← readBuf.readAsString
        match p.parse fuel data with
        | none => .ok none
        | some parsed =>
            let rest := readBuf.consume parsed.2
            if parsed.1.state = .error then .ok (some (.failed, parsed.1, rest))
            else if parsed.1.state = .complete then .ok (some (.complete, parsed.1, rest))
            else if parsed.2 = 0 then .ok (some (.waiting, parsed.1, rest))
            else drive fuel parsed.1 rest

/-- `try_parse_message`. -/
def tryParseMessage (fuel : Nat) (c : BufferedConnection) :
    Except Fault (Option BufferedOutcome) := do
  match ← drive fuel c.parser c.readBuf with
  | none => return none
  | some (.failed, p, rest) =>
      return some { conn := { c with parser := p, readBuf := rest }.closeInternal }
  | some (.complete, p, rest) =>
      return some {
        conn := { c with parser := p.reset, readBuf := rest, state := .processing }
        message := some p.raw }
  | some (.waiting, p, rest) => return some { conn := { c with parser := p, readBuf := rest } }

/-- The read loop of `on_read`, whether it was left by `break`, and the pieces it has read. The
kernel has some bytes for each call of `readv`, which takes no more of them than there is space
for. -/
def readLoop : BufferedConnection → List Bytes → ReadStop →
    Except Fault (BufferedConnection × Bool × List Bytes)
  | c, [], .again => do
      let read ← c.readBuf.readFromFd none
      return ({ c with readBuf := read.2 }, true, [])
  | c, [], .eof => do
      let read ← c.readBuf.readFromFd (some [])
      return ({ c with readBuf := read.2 }.closeInternal, false, [])
  | c, [], .error => do
      let read ← c.readBuf.readFromFd none
      return ({ c with readBuf := read.2 }.closeInternal, false, [])
  | c, chunk :: chunks, stop => do
      let piece := chunk.take c.readBuf.offered
      let read ← c.readBuf.readFromFd (some piece)
      let c' := { c with readBuf := read.2 }
      if sizeT c.maxRequestSize < c'.readBuf.readableSize then
        return (c'.closeInternal, false, [piece])
      else do
        let next ← readLoop c' chunks stop
        return (next.1, next.2.1, piece :: next.2.2)

/-- `on_read`. -/
def onRead (fuel : Nat) (c : BufferedConnection) (b : Burst) :
    Except Fault (Option BufferedOutcome) :=
  match c.state with
  | .closing => .ok (some { conn := c.closeInternal })
  | .processing | .writing | .closed => .ok (some { conn := c })
  | .reading => do
      let read ← c.readLoop b.chunks b.stop
      if read.2.1 then do
        let out ← read.1.tryParseMessage fuel
        return out.map fun out => { out with pieces := read.2.2 }
      else return some { conn := read.1, pieces := read.2.2 }

/-- `finish_response`. -/
def finishResponse (fuel : Nat) (c : BufferedConnection) : Except Fault (Option BufferedOutcome) :=
  if c.keepAlive then
    let c' := { c with state := .reading, parser := c.parser.reset }
    if c'.parser.pending ≠ [] then c'.tryParseMessage fuel else .ok (some { conn := c' })
  else .ok (some { conn := { c with state := .closing } })

/-- The write loop of `on_write`: the connection, the bytes written, and whether the buffer is
empty. The kernel would accept some number of bytes in each call of `write`, which offers it the
readable ones. -/
def writeLoop : BufferedConnection → List Nat → WriteStop →
    Except Fault (BufferedConnection × Bytes × Bool)
  | c, [], stop =>
      if c.writeBuf.readableSize = 0 then .ok (c, [], true)
      else do
        let wrote ← c.writeBuf.writeToFd none
        let c' := { c with writeBuf := wrote.2.2 }
        match stop with
        | .again => return (c', wrote.2.1, false)
        | .error => return (c'.closeInternal, wrote.2.1, false)
  | c, n :: counts, stop =>
      if c.writeBuf.readableSize = 0 then .ok (c, [], true)
      else do
        let wrote ← c.writeBuf.writeToFd (some (min n c.writeBuf.readableSize))
        let next ← writeLoop { c with writeBuf := wrote.2.2 } counts stop
        return (next.1, wrote.2.1 ++ next.2.1, next.2.2)

/-- `on_write`. -/
def onWrite (fuel : Nat) (c : BufferedConnection) (w : WriteResults) :
    Except Fault (Option BufferedOutcome) :=
  if c.state ≠ .writing then .ok (some { conn := c })
  else do
    let wrote ← c.writeLoop w.counts w.stop
    if wrote.2.2 then do
      let out ← finishResponse fuel wrote.1
      return out.map fun out => { out with written := wrote.2.1 }
    else return some { conn := wrote.1, written := wrote.2.1 }

/-- `send_internal`. -/
def sendInternal (fuel : Nat) (c : BufferedConnection) (data : Bytes) (keepAlive : Bool)
    (w : WriteResults) : Except Fault (Option BufferedOutcome) :=
  if c.state ≠ .processing ∧ c.state ≠ .reading then .ok (some { conn := c })
  else do
    let writeBuf ← c.writeBuf.append data
    { c with keepAlive := keepAlive, writeBuf := writeBuf, state := .writing }.onWrite fuel w

/-- The connection over queues that a connection over buffers stands for. -/
structure Represents (c : BufferedConnection) (a : Connection) : Prop where
  state : c.state = a.state
  maxRequestSize : c.maxRequestSize = a.maxRequestSize
  parser : c.parser = a.parser
  keepAlive : c.keepAlive = a.keepAlive
  readBuf : c.readBuf.Tidy a.readBuf
  writeBuf : c.writeBuf.Tidy a.writeBuf

/-- The vectors of the two buffers have at most so many bytes. -/
structure Within (reads writes : Nat) (c : BufferedConnection) : Prop where
  reads : c.readBuf.buf.size ≤ reads
  writes : c.writeBuf.buf.size ≤ writes

/-- A handler over buffers has done what the one over queues does. -/
structure Agrees (reads writes : Nat) (out : BufferedOutcome) (out' : Outcome) : Prop where
  conn : out.conn.Represents out'.conn
  within : out.conn.Within reads writes
  message : out.message = out'.message
  written : out.written = out'.written

variable {c : BufferedConnection} {a : Connection} {reads writes fuel : Nat}

theorem Represents.close_internal (h : c.Represents a) :
    c.closeInternal.Represents a.closeInternal :=
  { h with state := rfl }

theorem Within.close_internal (h : c.Within reads writes) : c.closeInternal.Within reads writes :=
  { h with }

/-- Which pieces were read before does not matter. -/
theorem Agrees.with_pieces {out : Option BufferedOutcome} {out' : Option Outcome}
    (h : Option.Rel (Agrees reads writes) out out') (pieces : List Bytes) :
    Option.Rel (Agrees reads writes) (out.map fun o => { o with pieces := pieces }) out' := by
  cases h with
  | none => exact .none
  | some h => exact .some { h with }

/-- The bytes written before are the same. -/
theorem Agrees.with_written {out : Option BufferedOutcome} {out' : Option Outcome}
    (h : Option.Rel (Agrees reads writes) out out') (written : Bytes) :
    Option.Rel (Agrees reads writes) (out.map fun o => { o with written := written })
      (out'.map fun o => { o with written := written }) := by
  cases h with
  | none => exact .none
  | some h => exact .some { h with written := rfl }

/-! ## Finding messages -/

/-- The loop over the buffer is the loop over the queue. -/
theorem drive_refines (fuel : Nat) {p : HttpParser} {b : Buffer} {queue : Bytes}
    (h : b.Tidy queue) :
    ∃ r, drive fuel p b = .ok r ∧
      Option.Rel (fun x y => x.1 = y.1 ∧ x.2.1 = y.2.1 ∧ x.2.2.Tidy y.2.2 ∧
        x.2.2.buf.size = b.buf.size) r (HttpParser.drive fuel p queue) := by
  induction fuel generalizing p b queue with
  | zero => exact ⟨none, rfl, .none⟩
  | succ fuel ih =>
      unfold drive HttpParser.drive
      have hempty := h.readable_size_eq_zero_iff
      by_cases hidle : queue = [] ∧ p.pending = []
      · rw [if_pos (And.imp_left hempty.2 hidle), if_pos hidle]
        exact ⟨_, rfl, .some ⟨rfl, rfl, h, rfl⟩⟩
      · rw [if_neg (mt (And.imp_left hempty.1) hidle), if_neg hidle, h.readable, ok_bind]
        cases hparse : p.parse fuel queue with
        | none => exact ⟨none, rfl, .none⟩
        | some parsed =>
            have hrest := h.consume_tidy parsed.2
            have hsize := b.size_consume parsed.2
            rw [Option.bind_eq_bind, Option.bind_some]
            dsimp only
            split_ifs with herror hcomplete hzero
            · exact ⟨_, rfl, .some ⟨rfl, rfl, hrest, hsize⟩⟩
            · exact ⟨_, rfl, .some ⟨rfl, rfl, hrest, hsize⟩⟩
            · exact ⟨_, rfl, .some ⟨rfl, rfl, hrest, hsize⟩⟩
            · obtain ⟨r, hr, hrel⟩ := ih (p := parsed.1) hrest
              rw [hsize] at hrel
              exact ⟨r, hr, hrel⟩

theorem try_parse_message_refines (fuel : Nat) (h : c.Represents a)
    (hwithin : c.Within reads writes) :
    ∃ out, c.tryParseMessage fuel = .ok out ∧
      Option.Rel (Agrees reads writes) out (a.tryParseMessage fuel) := by
  obtain ⟨r, hr, hrel⟩ := drive_refines fuel (p := c.parser) h.readBuf
  unfold tryParseMessage Connection.tryParseMessage
  rw [hr, ok_bind, ← h.parser]
  revert hrel
  cases HttpParser.drive fuel c.parser a.readBuf with
  | none =>
      rintro ⟨⟩
      exact ⟨none, rfl, .none⟩
  | some y =>
      rintro ⟨hverdict, hparser, hrest, hsize⟩
      rename_i x
      obtain ⟨v, p, rest⟩ := x
      obtain ⟨v', p', rest'⟩ := y
      obtain rfl : v = v' := hverdict
      obtain rfl : p = p' := hparser
      have hkept : Within reads writes { c with parser := p, readBuf := rest } :=
        ⟨hsize.trans_le hwithin.reads, hwithin.writes⟩
      have hrep : Represents { c with parser := p, readBuf := rest }
          { a with parser := p, readBuf := rest' } :=
        { h with parser := rfl, readBuf := hrest }
      cases v with
      | waiting => exact ⟨_, rfl, .some ⟨hrep, hkept, rfl, rfl⟩⟩
      | failed =>
          exact ⟨_, rfl, .some ⟨hrep.close_internal, hkept.close_internal, rfl, rfl⟩⟩
      | complete =>
          exact ⟨_, rfl, .some ⟨{ hrep with state := rfl, parser := rfl },
            { hkept with }, rfl, rfl⟩⟩

/-! ## Reading -/

/-- The read loop over the buffer is the one over the queue, for the pieces it has taken. -/
theorem read_loop_refines (h : c.Represents a) (hpacked : c.readBuf.Packed a.readBuf)
    (hwithin : c.Within reads writes) {limit : Nat} (hlimit : sizeT c.maxRequestSize = limit)
    (hqueue : a.readBuf.length ≤ limit) (hreads : limit + 131200 ≤ reads)
    (hmemory : reads ≤ 2 ^ 62) (chunks : List Bytes) (stop : ReadStop)
    (hchunks : ∀ chunk ∈ chunks, chunk ≠ []) :
    ∃ r, c.readLoop chunks stop = .ok r ∧ (∀ piece ∈ r.2.2, piece ≠ []) ∧
      r.1.Represents (a.readLoop r.2.2 stop).1 ∧ r.2.1 = (a.readLoop r.2.2 stop).2 ∧
      r.1.Within reads writes := by
  induction chunks generalizing c a with
  | nil =>
      cases stop with
      | again => exact ⟨_, rfl, by simp, h, rfl, hwithin⟩
      | eof => exact ⟨_, rfl, by simp, h.close_internal, rfl, hwithin.close_internal⟩
      | error => exact ⟨_, rfl, by simp, h.close_internal, rfl, hwithin.close_internal⟩
  | cons chunk chunks ih =>
      have hne : chunk ≠ [] := hchunks chunk (by simp)
      have hoffered : 0 < c.readBuf.offered := by
        have hstack : stackSize = 65536 := rfl
        unfold offered
        split_ifs <;> omega
      have hpiece : chunk.take c.readBuf.offered ≠ [] := by
        rw [ne_eq, List.take_eq_nil_iff, not_or]
        exact ⟨hoffered.ne', hne⟩
      have hfits : (chunk.take c.readBuf.offered).length ≤ c.readBuf.offered :=
        List.length_take_le _ _
      have hroom : c.readBuf.offered ≤ reads + 65536 := by
        have hle := c.readBuf.offered_le
        have hsize := hpacked.writable_size_eq
        have hreads' := hwithin.reads
        omega
      unfold readLoop
      dsimp only
      generalize chunk.take c.readBuf.offered = piece at hpiece hfits ⊢
      obtain ⟨read, hread, hpacked', hgrown⟩ := hpacked.read_from_fd hfits (by omega)
      have hrep' : Represents { c with readBuf := read.2 }
        { a with readBuf := a.readBuf ++ piece } :=
        { h with readBuf := hpacked'.tidy }
      have hwithin' : Within reads writes { c with readBuf := read.2 } :=
        ⟨hgrown.trans (max_le hwithin.reads (by omega)), hwithin.writes⟩
      have hsize := hpacked'.readable_size_eq
      have hlimit' : sizeT a.maxRequestSize = limit := h.maxRequestSize ▸ hlimit
      rw [hread, ok_bind, hsize, hlimit]
      by_cases hover : limit < (a.readBuf ++ piece).length
      · rw [if_pos hover]
        have hclosed : a.readLoop [piece] stop =
            ({ a with readBuf := a.readBuf ++ piece }.closeInternal, false) := by
          unfold Connection.readLoop
          rw [hlimit']
          exact if_pos hover
        refine ⟨_, rfl, by simpa using hpiece, ?_, ?_, hwithin'.close_internal⟩
        · show Represents _ (a.readLoop [piece] stop).1
          rw [hclosed]
          exact hrep'.close_internal
        · show false = (a.readLoop [piece] stop).2
          rw [hclosed]
      · rw [if_neg hover]
        obtain ⟨next, hnext, hpieces, hrest, hbreak, hwithin''⟩ := ih hrep' hpacked' hwithin' hlimit
          (Nat.le_of_not_lt hover) fun chunk hmem => hchunks chunk (List.mem_cons_of_mem _ hmem)
        have hagain : a.readLoop (piece :: next.2.2) stop =
            { a with readBuf := a.readBuf ++ piece }.readLoop next.2.2 stop := by
          rw [Connection.readLoop, hlimit']
          exact if_neg hover
        rw [hnext, ok_bind]
        refine ⟨_, rfl, ?_, ?_, ?_, hwithin''⟩
        · exact List.forall_mem_cons.2 ⟨hpiece, hpieces⟩
        · show Represents _ (a.readLoop (piece :: next.2.2) stop).1
          rw [hagain]
          exact hrest
        · show next.2.1 = (a.readLoop (piece :: next.2.2) stop).2
          rw [hagain]
          exact hbreak

/-- A burst: the pieces taken from the socket are a burst for the connection over queues. -/
theorem on_read_refines (fuel : Nat) (h : c.Represents a)
    (hempty : a.state = .reading → a.readBuf = []) (hwithin : c.Within reads writes)
    (hreads : sizeT c.maxRequestSize + 131200 ≤ reads)
    (hmemory : reads ≤ 2 ^ 62) (b : Burst) :
    ∃ out b', c.onRead fuel b = .ok out ∧ Option.Rel (Agrees reads writes) out (a.onRead fuel b') ∧
      ∀ o ∈ out, o.pieces.flatten = if a.state = .reading then b'.bytes else [] := by
  unfold onRead Connection.onRead
  rw [h.state]
  cases hstate : a.state with
  | closing =>
      refine ⟨_, b, rfl, .some ⟨h.close_internal, hwithin.close_internal, rfl, rfl⟩, ?_⟩
      rintro o ⟨⟩
      rfl
  | processing | writing | closed =>
      refine ⟨_, b, rfl, .some ⟨h, hwithin, rfl, rfl⟩, ?_⟩
      rintro o ⟨⟩
      rfl
  | reading =>
      have hnil := hempty hstate
      have hpacked : c.readBuf.Packed a.readBuf := by
        have htidy := h.readBuf
        rw [hnil] at htidy ⊢
        exact htidy.packed
      obtain ⟨read, hread, hpieces, hrep, hbreak, hkept⟩ := read_loop_refines h hpacked hwithin rfl
        (by simp [hnil]) hreads hmemory b.chunks b.stop b.chunks_ne_nil
      dsimp only
      rw [hread, ok_bind]
      by_cases hagain : read.2.1 = true
      · obtain ⟨out, hout, hrel⟩ := try_parse_message_refines fuel hrep hkept
        refine ⟨out.map fun out => { out with pieces := read.2.2 }, ⟨read.2.2, b.stop, hpieces⟩,
          ?_, ?_, ?_⟩
        · rw [if_pos hagain, hout]
          rfl
        · dsimp only
          rw [if_pos (hbreak ▸ hagain)]
          exact Agrees.with_pieces hrel _
        · intro o ho
          obtain ⟨o', -, rfl⟩ := Option.mem_map.1 ho
          rfl
      · refine ⟨some { conn := read.1, pieces := read.2.2 }, ⟨read.2.2, b.stop, hpieces⟩, ?_, ?_,
          ?_⟩
        · rw [if_neg hagain]
          rfl
        · dsimp only
          rw [if_neg (hbreak ▸ hagain)]
          exact .some ⟨hrep, hkept, rfl, rfl⟩
        · rintro o ⟨⟩
          rfl

/-! ## Writing -/

/-- The write loop over the buffer is the one over the queue. -/
theorem write_loop_refines (h : c.Represents a) (hwithin : c.Within reads writes)
    (counts : List Nat) (stop : WriteStop) (hcounts : ∀ n ∈ counts, 0 < n) :
    ∃ r, c.writeLoop counts stop = .ok r ∧ r.1.Represents (a.writeLoop counts stop).1 ∧
      r.2 = (a.writeLoop counts stop).2 ∧ r.1.Within reads writes := by
  induction counts generalizing c a with
  | nil =>
      have hempty := h.writeBuf.readable_size_eq_zero_iff
      unfold writeLoop Connection.writeLoop
      by_cases hnil : a.writeBuf = []
      · rw [if_pos (hempty.2 hnil), if_pos hnil]
        exact ⟨_, rfl, h, rfl, hwithin⟩
      · rw [if_neg (mt hempty.1 hnil), if_neg hnil]
        unfold writeToFd
        rw [if_neg (mt hempty.1 hnil), h.writeBuf.readable, ok_bind]
        cases stop with
        | again => exact ⟨_, rfl, h, rfl, hwithin⟩
        | error => exact ⟨_, rfl, h.close_internal, rfl, hwithin.close_internal⟩
  | cons n counts ih =>
      have hempty := h.writeBuf.readable_size_eq_zero_iff
      have hsize := h.writeBuf.readable_size_eq
      have hn : 0 < n := hcounts n (by simp)
      unfold writeLoop Connection.writeLoop
      by_cases hnil : a.writeBuf = []
      · rw [if_pos (hempty.2 hnil), if_pos hnil]
        exact ⟨_, rfl, h, rfl, hwithin⟩
      · have hpos : 0 < min n a.writeBuf.length :=
          Nat.lt_min.2 ⟨hn, List.length_pos_iff.2 hnil⟩
        have htake : a.writeBuf.take (min n a.writeBuf.length) = a.writeBuf.take n := by
          rw [Nat.min_comm, List.take_eq_take_iff]
          omega
        have hdrop : a.writeBuf.drop (min n a.writeBuf.length) = a.writeBuf.drop n := by
          rcases Nat.le_total n a.writeBuf.length with hle | hle
          · rw [Nat.min_eq_left hle]
          · rw [Nat.min_eq_right hle, List.drop_length, List.drop_of_length_le hle]
        rw [if_neg (mt hempty.1 hnil), if_neg hnil]
        unfold writeToFd
        rw [if_neg (mt hempty.1 hnil), h.writeBuf.readable, ok_bind, hsize]
        dsimp only
        rw [if_pos hpos, htake]
        have hrest := h.writeBuf.consume_tidy (min n a.writeBuf.length)
        rw [hdrop] at hrest
        obtain ⟨r, hr, hrep, hresult, hkept⟩ := ih
          (c := { c with writeBuf := c.writeBuf.consume (min n a.writeBuf.length) })
          (a := { a with writeBuf := a.writeBuf.drop n }) { h with writeBuf := hrest }
          ⟨hwithin.reads, (c.writeBuf.size_consume _).trans_le hwithin.writes⟩
          fun n hmem => hcounts n (List.mem_cons_of_mem _ hmem)
        refine ⟨(r.1, a.writeBuf.take n ++ r.2.1, r.2.2), ?_, hrep, ?_, hkept⟩
        · show (do let next ← writeLoop _ counts stop; return _) = _
          rw [hr]
          rfl
        · rw [hresult]

theorem finish_response_refines (fuel : Nat) (h : c.Represents a)
    (hwithin : c.Within reads writes) :
    ∃ out, c.finishResponse fuel = .ok out ∧
      Option.Rel (Agrees reads writes) out (a.finishResponse fuel) := by
  have hrenewed : Represents { c with state := .reading, parser := c.parser.reset }
      { a with state := .reading, parser := a.parser.reset } :=
    { h with state := rfl, parser := congrArg HttpParser.reset h.parser }
  have hpending := congrArg HttpParser.pending hrenewed.parser
  unfold finishResponse Connection.finishResponse
  by_cases hkeep : a.keepAlive = true
  · rw [if_pos (h.keepAlive.trans hkeep), if_pos hkeep]
    by_cases hidle : a.parser.reset.pending = []
    · rw [if_neg (not_not.2 (hpending.trans hidle)), if_neg (not_not.2 hidle)]
      exact ⟨_, rfl, .some ⟨hrenewed, { hwithin with }, rfl, rfl⟩⟩
    · rw [if_pos fun hnil => hidle (hpending.symm.trans hnil), if_pos hidle]
      exact try_parse_message_refines fuel hrenewed { hwithin with }
  · rw [if_neg (h.keepAlive ▸ hkeep), if_neg hkeep]
    exact ⟨_, rfl, .some ⟨{ h with state := rfl }, { hwithin with }, rfl, rfl⟩⟩

theorem on_write_refines (fuel : Nat) (h : c.Represents a) (hwithin : c.Within reads writes)
    (w : WriteResults) :
    ∃ out, c.onWrite fuel w = .ok out ∧
      Option.Rel (Agrees reads writes) out (a.onWrite fuel w) := by
  unfold onWrite Connection.onWrite
  rw [h.state]
  split_ifs with hstate
  · exact ⟨_, rfl, .some ⟨h, hwithin, rfl, rfl⟩⟩
  · obtain ⟨r, hr, hrep, hresult, hkept⟩ :=
      write_loop_refines h hwithin w.counts w.stop w.counts_pos
    dsimp only
    rw [hr, ok_bind, hresult]
    by_cases hfinished : (a.writeLoop w.counts w.stop).2.2 = true
    · rw [if_pos hfinished, if_pos hfinished]
      obtain ⟨out, hout, hrel⟩ := finish_response_refines fuel hrep hkept
      refine ⟨out.map fun out => { out with written := (a.writeLoop w.counts w.stop).2.1 }, ?_, ?_⟩
      · rw [hout]
        rfl
      · exact Agrees.with_written hrel _
    · rw [if_neg hfinished, if_neg hfinished]
      exact ⟨_, rfl, .some ⟨hrep, hkept, rfl, rfl⟩⟩

/-- A reply, if nothing else waits to be written. -/
theorem send_internal_refines (fuel : Nat) (h : c.Represents a)
    (hempty : a.state = .processing ∨ a.state = .reading → a.writeBuf = [])
    (hwithin : c.Within reads writes) (hmemory : writes ≤ 2 ^ 63 - 1) (data : Bytes)
    (hdata : data.length + 128 ≤ writes) (keepAlive : Bool) (w : WriteResults) :
    ∃ out, c.sendInternal fuel data keepAlive w = .ok out ∧
      Option.Rel (Agrees reads writes) out (a.sendInternal fuel data keepAlive w) := by
  unfold sendInternal Connection.sendInternal
  rw [h.state]
  split_ifs with hstate
  · exact ⟨_, rfl, .some ⟨h, hwithin, rfl, rfl⟩⟩
  · have hnil : a.writeBuf = [] := hempty (by tauto)
    have htidy := h.writeBuf
    rw [hnil] at htidy
    obtain ⟨writeBuf, happend, hpacked, hgrown⟩ := htidy.packed.append data (by
      rw [List.length_nil]
      omega)
    rw [happend, ok_bind]
    refine on_write_refines fuel
      (c := { c with keepAlive := keepAlive, writeBuf := writeBuf, state := .writing })
      (a := a.answering data keepAlive) { h with state := rfl, keepAlive := rfl, writeBuf := ?_ }
      ⟨hwithin.reads, ?_⟩ w
    · show writeBuf.Tidy (a.writeBuf ++ data)
      rw [hnil]
      exact hpacked.tidy
    · show writeBuf.buf.size ≤ writes
      rw [hgrown, List.length_nil]
      exact max_le hwithin.writes (by omega)

end BufferedConnection

/-! ## Runs -/

/-- A connection over buffers and its history. -/
structure BufferedSession where
  conn : BufferedConnection
  received : Bytes := []
  messages : List Bytes := []
  responses : List Bytes := []
  written : Bytes := []

namespace BufferedSession

/-- A new connection. -/
def accept (maxRequestSize : Int) : BufferedSession :=
  { conn := .accept maxRequestSize }

/-- Record what a handler has done. -/
def record (s : BufferedSession) (out : BufferedOutcome) : BufferedSession :=
  { s with
    conn := out.conn
    messages := s.messages ++ out.message.toList
    written := s.written ++ out.written }

/-- What an event leaves, unless it ends with a fault or uses up the bound of the parser. -/
def perform (fuel : Nat) (s : BufferedSession) : Session.Event →
    Except Fault (Option BufferedSession)
  | .read b => do
      let out ← s.conn.onRead fuel b
      return out.map fun out =>
        { s.record out with received := s.received ++ out.pieces.flatten }
  | .write w => do
      let out ← s.conn.onWrite fuel w
      return out.map s.record
  | .reply data keepAlive w => do
      let out ← s.conn.sendInternal fuel data keepAlive w
      return out.map fun out => { s.record out with responses := s.responses ++ [data] }
  | .close => .ok (some { s with conn := s.conn.closeInternal })

/-- The events that can occur: a reply is for an outstanding message, and it has at most so many
bytes. -/
def Occurs (maxReply : Nat) (s : BufferedSession) : Session.Event → Prop
  | .reply data _ _ => s.responses.length < s.messages.length ∧ data.length ≤ maxReply
  | .read _ | .write _ | .close => True

/-- One event. -/
def Step (maxReply : Nat) (s t : BufferedSession) : Prop :=
  ∃ e fuel, s.Occurs maxReply e ∧ s.perform fuel e = .ok (some t)

/-- The sessions that a new connection can reach. -/
def Reachable (limit : Int) (maxReply : Nat) : BufferedSession → Prop :=
  Relation.ReflTransGen (Step maxReply) (accept limit)

/-- The session over queues that a session over buffers stands for. -/
structure Represents (s : BufferedSession) (t : Session) : Prop where
  conn : s.conn.Represents t.conn
  received : s.received = t.received
  messages : s.messages = t.messages
  responses : s.responses = t.responses
  written : s.written = t.written

/-- What is known of every reachable session. -/
structure Refined (limit : Int) (maxReply : Nat) (s : BufferedSession) (t : Session) : Prop where
  reachable : Session.Reachable limit t
  represents : s.Represents t
  within : s.conn.Within (sizeT limit + 131200) (max 4224 (maxReply + 128))

variable {s s' : BufferedSession} {t : Session} {limit : Int} {maxReply : Nat}

theorem refined_accept (limit : Int) (maxReply : Nat) :
    Refined limit maxReply (accept limit) (Session.accept limit) where
  reachable := .refl
  represents := ⟨⟨rfl, rfl, rfl, rfl, packed_fresh.tidy, packed_fresh.tidy⟩, rfl, rfl, rfl, rfl⟩
  within := ⟨size_fresh.trans_le (by omega), size_fresh.trans_le (le_max_left _ _)⟩

/-- What a handler has done is recorded in the same way on both levels. -/
theorem Represents.record (h : s.Represents t) {out : BufferedOutcome} {out' : Outcome}
    {reads writes : Nat} (hagrees : BufferedConnection.Agrees reads writes out out') :
    (s.record out).Represents (t.record out') where
  conn := hagrees.conn
  received := h.received
  messages := congrArg₂ _ h.messages (congrArg _ hagrees.message)
  responses := h.responses
  written := congrArg₂ _ h.written hagrees.written

/-- Every event returns, and does what an event of the session over queues does. -/
theorem Refined.perform (h : Refined limit maxReply s t) (hlimit : sizeT limit < 2 ^ 31)
    (hreply : maxReply ≤ 2 ^ 63 - 129) (fuel : Nat) (e : Session.Event)
    (hoccurs : s.Occurs maxReply e) :
    ∃ r, s.perform fuel e = .ok r ∧ ∀ s' ∈ r, ∃ t', Refined limit maxReply s' t' := by
  have hinv := Session.inv_reachable h.reachable
  have hrep := h.represents
  have hsize : sizeT s.conn.maxRequestSize = sizeT limit := by
    rw [hrep.conn.maxRequestSize, hinv.size]
  cases e with
  | read b =>
      obtain ⟨out, b', hout, hrel, hpieces⟩ := BufferedConnection.on_read_refines fuel
        hrep.conn (fun hstate => (hinv.reading hstate).2.1) h.within (by rw [hsize]) (by omega) b
      refine ⟨_, by rw [BufferedSession.perform, hout, ok_bind]; rfl, ?_⟩
      intro s' hs'
      obtain ⟨o, rfl, rfl⟩ := Option.map_eq_some_iff.1 hs'
      generalize hhandled : t.conn.onRead fuel b' = out' at hrel
      cases hrel with
      | some hagrees =>
          refine ⟨_, h.reachable.tail ⟨_, .read hhandled⟩, ?_, hagrees.within⟩
          have hrecorded := hrep.record hagrees
          exact { hrecorded with received := congrArg₂ _ hrep.received (hpieces o rfl) }
  | write w =>
      obtain ⟨out, hout, hrel⟩ :=
        BufferedConnection.on_write_refines fuel hrep.conn h.within w
      refine ⟨_, by rw [BufferedSession.perform, hout, ok_bind]; rfl, ?_⟩
      intro s' hs'
      obtain ⟨o, rfl, rfl⟩ := Option.map_eq_some_iff.1 hs'
      generalize hhandled : t.conn.onWrite fuel w = out' at hrel
      cases hrel with
      | some hagrees =>
          exact ⟨_, h.reachable.tail ⟨_, .write hhandled⟩, hrep.record hagrees, hagrees.within⟩
  | reply data keepAlive w =>
      obtain ⟨hpending, hdata⟩ := hoccurs
      rw [hrep.responses, hrep.messages] at hpending
      have hempty (hstate : t.conn.state = .processing ∨ t.conn.state = .reading) :
          t.conn.writeBuf = [] :=
        Session.flushed_reachable h.reachable (fun hwriting => by simp [hwriting] at hstate)
          (fun hclosed => by simp [hclosed] at hstate)
      obtain ⟨out, hout, hrel⟩ := BufferedConnection.send_internal_refines fuel hrep.conn hempty
        h.within (by omega) data (by omega) keepAlive w
      refine ⟨_, by rw [BufferedSession.perform, hout, ok_bind]; rfl, ?_⟩
      intro s' hs'
      obtain ⟨o, rfl, rfl⟩ := Option.map_eq_some_iff.1 hs'
      generalize hhandled : t.conn.sendInternal fuel data keepAlive w = out' at hrel
      cases hrel with
      | some hagrees =>
          refine ⟨_, h.reachable.tail ⟨_, .reply hpending hhandled⟩, ?_, hagrees.within⟩
          have hrecorded := hrep.record hagrees
          exact { hrecorded with responses := congrArg (· ++ [data]) hrep.responses }
  | close =>
      refine ⟨_, rfl, ?_⟩
      rintro s' ⟨⟩
      exact ⟨_, h.reachable.tail ⟨_, .close⟩, { hrep with conn := hrep.conn.close_internal },
        h.within.close_internal⟩

theorem refined_reachable (hlimit : sizeT limit < 2 ^ 31) (hreply : maxReply ≤ 2 ^ 63 - 129)
    (h : Reachable limit maxReply s) : ∃ t, Refined limit maxReply s t := by
  induction h with
  | refl => exact ⟨_, refined_accept limit maxReply⟩
  | tail _ hstep ih =>
      obtain ⟨t, ht⟩ := ih
      obtain ⟨e, fuel, hoccurs, hperform⟩ := hstep
      obtain ⟨r, hr, hrefined⟩ := ht.perform hlimit hreply fuel e hoccurs
      cases hr.symm.trans hperform
      exact hrefined _ rfl

/-- Every run of a connection over its buffers is a run of the connection over queues, with the same
bytes received, messages, responses and bytes written. In each of its states the vectors of the
buffers are within bounds that depend only on the limits, and every event that can occur returns:
it neither copies out of bounds nor throws. -/
theorem buffered_session_refines (limit : Int) (hlimit : 0 ≤ limit) (hint : limit < 2 ^ 31)
    (maxReply : Nat) (hreply : maxReply ≤ 2 ^ 63 - 129) (s : BufferedSession)
    (h : Reachable limit maxReply s) :
    (∃ t, Session.Reachable limit t ∧ s.Represents t) ∧
      (s.conn.readBuf.buf.size : Int) ≤ limit + 131200 ∧
      s.conn.writeBuf.buf.size ≤ max 4224 (maxReply + 128) ∧
      ∀ fuel e, s.Occurs maxReply e → ∃ r, s.perform fuel e = .ok r := by
  have hsize : (sizeT limit : Int) = limit := by
    unfold sizeT
    omega
  obtain ⟨t, ht⟩ := refined_reachable (by omega) hreply h
  refine ⟨⟨t, ht.reachable, ht.represents⟩, ?_, ht.within.writes, ?_⟩
  · have hreads := ht.within.reads
    omega
  · intro fuel e hoccurs
    obtain ⟨r, hr, -⟩ := ht.perform (by omega) hreply fuel e hoccurs
    exact ⟨r, hr⟩

/-- A request that arrives in two pieces. -/
def twoPieces : Burst where
  chunks := [ascii "GET / HT", ascii "TP/1.1\r\n\r\n"]
  stop := .again
  chunks_ne_nil := by decide

theorem buffered_session_refines_two_pieces : ∃ s, Reachable 65536 1024 s ∧
    s.messages = [ascii "GET / HTTP/1.1\r\n\r\n"] ∧
    ∃ t, Session.Reachable 65536 t ∧ s.Represents t := by
  have hperform : (((accept 65536).perform 9 (.read twoPieces)).toOption.join.map (·.messages)) =
      some [ascii "GET / HTTP/1.1\r\n\r\n"] := by
    decide +kernel
  cases hresult : (accept 65536).perform 9 (.read twoPieces) with
  | error fault =>
      rw [hresult] at hperform
      cases hperform
  | ok r =>
      rw [hresult] at hperform
      obtain ⟨s, hs, hmessages⟩ := Option.map_eq_some_iff.1 hperform
      obtain rfl : r = some s := hs
      have hreach : Reachable 65536 1024 s := .single ⟨.read twoPieces, 9, trivial, hresult⟩
      exact ⟨s, hreach, hmessages,
        (buffered_session_refines 65536 (by decide) (by decide) 1024 (by decide) s hreach).1⟩

end BufferedSession

end ApiGateway.Net
