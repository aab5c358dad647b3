import ApiGateway.Net.Replies

/-!
# What the handlers leave to be written

A connection that is neither writing nor closed has nothing left to write (`flushed_reachable`):
a response is taken over only together with the state `Writing`, and `on_write` leaves that state
only with an empty write buffer or by closing the connection.
-/

namespace ApiGateway.Net.Session

open Http

variable {s t : Session} {c : Connection} {out : Outcome} {fuel : Nat} {limit : Int}

/-! ## Nothing is left to write -/

/-- Only a connection that is writing, or that has been closed meanwhile, has something to write. -/
def Flushed (c : Connection) : Prop :=
  c.state ≠ .writing → c.state ≠ .closed → c.writeBuf = []

theorem Parsed.flushed (h : Parsed c out) (hc : c.writeBuf = []) : Flushed out.conn := by
  cases h with
  | closed hclosed => exact fun _ hopen => absurd hclosed hopen
  | waiting | dispatched => exact fun _ _ => hc

theorem flushed_read {b : Burst} (hs : Inv limit s) (hflushed : Flushed s.conn)
    (h : s.conn.onRead fuel b = some out) : Flushed out.conn := by
  cases hstate : s.conn.state with
  | closing =>
      simp only [Connection.onRead, hstate] at h
      cases h
      exact fun _ hopen => absurd rfl hopen
  | processing | writing | closed =>
      simp only [Connection.onRead, hstate] at h
      cases h
      exact hflushed
  | reading =>
      obtain ⟨hactive, hbuf, -⟩ := hs.reading hstate
      cases Connection.on_read_ends hstate (by simp [hbuf]) h with
      | closed => exact fun _ hopen => absurd rfl hopen
      | parsed _ _ hparse =>
          exact (try_parse_message_parsed hparse hactive).flushed
            (hflushed (by simp [hstate]) (by simp [hstate]))

theorem flushed_write {w : WriteResults} (hflushed : Flushed c)
    (h : c.onWrite fuel w = some out) : Flushed out.conn := by
  by_cases hstate : c.state = .writing
  · cases Connection.on_write_ends hstate h with
    | blocked => exact fun hwriting => absurd hstate hwriting
    | failed => exact fun _ hopen => absurd rfl hopen
    | closing | idle => exact fun _ _ => rfl
    | parsed _ _ hparse =>
        have hparsed := try_parse_message_parsed hparse (active_reset c.parser)
        have hafter := hparsed.flushed rfl
        exact hafter
  · rw [Connection.on_write_skip hstate] at h
    cases h
    exact hflushed

theorem flushed_send {data : Bytes} {keepAlive : Bool} {w : WriteResults} (hflushed : Flushed c)
    (h : c.sendInternal fuel data keepAlive w = some out) : Flushed out.conn := by
  unfold Connection.sendInternal at h
  split at h
  · cases h
    exact hflushed
  · exact flushed_write (fun hwriting => absurd rfl hwriting) h

theorem flushed_step {e : Event} (hs : Inv limit s) (hflushed : Flushed s.conn) (h : Step e s t) :
    Flushed t.conn := by
  cases h with
  | read h => exact flushed_read hs hflushed h
  | write h => exact flushed_write hflushed h
  | reply _ h => exact flushed_send hflushed h
  | close => exact fun _ hopen => absurd rfl hopen

theorem flushed_reachable (h : Reachable limit s) : Flushed s.conn := by
  induction h with
  | refl => exact fun _ _ => rfl
  | tail hreach hstep ih =>
      obtain ⟨e, hstep⟩ := hstep
      exact flushed_step (inv_reachable hreach) ih hstep

/-! ## The end of a response -/

/-- `try_parse_message` does not write. -/
theorem Parsed.not_writing (h : Parsed c out) (hstate : c.state = .reading) :
    out.conn.state ≠ .writing := by
  cases h with
  | closed hclosed => simp [hclosed]
  | waiting => simp [hstate]
  | dispatched => simp

/-- `finish_response` leaves the state `Writing`. -/
theorem finish_response_not_writing (h : c.finishResponse fuel = some out) :
    out.conn.state ≠ .writing := by
  simp only [Connection.finishResponse] at h
  split at h
  · split at h
    · exact (try_parse_message_parsed h (active_reset c.parser)).not_writing rfl
    · cases h
      simp
  · cases h
    simp

end ApiGateway.Net.Session
