import ApiGateway.Http.Waiting
import ApiGateway.Net.Session

/-!
# What a connection holds in memory

A connection keeps unprocessed bytes in its read buffer and in the parser. Between two events the
read buffer is empty, and the bytes that the parser has consumed are within the request limit. What
is not bounded by any test of the code is the unfinished line of a head that waits in the parser:
`try_parse_message` goes through the pending bytes in every burst, but the size is compared with
the limit only for bytes that have been consumed, and for the bytes of a single burst.

`Modest` says this of every session (`modest_reachable`). `held_bounded` is the bound that follows:
a connection that waits for a request holds at most twice the limit, provided the line that its
client is sending is within the limit.
-/

namespace ApiGateway.Net.Session

open Http HttpParser

variable {s t : Session} {c : Connection} {out : Outcome} {fuel : Nat} {limit : Int}

/-- A parser waits for input, and nothing that has waited is left over behind a message. -/
theorem try_parse_message_waits (h : c.tryParseMessage fuel = some out) (hc : Active c.parser) :
    (out.conn.state = .reading → Waits out.conn.parser) ∧
      ∀ m, out.message = some m → Waits c.parser → c.parser.raw ++ c.parser.pending <+: m := by
  obtain ⟨⟨v, p, rest⟩, hdrive, hout⟩ := Option.bind_eq_some_iff.1 h
  have hadvances := Drives.advances ⟨fuel, hdrive⟩ hc.undecided
  cases v with
  | failed =>
      cases hout
      exact ⟨fun hreading => (by cases hreading), fun m hm => (by cases hm)⟩
  | complete =>
      cases hout
      refine ⟨fun hreading => (by cases hreading), fun m hm => ?_⟩
      cases hm
      exact hadvances.complete rfl
  | waiting =>
      cases hout
      exact ⟨fun _ => hadvances.waiting rfl, by simp⟩

/-- What is left over once a message has been passed on. -/
theorem Parsed.left_over (h : Parsed c out) (hreading : out.conn.state ≠ .reading)
    (hopen : out.conn.state ≠ .closed) (hstate : c.state = .reading) :
    ∃ m, out.message = some m ∧ m ++ held out.conn = held c := by
  cases h with
  | closed hclosed => exact absurd hclosed hopen
  | waiting => exact absurd hstate hreading
  | @dispatched p m hreset _ _ _ hheld =>
      have hraw : p.raw = [] := by
        rw [← hreset]
        rfl
      refine ⟨m, rfl, ?_⟩
      show m ++ (p.raw ++ p.pending ++ []) = held c
      rw [hraw, List.nil_append, List.append_nil, hheld]

/-! ## The invariant -/

/-- A connection that is reading waits for input; one that is not holds at most as many bytes as
the limit says. -/
structure Modest (limit : Int) (c : Connection) : Prop where
  reading : c.state = .reading → Waits c.parser
  busy : c.state ≠ .reading → c.state ≠ .closed → (held c).length ≤ sizeT limit

theorem modest_closed (h : c.state = .closed) : Modest limit c :=
  ⟨fun hreading => (by cases h.symm.trans hreading), fun _ hopen => absurd h hopen⟩

/-- A burst is within the limit, and all that has waited before it goes into the message. -/
theorem modest_read {b : Burst} (hs : Inv limit s) (hmodest : Modest limit s.conn)
    (h : s.conn.onRead fuel b = some out) : Modest limit out.conn := by
  cases hstate : s.conn.state with
  | closing =>
      simp only [Connection.onRead, hstate] at h
      cases h
      exact modest_closed rfl
  | processing | writing | closed =>
      simp only [Connection.onRead, hstate] at h
      cases h
      exact hmodest
  | reading =>
      obtain ⟨hactive, hbuf, -⟩ := hs.reading hstate
      cases Connection.on_read_ends hstate (by simp [hbuf]) h with
      | closed => exact modest_closed rfl
      | parsed _ hlimit hparse =>
          obtain ⟨hwaits, hcovers⟩ := try_parse_message_waits hparse hactive
          refine ⟨hwaits, fun hreading hopen => ?_⟩
          obtain ⟨m, hm, hheld⟩ :=
            (try_parse_message_parsed hparse hactive).left_over hreading hopen hstate
          have hbefore := (hcovers m hm (hmodest.reading hstate)).length_le
          have hlength := congrArg List.length hheld
          simp only [held, hbuf, List.nil_append, List.length_append] at hlength hbefore hlimit ⊢
          rw [hs.size] at hlimit
          omega

theorem modest_write {w : WriteResults} (hs : Inv limit s) (hmodest : Modest limit s.conn)
    (h : s.conn.onWrite fuel w = some out) : Modest limit out.conn := by
  by_cases hstate : s.conn.state = .writing
  · obtain ⟨hreset, -, -⟩ := hs.writing hstate
    have hheld := hmodest.busy (by simp [hstate]) (by simp [hstate])
    cases Connection.on_write_ends hstate h with
    | blocked => exact ⟨fun hreading => (by cases hstate.symm.trans hreading), fun _ _ => hheld⟩
    | failed => exact modest_closed rfl
    | closing => exact ⟨fun hreading => (by cases hreading), fun _ _ => hheld⟩
    | idle _ hpending =>
        exact ⟨fun _ => waits_of_drained hpending, fun hreading => absurd rfl hreading⟩
    | @parsed found _ _ hparse =>
        rw [renewed_of_reset hreset] at hparse
        have hactive : Active s.conn.parser := hreset ▸ active_reset s.conn.parser
        refine ⟨(try_parse_message_waits hparse hactive).1, fun hreading hopen => ?_⟩
        obtain ⟨m, -, hleft⟩ :=
          (try_parse_message_parsed hparse hactive).left_over hreading hopen rfl
        have hlength : m.length + (held found.conn).length = (held s.conn).length := by
          rw [← List.length_append, hleft]
          rfl
        show (held found.conn).length ≤ sizeT limit
        omega
  · rw [Connection.on_write_skip hstate] at h
    cases h
    exact hmodest

theorem modest_reply {data : Bytes} {keepAlive : Bool} {w : WriteResults} (hs : Inv limit s)
    (hmodest : Modest limit s.conn) (hpending : s.responses.length < s.messages.length)
    (h : s.conn.sendInternal fuel data keepAlive w = some out) : Modest limit out.conn := by
  rcases hs.outstanding hpending with hprocessing | hskip
  · rw [Connection.send_internal_processing hprocessing] at h
    have hheld := hmodest.busy (by simp [hprocessing]) (by simp [hprocessing])
    have hanswering : Modest limit (s.conn.answering data keepAlive) :=
      ⟨fun hreading => (by cases hreading), fun _ _ => hheld⟩
    exact modest_write (hs.answering hprocessing data keepAlive) hanswering h
  · have hskip : s.conn.state ≠ .processing ∧ s.conn.state ≠ .reading := by
      rcases hskip with hskip | hskip <;> simp [hskip]
    rw [Connection.send_internal_skip hskip.1 hskip.2] at h
    cases h
    exact hmodest

theorem modest_step {e : Event} (hs : Inv limit s) (hmodest : Modest limit s.conn)
    (h : Step e s t) : Modest limit t.conn := by
  cases h with
  | read h => exact modest_read hs hmodest h
  | write h => exact modest_write hs hmodest h
  | reply hpending h => exact modest_reply hs hmodest hpending h
  | close => exact modest_closed rfl

theorem modest_reachable (h : Reachable limit s) : Modest limit s.conn := by
  induction h with
  | refl => exact ⟨fun _ => waits_of_drained rfl, fun hreading => absurd rfl hreading⟩
  | tail hreach hstep ih =>
      obtain ⟨e, hstep⟩ := hstep
      exact modest_step (inv_reachable hreach) ih hstep

/-! ## The bound -/

/-- A connection that is not closed holds at most as many bytes as the limit says while it is not
reading. While it is reading, it has consumed at most that many bytes of a request, and what else
it holds is a line that has not ended. So if every stretch in which no line ends, at the end of
what the client has sent of a request, is within the limit, then the connection holds at most
twice the limit. -/
theorem held_bounded (limit : Int) (hpos : 0 < limit) (s : Session) (h : Reachable limit s)
    (hopen : s.conn.state ≠ .closed) :
    (s.conn.state ≠ .reading →
      (s.conn.parser.raw.length + s.conn.parser.pending.length + s.conn.readBuf.length : Int) ≤
        limit) ∧
    (s.conn.state = .reading →
      (s.conn.parser.raw.length : Int) ≤ limit ∧ Unended s.conn.parser.pending ∧
        s.conn.parser.raw ++ s.conn.parser.pending =
          s.received.drop s.messages.flatten.length) ∧
    ((∀ line, line <:+ s.received.drop s.messages.flatten.length → Unended line →
        (line.length : Int) ≤ limit) →
      (s.conn.parser.raw.length + s.conn.parser.pending.length + s.conn.readBuf.length : Int) ≤
        2 * limit) := by
  have hinv := inv_reachable h
  have hmodest := modest_reachable h
  have hsize := size_t_le (Int.le_of_lt hpos)
  have hbusy : s.conn.state ≠ .reading →
      (s.conn.parser.raw.length + s.conn.parser.pending.length + s.conn.readBuf.length : Int) ≤
        limit := by
    intro hreading
    have hheld := hmodest.busy hreading hopen
    simp only [held, List.length_append] at hheld
    omega
  have hwaiting : s.conn.state = .reading →
      (s.conn.parser.raw.length : Int) ≤ limit ∧ Unended s.conn.parser.pending ∧
        s.conn.parser.raw ++ s.conn.parser.pending =
          s.received.drop s.messages.flatten.length := by
    intro hreading
    obtain ⟨hactive, hbuf, -⟩ := hinv.reading hreading
    have hraw := hactive.limit
    rw [hinv.maxSize] at hraw
    have hbytes := hinv.bytes (by simp [Live, hreading])
    refine ⟨by omega, (hmodest.reading hreading).unended, ?_⟩
    rw [← hbytes, List.drop_left, held, hbuf, List.append_nil]
  refine ⟨hbusy, hwaiting, fun hlines => ?_⟩
  by_cases hreading : s.conn.state = .reading
  · obtain ⟨hraw, hunended, hbytes⟩ := hwaiting hreading
    obtain ⟨-, hbuf, -⟩ := hinv.reading hreading
    have hline := hlines s.conn.parser.pending ⟨s.conn.parser.raw, hbytes⟩ hunended
    simp only [hbuf, List.length_nil]
    omega
  · have := hbusy hreading
    omega

/-- With a limit of sixteen, a request line of sixteen bytes and an unfinished header line. -/
theorem held_bounded_header : ∃ s, Reachable 16 s ∧ s.conn.state = .reading ∧
    s.conn.parser.raw = ascii "GET / HTTP/1.1\r\n" ∧
    s.conn.parser.pending = ascii "Host: local" ∧
    (s.conn.parser.raw.length + s.conn.parser.pending.length + s.conn.readBuf.length : Int) ≤
      2 * 16 := by
  have hrun : ((accept 16).conn.onRead 9
      ⟨[ascii "GET / HTTP/1.1\r\n"], .again, by decide⟩).any (fun first =>
        (first.conn.onRead 9 ⟨[ascii "Host: local"], .again, by decide⟩).any (fun out =>
          out.conn.state = .reading ∧ out.conn.parser.raw = ascii "GET / HTTP/1.1\r\n" ∧
            out.conn.parser.pending = ascii "Host: local")) = true := by decide
  obtain ⟨first, hfirst, hrest⟩ := (Option.any_eq_true _ _).1 hrun
  obtain ⟨out, hsecond, hpost⟩ := (Option.any_eq_true _ _).1 hrest
  obtain ⟨hstate, hraw, hpending⟩ := of_decide_eq_true hpost
  have hmid : Reachable 16 _ := .single ⟨_, Step.read hfirst⟩
  have hreach : Reachable 16 _ := hmid.tail ⟨_, Step.read hsecond⟩
  have hopen : out.conn.state ≠ .closed := by simp [hstate]
  obtain ⟨-, hwaiting, hbound⟩ := held_bounded 16 (by decide) _ hreach hopen
  refine ⟨_, hreach, hstate, hraw, hpending, hbound ?_⟩
  rw [← (hwaiting hstate).2.2]
  show ∀ line, line <:+ out.conn.parser.raw ++ out.conn.parser.pending → _
  rw [hraw, hpending]
  have htails : ∀ line ∈ (ascii "GET / HTTP/1.1\r\n" ++ ascii "Host: local").tails,
      extractLine line = none → line.length ≤ 16 := by decide
  intro line hline hunended
  have hle := htails line ((List.mem_tails _ _).2 hline) (extract_line_eq_none_iff.2 hunended)
  omega

/-- A client that sends two bytes at a time and no line end: with a limit of two the connection
holds six bytes, and it is still reading. -/
theorem unfinished_line_grows : ∃ s, Reachable 2 s ∧ s.conn.state = .reading ∧
    (2 * 2 : Int) <
      s.conn.parser.raw.length + s.conn.parser.pending.length + s.conn.readBuf.length := by
  have hread : ∀ line : Bytes, line ∈ [[], ascii "aa", ascii "aaaa"] →
      Connection.onRead 3 { maxRequestSize := 2, parser := (fresh 2).feed line }
        ⟨[ascii "aa"], .again, by decide⟩ =
      some { conn := { maxRequestSize := 2, parser := (fresh 2).feed (line ++ ascii "aa") } } := by
    decide
  have hfirst : Reachable 2 _ := .single ⟨_, Step.read (hread [] (by simp))⟩
  have hsecond : Reachable 2 _ := hfirst.tail ⟨_, Step.read (hread (ascii "aa") (by simp))⟩
  have hthird : Reachable 2 _ := hsecond.tail ⟨_, Step.read (hread (ascii "aaaa") (by simp))⟩
  exact ⟨_, hthird, rfl, by decide⟩

end ApiGateway.Net.Session
