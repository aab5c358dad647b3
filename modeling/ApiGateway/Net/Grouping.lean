import ApiGateway.Http.PlainRequest
import ApiGateway.Net.Connection

/-!
# Grouping of the bytes of a client

A client sends a stream of complete plain requests. `Serves` relates the bursts in which the
stream arrives, with replies that keep the connection alive in between, to the messages passed to
`message_callback_`. The main result, `served_iff`, says which groupings of the stream serve all
of its requests: those in which no burst is longer than the request limit and the end of the
stream arrives alone. A burst that breaks this rule closes the connection with its bytes unparsed.
-/

namespace ApiGateway.Net

open Http HttpParser

namespace Connection

/-- Write events until the response is written, with the message found afterwards. -/
inductive Writes : Connection → List Bytes → Connection → Prop where
  | finished {c : Connection} (hstate : c.state ≠ .writing) : Writes c [] c
  | event {c c' : Connection} {fuel : Nat} {w : WriteResults} {out : Outcome} {ms : List Bytes}
      (hstate : c.state = .writing) (hstop : w.stop = .again) (h : c.onWrite fuel w = some out)
      (hrest : Writes out.conn ms c') : Writes c (out.message.toList ++ ms) c'

/-- Replies that keep the connection alive, as long as a message is outstanding. -/
inductive Answers : Connection → List Bytes → Connection → Prop where
  | idle {c : Connection} (hstate : c.state ≠ .processing) : Answers c [] c
  | reply {c c₁ c₂ : Connection} {fuel : Nat} {data : Bytes} {w : WriteResults} {out : Outcome}
      {ms rest : List Bytes} (hstate : c.state = .processing) (hstop : w.stop = .again)
      (h : c.sendInternal fuel data true w = some out) (hwrites : Writes out.conn ms c₁)
      (hrest : Answers c₁ rest c₂) : Answers c (out.message.toList ++ ms ++ rest) c₂

/-- Bursts with replies in between, and the messages passed on. -/
inductive Serves : Connection → List Burst → List Bytes → Connection → Prop where
  | done {c : Connection} : Serves c [] [] c
  | burst {c c₁ c₂ : Connection} {fuel : Nat} {b : Burst} {bs : List Burst} {out : Outcome}
      {ms rest : List Bytes} (h : c.onRead fuel b = some out) (hanswers : Answers out.conn ms c₁)
      (hrest : Serves c₁ bs rest c₂) : Serves c (b :: bs) (out.message.toList ++ ms ++ rest) c₂

/-! ## Streams of requests -/

/-- The bytes of a sequence of requests. -/
def stream (rs : List PlainRequest) : Bytes :=
  (rs.map PlainRequest.bytes).flatten

@[simp] theorem stream_nil : stream [] = [] := rfl

@[simp] theorem stream_cons (r : PlainRequest) (rs : List PlainRequest) :
    stream (r :: rs) = r.bytes ++ stream rs := rfl

/-- The bytes are an unfinished first request. -/
def Unfinished (rs : List PlainRequest) (s : Bytes) : Prop :=
  s = [] ∨ ∃ r rest v, rs = r :: rest ∧ v ≠ [] ∧ s ++ v = r.bytes

/-- How a connection stands to the requests `rs` of which only `unread` has not been read: it
waits for more of the first request. -/
structure Waits (limit : Int) (rs : List PlainRequest) (unread : Bytes) (c : Connection) :
    Prop where
  state : c.state = .reading
  readBuf : c.readBuf = []
  maxRequestSize : c.maxRequestSize = limit
  fits : ∀ r ∈ rs, r.bytes.length ≤ sizeT limit
  parser : ∃ u, machine.Settles ((fresh limit).feed u) c.parser ∧ u ++ unread = stream rs ∧
    Unfinished rs u

/-- A request has been passed on, `rs` are the requests after it, of which only `unread` has not
been read. -/
structure Dispatched (limit : Int) (rs : List PlainRequest) (unread : Bytes) (c : Connection) :
    Prop where
  state : c.state = .processing
  readBuf : c.readBuf = []
  maxRequestSize : c.maxRequestSize = limit
  fits : ∀ r ∈ rs, r.bytes.length ≤ sizeT limit
  parser : ∃ x, c.parser = (fresh limit).feed x ∧ x ++ unread = stream rs

/-- What parsing can find: nothing yet, or the first request. -/
inductive Found (limit : Int) (unread : Bytes) :
    List PlainRequest → List Bytes → Connection → Prop where
  | waiting {rs : List PlainRequest} {c : Connection} (h : Waits limit rs unread c) :
      Found limit unread rs [] c
  | dispatched {r : PlainRequest} {rs : List PlainRequest} {c : Connection}
      (h : Dispatched limit rs unread c) : Found limit unread (r :: rs) [r.bytes] c

variable {c : Connection} {limit : Int} {rs : List PlainRequest} {unread : Bytes}

/-- No chunked body is reached in a stream of plain requests. -/
theorem plain_of_stream {s : Bytes} (h : s ++ unread = stream rs) :
    Plain ((fresh limit).feed s) := by
  refine plain_of_head fun head hhead => ?_
  have hbegin : head.bytes <+: stream rs := h ▸ hhead.trans (List.prefix_append s unread)
  cases rs with
  | nil =>
      have := hbegin.length_le
      simp [RequestHead.bytes, crlf] at this
  | cons r rs =>
      have hr : r.head.bytes <+: stream (r :: rs) := by
        rw [stream_cons, PlainRequest.bytes, List.append_assoc]
        exact List.prefix_append _ _
      rw [RequestHead.eq_of_prefixes hbegin hr]
      exact r.plain

/-- Where the machine settles on the beginning of a stream of requests. -/
theorem settles_stream {s : Bytes} (hstream : s ++ unread = stream rs) (limit : Int) :
    Unfinished rs s ∨ ∃ r rest x t, rs = r :: rest ∧ x ++ unread = stream rest ∧
      machine.Settles ((fresh limit).feed s) t ∧ t.state = .complete ∧ t.raw = r.bytes ∧
      t.pending = x ∧ t.maxSize = limit := by
  cases rs with
  | nil => exact Or.inl (Or.inl (List.append_eq_nil_iff.1 hstream).1)
  | cons r rest =>
      rcases List.append_eq_append_iff.1 hstream with ⟨v, hr, hv⟩ | ⟨x, hs, hx⟩
      · by_cases hnil : v = []
        · subst hnil
          obtain ⟨t, ht⟩ := r.settles limit []
          rw [show r.bytes ++ [] = s by simpa using hr] at ht
          exact Or.inr ⟨r, rest, [], t, rfl, hv, ht⟩
        · exact Or.inl (Or.inr ⟨r, rest, v, rfl, hnil, hr.symm⟩)
      · obtain ⟨t, ht⟩ := r.settles limit x
        rw [← show s = r.bytes ++ x from hs] at ht
        exact Or.inr ⟨r, rest, x, t, rfl, hx.symm, ht⟩

/-- An unfinished request is neither refused nor complete, and within the limit. -/
theorem Unfinished.undecided {s : Bytes} {t : HttpParser} (h : Unfinished rs s)
    (hfits : ∀ r ∈ rs, r.bytes.length ≤ sizeT limit)
    (ht : machine.Settles ((fresh limit).feed s) t) :
    (t.state ≠ .error ∧ t.state ≠ .complete) ∧ t.raw.length ≤ sizeT t.maxSize := by
  have hconsumes := steps_consumes ht.1
  have hread : t.raw.length ≤ s.length := by
    have := congrArg List.length hconsumes.raw_append_pending
    simp only [List.length_append, feed_pending, feed_raw, fresh, List.length_nil] at this
    omega
  have hmax : t.maxSize = limit := hconsumes.1
  rcases h with rfl | ⟨r, rest, v, rfl, hv, hbytes⟩
  · rw [eq_of_settles ht rfl]
    exact ⟨⟨by simp [fresh], by simp [fresh]⟩, Nat.zero_le _⟩
  · refine ⟨PlainRequest.undecided hbytes hv ht, ?_⟩
    have hlength := hfits r (by simp)
    rw [← hbytes, List.length_append] at hlength
    rw [hmax]
    omega

/-! ## Parsing -/

/-- `try_parse_message` on a parser that has been given the beginning `u` of a stream of
requests. -/
theorem try_parse_found {u : Bytes} (hstate : c.state = .reading)
    (hmax : c.maxRequestSize = limit) (hfits : ∀ r ∈ rs, r.bytes.length ≤ sizeT limit)
    (hsteps : machine.Steps ((fresh limit).feed u) c.parser)
    (hundecided : c.parser.state ≠ .error ∧ c.parser.state ≠ .complete)
    (hlimit : c.parser.raw.length ≤ sizeT c.parser.maxSize)
    (hidle : c.readBuf = [] → c.parser.pending = [] → c.parser.tick = none)
    (hstream : u ++ c.readBuf ++ unread = stream rs) :
    (∃ fuel out, c.tryParseMessage fuel = some out) ∧
      ∀ fuel out, c.tryParseMessage fuel = some out →
        Found limit unread rs out.message.toList out.conn := by
  have hfed : machine.Steps ((fresh limit).feed (u ++ c.readBuf)) (c.parser.feed c.readBuf) := by
    rw [← feed_feed]
    exact hsteps.feed c.readBuf
  obtain ⟨t, ht⟩ := exists_settles ((fresh limit).feed (u ++ c.readBuf))
  obtain ⟨result, ⟨fuel, hdrive⟩, hends⟩ := drives_of_settles ((plain_of_stream hstream).steps hfed)
    hundecided hlimit hidle (hfed.settles_iff.1 ht)
  refine ⟨⟨fuel, ?_⟩, fun fuel' out hout => ?_⟩
  · cases hends <;> simp [tryParseMessage, hdrive]
  obtain ⟨result', hdrive', hresult⟩ := Option.bind_eq_some_iff.1 hout
  obtain rfl := Drives.unique ⟨fuel', hdrive'⟩ ⟨fuel, hdrive⟩
  rcases settles_stream hstream limit with
    hunfinished | ⟨r, rest, x, t', rfl, hx, ht', hcomplete, hraw, hpending, hmaxSize⟩
  · obtain ⟨hopen, hwithin⟩ := hunfinished.undecided hfits ht
    cases hends with
    | failed _ _ _ hfail =>
        rcases hfail with herror | hover
        · exact absurd herror hopen.1
        · exact absurd hwithin (Nat.not_le.2 hover)
    | complete hcomplete => exact absurd hcomplete hopen.2
    | waiting =>
        cases hresult
        exact .waiting ⟨hstate, rfl, hmax, hfits, _, ht, hstream, hunfinished⟩
  · obtain rfl := ht.unique ht'
    have hwithin := hfits r (by simp)
    rw [← hraw, ← hmaxSize] at hwithin
    cases hends with
    | failed _ _ _ hfail =>
        rcases hfail with herror | hover
        · cases hcomplete.symm.trans herror
        · exact absurd hwithin (Nat.not_le.2 hover)
    | waiting _ hopen => exact absurd hcomplete hopen
    | complete =>
        cases hresult
        rw [hraw]
        refine .dispatched ⟨rfl, rfl, hmax, fun r' hr' => hfits r' (by simp [hr']), x, ?_, hx⟩
        show t.reset = _
        simp [reset, fresh, feed, hpending, hmaxSize]

/-! ## Replies -/

theorem write_loop_all (c : Connection) :
    c.writeLoop [c.writeBuf.length + 1] .again = ({ c with writeBuf := [] }, c.writeBuf, true) := by
  by_cases hnil : c.writeBuf = []
  · simp only [writeLoop, if_pos hnil]
    rw [← hnil]
  · simp [writeLoop, hnil, List.drop_eq_nil_of_le, List.take_of_length_le]

/-- A socket that takes the whole write buffer finishes the response. -/
theorem on_write_all (hstate : c.state = .writing) (fuel : Nat) :
    c.onWrite fuel ⟨[c.writeBuf.length + 1], .again, by simp⟩ =
      (finishResponse fuel { c with writeBuf := [] }).map
        fun out => { out with written := c.writeBuf } := by
  simp only [onWrite, hstate, ne_eq, not_true_eq_false, if_false]
  rw [write_loop_all]
  rfl

theorem finish_response_keep (hkeep : c.keepAlive = true) (fuel : Nat) :
    finishResponse fuel { c with writeBuf := [] } =
      if c.parser.pending ≠ [] then c.renewed.tryParseMessage fuel
      else some { conn := c.renewed } := by
  simp only [finishResponse]
  rw [if_pos hkeep]
  rfl

theorem Found.not_writing {ms : List Bytes} (h : Found limit unread rs ms c) :
    c.state ≠ .writing := by
  cases h with
  | waiting h => simp [h.state]
  | dispatched h => simp [h.state]

/-- The requests that have been read already are found when a response is written. -/
theorem renewed_found {x : Bytes} (hbuf : c.readBuf = []) (hmax : c.maxRequestSize = limit)
    (hfits : ∀ r ∈ rs, r.bytes.length ≤ sizeT limit) (hparser : c.parser = (fresh limit).feed x)
    (hstream : x ++ unread = stream rs) (hne : x ≠ []) :
    (∃ fuel out, c.renewed.tryParseMessage fuel = some out) ∧
      ∀ fuel out, c.renewed.tryParseMessage fuel = some out →
        Found limit unread rs out.message.toList out.conn := by
  have hreset : c.renewed.parser = (fresh limit).feed x := by
    simp [renewed, hparser, reset, fresh, feed]
  refine try_parse_found (u := x) rfl hmax hfits ?_ ?_ ?_ ?_ ?_
  · rw [hreset]
    exact .refl _
  · simp [hreset, fresh]
  · rw [hreset]
    exact Nat.zero_le _
  · intro _ hpending
    rw [hreset] at hpending
    exact absurd hpending hne
  · show x ++ c.readBuf ++ unread = _
    rw [hbuf, List.append_nil, hstream]

/-- The connection goes back to the stream when the response is written. -/
theorem writes_found {x : Bytes} (hstate : c.state = .writing) (hkeep : c.keepAlive = true)
    (hbuf : c.readBuf = []) (hmax : c.maxRequestSize = limit)
    (hfits : ∀ r ∈ rs, r.bytes.length ≤ sizeT limit) (hparser : c.parser = (fresh limit).feed x)
    (hstream : x ++ unread = stream rs) :
    (∃ ms c', Writes c ms c') ∧ ∀ ms c', Writes c ms c' → Found limit unread rs ms c' := by
  have hpending : c.parser.pending = x := by simp [hparser, fresh]
  refine ⟨?_, fun ms c' h => ?_⟩
  · have hfinish : ∃ fuel out, finishResponse fuel { c with writeBuf := [] } = some out ∧
        out.conn.state ≠ .writing := by
      by_cases hne : x = []
      · refine ⟨0, { conn := c.renewed }, ?_, by simp [renewed]⟩
        rw [finish_response_keep hkeep, if_neg (by simp [hpending, hne])]
      · obtain ⟨⟨fuel, out, hout⟩, hfound⟩ :=
          renewed_found hbuf hmax hfits hparser hstream hne
        refine ⟨fuel, out, ?_, (hfound fuel out hout).not_writing⟩
        rw [finish_response_keep hkeep, if_pos (by simp [hpending, hne]), hout]
    obtain ⟨fuel, out, hout, hdone⟩ := hfinish
    have hwrite := on_write_all hstate fuel
    rw [hout] at hwrite
    exact ⟨_, _, .event hstate rfl hwrite (.finished hdone)⟩
  · induction h with
    | finished hdone => exact absurd hstate hdone
    | @event c c' fuel w out ms _ hstop hwrite hrest ih =>
        -- either the socket takes a part of the response, or the response ends here
        cases on_write_ends hstate hwrite with
        | blocked buf written => exact ih hstate hkeep hbuf hmax hparser hpending
        | failed _ _ _ hfail => cases hstop.symm.trans hfail
        | closing hclose => cases hkeep.symm.trans hclose
        | idle _ hnil =>
            have hx : x = [] := hpending.symm.trans hnil
            have hwaits : Waits limit rs unread c.renewed := by
              refine ⟨rfl, hbuf, hmax, hfits, [], ?_, by rw [← hstream, hx], Or.inl rfl⟩
              have : c.renewed.parser = (fresh limit).feed [] := by
                simp [renewed, hparser, hx, reset, fresh, feed]
              rw [this]
              exact ⟨.refl _, rfl⟩
            cases hrest with
            | finished => exact .waiting hwaits
            | event hwriting => cases hwriting
        | parsed _ hne h =>
            have hfound := (renewed_found hbuf hmax hfits hparser hstream (hpending ▸ hne)).2 _ _ h
            cases hrest with
            | finished => simpa using hfound
            | event hwriting => exact absurd hwriting hfound.not_writing

/-- Without an outstanding message there is nothing to answer. -/
theorem answers_idle (hstate : c.state ≠ .processing) :
    Answers c [] c ∧ ∀ ms c', Answers c ms c' → ms = [] ∧ c' = c := by
  refine ⟨.idle hstate, fun ms c' h => ?_⟩
  cases h with
  | idle => exact ⟨rfl, rfl⟩
  | reply hprocessing => exact absurd hprocessing hstate

theorem Waits.answered (h : Waits limit rs unread c) :
    (∃ ms c', Answers c ms c') ∧ ∀ ms c', Answers c ms c' →
      ∃ served rest, rs = served ++ rest ∧ [] ++ ms = served.map PlainRequest.bytes ∧
        Waits limit rest unread c' := by
  obtain ⟨hidle, honly⟩ := answers_idle (c := c) (by simp [h.state])
  refine ⟨⟨[], c, hidle⟩, fun ms c' hanswers => ?_⟩
  obtain ⟨rfl, rfl⟩ := honly ms c' hanswers
  exact ⟨[], rs, rfl, rfl, h⟩

/-- A reply takes a connection from one outstanding request to what is found after it. -/
theorem reply_found (h : Dispatched limit rs unread c) (data : Bytes) :
    (∃ ms c', Writes (c.answering data true) ms c') ∧
      ∀ ms c', Writes (c.answering data true) ms c' → Found limit unread rs ms c' := by
  obtain ⟨x, hparser, hstream⟩ := h.parser
  exact writes_found rfl rfl h.readBuf h.maxRequestSize h.fits hparser hstream

/-- Answering what has been found leads back to waiting. -/
theorem answers_found {ms : List Bytes} (h : Found limit unread rs ms c) :
    (∃ ms' c', Answers c ms' c') ∧ ∀ ms' c', Answers c ms' c' →
      ∃ served rest, rs = served ++ rest ∧ ms ++ ms' = served.map PlainRequest.bytes ∧
        Waits limit rest unread c' := by
  -- on the requests: each reply takes one of them
  induction rs generalizing ms c with
  | nil =>
      cases h with
      | waiting hwaits => exact hwaits.answered
  | cons r rs ih =>
      cases h with
      | waiting hwaits => exact hwaits.answered
      | dispatched hdispatched =>
          have hstate := hdispatched.state
          refine ⟨?_, fun ms' c' ha => ?_⟩
          · obtain ⟨⟨ms₁, c₁, hwrites⟩, hfound⟩ := reply_found hdispatched []
            obtain ⟨⟨ms₂, c₂, hrest⟩, -⟩ := ih (hfound _ _ hwrites)
            cases hwrites with
            | finished hne => exact absurd rfl hne
            | event _ hstop hwrite hwrites =>
                exact ⟨_, _, .reply hstate hstop ((send_internal_processing hstate).trans hwrite)
                  hwrites hrest⟩
          · cases ha with
            | idle hne => exact absurd hstate hne
            | reply _ hstop hsend hwrites hrest =>
                rw [send_internal_processing hstate] at hsend
                have hfound := (reply_found hdispatched _).2 _ _ (.event rfl hstop hsend hwrites)
                obtain ⟨served, rest, rfl, hserved, hwaits⟩ := (ih hfound).2 _ _ hrest
                exact ⟨r :: served, rest, rfl, by rw [List.map_cons, ← hserved]; rfl, hwaits⟩

/-! ## Bursts -/

/-- A burst that is served: within the limit, and without bytes if the stream ends with it. -/
def Served (limit : Int) (b : Burst) : Prop :=
  b.bytes.length ≤ sizeT limit ∧ (b.stop ≠ .again → b.bytes = [])

instance (b : Burst) : Decidable (Served limit b) :=
  inferInstanceAs (Decidable (_ ∧ _))

/-- A closed connection passes on nothing. -/
theorem serves_closed {bursts : List Burst} (hclosed : c.state = .closed) :
    Serves c bursts [] c ∧ ∀ ms c', Serves c bursts ms c' → ms = [] := by
  induction bursts with
  | nil => exact ⟨.done, fun ms c' h => by cases h; rfl⟩
  | cons b bs ih =>
      have hread : ∀ fuel, c.onRead fuel b = some { conn := c } := fun fuel => by
        simp [onRead, hclosed]
      obtain ⟨hidle, honly⟩ := answers_idle (c := c) (by simp [hclosed])
      refine ⟨.burst (hread 0) hidle ih.1, fun ms c' h => ?_⟩
      cases h with
      | burst h hanswers hrest =>
          cases (hread _).symm.trans h
          obtain ⟨rfl, rfl⟩ := honly _ _ hanswers
          rw [ih.2 _ _ hrest]
          rfl

/-- A burst of the stream within the limit. -/
theorem on_read_found {b : Burst} (h : Waits limit rs (b.bytes ++ unread) c)
    (hlimit : b.bytes.length ≤ sizeT limit) (hstop : b.stop = .again) :
    (∃ fuel out, c.onRead fuel b = some out) ∧ ∀ fuel out, c.onRead fuel b = some out →
      Found limit unread rs out.message.toList out.conn := by
  obtain ⟨u, hsettles, hstream, hunfinished⟩ := h.parser
  obtain ⟨hundecided, hwithin⟩ := hunfinished.undecided h.fits hsettles
  have hread : ∀ fuel, c.onRead fuel b = { c with readBuf := b.bytes }.tryParseMessage fuel := by
    intro fuel
    have hbytes : c.readBuf ++ b.bytes = b.bytes := by rw [h.readBuf, List.nil_append]
    rw [on_read_within h.state (by simp [h.readBuf]) hstop
      (by rw [hbytes, h.maxRequestSize]; exact hlimit), hbytes]
  simp only [hread]
  exact try_parse_found (u := u) h.state h.maxRequestSize h.fits hsettles.1 hundecided hwithin
    (fun _ _ => hsettles.2) (by rw [← hstream, List.append_assoc])

/-- When the stream has been read, no request is left. -/
theorem Waits.nothing_left (h : Waits limit rs [] c) : rs = [] := by
  obtain ⟨u, -, hstream, hunfinished⟩ := h.parser
  cases rs with
  | nil => rfl
  | cons r rs =>
      rw [List.append_nil, stream_cons] at hstream
      rcases hunfinished with rfl | ⟨r', rest, v, heq, hv, hbytes⟩
      · exact absurd (List.append_eq_nil_iff.1 hstream.symm).1 r.bytes_ne_nil
      · cases heq
        have hlength := congrArg List.length hstream
        have hpos := List.length_pos_iff.2 hv
        rw [← hbytes] at hlength
        simp only [List.length_append] at hlength
        omega

theorem Waits.something_left (h : Waits limit rs unread c) (hne : unread ≠ []) : rs ≠ [] := by
  obtain ⟨u, -, hstream, -⟩ := h.parser
  rintro rfl
  exact hne (List.append_eq_nil_iff.1 hstream).2

/-- A burst that closes the connection ends the service. -/
theorem serves_closes {b : Burst} (bs : List Burst) (h : Waits limit rs unread c)
    (hwhy : b.stop ≠ .again ∨ sizeT limit < b.bytes.length) :
    (∃ ms c', Serves c (b :: bs) ms c') ∧ ∀ ms c', Serves c (b :: bs) ms c' → ms = [] := by
  have hcloses : ∀ fuel, ∃ buf,
      c.onRead fuel b = some { conn := { c with readBuf := buf }.closeInternal } := fun fuel =>
    on_read_closes fuel h.state (by simp [h.readBuf])
      (by simpa [h.readBuf, h.maxRequestSize] using hwhy)
  refine ⟨?_, fun ms c' hserves => ?_⟩
  · obtain ⟨buf, hread⟩ := hcloses 0
    exact ⟨_, _, .burst hread (answers_idle (by simp [closeInternal])).1 (serves_closed rfl).1⟩
  · cases hserves with
    | burst hread hanswers hrest =>
        obtain ⟨buf, hclosed⟩ := hcloses _
        cases hclosed.symm.trans hread
        obtain ⟨rfl, rfl⟩ := (answers_idle (by simp [closeInternal])).2 _ _ hanswers
        rw [(serves_closed rfl).2 _ _ hrest]
        rfl

/-- Which ways of grouping what is left of a stream serve all of its requests. -/
theorem serves_iff {bursts : List Burst}
    (h : Waits limit rs (bursts.map Burst.bytes).flatten c)
    (hstops : ∀ b ∈ bursts.dropLast, b.stop = .again) :
    (∃ ms c', Serves c bursts ms c') ∧ ∀ ms c', Serves c bursts ms c' →
      (ms = rs.map PlainRequest.bytes ↔ ∀ b ∈ bursts, Served limit b) := by
  induction bursts generalizing rs c with
  | nil =>
      obtain rfl := h.nothing_left
      refine ⟨⟨_, _, .done⟩, fun ms c' hserves => ?_⟩
      cases hserves
      simp
  | cons b bs ih =>
      rw [List.map_cons, List.flatten_cons] at h
      have hlast : bs = [] ∨ b.stop = .again := by
        cases bs with
        | nil => exact Or.inl rfl
        | cons b' bs => exact Or.inr (hstops b (by simp))
      have hstops' : ∀ b' ∈ bs.dropLast, b'.stop = .again := fun b' hb' => by
        cases bs with
        | nil => cases hb'
        | cons _ _ => exact hstops b' (by simp [hb'])
      by_cases hwhy : b.stop ≠ .again ∨ sizeT limit < b.bytes.length
      · obtain ⟨hexists, hnone⟩ := serves_closes bs h hwhy
        refine ⟨hexists, fun ms c' hserves => ?_⟩
        rw [hnone ms c' hserves]
        by_cases hempty : b.bytes = []
        · -- the end of the stream on its own
          have hstop : b.stop ≠ .again := hwhy.resolve_right (by simp [hempty])
          obtain rfl := hlast.resolve_right hstop
          rw [hempty] at h
          obtain rfl := h.nothing_left
          simp [Served, hempty]
        · have hbad : ¬ Served limit b := fun hserved =>
            hwhy.elim (fun hstop => hempty (hserved.2 hstop)) (Nat.not_lt.2 hserved.1)
          have hsome := h.something_left (by simp [hempty])
          refine iff_of_false (fun hnil => hsome ?_) fun hall => hbad (hall b (by simp))
          exact List.map_eq_nil_iff.1 hnil.symm
      · rw [not_or, not_not, Nat.not_lt] at hwhy
        have hserved : Served limit b := ⟨hwhy.2, fun hne => absurd hwhy.1 hne⟩
        obtain ⟨⟨fuel, out, hread⟩, hfound⟩ := on_read_found h hwhy.2 hwhy.1
        refine ⟨?_, fun ms c' hserves => ?_⟩
        · obtain ⟨⟨ms₁, c₁, hanswers⟩, hwaits⟩ := answers_found (hfound _ _ hread)
          obtain ⟨_, _, -, -, hwaits₁⟩ := hwaits _ _ hanswers
          obtain ⟨⟨ms₂, c₂, hrest⟩, -⟩ := ih hwaits₁ hstops'
          exact ⟨_, _, .burst hread hanswers hrest⟩
        · cases hserves with
          | burst hread hanswers hrest =>
              obtain ⟨served, rest, rfl, hms, hwaits⟩ :=
                (answers_found (hfound _ _ hread)).2 _ _ hanswers
              rw [hms, List.map_append, List.append_cancel_left_eq,
                (ih hwaits hstops').2 _ _ hrest, List.forall_mem_cons]
              exact (and_iff_right hserved).symm

/-- Which ways of grouping a stream serve all of its requests on a new connection. -/
theorem accept_serves_iff (hfits : ∀ r ∈ rs, r.bytes.length ≤ sizeT limit) (bursts : List Burst)
    (hbytes : (bursts.map Burst.bytes).flatten = stream rs)
    (hstops : ∀ b ∈ bursts.dropLast, b.stop = .again) :
    (∃ ms c, Serves (accept limit) bursts ms c) ∧ ∀ ms c, Serves (accept limit) bursts ms c →
      (ms = rs.map PlainRequest.bytes ↔ ∀ b ∈ bursts, Served limit b) :=
  serves_iff ⟨rfl, rfl, rfl, hfits, [], ⟨by rw [feed_nil]; exact .refl _, rfl⟩, hbytes, Or.inl rfl⟩
    hstops

/-- A stream of complete plain requests within the limit is served whole, whatever the replies and
the writes are, exactly when no burst is longer than the limit and the end of the stream arrives
in a burst of its own. -/
theorem served_iff (limit : Int) (hpos : 0 ≤ limit) (hint : limit < 2 ^ 31)
    (requests : List PlainRequest) (hfits : ∀ r ∈ requests, (r.bytes.length : Int) ≤ limit)
    (bursts : List Burst) (hbytes : (bursts.map Burst.bytes).flatten = stream requests)
    (hstops : ∀ b ∈ bursts.dropLast, b.stop = .again) (herror : ∀ b ∈ bursts, b.stop ≠ .error) :
    (∃ ms c, Serves (accept limit) bursts ms c) ∧
      ∀ ms c, Serves (accept limit) bursts ms c →
        (ms = requests.map PlainRequest.bytes ↔
          ∀ b ∈ bursts, (b.bytes.length : Int) ≤ limit ∧ (b.stop = .eof → b.bytes = [])) := by
  have hsize : (sizeT limit : Int) = limit := by
    unfold sizeT
    omega
  have hfits' : ∀ r ∈ requests, r.bytes.length ≤ sizeT limit := fun r hr => by
    have := hfits r hr
    omega
  obtain ⟨hexists, hserves⟩ := accept_serves_iff hfits' bursts hbytes hstops
  refine ⟨hexists, fun ms c h => (hserves ms c h).trans (forall₂_congr fun b hb => ?_)⟩
  refine and_congr (by omega) ⟨fun hclose heof => hclose (by simp [heof]), fun heof hne => ?_⟩
  cases hstop : b.stop with
  | again => exact absurd hstop hne
  | eof => exact heof hstop
  | error => exact absurd hstop (herror b hb)

/-- A request without header fields. -/
def bareRequest : PlainRequest :=
  ⟨⟨0, ascii "P / V", [], by decide, by decide, by simp⟩, [], by decide, by decide⟩

/-- Two requests, the second one cut, and the end of the stream on its own. -/
theorem served_two : ∃ ms c,
    Serves (accept 12)
      [⟨[bareRequest.bytes, ascii "P"], .again, by decide⟩,
        ⟨[ascii " / V\r\n\r\n"], .again, by decide⟩,
        ⟨[], .eof, by decide⟩] ms c ∧
      ms = [bareRequest.bytes, bareRequest.bytes] := by
  obtain ⟨⟨ms, c, h⟩, hiff⟩ := served_iff 12 (by decide) (by decide) [bareRequest, bareRequest]
    (by decide)
    [⟨[bareRequest.bytes, ascii "P"], .again, by decide⟩,
      ⟨[ascii " / V\r\n\r\n"], .again, by decide⟩,
        ⟨[], .eof, by decide⟩] (by decide) (by decide) (by decide)
  exact ⟨ms, c, h, (hiff ms c h).2 (by decide)⟩

/-- Two pipelined requests are served when they arrive apart. They are not when they arrive in one
burst, which is longer than the limit for one request, or when the end of the stream arrives with
the second one. -/
theorem served_by_timing :
    (∃ ms c, Serves (accept 16) [⟨[bareRequest.bytes], .again, by decide⟩,
        ⟨[bareRequest.bytes], .again, by decide⟩, ⟨[], .eof, by decide⟩] ms c ∧
      ms = [bareRequest.bytes, bareRequest.bytes]) ∧
    (∃ ms c, Serves (accept 16) [⟨[bareRequest.bytes, bareRequest.bytes], .again, by decide⟩,
        ⟨[], .eof, by decide⟩] ms c ∧
      ms ≠ [bareRequest.bytes, bareRequest.bytes]) ∧
    ∃ ms c, Serves (accept 16) [⟨[bareRequest.bytes], .again, by decide⟩,
        ⟨[bareRequest.bytes], .eof, by decide⟩] ms c ∧
      ms ≠ [bareRequest.bytes, bareRequest.bytes] := by
  have hfits : ∀ r ∈ [bareRequest, bareRequest], r.bytes.length ≤ sizeT 16 := by decide
  refine ⟨?_, ?_, ?_⟩
  · obtain ⟨⟨ms, c, h⟩, hiff⟩ := accept_serves_iff hfits
      [⟨[bareRequest.bytes], .again, by decide⟩, ⟨[bareRequest.bytes], .again, by decide⟩,
        ⟨[], .eof, by decide⟩] (by decide) (by decide)
    exact ⟨ms, c, h, (hiff ms c h).2 (by decide)⟩
  · obtain ⟨⟨ms, c, h⟩, hiff⟩ := accept_serves_iff hfits
      [⟨[bareRequest.bytes, bareRequest.bytes], .again, by decide⟩, ⟨[], .eof, by decide⟩]
      (by decide) (by decide)
    exact ⟨ms, c, h, fun hall => absurd ((hiff ms c h).1 hall) (by decide)⟩
  · obtain ⟨⟨ms, c, h⟩, hiff⟩ := accept_serves_iff hfits
      [⟨[bareRequest.bytes], .again, by decide⟩, ⟨[bareRequest.bytes], .eof, by decide⟩]
      (by decide) (by decide)
    exact ⟨ms, c, h, fun hall => absurd ((hiff ms c h).1 hall) (by decide)⟩

end Connection

end ApiGateway.Net
