import ApiGateway.Http.Lines
import ApiGateway.Proxy.Forward

/-!
# Responses with a length

`recv_all` stops reading when as many bytes have arrived as the head of the response announces, and
also when a `poll` times out, a `recv` fails, or the backend closes the connection. A response with
a length is read whole whatever the segments are (`announced_response_read`). But what has arrived
before a failure is returned like a whole response: `truncated_iff` says when an incomplete one is
returned.
-/

namespace ApiGateway.Proxy

open Http Search

/-- The bytes that arrive before the first event that ends the loop of `recv_all`. -/
def arrived : List Poll → Bytes
  | .data chunk :: polls => chunk.bytes ++ arrived polls
  | .again :: polls => arrived polls
  | _ => []

/-- The number in the first length field of a head, in the spellings that `recv_all` looks for. -/
def announcedValue (head : Bytes) : Option Nat :=
  let field := (cutSub (ascii "\r\nContent-Length:") head).or
    (cutSub (ascii "\r\ncontent-length:") head)
  field.map fun parts => decimal ((parts.2.dropWhile (· == 32)).takeWhile isDigit)

/-! ## The number -/

/-- The digits of a number as they are added up. -/
theorem length_digits_eq {digits tail : Bytes} (hdigits : ∀ d ∈ digits, isDigit d = true)
    (htail : ∀ d ∈ tail.head?, isDigit d = false) (n : Nat)
    (hlt : digits.foldl (fun n d => 10 * n + (d.toNat - 48)) n < 2 ^ 63) :
    lengthDigits n (digits ++ tail) =
      (digits.foldl (fun n d => 10 * n + (d.toNat - 48)) n : Nat) := by
  induction digits generalizing n with
  | nil =>
      cases tail with
      | nil => rfl
      | cons d rest =>
          have hstop := htail d rfl
          show (if isDigit d then _ else (n : Int)) = n
          rw [if_neg (by simp [hstop])]
  | cons d rest ih =>
      have hd := hdigits d List.mem_cons_self
      have hle : 48 ≤ d.toNat := by
        simp only [isDigit, Bool.and_eq_true, decide_eq_true_eq, UInt8.le_iff_toNat_le,
          UInt8.reduceToNat] at hd
        exact hd.1
      -- the sum never leaves the range, since it only grows
      have hgrows : ∀ (l : Bytes) (m : Nat),
          m ≤ l.foldl (fun n d => 10 * n + (d.toNat - 48)) m := by
        intro l
        induction l with
        | nil => exact fun m => Nat.le_refl m
        | cons c l ih =>
            intro m
            exact (show m ≤ 10 * m + (c.toNat - 48) by omega).trans (ih _)
      have hsmall := (hgrows rest (10 * n + (d.toNat - 48))).trans_lt hlt
      have hwrap : ((n : Int) * 10 + ((d.toNat : Int) - 48)).bmod (2 ^ 64) =
          ((10 * n + (d.toNat - 48) : Nat) : Int) := by
        rw [Int.bmod_eq_of_le] <;> push_cast <;> omega
      show (if isDigit d then lengthDigits _ (rest ++ tail) else _) = _
      rw [if_pos hd, hwrap]
      exact ih (fun c hc => hdigits c (List.mem_cons_of_mem d hc)) _ hlt

theorem length_digits_take_while {text : Bytes} (h : decimal (text.takeWhile isDigit) < 2 ^ 63) :
    lengthDigits 0 text = decimal (text.takeWhile isDigit) := by
  have hstop : ∀ d ∈ (text.dropWhile isDigit).head?, isDigit d = false := by
    intro d hd
    have hnot := List.head?_dropWhile_not isDigit text
    rw [Option.mem_def.1 hd] at hnot
    exact hnot
  have hsum := length_digits_eq (fun d hd => List.mem_takeWhile_imp hd) hstop 0 h
  rwa [List.takeWhile_append_dropWhile] at hsum

/-- A value that fits an `ssize_t` is read as it is. -/
theorem announced_length_of_value {head : Bytes} {n : Nat} (h : announcedValue head = some n)
    (hn : n < 2 ^ 63) : announcedLength head = n := by
  have hread : ∀ value : Bytes, decimal ((value.dropWhile (· == 32)).takeWhile isDigit) = n →
      lengthDigits 0 (value.dropWhile (· == 32)) = n := by
    intro value hvalue
    rw [← hvalue] at hn ⊢
    exact length_digits_take_while hn
  rw [announcedValue] at h
  rw [announcedLength]
  cases hupper : cutSub (ascii "\r\nContent-Length:") head with
  | some parts =>
      rw [hupper] at h
      exact hread parts.2 (Option.some.inj h)
  | none =>
      rw [hupper] at h
      cases hlower : cutSub (ascii "\r\ncontent-length:") head with
      | some parts =>
          rw [hlower] at h
          exact hread parts.2 (Option.some.inj h)
      | none =>
          rw [hlower] at h
          cases h

/-! ## The loop -/

/-- From the variables `r`, the loop gets to `result` by taking a first part of `stream`, which is
all of it unless the response is taken for complete before. -/
def Takes (r : Received) (stream : Bytes) (result : Received) : Prop :=
  ∃ taken left, stream = taken ++ left ∧ result.resp = r.resp ++ taken ∧ result.Exact ∧
    (left = [] ∨ result.complete = true) ∧ (taken = [] → left = [])

theorem Takes.refl {r : Received} (hr : r.Exact) : Takes r [] r :=
  ⟨[], [], rfl, by simp, hr, .inl rfl, fun _ => rfl⟩

theorem receive_takes (polls : List Poll) {r : Received} (hr : r.Exact) :
    Takes r (arrived polls) (receive r polls).1 := by
  induction polls generalizing r with
  | nil => exact .refl hr
  | cons poll polls ih =>
      cases poll with
      | failed => exact .refl hr
      | timedOut => exact .refl hr
      | closed => exact .refl hr
      | error => exact .refl hr
      | again => exact ih hr
      | data chunk =>
          have hr' := Received.exact_take hr chunk.bytes
          have hresp := r.take_resp chunk.bytes
          rw [receive]
          split
          · rename_i hcomplete
            exact ⟨chunk.bytes, arrived polls, rfl, hresp, hr', .inr hcomplete,
              fun hnil => absurd hnil chunk.ne_nil⟩
          · obtain ⟨taken, left, hsplit, htaken, hexact, hend, -⟩ := ih hr'
            refine ⟨chunk.bytes ++ taken, left, ?_, ?_, hexact, hend, fun hnil => ?_⟩
            · rw [arrived, hsplit, List.append_assoc]
            · rw [htaken, hresp, List.append_assoc]
            · exact absurd (List.append_eq_nil_iff.1 hnil).1 chunk.ne_nil

/-- On an open connection, `recv_all` returns what its loop has read. -/
theorem recv_all_eq {conn : BackendConnection} (hopen : conn.isOpen = true) (now : Int)
    (polls : List Poll) : (conn.recvAll now polls).2 = (receive {} polls).1.resp := by
  simp only [BackendConnection.recvAll, hopen, if_true]
  split
  · rename_i hempty
    exact (List.isEmpty_iff.1 hempty).symm
  · rfl

/-! ## Incomplete responses -/

section Truncated

variable {conn : BackendConnection} {now : Int} {polls : List Poll} {r head rest : Bytes} {n : Nat}

/-- The result is empty, or the head with a body of at least the announced length. -/
def EmptyOrWhole (head : Bytes) (n : Nat) (result : Bytes) : Prop :=
  result = [] ∨ (head ++ crlfcrlf <+: result ∧ head.length + 4 + n ≤ result.length)

/-- What the loop has taken for complete is not shorter than announced. -/
theorem length_of_complete {result : Received} (hexact : result.Exact)
    (hcomplete : result.complete = true) (hpre : result.resp <+: r)
    (hcut : cutSub crlfcrlf r = some (head, rest)) (hlength : announcedLength head = n)
    (hsize : head.length + 4 + n < 2 ^ 64) : head.length + 4 + n ≤ result.resp.length := by
  obtain ⟨e, hexpected, hle⟩ := (Received.complete_iff hexact hpre).1 hcomplete
  simp only [expectedEnd, hcut, hlength, Int.natCast_nonneg, if_true, Option.some.injEq,
    Received.totalExpected, Int.toNat_natCast, Nat.mod_eq_of_lt hsize] at hexpected
  omega

/-- The beginning of a response that is long enough is empty or whole. -/
theorem empty_or_whole_of_le {result : Bytes} (hcut : cutSub crlfcrlf r = some (head, rest))
    (hpre : result <+: r) (hle : head.length + 4 + n ≤ result.length) :
    EmptyOrWhole head n result := by
  have hhead : head ++ crlfcrlf <+: r := by
    rw [(cutSub_eq_some_iff.1 hcut).1]
    exact List.prefix_append _ rest
  refine .inr ⟨List.prefix_of_prefix_length_le hhead hpre ?_, hle⟩
  rw [List.length_append]
  exact (Nat.le_add_right _ n).trans hle

/-- `recv_all` returns nothing or a whole response exactly if the connection is closed, or nothing
arrives before the first failure, or the whole response does. -/
theorem truncated_iff (hcut : cutSub crlfcrlf r = some (head, rest))
    (hvalue : announcedValue head = some n) (hpre : arrived polls <+: r)
    (hsize : (arrived polls).length < 2 ^ 63) :
    EmptyOrWhole head n (conn.recvAll now polls).2 ↔
      conn.isOpen = false ∨ arrived polls = [] ∨
        head.length + 4 + n ≤ (arrived polls).length := by
  cases hopen : conn.isOpen with
  | false =>
      have hclosed : (conn.recvAll now polls).2 = [] := by
        simp [BackendConnection.recvAll, hopen]
      exact iff_of_true (.inl hclosed) (.inl rfl)
  | true =>
      obtain ⟨taken, left, hsplit, hresp, hexact, hend, hnone⟩ :=
        receive_takes polls Received.exact_start
      rw [show ({} : Received).resp = [] from rfl, List.nil_append] at hresp
      have htaken : taken <+: r := (hsplit ▸ List.prefix_append taken left).trans hpre
      have hlength := congrArg List.length hsplit
      rw [List.length_append] at hlength
      rw [recv_all_eq hopen, hresp]
      constructor
      · rintro (hnil | ⟨-, hwhole⟩)
        · exact .inr (.inl (by rw [hsplit, hnil, hnone hnil]; rfl))
        · exact .inr (.inr (by omega))
      · rintro (hfalse | hnil | hall)
        · cases hfalse
        · exact .inl (List.append_eq_nil_iff.1 (hsplit.symm.trans hnil)).1
        · refine empty_or_whole_of_le hcut htaken ?_
          rcases hend with hnil | hcomplete
          · rw [hnil, List.length_nil] at hlength
            omega
          · have hannounced := announced_length_of_value hvalue (by omega)
            rw [← hresp]
            exact length_of_complete hexact hcomplete (hresp ▸ htaken) hcut hannounced (by omega)

/-- The head of a response with a body of five bytes. -/
def helloHead : Bytes :=
  ascii "HTTP/1.1 200 OK\r\nContent-Length: 5"

theorem truncated_iff_whole :
    EmptyOrWhole helloHead 5
      ((BackendConnection.connect { host := ascii "10.0.0.1", port := 80 } 0).recvAll 0
        [.data ⟨helloHead ++ crlfcrlf ++ ascii "hello", by decide, by decide⟩]).2 := by
  have hcut : cutSub crlfcrlf (helloHead ++ crlfcrlf ++ ascii "hello") =
      some (helloHead, ascii "hello") := by decide
  exact (truncated_iff hcut (by decide) List.prefix_rfl (by decide)).2 (.inr (.inr (by decide)))

/-- A response that pauses in the middle of its body is returned as far as it has arrived. -/
theorem truncated_by_pause :
    announcedValue helloHead = some 5 ∧
    ((BackendConnection.connect { host := ascii "10.0.0.1", port := 80 } 0).recvAll 0
      [.data ⟨helloHead ++ crlfcrlf ++ ascii "he", by decide, by decide⟩, .timedOut,
        .data ⟨ascii "llo", by decide, by decide⟩]).2 = helloHead ++ crlfcrlf ++ ascii "he" ∧
    ¬ EmptyOrWhole helloHead 5 (helloHead ++ crlfcrlf ++ ascii "he") := by
  refine ⟨by decide, by decide, ?_⟩
  rintro (hempty | ⟨-, hlength⟩)
  · cases hempty
  · exact absurd hlength (by decide)

end Truncated

/-! ## Whole responses -/

/-- The beginning of a length field in the two spellings. -/
def lengthNames : List Bytes :=
  [ascii "Content-Length:", ascii "content-length:"]

/-- A response with one length field: the status line, the field among other lines, and a body of
the length it gives. -/
structure LengthResponse where
  status : Bytes
  before : List Bytes
  name : Bytes
  spaces : Nat
  after : List Bytes
  body : Bytes
  name_mem : name ∈ lengthNames
  lines_crlf : ∀ line ∈ status :: (before ++ after), ¬ crlf <:+: line
  others : ∀ line ∈ before ++ after, ∀ other ∈ lengthNames, ¬ other <+: line
  body_lt : body.length < 2 ^ 63

namespace LengthResponse

variable (r : LengthResponse)

/-- The length field. -/
def field : Bytes :=
  r.name ++ (List.replicate r.spaces 32 ++ natToString r.body.length)

/-- The head of a response. -/
def head : Bytes :=
  r.status ++ joinFields (r.before ++ r.field :: r.after)

/-- The bytes of a response. -/
def bytes : Bytes :=
  r.head ++ crlfcrlf ++ r.body

/-- The digits of the length are read, up to the end of the line. -/
theorem decimal_value :
    decimal (((List.replicate r.spaces 32 ++ natToString r.body.length ++
      joinFields r.after).dropWhile (· == 32)).takeWhile isDigit) = r.body.length := by
  obtain ⟨hne, hdigits, hvalue⟩ := nat_to_string_spec r.body.length
  obtain ⟨d, rest, hcons⟩ := List.exists_cons_of_ne_nil hne
  have hd : (d == 32) = false := by
    have hdigit := hdigits d (hcons ▸ List.mem_cons_self)
    cases hspace : d == 32 with
    | false => rfl
    | true =>
        rw [beq_iff_eq.1 hspace] at hdigit
        exact absurd hdigit (by decide)
  have hdrop : ((List.replicate r.spaces 32 ++ natToString r.body.length ++
      joinFields r.after).dropWhile (· == 32)) =
        natToString r.body.length ++ joinFields r.after := by
    rw [List.append_assoc, List.dropWhile_append_of_pos (by simp), hcons, List.cons_append,
      List.dropWhile_cons_of_neg (by simp [hd])]
  have htake : (natToString r.body.length ++ joinFields r.after).takeWhile isDigit =
      natToString r.body.length := by
    rw [List.takeWhile_append_of_pos hdigits]
    have hstop : (joinFields r.after).takeWhile isDigit = [] := by
      cases r.after with
      | nil => rfl
      | cons line rest => rfl
    rw [hstop, List.append_nil]
  rw [hdrop, htake, hvalue]

theorem name_cr : ∀ name ∈ lengthNames, cr ∉ name := by decide

theorem field_crlf : ¬ crlf <:+: r.field := by
  have hcr : cr ∉ r.field := by
    rw [field, List.mem_append, List.mem_append, not_or, not_or]
    refine ⟨name_cr r.name r.name_mem, fun hspace => ?_, fun hdigit => ?_⟩
    · exact absurd (List.eq_of_mem_replicate hspace) (by decide)
    · exact absurd ((nat_to_string_spec r.body.length).2.1 cr hdigit) (by decide)
  exact fun hpart => hcr (hpart.subset List.mem_cons_self)

theorem status_crlf : ¬ crlf <:+: r.status :=
  r.lines_crlf r.status List.mem_cons_self

/-- The other lines are lines, and none of them is a length field. -/
theorem other_lines {name : Bytes} (hname : name ∈ lengthNames) :
    ∀ line ∈ r.before ++ r.after, ¬ crlf <:+: line ∧ ¬ name <+: line :=
  fun line hline =>
    ⟨r.lines_crlf line (List.mem_cons_of_mem _ hline), r.others line hline name hname⟩

theorem cut_name : cutSub (crlf ++ r.name) r.head = some (r.status ++ joinFields r.before,
    List.replicate r.spaces 32 ++ natToString r.body.length ++ joinFields r.after) :=
  cut_fields (name_cr r.name r.name_mem) r.status_crlf fun line hline =>
    r.other_lines r.name_mem line (List.mem_append_left r.after hline)

/-- If the field is spelled with small letters, no line starts with the other spelling, the field
itself included. -/
theorem cut_upper (hname : r.name = ascii "content-length:") :
    cutSub (crlf ++ ascii "Content-Length:") r.head = none := by
  have hmem : ascii "Content-Length:" ∈ lengthNames := List.mem_cons_self
  have hother := r.other_lines hmem
  refine cut_fields_none (by decide) r.status_crlf fun line hline => ?_
  rcases List.mem_append.1 hline with hline | hline
  · exact hother line (List.mem_append_left r.after hline)
  · rcases List.mem_cons.1 hline with rfl | hline
    · refine ⟨r.field_crlf, fun hpre => ?_⟩
      rw [field, hname] at hpre
      exact absurd (List.cons_prefix_cons.1 hpre).1 (by decide)
    · exact hother line (List.mem_append_right r.before hline)

/-- The value that `recv_all` looks for is the length of the body. -/
theorem announced_value : announcedValue r.head = some r.body.length := by
  have hupper : ascii "\r\nContent-Length:" = crlf ++ ascii "Content-Length:" := rfl
  have hlower : ascii "\r\ncontent-length:" = crlf ++ ascii "content-length:" := rfl
  have hfound := r.cut_name
  rcases List.mem_cons.1 r.name_mem with hname | hname
  · rw [hname] at hfound
    rw [announcedValue, hupper, hfound]
    exact congrArg some r.decimal_value
  · rw [List.mem_singleton.1 hname] at hfound
    rw [announcedValue, hupper, hlower, r.cut_upper (List.mem_singleton.1 hname), hfound]
    exact congrArg some r.decimal_value

/-- The end that `recv_all` expects is the end of the response. -/
theorem expected_end (hfirst : cutSub crlfcrlf r.bytes = some (r.head, r.body))
    (hsize : r.bytes.length < 2 ^ 64) : expectedEnd r.bytes = some r.bytes.length := by
  have hlength : r.bytes.length = r.head.length + 4 + r.body.length := by
    simp only [bytes, List.length_append, List.length_cons, List.length_nil]
  rw [hlength] at hsize
  simp only [expectedEnd, hfirst, announced_length_of_value r.announced_value r.body_lt,
    Int.natCast_nonneg, if_true, Received.totalExpected, Int.toNat_natCast, Nat.mod_eq_of_lt hsize]
  rw [hlength, Nat.max_eq_right (Nat.le_add_right _ _)]

end LengthResponse

/-- A `poll` that brings data or has to be repeated. -/
def Poll.isData : Poll → Bool
  | .data _ | .again => true
  | _ => false

/-- The loop ends when the expected end has arrived, and looks at nothing after it. -/
theorem receive_expected {answer : Bytes} (hexpected : expectedEnd answer = some answer.length)
    {pieces : List Poll} (hdata : ∀ poll ∈ pieces, poll.isData = true) (more : List Poll)
    {r : Received} (hr : r.Exact) (hanswer : answer = r.resp ++ arrived pieces)
    (hne : arrived pieces ≠ []) :
    (receive r (pieces ++ more)).1.resp = answer ∧ (receive r (pieces ++ more)).2 = false := by
  induction pieces generalizing r with
  | nil => exact absurd rfl hne
  | cons poll pieces ih =>
      have hrest : ∀ poll ∈ pieces, poll.isData = true :=
        fun p hp => hdata p (List.mem_cons_of_mem poll hp)
      cases poll with
      | again => exact ih hrest hr hanswer hne
      | data chunk =>
          have hr' := Received.exact_take hr chunk.bytes
          have hresp := r.take_resp chunk.bytes
          have hwhole : answer = (r.take chunk.bytes).resp ++ arrived pieces := by
            rw [hresp, hanswer, arrived, List.append_assoc]
          have hpre : (r.take chunk.bytes).resp <+: answer := ⟨arrived pieces, hwhole.symm⟩
          have hcomplete := Received.complete_iff hr' hpre
          rw [List.cons_append, receive]
          split
          · rename_i hstop
            obtain ⟨e, he, hle⟩ := hcomplete.1 hstop
            cases hexpected.symm.trans he
            exact ⟨hpre.eq_of_length_le hle, rfl⟩
          · rename_i hgoes
            refine ih hrest hr' hwhole fun hnil => hgoes (hcomplete.2 ⟨_, hexpected, ?_⟩)
            rw [hnil, List.append_nil] at hwhole
            exact (congrArg List.length hwhole).le
      | failed => cases hdata _ List.mem_cons_self
      | timedOut => cases hdata _ List.mem_cons_self
      | closed => cases hdata _ List.mem_cons_self
      | error => cases hdata _ List.mem_cons_self

/-- However a response with a length is cut into segments, `recv_all` returns it whole. What would
come after the last segment makes no difference, so that no further read is waited for. -/
theorem announced_response_read (r : LengthResponse)
    (hfirst : cutSub crlfcrlf r.bytes = some (r.head, r.body)) (hsize : r.bytes.length < 2 ^ 64)
    (pieces : List Poll) (hdata : ∀ poll ∈ pieces, poll.isData = true)
    (hpieces : arrived pieces = r.bytes) (more : List Poll) (conn : BackendConnection)
    (hopen : conn.isOpen = true) (now : Int) :
    conn.recvAll now (pieces ++ more) = (conn.touch now, r.bytes) := by
  have hne : r.bytes ≠ [] := by simp [LengthResponse.bytes]
  obtain ⟨hresp, heof⟩ := receive_expected (r.expected_end hfirst hsize) hdata more
    Received.exact_start hpieces.symm (hpieces ▸ hne)
  have hsome : ¬ r.bytes.isEmpty = true := by simpa using hne
  simp only [BackendConnection.recvAll, hopen, if_true, hresp, if_neg hsome, heof]
  rfl

/-- A response whose head and body are cut in their middle. -/
def helloResponse : LengthResponse where
  status := ascii "HTTP/1.1 200 OK"
  before := [ascii "Server: a"]
  name := ascii "content-length:"
  spaces := 2
  after := [ascii "X-Other: b"]
  body := ascii "hello"
  name_mem := by decide
  lines_crlf := by decide
  others := by decide
  body_lt := by decide

/-- The segments end inside the length field and inside the body. -/
def helloPieces : List Poll :=
  [.data ⟨ascii "HTTP/1.1 200 OK\r\nServer: a\r\ncontent-len", by decide, by decide⟩, .again,
    .data ⟨ascii "gth:  5\r\nX-Other: b\r\n\r\nhe", by decide, by decide⟩,
    .data ⟨ascii "llo", by decide, by decide⟩]

theorem announced_response_read_hello :
    (BackendConnection.connect { host := ascii "10.0.0.1", port := 80 } 0).recvAll 7
        (helloPieces ++ [.closed]) =
      ((BackendConnection.connect { host := ascii "10.0.0.1", port := 80 } 0).touch 7,
        helloResponse.bytes) :=
  announced_response_read helloResponse (by decide) (by decide) helloPieces (by decide) (by decide)
    [.closed] _ rfl 7

end ApiGateway.Proxy
