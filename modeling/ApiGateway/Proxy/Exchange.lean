import ApiGateway.Library.Table
import ApiGateway.Proxy.Framing

/-!
# A pooled connection and the backend at its other end

`handle_client_keepalive` of `backend_worker.h`, which serves one request after the other on a
connection, and the calls of `forward_pooled` that use this connection one after the other, each
with `send_all` and `recv_all`. Between them are two byte streams. What one side writes arrives at
the other one in pieces of any size, and the steps of both sides are interleaved in any order; no
`poll` of the gateway times out.

The backend takes what has arrived up to the `recv` that completes a head for the request. The main
result is `exchange_in_step_iff`: every answer belongs to its request, the connection that goes back
to the pool is clean and no side waits in vain, exactly if no request has a body.
-/

namespace ApiGateway.Proxy

open Http Search

/-! ## The backend -/

/-- What `handle_client_keepalive` takes for the body of a request. -/
def requestBody (reqBuf : Bytes) : Bytes :=
  match cutSub crlfcrlf reqBuf with
  | some (_, body) => body
  | none => []

/-- `client_close`. -/
def clientClose (reqBuf : Bytes) : Bool :=
  (cutSub (ascii "\r\nConnection: close") reqBuf).isSome ||
    (cutSub (ascii "\r\nconnection: close") reqBuf).isSome

/-- `resp_body`. -/
def respBody (serviceName reqBuf : Bytes) : Bytes :=
  ascii "\x7b\"service\":\"" ++ serviceName ++ ascii "\",\"body\":\"" ++ requestBody reqBuf ++
    ascii "\"\x7d"

/-- `conn_header`. -/
def connHeader (reqBuf : Bytes) : Bytes :=
  if clientClose reqBuf then ascii "Connection: close" else ascii "Connection: keep-alive"

/-- `resp`. -/
def backendResponse (serviceName reqBuf : Bytes) : Bytes :=
  ascii "HTTP/1.1 200 OK\r\nContent-Type: application/json\r\n" ++ connHeader reqBuf ++
    ascii "\r\nContent-Length: " ++ natToString (respBody serviceName reqBuf).length ++
    ascii "\r\n\r\n" ++ respBody serviceName reqBuf

/-- Where `handle_client_keepalive` is: reading a request, sending the rest of a response, about to
close the connection, or behind its end. -/
inductive BackendStage where
  | reading (reqBuf : Bytes)
  | replying (left : Bytes) (clientClose : Bool)
  | closing
  | closed
  deriving DecidableEq

/-- The backend after a `recv`. -/
def BackendStage.received (serviceName reqBuf : Bytes) : BackendStage :=
  if (cutSub crlfcrlf reqBuf).isSome then
    .replying (backendResponse serviceName reqBuf) (clientClose reqBuf)
  else .reading reqBuf

/-- The backend when it has sent a part of a response. -/
def BackendStage.replied (left : Bytes) (clientClose : Bool) : BackendStage :=
  if left = [] then if clientClose then .closing else .reading []
  else .replying left clientClose

/-! ## The connection -/

/-- What the gateway does with the connection: nothing, as it is in the pool; sending the rest of a
request; receiving a response; or nothing any more. -/
inductive GatewayStage where
  | idle
  | sending (left : Bytes)
  | receiving (r : Received)
  | evicted
  deriving DecidableEq

/-- `send_all` when some bytes have been sent. -/
def GatewayStage.sent (left : Bytes) : GatewayStage :=
  if left = [] then .receiving {} else .sending left

/-- A connection with the bytes on their way in both directions, the requests that the gateway has
begun to send, and what `recv_all` has returned for them; `none` makes a response of its own. -/
structure Exchange where
  up : Bytes := []
  down : Bytes := []
  gateway : GatewayStage := .idle
  backend : BackendStage := .reading []
  asked : List Bytes := []
  answers : List (Option Bytes) := []
  deriving DecidableEq

namespace Exchange

/-- One step of the gateway or the backend. -/
inductive Step (serviceName : Bytes) (Asks : Bytes → Prop) : Exchange → Exchange → Prop where
  | ask {s : Exchange} {request : Bytes} (hrequest : Asks request) (hgateway : s.gateway = .idle) :
      Step serviceName Asks s
        { s with gateway := .sent request, asked := s.asked ++ [request] }
  | send {s : Exchange} {piece left : Bytes} (hpiece : piece ≠ [])
      (hgateway : s.gateway = .sending (piece ++ left)) :
      Step serviceName Asks s { s with gateway := .sent left, up := s.up ++ piece }
  | sendFails {s : Exchange} {left : Bytes} (hgateway : s.gateway = .sending left)
      (hbackend : s.backend = .closed) :
      Step serviceName Asks s { s with gateway := .evicted, answers := s.answers ++ [none] }
  | receive {s : Exchange} {r : Received} {chunk : Chunk} {rest : Bytes}
      (hgateway : s.gateway = .receiving r) (hdown : s.down = chunk.bytes ++ rest)
      (hmore : (r.take chunk.bytes).complete = false) :
      Step serviceName Asks s
        { s with gateway := .receiving (r.take chunk.bytes), down := rest }
  | receiveLast {s : Exchange} {r : Received} {chunk : Chunk} {rest : Bytes}
      (hgateway : s.gateway = .receiving r) (hdown : s.down = chunk.bytes ++ rest)
      (hcomplete : (r.take chunk.bytes).complete = true) :
      Step serviceName Asks s
        { s with
          gateway := .idle
          down := rest
          answers := s.answers ++ [some (r.take chunk.bytes).resp] }
  | receiveEof {s : Exchange} {r : Received} (hgateway : s.gateway = .receiving r)
      (hbackend : s.backend = .closed) (hdown : s.down = []) :
      Step serviceName Asks s
        { s with
          gateway := .evicted
          answers := s.answers ++ [if r.resp = [] then none else some r.resp] }
  | backendReceive {s : Exchange} {reqBuf : Bytes} {chunk : Chunk} {rest : Bytes}
      (hbackend : s.backend = .reading reqBuf) (hup : s.up = chunk.bytes ++ rest) :
      Step serviceName Asks s
        { s with backend := .received serviceName (reqBuf ++ chunk.bytes), up := rest }
  | backendSend {s : Exchange} {piece left : Bytes} {close : Bool} (hpiece : piece ≠ [])
      (hbackend : s.backend = .replying (piece ++ left) close) :
      Step serviceName Asks s { s with backend := .replied left close, down := s.down ++ piece }
  | backendClose {s : Exchange} (hbackend : s.backend = .closing) :
      Step serviceName Asks s { s with backend := .closed }
  | backendEof {s : Exchange} {reqBuf : Bytes} (hbackend : s.backend = .reading reqBuf)
      (hgateway : s.gateway = .evicted) (hup : s.up = []) :
      Step serviceName Asks s { s with backend := .closed }

/-- The states of a connection on which only such requests are sent. -/
def Reachable (serviceName : Bytes) (Asks : Bytes → Prop) : Exchange → Prop :=
  Relation.ReflTransGen (Step serviceName Asks) {}

/-- A request that ends with its head. -/
def Bare (request : Bytes) : Prop :=
  ∃ head, cutSub crlfcrlf request = some (head, [])

/-- What is wanted of a state: every answer is the response to its request, or there is none because
an earlier request has made the backend close the connection; a connection in the pool has nothing
left in its streams and nothing unanswered; and a call that waits can be answered. -/
structure InStep (serviceName : Bytes) (Asks : Bytes → Prop) (s : Exchange) : Prop where
  answered : List.Forall₂
    (fun request answer => answer = none ∨ answer = some (backendResponse serviceName request))
    (s.asked.take s.answers.length) s.answers
  refused : ∀ k, s.answers[k]? = some none → ∃ request ∈ s.asked.take k, clientClose request = true
  clean : s.gateway = .idle → s.answers.length = s.asked.length ∧ s.up = [] ∧ s.down = []
  progress : ∃ t, Relation.ReflTransGen (Step serviceName Asks) s t ∧ t.asked = s.asked ∧
    t.answers.length = s.asked.length

end Exchange

/-! ## The response -/

theorem length_digits_before_le (fuel n : Nat) (rest : Bytes) :
    (digitsBefore fuel n rest).length ≤ fuel + rest.length := by
  induction fuel generalizing n rest with
  | zero => exact Nat.le_add_left _ _
  | succ fuel ih =>
      simp only [digitsBefore]
      split_ifs with hlast
      · rw [List.length_cons]
        omega
      · have hle := ih (n / 10) (UInt8.ofNat (48 + n % 10) :: rest)
        rw [List.length_cons] at hle
        omega

variable {serviceName reqBuf : Bytes}

/-- The response as one with a length. -/
def lengthResponse (serviceName reqBuf : Bytes)
    (hsize : (respBody serviceName reqBuf).length < 2 ^ 63) : LengthResponse where
  status := ascii "HTTP/1.1 200 OK"
  before := [ascii "Content-Type: application/json", connHeader reqBuf]
  name := ascii "Content-Length:"
  spaces := 1
  after := []
  body := respBody serviceName reqBuf
  name_mem := by decide
  lines_crlf := by
    unfold connHeader
    split_ifs <;> decide
  others := by
    unfold connHeader
    split_ifs <;> decide
  body_lt := hsize

theorem length_response_bytes (hsize : (respBody serviceName reqBuf).length < 2 ^ 63) :
    (lengthResponse serviceName reqBuf hsize).bytes = backendResponse serviceName reqBuf := by
  have hstatus : ascii "HTTP/1.1 200 OK\r\nContent-Type: application/json\r\n" =
      ascii "HTTP/1.1 200 OK" ++ (crlf ++ (ascii "Content-Type: application/json" ++ crlf)) := by
    decide
  have hfield : ascii "\r\nContent-Length: " = crlf ++ (ascii "Content-Length:" ++ [32]) := by
    decide
  have hblank : ascii "\r\n\r\n" = crlfcrlf := by
    decide
  unfold backendResponse LengthResponse.bytes LengthResponse.head LengthResponse.field
  rw [hstatus, hfield, hblank]
  simp [lengthResponse, joinFields]

/-- The head ends before the body, whatever the body is. -/
theorem length_response_cut (hsize : (respBody serviceName reqBuf).length < 2 ^ 63) :
    cutSub crlfcrlf (lengthResponse serviceName reqBuf hsize).bytes =
      some ((lengthResponse serviceName reqBuf hsize).head,
        (lengthResponse serviceName reqBuf hsize).body) := by
  have hstatus : cutSub crlfcrlf (ascii "HTTP/1.1 200 OK" ++ crlfcrlf ++ []) =
      some (ascii "HTTP/1.1 200 OK", []) := by
    decide
  refine cut_blank_line (cut_blank_line_of_body hstatus _) fun field hfield => ?_
  rw [show (lengthResponse serviceName reqBuf hsize).before ++
      (lengthResponse serviceName reqBuf hsize).field ::
        (lengthResponse serviceName reqBuf hsize).after =
      [ascii "Content-Type: application/json", connHeader reqBuf,
        (lengthResponse serviceName reqBuf hsize).field] from rfl] at hfield
  simp only [List.mem_cons, List.not_mem_nil, or_false] at hfield
  rcases hfield with rfl | rfl | rfl
  · exact ⟨by decide, by decide⟩
  · unfold connHeader
    split_ifs
    · exact ⟨by decide, by decide⟩
    · exact ⟨by decide, by decide⟩
  · have hname : ascii "Content-Length:" ≠ [] := by decide
    exact ⟨List.append_ne_nil_of_left_ne_nil hname _, LengthResponse.field_crlf _⟩

theorem length_response_lt (hsize : (respBody serviceName reqBuf).length < 2 ^ 62) :
    (backendResponse serviceName reqBuf).length < 2 ^ 64 := by
  have hdigits := length_digits_before_le ((respBody serviceName reqBuf).length + 1)
    (respBody serviceName reqBuf).length []
  have hheader : (connHeader reqBuf).length ≤ 22 := by
    unfold connHeader
    split_ifs <;> decide
  have hstatus : (ascii "HTTP/1.1 200 OK\r\nContent-Type: application/json\r\n").length = 49 := by
    decide
  have hfield : (ascii "\r\nContent-Length: ").length = 18 := by
    decide
  have hblank : (ascii "\r\n\r\n").length = 4 := by
    decide
  unfold backendResponse natToString
  simp only [List.length_append, hstatus, hfield, hblank]
  rw [List.length_nil] at hdigits
  omega

/-- `recv_all` expects the end of the response where it is. -/
theorem expected_end_response (hsize : (respBody serviceName reqBuf).length < 2 ^ 62) :
    expectedEnd (backendResponse serviceName reqBuf) =
      some (backendResponse serviceName reqBuf).length := by
  have hsize' : (respBody serviceName reqBuf).length < 2 ^ 63 := hsize.trans (by decide)
  have hlength := length_response_lt hsize
  rw [← length_response_bytes hsize'] at hlength ⊢
  exact LengthResponse.expected_end _ (length_response_cut hsize') hlength

/-- So a first part of the response is taken for complete exactly if it is the whole. -/
theorem complete_response_iff (hsize : (respBody serviceName reqBuf).length < 2 ^ 62) {r : Received}
    (hr : r.Exact) {rest : Bytes} (hresp : r.resp ++ rest = backendResponse serviceName reqBuf) :
    r.complete = true ↔ rest = [] := by
  have hpre : r.resp <+: backendResponse serviceName reqBuf := ⟨rest, hresp⟩
  rw [Received.complete_iff hr hpre, expected_end_response hsize, ← hresp, List.length_append]
  constructor
  · rintro ⟨e, he, hle⟩
    cases he
    exact List.length_eq_zero_iff.1 (by omega)
  · rintro rfl
    exact ⟨_, rfl, by simp⟩

/-! ## Requests without a body -/

namespace Exchange

variable {Asks : Bytes → Prop} {s t : Exchange} {request : Bytes}

/-- The beginning of a request without a body does not hold its head. -/
theorem Bare.not_cut (h : Bare request) {buf rest : Bytes} (hrequest : buf ++ rest = request)
    (hrest : rest ≠ []) : cutSub crlfcrlf buf = none := by
  obtain ⟨head, hcut⟩ := h
  cases hbuf : cutSub crlfcrlf buf with
  | none => rfl
  | some parts =>
      obtain ⟨a, b⟩ := parts
      have hall := cutSub_append_of_some hbuf rest
      rw [hrequest, hcut] at hall
      have hnil : [] = b ++ rest := (Prod.mk.inj (Option.some.inj hall)).2
      exact absurd (List.append_eq_nil_iff.1 hnil.symm).2 hrest

theorem Bare.ne_nil (h : Bare request) : request ≠ [] := by
  rintro rfl
  obtain ⟨head, hcut⟩ := h
  cases hcut

theorem Bare.received_part (h : Bare request) {buf rest : Bytes} (hrequest : buf ++ rest = request)
    (hrest : rest ≠ []) : BackendStage.received serviceName buf = .reading buf := by
  unfold BackendStage.received
  rw [h.not_cut hrequest hrest]
  rfl

theorem Bare.received (h : Bare request) : BackendStage.received serviceName request =
    .replying (backendResponse serviceName request) (clientClose request) := by
  obtain ⟨head, hcut⟩ := h
  unfold BackendStage.received
  rw [hcut]
  rfl

theorem Bare.resp_body_lt (h : Bare request) (hname : serviceName.length < 2 ^ 61) :
    (respBody serviceName request).length < 2 ^ 62 := by
  obtain ⟨head, hcut⟩ := h
  have hbody : requestBody request = [] := by
    unfold requestBody
    rw [hcut]
  have hopen : (ascii "\x7b\"service\":\"").length = 12 := by decide
  have hmiddle : (ascii "\",\"body\":\"").length = 10 := by decide
  have hclose : (ascii "\"\x7d").length = 2 := by decide
  unfold respBody
  rw [hbody]
  simp only [List.length_append, List.length_nil, hopen, hmiddle, hclose]
  omega

theorem backend_response_ne_nil (serviceName reqBuf : Bytes) :
    backendResponse serviceName reqBuf ≠ [] := by
  have hstatus : ascii "HTTP/1.1 200 OK\r\nContent-Type: application/json\r\n" ≠ [] := by decide
  unfold backendResponse
  simp only [List.append_assoc]
  exact List.append_ne_nil_of_left_ne_nil hstatus _

/-- Where a request and its response are: `earlier` are the requests that have been answered. -/
inductive Phase (serviceName : Bytes) (earlier : List Bytes) :
    Option Bytes → GatewayStage → BackendStage → Bytes → Bytes → Prop where
  | idle : Phase serviceName earlier none .idle (.reading []) [] []
  | asking {reqBuf up left : Bytes} (hleft : left ≠ []) :
      Phase serviceName earlier (some (reqBuf ++ up ++ left)) (.sending left)
        (.reading reqBuf) up []
  | waiting {reqBuf up : Bytes} (hup : up ≠ []) :
      Phase serviceName earlier (some (reqBuf ++ up)) (.receiving {}) (.reading reqBuf) up []
  | replying {request down left : Bytes} {r : Received} (hr : r.Exact) (hleft : left ≠ [])
      (hresp : r.resp ++ (down ++ left) = backendResponse serviceName request) :
      Phase serviceName earlier (some request) (.receiving r)
        (.replying left (clientClose request)) [] down
  | replied {request down : Bytes} {r : Received} {backend : BackendStage} (hr : r.Exact)
      (hdown : down ≠ []) (hresp : r.resp ++ down = backendResponse serviceName request)
      (hbackend : backend = .replied [] (clientClose request) ∨
        (backend = .closed ∧ clientClose request = true)) :
      Phase serviceName earlier (some request) (.receiving r) backend [] down
  | idleClosed {backend : BackendStage} (hbackend : backend = .closing ∨ backend = .closed)
      (hcloses : ∃ request ∈ earlier, clientClose request = true) :
      Phase serviceName earlier none .idle backend [] []
  | askingClosed {request left up : Bytes} {backend : BackendStage}
      (hbackend : backend = .closing ∨ backend = .closed) (hleft : left ≠ [])
      (hcloses : ∃ request ∈ earlier, clientClose request = true) :
      Phase serviceName earlier (some request) (.sending left) backend up []
  | waitingClosed {request up : Bytes} {backend : BackendStage}
      (hbackend : backend = .closing ∨ backend = .closed)
      (hcloses : ∃ request ∈ earlier, clientClose request = true) :
      Phase serviceName earlier (some request) (.receiving {}) backend up []
  | evicted {backend : BackendStage} {up down : Bytes} :
      Phase serviceName earlier none .evicted backend up down

/-- What an answer can be. -/
def IsAnswer (serviceName request : Bytes) (answer : Option Bytes) : Prop :=
  answer = none ∨ answer = some (backendResponse serviceName request)

/-- The invariant, with the requests that have been answered and the one that has not. -/
structure Inv (serviceName : Bytes) (s : Exchange) (earlier : List Bytes) (current : Option Bytes) :
    Prop where
  asked : s.asked = earlier ++ current.toList
  answered : List.Forall₂ (IsAnswer serviceName) earlier s.answers
  refused : ∀ k, s.answers[k]? = some none → ∃ request ∈ earlier.take k, clientClose request = true
  bare : ∀ request ∈ s.asked, Bare request
  phase : Phase serviceName earlier current s.gateway s.backend s.up s.down

theorem inv_start (serviceName : Bytes) : Inv serviceName {} [] none where
  asked := rfl
  answered := .nil
  refused _ h := absurd h (by simp)
  bare _ h := absurd h (by simp)
  phase := .idle

variable {earlier : List Bytes} {current : Option Bytes}

theorem Inv.refused_le (hs : Inv serviceName s earlier current) {k : Nat}
    (h : s.answers[k]? = some none) : k ≤ earlier.length := by
  obtain ⟨hk, -⟩ := List.getElem?_eq_some_iff.1 h
  exact hs.answered.length_eq ▸ hk.le

/-- The request has been answered. -/
theorem Inv.answer (hs : Inv serviceName s earlier (some request)) {answer : Option Bytes}
    (hanswer : IsAnswer serviceName request answer)
    (hnone : answer = none → ∃ request ∈ earlier, clientClose request = true)
    {gateway : GatewayStage} {backend : BackendStage} {up down : Bytes}
    (hphase : Phase serviceName (earlier ++ [request]) none gateway backend up down) :
    Inv serviceName
      { s with
        gateway := gateway
        backend := backend
        up := up
        down := down
        answers := s.answers ++ [answer] } (earlier ++ [request]) none where
  asked := by
    show s.asked = _
    rw [hs.asked]
    simp
  answered := List.rel_append hs.answered (.cons hanswer .nil)
  refused k h := by
    have hlength := hs.answered.length_eq
    rcases Table.get_append_iff.1 h with h | ⟨rfl, heq⟩
    · rw [List.take_append_of_le_length (hs.refused_le h)]
      exact hs.refused k h
    · rw [List.take_left' hlength]
      exact hnone heq.symm
  bare := hs.bare
  phase := hphase

/-- The request is on its way. -/
theorem Inv.move (hs : Inv serviceName s earlier current) (gateway : GatewayStage)
    (backend : BackendStage) (up down : Bytes)
    (hphase : Phase serviceName earlier current gateway backend up down) :
    Inv serviceName { s with gateway := gateway, backend := backend, up := up, down := down }
      earlier current where
  asked := hs.asked
  answered := hs.answered
  refused := hs.refused
  bare := hs.bare
  phase := hphase

theorem Inv.current_bare (hs : Inv serviceName s earlier (some request)) : Bare request :=
  hs.bare request (by rw [hs.asked]; simp)

theorem sent_of_ne_nil {left : Bytes} (h : left ≠ []) : GatewayStage.sent left = .sending left :=
  if_neg h

theorem Phase.idle_none {backend : BackendStage} {up down : Bytes}
    (h : Phase serviceName earlier current .idle backend up down) : current = none := by
  cases h <;> rfl

/-- A new request. -/
theorem inv_ask (hs : Inv serviceName s earlier current) (hgateway : s.gateway = .idle)
    (hbare : Bare request) :
    ∃ earlier current, Inv serviceName
      { s with gateway := .sent request, asked := s.asked ++ [request] } earlier current := by
  have hphase := hs.phase
  rw [hgateway] at hphase
  obtain rfl := hphase.idle_none
  have hasked : s.asked = earlier := by simpa using hs.asked
  refine ⟨earlier, some request, by simp [hasked], hs.answered, hs.refused, ?_, ?_⟩
  · intro other hmem
    rcases List.mem_append.1 hmem with hmem | hmem
    · exact hs.bare other hmem
    · exact List.mem_singleton.1 hmem ▸ hbare
  · show Phase serviceName earlier (some request) (.sent request) s.backend s.up s.down
    rw [sent_of_ne_nil hbare.ne_nil]
    generalize s.backend = backend, s.up = up, s.down = down at hphase
    cases hphase with
    | idle =>
        have hnew : Phase serviceName earlier (some ([] ++ [] ++ request)) _ _ _ [] :=
          .asking hbare.ne_nil
        exact hnew
    | idleClosed hbackend hcloses => exact .askingClosed hbackend hbare.ne_nil hcloses

/-- A part of the request. -/
theorem inv_send (hs : Inv serviceName s earlier current) {piece left : Bytes} (hpiece : piece ≠ [])
    (hgateway : s.gateway = .sending (piece ++ left)) :
    Inv serviceName { s with gateway := .sent left, up := s.up ++ piece } earlier current := by
  refine hs.move _ s.backend _ s.down ?_
  have hphase := hs.phase
  rw [hgateway] at hphase
  generalize s.backend = backend, s.up = up, s.down = down at hphase
  unfold GatewayStage.sent
  cases hphase with
  | @asking reqBuf _ _ hleft =>
      split_ifs with hlast
      · rw [hlast, List.append_nil, List.append_assoc]
        exact .waiting (List.append_ne_nil_of_right_ne_nil _ hpiece)
      · rw [show reqBuf ++ up ++ (piece ++ left) = reqBuf ++ (up ++ piece) ++ left by simp]
        exact .asking hlast
  | askingClosed hbackend hleft hcloses =>
      split_ifs with hlast
      · exact .waitingClosed hbackend hcloses
      · exact .askingClosed hbackend hlast hcloses

/-- The connection when the response to a request has been read. -/
theorem phase_answered {backend : BackendStage}
    (hbackend : backend = .replied [] (clientClose request) ∨
      (backend = .closed ∧ clientClose request = true)) :
    Phase serviceName (earlier ++ [request]) none .idle backend [] [] := by
  have hlast : request ∈ earlier ++ [request] := by simp
  rcases hbackend with rfl | ⟨rfl, hclose⟩
  · cases hclose : clientClose request with
    | false => exact .idle
    | true => exact .idleClosed (Or.inl rfl) ⟨request, hlast, hclose⟩
  · exact .idleClosed (Or.inr rfl) ⟨request, hlast, hclose⟩

/-- A `recv` of the gateway. -/
theorem inv_receive (hs : Inv serviceName s earlier current) (hname : serviceName.length < 2 ^ 61)
    {r : Received} {chunk : Chunk} {rest : Bytes} (hgateway : s.gateway = .receiving r)
    (hdown : s.down = chunk.bytes ++ rest) :
    ((r.take chunk.bytes).complete = true → ∃ request, Inv serviceName
      { s with
        gateway := .idle
        down := rest
        answers := s.answers ++ [some (r.take chunk.bytes).resp] } (earlier ++ [request]) none) ∧
    ((r.take chunk.bytes).complete = false → Inv serviceName
      { s with gateway := .receiving (r.take chunk.bytes), down := rest } earlier current) := by
  have hphase := hs.phase
  rw [hgateway, hdown] at hphase
  have hchunk : chunk.bytes ++ rest ≠ [] := List.append_ne_nil_of_left_ne_nil chunk.ne_nil _
  have hresp := r.take_resp chunk.bytes
  generalize s.backend = backend, s.up = up, hd : chunk.bytes ++ rest = down at hphase ⊢
  cases hphase with
  | waiting hup => exact absurd hd hchunk
  | waitingClosed hbackend hcloses => exact absurd hd hchunk
  | @replying request _ left _ hr hleft hwhole =>
      have hr' := Received.exact_take hr chunk.bytes
      have hwhole' : (r.take chunk.bytes).resp ++ (rest ++ left) =
          backendResponse serviceName request := by
        rw [hresp, ← hwhole, ← hd]
        simp
      have hpart : rest ++ left ≠ [] := List.append_ne_nil_of_right_ne_nil _ hleft
      have hcomplete := complete_response_iff (hs.current_bare.resp_body_lt hname) hr' hwhole'
      exact ⟨fun h => absurd (hcomplete.1 h) hpart, fun _ =>
        hs.move _ _ _ _ (.replying hr' hleft hwhole')⟩
  | @replied request _ _ _ hr hne hwhole hbackend =>
      have hr' := Received.exact_take hr chunk.bytes
      have hwhole' : (r.take chunk.bytes).resp ++ rest = backendResponse serviceName request := by
        rw [hresp, ← hwhole, ← hd]
        simp
      have hcomplete := complete_response_iff (hs.current_bare.resp_body_lt hname) hr' hwhole'
      refine ⟨fun h => ⟨request, ?_⟩, fun h => ?_⟩
      · obtain rfl := hcomplete.1 h
        rw [List.append_nil] at hwhole'
        exact hs.answer (Or.inr (congrArg some hwhole')) (by simp) (phase_answered hbackend)
      · refine hs.move _ _ _ _ (.replied hr' (fun hnil => ?_) hwhole' hbackend)
        rw [hcomplete.2 hnil] at h
        cases h

/-- A `recv` of the backend. -/
theorem inv_backend_receive (hs : Inv serviceName s earlier current) {reqBuf : Bytes}
    {chunk : Chunk}
    {rest : Bytes} (hbackend : s.backend = .reading reqBuf) (hup : s.up = chunk.bytes ++ rest) :
    Inv serviceName
      { s with backend := .received serviceName (reqBuf ++ chunk.bytes), up := rest }
      earlier current := by
  refine hs.move s.gateway _ _ s.down ?_
  have hphase := hs.phase
  rw [hbackend, hup] at hphase
  have hchunk : chunk.bytes ++ rest ≠ [] := List.append_ne_nil_of_left_ne_nil chunk.ne_nil _
  generalize s.gateway = gateway, hu : chunk.bytes ++ rest = up, s.down = down at hphase
  cases hphase with
  | idle => exact absurd hu hchunk
  | @asking _ _ left hleft =>
      have hrequest : reqBuf ++ chunk.bytes ++ (rest ++ left) = reqBuf ++ up ++ left := by
        rw [← hu]
        simp
      rw [hs.current_bare.received_part hrequest (List.append_ne_nil_of_right_ne_nil _ hleft),
        ← hrequest, ← List.append_assoc]
      exact .asking hleft
  | waiting hne =>
      have hrequest : reqBuf ++ chunk.bytes ++ rest = reqBuf ++ up := by
        rw [← hu]
        simp
      by_cases hrest : rest = []
      · -- the blank line has arrived, and with it the whole request
        subst hrest
        rw [List.append_nil] at hrequest
        rw [hrequest, hs.current_bare.received]
        exact .replying Received.exact_start (backend_response_ne_nil _ _) rfl
      · rw [hs.current_bare.received_part hrequest hrest, ← hrequest]
        exact .waiting hrest
  | replied hr hne hwhole hreplied => exact absurd hu hchunk
  | idleClosed hclosed hcloses => rcases hclosed with h | h <;> cases h
  | askingClosed hclosed hleft hcloses => rcases hclosed with h | h <;> cases h
  | waitingClosed hclosed hcloses => rcases hclosed with h | h <;> cases h
  | evicted => exact .evicted

/-- A part of the response. -/
theorem inv_backend_send (hs : Inv serviceName s earlier current) {piece left : Bytes}
    {close : Bool} (hpiece : piece ≠ []) (hbackend : s.backend = .replying (piece ++ left) close) :
    Inv serviceName { s with backend := .replied left close, down := s.down ++ piece }
      earlier current := by
  refine hs.move s.gateway _ s.up _ ?_
  have hphase := hs.phase
  rw [hbackend] at hphase
  generalize s.gateway = gateway, s.up = up, s.down = down at hphase
  cases hphase with
  | @replying request _ _ r hr hleft hwhole =>
      have hwhole' : r.resp ++ (down ++ piece ++ left) = backendResponse serviceName request := by
        rw [← hwhole]
        simp
      by_cases hlast : left = []
      · subst hlast
        rw [List.append_nil] at hwhole'
        exact .replied hr (List.append_ne_nil_of_right_ne_nil _ hpiece) hwhole' (Or.inl rfl)
      · rw [BackendStage.replied, if_neg hlast]
        exact .replying hr hlast hwhole'
  | @replied request _ _ _ hr hne hwhole hreplied =>
      rcases hreplied with h | ⟨h, -⟩
      · rw [BackendStage.replied, if_pos rfl] at h
        split_ifs at h
      · cases h
  | idleClosed hclosed hcloses => rcases hclosed with h | h <;> cases h
  | askingClosed hclosed hleft hcloses => rcases hclosed with h | h <;> cases h
  | waitingClosed hclosed hcloses => rcases hclosed with h | h <;> cases h
  | evicted => exact .evicted

/-- The backend closes the connection. -/
theorem inv_backend_close (hs : Inv serviceName s earlier current)
    (hbackend : s.backend = .closing) :
    Inv serviceName { s with backend := .closed } earlier current := by
  refine hs.move s.gateway _ s.up s.down ?_
  have hphase := hs.phase
  rw [hbackend] at hphase
  generalize s.gateway = gateway, s.up = up, s.down = down at hphase ⊢
  cases hphase with
  | @replied request _ _ _ hr hne hwhole hreplied =>
      refine .replied hr hne hwhole (Or.inr ⟨rfl, ?_⟩)
      rcases hreplied with h | ⟨h, -⟩
      · rw [BackendStage.replied, if_pos rfl] at h
        split_ifs at h with hclose
        exact hclose
      · cases h
  | idleClosed hclosed hcloses => exact .idleClosed (Or.inr rfl) hcloses
  | askingClosed hclosed hleft hcloses => exact .askingClosed (Or.inr rfl) hleft hcloses
  | waitingClosed hclosed hcloses => exact .waitingClosed (Or.inr rfl) hcloses
  | evicted => exact .evicted

/-- The gateway finds the connection closed, before it has got anything of a response. -/
theorem inv_fails (hs : Inv serviceName s earlier current) (hbackend : s.backend = .closed)
    (hgateway : (∃ left, s.gateway = .sending left) ∨
      ∃ r, s.gateway = .receiving r ∧ s.down = []) :
    ∃ request, current = some request ∧ (∀ r, s.gateway = .receiving r → r.resp = []) ∧
      Inv serviceName { s with gateway := .evicted, answers := s.answers ++ [none] }
        (earlier ++ [request]) none := by
  have hphase := hs.phase
  rw [hbackend] at hphase
  rcases hgateway with ⟨left, hgateway⟩ | ⟨r, hgateway, hdown⟩
  · rw [hgateway] at hphase ⊢
    generalize s.up = up, s.down = down at hphase
    cases hphase with
    | @askingClosed request _ _ _ hclosed hleft hcloses =>
        refine ⟨request, rfl, fun r h => ?_, hs.answer (Or.inl rfl) (fun _ => hcloses) .evicted⟩
        cases h
  · rw [hgateway, hdown] at hphase
    rw [hgateway]
    generalize s.up = up at hphase
    cases hphase with
    | replied hr hne hwhole hreplied => exact absurd rfl hne
    | @waitingClosed request _ _ hclosed hcloses =>
        refine ⟨request, rfl, fun r h => ?_, hs.answer (Or.inl rfl) (fun _ => hcloses) .evicted⟩
        cases h
        rfl

theorem inv_step (hname : serviceName.length < 2 ^ 61)
    (hasks : ∀ request, Asks request → Bare request)
    (hs : Inv serviceName s earlier current) (h : Step serviceName Asks s t) :
    ∃ earlier current, Inv serviceName t earlier current := by
  cases h with
  | ask hrequest hgateway => exact inv_ask hs hgateway (hasks _ hrequest)
  | send hpiece hgateway => exact ⟨_, _, inv_send hs hpiece hgateway⟩
  | sendFails hgateway hbackend =>
      obtain ⟨request, -, -, hinv⟩ := inv_fails hs hbackend (Or.inl ⟨_, hgateway⟩)
      exact ⟨_, _, hinv⟩
  | receive hgateway hdown hmore =>
      exact ⟨_, _, (inv_receive hs hname hgateway hdown).2 hmore⟩
  | receiveLast hgateway hdown hcomplete =>
      obtain ⟨request, hinv⟩ := (inv_receive hs hname hgateway hdown).1 hcomplete
      exact ⟨_, _, hinv⟩
  | receiveEof hgateway hbackend hdown =>
      obtain ⟨request, -, hempty, hinv⟩ := inv_fails hs hbackend (Or.inr ⟨_, hgateway, hdown⟩)
      rw [if_pos (hempty _ hgateway)]
      exact ⟨_, _, hinv⟩
  | backendReceive hbackend hup => exact ⟨_, _, inv_backend_receive hs hbackend hup⟩
  | backendSend hpiece hbackend => exact ⟨_, _, inv_backend_send hs hpiece hbackend⟩
  | backendClose hbackend => exact ⟨_, _, inv_backend_close hs hbackend⟩
  | backendEof hbackend hgateway hup =>
      have hphase := hs.phase
      rw [hgateway] at hphase
      refine ⟨earlier, current, hs.move s.gateway _ s.up s.down ?_⟩
      rw [hgateway]
      generalize s.backend = backend, s.up = up, s.down = down at hphase
      cases hphase
      exact .evicted

theorem inv_reachable (hname : serviceName.length < 2 ^ 61)
    (hasks : ∀ request, Asks request → Bare request) (h : Reachable serviceName Asks s) :
    ∃ earlier current, Inv serviceName s earlier current := by
  induction h with
  | refl => exact ⟨_, _, inv_start serviceName⟩
  | tail _ hstep ih =>
      obtain ⟨earlier, current, hs⟩ := ih
      exact inv_step hname hasks hs hstep

/-! ## Every call can be answered -/

/-- Any number of steps. -/
abbrev Run (serviceName : Bytes) (Asks : Bytes → Prop) : Exchange → Exchange → Prop :=
  Relation.ReflTransGen (Step serviceName Asks)

/-- A `recv` that returns one byte. -/
def oneByte (b : UInt8) : Chunk :=
  ⟨[b], by simp, by simp⟩

/-- The gateway reads the response byte by byte. -/
theorem exists_receives (hsize : (respBody serviceName request).length < 2 ^ 62) (more : Bytes)
    {r : Received} (hr : r.Exact) (hresp : r.resp ++ more = backendResponse serviceName request)
    (hmore : more ≠ []) (hgateway : s.gateway = .receiving r) (hdown : s.down = more) :
    Run serviceName Asks s
      { s with
        gateway := .idle
        down := []
        answers := s.answers ++ [some (backendResponse serviceName request)] } := by
  induction more generalizing s r with
  | nil => exact absurd rfl hmore
  | cons b more ih =>
      have hr' := Received.exact_take hr [b]
      have hresp' : (r.take [b]).resp ++ more = backendResponse serviceName request := by
        rw [r.take_resp, ← hresp]
        simp
      have hcomplete := complete_response_iff hsize hr' hresp'
      have hbyte : s.down = (oneByte b).bytes ++ more := hdown
      by_cases hlast : more = []
      · subst hlast
        rw [List.append_nil] at hresp'
        rw [← hresp']
        exact .single (.receiveLast hgateway hbyte (hcomplete.2 rfl))
      · have hpart : (r.take [b]).complete = false := by
          cases h : (r.take [b]).complete with
          | false => rfl
          | true => exact absurd (hcomplete.1 h) hlast
        exact .head (.receive hgateway hbyte hpart)
          (ih hr' hresp' hlast rfl rfl)

/-- The backend reads a head byte by byte, and leaves what follows it. -/
theorem exists_backend_receives (hbare : Bare request) (more rest : Bytes) {reqBuf : Bytes}
    (hrequest : reqBuf ++ more = request) (hmore : more ≠ [])
    (hbackend : s.backend = .reading reqBuf) (hup : s.up = more ++ rest) :
    Run serviceName Asks s
      { s with
        backend := .replying (backendResponse serviceName request) (clientClose request)
        up := rest } := by
  induction more generalizing s reqBuf with
  | nil => exact absurd rfl hmore
  | cons b more ih =>
      have hrequest' : reqBuf ++ [b] ++ more = request := by
        rw [← hrequest]
        simp
      have hbyte : s.up = (oneByte b).bytes ++ (more ++ rest) := hup
      have hstep : Step serviceName Asks s _ := .backendReceive hbackend hbyte
      have hbuf : reqBuf ++ (oneByte b).bytes = reqBuf ++ [b] := rfl
      rw [hbuf] at hstep
      by_cases hlast : more = []
      · subst hlast
        rw [List.append_nil] at hrequest'
        rw [hrequest', hbare.received] at hstep
        exact .single hstep
      · rw [hbare.received_part hrequest' hlast] at hstep
        exact .head hstep (ih hrequest' hlast rfl rfl)

/-- The call is answered in some run that makes no further one. -/
def CanAnswer (serviceName : Bytes) (Asks : Bytes → Prop) (s : Exchange) : Prop :=
  ∃ t, Run serviceName Asks s t ∧ t.asked = s.asked ∧ t.answers.length = s.answers.length + 1

theorem CanAnswer.head (h : CanAnswer serviceName Asks t) (hrun : Run serviceName Asks s t)
    (hasked : t.asked = s.asked) (hanswers : t.answers = s.answers) :
    CanAnswer serviceName Asks s := by
  obtain ⟨u, hu, huasked, hulength⟩ := h
  exact ⟨u, hrun.trans hu, huasked.trans hasked, hanswers ▸ hulength⟩

/-- A closed connection answers with an error. -/
theorem can_answer_closed (hclosed : s.backend = .closing ∨ s.backend = .closed)
    (hgateway : (∃ left, s.gateway = .sending left) ∨
      ∃ r, s.gateway = .receiving r ∧ s.down = []) : CanAnswer serviceName Asks s := by
  have hfails {s : Exchange} (hbackend : s.backend = .closed)
      (hgateway : (∃ left, s.gateway = .sending left) ∨
        ∃ r, s.gateway = .receiving r ∧ s.down = []) : CanAnswer serviceName Asks s := by
    rcases hgateway with ⟨left, hgateway⟩ | ⟨r, hgateway, hdown⟩
    · exact ⟨_, .single (.sendFails hgateway hbackend), rfl, by simp⟩
    · exact ⟨_, .single (.receiveEof hgateway hbackend hdown), rfl, by simp⟩
  rcases hclosed with hclosing | hclosed
  · exact (hfails (s := { s with backend := .closed }) rfl hgateway).head
      (.single (.backendClose hclosing)) rfl rfl
  · exact hfails hclosed hgateway

theorem can_answer_replied (hsize : (respBody serviceName request).length < 2 ^ 62) {r : Received}
    (hr : r.Exact) (hresp : r.resp ++ s.down = backendResponse serviceName request)
    (hdown : s.down ≠ []) (hgateway : s.gateway = .receiving r) :
    CanAnswer serviceName Asks s :=
  ⟨_, exists_receives hsize s.down hr hresp hdown hgateway rfl, rfl, by simp⟩

theorem can_answer_replying (hsize : (respBody serviceName request).length < 2 ^ 62)
    {r : Received} (hr : r.Exact) {left : Bytes} {close : Bool}
    (hresp : r.resp ++ (s.down ++ left) = backendResponse serviceName request) (hleft : left ≠ [])
    (hgateway : s.gateway = .receiving r) (hbackend : s.backend = .replying left close) :
    CanAnswer serviceName Asks s := by
  have hwhole : s.backend = .replying (left ++ []) close := by rwa [List.append_nil]
  have hstep : Step serviceName Asks s _ := .backendSend hleft hwhole
  exact (can_answer_replied hsize (s := { s with
      backend := .replied [] close, down := s.down ++ left }) hr hresp
    (List.append_ne_nil_of_right_ne_nil _ hleft) hgateway).head (.single hstep) rfl rfl

theorem can_answer_waiting (hname : serviceName.length < 2 ^ 61) (hbare : Bare request)
    {reqBuf : Bytes} (hrequest : reqBuf ++ s.up = request) (hup : s.up ≠ []) (hdown : s.down = [])
    (hgateway : s.gateway = .receiving {}) (hbackend : s.backend = .reading reqBuf) :
    CanAnswer serviceName Asks s := by
  have hreads : Run serviceName Asks s _ := exists_backend_receives hbare s.up [] hrequest hup
    hbackend (List.append_nil _).symm
  refine CanAnswer.head ?_ hreads rfl rfl
  refine can_answer_replying (hbare.resp_body_lt hname) Received.exact_start ?_
    (backend_response_ne_nil serviceName request) hgateway rfl
  show [] ++ (s.down ++ _) = _
  rw [hdown]
  rfl

theorem can_answer_asking (hname : serviceName.length < 2 ^ 61) (hbare : Bare request)
    {reqBuf left : Bytes} (hrequest : reqBuf ++ s.up ++ left = request) (hleft : left ≠ [])
    (hdown : s.down = []) (hgateway : s.gateway = .sending left)
    (hbackend : s.backend = .reading reqBuf) : CanAnswer serviceName Asks s := by
  have hwhole : s.gateway = .sending (left ++ []) := by rwa [List.append_nil]
  have hstep : Step serviceName Asks s _ := .send hleft hwhole
  have hsent : reqBuf ++ (s.up ++ left) = request := by rw [← hrequest, List.append_assoc]
  exact (can_answer_waiting hname hbare (s := { s with
      gateway := .sent [], up := s.up ++ left }) hsent
    (List.append_ne_nil_of_right_ne_nil _ hleft) hdown rfl hbackend).head (.single hstep) rfl rfl

theorem Inv.can_answer (hs : Inv serviceName s earlier (some request))
    (hname : serviceName.length < 2 ^ 61) : CanAnswer serviceName Asks s := by
  have hbare := hs.current_bare
  have hsize := hbare.resp_body_lt hname
  have hphase := hs.phase
  generalize hg : s.gateway = gateway, hb : s.backend = backend, hu : s.up = up,
    hd : s.down = down at hphase
  cases hphase with
  | asking hleft => exact can_answer_asking hname hbare (by rw [hu]) hleft hd hg hb
  | waiting hne => exact can_answer_waiting hname hbare (by rw [hu]) (hu ▸ hne) hd hg hb
  | replying hr hleft hresp => exact can_answer_replying hsize hr (hd ▸ hresp) hleft hg hb
  | replied hr hne hresp hreplied => exact can_answer_replied hsize hr (hd ▸ hresp) (hd ▸ hne) hg
  | askingClosed hclosed hleft hcloses =>
      exact can_answer_closed (hb ▸ hclosed) (Or.inl ⟨_, hg⟩)
  | waitingClosed hclosed hcloses =>
      exact can_answer_closed (hb ▸ hclosed) (Or.inr ⟨_, hg, hd⟩)

theorem Inv.in_step (hs : Inv serviceName s earlier current) (hname : serviceName.length < 2 ^ 61) :
    InStep serviceName Asks s := by
  have hlength : earlier.length = s.answers.length := hs.answered.length_eq
  refine ⟨?_, fun k hnone => ?_, fun hidle => ?_, ?_⟩
  · rw [hs.asked, List.take_left' hlength]
    exact hs.answered
  · rw [hs.asked, List.take_append_of_le_length (hs.refused_le hnone)]
    exact hs.refused k hnone
  · have hphase := hs.phase
    rw [hidle] at hphase
    have hasked := hs.asked
    rw [hphase.idle_none, Option.toList_none, List.append_nil] at hasked
    refine ⟨hasked ▸ hlength.symm, ?_⟩
    generalize s.backend = backend, s.up = up, s.down = down at hphase
    cases hphase with
    | idle => exact ⟨rfl, rfl⟩
    | idleClosed => exact ⟨rfl, rfl⟩
  · cases current with
    | none =>
        refine ⟨s, .refl, rfl, ?_⟩
        rw [hs.asked, ← hlength]
        simp
    | some request =>
        have hcan : CanAnswer serviceName Asks s := hs.can_answer hname
        obtain ⟨t, hrun, hasked, hanswers⟩ := hcan
        refine ⟨t, hrun, hasked, ?_⟩
        rw [hanswers, hs.asked, ← hlength]
        simp

/-! ## Requests with a body -/

/-- A request with a body can be answered before its body has been read. -/
theorem body_left_behind (hname : serviceName.length < 2 ^ 61) (hasks : Asks request)
    {head body : Bytes} (hcut : cutSub crlfcrlf request = some (head, body)) :
    ∃ s, Reachable serviceName Asks s ∧ s.gateway = .idle ∧ s.up = body := by
  obtain ⟨hrequest, hfirst⟩ := cutSub_eq_some_iff.1 hcut
  have hbare : Bare (head ++ crlfcrlf) := by
    refine ⟨head, ?_⟩
    have hshort := cut_blank_line_of_body (hrequest ▸ hcut) []
    rwa [List.append_nil] at hshort
  have hne : request ≠ [] := by
    rintro rfl
    cases hcut
  have hsent : Run serviceName Asks {}
      { gateway := .receiving {}, up := request, asked := [request] } := by
    have hask : Step serviceName Asks {} { gateway := .sending request, asked := [request] } :=
      sent_of_ne_nil hne ▸ .ask hasks rfl
    have hwhole : GatewayStage.sending request = .sending (request ++ []) := by
      rw [List.append_nil]
    have hsend : Step serviceName Asks { gateway := .sending request, asked := [request] } _ :=
      .send hne hwhole
    exact (Relation.ReflTransGen.single hask).tail hsend
  have hreads : Run serviceName Asks
      { gateway := .receiving {}, up := request, asked := [request] } _ :=
    exists_backend_receives hbare (head ++ crlfcrlf) body rfl hbare.ne_nil rfl hrequest
  have hwhole : BackendStage.replying (backendResponse serviceName (head ++ crlfcrlf))
      (clientClose (head ++ crlfcrlf)) = .replying (backendResponse serviceName (head ++ crlfcrlf)
        ++ []) (clientClose (head ++ crlfcrlf)) := by
    rw [List.append_nil]
  have hreplies := hreads.tail (.backendSend (backend_response_ne_nil _ _) hwhole)
  obtain ⟨t, ht, hgateway, hdown, hup⟩ : ∃ t, Run serviceName Asks {} t ∧
      t.gateway = .receiving {} ∧ t.down = backendResponse serviceName (head ++ crlfcrlf) ∧
      t.up = body :=
    ⟨_, hsent.trans hreplies, rfl, List.nil_append _, rfl⟩
  have hanswer : Run serviceName Asks t _ := exists_receives (hbare.resp_body_lt hname) _
    Received.exact_start (List.nil_append _) (backend_response_ne_nil _ _) hgateway hdown
  exact ⟨_, ht.trans hanswer, rfl, hup⟩

/-- Every answer on a connection belongs to its request, a connection in the pool is clean and every
call can be answered, in all runs, exactly if no request has a body. -/
theorem exchange_in_step_iff (serviceName : Bytes) (hname : serviceName.length < 2 ^ 61)
    (Asks : Bytes → Prop) (hasks : ∀ request, Asks request → crlfcrlf <:+: request) :
    (∀ s, Reachable serviceName Asks s → InStep serviceName Asks s) ↔
      ∀ request, Asks request → Bare request := by
  constructor
  · intro hstep request hrequest
    obtain ⟨⟨head, body⟩, hcut⟩ := Option.isSome_iff_exists.1
      (cutSub_isSome_iff.2 (hasks request hrequest))
    by_contra hbare
    have hbody : body ≠ [] := by
      rintro rfl
      exact hbare ⟨head, hcut⟩
    obtain ⟨s, hreach, hidle, hup⟩ := body_left_behind hname hrequest hcut
    exact hbody (hup.symm.trans ((hstep s hreach).clean hidle).2.1)
  · intro hbare s hreach
    obtain ⟨earlier, current, hs⟩ := inv_reachable hname hbare hreach
    exact hs.in_step hname

/-- The same request again and again, to the backend `order_server`. -/
theorem exchange_in_step_order :
    Bare (ascii "GET /orders HTTP/1.1\r\n\r\n") ∧
      ∀ s, Reachable (ascii "order") (· = ascii "GET /orders HTTP/1.1\r\n\r\n") s →
        InStep (ascii "order") (· = ascii "GET /orders HTTP/1.1\r\n\r\n") s := by
  have hbare : Bare (ascii "GET /orders HTTP/1.1\r\n\r\n") :=
    ⟨ascii "GET /orders HTTP/1.1", by decide⟩
  refine ⟨hbare, (exchange_in_step_iff (ascii "order") (by decide) _ ?_).2 ?_⟩
  · intro request hrequest
    subst hrequest
    decide
  · intro request hrequest
    subst hrequest
    exact hbare

end Exchange

end ApiGateway.Proxy
