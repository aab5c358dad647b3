import ApiGateway.Core.Config
import ApiGateway.Http.Reparse
import ApiGateway.Http.Response

/-!
# Processing a request

`Gateway::process_request` of `gateway.cpp`, which a worker runs for every message. What it learns
from the objects of the gateway (filters, routes, balancer, circuit breakers, backends) is an
argument, the `Environment`. What it does to them, and to the connection, is its result: the
sequence of its calls. Each of its six exits answers the client exactly once
(`process_request_replies`).
-/

namespace ApiGateway.Core

open Http Search

/-- `struct FilterContext`, without the response. -/
structure FilterContext where
  req : HttpRequest
  requestId : Bytes := []
  startTime : Int := 0

/-- `class Filter`. The response is passed to the second handler next to the context. -/
structure Filter where
  onRequest : FilterContext → Bool × FilterContext
  onResponse : FilterContext → HttpResponse → FilterContext × HttpResponse

/-- What one execution of `process_request` learns from the rest of the gateway: the response of
an internal endpoint, the filters, the matching route, the selected backend, whether its circuit
breaker admits the request, the response of the backend, and the time it has taken. -/
structure Environment where
  internalEndpoint : Bytes → Option Bytes
  filters : List Filter
  route : Bytes → Option (List Backend)
  select : List Backend → Backend
  allowRequest : Backend → Bool
  forward : Backend → Bytes → Bytes
  elapsed : Nat

/-- The calls by which `process_request` has an effect. -/
inductive Call where
  | incRateLimited
  | onConnect (target : Backend)
  | onDisconnect (target : Backend)
  | recordRequest (path : Bytes) (elapsed : Nat)
  | recordSuccess (path : Bytes)
  | recordError (path : Bytes)
  | incUpstreamErrors
  | onSuccess (target : Backend)
  | onFailure (target : Backend)
  | send (data : Bytes) (keepAlive : Bool)

/-- The response a call gives to the connection, if it does. -/
def Call.response? : Call → Option (Bytes × Bool)
  | .send data keepAlive => some (data, keepAlive)
  | _ => none

/-- `send_error_and_close`. -/
def sendErrorAndClose (resp : Bytes) : Call :=
  .send resp false

/-- The request phase of the filter chain. -/
def filterRequest : List Filter → FilterContext → Bool × FilterContext
  | [], ctx => (true, ctx)
  | f :: rest, ctx =>
      let result := f.onRequest ctx
      if result.1 then filterRequest rest result.2 else result

/-- The response phase of the filter chain. -/
def filterResponse (filters : List Filter) (ctx : FilterContext) (resp : HttpResponse) :
    FilterContext × HttpResponse :=
  filters.foldl (fun result f => f.onResponse result.1 result.2) (ctx, resp)

/-- Whether the bytes contain the pattern. -/
def contains (pattern s : Bytes) : Bool :=
  (cutSub pattern s).isSome

/-- `std::string::insert`. -/
def insertAt (s : Bytes) (pos : Nat) (extra : Bytes) : Bytes :=
  s.take pos ++ extra ++ s.drop pos

/-- The backend's response with a `Connection` header, and the position at which further headers
are inserted, if there is a header terminator. The source advances that position by 21 although
the inserted header has 19 bytes. -/
def addConnectionHeader (out : Bytes) : Bytes × Option Nat :=
  match cutSub crlfcrlf out with
  | none => (out, none)
  | some (head, _) =>
      let region := out.take (head.length + 2)
      if contains (ascii "\r\nConnection:") region || contains (ascii "\r\nconnection:") region then
        (out, some head.length)
      else (insertAt out head.length (ascii "\r\nConnection: close"), some (head.length + 21))

/-- The status code between the first two spaces, if it is a number. -/
def statusCode? (out : Bytes) : Option Int := do
  let (_, rest) ← cut 32 out
  let (code, following) ← cut 32 rest
  parseIntSafe code (32 :: following)

/-- The headers added by the filters that are not in the first `hdrEnd` bytes yet. -/
def extraHeaders (out : Bytes) (hdrEnd : Nat) (headers : SortedMap Bytes Bytes) : Bytes :=
  (headers.entries.map fun e =>
    if contains (crlf ++ e.1 ++ ascii ":") (out.take hdrEnd) then []
    else crlf ++ e.1 ++ ascii ": " ++ e.2).flatten

/-- The response that is sent for the response of a backend. -/
def rewriteResponse (filters : List Filter) (ctx : FilterContext) (rawResp : Bytes) : Bytes :=
  let (out, hdrEnd?) := addConnectionHeader rawResp
  let tmpResp : HttpResponse :=
    match statusCode? out with
    | some code => { statusCode := code }
    | none => {}
  let resp := (filterResponse filters ctx tmpResp).2
  match hdrEnd? with
  | none => out
  | some hdrEnd => insertAt out hdrEnd (extraHeaders out hdrEnd resp.headers)

/-- Whether the connection stays open after the response. -/
def keepsAlive (req : HttpRequest) (out : Bytes) : Bool :=
  requestKeepAlive req &&
    !(contains (ascii "\r\nConnection: close") out || contains (ascii "\r\nconnection: close") out)

/-- The response of an open circuit breaker. -/
def unavailable : Bytes :=
  ascii "HTTP/1.1 503 Service Unavailable\r\nContent-Length: 19\r\nConnection: close\r\n\r\n" ++
    ascii "Service Unavailable"

/-- Whether the backend has answered without a server error. -/
def succeeded (rawResp : Bytes) : Bool :=
  !rawResp.isEmpty && !(ascii "HTTP/1.1 5").isPrefixOf rawResp

/-- Forwarding to a backend and answering with its response: steps 5 to 9 of `process_request`. -/
def forwardRequest (env : Environment) (ctx : FilterContext) (target : Backend) (raw : Bytes) :
    List Call :=
  let rawResp := env.forward target raw
  let path := ctx.req.path
  let reports :=
    if succeeded rawResp then [Call.recordSuccess path, .onSuccess target]
    else [.recordError path, .incUpstreamErrors, .onFailure target]
  let out := rewriteResponse env.filters ctx rawResp
  [.onConnect target, .onDisconnect target, .recordRequest path env.elapsed] ++ reports ++
    [.send out (keepsAlive ctx.req out)]

/-- `process_request`. -/
def processRequest (env : Environment) (raw : Bytes) : List Call :=
  let parsed := parseHttpRequest raw {}
  if !parsed.1 then [sendErrorAndClose (make400 false).toString]
  else
    match env.internalEndpoint parsed.2.path with
    | some resp => [.send resp false]
    | none =>
        let filtered := filterRequest env.filters { req := parsed.2 }
        if !filtered.1 then [.incRateLimited, sendErrorAndClose (make400 false).toString]
        else
          match env.route filtered.2.req.path with
          | none => [sendErrorAndClose (make404 false).toString]
          | some backends =>
              let target := env.select backends
              if !env.allowRequest target then [sendErrorAndClose unavailable]
              else forwardRequest env filtered.2 target raw

/-- The responses among some calls. -/
def responsesOf (calls : List Call) : List (Bytes × Bool) :=
  calls.filterMap Call.response?

theorem forward_request_replies (env : Environment) (ctx : FilterContext) (target : Backend)
    (raw : Bytes) : ∃ data keepAlive,
      responsesOf (forwardRequest env ctx target raw) = [(data, keepAlive)] := by
  simp only [forwardRequest]
  split <;> exact ⟨_, _, rfl⟩

/-- Every exit of `process_request` gives exactly one response to the connection. -/
theorem process_request_replies (env : Environment) (raw : Bytes) :
    ∃ data keepAlive, responsesOf (processRequest env raw) = [(data, keepAlive)] := by
  simp only [processRequest]
  split
  · exact ⟨_, _, rfl⟩
  split
  · exact ⟨_, _, rfl⟩
  split
  · exact ⟨_, _, rfl⟩
  split
  · exact ⟨_, _, rfl⟩
  split
  · exact ⟨_, _, rfl⟩
  · exact forward_request_replies _ _ _ _

end ApiGateway.Core
