import ApiGateway.Http.Request

/-!
# Responses

The response record of `response.h`, its serialization, and the error responses of the gateway.
-/

namespace ApiGateway.Http

/-- `struct HttpResponse`. -/
structure HttpResponse where
  statusCode : Int := 200
  statusText : Bytes := ascii "OK"
  headers : SortedMap Bytes Bytes := .empty
  body : Bytes := []

/-- A header line of a response. -/
def headerLine (key value : Bytes) : Bytes :=
  key ++ ascii ": " ++ value ++ crlf

/-- `HttpResponse::to_string`. The two framing headers are added unless they are present under
exactly these names. -/
def HttpResponse.toString (r : HttpResponse) : Bytes :=
  ascii "HTTP/1.1 " ++ intToString r.statusCode ++ ascii " " ++ r.statusText ++ crlf ++
    (r.headers.entries.map fun e => headerLine e.1 e.2).flatten ++
    (if (r.headers.find? (ascii "Content-Length")).isSome then []
      else headerLine (ascii "Content-Length") (natToString r.body.length)) ++
    (if (r.headers.find? (ascii "Connection")).isSome then []
      else headerLine (ascii "Connection") (ascii "close")) ++
    crlf ++ r.body

/-- `make_common`. -/
def makeCommon (code : Int) (text : Bytes) (keepAlive : Bool) : HttpResponse :=
  { statusCode := code
    statusText := text
    headers := SortedMap.empty.assign (ascii "Connection")
      (if keepAlive then ascii "keep-alive" else ascii "close") }

/-- `make_400`. -/
def make400 (keepAlive : Bool) : HttpResponse :=
  { makeCommon 400 (ascii "Bad Request") keepAlive with body := ascii "Bad Request" }

/-- `make_404`. -/
def make404 (keepAlive : Bool) : HttpResponse :=
  { makeCommon 404 (ascii "Not Found") keepAlive with body := ascii "Not Found" }

example : (make404 false).toString =
    ascii "HTTP/1.1 404 Not Found\r\nConnection: close\r\nContent-Length: 9\r\n\r\nNot Found" := by
  decide

/-- `request_keep_alive`. -/
def requestKeepAlive (req : HttpRequest) : Bool :=
  (match req.headers.find? (ascii "connection") with
    | some value => containsIcase (ascii "keep-alive") value
    | none => false) ||
  req.version = ascii "HTTP/1.1"

end ApiGateway.Http
