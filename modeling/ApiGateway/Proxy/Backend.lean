import ApiGateway.Core.Config
import ApiGateway.Http.Request

/-!
# Connections to backends

`BackendConnection` of `backend.cpp`. The socket is a stream of bytes from the backend; each byte is
marked with the number of the request whose response it belongs to, which the code cannot see.
`recv_all` decides after every `recv` whether the response is complete (`Received.take`,
`Received.complete`). The main result, `complete_whole`, says for which responses this decision
never comes too early.
-/

namespace ApiGateway.Proxy

open Http Search

/-- `make_key` of the pool, the load balancer and the health checker. A port has at most eleven
characters, so that `snprintf` does not truncate it where it is used. -/
def makeKey (host : Bytes) (port : Int) : Bytes :=
  host ++ ascii ":" ++ intToString port

/-- Different addresses have different keys, whatever the host is: the last colon separates host
and port. -/
theorem make_key_inj {host host' : Bytes} {port port' : Int}
    (h : makeKey host port = makeKey host' port') : host = host' ∧ port = port' := by
  have hcolon : ∀ n, (58 : UInt8) ∉ intToString n := by
    intro n hmem
    rcases mem_int_to_string hmem with hminus | hdigit
    · exact absurd hminus (by decide)
    · exact absurd hdigit (by decide)
  -- read backwards, the keys are cut at the first colon
  have hcut : ∀ host port, Search.cut 58 (makeKey host port).reverse =
      some ((intToString port).reverse, host.reverse) := by
    intro host port
    have hreverse : (makeKey host port).reverse =
        (intToString port).reverse ++ 58 :: host.reverse := by
      unfold makeKey
      rw [List.reverse_append, List.reverse_append]
      rfl
    rw [hreverse]
    exact Search.cut_append (by simpa using hcolon port) _
  have heq := (hcut host port).symm.trans ((congrArg _ (congrArg _ h)).trans (hcut host' port'))
  simp only [Option.some.injEq, Prod.mk.injEq, List.reverse_inj] at heq
  exact ⟨heq.2, int_to_string_inj heq.1⟩

/-- A byte of a response and the number of its request. -/
abbrev Marked := Nat × UInt8

/-- `class BackendConnection`: its address, the time of its last use, whether `fd_` is valid, and
the bytes that the backend has sent and that have not been read. -/
structure BackendConnection where
  host : Bytes
  port : Int
  lastActivity : Int := 0
  isOpen : Bool := false
  unread : List Marked := []
  deriving DecidableEq

/-- A `connect` that succeeds. -/
def BackendConnection.connect (conn : BackendConnection) (now : Int) : BackendConnection :=
  { conn with isOpen := true, lastActivity := now }

/-- `touch`. -/
def BackendConnection.touch (conn : BackendConnection) (now : Int) : BackendConnection :=
  { conn with lastActivity := now }

/-- `close`. -/
def BackendConnection.close (conn : BackendConnection) : BackendConnection :=
  { conn with isOpen := false }

/-! ## Reading a response -/

/-- The digits of a length, added up in an `ssize_t`. -/
def lengthDigits : Int → Bytes → Int
  | n, [] => n
  | n, d :: rest =>
      if isDigit d then lengthDigits ((n * 10 + (d.toNat - 48)).bmod (2 ^ 64)) rest else n

/-- The length that the head of a response announces, in the two spellings that `recv_all` looks
for. Without one it is zero. -/
def announcedLength (head : Bytes) : Int :=
  match cutSub (ascii "\r\nContent-Length:") head with
  | some (_, value) => lengthDigits 0 (value.dropWhile (· == 32))
  | none =>
      match cutSub (ascii "\r\ncontent-length:") head with
      | some (_, value) => lengthDigits 0 (value.dropWhile (· == 32))
      | none => 0

/-- The local variables of `recv_all`. -/
structure Received where
  resp : Bytes := []
  contentLength : Int := -1
  headerEnd : Option Nat := none
  deriving DecidableEq

namespace Received

/-- A `recv` that returns bytes. The head is parsed until it has given a length. -/
def take (r : Received) (chunk : Bytes) : Received :=
  let resp := r.resp ++ chunk
  if r.contentLength < 0 then
    match cutSub crlfcrlf resp with
    | some (head, _) =>
        { resp := resp, contentLength := announcedLength head, headerEnd := some head.length }
    | none => { resp := resp, contentLength := r.contentLength, headerEnd := none }
  else { r with resp := resp }

/-- `total_expected`, for a head of the given length. -/
def totalExpected (headerEnd : Nat) (contentLength : Int) : Nat :=
  (headerEnd + 4 + contentLength.toNat) % 2 ^ 64

/-- The test after every `recv`. -/
def complete (r : Received) : Bool :=
  match r.headerEnd with
  | some headerEnd =>
      0 ≤ r.contentLength && totalExpected headerEnd r.contentLength ≤ r.resp.length
  | none => false

/-- The variables are those of the bytes received so far. -/
def Consistent (r : Received) : Prop :=
  (r.headerEnd = none ∧ r.contentLength < 0) ∨
    ∃ head rest, cutSub crlfcrlf r.resp = some (head, rest) ∧ r.headerEnd = some head.length ∧
      r.contentLength = announcedLength head

theorem consistent_start : ({} : Received).Consistent :=
  .inl ⟨rfl, by decide⟩

theorem consistent_take {r : Received} (hr : r.Consistent) (chunk : Bytes) :
    (r.take chunk).Consistent := by
  simp only [take]
  split
  · rename_i hnegative
    split
    · rename_i head rest hcut
      exact .inr ⟨head, rest, hcut, rfl, rfl⟩
    · exact .inl ⟨rfl, hnegative⟩
  · rename_i hparsed
    rcases hr with ⟨-, hnegative⟩ | ⟨head, rest, hcut, hend, hlength⟩
    · exact absurd hnegative hparsed
    · exact .inr ⟨head, rest ++ chunk, cutSub_append_of_some hcut chunk, hend, hlength⟩

@[simp] theorem take_resp (r : Received) (chunk : Bytes) :
    (r.take chunk).resp = r.resp ++ chunk := by
  simp only [take]
  split
  · split <;> rfl
  · rfl

end Received

/-- A response that is not longer than its head announces. -/
def Framed (answer : Bytes) : Prop :=
  ∀ head rest, cutSub crlfcrlf answer = some (head, rest) → 0 ≤ announcedLength head →
    answer.length ≤ Received.totalExpected head.length (announcedLength head)

/-- `recv_all` takes the beginning of such a response for complete only if it is the whole. -/
theorem complete_whole {r : Received} {answer : Bytes} (hr : r.Consistent)
    (hcomplete : r.complete = true) (hpre : r.resp <+: answer) (hframed : Framed answer) :
    r.resp = answer := by
  obtain ⟨more, rfl⟩ := hpre
  rcases hr with ⟨hend, -⟩ | ⟨head, rest, hcut, hend, hlength⟩
  · simp [Received.complete, hend] at hcomplete
  · simp only [Received.complete, hend, hlength, Bool.and_eq_true, decide_eq_true_eq] at hcomplete
    have hle := hframed head _ (cutSub_append_of_some hcut more) hcomplete.1
    refine (List.prefix_append _ more).eq_of_length_le ?_
    exact hle.trans hcomplete.2

end ApiGateway.Proxy
