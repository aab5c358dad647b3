import ApiGateway.Proxy.Backend

/-!
# Forwarding over a new or a pooled connection

`Proxy::forward_direct` and `Proxy::forward_pooled` of `proxy.cpp`, as functions of what their
socket does. (What a call of `forward_pooled` does to the pool is in `Proxy/Pool.lean`.) The first
one reads until the backend closes the connection, the second one until `recv_all` takes the
response for complete. `forward_agrees_iff` says for which responses and reads the two return the
same, and `forward_agrees_always_iff` for which responses they do so whatever the reads are.
-/

namespace ApiGateway.Proxy

open Http Search

/-- The bytes that a `recv` into the buffer of 4096 returns. -/
structure Chunk where
  bytes : Bytes
  ne_nil : bytes ≠ []
  le_buffer : bytes.length ≤ 4096

/-- What a `poll`, and the `recv` after it, bring. -/
inductive Poll where
  | failed
  | timedOut
  | data (chunk : Chunk)
  | again
  | closed
  | error

/-- The loop of `forward_direct`. After the last `poll` given here the socket stays silent, and the
next one times out. -/
def readToEnd : Bytes → List Poll → Bytes
  | resp, .data chunk :: polls => readToEnd (resp ++ chunk.bytes) polls
  | resp, .again :: polls => readToEnd resp polls
  | resp, _ => resp

/-- The loop of `recv_all`, which also returns `eof`. -/
def receive : Received → List Poll → Received × Bool
  | r, .data chunk :: polls =>
      if (r.take chunk.bytes).complete then (r.take chunk.bytes, false)
      else receive (r.take chunk.bytes) polls
  | r, .again :: polls => receive r polls
  | r, .closed :: _ => (r, true)
  | r, _ => (r, false)

/-- `recv_all`. A `recv` that returns data returns some bytes, so that `got_data` tells whether
there are any. -/
def BackendConnection.recvAll (conn : BackendConnection) (now : Int) (polls : List Poll) :
    BackendConnection × Bytes :=
  if conn.isOpen then
    let result := receive {} polls
    if result.1.resp.isEmpty then (conn.close, [])
    else (if result.2 then conn.close else conn.touch now, result.1.resp)
  else (conn, [])

/-- `make_502_response`. -/
def make502Response : Bytes :=
  ascii "HTTP/1.1 502 Bad Gateway\r\nContent-Length: 11\r\nConnection: close\r\n\r\nBad Gateway"

/-- `forward_direct`. `sent` tells whether the connection has been made and the request sent. -/
def forwardDirect (sent : Bool) (polls : List Poll) : Bytes :=
  if sent then
    if (readToEnd [] polls).isEmpty then make502Response else readToEnd [] polls
  else make502Response

/-- `forward_pooled`, with the connection that `acquire` returns. `sent` tells whether the request
has been sent. -/
def forwardPooled (acquired : Option BackendConnection) (sent : Bool) (now : Int)
    (polls : List Poll) : Bytes :=
  match acquired with
  | none => make502Response
  | some conn =>
      if sent then
        if (conn.recvAll now polls).2.isEmpty then make502Response else (conn.recvAll now polls).2
      else make502Response

/-! ## Responses and their reads -/

/-- The backend sends the bytes and closes the connection, and no `poll` times out. -/
inductive Delivers : List Poll → Bytes → Prop where
  | closed (polls : List Poll) : Delivers (.closed :: polls) []
  | again {polls : List Poll} {r : Bytes} (h : Delivers polls r) : Delivers (.again :: polls) r
  | data {polls : List Poll} {r : Bytes} (chunk : Chunk) (h : Delivers polls r) :
      Delivers (.data chunk :: polls) (chunk.bytes ++ r)

/-- How much has been read after each `recv`. -/
def boundaries : Nat → List Poll → List Nat
  | n, .data chunk :: polls =>
      (n + chunk.bytes.length) :: boundaries (n + chunk.bytes.length) polls
  | n, .again :: polls => boundaries n polls
  | _, _ => []

/-- The place at which the head of a response lets `recv_all` expect its end. A head without a
length, or with one in another spelling, announces that nothing follows. -/
def expectedEnd (r : Bytes) : Option Nat :=
  match cutSub crlfcrlf r with
  | some (head, _) =>
      if 0 ≤ announcedLength head then
        some (max (head.length + 4) (Received.totalExpected head.length (announcedLength head)))
      else none
  | none => none

theorem read_to_end_delivers {polls : List Poll} {r : Bytes} (h : Delivers polls r) (resp : Bytes) :
    readToEnd resp polls = resp ++ r := by
  induction h generalizing resp with
  | closed polls => exact (List.append_nil resp).symm
  | again h ih => exact ih resp
  | data chunk h ih =>
      show readToEnd (resp ++ chunk.bytes) _ = _
      rw [ih, List.append_assoc]

theorem boundaries_bounds {polls : List Poll} {r : Bytes} (h : Delivers polls r) {n m : Nat}
    (hm : m ∈ boundaries n polls) : n ≤ m ∧ m ≤ n + r.length := by
  induction h generalizing n with
  | closed polls => cases hm
  | again h ih => exact ih hm
  | data chunk h ih =>
      rw [List.length_append]
      rcases List.mem_cons.1 hm with rfl | hlater
      · omega
      · have := ih hlater
        omega

namespace Received

/-- The variables are those of the bytes received so far, whether they hold a head or not. -/
def Exact (r : Received) : Prop :=
  match cutSub crlfcrlf r.resp with
  | some (head, _) => r.headerEnd = some head.length ∧ r.contentLength = announcedLength head
  | none => r.headerEnd = none ∧ r.contentLength < 0

theorem exact_start : ({} : Received).Exact :=
  ⟨rfl, by decide⟩

theorem exact_of_cut {r : Received} {head rest : Bytes}
    (hcut : cutSub crlfcrlf r.resp = some (head, rest)) :
    r.Exact ↔ r.headerEnd = some head.length ∧ r.contentLength = announcedLength head := by
  simp only [Exact, hcut]

theorem exact_take {r : Received} (hr : r.Exact) (chunk : Bytes) : (r.take chunk).Exact := by
  by_cases hnegative : r.contentLength < 0
  · cases hcut : cutSub crlfcrlf (r.resp ++ chunk) with
    | some parts => simp [Exact, take, hnegative, hcut]
    | none => simp [Exact, take, hnegative, hcut]
  · have htake : r.take chunk = { r with resp := r.resp ++ chunk } := if_neg hnegative
    cases hcut : cutSub crlfcrlf r.resp with
    | some parts =>
        rw [htake, exact_of_cut (cutSub_append_of_some hcut chunk)]
        exact (exact_of_cut hcut).1 hr
    | none =>
        simp only [Exact, hcut] at hr
        exact absurd hr.2 hnegative

/-- The beginning of a response holds its head if it is long enough. -/
theorem cut_of_le {resp answer head rest : Bytes} (hpre : resp <+: answer)
    (hcut : cutSub crlfcrlf answer = some (head, rest)) (hle : head.length + 4 ≤ resp.length) :
    ∃ rest', cutSub crlfcrlf resp = some (head, rest') := by
  obtain ⟨rfl, hfirst⟩ := cutSub_eq_some_iff.1 hcut
  have hhead : head ++ crlfcrlf <+: resp :=
    List.prefix_of_prefix_length_le (List.prefix_append _ rest) hpre
      (by rw [List.length_append]; exact hle)
  obtain ⟨rest', rfl⟩ := hhead
  refine ⟨rest', cutSub_eq_some_iff.2 ⟨rfl, fun i hi hw => hfirst i hi ?_⟩⟩
  exact hw.trans (hpre.drop i)

/-- The test after a `recv` compares what has been read with the end that the response announces. -/
theorem complete_iff {r : Received} {answer : Bytes} (hr : r.Exact) (hpre : r.resp <+: answer) :
    r.complete = true ↔ ∃ e, expectedEnd answer = some e ∧ e ≤ r.resp.length := by
  have hcase : ∀ {head rest : Bytes}, cutSub crlfcrlf r.resp = some (head, rest) →
      (r.complete = true ↔ 0 ≤ announcedLength head ∧
        totalExpected head.length (announcedLength head) ≤ r.resp.length) := fun hcut => by
    obtain ⟨hend, hlength⟩ := (exact_of_cut hcut).1 hr
    simp [complete, hend, hlength]
  constructor
  · intro hcomplete
    cases hcut : cutSub crlfcrlf r.resp with
    | none =>
        simp only [Exact, hcut] at hr
        simp [complete, hr.1] at hcomplete
    | some parts =>
        obtain ⟨head, rest⟩ := parts
        obtain ⟨more, rfl⟩ := hpre
        obtain ⟨hpos, hle⟩ := (hcase hcut).1 hcomplete
        have hhead : head.length + 4 ≤ r.resp.length := by
          rw [(cutSub_eq_some_iff.1 hcut).1]
          simp [crlfcrlf]
        refine ⟨_, ?_, Nat.max_le.2 ⟨hhead, hle⟩⟩
        simp only [expectedEnd, cutSub_append_of_some hcut more, if_pos hpos]
  · rintro ⟨e, hexpected, hle⟩
    unfold expectedEnd at hexpected
    split at hexpected
    · rename_i head rest hcut
      split at hexpected
      · rename_i hpos
        cases hexpected
        obtain ⟨hhead, htotal⟩ := Nat.max_le.1 hle
        obtain ⟨rest', hcut'⟩ := cut_of_le hpre hcut hhead
        exact (hcase hcut').2 ⟨hpos, htotal⟩
      · cases hexpected
    · cases hexpected

end Received

/-- `recv_all` returns the whole response if no `recv` but the last one ends where the response is
expected to end, or behind. -/
theorem receive_whole_iff {polls : List Poll} {rest answer : Bytes} (h : Delivers polls rest)
    {r : Received} (hr : r.Exact) (hanswer : answer = r.resp ++ rest) :
    (receive r polls).1.resp = answer ↔
      ∀ n ∈ boundaries r.resp.length polls, ∀ e, expectedEnd answer = some e → e ≤ n →
        n = answer.length := by
  induction h generalizing r with
  | closed polls => simp [receive, boundaries, hanswer]
  | again h ih => exact ih hr hanswer
  | @data polls rest chunk h ih =>
      have hresp : (r.take chunk.bytes).resp = r.resp ++ chunk.bytes := r.take_resp _
      have hlength : (r.take chunk.bytes).resp.length = r.resp.length + chunk.bytes.length := by
        rw [hresp, List.length_append]
      have hwhole : answer = (r.take chunk.bytes).resp ++ rest := by
        rw [hanswer, hresp, List.append_assoc]
      have hcomplete := Received.complete_iff (Received.exact_take hr chunk.bytes)
        (hwhole ▸ List.prefix_append _ rest)
      have hrec := ih (Received.exact_take hr chunk.bytes) hwhole
      rw [hlength] at hrec hcomplete
      simp only [boundaries, List.forall_mem_cons]
      by_cases hstop : (r.take chunk.bytes).complete = true
      · -- the loop ends here: nothing may be missing
        obtain ⟨e, hexpected, hle⟩ := hcomplete.1 hstop
        rw [receive, if_pos hstop]
        constructor
        · intro heq
          have hend : r.resp.length + chunk.bytes.length = answer.length := by
            rw [← hlength, heq]
          refine ⟨fun _ _ _ => hend, fun n hn _ _ hle' => ?_⟩
          have hbounds := boundaries_bounds h hn
          have hall := congrArg List.length hwhole
          rw [List.length_append, hlength] at hall
          omega
        · intro hall
          have hend := hall.1 e hexpected hle
          rw [hwhole]
          have hnil : rest = [] := by
            rw [← hlength, hwhole, List.length_append] at hend
            exact List.eq_nil_of_length_eq_zero (by omega)
          rw [hnil, List.append_nil]
      · rw [receive, if_neg hstop, hrec]
        refine ⟨fun hlater => ⟨fun e hexpected hle => ?_, hlater⟩, And.right⟩
        exact absurd (hcomplete.2 ⟨e, hexpected, hle⟩) hstop

theorem receive_ne_nil {polls : List Poll} {rest : Bytes} (h : Delivers polls rest) {r : Received}
    (hne : r.resp ++ rest ≠ []) : (receive r polls).1.resp ≠ [] := by
  induction h generalizing r with
  | closed polls => simpa [receive] using hne
  | again h ih => exact ih hne
  | data chunk h ih =>
      have hsome : (r.take chunk.bytes).resp ≠ [] := by
        rw [Received.take_resp]
        exact List.append_ne_nil_of_right_ne_nil _ chunk.ne_nil
      rw [receive]
      split
      · exact hsome
      · exact ih (List.append_ne_nil_of_left_ne_nil hsome _)

/-! ## Agreement -/

section Agreement

variable (host : Bytes) (port now : Int) {r : Bytes} {polls : List Poll}

theorem forward_direct_delivers (hr : r ≠ []) (h : Delivers polls r) :
    forwardDirect true polls = r := by
  have hread : readToEnd [] polls = r := read_to_end_delivers h []
  rw [forwardDirect, if_pos rfl, hread, if_neg (by simpa using hr)]

/-- On a new connection, `forward_pooled` returns what the loop of `recv_all` has read. -/
theorem forward_pooled_delivers (hr : r ≠ []) (h : Delivers polls r) :
    forwardPooled (some (BackendConnection.connect { host, port } now)) true now polls =
      (receive {} polls).1.resp := by
  have hsome : ¬ (receive {} polls).1.resp.isEmpty = true := by
    simpa using receive_ne_nil h (r := {}) hr
  have hall : (BackendConnection.recvAll (BackendConnection.connect { host, port } now) now
      polls).2 = (receive {} polls).1.resp := by
    show Prod.snd (if (receive {} polls).1.resp.isEmpty then (_, []) else (_, _)) = _
    rw [if_neg hsome]
  simp only [forwardPooled, if_true, hall, if_neg hsome]

/-- The two ways of forwarding return the response, for a backend that sends it and closes the
connection, if every `recv` but the last one ends before the end that the head announces. -/
theorem forward_agrees_iff (host : Bytes) (port now : Int) (r : Bytes) (polls : List Poll)
    (hr : r ≠ []) (h : Delivers polls r) :
    (forwardDirect true polls = r ∧
      forwardPooled (some (BackendConnection.connect { host, port } now)) true now polls = r) ↔
        ∀ n ∈ boundaries 0 polls, ∀ e, expectedEnd r = some e → e ≤ n → n = r.length := by
  rw [forward_pooled_delivers host port now hr h, and_iff_right (forward_direct_delivers hr h)]
  exact receive_whole_iff h Received.exact_start (List.nil_append r).symm

/-- A response that announces its length, read at once. -/
def readAtOnce : List Poll :=
  [.data ⟨ascii "HTTP/1.1 200 OK\r\nContent-Length: 2\r\n\r\nhi", by decide, by decide⟩, .closed]

theorem forward_agrees_announced :
    forwardDirect true readAtOnce = ascii "HTTP/1.1 200 OK\r\nContent-Length: 2\r\n\r\nhi" ∧
      forwardPooled (some (BackendConnection.connect { host := ascii "10.0.0.1", port := 80 } 0))
        true 0 readAtOnce = ascii "HTTP/1.1 200 OK\r\nContent-Length: 2\r\n\r\nhi" := by
  refine (forward_agrees_iff (ascii "10.0.0.1") 80 0 _ readAtOnce (by decide)
    (.data _ (.closed []))).2 ?_
  intro n hn e _ _
  exact List.mem_singleton.1 hn

/-- A response that ends with the connection, whose body comes with a `recv` of its own. -/
def readInTwo : List Poll :=
  [.data ⟨ascii "HTTP/1.1 200 OK\r\n\r\n", by decide, by decide⟩,
    .data ⟨ascii "hi", by decide, by decide⟩, .closed]

theorem forward_disagrees :
    Delivers readInTwo (ascii "HTTP/1.1 200 OK\r\n\r\nhi") ∧
      forwardDirect true readInTwo = ascii "HTTP/1.1 200 OK\r\n\r\nhi" ∧
      forwardPooled (some (BackendConnection.connect { host := ascii "10.0.0.1", port := 80 } 0))
        true 0 readInTwo = ascii "HTTP/1.1 200 OK\r\n\r\n" :=
  ⟨.data _ (.data _ (.closed [])), by decide, by decide⟩

/-- The reads of single bytes. -/
def bytewise (r : Bytes) : List Poll :=
  r.map (fun b => .data ⟨[b], List.cons_ne_nil b [], Nat.le_of_ble_eq_true rfl⟩) ++ [.closed]

theorem delivers_bytewise (r : Bytes) : Delivers (bytewise r) r := by
  induction r with
  | nil => exact .closed []
  | cons b r ih => exact .data _ ih

theorem mem_boundaries_bytewise (r : Bytes) {n m : Nat} (hlt : n < m) (hle : m ≤ n + r.length) :
    m ∈ boundaries n (bytewise r) := by
  induction r generalizing n with
  | nil => exact absurd hle (by simp; omega)
  | cons b r ih =>
      show m ∈ (n + 1) :: boundaries (n + 1) (bytewise r)
      rw [List.length_cons] at hle
      by_cases hm : m = n + 1
      · exact hm ▸ List.mem_cons_self
      · exact List.mem_cons_of_mem _ (ih (by omega) (by omega))

theorem expected_end_pos {e : Nat} (h : expectedEnd r = some e) : 0 < e := by
  unfold expectedEnd at h
  split at h
  · split at h
    · cases h
      exact (Nat.succ_pos _).trans_le (Nat.le_max_left _ _)
    · cases h
  · cases h

/-- The two ways of forwarding return a response whatever the reads are if it does not go on behind
the end that its head announces. -/
theorem forward_agrees_always_iff (hr : r ≠ []) :
    (∀ polls, Delivers polls r → forwardDirect true polls = r ∧
      forwardPooled (some (BackendConnection.connect { host, port } now)) true now polls = r) ↔
        ∀ e, expectedEnd r = some e → r.length ≤ e := by
  constructor
  · intro hall e hexpected
    by_contra hlonger
    have hpooled := (hall _ (delivers_bytewise r)).2
    rw [forward_pooled_delivers host port now hr (delivers_bytewise r)] at hpooled
    have hmem : e ∈ boundaries 0 (bytewise r) :=
      mem_boundaries_bytewise r (expected_end_pos hexpected) (by omega)
    have heq := (receive_whole_iff (delivers_bytewise r) Received.exact_start
      (List.nil_append r).symm).1 hpooled e hmem e hexpected (Nat.le_refl e)
    omega
  · intro hend polls h
    refine ⟨forward_direct_delivers hr h, ?_⟩
    rw [forward_pooled_delivers host port now hr h]
    refine (receive_whole_iff h Received.exact_start (List.nil_append r).symm).2 ?_
    intro n hn e hexpected hle
    have hshorter := hend e hexpected
    have hbounds := boundaries_bounds (n := 0) h hn
    omega

end Agreement

end ApiGateway.Proxy
