import ApiGateway.Library.Table
import ApiGateway.Proxy.Backend

/-!
# The pool of backend connections

`BackendPool` of `backend_pool.cpp` and `Proxy::forward_pooled` of `proxy.cpp`. Any number of calls
of `forward_pooled` run at the same time. The parts of `acquire`, `release`, `evict` and
`cleanup_idle` that hold the lock are single steps; between them the calls connect, send and
receive. The system is a transition relation `PoolSystem.Step` over the pool, the connection objects
and the calls. The main result is `exclusive_ownership`: a connection is in one idle queue or in the
hands of one call, and the counters are exact.
-/

namespace ApiGateway.Proxy

open ApiGateway.Core (Backend)

/-- `BackendPool::PoolEntry`; the connections of `idle` are given by their numbers. -/
structure PoolEntry where
  idle : List Nat := []
  activeCount : Nat := 0

/-- The value that `forward_pooled` returns: its own response, or bytes that have been received,
with the requests they belong to. -/
inductive Result where
  | badGateway
  | response (bytes : List Marked)

/-- Where a call of `forward_pooled` is. The numbers are those of connections. -/
inductive Stage where
  | acquiring
  | connecting (c : Nat)
  | unconnected
  | sending (c : Nat)
  | receiving (c : Nat) (r : Received) (bytes : List Marked)
  | releasing (c : Nat) (bytes : List Marked)
  | pushing (c : Nat) (bytes : List Marked)
  | evicting (c : Nat) (result : Result)
  | returned (result : Result)

/-- The connection that a call holds. -/
def Stage.holds : Stage → Option Nat
  | .connecting c | .sending c | .receiving c _ _ | .releasing c _ | .pushing c _ | .evicting c _ =>
      some c
  | .acquiring | .unconnected | .returned _ => none

/-- Whether a call is counted as active: from the first locked part of `acquire` to the locked part
that ends its use of the pool. -/
def Stage.active : Stage → Bool
  | .acquiring | .returned _ => false
  | _ => true

/-- A call of `forward_pooled`, with the response that the backend gives to its request. -/
structure PoolCall where
  backend : Backend
  answer : Bytes
  stage : Stage := .acquiring

/-- The key under which a call uses the pool. -/
def PoolCall.key (call : PoolCall) : Bytes :=
  makeKey call.backend.host call.backend.port

/-- Whether a call is counted under a key. -/
def PoolCall.activeUnder (k : Bytes) (call : PoolCall) : Bool :=
  call.stage.active && call.key == k

/-- `pools_`, in which a missing entry is an empty one; all connection objects; and all calls, whose
places are the numbers of their requests. -/
structure PoolSystem where
  pools : Bytes → PoolEntry := fun _ => {}
  conns : List BackendConnection := []
  calls : List PoolCall := []

/-- The parameters of the pool. -/
structure PoolConfig where
  maxIdlePerHost : Nat
  idleTimeoutSec : Int

namespace PoolSystem

/-- The call has arrived at another stage. -/
def move (s : PoolSystem) (q : Nat) (call : PoolCall) (stage : Stage) : PoolSystem :=
  { s with calls := s.calls.set q { call with stage := stage } }

/-- A connection object has changed. -/
def setConn (s : PoolSystem) (c : Nat) (conn : BackendConnection) : PoolSystem :=
  { s with conns := s.conns.set c conn }

/-- A connection object has been created. -/
def addConn (s : PoolSystem) (conn : BackendConnection) : PoolSystem :=
  { s with conns := s.conns ++ [conn] }

/-- An entry of the pool has changed. -/
def setEntry (s : PoolSystem) (k : Bytes) (entry : PoolEntry) : PoolSystem :=
  { s with pools := Function.update s.pools k entry }

/-- One pass of the loop of `cleanup_idle` over a queue: the front is dropped, or moved to the
back. -/
def rotate (keep : Nat → Bool) : List Nat → List Nat
  | [] => []
  | c :: rest => if keep c then rest ++ [c] else rest

/-- Whether `cleanup_idle` keeps a connection. -/
def fresh (cfg : PoolConfig) (s : PoolSystem) (now : Int) (c : Nat) : Bool :=
  match s.conns[c]? with
  | some conn => now - conn.lastActivity < cfg.idleTimeoutSec
  | none => false

/-- `cleanup_idle`. -/
def cleanupIdle (cfg : PoolConfig) (s : PoolSystem) (now : Int) : PoolSystem :=
  { s with
    pools := fun k =>
      { s.pools k with
        idle := (rotate (fresh cfg s now))^[(s.pools k).idle.length] (s.pools k).idle } }

/-- What kind of step is made, as far as it matters outside of the pool: a new call whose request
gets the given response, the end of a `recv_all` on connection `c` by a timeout or an error, or
another step. -/
inductive Label where
  | called (answer : Bytes)
  | interrupted (c : Nat)
  | other

/-- One step of a call, or of the thread that cleans up. -/
inductive Step (cfg : PoolConfig) : PoolSystem → Label → PoolSystem → Prop where
  | call {s : PoolSystem} (backend : Backend) (answer : Bytes) :
      Step cfg s (.called answer) { s with calls := s.calls ++ [{ backend, answer }] }
  | reuse {s : PoolSystem} {q c : Nat} {call : PoolCall} {conn : BackendConnection} {now : Int}
      {dead rest : List Nat} (hcall : s.calls[q]? = some call) (hstage : call.stage = .acquiring)
      (hidle : (s.pools call.key).idle = dead ++ c :: rest) (hconn : s.conns[c]? = some conn)
      (halive : conn.isOpen = true) :
      Step cfg s .other (((s.setEntry call.key
        { idle := rest, activeCount := (s.pools call.key).activeCount + 1 }).setConn c
          (conn.touch now)).move q call (.sending c))
  | create {s : PoolSystem} {q : Nat} {call : PoolCall} (hcall : s.calls[q]? = some call)
      (hstage : call.stage = .acquiring) :
      Step cfg s .other (((s.setEntry call.key
        { idle := [], activeCount := (s.pools call.key).activeCount + 1 }).addConn
          { host := call.backend.host, port := call.backend.port }).move q call
            (.connecting s.conns.length))
  | connected {s : PoolSystem} {q c : Nat} {call : PoolCall} {conn : BackendConnection} {now : Int}
      (hcall : s.calls[q]? = some call) (hstage : call.stage = .connecting c)
      (hconn : s.conns[c]? = some conn) :
      Step cfg s .other ((s.setConn c (conn.connect now)).move q call (.sending c))
  | connectFailed {s : PoolSystem} {q c : Nat} {call : PoolCall}
      (hcall : s.calls[q]? = some call) (hstage : call.stage = .connecting c) :
      Step cfg s .other (s.move q call .unconnected)
  | rollback {s : PoolSystem} {q : Nat} {call : PoolCall} (hcall : s.calls[q]? = some call)
      (hstage : call.stage = .unconnected) :
      Step cfg s .other ((s.setEntry call.key
        { s.pools call.key with activeCount := (s.pools call.key).activeCount - 1 }).move q call
          (.returned .badGateway))
  | sent {s : PoolSystem} {q c : Nat} {call : PoolCall} {conn : BackendConnection}
      (hcall : s.calls[q]? = some call) (hstage : call.stage = .sending c)
      (hconn : s.conns[c]? = some conn) :
      Step cfg s .other ((s.setConn c
        { conn with unread := conn.unread ++ call.answer.map (Prod.mk q) }).move q call
          (.receiving c {} []))
  | sendFailed {s : PoolSystem} {q c : Nat} {call : PoolCall} (hcall : s.calls[q]? = some call)
      (hstage : call.stage = .sending c) :
      Step cfg s .other (s.move q call (.evicting c .badGateway))
  | recv {s : PoolSystem} {q c : Nat} {call : PoolCall} {conn : BackendConnection} {r : Received}
      {bytes chunk rest : List Marked} (hcall : s.calls[q]? = some call)
      (hstage : call.stage = .receiving c r bytes) (hconn : s.conns[c]? = some conn)
      (hunread : conn.unread = chunk ++ rest) (hne : chunk ≠ []) (hsize : chunk.length ≤ 4096)
      (hmore : (r.take (chunk.map Prod.snd)).complete = false) :
      Step cfg s .other ((s.setConn c { conn with unread := rest }).move q call
        (.receiving c (r.take (chunk.map Prod.snd)) (bytes ++ chunk)))
  | recvLast {s : PoolSystem} {q c : Nat} {call : PoolCall} {conn : BackendConnection}
      {r : Received} {bytes chunk rest : List Marked} {now : Int}
      (hcall : s.calls[q]? = some call) (hstage : call.stage = .receiving c r bytes)
      (hconn : s.conns[c]? = some conn) (hunread : conn.unread = chunk ++ rest) (hne : chunk ≠ [])
      (hsize : chunk.length ≤ 4096) (hcomplete : (r.take (chunk.map Prod.snd)).complete = true) :
      Step cfg s .other ((s.setConn c ({ conn with unread := rest }.touch now)).move q call
        (.releasing c (bytes ++ chunk)))
  | interrupted {s : PoolSystem} {q c : Nat} {call : PoolCall} {conn : BackendConnection}
      {r : Received} {bytes : List Marked} {now : Int} (hcall : s.calls[q]? = some call)
      (hstage : call.stage = .receiving c r bytes) (hconn : s.conns[c]? = some conn)
      (hne : bytes ≠ []) :
      Step cfg s (.interrupted c) ((s.setConn c (conn.touch now)).move q call (.releasing c bytes))
  | eof {s : PoolSystem} {q c : Nat} {call : PoolCall} {conn : BackendConnection} {r : Received}
      {bytes : List Marked} (hcall : s.calls[q]? = some call)
      (hstage : call.stage = .receiving c r bytes) (hconn : s.conns[c]? = some conn)
      (hunread : conn.unread = []) (hne : bytes ≠ []) :
      Step cfg s .other ((s.setConn c conn.close).move q call (.releasing c bytes))
  | silent {s : PoolSystem} {q c : Nat} {call : PoolCall} {conn : BackendConnection} {r : Received}
      (hcall : s.calls[q]? = some call) (hstage : call.stage = .receiving c r [])
      (hconn : s.conns[c]? = some conn) :
      Step cfg s .other ((s.setConn c conn.close).move q call (.evicting c .badGateway))
  | alive {s : PoolSystem} {q c : Nat} {call : PoolCall} {conn : BackendConnection}
      {bytes : List Marked} (hcall : s.calls[q]? = some call)
      (hstage : call.stage = .releasing c bytes) (hconn : s.conns[c]? = some conn)
      (halive : conn.isOpen = true) : Step cfg s .other (s.move q call (.pushing c bytes))
  | dead {s : PoolSystem} {q c : Nat} {call : PoolCall} {bytes : List Marked}
      (hcall : s.calls[q]? = some call) (hstage : call.stage = .releasing c bytes) :
      Step cfg s .other (s.move q call (.evicting c (.response bytes)))
  | push {s : PoolSystem} {q c : Nat} {call : PoolCall} {bytes : List Marked}
      (hcall : s.calls[q]? = some call) (hstage : call.stage = .pushing c bytes) :
      Step cfg s .other ((s.setEntry call.key
        { idle :=
            if (s.pools call.key).idle.length < cfg.maxIdlePerHost then
              (s.pools call.key).idle ++ [c]
            else (s.pools call.key).idle
          activeCount := (s.pools call.key).activeCount - 1 }).move q call
            (.returned (.response bytes)))
  | evict {s : PoolSystem} {q c : Nat} {call : PoolCall} {result : Result}
      (hcall : s.calls[q]? = some call) (hstage : call.stage = .evicting c result) :
      Step cfg s .other ((s.setEntry call.key
        { s.pools call.key with activeCount := (s.pools call.key).activeCount - 1 }).move q call
          (.returned result))
  | cleanup {s : PoolSystem} (now : Int) : Step cfg s .other (s.cleanupIdle cfg now)

/-- The states of a pool. -/
def Reachable (cfg : PoolConfig) : PoolSystem → Prop :=
  Relation.ReflTransGen (fun s t => ∃ l, Step cfg s l t) {}

/-! ## Ownership -/

/-- The connections have the addresses under which they are used, and each is in one idle queue or
in the hands of one call. -/
structure Owned (s : PoolSystem) : Prop where
  nodup : ∀ k, (s.pools k).idle.Nodup
  idle : ∀ k, ∀ c ∈ (s.pools k).idle,
    ∃ conn, s.conns[c]? = some conn ∧ makeKey conn.host conn.port = k
  held : ∀ (q : Nat) (call : PoolCall) (c : Nat), s.calls[q]? = some call →
    call.stage.holds = some c →
      ∃ conn, s.conns[c]? = some conn ∧ conn.host = call.backend.host ∧
        conn.port = call.backend.port
  notIdle : ∀ (q : Nat) (call : PoolCall) (c : Nat), s.calls[q]? = some call →
    call.stage.holds = some c → ∀ k, c ∉ (s.pools k).idle
  unique : ∀ (q q' : Nat) (call call' : PoolCall) (c : Nat), s.calls[q]? = some call →
    s.calls[q']? = some call' → call.stage.holds = some c → call'.stage.holds = some c → q = q'

variable {cfg : PoolConfig} {s t : PoolSystem} {q c : Nat} {call : PoolCall}

/-- The objects keep their addresses from `s` to `t`. -/
def KeepsAddresses (s t : PoolSystem) : Prop :=
  ∀ (c : Nat) (conn : BackendConnection), s.conns[c]? = some conn →
    ∃ conn', t.conns[c]? = some conn' ∧ conn'.host = conn.host ∧ conn'.port = conn.port

theorem keeps_addresses_set {conn conn' : BackendConnection} (hconn : s.conns[c]? = some conn)
    (hhost : conn'.host = conn.host) (hport : conn'.port = conn.port) :
    KeepsAddresses s (s.setConn c conn') := by
  intro c' d hd
  by_cases hc : c' = c
  · subst hc
    cases hconn.symm.trans hd
    exact ⟨conn', Table.get_set_self hconn conn', hhost, hport⟩
  · exact ⟨d, (Table.get_set_iff hconn).2 (.inr ⟨hc, hd⟩), rfl, rfl⟩

/-- The call with number `q'` after call `q` has moved. -/
theorem calls_move {stage : Stage} {q' : Nat} {call' : PoolCall} (hcall : s.calls[q]? = some call)
    (h : (s.move q call stage).calls[q']? = some call') :
    (q' = q ∧ call' = { call with stage := stage }) ∨ (q' ≠ q ∧ s.calls[q']? = some call') :=
  (Table.get_set_iff hcall).1 h

/-- Dropping connections from the queues and from the hands of calls keeps the ownership. -/
theorem Owned.mono (hs : Owned s) (haddresses : KeepsAddresses s t)
    (hidle : ∀ k, ((t.pools k).idle).Sublist (s.pools k).idle)
    (hcalls : ∀ (q : Nat) (call : PoolCall) (c : Nat), t.calls[q]? = some call →
      call.stage.holds = some c → ∃ call', s.calls[q]? = some call' ∧
        call'.stage.holds = some c ∧ call'.backend = call.backend) : Owned t := by
  constructor
  case nodup => exact fun k => (hidle k).nodup (hs.nodup k)
  case idle =>
    intro k c hc
    obtain ⟨conn, hconn, hkey⟩ := hs.idle k c ((hidle k).subset hc)
    obtain ⟨conn', hconn', hhost, hport⟩ := haddresses c conn hconn
    exact ⟨conn', hconn', by rw [hhost, hport, hkey]⟩
  case held =>
    intro q call c hcall hholds
    obtain ⟨call', hcall', hholds', hbackend⟩ := hcalls q call c hcall hholds
    obtain ⟨conn, hconn, hhost, hport⟩ := hs.held q call' c hcall' hholds'
    obtain ⟨conn', hconn', hhost', hport'⟩ := haddresses c conn hconn
    exact ⟨conn', hconn', by rw [hhost', hhost, hbackend], by rw [hport', hport, hbackend]⟩
  case notIdle =>
    intro q call c hcall hholds k hmem
    obtain ⟨call', hcall', hholds', -⟩ := hcalls q call c hcall hholds
    exact hs.notIdle q call' c hcall' hholds' k ((hidle k).subset hmem)
  case unique =>
    intro q q' call call' c hcall hcall' hholds hholds'
    obtain ⟨d, hd, hdholds, -⟩ := hcalls q call c hcall hholds
    obtain ⟨d', hd', hdholds', -⟩ := hcalls q' call' c hcall' hholds'
    exact hs.unique q q' d d' c hd hd' hdholds hdholds'

/-- A call moves on with the connection it holds, or gives it up. -/
theorem Owned.step (hs : Owned s) (hcall : s.calls[q]? = some call) {stage : Stage}
    (hstage : ∀ c, stage.holds = some c → call.stage.holds = some c)
    (haddresses : KeepsAddresses s t)
    (hcalls : t.calls = s.calls) (hidle : ∀ k, ((t.pools k).idle).Sublist (s.pools k).idle) :
    Owned (t.move q call stage) := by
  refine hs.mono haddresses hidle fun q' call' c hcall' hholds => ?_
  rw [← hcalls] at hcall ⊢
  rcases calls_move hcall hcall' with ⟨rfl, rfl⟩ | ⟨-, hsame⟩
  · exact ⟨call, hcall, hstage c hholds, rfl⟩
  · exact ⟨call', hsame, hholds, rfl⟩

/-- An entry is updated with a queue that lacks some connections. -/
theorem sublist_set_entry {k : Bytes} {entry : PoolEntry}
    (h : entry.idle.Sublist (s.pools k).idle) (k' : Bytes) :
    (((s.setEntry k entry).pools k').idle).Sublist (s.pools k').idle := by
  simp only [setEntry, Function.update_apply]
  split
  · rename_i hk
    rw [hk]
    exact h
  · exact List.Sublist.refl _

/-- `acquire` drops the dead connections before the one it takes. -/
theorem sublist_of_taken {idle dead rest : List Nat} (h : idle = dead ++ c :: rest) :
    rest.Sublist idle := by
  rw [h]
  exact (List.sublist_cons_self c rest).trans (List.sublist_append_right dead _)

/-- The connections in a queue after `c` has been added to the one of `k`. -/
theorem mem_set_entry_push {k k' : Bytes} {c' activeCount : Nat}
    (h : c' ∈ ((s.setEntry k { idle := (s.pools k).idle ++ [c], activeCount }).pools k').idle) :
    c' ∈ (s.pools k').idle ∨ (k' = k ∧ c' = c) := by
  simp only [setEntry, Function.update_apply] at h
  split at h
  · rename_i hk
    subst hk
    exact (List.mem_append.1 h).imp_right fun h => ⟨rfl, List.mem_singleton.1 h⟩
  · exact .inl h

/-- A call takes a connection that no other call holds and that is in no queue any more. -/
theorem Owned.take (hs : Owned s) (hcall : s.calls[q]? = some call) {stage : Stage}
    (hstage : stage.holds = some c) (haddresses : KeepsAddresses s t) (hcalls : t.calls = s.calls)
    (hidle : ∀ k, ((t.pools k).idle).Sublist (s.pools k).idle)
    (hfree : ∀ (q' : Nat) (call' : PoolCall), s.calls[q']? = some call' →
      call'.stage.holds ≠ some c)
    (hnotIdle : ∀ k, c ∉ (t.pools k).idle)
    (hconn : ∃ conn, t.conns[c]? = some conn ∧ conn.host = call.backend.host ∧
      conn.port = call.backend.port) : Owned (t.move q call stage) := by
  have ht : Owned t := hs.mono haddresses hidle fun q' call' c' hcall' hholds =>
    ⟨call', by rw [← hcalls]; exact hcall', hholds, rfl⟩
  rw [← hcalls] at hcall hfree
  constructor
  case nodup => exact ht.nodup
  case idle => exact ht.idle
  case held =>
    intro q' call' c' hcall' hholds
    rcases calls_move hcall hcall' with ⟨rfl, rfl⟩ | ⟨-, hsame⟩
    · cases hstage.symm.trans hholds
      exact hconn
    · exact ht.held q' call' c' hsame hholds
  case notIdle =>
    intro q' call' c' hcall' hholds
    rcases calls_move hcall hcall' with ⟨rfl, rfl⟩ | ⟨-, hsame⟩
    · cases hstage.symm.trans hholds
      exact hnotIdle
    · exact ht.notIdle q' call' c' hsame hholds
  case unique =>
    intro q₁ q₂ call₁ call₂ c' h₁ h₂ hholds₁ hholds₂
    rcases calls_move hcall h₁ with ⟨rfl, rfl⟩ | ⟨-, hsame₁⟩
    · rcases calls_move hcall h₂ with ⟨rfl, rfl⟩ | ⟨-, hsame₂⟩
      · rfl
      · cases hstage.symm.trans hholds₁
        exact absurd hholds₂ (hfree q₂ call₂ hsame₂)
    · rcases calls_move hcall h₂ with ⟨rfl, rfl⟩ | ⟨-, hsame₂⟩
      · cases hstage.symm.trans hholds₂
        exact absurd hholds₁ (hfree q₁ call₁ hsame₁)
      · exact ht.unique q₁ q₂ call₁ call₂ c' hsame₁ hsame₂ hholds₁ hholds₂

theorem owned_reuse (hs : Owned s) (hcall : s.calls[q]? = some call) {dead rest : List Nat}
    {conn : BackendConnection} (hidle : (s.pools call.key).idle = dead ++ c :: rest)
    (hconn : s.conns[c]? = some conn) (activeCount : Nat) (now : Int) :
    Owned (((s.setEntry call.key { idle := rest, activeCount }).setConn c (conn.touch now)).move q
      call (.sending c)) := by
  have hmem : c ∈ (s.pools call.key).idle := by simp [hidle]
  obtain ⟨conn', hconn', hkey⟩ := hs.idle call.key c hmem
  cases hconn.symm.trans hconn'
  obtain ⟨hhost, hport⟩ := make_key_inj hkey
  refine hs.take hcall rfl (keeps_addresses_set hconn rfl rfl) rfl
    (sublist_set_entry (sublist_of_taken hidle))
    (fun q' call' hcall' hholds => hs.notIdle q' call' c hcall' hholds _ hmem) (fun k hc => ?_)
    ⟨conn.touch now, Table.get_set_self hconn _, hhost, hport⟩
  simp only [setConn, setEntry, Function.update_apply] at hc
  -- the queue of the call had `c` only once, and no other key has connections to this backend
  split at hc
  · have hnodup := hs.nodup call.key
    rw [hidle, List.nodup_append] at hnodup
    exact (List.nodup_cons.1 hnodup.2.1).1 hc
  · rename_i hk
    obtain ⟨conn', hconn', hkey'⟩ := hs.idle k c hc
    cases hconn.symm.trans hconn'
    exact hk (hkey'.symm.trans hkey)

theorem owned_create (hs : Owned s) (hcall : s.calls[q]? = some call) (activeCount : Nat) :
    Owned (((s.setEntry call.key { idle := [], activeCount }).addConn
      { host := call.backend.host, port := call.backend.port }).move q call
        (.connecting s.conns.length)) := by
  have hsub := @sublist_set_entry s call.key { idle := [], activeCount } (List.nil_sublist _)
  have hnew : ∀ conn, s.conns[s.conns.length]? ≠ some conn := by simp
  refine hs.take hcall rfl (fun c' conn' hconn' => ?_) rfl hsub
    (fun q' call' hcall' hholds => ?_) (fun k hc => ?_)
    ⟨{ host := call.backend.host, port := call.backend.port }, by simp [addConn, setEntry],
      rfl, rfl⟩
  · exact ⟨conn', Table.get_append_of_some hconn' _, rfl, rfl⟩
  · obtain ⟨conn, hconn, -⟩ := hs.held q' call' _ hcall' hholds
    exact hnew conn hconn
  · obtain ⟨conn, hconn, -⟩ := hs.idle k _ ((hsub k).subset hc)
    exact hnew conn hconn

theorem owned_push (hs : Owned s) (hcall : s.calls[q]? = some call)
    (hholds : call.stage.holds = some c) (activeCount : Nat) (result : Result) :
    Owned ((s.setEntry call.key { idle := (s.pools call.key).idle ++ [c], activeCount }).move q call
      (.returned result)) := by
  have hfree := hs.notIdle q call c hcall hholds
  obtain ⟨conn, hconn, hhost, hport⟩ := hs.held q call c hcall hholds
  -- the call that gives `c` back holds nothing afterwards
  have hothers : ∀ (q' : Nat) (call' : PoolCall) (c' : Nat),
      ((s.setEntry call.key { idle := (s.pools call.key).idle ++ [c], activeCount }).move q call
        (.returned result)).calls[q']? = some call' → call'.stage.holds = some c' →
        q' ≠ q ∧ s.calls[q']? = some call' := by
    intro q' call' c' hcall' hholds'
    rcases calls_move hcall hcall' with ⟨rfl, rfl⟩ | hsame
    · cases hholds'
    · exact hsame
  constructor
  case nodup =>
    intro k
    simp only [move, setEntry, Function.update_apply]
    split
    · refine (hs.nodup call.key).append (List.nodup_singleton c) fun c' hc' hsingle => ?_
      rw [List.mem_singleton.1 hsingle] at hc'
      exact hfree call.key hc'
    · exact hs.nodup k
  case idle =>
    intro k c' hc'
    rcases mem_set_entry_push hc' with hc' | ⟨rfl, rfl⟩
    · exact hs.idle k c' hc'
    · exact ⟨conn, hconn, by rw [hhost, hport]; rfl⟩
  case held =>
    intro q' call' c' hcall' hholds'
    exact hs.held q' call' c' (hothers q' call' c' hcall' hholds').2 hholds'
  case notIdle =>
    intro q' call' c' hcall' hholds' k hc'
    obtain ⟨hne, hsame⟩ := hothers q' call' c' hcall' hholds'
    rcases mem_set_entry_push hc' with hc' | ⟨-, rfl⟩
    · exact hs.notIdle q' call' c' hsame hholds' k hc'
    · exact hne (hs.unique q' q call' call _ hsame hcall hholds' hholds)
  case unique =>
    intro q₁ q₂ call₁ call₂ c' h₁ h₂ hholds₁ hholds₂
    exact hs.unique q₁ q₂ call₁ call₂ c' (hothers q₁ call₁ c' h₁ hholds₁).2
      (hothers q₂ call₂ c' h₂ hholds₂).2 hholds₁ hholds₂

/-- Going once around a queue keeps the connections that are to be kept, in their order. -/
theorem rotate_all (keep : Nat → Bool) (l kept : List Nat) :
    (rotate keep)^[l.length] (l ++ kept) = kept ++ l.filter keep := by
  induction l generalizing kept with
  | nil => simp
  | cons c l ih =>
      rw [List.length_cons, Function.iterate_succ_apply]
      cases hkeep : keep c with
      | true => simpa [rotate, hkeep] using ih (kept ++ [c])
      | false => simpa [rotate, hkeep] using ih kept

theorem cleanup_idle_filter (cfg : PoolConfig) (s : PoolSystem) (now : Int) (k : Bytes) :
    ((s.cleanupIdle cfg now).pools k).idle = (s.pools k).idle.filter (fresh cfg s now) := by
  show (rotate (fresh cfg s now))^[(s.pools k).idle.length] (s.pools k).idle = _
  simpa using rotate_all (fresh cfg s now) (s.pools k).idle []

theorem sublist_cleanup_idle (cfg : PoolConfig) (s : PoolSystem) (now : Int) (k : Bytes) :
    (((s.cleanupIdle cfg now).pools k).idle).Sublist (s.pools k).idle := by
  rw [cleanup_idle_filter]
  exact List.filter_sublist

theorem owned_call (hs : Owned s) (backend : Backend) (answer : Bytes) :
    Owned { s with calls := s.calls ++ [{ backend, answer }] } := by
  refine hs.mono (fun c conn hconn => ⟨conn, hconn, rfl, rfl⟩) (fun k => List.Sublist.refl _) ?_
  intro q call c hcall hholds
  rcases Table.get_append_iff.1 hcall with hold | ⟨-, rfl⟩
  · exact ⟨call, hold, hholds, rfl⟩
  · -- the new call holds nothing
    cases hholds

/-- Every step keeps the ownership. -/
theorem owned_step {l : Label} (hs : Owned s) (h : Step cfg s l t) : Owned t := by
  have hsame : KeepsAddresses s s := fun c conn hconn => ⟨conn, hconn, rfl, rfl⟩
  have hrefl : ∀ k, ((s.pools k).idle).Sublist (s.pools k).idle := fun k => .refl _
  cases h with
  | call backend answer => exact owned_call hs backend answer
  | reuse hcall hstage hidle hconn halive => exact owned_reuse hs hcall hidle hconn _ _
  | create hcall hstage => exact owned_create hs hcall _
  | connected hcall hstage hconn | sent hcall hstage hconn | recv hcall hstage hconn
  | recvLast hcall hstage hconn | interrupted hcall hstage hconn | eof hcall hstage hconn
  | silent hcall hstage hconn =>
      exact hs.step hcall (by rw [hstage]; exact fun _ h => h)
        (keeps_addresses_set hconn rfl rfl) rfl hrefl
  | connectFailed hcall hstage => exact hs.step hcall nofun hsame rfl hrefl
  | sendFailed hcall hstage | alive hcall hstage | dead hcall hstage =>
      exact hs.step hcall (by rw [hstage]; exact fun _ h => h) hsame rfl hrefl
  | rollback hcall hstage | evict hcall hstage =>
      exact hs.step hcall nofun hsame rfl (sublist_set_entry (.refl _))
  | push hcall hstage =>
      split
      · exact owned_push hs hcall (by rw [hstage]; rfl) _ _
      · -- the queue is full, and the connection is dropped
        exact hs.step hcall nofun hsame rfl (sublist_set_entry (.refl _))
  | cleanup now =>
      exact hs.mono hsame (sublist_cleanup_idle cfg s now)
        fun q call c hcall hholds => ⟨call, hcall, hholds, rfl⟩

/-! ## The counters -/

/-- The number of calls that are counted under a key. -/
def active (s : PoolSystem) (k : Bytes) : Nat :=
  s.calls.countP (PoolCall.activeUnder k)

/-- The queues are not too long, and `active_count` is what its name says. -/
structure Counted (cfg : PoolConfig) (s : PoolSystem) : Prop where
  limit : ∀ k, (s.pools k).idle.length ≤ cfg.maxIdlePerHost
  active : ∀ k, (s.pools k).activeCount = s.active k

theorem active_move (hcall : s.calls[q]? = some call) (stage : Stage) (k : Bytes) :
    (s.move q call stage).active k + (call.activeUnder k).toNat =
      s.active k + (PoolCall.activeUnder k { call with stage := stage }).toNat :=
  Table.countP_set hcall _ _

/-- The counter of a call's key is positive while the call is counted. -/
theorem Counted.pos (hs : Counted cfg s) (hcall : s.calls[q]? = some call)
    (hactive : call.stage.active = true) : 0 < (s.pools call.key).activeCount := by
  rw [hs.active]
  exact List.countP_pos_iff.2
    ⟨call, List.mem_of_getElem? hcall, by simp [PoolCall.activeUnder, hactive]⟩

/-- A call moves on and updates the entry of its key by what it has been and is counted for. -/
theorem Counted.move (hs : Counted cfg s) (hcall : s.calls[q]? = some call) {stage : Stage}
    {entry : PoolEntry} (hpools : t.pools = Function.update s.pools call.key entry)
    (hcalls : t.calls = s.calls) (hlimit : entry.idle.length ≤ cfg.maxIdlePerHost)
    (hactive : entry.activeCount + call.stage.active.toNat =
      (s.pools call.key).activeCount + stage.active.toNat) :
    Counted cfg (t.move q call stage) := by
  constructor
  case limit =>
    intro k
    simp only [PoolSystem.move, hpools, Function.update_apply]
    split
    · exact hlimit
    · exact hs.limit k
  case active =>
    intro k
    have hmove := active_move (s := t) (hcalls ▸ hcall) stage k
    have hsame : t.active k = s.active k := by rw [PoolSystem.active, hcalls, PoolSystem.active]
    have hk := hs.active k
    simp only [PoolSystem.move, hpools, Function.update_apply]
    split
    · rename_i hkey
      subst hkey
      simp only [PoolCall.activeUnder, PoolCall.key, beq_self_eq_true, Bool.and_true] at hmove
      show _ = (t.move q call stage).active _
      simp only [PoolCall.key] at *
      omega
    · rename_i hkey
      have hne : (call.key == k) = false := beq_eq_false_iff_ne.2 (Ne.symm hkey)
      have hne' : (PoolCall.key { call with stage := stage } == k) = false := hne
      simp only [PoolCall.activeUnder, hne, hne', Bool.and_false] at hmove
      show _ = (t.move q call stage).active _
      omega

theorem counted_step {l : Label} (hs : Counted cfg s) (h : Step cfg s l t) : Counted cfg t := by
  have hlimit := hs.limit
  cases h with
  | call backend answer =>
      refine ⟨hs.limit, fun k => ?_⟩
      have hnew : PoolCall.activeUnder k { backend, answer } = false := rfl
      show (s.pools k).activeCount = (s.calls ++ [_]).countP _
      rw [List.countP_append, List.countP_singleton, hnew]
      exact hs.active k
  | @reuse q c call conn now dead rest hcall hstage hidle hconn halive =>
      have hlength : rest.length ≤ (s.pools call.key).idle.length := by simp [hidle]; omega
      exact hs.move hcall rfl rfl (hlength.trans (hlimit _)) (by rw [hstage]; rfl)
  | create hcall hstage => exact hs.move hcall rfl rfl (Nat.zero_le _) (by rw [hstage]; rfl)
  | connected hcall hstage | sent hcall hstage | recv hcall hstage | recvLast hcall hstage
  | interrupted hcall hstage | eof hcall hstage | silent hcall hstage | connectFailed hcall hstage
  | sendFailed hcall hstage | alive hcall hstage | dead hcall hstage =>
      exact hs.move hcall (Function.update_eq_self _ _).symm rfl (hlimit _) (by rw [hstage]; rfl)
  | rollback hcall hstage | evict hcall hstage =>
      have hpos := hs.pos hcall (by rw [hstage]; rfl)
      exact hs.move hcall rfl rfl (hlimit _) (by rw [hstage]; exact Nat.sub_add_cancel hpos)
  | push hcall hstage =>
      have hpos := hs.pos hcall (by rw [hstage]; rfl)
      refine hs.move hcall rfl rfl ?_ (by rw [hstage]; exact Nat.sub_add_cancel hpos)
      dsimp only
      split
      · rename_i hroom
        simpa using hroom
      · exact hlimit _
  | cleanup now =>
      exact ⟨fun k => (sublist_cleanup_idle cfg s now k).length_le.trans (hlimit k), hs.active⟩

theorem owned_start : Owned {} where
  nodup _ := List.nodup_nil
  idle _ _ hc := nomatch hc
  held _ _ _ hcall := nomatch hcall
  notIdle _ _ _ hcall := nomatch hcall
  unique _ _ _ _ _ hcall := nomatch hcall

theorem counted_start (cfg : PoolConfig) : Counted cfg {} where
  limit _ := Nat.zero_le _
  active _ := rfl

theorem inv_reachable (h : Reachable cfg s) : Owned s ∧ Counted cfg s := by
  induction h with
  | refl => exact ⟨owned_start, counted_start cfg⟩
  | tail _ h ih =>
      obtain ⟨l, hstep⟩ := h
      exact ⟨owned_step ih.1 hstep, counted_step ih.2 hstep⟩

/-- In every state of the pool, a queue holds no connection twice and no more than its limit, and no
connection is in two queues. A connection that a call holds has the address of the call's backend,
is in no queue, and is held by no other call. The counter of a key is the number of calls under it
that are in `acquire` or hold a connection, and is zero when there are none. Two addresses do not
have the same key. -/
theorem exclusive_ownership (cfg : PoolConfig) (s : PoolSystem) (hs : Reachable cfg s) :
    (∀ k, (s.pools k).idle.Nodup ∧ (s.pools k).idle.length ≤ cfg.maxIdlePerHost) ∧
      (∀ k k' c, c ∈ (s.pools k).idle → c ∈ (s.pools k').idle → k = k') ∧
      (∀ (q : Nat) (call : PoolCall) (c : Nat), s.calls[q]? = some call →
        call.stage.holds = some c →
          (∃ conn, s.conns[c]? = some conn ∧ conn.host = call.backend.host ∧
            conn.port = call.backend.port) ∧
          (∀ k, c ∉ (s.pools k).idle) ∧
          ∀ (q' : Nat) (call' : PoolCall), s.calls[q']? = some call' →
            call'.stage.holds = some c → q' = q) ∧
      (∀ k, (s.pools k).activeCount = s.active k) ∧
      ((∀ call ∈ s.calls, call.stage.active = false) → ∀ k, (s.pools k).activeCount = 0) ∧
      ∀ host port host' port', makeKey host port = makeKey host' port' →
        host = host' ∧ port = port' := by
  obtain ⟨howned, hcounted⟩ := inv_reachable hs
  refine ⟨fun k => ⟨howned.nodup k, hcounted.limit k⟩, ?_, ?_, hcounted.active, ?_, ?_⟩
  · intro k k' c hk hk'
    obtain ⟨conn, hconn, rfl⟩ := howned.idle k c hk
    obtain ⟨conn', hconn', rfl⟩ := howned.idle k' c hk'
    rw [Option.some.inj (hconn.symm.trans hconn')]
  · intro q call c hcall hholds
    exact ⟨howned.held q call c hcall hholds, howned.notIdle q call c hcall hholds,
      fun q' call' hcall' hholds' => howned.unique q' q call' call c hcall' hcall hholds' hholds⟩
  · intro hquiet k
    rw [hcounted.active]
    refine List.countP_eq_zero.2 fun call hcall => ?_
    simp [PoolCall.activeUnder, hquiet call hcall]
  · exact fun host port host' port' h => make_key_inj h

/-- A pool of one idle connection per address. -/
def onePool : PoolConfig where
  maxIdlePerHost := 1
  idleTimeoutSec := 60

/-- Two calls for one backend, of which the first has given its connection back. -/
theorem exclusive_ownership_idle :
    let key := makeKey (ascii "10.0.0.1") 80
    ∃ s call, Reachable onePool s ∧ (s.pools key).idle = [0] ∧ (s.pools key).activeCount = 1 ∧
      s.calls[1]? = some call ∧ call.stage.holds = some 1 ∧ (∀ k, 1 ∉ (s.pools k).idle) ∧
      (∀ (q : Nat) (other : PoolCall), s.calls[q]? = some other →
        other.stage.holds = some 1 → q = 1) ∧
      ∀ k, (s.pools k).activeCount = s.active k := by
  intro key
  let backend : Backend := { host := ascii "10.0.0.1", port := 80 }
  let answer := ascii "HTTP/1.1 200 OK\r\n\r\n"
  have hcalled : Reachable onePool _ :=
    (Relation.ReflTransGen.single ⟨_, .call backend answer⟩).tail ⟨_, .call backend answer⟩
  have hcreated := (hcalled.tail ⟨_, .create (q := 0) rfl rfl⟩).tail ⟨_, .create (q := 1) rfl rfl⟩
  have hconnected := (hcreated.tail ⟨_, @Step.connected _ _ 0 0 _ _ 0 rfl rfl rfl⟩).tail
    ⟨_, @Step.connected _ _ 1 1 _ _ 0 rfl rfl rfl⟩
  have hsent := hconnected.tail ⟨_, .sent (q := 0) rfl rfl rfl⟩
  have hreceived := hsent.tail ⟨_, @Step.recvLast _ _ 0 0 _ _ _ _ (answer.map (Prod.mk 0)) [] 0
    rfl rfl rfl rfl (by decide) (by decide) (by decide)⟩
  have hpushed := (hreceived.tail ⟨_, .alive (q := 0) rfl rfl rfl rfl⟩).tail
    ⟨_, .push (q := 0) rfl rfl⟩
  have hresult := exclusive_ownership onePool _ hpushed
  obtain ⟨-, hidle, hunique⟩ := hresult.2.2.1 1 _ 1 rfl rfl
  refine ⟨_, _, hpushed, ?_, ?_, rfl, rfl, hidle, hunique, hresult.2.2.2.1⟩
  · simp [setEntry, setConn, addConn, move, PoolCall.key, onePool, key, backend]
  · simp [setEntry, setConn, addConn, move, PoolCall.key, key, backend]

end PoolSystem

end ApiGateway.Proxy
