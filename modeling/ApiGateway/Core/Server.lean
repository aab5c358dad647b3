import ApiGateway.Library.Table
import ApiGateway.Net.Connection
import ApiGateway.Net.Defer

/-!
# The connections of the gateway

The reactor of the gateway with the file descriptors it works on: `EventLoop::run`, the callbacks
that `Gateway::run` registers for new connections, `TCPServer::on_accept`, `close_internal`, and
`cleanup_idle_connections`. The kernel gives any number that is not in use to a new file, so a
number stands for different files in the course of time; the `Holder` of a number says for which.

One batch of events is dispatched entry after entry, and each callback is looked up by the number
when its turn comes. What a callback does in between (tasks, accepted connections) is a sequence of
steps of its own.
-/

namespace ApiGateway.Core

open Net

/-- The open file that a descriptor stands for, or the callback registered for it: the eventfd, the
listening socket, the socket of a `Connection` object, or a file of another thread. -/
inductive Holder where
  | wakeup
  | listen
  | client (i : Nat)
  | other
  deriving DecidableEq

/-- A `Connection` object: the members that the gateway works with, and how often its close
callback has been called. -/
structure Client where
  fd : Int
  conn : Connection
  lastActiveTime : Int
  closeCallback : Bool := true
  closes : Nat := 0

/-- The constructor of `Connection`, at time `now`. -/
def Client.create (maxRequestSize fd now : Int) : Client where
  fd := fd
  conn := .accept maxRequestSize
  lastActiveTime := now

/-- Whether an object is not closed yet. -/
def Client.isOpen (c : Client) : Bool :=
  c.conn.state != .closed

/-- An entry of the array that `epoll_wait` fills, with the file that has produced it. -/
structure Ready where
  fd : Int
  holder : Holder
  readable : Bool := false
  writable : Bool := false
  hangup : Bool := false
  deriving DecidableEq

/-- A task given to `EventLoop::defer`. -/
inductive ClientTask where
  | send (i : Nat) (data : Bytes) (keepAlive : Bool)
  | close (i : Nat)
  deriving DecidableEq

/-- What the reactor is doing: waiting for events or running the idle callback, dispatching a
batch, inside `run_deferred_tasks` with some tasks to go, inside `on_accept`, or inside the callback
of a connection, before one of its three tests. -/
inductive Control where
  | waiting
  | dispatching
  | running (round : List ClientTask)
  | accepting
  | reading (i : Nat) (e : Ready)
  | writing (i : Nat) (e : Ready)
  | hanging (i : Nat) (e : Ready)
  deriving DecidableEq

/-- The configuration that the gateway uses for its connections. -/
structure ServerConfig where
  maxConnections : Int
  maxRequestSize : Int
  keepAliveTimeoutSec : Int
  maxDeferredPerRound : Int

/-- The `Connection` objects ever created; the numbers in use, those registered with epoll, and
`callbacks_`; `connections_` and `connection_count_`; the deferred tasks; and the rest of the batch
that is being dispatched. -/
structure Server where
  clients : List Client := []
  kernel : Int → Option Holder
  registered : Int → Bool
  callbacks : Int → Option Holder
  connections : List (Int × Nat) := []
  connectionCount : Int := 0
  tasks : List ClientTask := []
  control : Control := .waiting
  batch : List Ready := []

namespace Server

/-- The gateway after `run` has registered the eventfd and the listening socket. -/
def start (wakeupFd listenFd : Int) : Server where
  kernel := Function.update (Function.update (fun _ => none) listenFd (some .listen)) wakeupFd
    (some .wakeup)
  registered := Function.update (Function.update (fun _ => false) listenFd true) wakeupFd true
  callbacks := Function.update (Function.update (fun _ => none) listenFd (some .listen)) wakeupFd
    (some .wakeup)

/-- The callback for a new connection. `added` tells whether `epoll_ctl` has succeeded. -/
def accept (cfg : ServerConfig) (s : Server) (fd now : Int) (added : Bool) : Server :=
  if 0 < cfg.maxConnections ∧ cfg.maxConnections ≤ s.connectionCount then s
  else
    let i := s.clients.length
    { s with
      clients := s.clients ++ [.create cfg.maxRequestSize fd now]
      kernel := Function.update s.kernel fd (some (.client i))
      registered := Function.update s.registered fd added
      callbacks := Function.update s.callbacks fd (some (.client i))
      connections := (fd, i) :: s.connections.filter (·.1 ≠ fd)
      connectionCount := s.connectionCount + 1 }

/-- What `close_internal` does outside of the connection: `del_fd`, the close callback if it has
not been moved out before, `remove_callback` and `close`. -/
def release (s : Server) (i : Nat) (c : Client) (conn : Connection) : Server :=
  { s with
    clients := s.clients.set i
      { c with
        fd := -1
        conn := conn
        closeCallback := false
        closes := if c.closeCallback then c.closes + 1 else c.closes }
    registered := Function.update s.registered c.fd false
    callbacks := Function.update s.callbacks c.fd none
    connections := if c.closeCallback then s.connections.filter (·.1 ≠ c.fd) else s.connections
    connectionCount := if c.closeCallback then s.connectionCount - 1 else s.connectionCount
    kernel := Function.update s.kernel c.fd none }

/-- Client `i` after a handler that has left it as `conn`. Handlers close a connection as the last
thing they do. -/
def settle (s : Server) (i : Nat) (c : Client) (conn : Connection) : Server :=
  if c.conn.state ≠ .closed ∧ conn.state = .closed then s.release i c conn
  else { s with clients := s.clients.set i { c with conn := conn } }

/-- A handler that acts only in some states sets the time of the last activity. -/
def touch (c : Client) (active : List ConnState) (now : Int) : Client :=
  if c.conn.state ∈ active then { c with lastActiveTime := now } else c

/-- `force_close`. -/
def forceClose (s : Server) (i : Nat) (c : Client) : Server :=
  if c.conn.state = .closed then s else { s with tasks := s.tasks ++ [.close i] }

/-- Whether `cleanup_idle_connections` closes a connection. -/
def expired (cfg : ServerConfig) (s : Server) (now : Int) (entry : Int × Nat) : Bool :=
  match s.clients[entry.2]? with
  | some c => cfg.keepAliveTimeoutSec < now - c.lastActiveTime
  | none => false

/-- The task by which `cleanup_idle_connections` closes a connection. -/
def closeTask? (s : Server) (entry : Int × Nat) : Option ClientTask :=
  match s.clients[entry.2]? with
  | some c => if c.conn.state = .closed then none else some (.close entry.2)
  | none => none

/-- `cleanup_idle_connections`, which visits the entries of the map in any order. -/
def cleanupIdleConnections (cfg : ServerConfig) (s : Server) (now : Int)
    (entries : List (Int × Nat)) : Server :=
  { s with
    tasks := s.tasks ++ (entries.filter (expired cfg s now)).filterMap (closeTask? s)
    connections := s.connections.filter fun entry => !expired cfg s now entry }

/-- One step of the reactor, of a worker that defers a response, or of another thread that opens
or closes a file. -/
inductive Step (cfg : ServerConfig) : Server → Server → Prop where
  | wait {s : Server} (batch : List Ready) (hcontrol : s.control = .waiting)
      (hready : ∀ e ∈ batch, s.registered e.fd = true ∧ s.kernel e.fd = some e.holder) :
      Step cfg s { s with batch := batch, control := .dispatching }
  | skip {s : Server} {e : Ready} {rest : List Ready} (hcontrol : s.control = .dispatching)
      (hbatch : s.batch = e :: rest) (hcallback : s.callbacks e.fd = none) :
      Step cfg s { s with batch := rest }
  | wakeup {s : Server} {e : Ready} {rest : List Ready} (hcontrol : s.control = .dispatching)
      (hbatch : s.batch = e :: rest) (hcallback : s.callbacks e.fd = some .wakeup) :
      Step cfg s { s with
        batch := rest
        tasks := (roundTasks cfg.maxDeferredPerRound s.tasks).2
        control := .running (roundTasks cfg.maxDeferredPerRound s.tasks).1 }
  | listen {s : Server} {e : Ready} {rest : List Ready} (hcontrol : s.control = .dispatching)
      (hbatch : s.batch = e :: rest) (hcallback : s.callbacks e.fd = some .listen) :
      Step cfg s { s with batch := rest, control := .accepting }
  | client {s : Server} {e : Ready} {rest : List Ready} {i : Nat}
      (hcontrol : s.control = .dispatching) (hbatch : s.batch = e :: rest)
      (hcallback : s.callbacks e.fd = some (.client i)) :
      Step cfg s { s with batch := rest, control := .reading i e }
  | read {s : Server} {i fuel : Nat} {e : Ready} {c : Client} {now : Int} {b : Burst}
      {out : Outcome} (hcontrol : s.control = .reading i e) (hreadable : e.readable = true)
      (hc : s.clients[i]? = some c) (h : c.conn.onRead fuel b = some out) :
      Step cfg s { s.settle i (touch c [.reading] now) out.conn with control := .writing i e }
  | noRead {s : Server} {i : Nat} {e : Ready} (hcontrol : s.control = .reading i e)
      (hreadable : e.readable = false) : Step cfg s { s with control := .writing i e }
  | write {s : Server} {i fuel : Nat} {e : Ready} {c : Client} {now : Int} {w : WriteResults}
      {out : Outcome} (hcontrol : s.control = .writing i e) (hwritable : e.writable = true)
      (hc : s.clients[i]? = some c) (h : c.conn.onWrite fuel w = some out) :
      Step cfg s { s.settle i (touch c [.writing] now) out.conn with control := .hanging i e }
  | noWrite {s : Server} {i : Nat} {e : Ready} (hcontrol : s.control = .writing i e)
      (hwritable : e.writable = false) : Step cfg s { s with control := .hanging i e }
  | hangup {s : Server} {i : Nat} {e : Ready} {c : Client} (hcontrol : s.control = .hanging i e)
      (hhangup : e.hangup = true) (hc : s.clients[i]? = some c) :
      Step cfg s { s.forceClose i c with control := .dispatching }
  | noHangup {s : Server} {i : Nat} {e : Ready} (hcontrol : s.control = .hanging i e)
      (hhangup : e.hangup = false) : Step cfg s { s with control := .dispatching }
  | close {s : Server} {i : Nat} {c : Client} {round : List ClientTask}
      (hcontrol : s.control = .running (.close i :: round)) (hc : s.clients[i]? = some c) :
      Step cfg s { s.settle i c c.conn.closeInternal with control := .running round }
  | send {s : Server} {i fuel : Nat} {data : Bytes} {keepAlive : Bool} {round : List ClientTask}
      {c : Client} {now : Int} {w : WriteResults} {out : Outcome}
      (hcontrol : s.control = .running (.send i data keepAlive :: round))
      (hc : s.clients[i]? = some c) (h : c.conn.sendInternal fuel data keepAlive w = some out) :
      Step cfg s { s.settle i (touch c [.processing, .reading] now) out.conn with
        control := .running round }
  | ran {s : Server} (hcontrol : s.control = .running []) :
      Step cfg s { s with control := .dispatching }
  | accept {s : Server} {fd now : Int} {added : Bool} (hcontrol : s.control = .accepting)
      (hfd : 0 ≤ fd) (hfree : s.kernel fd = none) : Step cfg s (s.accept cfg fd now added)
  | accepted {s : Server} (hcontrol : s.control = .accepting) :
      Step cfg s { s with control := .dispatching }
  | finish {s : Server} (hcontrol : s.control = .dispatching) (hbatch : s.batch = []) :
      Step cfg s { s with control := .waiting }
  | cleanup {s : Server} {now : Int} {entries : List (Int × Nat)} (hcontrol : s.control = .waiting)
      (hentries : entries.Perm s.connections) :
      Step cfg s (s.cleanupIdleConnections cfg now entries)
  | defer {s : Server} (i : Nat) (data : Bytes) (keepAlive : Bool) :
      Step cfg s { s with tasks := s.tasks ++ [.send i data keepAlive] }
  | openOther {s : Server} {fd : Int} (hfd : 0 ≤ fd) (hfree : s.kernel fd = none) :
      Step cfg s { s with kernel := Function.update s.kernel fd (some .other) }
  | closeOther {s : Server} {fd : Int} (hother : s.kernel fd = some .other) :
      Step cfg s { s with kernel := Function.update s.kernel fd none }

/-- The states of a gateway. -/
def Reachable (cfg : ServerConfig) (wakeupFd listenFd : Int) : Server → Prop :=
  Relation.ReflTransGen (Step cfg) (start wakeupFd listenFd)

/-! ## The invariant -/

/-- An object that is not closed has its descriptor and its close callback; a closed one has given
up both. -/
def Accounted (s : Server) (i : Nat) (c : Client) : Prop :=
  (c.conn.state ≠ .closed ∧ s.kernel c.fd = some (.client i) ∧ c.closeCallback = true ∧
      c.closes = 0) ∨
    (c.conn.state = .closed ∧ c.closes = 1)

/-- The number of objects that are not closed. -/
def opened (s : Server) : Nat :=
  s.clients.countP Client.isOpen

/-- The invariant. -/
structure Inv (cfg : ServerConfig) (s : Server) : Prop where
  clients : ∀ (i : Nat) (c : Client), s.clients[i]? = some c → s.Accounted i c
  entries : ∀ fd i, (fd, i) ∈ s.connections →
    ∃ c, s.clients[i]? = some c ∧ c.conn.state ≠ .closed ∧ c.fd = fd
  count : s.connectionCount = s.opened
  limit : 0 < cfg.maxConnections → s.connectionCount ≤ cfg.maxConnections
  callbacks : ∀ fd h, s.callbacks fd = some h → s.kernel fd = some h ∧ h ≠ .other
  registered : ∀ fd, s.registered fd = true → s.callbacks fd ≠ none

variable {cfg : ServerConfig} {s t : Server}

theorem inv_start (cfg : ServerConfig) (wakeupFd listenFd : Int) :
    Inv cfg (start wakeupFd listenFd) where
  clients := by simp [start]
  entries := by simp [start]
  count := rfl
  limit := le_of_lt
  callbacks := by
    intro fd h hfd
    refine ⟨hfd, ?_⟩
    rintro rfl
    simp only [start, Function.update_apply] at hfd
    split at hfd
    · cases hfd
    · split at hfd <;> cases hfd
  registered := by
    intro fd hfd
    simp only [start, Function.update_apply] at hfd ⊢
    split at hfd
    · rename_i hwakeup
      simp [hwakeup]
    · rename_i hwakeup
      split at hfd
      · rename_i hlisten
        rw [if_neg hwakeup, if_pos hlisten]
        simp
      · cases hfd

/-- The invariant does not depend on the tasks and on the dispatched batch. -/
theorem Inv.congr (hs : Inv cfg s) (hclients : t.clients = s.clients)
    (hkernel : t.kernel = s.kernel)
    (hregistered : t.registered = s.registered) (hcallbacks : t.callbacks = s.callbacks)
    (hconnections : t.connections = s.connections)
    (hcount : t.connectionCount = s.connectionCount) : Inv cfg t where
  clients := by
    unfold Accounted
    rw [hclients, hkernel]
    exact hs.clients
  entries := by
    rw [hconnections, hclients]
    exact hs.entries
  count := by
    unfold opened
    rw [hcount, hclients]
    exact hs.count
  limit := by
    rw [hcount]
    exact hs.limit
  callbacks := by
    rw [hcallbacks, hkernel]
    exact hs.callbacks
  registered := by
    rw [hregistered, hcallbacks]
    exact hs.registered

/-- The descriptors of different objects are different. -/
theorem Inv.fd_ne (hs : Inv cfg s) {i j : Nat} {c d : Client} (hc : s.clients[i]? = some c)
    (hd : s.clients[j]? = some d) (hcopen : c.conn.state ≠ .closed)
    (hdopen : d.conn.state ≠ .closed) (hne : j ≠ i) : d.fd ≠ c.fd := by
  intro hfd
  rcases hs.clients i c hc with ⟨-, hkc, -⟩ | ⟨hclosed, -⟩
  · rcases hs.clients j d hd with ⟨-, hkd, -⟩ | ⟨hclosed, -⟩
    · rw [hfd, hkc] at hkd
      exact hne (Holder.client.inj (Option.some.inj hkd)).symm
    · exact hdopen hclosed
  · exact hcopen hclosed

/-! ## Closing -/

theorem inv_release (hs : Inv cfg s) {i : Nat} {c : Client} {conn : Connection}
    (hc : s.clients[i]? = some c) (hopen : c.conn.state ≠ .closed) (hclosed : conn.state = .closed)
    (lastActiveTime : Int) : Inv cfg (s.release i { c with lastActiveTime } conn) := by
  -- an open client has its close callback still to run, so the count goes down by one
  obtain ⟨-, -, hcallback, hcloses⟩ : c.conn.state ≠ .closed ∧
      s.kernel c.fd = some (.client i) ∧ c.closeCallback = true ∧ c.closes = 0 :=
    (hs.clients i c hc).resolve_right fun h => hopen h.1
  constructor
  case clients =>
    intro j d hd
    rcases (Table.get_set_iff hc).1 hd with ⟨rfl, rfl⟩ | ⟨hij, hd⟩
    · exact .inr ⟨hclosed, by simp [hcallback, hcloses]⟩
    · refine (hs.clients j d hd).imp_left fun hd' => ?_
      have hne := hs.fd_ne hc hd hopen hd'.1 hij
      refine ⟨hd'.1, ?_, hd'.2.2⟩
      simp only [release]
      rw [Function.update_of_ne hne]
      exact hd'.2.1
  case entries =>
    intro fd j hmem
    simp only [release, hcallback, if_true, List.mem_filter, decide_eq_true_eq] at hmem
    obtain ⟨d, hd, hdopen, hfd⟩ := hs.entries fd j hmem.1
    have hij : j ≠ i := by
      rintro rfl
      cases hc.symm.trans hd
      exact hmem.2 hfd.symm
    exact ⟨d, (Table.get_set_iff hc).2 (.inr ⟨hij, hd⟩), hdopen, hfd⟩
  case count =>
    have hcount := hs.count
    have hset : (s.release i { c with lastActiveTime } conn).opened + c.isOpen.toNat =
        s.opened + (conn.state != .closed).toNat := Table.countP_set hc _ _
    have hbefore : c.isOpen = true := bne_iff_ne.2 hopen
    have hafter : (conn.state != .closed) = false := by simp [hclosed]
    have hconnections : (s.release i { c with lastActiveTime } conn).connectionCount =
        s.connectionCount - 1 := by simp only [release, hcallback, if_true]
    rw [hbefore, hafter, Bool.toNat_true, Bool.toNat_false] at hset
    omega
  case limit =>
    intro hmax
    have := hs.limit hmax
    simp only [release, hcallback, if_true]
    omega
  case callbacks =>
    intro fd h hfd
    simp only [release, Function.update_apply] at hfd ⊢
    split at hfd
    · cases hfd
    · rename_i hne
      rw [if_neg hne]
      exact hs.callbacks fd h hfd
  case registered =>
    intro fd hfd
    simp only [release, Function.update_apply] at hfd ⊢
    split at hfd
    · cases hfd
    · rename_i hne
      rw [if_neg hne]
      exact hs.registered fd hfd

/-- A handler that does not close the connection. -/
theorem inv_set (hs : Inv cfg s) {i : Nat} {c : Client} {conn : Connection}
    (hc : s.clients[i]? = some c) (hsame : conn.state = .closed ↔ c.conn.state = .closed)
    (lastActiveTime : Int) :
    Inv cfg { s with clients := s.clients.set i { c with conn, lastActiveTime } } := by
  constructor
  case clients =>
    intro j d hd
    rcases (Table.get_set_iff hc).1 hd with ⟨rfl, rfl⟩ | ⟨-, hd⟩
    · refine (hs.clients j c hc).imp (fun h => ⟨?_, h.2⟩) (fun h => ⟨hsame.2 h.1, h.2⟩)
      exact fun hclosed => h.1 (hsame.1 hclosed)
    · exact hs.clients j d hd
  case entries =>
    intro fd j hmem
    obtain ⟨d, hd, hdopen, hfd⟩ := hs.entries fd j hmem
    by_cases hij : j = i
    · subst hij
      cases hc.symm.trans hd
      exact ⟨_, Table.get_set_self hc _, fun hclosed => hdopen (hsame.1 hclosed), hfd⟩
    · exact ⟨d, (Table.get_set_iff hc).2 (.inr ⟨hij, hd⟩), hdopen, hfd⟩
  case count =>
    have hopen : Client.isOpen { c with conn, lastActiveTime } = c.isOpen := by
      unfold Client.isOpen
      rw [Bool.eq_iff_iff, bne_iff_ne, bne_iff_ne]
      exact not_congr hsame
    have hset := Table.countP_set hc { c with conn, lastActiveTime } Client.isOpen
    rw [hopen] at hset
    exact hs.count.trans (congrArg Nat.cast (Nat.add_right_cancel hset).symm)
  case limit => exact hs.limit
  case callbacks => exact hs.callbacks
  case registered => exact hs.registered

/-- A handler that leaves a closed connection closed. -/
theorem inv_settle (hs : Inv cfg s) {i : Nat} {c : Client} {conn : Connection}
    (hc : s.clients[i]? = some c) (hkeeps : c.conn.state = .closed → conn.state = .closed)
    (lastActiveTime : Int) : Inv cfg (s.settle i { c with lastActiveTime } conn) := by
  unfold settle
  split
  · rename_i h
    exact inv_release hs hc h.1 h.2 lastActiveTime
  · rename_i h
    refine inv_set hs hc ⟨fun hclosed => ?_, hkeeps⟩ lastActiveTime
    by_contra hopen
    exact h ⟨hopen, hclosed⟩

theorem touch_eq (c : Client) (active : List ConnState) (now : Int) :
    ∃ lastActiveTime, touch c active now = { c with lastActiveTime } := by
  unfold touch
  split
  · exact ⟨now, rfl⟩
  · exact ⟨c.lastActiveTime, rfl⟩

theorem inv_handler (hs : Inv cfg s) {i : Nat} {c : Client} {conn : Connection}
    (hc : s.clients[i]? = some c) (hkeeps : c.conn.state = .closed → conn.state = .closed)
    (active : List ConnState) (now : Int) (control : Control) :
    Inv cfg { s.settle i (touch c active now) conn with control := control } := by
  obtain ⟨lastActiveTime, htouch⟩ := touch_eq c active now
  rw [htouch]
  exact (inv_settle hs hc hkeeps lastActiveTime).congr rfl rfl rfl rfl rfl rfl

/-! ## Accepting -/

theorem inv_accept (hs : Inv cfg s) {fd : Int} (hfree : s.kernel fd = none) (now : Int)
    (added : Bool) : Inv cfg (s.accept cfg fd now added) := by
  unfold accept
  split
  · exact hs
  rename_i hlimit
  -- the kernel gives out a number that no open client has
  have hother : ∀ (j : Nat) (d : Client), s.clients[j]? = some d → d.conn.state ≠ .closed →
      d.fd ≠ fd := by
    intro j d hd hopen hfd
    rcases hs.clients j d hd with ⟨-, hkernel, -⟩ | ⟨hclosed, -⟩
    · rw [hfd, hfree] at hkernel
      cases hkernel
    · exact hopen hclosed
  constructor
  case clients =>
    intro j d hd
    rcases Table.get_append_iff.1 hd with hd | ⟨rfl, rfl⟩
    · refine (hs.clients j d hd).imp_left fun h => ⟨h.1, ?_, h.2.2⟩
      exact (Function.update_of_ne (hother j d hd h.1) ..).trans h.2.1
    · exact .inl ⟨nofun, Function.update_self .., rfl, rfl⟩
  case entries =>
    intro fd' j hmem
    rcases List.mem_cons.1 hmem with heq | hmem
    · cases heq
      exact ⟨_, Table.get_append_iff.2 (.inr ⟨rfl, rfl⟩), nofun, rfl⟩
    · obtain ⟨d, hd, hopen, hfd⟩ := hs.entries fd' j (List.mem_filter.1 hmem).1
      exact ⟨d, Table.get_append_of_some hd _, hopen, hfd⟩
  case count =>
    have hcount := hs.count
    simp only [opened] at hcount ⊢
    rw [List.countP_append, hcount]
    rfl
  case limit =>
    intro hmax
    show s.connectionCount + 1 ≤ cfg.maxConnections
    by_contra hover
    exact hlimit ⟨hmax, by omega⟩
  case callbacks =>
    intro fd' h hfd
    simp only [Function.update_apply] at hfd ⊢
    split at hfd
    · rename_i hsame
      cases hfd
      exact ⟨if_pos hsame, nofun⟩
    · rename_i hne
      rw [if_neg hne]
      exact hs.callbacks fd' h hfd
  case registered =>
    intro fd' hfd
    simp only [Function.update_apply] at hfd ⊢
    split at hfd
    · simp [*]
    · rename_i hne
      rw [if_neg hne]
      exact hs.registered fd' hfd

/-- Other threads use numbers that the reactor does not. -/
theorem inv_other (hs : Inv cfg s) {fd : Int} (h : Option Holder)
    (hbefore : s.kernel fd = none ∨ s.kernel fd = some .other) :
    Inv cfg { s with kernel := Function.update s.kernel fd h } := by
  constructor
  case clients =>
    intro j d hd
    refine (hs.clients j d hd).imp_left fun hopen => ⟨hopen.1, ?_, hopen.2.2⟩
    have hne : d.fd ≠ fd := by
      rintro rfl
      simp [hopen.2.1] at hbefore
    exact (Function.update_of_ne hne ..).trans hopen.2.1
  case entries => exact hs.entries
  case count => exact hs.count
  case limit => exact hs.limit
  case callbacks =>
    intro fd' h' hfd
    obtain ⟨hkernel, hother⟩ := hs.callbacks fd' h' hfd
    have hne : fd' ≠ fd := by
      rintro rfl
      simp [hkernel, hother] at hbefore
    exact ⟨(Function.update_of_ne hne ..).trans hkernel, hother⟩
  case registered => exact hs.registered

/-! ## Runs -/

/-- Every handler leaves a closed connection as it is. -/
theorem on_read_closed {c : Connection} {fuel : Nat} {b : Burst} {out : Outcome}
    (h : c.onRead fuel b = some out) (hclosed : c.state = .closed) : out.conn.state = .closed := by
  simp only [Connection.onRead, hclosed, Option.some.injEq] at h
  rw [← h]
  exact hclosed

theorem on_write_closed {c : Connection} {fuel : Nat} {w : WriteResults} {out : Outcome}
    (h : c.onWrite fuel w = some out) (hclosed : c.state = .closed) : out.conn.state = .closed := by
  rw [Connection.on_write_skip (by simp [hclosed])] at h
  cases h
  exact hclosed

theorem send_internal_closed {c : Connection} {fuel : Nat} {data : Bytes} {keepAlive : Bool}
    {w : WriteResults} {out : Outcome} (h : c.sendInternal fuel data keepAlive w = some out)
    (hclosed : c.state = .closed) : out.conn.state = .closed := by
  rw [Connection.send_internal_skip (by simp [hclosed]) (by simp [hclosed])] at h
  cases h
  exact hclosed

theorem inv_step (hs : Inv cfg s) (h : Step cfg s t) : Inv cfg t := by
  cases h with
  | wait | skip | wakeup | listen | client | noRead | noWrite | noHangup | ran | accepted | finish
  | defer => exact hs.congr rfl rfl rfl rfl rfl rfl
  | read hcontrol hreadable hc h => exact inv_handler hs hc (on_read_closed h) _ _ _
  | write hcontrol hwritable hc h => exact inv_handler hs hc (on_write_closed h) _ _ _
  | send hcontrol hc h => exact inv_handler hs hc (send_internal_closed h) _ _ _
  | @close i c round hcontrol hc =>
      exact (inv_settle hs hc (fun _ => rfl) c.lastActiveTime).congr rfl rfl rfl rfl rfl rfl
  | hangup hcontrol hhangup hc =>
      unfold forceClose
      split <;> exact hs.congr rfl rfl rfl rfl rfl rfl
  | accept hcontrol hfd hfree => exact inv_accept hs hfree _ _
  | cleanup hcontrol hentries =>
      refine ⟨hs.clients, fun fd i hmem => ?_, hs.count, hs.limit, hs.callbacks, hs.registered⟩
      exact hs.entries fd i (List.mem_filter.1 hmem).1
  | openOther hfd hfree => exact inv_other hs _ (.inl hfree)
  | closeOther hother => exact inv_other hs _ (.inr hother)

theorem inv_reachable {wakeupFd listenFd : Int} (h : Reachable cfg wakeupFd listenFd s) :
    Inv cfg s := by
  induction h with
  | refl => exact inv_start cfg wakeupFd listenFd
  | tail _ hstep ih => exact inv_step ih hstep

/-- Closing one connection leaves the entries of the others in the map. -/
theorem entries_release (hs : Inv cfg s) {i j : Nat} {c : Client} {conn : Connection} {fd : Int}
    (hc : s.clients[i]? = some c) (hopen : c.conn.state ≠ .closed)
    (hentry : (fd, j) ∈ s.connections) (hne : j ≠ i) :
    (fd, j) ∈ (s.release i c conn).connections := by
  obtain ⟨d, hd, hdopen, hfd⟩ := hs.entries fd j hentry
  simp only [release]
  split
  · refine List.mem_filter.2 ⟨hentry, decide_eq_true ?_⟩
    rw [← hfd]
    exact hs.fd_ne hc hd hopen hdopen hne
  · exact hentry

/-- The connections are accounted for in every state: the counter is the number of objects that are
not closed, within the limit; the close callback of an object has run once if it is closed and
never otherwise; the map holds objects that are not closed under their numbers; and closing an
object does not remove the entry of another. -/
theorem connection_accounting (cfg : ServerConfig) (wakeupFd listenFd : Int) (s : Server)
    (hs : Reachable cfg wakeupFd listenFd s) :
    s.connectionCount = s.clients.countP Client.isOpen ∧
      (0 < cfg.maxConnections → s.connectionCount ≤ cfg.maxConnections) ∧
      0 ≤ s.connectionCount ∧
      (∀ c ∈ s.clients, c.closes ≤ 1 ∧ (c.closes = 1 ↔ c.conn.state = .closed)) ∧
      (∀ fd i, (fd, i) ∈ s.connections →
        ∃ c, s.clients[i]? = some c ∧ c.conn.state ≠ .closed ∧ c.fd = fd) ∧
      ∀ (i : Nat) (c : Client) (conn : Connection), s.clients[i]? = some c →
        c.conn.state ≠ .closed → ∀ fd j, (fd, j) ∈ s.connections → j ≠ i →
          (fd, j) ∈ (s.release i c conn).connections := by
  have hinv := inv_reachable hs
  refine ⟨hinv.count, hinv.limit, ?_, fun c hc => ?_, hinv.entries, fun i c conn hc hopen fd j =>
    entries_release hinv hc hopen⟩
  · rw [hinv.count]
    exact Int.natCast_nonneg _
  · obtain ⟨i, hi⟩ := List.mem_iff_getElem?.1 hc
    rcases hinv.clients i c hi with ⟨hopen, -, -, hcloses⟩ | ⟨hclosed, hcloses⟩
    · simp [hcloses, hopen]
    · simp [hcloses, hclosed]

/-- A gateway for one connection at a time. -/
def smallConfig : ServerConfig where
  maxConnections := 1
  maxRequestSize := 65536
  keepAliveTimeoutSec := 10
  maxDeferredPerRound := 256

/-- The gateway inside `on_accept`, after the first connection. -/
def firstAccepted : Server :=
  { start 3 4 with control := .accepting }.accept smallConfig 7 0 true

theorem first_accepted_reachable : Reachable smallConfig 3 4 firstAccepted := by
  have hwait : Step smallConfig (start 3 4)
      { start 3 4 with
        batch := [{ fd := 4, holder := .listen, readable := true }], control := .dispatching } :=
    .wait _ rfl (by simp [start])
  exact .tail (.tail (.single hwait) (.listen rfl rfl rfl)) (.accept rfl (by decide) rfl)

/-- The batch in which the eventfd, the listening socket and the first connection are ready. -/
def threeReady : List Ready :=
  [{ fd := 3, holder := .wakeup, readable := true },
    { fd := 4, holder := .listen, readable := true },
    { fd := 7, holder := .client 0, hangup := true }]

/-- The first connection has been idle for too long and is to be closed. -/
def idled : Server :=
  { firstAccepted with control := .waiting }.cleanupIdleConnections smallConfig 100 [(7, 0)]

theorem idled_reachable : Reachable smallConfig 3 4 idled :=
  ((first_accepted_reachable.tail (.accepted rfl)).tail (.finish rfl rfl)).tail
    (.cleanup rfl (List.Perm.refl _))

/-- The first callback of the batch `threeReady` is about to close it. -/
def closingInBatch : Server :=
  { idled with tasks := [], batch := threeReady.tail, control := .running [.close 0] }

theorem closing_in_batch_reachable : Reachable smallConfig 3 4 closingInBatch := by
  have hbatch : Reachable smallConfig 3 4
      { idled with batch := threeReady, control := .dispatching } :=
    idled_reachable.tail (.wait threeReady rfl (by decide))
  exact hbatch.tail (.wakeup rfl rfl rfl)

/-- The first callback has closed it. -/
def closedInBatch : Server :=
  { closingInBatch.settle 0 (.create 65536 7 0) (Connection.accept 65536).closeInternal with
    control := .running [] }

theorem closed_in_batch_reachable : Reachable smallConfig 3 4 closedInBatch :=
  closing_in_batch_reachable.tail (@Step.close _ _ 0 (.create 65536 7 0) [] rfl rfl)

/-- The second callback has accepted a connection under the same number. -/
def reused : Server :=
  { { closedInBatch with batch := threeReady.tail.tail, control := .accepting }.accept smallConfig 7
      100 true with control := .dispatching }

theorem reused_reachable : Reachable smallConfig 3 4 reused := by
  have haccepting : Reachable smallConfig 3 4
      { closedInBatch with batch := threeReady.tail.tail, control := .accepting } :=
    (closed_in_batch_reachable.tail (.ran rfl)).tail (.listen rfl rfl rfl)
  exact (haccepting.tail (.accept rfl (by decide) rfl)).tail (.accepted rfl)

/-- After the first connection has been closed, a second one is open under its number. -/
theorem connection_accounting_reused :
    reused.clients.map Client.closes = [1, 0] ∧ reused.connections = [(7, 1)] ∧
      reused.connectionCount = 1 ∧
      reused.connectionCount = reused.clients.countP Client.isOpen ∧
      reused.connectionCount ≤ 1 ∧
      ∀ c ∈ reused.clients, c.closes ≤ 1 ∧ (c.closes = 1 ↔ c.conn.state = .closed) := by
  obtain ⟨hcount, hlimit, -, hcloses, -⟩ := connection_accounting smallConfig 3 4 reused
    reused_reachable
  exact ⟨rfl, rfl, rfl, hcount, hlimit (by decide), hcloses⟩

end Server

end ApiGateway.Core
