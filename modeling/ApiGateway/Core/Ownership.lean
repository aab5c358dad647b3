import ApiGateway.Core.Server

/-!
# The owners of a connection

A `Connection` lives as long as some `shared_ptr` to it does. The gateway stores one in
`connections_` and captures one in each of its callbacks, in the jobs that it gives to the workers
and in the tasks that it defers. This module adds these owners to the reactor of
`ApiGateway.Core.Server` and shows which of them a closed connection keeps.

The closing paths remove the entry of the map and the callback of the event loop. The message
callback captures the connection that it is stored in, and no path resets it.
-/

namespace ApiGateway.Core

open Net

/-- A place that can hold a `shared_ptr<Connection>`: the entry of `connections_` and the callback
of the event loop under a number, the message callback stored in an object, a job in the queue of
the pool or with a worker, a deferred task, and the copy of the callback that `EventLoop::run` has
made for the call. -/
inductive Owner where
  | connections (fd : Int)
  | callback (fd : Int)
  | messageCallback (j : Nat)
  | queuedJob
  | runningJob
  | deferredTask
  | runningCallback
  deriving DecidableEq

/-- Whether an owner is about to use the connection and then go away. -/
def Owner.passing : Owner → Bool
  | .queuedJob | .runningJob | .deferredTask | .runningCallback => true
  | .connections _ | .callback _ | .messageCallback _ => false

/-- The connection that a task captures. -/
def ClientTask.captured : ClientTask → Nat
  | .send i _ _ => i
  | .close i => i

/-- The tasks of the current round that have not been run. -/
def Control.round : Control → List ClientTask
  | .running round => round
  | _ => []

/-- The connection whose callback is running. -/
def Control.inside : Control → Option Nat
  | .reading i _ | .writing i _ | .hanging i _ => some i
  | .waiting | .dispatching | .running _ | .accepting => none

/-- The reactor, with the connections that the message callback of each object, the queued jobs,
the jobs at work and the tasks already run in this round have captured. `run_deferred_tasks`
destroys the tasks of a round when it returns. -/
structure OwnedServer where
  server : Server
  messageCallback : Nat → Option Nat := fun _ => none
  queued : List Nat := []
  running : List Nat := []
  ran : List Nat := []

/-- The job that a handler of client `i` submits if it has read a whole message. -/
def jobs (i : Nat) (out : Outcome) : List Nat :=
  out.message.toList.map fun _ => i

namespace OwnedServer

/-- The gateway before its first connection. -/
def start (wakeupFd listenFd : Int) : OwnedServer where
  server := .start wakeupFd listenFd

/-- The callback for a new connection, which stores in the object a callback that captures it. -/
def accept (cfg : ServerConfig) (s : OwnedServer) (fd now : Int) (added : Bool) : OwnedServer :=
  if 0 < cfg.maxConnections ∧ cfg.maxConnections ≤ s.server.connectionCount then s
  else
    let i := s.server.clients.length
    { s with
      server := s.server.accept cfg fd now added
      messageCallback := Function.update s.messageCallback i (some i) }

/-- One step of the reactor or of a worker. The steps that change an object, end a task or defer a
response have an effect on the owners; the other steps of the reactor are `quiet`. -/
inductive Step (cfg : ServerConfig) : OwnedServer → OwnedServer → Prop where
  -- a handler that has read a message has changed its object, so it is not quiet
  | quiet {s : OwnedServer} {t : Server} (h : Server.Step cfg s.server t)
      (hclients : t.clients = s.server.clients)
      (hround : ∀ round, s.server.control = .running round → t.control = .running round)
      (hsends : ∀ i data keepAlive, .send i data keepAlive ∈ t.tasks →
        .send i data keepAlive ∈ s.server.tasks) :
      Step cfg s { s with server := t }
  | read {s : OwnedServer} {i fuel : Nat} {e : Ready} {c : Client} {now : Int} {b : Burst}
      {out : Outcome} (hcontrol : s.server.control = .reading i e) (hreadable : e.readable = true)
      (hc : s.server.clients[i]? = some c) (h : c.conn.onRead fuel b = some out) :
      Step cfg s { s with
        server := { s.server.settle i (Server.touch c [.reading] now) out.conn with
          control := .writing i e }
        queued := s.queued ++ jobs i out }
  | write {s : OwnedServer} {i fuel : Nat} {e : Ready} {c : Client} {now : Int} {w : WriteResults}
      {out : Outcome} (hcontrol : s.server.control = .writing i e) (hwritable : e.writable = true)
      (hc : s.server.clients[i]? = some c) (h : c.conn.onWrite fuel w = some out) :
      Step cfg s { s with
        server := { s.server.settle i (Server.touch c [.writing] now) out.conn with
          control := .hanging i e }
        queued := s.queued ++ jobs i out }
  | close {s : OwnedServer} {i : Nat} {c : Client} {round : List ClientTask}
      (hcontrol : s.server.control = .running (.close i :: round))
      (hc : s.server.clients[i]? = some c) :
      Step cfg s { s with
        server := { s.server.settle i c c.conn.closeInternal with control := .running round }
        ran := s.ran ++ [i] }
  | send {s : OwnedServer} {i fuel : Nat} {data : Bytes} {keepAlive : Bool}
      {round : List ClientTask} {c : Client} {now : Int} {w : WriteResults} {out : Outcome}
      (hcontrol : s.server.control = .running (.send i data keepAlive :: round))
      (hc : s.server.clients[i]? = some c)
      (h : c.conn.sendInternal fuel data keepAlive w = some out) :
      Step cfg s { s with
        server := { s.server.settle i (Server.touch c [.processing, .reading] now) out.conn with
          control := .running round }
        queued := s.queued ++ jobs i out
        ran := s.ran ++ [i] }
  | ran {s : OwnedServer} (hcontrol : s.server.control = .running []) :
      Step cfg s { s with server := { s.server with control := .dispatching }, ran := [] }
  | accept {s : OwnedServer} {fd now : Int} {added : Bool}
      (hcontrol : s.server.control = .accepting) (hfd : 0 ≤ fd)
      (hfree : s.server.kernel fd = none) : Step cfg s (s.accept cfg fd now added)
  | take {s : OwnedServer} {i : Nat} {rest : List Nat} (hqueued : s.queued = i :: rest) :
      Step cfg s { s with queued := rest, running := i :: s.running }
  | defer {s : OwnedServer} {i : Nat} (data : Bytes) (keepAlive : Bool) (hrunning : i ∈ s.running) :
      Step cfg s { s with
        server := { s.server with tasks := s.server.tasks ++ [.send i data keepAlive] } }
  | finish {s : OwnedServer} {i : Nat} {before after : List Nat}
      (hrunning : s.running = before ++ i :: after) :
      Step cfg s { s with running := before ++ after }

/-- The states of a gateway. -/
def Reachable (cfg : ServerConfig) (wakeupFd listenFd : Int) : OwnedServer → Prop :=
  Relation.ReflTransGen (Step cfg) (start wakeupFd listenFd)

/-- Whether an owner holds client `i`. -/
def Owns (s : OwnedServer) (i : Nat) : Owner → Prop
  | .connections fd => (fd, i) ∈ s.server.connections
  | .callback fd => s.server.callbacks fd = some (.client i)
  | .messageCallback j => s.messageCallback j = some i
  | .queuedJob => i ∈ s.queued
  | .runningJob => i ∈ s.running
  | .deferredTask =>
      i ∈ s.server.tasks.map ClientTask.captured ∨
        i ∈ s.server.control.round.map ClientTask.captured ∨ i ∈ s.ran
  | .runningCallback => s.server.control.inside = some i

instance (s : OwnedServer) (i : Nat) : (owner : Owner) → Decidable (s.Owns i owner)
  | .connections fd => inferInstanceAs (Decidable ((fd, i) ∈ s.server.connections))
  | .callback fd => inferInstanceAs (Decidable (s.server.callbacks fd = some (.client i)))
  | .messageCallback j => inferInstanceAs (Decidable (s.messageCallback j = some i))
  | .queuedJob => inferInstanceAs (Decidable (i ∈ s.queued))
  | .runningJob => inferInstanceAs (Decidable (i ∈ s.running))
  | .deferredTask => inferInstanceAs (Decidable (_ ∨ _ ∨ _))
  | .runningCallback => inferInstanceAs (Decidable (s.server.control.inside = some i))

/-- Client `i` is referenced by a queued or running job, a deferred task or a running callback. -/
def Referenced (s : OwnedServer) (i : Nat) : Prop :=
  ∃ owner : Owner, owner.passing = true ∧ s.Owns i owner

end OwnedServer

/-! ## The numbers of the connections -/

namespace Server

variable {cfg : ServerConfig} {s t : Server}

/-- A number in use for a connection is the number of an object that is not closed. -/
def Held (s : Server) : Prop :=
  ∀ fd i, s.kernel fd = some (.client i) →
    ∃ c, s.clients[i]? = some c ∧ c.conn.state ≠ .closed ∧ c.fd = fd

theorem held_start (wakeupFd listenFd : Int) : Held (start wakeupFd listenFd) := by
  intro fd i hfd
  simp only [start, Function.update_apply] at hfd
  split at hfd
  · cases hfd
  · split at hfd <;> cases hfd

theorem held_release (hs : Held s) {i : Nat} {c : Client} (hc : s.clients[i]? = some c)
    (conn : Connection) (lastActiveTime : Int) :
    Held (s.release i { c with lastActiveTime } conn) := by
  intro fd j hfd
  simp only [release, Function.update_apply] at hfd
  split at hfd
  · cases hfd
  · rename_i hne
    obtain ⟨d, hd, hopen, hdfd⟩ := hs fd j hfd
    have hij : j ≠ i := by
      rintro rfl
      cases hc.symm.trans hd
      exact hne hdfd.symm
    exact ⟨d, (Table.get_set_iff hc).2 (.inr ⟨hij, hd⟩), hopen, hdfd⟩

theorem held_set (hs : Held s) {i : Nat} {c : Client} {conn : Connection}
    (hc : s.clients[i]? = some c) (hopen : c.conn.state ≠ .closed → conn.state ≠ .closed)
    (lastActiveTime : Int) :
    Held { s with clients := s.clients.set i { c with conn, lastActiveTime } } := by
  intro fd j hfd
  obtain ⟨d, hd, hdopen, hdfd⟩ := hs fd j hfd
  by_cases hij : j = i
  · subst hij
    cases hc.symm.trans hd
    exact ⟨_, Table.get_set_self hc _, hopen hdopen, hdfd⟩
  · exact ⟨d, (Table.get_set_iff hc).2 (.inr ⟨hij, hd⟩), hdopen, hdfd⟩

theorem held_settle (hs : Held s) {i : Nat} {c : Client} (hc : s.clients[i]? = some c)
    (conn : Connection) (lastActiveTime : Int) :
    Held (s.settle i { c with lastActiveTime } conn) := by
  unfold settle
  split
  · exact held_release hs hc conn lastActiveTime
  · rename_i h
    exact held_set hs hc (fun hopen hclosed => h ⟨hopen, hclosed⟩) lastActiveTime

theorem held_handler (hs : Held s) {i : Nat} {c : Client} (hc : s.clients[i]? = some c)
    (conn : Connection) (active : List ConnState) (now : Int) :
    Held (s.settle i (touch c active now) conn) := by
  obtain ⟨lastActiveTime, htouch⟩ := touch_eq c active now
  rw [htouch]
  exact held_settle hs hc conn lastActiveTime

theorem held_accept (hs : Held s) (fd now : Int) (added : Bool) :
    Held (s.accept cfg fd now added) := by
  unfold accept
  split
  · exact hs
  · intro fd' j hfd
    simp only [Function.update_apply] at hfd
    split at hfd
    · rename_i hsame
      cases hfd
      exact ⟨_, Table.get_append_iff.2 (.inr ⟨rfl, rfl⟩), nofun, hsame.symm⟩
    · obtain ⟨d, hd, hopen, hdfd⟩ := hs fd' j hfd
      exact ⟨d, Table.get_append_of_some hd _, hopen, hdfd⟩

theorem held_other (hs : Held s) (fd : Int) {h : Option Holder}
    (hother : ∀ i, h ≠ some (.client i)) :
    Held { s with kernel := Function.update s.kernel fd h } := by
  intro fd' j hfd
  simp only [Function.update_apply] at hfd
  split at hfd
  · exact absurd hfd (hother j)
  · exact hs fd' j hfd

theorem held_step (hs : Held s) (h : Step cfg s t) : Held t := by
  cases h with
  | wait | skip | wakeup | listen | client | noRead | noWrite | noHangup | ran | accepted | finish
  | cleanup | defer => exact hs
  | read hcontrol hreadable hc h => exact held_handler hs hc _ _ _
  | write hcontrol hwritable hc h => exact held_handler hs hc _ _ _
  | send hcontrol hc h => exact held_handler hs hc _ _ _
  | @close i c round hcontrol hc => exact held_settle hs hc _ c.lastActiveTime
  | hangup hcontrol hhangup hc =>
      unfold forceClose
      split <;> exact hs
  | accept hcontrol hfd hfree => exact held_accept hs _ _ _
  | openOther hfd hfree => exact held_other hs _ nofun
  | closeOther hother => exact held_other hs _ nofun

theorem held_reachable {wakeupFd listenFd : Int} (h : Reachable cfg wakeupFd listenFd s) :
    Held s := by
  induction h with
  | refl => exact held_start wakeupFd listenFd
  | tail _ hstep ih => exact held_step ih hstep

theorem settle_clients_length (s : Server) (i : Nat) (c : Client) (conn : Connection) :
    (s.settle i c conn).clients.length = s.clients.length := by
  unfold settle
  split <;> exact List.length_set

end Server

/-! ## Runs -/

namespace OwnedServer

variable {cfg : ServerConfig} {wakeupFd listenFd : Int} {s t : OwnedServer}

theorem accept_server (cfg : ServerConfig) (s : OwnedServer) (fd now : Int) (added : Bool) :
    (s.accept cfg fd now added).server = s.server.accept cfg fd now added := by
  unfold accept Server.accept
  split <;> rfl

/-- With the owners left out, a step is one of the reactor or none. -/
theorem server_step (h : Step cfg s t) :
    t.server = s.server ∨ Server.Step cfg s.server t.server := by
  cases h with
  | quiet h => exact .inr h
  | read hcontrol hreadable hc h => exact .inr (.read hcontrol hreadable hc h)
  | write hcontrol hwritable hc h => exact .inr (.write hcontrol hwritable hc h)
  | close hcontrol hc => exact .inr (.close hcontrol hc)
  | send hcontrol hc h => exact .inr (.send hcontrol hc h)
  | ran hcontrol => exact .inr (.ran hcontrol)
  | accept hcontrol hfd hfree =>
      rw [accept_server]
      exact .inr (.accept hcontrol hfd hfree)
  | defer data keepAlive hrunning => exact .inr (.defer _ data keepAlive)
  | take | finish => exact .inl rfl

theorem server_reachable (h : Reachable cfg wakeupFd listenFd s) :
    Server.Reachable cfg wakeupFd listenFd s.server := by
  induction h with
  | refl => exact .refl
  | tail _ hstep ih =>
      rcases server_step hstep with hsame | hserver
      · rw [hsame]
        exact ih
      · exact ih.tail hserver

/-- The message callback of each object captures that object. -/
def SelfCaptured (s : OwnedServer) : Prop :=
  ∀ j, s.messageCallback j = if j < s.server.clients.length then some j else none

theorem SelfCaptured.congr (hs : SelfCaptured s) (hcallback : t.messageCallback = s.messageCallback)
    (hlength : t.server.clients.length = s.server.clients.length) : SelfCaptured t := by
  intro j
  rw [hcallback, hlength]
  exact hs j

theorem self_captured_accept (hs : SelfCaptured s) (fd now : Int) (added : Bool) :
    SelfCaptured (s.accept cfg fd now added) := by
  unfold accept
  split
  · exact hs
  · rename_i hlimit
    intro j
    have hlength : (s.server.accept cfg fd now added).clients.length =
        s.server.clients.length + 1 := by
      simp only [Server.accept, if_neg hlimit, List.length_append, List.length_singleton]
    simp only [Function.update_apply, hlength, hs j]
    by_cases hj : j = s.server.clients.length
    · rw [if_pos hj, if_pos (by omega), hj]
    · rw [if_neg hj]
      by_cases hlt : j < s.server.clients.length
      · rw [if_pos hlt, if_pos (by omega)]
      · rw [if_neg hlt, if_neg (by omega)]

theorem self_captured_step (hs : SelfCaptured s) (h : Step cfg s t) : SelfCaptured t := by
  cases h with
  | quiet h hclients => exact hs.congr rfl (congrArg List.length hclients)
  | read | write | close | send => exact hs.congr rfl (Server.settle_clients_length _ _ _ _)
  | accept hcontrol hfd hfree => exact self_captured_accept hs _ _ _
  | ran | take | defer | finish => exact hs.congr rfl rfl

/-- No step resets a message callback. -/
theorem self_captured_reachable (h : Reachable cfg wakeupFd listenFd s) : SelfCaptured s := by
  induction h with
  | refl => exact fun j => rfl
  | tail _ hstep ih => exact self_captured_step ih hstep

/-- A closed connection has left the map. -/
theorem not_owns_connections (h : Reachable cfg wakeupFd listenFd s) {i : Nat} {c : Client}
    (hc : s.server.clients[i]? = some c) (hclosed : c.conn.state = .closed) (fd : Int) :
    ¬ s.Owns i (.connections fd) := by
  intro hentry
  obtain ⟨d, hd, hopen, -⟩ := (Server.inv_reachable (server_reachable h)).entries fd i hentry
  cases hc.symm.trans hd
  exact hopen hclosed

/-- A closed connection has left the event loop. -/
theorem not_owns_callback (h : Reachable cfg wakeupFd listenFd s) {i : Nat} {c : Client}
    (hc : s.server.clients[i]? = some c) (hclosed : c.conn.state = .closed) (fd : Int) :
    ¬ s.Owns i (.callback fd) := by
  intro hcallback
  obtain ⟨hkernel, -⟩ := (Server.inv_reachable (server_reachable h)).callbacks fd _ hcallback
  obtain ⟨d, hd, hopen, -⟩ := Server.held_reachable (server_reachable h) fd i hkernel
  cases hc.symm.trans hd
  exact hopen hclosed

/-- A closed connection that nothing is about to use is never released: its own message callback
holds it, and is the only owner that does. -/
theorem closed_never_released (cfg : ServerConfig) (wakeupFd listenFd : Int) (s : OwnedServer)
    (h : Reachable cfg wakeupFd listenFd s) (i : Nat) (c : Client)
    (hc : s.server.clients[i]? = some c) (hclosed : c.conn.state = .closed)
    (hunused : ¬ s.Referenced i) :
    ¬ (∀ owner, ¬ s.Owns i owner) ∧ ∀ owner, s.Owns i owner ↔ owner = .messageCallback i := by
  have hself := self_captured_reachable h
  have hlength : i < s.server.clients.length := (List.getElem?_eq_some_iff.1 hc).1
  have hitself : s.Owns i (.messageCallback i) := (hself i).trans (if_pos hlength)
  refine ⟨fun hnone => hnone _ hitself, fun owner => ⟨fun howns => ?_, ?_⟩⟩
  · cases owner with
    | connections fd => exact absurd howns (not_owns_connections h hc hclosed fd)
    | callback fd => exact absurd howns (not_owns_callback h hc hclosed fd)
    | messageCallback j =>
        have hj : s.messageCallback j = some i := howns
        rw [hself j] at hj
        split at hj <;> cases hj
        rfl
    | queuedJob | runningJob | deferredTask | runningCallback =>
        exact absurd ⟨_, rfl, howns⟩ hunused
  · rintro rfl
    exact hitself

/-- The one client of `Server.firstAccepted` is ready to read. -/
def readyToRead : Ready where
  fd := 7
  holder := .client 0
  readable := true

/-- That client has disconnected, and its callback has returned. -/
def disconnected : OwnedServer where
  server := { Server.firstAccepted.settle 0 (.create 65536 7 0)
      (Connection.accept 65536).closeInternal with control := .dispatching }
  messageCallback := Function.update (fun _ => none) 0 (some 0)

theorem accepting_reachable : Reachable Server.smallConfig 3 4
    { server := { Server.start 3 4 with control := .accepting } } := by
  have hwait : Step Server.smallConfig (start 3 4) _ :=
    .quiet (.wait [{ fd := 4, holder := .listen, readable := true }] rfl
      (by simp [start, Server.start])) rfl (by rintro _ ⟨⟩) fun _ _ _ h => h
  exact (Relation.ReflTransGen.single hwait).tail
    (.quiet (.listen rfl rfl rfl) rfl (by rintro _ ⟨⟩) fun _ _ _ h => h)

theorem reading_reachable : Reachable Server.smallConfig 3 4
    { server := { Server.firstAccepted with control := .reading 0 readyToRead }
      messageCallback := Function.update (fun _ => none) 0 (some 0) } := by
  have haccepted : Reachable Server.smallConfig 3 4
      { server := Server.firstAccepted
        messageCallback := Function.update (fun _ => none) 0 (some 0) } :=
    accepting_reachable.tail (@Step.accept _ _ 7 0 true rfl (by decide) rfl)
  have hdispatching := haccepted.tail
    (.quiet (.accepted rfl) rfl (by rintro _ ⟨⟩) fun _ _ _ h => h)
  have hwaiting := hdispatching.tail
    (.quiet (.finish rfl rfl) rfl (by rintro _ ⟨⟩) fun _ _ _ h => h)
  have hbatch := hwaiting.tail
    (.quiet (.wait [readyToRead] rfl (by simp [readyToRead, Server.firstAccepted, Server.accept,
      Server.start, Server.smallConfig])) rfl (by rintro _ ⟨⟩) fun _ _ _ h => h)
  exact hbatch.tail (.quiet (.client rfl rfl rfl) rfl (by rintro _ ⟨⟩) fun _ _ _ h => h)

theorem disconnected_reachable : Reachable Server.smallConfig 3 4 disconnected := by
  have hread := reading_reachable.tail
    (@Step.read _ _ 0 0 readyToRead (.create 65536 7 0) 0 ⟨[], .eof, nofun⟩
      { conn := (Connection.accept 65536).closeInternal } rfl rfl rfl rfl)
  exact (hread.tail (.quiet (.noWrite rfl rfl) rfl (by rintro _ ⟨⟩) fun _ _ _ h => h)).tail
    (.quiet (.noHangup rfl rfl) rfl (by rintro _ ⟨⟩) fun _ _ _ h => h)

theorem disconnected_unused : ¬ disconnected.Referenced 0 := by
  rintro ⟨owner, hpassing, howns⟩
  cases owner with
  | connections | callback | messageCallback => cases hpassing
  | queuedJob | runningJob => cases howns
  | deferredTask => revert howns; decide
  | runningCallback => cases howns

/-- A client that has come and gone is held by its own message callback only. -/
theorem closed_never_released_disconnected :
    ¬ (∀ owner, ¬ disconnected.Owns 0 owner) ∧
      ∀ owner, disconnected.Owns 0 owner ↔ owner = .messageCallback 0 :=
  closed_never_released Server.smallConfig 3 4 disconnected disconnected_reachable 0 _ rfl rfl
    disconnected_unused

/-- Nothing is going to use the connection, and yet it has an owner. -/
theorem connection_leaked : ∃ s, Reachable Server.smallConfig 3 4 s ∧
    (∃ c, s.server.clients[0]? = some c ∧ c.conn.state = .closed) ∧ ¬ s.Referenced 0 ∧
      s.Owns 0 (.messageCallback 0) :=
  ⟨disconnected, disconnected_reachable, ⟨_, rfl, rfl⟩, disconnected_unused, rfl⟩

end OwnedServer

end ApiGateway.Core
