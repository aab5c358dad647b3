import ApiGateway.Core.Server

/-!
# Dispatching events

`EventLoop::run` looks up the callback of an event by the number of its descriptor. While a batch
is being dispatched, a callback can close the descriptor of a later entry, and another can accept a
connection that the kernel gives the same number. The main result, `dispatch_to_holder`, says that
this is the only way in which an event can reach a callback that was registered for another file.
-/

namespace ApiGateway.Core.Server

open Net

variable {cfg : ServerConfig} {s t : Server}

/-- A connection that a step creates does not get the number of an entry that is still to be
dispatched. -/
def KeepsNumbers (s t : Server) : Prop :=
  ∀ c, t.clients[s.clients.length]? = some c → ∀ e ∈ s.batch, e.fd ≠ c.fd

/-- The states of a gateway whose kernel keeps the numbers of a batch out of use. -/
def ReachableKept (cfg : ServerConfig) (wakeupFd listenFd : Int) : Server → Prop :=
  Relation.ReflTransGen (fun s t => Step cfg s t ∧ KeepsNumbers s t) (start wakeupFd listenFd)

/-- The callbacks for the entries still to be dispatched are gone or are those of the files that
have produced the entries. -/
def Matches (s : Server) : Prop :=
  ∀ e ∈ s.batch, s.callbacks e.fd = none ∨ s.callbacks e.fd = some e.holder

/-- Removing callbacks and dispatching entries keeps the rest of the batch matched. -/
theorem Matches.mono (hs : Matches s) (hbatch : ∀ e ∈ t.batch, e ∈ s.batch)
    (hcallbacks : ∀ fd, t.callbacks fd = none ∨ t.callbacks fd = s.callbacks fd) : Matches t := by
  intro e he
  rcases hcallbacks e.fd with hnone | hsame
  · exact .inl hnone
  · rw [hsame]
    exact hs e (hbatch e he)

theorem settle_callbacks (s : Server) (i : Nat) (c : Client) (conn : Connection) (fd : Int) :
    (s.settle i c conn).callbacks fd = none ∨
      (s.settle i c conn).callbacks fd = s.callbacks fd := by
  unfold settle
  split
  · simp only [release, Function.update_apply]
    split
    · exact .inl rfl
    · exact .inr rfl
  · exact .inr rfl

theorem settle_batch (s : Server) (i : Nat) (c : Client) (conn : Connection) :
    (s.settle i c conn).batch = s.batch := by
  unfold settle
  split <;> rfl

theorem force_close_same (s : Server) (i : Nat) (c : Client) :
    (s.forceClose i c).batch = s.batch ∧ (s.forceClose i c).callbacks = s.callbacks := by
  unfold forceClose
  split <;> exact ⟨rfl, rfl⟩

/-- A batch starts with the callbacks of the files that have produced it. -/
theorem matches_wait (hs : Inv cfg s) {batch : List Ready}
    (hready : ∀ e ∈ batch, s.registered e.fd = true ∧ s.kernel e.fd = some e.holder) :
    Matches { s with batch := batch, control := .dispatching } := by
  intro e he
  obtain ⟨hregistered, hkernel⟩ := hready e he
  obtain ⟨h, hh⟩ := Option.ne_none_iff_exists'.1 (hs.registered e.fd hregistered)
  have hsame := (hs.callbacks e.fd h hh).1
  rw [hkernel] at hsame
  cases hsame
  exact .inr hh

/-- A new connection whose number is not in the batch. -/
theorem matches_accept (hs : Matches s) {fd now : Int} {added : Bool}
    (hkept : KeepsNumbers s (s.accept cfg fd now added)) : Matches (s.accept cfg fd now added) := by
  unfold KeepsNumbers at hkept
  unfold accept at hkept ⊢
  split
  · exact hs
  · rename_i hlimit
    rw [if_neg hlimit] at hkept
    intro e he
    have hne : e.fd ≠ fd := hkept (.create cfg.maxRequestSize fd now) (by simp) e he
    have hsame := Function.update_of_ne hne (some (Holder.client s.clients.length)) s.callbacks
    show Function.update s.callbacks fd _ e.fd = none ∨ Function.update s.callbacks fd _ e.fd = _
    rw [hsame]
    exact hs e he

theorem matches_step (hinv : Inv cfg s) (hs : Matches s) (h : Step cfg s t)
    (hkept : KeepsNumbers s t) : Matches t := by
  cases h with
  | wait batch hcontrol hready => exact matches_wait hinv hready
  | skip hcontrol hbatch | wakeup hcontrol hbatch | listen hcontrol hbatch
  | client hcontrol hbatch =>
      exact hs.mono (fun e he => by rw [hbatch]; exact List.mem_cons_of_mem _ he) fun _ => .inr rfl
  | read hcontrol hreadable hc h | write hcontrol hwritable hc h | send hcontrol hc h
  | close hcontrol hc =>
      exact hs.mono (fun e he => (settle_batch ..) ▸ he) fun fd => settle_callbacks ..
  | hangup hcontrol hhangup hc =>
      obtain ⟨hbatch, hcallbacks⟩ := force_close_same s _ _
      exact hs.mono (fun e he => hbatch ▸ he) fun fd => .inr (congrFun hcallbacks fd)
  | noRead | noWrite | noHangup | ran | accepted | finish | cleanup | defer | openOther
  | closeOther => exact hs.mono (fun e he => he) fun _ => .inr rfl
  | accept hcontrol hfd hfree => exact matches_accept hs hkept

theorem matches_reachable {wakeupFd listenFd : Int} (h : ReachableKept cfg wakeupFd listenFd s) :
    Matches s := by
  induction h with
  | refl => exact nofun
  | tail hrun hstep ih =>
      have hreach := Relation.ReflTransGen.mono (fun _ _ h => h.1) _ _ hrun
      exact matches_step (inv_reachable hreach) ih hstep.1 hstep.2

/-- In every run in which no new connection gets the number of an entry still to be dispatched, a
callback is called for an entry only if it has been registered for the file that has produced
it. -/
theorem dispatch_to_holder (cfg : ServerConfig) (wakeupFd listenFd : Int) (s : Server)
    (hs : ReachableKept cfg wakeupFd listenFd s) (e : Ready) (rest : List Ready)
    (hbatch : s.batch = e :: rest) (callback : Holder)
    (hcallback : s.callbacks e.fd = some callback) : callback = e.holder := by
  rcases matches_reachable hs e (by simp [hbatch]) with hnone | hsame
  · rw [hcallback] at hnone
    cases hnone
  · rw [hcallback] at hsame
    exact Option.some.inj hsame

theorem KeepsNumbers.of_clients (h : t.clients = s.clients) : KeepsNumbers s t := by
  intro c hc
  simp [h] at hc

/-- A gateway for two connections at a time. -/
def pairConfig : ServerConfig :=
  { smallConfig with maxConnections := 2 }

/-- The listening socket and the first connection are ready. -/
def bothReady : List Ready :=
  [{ fd := 4, holder := .listen, readable := true },
    { fd := 7, holder := .client 0, hangup := true }]

/-- The first connection has been accepted. -/
def oneOpen : Server :=
  { { start 3 4 with control := .accepting }.accept pairConfig 7 0 true with control := .waiting }

theorem one_open_kept : ReachableKept pairConfig 3 4 oneOpen := by
  have hlistening : ReachableKept pairConfig 3 4 { start 3 4 with control := .accepting } := by
    have hwait : Step pairConfig (start 3 4)
        { start 3 4 with
          batch := [{ fd := 4, holder := .listen, readable := true }], control := .dispatching } :=
      .wait _ rfl (by simp [start])
    exact .tail (.single ⟨hwait, .of_clients rfl⟩) ⟨.listen rfl rfl rfl, .of_clients rfl⟩
  have haccept : Step pairConfig { start 3 4 with control := .accepting }
      ({ start 3 4 with control := .accepting }.accept pairConfig 7 0 true) :=
    .accept rfl (by decide) rfl
  have haccepted := hlistening.tail ⟨haccept, fun c hc e he => (by cases he)⟩
  exact (haccepted.tail ⟨.accepted rfl, .of_clients rfl⟩).tail ⟨.finish rfl rfl, .of_clients rfl⟩

/-- A second one has been accepted, in front of the entry of the first. -/
def besideFirst : Server :=
  { { oneOpen with batch := bothReady.tail, control := .accepting }.accept pairConfig 8 0 true with
    control := .dispatching }

theorem beside_first_kept : ReachableKept pairConfig 3 4 besideFirst := by
  have hwait :
      Step pairConfig oneOpen { oneOpen with batch := bothReady, control := .dispatching } :=
    .wait _ rfl (by decide)
  have hlistening := (one_open_kept.tail ⟨hwait, .of_clients rfl⟩).tail
    ⟨.listen rfl rfl rfl, .of_clients rfl⟩
  have haccept : Step pairConfig { oneOpen with batch := bothReady.tail, control := .accepting }
      ({ oneOpen with batch := bothReady.tail, control := .accepting }.accept
        pairConfig 8 0 true) :=
    .accept rfl (by decide) rfl
  refine (hlistening.tail ⟨haccept, fun c hc e he => ?_⟩).tail ⟨.accepted rfl, .of_clients rfl⟩
  cases hc
  cases List.mem_singleton.1 he
  decide

/-- The hangup of the first connection reaches its callback, although another connection has been
accepted while its entry was waiting. -/
theorem dispatch_to_first :
    besideFirst.batch = [{ fd := 7, holder := .client 0, hangup := true }] ∧
      besideFirst.callbacks 7 = some (.client 0) ∧
      ∀ callback, besideFirst.callbacks 7 = some callback → callback = .client 0 :=
  ⟨rfl, rfl, dispatch_to_holder pairConfig 3 4 besideFirst beside_first_kept _ _ rfl⟩

/-! ## A reused number -/

/-- A hangup reaches the connection whose callback is registered under the number. -/
theorem hangup_closes {e : Ready} {rest : List Ready} {j : Nat} {c : Client}
    (hcontrol : s.control = .dispatching) (hbatch : s.batch = e :: rest)
    (hcallback : s.callbacks e.fd = some (.client j)) (hc : s.clients[j]? = some c)
    (hopen : c.conn.state ≠ .closed) (hreadable : e.readable = false)
    (hwritable : e.writable = false) (hhangup : e.hangup = true) :
    ∃ t, Relation.ReflTransGen (Step cfg) s t ∧ t.tasks = s.tasks ++ [.close j] := by
  refine ⟨_, .tail (.tail (.tail (.single (.client hcontrol hbatch hcallback))
    (.noRead rfl hreadable)) (.noWrite rfl hwritable)) (.hangup rfl hhangup hc), ?_⟩
  simp only [forceClose, if_neg hopen]

/-- The hangup of the first connection reaches the callback of the second one and closes it. -/
theorem dispatch_to_other :
    Reachable smallConfig 3 4 reused ∧
      reused.batch = [{ fd := 7, holder := .client 0, hangup := true }] ∧
      reused.callbacks 7 = some (.client 1) ∧
      ∃ t, Relation.ReflTransGen (Step smallConfig) reused t ∧ t.tasks = [.close 1] := by
  have hclient : reused.clients[1]? = some (.create 65536 7 100) := rfl
  exact ⟨reused_reachable, rfl, rfl, hangup_closes rfl rfl rfl hclient nofun rfl rfl rfl⟩

end ApiGateway.Core.Server
