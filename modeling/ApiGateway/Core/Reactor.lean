import ApiGateway.Core.Gateway
import ApiGateway.Library.Table
import ApiGateway.Net.Defer
import ApiGateway.Net.Replies

/-!
# The reactor, the workers and the deferred tasks

The gateway as an interleaving system: the reactor thread handles events of the connections and
runs deferred tasks in rounds, and workers take messages from the queue of the thread pool, process
them and defer the replies. Connections are numbered; a connection that has not been accepted yet
is one without events.

A message is carried by the job or the deferred task that its reply depends on, identified by the
number of its connection and its place among the messages of that connection. The invariant `Inv`
says that every message that has no reply yet is carried exactly once, so every step of the system
is a step of a `Session` or leaves all sessions as they are. The executions of `process_request` are
recorded with all that they have learnt from the rest of the gateway, so that every reply can be
traced to the one execution that it comes from. The main result is `replies_in_order`.
-/

namespace ApiGateway.Core

open Net Http

/-- A message submitted to the thread pool. -/
structure Job where
  conn : Nat
  index : Nat
  raw : Bytes

/-- A task given to `EventLoop::defer`: by `Connection::send` or by `Connection::force_close`. -/
inductive Task where
  | send (conn index : Nat) (data : Bytes) (keepAlive : Bool)
  | close (conn : Nat)

/-- An execution of `process_request`: the message, and what the worker has learnt on its way. -/
structure Execution where
  conn : Nat
  index : Nat
  raw : Bytes
  env : Environment

/-- Whether an execution is one of message `k` of connection `i`. -/
def Execution.isOf (i k : Nat) (e : Execution) : Bool :=
  e.conn == i && e.index == k

/-- The response that an execution has given to its connection. -/
def Execution.Answers (e : Execution) (data : Bytes) : Prop :=
  ∃ keepAlive, responsesOf (processRequest e.env e.raw) = [(data, keepAlive)]

/-- Whether a job carries message `k` of connection `i`. -/
def Job.carries (i k : Nat) (j : Job) : Bool :=
  j.conn == i && j.index == k

/-- Whether a task carries the reply to message `k` of connection `i`. -/
def Task.carries (i k : Nat) : Task → Bool
  | .send conn index _ _ => conn == i && index == k
  | .close _ => false

/-- The sessions of all connections, the queue of the thread pool, the jobs that workers are
running, the tasks deferred since the last round, those left over from it, and those that the
round in progress has still to run; and all executions of `process_request` so far. -/
structure System where
  sessions : Nat → Session
  queue : List Job := []
  running : List Job := []
  deferred : List Task := []
  pending : List Task := []
  batch : List Task := []
  executions : List Execution := []

namespace System

/-- A gateway without activity. -/
def start (maxRequestSize : Int) : System :=
  { sessions := fun _ => .accept maxRequestSize }

/-- A connection has changed, and `message_callback_` submits the message it has found. -/
def update (s : System) (i : Nat) (t : Session) (message : Option Bytes) : System :=
  { s with
    sessions := Function.update s.sessions i t
    queue := s.queue ++ message.toList.map (Job.mk i (s.sessions i).messages.length) }

/-- `force_close`. -/
def forceClose (s : System) (i : Nat) : System :=
  if (s.sessions i).conn.state = .closed then s
  else { s with deferred := s.deferred ++ [.close i] }

/-- One step of the gateway: an event of a connection, a hang-up or an idle connection that is to
be closed, a worker that takes a job or finishes one, the start of a round of deferred tasks, or
one task of the round. -/
inductive Step (maxDeferredPerRound : Int) : System → System → Prop where
  | read {s : System} {i fuel : Nat} {b : Burst} {out : Outcome}
      (h : (s.sessions i).conn.onRead fuel b = some out) :
      Step maxDeferredPerRound s (s.update i
        { (s.sessions i).record out with
          received := (s.sessions i).received ++ (s.sessions i).taken b } out.message)
  | write {s : System} {i fuel : Nat} {w : WriteResults} {out : Outcome}
      (h : (s.sessions i).conn.onWrite fuel w = some out) :
      Step maxDeferredPerRound s (s.update i ((s.sessions i).record out) out.message)
  | forceClose {s : System} (i : Nat) : Step maxDeferredPerRound s (s.forceClose i)
  | take {s : System} {j : Job} {rest : List Job} (h : s.queue = j :: rest) :
      Step maxDeferredPerRound s { s with queue := rest, running := j :: s.running }
  | process {s : System} {before after : List Job} {j : Job} (env : Environment)
      (h : s.running = before ++ j :: after) :
      Step maxDeferredPerRound s { s with
        running := before ++ after
        deferred := s.deferred ++ (responsesOf (processRequest env j.raw)).map
          fun r => .send j.conn j.index r.1 r.2
        executions := s.executions ++ [⟨j.conn, j.index, j.raw, env⟩] }
  | round {s : System} (h : s.batch = []) :
      Step maxDeferredPerRound s { s with
        batch := (roundTasks maxDeferredPerRound (s.pending ++ s.deferred)).1
        pending := (roundTasks maxDeferredPerRound (s.pending ++ s.deferred)).2
        deferred := [] }
  | send {s : System} {i k fuel : Nat} {data : Bytes} {keepAlive : Bool} {rest : List Task}
      {w : WriteResults} {out : Outcome} (h : s.batch = .send i k data keepAlive :: rest)
      (hsend : (s.sessions i).conn.sendInternal fuel data keepAlive w = some out) :
      Step maxDeferredPerRound s { s.update i
        { (s.sessions i).record out with responses := (s.sessions i).responses ++ [data] }
        out.message with batch := rest }
  | close {s : System} {i : Nat} {rest : List Task} (h : s.batch = .close i :: rest) :
      Step maxDeferredPerRound s { s.update i
        { s.sessions i with conn := (s.sessions i).conn.closeInternal } none with batch := rest }

/-- The states of a gateway with the given limits. -/
def Reachable (maxRequestSize maxDeferredPerRound : Int) : System → Prop :=
  Relation.ReflTransGen (Step maxDeferredPerRound) (start maxRequestSize)

/-! ## Carriers -/

/-- The number of jobs and tasks that the reply to message `k` of connection `i` depends on. -/
def carriers (s : System) (i k : Nat) : Nat :=
  (s.queue ++ s.running).countP (Job.carries i k) +
    (s.deferred ++ s.pending ++ s.batch).countP (Task.carries i k)

/-- The number of times that message `k` of connection `i` has been processed or is to be. -/
def handlings (s : System) (i k : Nat) : Nat :=
  (s.queue ++ s.running).countP (Job.carries i k) + s.executions.countP (Execution.isOf i k)

/-- The response comes from an execution for message `k` of connection `i`. -/
def Traced (s : System) (i k : Nat) (data : Bytes) : Prop :=
  ∃ e ∈ s.executions, e.isOf i k = true ∧ e.Answers data

/-- The invariant of all reachable states. -/
structure Inv (limit : Int) (s : System) : Prop where
  sessions : ∀ i, Session.Reachable limit (s.sessions i)
  once : ∀ i k, s.carriers i k =
    if (s.sessions i).responses.length ≤ k ∧ k < (s.sessions i).messages.length then 1 else 0
  handled : ∀ i k, s.handlings i k = if k < (s.sessions i).messages.length then 1 else 0
  jobs : ∀ j ∈ s.queue ++ s.running, (s.sessions j.conn).messages[j.index]? = some j.raw
  executions : ∀ e ∈ s.executions, (s.sessions e.conn).messages[e.index]? = some e.raw
  tasks : ∀ (i k : Nat) (data : Bytes) (keepAlive : Bool),
    .send i k data keepAlive ∈ s.deferred ++ s.pending ++ s.batch → s.Traced i k data
  responses : ∀ (i k : Nat) (data : Bytes), (s.sessions i).responses[k]? = some data →
    s.Traced i k data

variable {s : System} {limit : Int} {i : Nat}

theorem inv_start (limit : Int) : Inv limit (start limit) where
  sessions := fun _ => .refl
  once := fun i k => by simp [carriers, start, Session.accept]
  handled := fun i k => by simp [handlings, start, Session.accept]
  jobs := by simp [start]
  executions := by simp [start]
  tasks := by simp [start]
  responses := by simp [start, Session.accept]

/-- The new message of a connection is carried by its job. -/
theorem new_jobs (s : System) (i : Nat) (message : Option Bytes) (i' k : Nat) :
    (message.toList.map (Job.mk i (s.sessions i).messages.length)).countP (Job.carries i' k) =
      if i' = i ∧ k = (s.sessions i).messages.length ∧ message.isSome then 1 else 0 := by
  cases message with
  | none => simp
  | some m =>
      have hjob : Job.carries i' k ⟨i, (s.sessions i).messages.length, m⟩ =
          decide (i' = i ∧ k = (s.sessions i).messages.length) := by
        rw [Job.carries, Bool.eq_iff_iff, Bool.and_eq_true, beq_iff_eq, beq_iff_eq,
          decide_eq_true_eq]
        exact and_congr eq_comm eq_comm
      simp [hjob]

theorem carriers_update (s : System) (i : Nat) (t : Session) (message : Option Bytes)
    (batch : List Task) (i' k : Nat) :
    { s.update i t message with batch := batch }.carriers i' k +
        s.batch.countP (Task.carries i' k) =
      s.carriers i' k + batch.countP (Task.carries i' k) +
        if i' = i ∧ k = (s.sessions i).messages.length ∧ message.isSome then 1 else 0 := by
  simp only [carriers, System.update, List.countP_append, new_jobs]
  omega

theorem handlings_update (s : System) (i : Nat) (t : Session) (message : Option Bytes)
    (batch : List Task) (i' k : Nat) :
    { s.update i t message with batch := batch }.handlings i' k =
      s.handlings i' k +
        if i' = i ∧ k = (s.sessions i).messages.length ∧ message.isSome then 1 else 0 := by
  simp only [handlings, System.update, List.countP_append, new_jobs]
  omega

section Update

variable {t : Session} {message : Option Bytes} {answered : List Bytes} {batch : List Task}

theorem sessions_update_self : (s.update i t message).sessions i = t := by
  simp [System.update]

theorem sessions_update_of_ne {i' : Nat} (hi : i' ≠ i) :
    (s.update i t message).sessions i' = s.sessions i' := by
  simp [System.update, hi]

/-- The messages found before are still there. -/
theorem messages_update (hmessages : t.messages = (s.sessions i).messages ++ message.toList)
    {i' k : Nat} {m : Bytes} (hm : (s.sessions i').messages[k]? = some m) :
    ((s.update i t message).sessions i').messages[k]? = some m := by
  by_cases hi : i' = i
  · subst hi
    rw [sessions_update_self, hmessages]
    exact Table.get_append_of_some hm _
  · rwa [sessions_update_of_ne hi]

/-- The carriers of a message after connection `i` has replied to some messages and found one. -/
theorem once_update (hs : Inv limit s)
    (hmessages : t.messages = (s.sessions i).messages ++ message.toList)
    (hresponses : t.responses = (s.sessions i).responses ++ answered)
    (hle : t.responses.length ≤ (s.sessions i).messages.length)
    (hcarried : ∀ i' k, s.batch.countP (Task.carries i' k) = batch.countP (Task.carries i' k) +
      if i' = i ∧ (s.sessions i).responses.length ≤ k ∧ k < t.responses.length then 1 else 0)
    (i' k : Nat) :
    { s.update i t message with batch := batch }.carriers i' k =
      if ((s.update i t message).sessions i').responses.length ≤ k ∧
        k < ((s.update i t message).sessions i').messages.length then 1 else 0 := by
  have hcount := carriers_update s i t message batch i' k
  rw [hcarried i' k, hs.once i' k] at hcount
  by_cases hi : i' = i
  · subst hi
    simp only [sessions_update_self]
    have hlength : t.messages.length = (s.sessions i').messages.length + message.toList.length := by
      rw [hmessages, List.length_append]
    have hresp : (s.sessions i').responses.length ≤ t.responses.length := by
      rw [hresponses, List.length_append]
      omega
    -- message `k` is old and unanswered, has just been answered, or is the new one
    cases message with
    | none =>
        simp only [true_and, Option.isSome_none, Bool.false_eq_true, and_false, if_false,
          Option.toList_none, List.length_nil] at hcount hlength
        split at hcount <;> split at hcount <;> split <;> omega
    | some m =>
        simp only [true_and, Option.isSome_some, and_true, Option.toList_some,
          List.length_singleton] at hcount hlength
        split at hcount <;> split at hcount <;> split at hcount <;> split <;> omega
  · simp only [sessions_update_of_ne hi]
    simp only [hi, false_and, if_false, Nat.add_zero] at hcount
    omega

/-- A new message is to be handled once. -/
theorem handled_update (hs : Inv limit s)
    (hmessages : t.messages = (s.sessions i).messages ++ message.toList) (i' k : Nat) :
    { s.update i t message with batch := batch }.handlings i' k =
      if k < ((s.update i t message).sessions i').messages.length then 1 else 0 := by
  rw [handlings_update, hs.handled i' k]
  by_cases hi : i' = i
  · subst hi
    have hlength : t.messages.length = (s.sessions i').messages.length + message.toList.length := by
      rw [hmessages, List.length_append]
    rw [sessions_update_self]
    cases message with
    | none => simp [hlength]
    | some m =>
        simp only [true_and, Option.isSome_some, and_true, Option.toList_some,
          List.length_singleton] at hlength ⊢
        split <;> split <;> split <;> omega
  · have hother : ¬ (i' = i ∧ k = (s.sessions i).messages.length ∧ message.isSome = true) :=
      fun h => hi h.1
    rw [sessions_update_of_ne hi, if_neg hother, Nat.add_zero]

/-- Every response of connection `i`, old or new, comes from an execution for the message of the
same number. -/
theorem responses_update (hs : Inv limit s)
    (hresponses : t.responses = (s.sessions i).responses ++ answered)
    (hanswered : ∀ (k : Nat) (data : Bytes), answered[k]? = some data →
      s.Traced i ((s.sessions i).responses.length + k) data) {i' k : Nat} {data : Bytes}
    (hdata : ((s.update i t message).sessions i').responses[k]? = some data) :
    s.Traced i' k data := by
  by_cases hi : i' = i
  · subst hi
    rw [sessions_update_self, hresponses] at hdata
    by_cases hk : k < (s.sessions i').responses.length
    · rw [List.getElem?_append_left hk] at hdata
      exact hs.responses i' k data hdata
    · rw [List.getElem?_append_right (by omega)] at hdata
      have hnew := hanswered _ data hdata
      rwa [Nat.add_sub_cancel' (by omega)] at hnew
  · rw [sessions_update_of_ne hi] at hdata
    exact hs.responses i' k data hdata

/-- Connection `i` has become `t`, has found `message`, and has replied to as many messages as
`answered` says; `batch` is what the round has still to run. -/
theorem Inv.update (hs : Inv limit s) (hreach : Session.Reachable limit t)
    (hmessages : t.messages = (s.sessions i).messages ++ message.toList)
    (hresponses : t.responses = (s.sessions i).responses ++ answered)
    (hle : t.responses.length ≤ (s.sessions i).messages.length)
    (hbatch : ∀ task ∈ batch, task ∈ s.batch)
    (hcarried : ∀ i' k, s.batch.countP (Task.carries i' k) = batch.countP (Task.carries i' k) +
      if i' = i ∧ (s.sessions i).responses.length ≤ k ∧ k < t.responses.length then 1 else 0)
    (hanswered : ∀ (k : Nat) (data : Bytes), answered[k]? = some data →
      s.Traced i ((s.sessions i).responses.length + k) data) :
    Inv limit { s.update i t message with batch := batch } := by
  constructor
  case sessions =>
    intro i'
    by_cases hi : i' = i
    · subst hi
      rw [sessions_update_self]
      exact hreach
    · rw [sessions_update_of_ne hi]
      exact hs.sessions i'
  case once => exact once_update hs hmessages hresponses hle hcarried
  case handled => exact handled_update hs hmessages
  case jobs =>
    intro j hj
    simp only [System.update, List.mem_append, List.mem_map, Option.mem_toList] at hj
    rcases hj with (hj | ⟨m, hm, rfl⟩) | hj
    · exact messages_update hmessages (hs.jobs j (List.mem_append_left _ hj))
    · show ((s.update i t message).sessions i).messages[(s.sessions i).messages.length]? = some m
      rw [sessions_update_self, hmessages, hm]
      simp
    · exact messages_update hmessages (hs.jobs j (List.mem_append_right _ hj))
  case executions => exact fun e he => messages_update hmessages (hs.executions e he)
  case tasks =>
    intro i' k data keepAlive htask
    have hold : .send i' k data keepAlive ∈ s.deferred ++ s.pending ++ s.batch := by
      rcases List.mem_append.1 htask with htask | htask
      · exact List.mem_append_left _ htask
      · exact List.mem_append_right _ (hbatch _ htask)
    exact hs.tasks i' k data keepAlive hold
  case responses =>
    intro i' k data hdata
    have hdata' : ((s.update i t message).sessions i').responses[k]? = some data := hdata
    exact responses_update hs hresponses hanswered hdata'

end Update

/-- Jobs and tasks have moved between the queues or have become executions, and no session has
changed. -/
theorem Inv.move (hs : Inv limit s) {s' : System} (hsessions : s'.sessions = s.sessions)
    (hcarriers : ∀ i k, s'.carriers i k = s.carriers i k)
    (hhandlings : ∀ i k, s'.handlings i k = s.handlings i k)
    (hjobs : ∀ j ∈ s'.queue ++ s'.running, j ∈ s.queue ++ s.running)
    (hold : ∀ e ∈ s.executions, e ∈ s'.executions)
    (hnew : ∀ e ∈ s'.executions, e ∈ s.executions ∨
      ∃ j ∈ s.queue ++ s.running, e.conn = j.conn ∧ e.index = j.index ∧ e.raw = j.raw)
    (htasks : ∀ i k data keepAlive,
      .send i k data keepAlive ∈ s'.deferred ++ s'.pending ++ s'.batch →
        .send i k data keepAlive ∈ s.deferred ++ s.pending ++ s.batch ∨ s'.Traced i k data) :
    Inv limit s' := by
  have htraced {i k : Nat} {data : Bytes} (h : s.Traced i k data) : s'.Traced i k data := by
    obtain ⟨e, he, hof, hanswers⟩ := h
    exact ⟨e, hold e he, hof, hanswers⟩
  constructor
  case sessions => exact hsessions ▸ hs.sessions
  case once =>
    intro i k
    rw [hcarriers, hsessions]
    exact hs.once i k
  case handled =>
    intro i k
    rw [hhandlings, hsessions]
    exact hs.handled i k
  case jobs =>
    intro j hj
    rw [hsessions]
    exact hs.jobs j (hjobs j hj)
  case executions =>
    intro e he
    rw [hsessions]
    rcases hnew e he with hmem | ⟨j, hj, hconn, hindex, hraw⟩
    · exact hs.executions e hmem
    · rw [hconn, hindex, hraw]
      exact hs.jobs j hj
  case tasks =>
    intro i k data keepAlive htask
    rcases htasks i k data keepAlive htask with hbefore | hafter
    · exact htraced (hs.tasks i k data keepAlive hbefore)
    · exact hafter
  case responses =>
    rw [hsessions]
    exact fun i k data hdata => htraced (hs.responses i k data hdata)

/-- Jobs and tasks have only moved between the queues. -/
theorem Inv.shift (hs : Inv limit s) {s' : System} (hsessions : s'.sessions = s.sessions)
    (hexecutions : s'.executions = s.executions)
    (hcarriers : ∀ i k, s'.carriers i k = s.carriers i k)
    (hcount : ∀ i k, (s'.queue ++ s'.running).countP (Job.carries i k) =
      (s.queue ++ s.running).countP (Job.carries i k))
    (hjobs : ∀ j ∈ s'.queue ++ s'.running, j ∈ s.queue ++ s.running)
    (htasks : ∀ i k data keepAlive,
      .send i k data keepAlive ∈ s'.deferred ++ s'.pending ++ s'.batch →
        .send i k data keepAlive ∈ s.deferred ++ s.pending ++ s.batch) :
    Inv limit s' :=
  hs.move hsessions hcarriers (fun i k => by rw [handlings, handlings, hcount, hexecutions]) hjobs
    (fun _ he => hexecutions ▸ he) (fun _ he => .inl (hexecutions ▸ he))
    fun i k data keepAlive htask => .inl (htasks i k data keepAlive htask)

theorem inv_force_close (hs : Inv limit s) (i : Nat) : Inv limit (s.forceClose i) := by
  unfold forceClose
  split
  · exact hs
  · refine hs.shift rfl rfl (fun i' k => ?_) (fun _ _ => rfl) (fun j hj => hj)
      fun i' k data keepAlive htask => ?_
    · simp [carriers, Task.carries]
    · simpa using htask

theorem inv_take (hs : Inv limit s) {j : Job} {rest : List Job} (h : s.queue = j :: rest) :
    Inv limit { s with queue := rest, running := j :: s.running } := by
  have hcount (i k : Nat) : (rest ++ j :: s.running).countP (Job.carries i k) =
      (s.queue ++ s.running).countP (Job.carries i k) := by
    simp only [h, List.countP_append, List.countP_cons]
    omega
  refine hs.shift rfl rfl (fun i k => ?_) hcount (fun j' hj' => ?_) fun _ _ _ _ htask => htask
  · simp only [carriers, hcount]
  · simp only [h, List.mem_append, List.mem_cons] at hj' ⊢
    tauto

/-- The worker turns the message it carries into the task of its reply. -/
theorem inv_process (hs : Inv limit s) {before after : List Job} {j : Job} (env : Environment)
    (h : s.running = before ++ j :: after) :
    Inv limit { s with
      running := before ++ after
      deferred := s.deferred ++ (responsesOf (processRequest env j.raw)).map
        fun r => .send j.conn j.index r.1 r.2
      executions := s.executions ++ [⟨j.conn, j.index, j.raw, env⟩] } := by
  obtain ⟨data, keepAlive, hreply⟩ := process_request_replies env j.raw
  rw [hreply]
  refine hs.move rfl (fun i k => ?_) (fun i k => ?_) (fun j' hj' => ?_)
    (fun e he => List.mem_append_left _ he) (fun e he => ?_) fun i k data' keepAlive' htask => ?_
  · have hsame : Task.carries i k (.send j.conn j.index data keepAlive) = Job.carries i k j := rfl
    simp only [carriers, h, List.map_cons, List.map_nil, List.countP_append, List.countP_cons,
      List.countP_nil, hsame]
    omega
  · have hsame : Execution.isOf i k ⟨j.conn, j.index, j.raw, env⟩ = Job.carries i k j := rfl
    simp only [handlings, h, List.countP_append, List.countP_cons, List.countP_nil, hsame]
    omega
  · simp only [h, List.mem_append, List.mem_cons] at hj' ⊢
    tauto
  · rcases List.mem_append.1 he with he | he
    · exact .inl he
    · obtain rfl := List.mem_singleton.1 he
      exact .inr ⟨j, by simp [h], rfl, rfl, rfl⟩
  · simp only [List.map_cons, List.map_nil, List.mem_append, List.mem_singleton,
      Task.send.injEq] at htask
    rcases htask with ((htask | ⟨rfl, rfl, rfl, rfl⟩) | htask) | htask
    · exact .inl (by simp [htask])
    · exact .inr ⟨_, List.mem_append_right _ (List.mem_singleton_self _), by simp [Execution.isOf],
        keepAlive', hreply⟩
    · exact .inl (by simp [htask])
    · exact .inl (by simp [htask])

theorem inv_round (hs : Inv limit s) (maxDeferredPerRound : Int) (h : s.batch = []) :
    Inv limit { s with
      batch := (roundTasks maxDeferredPerRound (s.pending ++ s.deferred)).1
      pending := (roundTasks maxDeferredPerRound (s.pending ++ s.deferred)).2
      deferred := [] } := by
  have hall := round_tasks_append maxDeferredPerRound (s.pending ++ s.deferred)
  refine hs.shift rfl rfl (fun i k => ?_) (fun _ _ => rfl) (fun j hj => hj)
    fun i k data keepAlive htask => ?_
  · have hcount := congrArg (List.countP (Task.carries i k)) hall
    simp only [List.countP_append] at hcount
    simp only [carriers, h, List.countP_append, List.countP_nil]
    omega
  · have hmem : .send i k data keepAlive ∈ s.pending ++ s.deferred := by
      rw [← hall]
      simp only [List.nil_append, List.mem_append] at htask ⊢
      tauto
    simp only [h, List.mem_append] at hmem ⊢
    tauto

theorem mem_batch {task : Task} {rest : List Task} (h : s.batch = task :: rest) :
    ∀ t ∈ rest, t ∈ s.batch :=
  fun _ ht => h ▸ List.mem_cons_of_mem task ht

/-- A step of a session that replies to nothing. -/
theorem inv_event (hs : Inv limit s) {e : Session.Event} {t : Session} {message : Option Bytes}
    {batch : List Task} (hstep : Session.Step e (s.sessions i) t)
    (hmessages : t.messages = (s.sessions i).messages ++ message.toList)
    (hresponses : t.responses = (s.sessions i).responses)
    (hbatch : ∀ task ∈ batch, task ∈ s.batch)
    (hcarried : ∀ i' k, s.batch.countP (Task.carries i' k) = batch.countP (Task.carries i' k)) :
    Inv limit { s.update i t message with batch := batch } := by
  have hanswered := (Session.ledger_reachable (hs.sessions i)).answered
  refine hs.update ((hs.sessions i).tail ⟨e, hstep⟩) hmessages
    (by rw [hresponses, List.append_nil]) (by rw [hresponses]; exact hanswered) hbatch
    (fun i' k => ?_) (fun k data h => by cases h)
  rw [hcarried, hresponses, if_neg (by omega), Nat.add_zero]

/-- A reply that the round runs answers the only outstanding message of its connection. -/
theorem Inv.send_outstanding (hs : Inv limit s) {k : Nat} {data : Bytes} {keepAlive : Bool}
    (h : .send i k data keepAlive ∈ s.deferred ++ s.pending ++ s.batch) :
    k = (s.sessions i).responses.length ∧
      (s.sessions i).messages.length = (s.sessions i).responses.length + 1 := by
  have hcount : 0 < s.carriers i k := by
    have : 0 < (s.deferred ++ s.pending ++ s.batch).countP (Task.carries i k) :=
      List.countP_pos_iff.2 ⟨_, h, by simp [Task.carries]⟩
    unfold carriers
    omega
  rw [hs.once i k] at hcount
  have houtstanding := (Session.ledger_reachable (hs.sessions i)).outstanding
  split at hcount
  · omega
  · cases hcount

/-- The round runs a reply. -/
theorem inv_send (hs : Inv limit s) {k fuel : Nat} {data : Bytes} {keepAlive : Bool}
    {rest : List Task} {w : WriteResults} {out : Outcome}
    (h : s.batch = .send i k data keepAlive :: rest)
    (hsend : (s.sessions i).conn.sendInternal fuel data keepAlive w = some out) :
    Inv limit { s.update i
      { (s.sessions i).record out with responses := (s.sessions i).responses ++ [data] }
      out.message with batch := rest } := by
  have hmem : .send i k data keepAlive ∈ s.deferred ++ s.pending ++ s.batch := by simp [h]
  obtain ⟨rfl, hlength⟩ := hs.send_outstanding hmem
  have hstep := Session.Step.reply (by omega) hsend
  refine hs.update ((hs.sessions i).tail ⟨_, hstep⟩) rfl rfl ?_ (mem_batch h) (fun i' k' => ?_)
    (fun k' data' hdata => ?_)
  · simp [hlength]
  · have hcarries : Task.carries i' k' (.send i (s.sessions i).responses.length data keepAlive) =
        decide (i' = i ∧ (s.sessions i).responses.length ≤ k' ∧
          k' < ((s.sessions i).responses ++ [data]).length) := by
      rw [Task.carries, Bool.eq_iff_iff, Bool.and_eq_true, beq_iff_eq, beq_iff_eq,
        decide_eq_true_eq, List.length_append, List.length_singleton]
      omega
    simp only [h, List.countP_cons, hcarries, decide_eq_true_eq]
  · cases k' with
    | zero =>
        cases hdata
        exact hs.tasks i _ data keepAlive hmem
    | succ k' => cases hdata

theorem inv_step {maxDeferredPerRound : Int} {t : System} (hs : Inv limit s)
    (h : Step maxDeferredPerRound s t) : Inv limit t := by
  cases h with
  | read h => exact inv_event hs (.read h) rfl rfl (fun _ h => h) fun _ _ => rfl
  | write h => exact inv_event hs (.write h) rfl rfl (fun _ h => h) fun _ _ => rfl
  | forceClose i => exact inv_force_close hs i
  | take h => exact inv_take hs h
  | process env h => exact inv_process hs env h
  | round h => exact inv_round hs _ h
  | send h hsend => exact inv_send hs h hsend
  | close h =>
      exact inv_event hs .close (by simp) rfl (mem_batch h) fun _ _ => by simp [h, Task.carries]

theorem inv_reachable {maxDeferredPerRound : Int} (h : Reachable limit maxDeferredPerRound s) :
    Inv limit s := by
  induction h with
  | refl => exact inv_start limit
  | tail _ hstep ih => exact inv_step ih hstep

/-- The execution behind a response is the only one for its message. -/
theorem Inv.execution (hs : Inv limit s) {k : Nat} {data : Bytes} (h : s.Traced i k data) :
    ∃ e, s.executions.filter (Execution.isOf i k) = [e] ∧
      (s.sessions i).messages[k]? = some e.raw ∧ e.Answers data := by
  obtain ⟨e, he, hof, hanswers⟩ := h
  have hmessage := hs.executions e he
  have hwhere : e.conn = i ∧ e.index = k := by simpa [Execution.isOf] using hof
  rw [hwhere.1, hwhere.2] at hmessage
  have hmem : e ∈ s.executions.filter (Execution.isOf i k) := List.mem_filter.2 ⟨he, hof⟩
  have hone : (s.executions.filter (Execution.isOf i k)).length ≤ 1 := by
    have hcount := hs.handled i k
    rw [handlings, List.countP_eq_length_filter (p := Execution.isOf i k)] at hcount
    split at hcount <;> omega
  obtain ⟨only, honly⟩ := List.length_eq_one_iff.1
    (Nat.le_antisymm hone (List.length_pos_of_mem hmem))
  rw [honly] at hmem ⊢
  obtain rfl := List.mem_singleton.1 hmem
  exact ⟨e, rfl, hmessage, hanswers⟩

/-- In every state of the gateway and for each of its connections: if the connection is not
closed, it is `Processing` exactly when one of its messages has no reply yet; there is never more
than one; every message has been replied to, or exactly one job or task carries it; a reply that
is on its way is not dropped unless the connection is closed; every reply is what the only execution
of `process_request` for the message of the same number has answered to this message; a connection
that is not closed has taken over all replies, in order, and the bytes written to the client are the
beginning of them. -/
theorem replies_in_order (maxRequestSize maxDeferredPerRound : Int) (s : System)
    (h : Reachable maxRequestSize maxDeferredPerRound s) (i : Nat) :
    let c := s.sessions i
    (c.conn.state ≠ .closed →
      (c.conn.state = .processing ↔ c.messages.length = c.responses.length + 1)) ∧
    (c.responses.length ≤ c.messages.length ∧ c.messages.length ≤ c.responses.length + 1) ∧
    (∀ k < c.messages.length, s.carriers i k + (if k < c.responses.length then 1 else 0) = 1) ∧
    (∀ k data keepAlive, .send i k data keepAlive ∈ s.deferred ++ s.pending ++ s.batch →
      c.conn.state = .processing ∨ c.conn.state = .closed) ∧
    (∀ (k : Nat) (data : Bytes), c.responses[k]? = some data →
      ∃ e, s.executions.filter (Execution.isOf i k) = [e] ∧ c.messages[k]? = some e.raw ∧
        e.Answers data) ∧
    (c.conn.state ≠ .closed → c.written ++ c.conn.writeBuf = c.responses.flatten) ∧
    c.written <+: c.responses.flatten := by
  have hs := inv_reachable h
  have hreach := hs.sessions i
  have hledger := Session.ledger_reachable hreach
  refine ⟨Session.outstanding_iff hreach, ⟨hledger.answered, hledger.outstanding⟩, fun k hk => ?_,
    fun k data keepAlive htask => ?_,
    fun k data hdata => hs.execution (hs.responses i k data hdata), hledger.unwritten,
    hledger.written⟩
  · rw [hs.once i k]
    split <;> split <;> omega
  · obtain ⟨-, hlength⟩ := hs.send_outstanding htask
    exact hledger.outstanding_state (Session.inv_reachable hreach) (by omega)

/-- A request to an internal endpoint that has been answered. -/
theorem replies_in_order_answered : ∃ s, Reachable 65536 256 s ∧
    (s.sessions 0).messages = [ascii "P / V\r\n\r\n"] ∧ (s.sessions 0).responses = [ascii "R"] ∧
    (s.sessions 0).written <+: ascii "R" := by
  let env : Environment := ⟨fun _ => some (ascii "R"), [], fun _ => none,
    fun _ => ⟨[], 0⟩, fun _ => true, fun _ _ => [], 0⟩
  have hread : (Connection.accept 65536).onRead 9
      ⟨[ascii "P / V\r\n\r\n"], .again, by decide⟩ = some
        { conn := { Connection.accept 65536 with state := .processing }
          message := some (ascii "P / V\r\n\r\n") } := by decide
  have hprocess : responsesOf (processRequest env (ascii "P / V\r\n\r\n")) =
      [(ascii "R", false)] := by decide
  obtain ⟨s, hs, hbatch, hsession⟩ : ∃ s, Reachable 65536 256 s ∧
      s.batch = [.send 0 0 (ascii "R") false] ∧ s.sessions 0 =
        { conn := { Connection.accept 65536 with state := .processing }
          received := ascii "P / V\r\n\r\n"
          messages := [ascii "P / V\r\n\r\n"] } := by
    refine ⟨_, (((Relation.ReflTransGen.single (Step.read (i := 0) hread)).tail (.take rfl)).tail
      (@Step.process 256 _ [] [] _ env rfl)).tail (.round rfl), ?_, ?_⟩
    · simp only [hprocess]
      rfl
    · rfl
  have hsend : (s.sessions 0).conn.sendInternal 0 (ascii "R") false ⟨[1], .again, by decide⟩ = some
      { conn := { Connection.accept 65536 with state := .closing }, written := ascii "R" } := by
    rw [hsession]
    decide
  have hanswered : Reachable 65536 256 _ := hs.tail (.send hbatch hsend)
  refine ⟨_, hanswered, ?_, ?_, (replies_in_order 65536 256 _ hanswered 0).2.2.2.2.2.2.trans ?_⟩
  · simp [update, hsession, Session.record]
  · simp [update, hsession, Session.record]
  · simp [update, hsession, Session.record]

end System

end ApiGateway.Core
