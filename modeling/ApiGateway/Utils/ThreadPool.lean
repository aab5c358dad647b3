import ApiGateway.Library.Table

/-!
# The thread pool

`ThreadPool` of `thread_pool.cpp`. The parts of the code between taking the mutex and giving it back
are single steps, as are the notifications. A thread in `wait` is asleep until it is notified or
wakes up spuriously. The workers, any number of calls of `submit`, `try_submit` and `enqueue`, and
the destructor make their steps in any order. The main result is `jobs_exactly_once`.
-/

namespace ApiGateway.Utils

universe u

variable {Job : Type u}

/-- `class ThreadPool`. -/
structure ThreadPool (Job : Type u) where
  tasks : List Job := []
  stop : Bool := false
  maxQueueSize : Nat

/-- The functions that hand over a job. -/
inductive Submission where
  | submit
  | trySubmit
  | enqueue
  deriving DecidableEq

/-- What the locked part of one of these functions ends with. -/
inductive Outcome where
  | pushed
  | refused
  | thrown
  | waits

namespace ThreadPool

/-- The wait of `submit` and the test behind it, when the mutex has been taken. -/
def recheck (pool : ThreadPool Job) : Outcome :=
  if pool.stop ∨ pool.tasks.length < pool.maxQueueSize then
    if pool.stop then .thrown else .pushed
  else .waits

/-- The locked parts of `submit` up to its wait, `try_submit` and `enqueue`. -/
def enter (pool : ThreadPool Job) : Submission → Outcome
  | .submit =>
      if pool.stop then .thrown
      else if 0 < pool.maxQueueSize then pool.recheck
      else .pushed
  | .trySubmit =>
      if pool.stop then .thrown
      else if 0 < pool.maxQueueSize ∧ pool.maxQueueSize ≤ pool.tasks.length then .refused
      else .pushed
  | .enqueue => if pool.stop then .thrown else .pushed

end ThreadPool

/-- Where a worker is: about to take the mutex, asleep on `cv_`, about to notify `cv_not_full_`, or
running a job. -/
inductive Worker (Job : Type u) where
  | ready
  | asleep
  | taken (job : Job)
  | running (job : Job)
  | exited

/-- The job that a worker has taken and not finished. -/
def Worker.job? : Worker Job → Option Job
  | .taken job | .running job => some job
  | _ => none

/-- Whether a worker is about to take the mutex. -/
def Worker.isReady : Worker Job → Bool
  | .ready => true
  | _ => false

/-- How many steps a worker is away from sleep or its end, if there is nothing to do. -/
def Worker.rank : Worker Job → Nat
  | .taken _ => 3
  | .running _ => 2
  | .ready => 1
  | .asleep | .exited => 0

/-- What `notify_all` does to a worker. -/
def Worker.wake : Worker Job → Worker Job
  | .asleep => .ready
  | worker => worker

/-- Where a thread that hands over a job is: about to take the mutex, asleep on `cv_not_full_`,
woken up, about to notify `cv_`, or behind its call. -/
inductive Producer (Job : Type u) where
  | entering (kind : Submission) (job : Job)
  | asleep (job : Job)
  | woken (job : Job)
  | notifying
  | returned
  | refused
  | thrown

/-- Whether a thread is about to notify `cv_`. -/
def Producer.isNotifying : Producer Job → Bool
  | .notifying => true
  | _ => false

/-- Where the destructor is. -/
inductive Destructor where
  | idle
  | stopping
  | joining
  | returned
  deriving DecidableEq

/-- The pool, its threads, and the jobs that have been accepted, dequeued and finished so far, each
in this order. -/
structure PoolRun (Job : Type u) where
  pool : ThreadPool Job
  workers : List (Worker Job)
  producers : List (Producer Job) := []
  destructor : Destructor := .idle
  accepted : List Job := []
  dequeued : List Job := []
  finished : List Job := []

namespace PoolRun

/-- The constructor. -/
def start (numThreads maxQueueSize : Nat) : PoolRun Job where
  pool := { maxQueueSize }
  workers := List.replicate numThreads .ready

/-- The end of a locked part of a call that hands over a job. -/
def settle (s : PoolRun Job) (q : Nat) (job : Job) : Outcome → PoolRun Job
  | .pushed =>
      { s with
        pool := { s.pool with tasks := s.pool.tasks ++ [job] }
        accepted := s.accepted ++ [job]
        producers := s.producers.set q .notifying }
  | .refused => { s with producers := s.producers.set q .refused }
  | .thrown => { s with producers := s.producers.set q .thrown }
  | .waits => { s with producers := s.producers.set q (.asleep job) }

/-- The locked part of the loop of a worker. -/
def look (s : PoolRun Job) (w : Nat) : PoolRun Job :=
  match s.pool.tasks with
  | [] => { s with workers := s.workers.set w (if s.pool.stop then .exited else .asleep) }
  | job :: rest =>
      { s with
        pool := { s.pool with tasks := rest }
        dequeued := s.dequeued ++ [job]
        workers := s.workers.set w (.taken job) }

/-- What kind of step is made: the locked part of a call that hands over a job, a step of a worker
or a notification of `cv_` by one of these calls, or another step. -/
inductive Label where
  | submission (kind : Submission)
  | work
  | other

/-- One step of a thread. -/
inductive Step : PoolRun Job → Label → PoolRun Job → Prop where
  | call {s : PoolRun Job} (kind : Submission) (job : Job) :
      Step s .other { s with producers := s.producers ++ [.entering kind job] }
  | enter {s : PoolRun Job} {q : Nat} {kind : Submission} {job : Job}
      (hproducer : s.producers[q]? = some (.entering kind job)) :
      Step s (.submission kind) (s.settle q job (s.pool.enter kind))
  | recheck {s : PoolRun Job} {q : Nat} {job : Job}
      (hproducer : s.producers[q]? = some (.woken job)) :
      Step s (.submission .submit) (s.settle q job s.pool.recheck)
  | spuriousProducer {s : PoolRun Job} {q : Nat} {job : Job}
      (hproducer : s.producers[q]? = some (.asleep job)) :
      Step s .other { s with producers := s.producers.set q (.woken job) }
  | notifyNone {s : PoolRun Job} {q : Nat} (hproducer : s.producers[q]? = some .notifying)
      (hnone : Worker.asleep ∉ s.workers) :
      Step s .work { s with producers := s.producers.set q .returned }
  | notifyOne {s : PoolRun Job} {q w : Nat} (hproducer : s.producers[q]? = some .notifying)
      (hworker : s.workers[w]? = some .asleep) :
      Step s .work
        { s with producers := s.producers.set q .returned, workers := s.workers.set w .ready }
  | look {s : PoolRun Job} {w : Nat} (hworker : s.workers[w]? = some .ready) :
      Step s .work (s.look w)
  | spuriousWorker {s : PoolRun Job} {w : Nat} (hworker : s.workers[w]? = some .asleep) :
      Step s .other { s with workers := s.workers.set w .ready }
  | notFullNone {s : PoolRun Job} {w : Nat} {job : Job}
      (hworker : s.workers[w]? = some (.taken job))
      (hnone : ∀ other, Producer.asleep other ∉ s.producers) :
      Step s .work { s with workers := s.workers.set w (.running job) }
  | notFullOne {s : PoolRun Job} {w q : Nat} {job other : Job}
      (hworker : s.workers[w]? = some (.taken job))
      (hproducer : s.producers[q]? = some (.asleep other)) :
      Step s .work
        { s with
          workers := s.workers.set w (.running job)
          producers := s.producers.set q (.woken other) }
  | finish {s : PoolRun Job} {w : Nat} {job : Job} (hworker : s.workers[w]? = some (.running job)) :
      Step s .work
        { s with workers := s.workers.set w .ready, finished := s.finished ++ [job] }
  | stop {s : PoolRun Job} (hdestructor : s.destructor = .idle) :
      Step s .other { s with pool := { s.pool with stop := true }, destructor := .stopping }
  | notifyAll {s : PoolRun Job} (hdestructor : s.destructor = .stopping) :
      Step s .other { s with workers := s.workers.map Worker.wake, destructor := .joining }
  | join {s : PoolRun Job} (hdestructor : s.destructor = .joining)
      (hexited : ∀ worker ∈ s.workers, worker = .exited) :
      Step s .other { s with destructor := .returned }

/-- Any number of steps. -/
def Run : PoolRun Job → PoolRun Job → Prop :=
  Relation.ReflTransGen fun s t => ∃ l, Step s l t

/-- The states of a pool. -/
def Reachable (numThreads maxQueueSize : Nat) (s : PoolRun Job) : Prop :=
  Run (start numThreads maxQueueSize) s

/-- The jobs that workers have taken and not finished. -/
def held (s : PoolRun Job) : List Job :=
  s.workers.filterMap Worker.job?

/-! ## Jobs are dequeued in order -/

/-- The invariant: the queue holds the accepted jobs that have not been dequeued, those that have
been are finished or in the hands of a worker, and a worker that has ended leaves nothing behind. -/
structure Inv (s : PoolRun Job) : Prop where
  queue : s.dequeued ++ s.pool.tasks = s.accepted
  inFlight : s.dequeued.Perm (s.finished ++ s.held)
  exited : Worker.exited ∈ s.workers → s.pool.stop = true ∧ s.pool.tasks = []
  joined : s.destructor = .returned → ∀ worker ∈ s.workers, worker = .exited

variable {s t : PoolRun Job} {q w : Nat} {job : Job}

theorem not_stopped_of_recheck (h : s.pool.recheck = .pushed) :
    s.pool.stop = false ∧ s.pool.tasks.length < s.pool.maxQueueSize := by
  cases hstop : s.pool.stop <;> simp_all [ThreadPool.recheck]

theorem not_stopped_of_enter {kind : Submission} (h : s.pool.enter kind = .pushed) :
    s.pool.stop = false := by
  cases hstop : s.pool.stop with
  | false => rfl
  | true => cases kind <;> simp [ThreadPool.enter, hstop] at h

/-- `submit` and `try_submit` leave room for the job. -/
theorem room_of_enter {kind : Submission} (h : s.pool.enter kind = .pushed)
    (hkind : kind ≠ .enqueue) (hbound : 0 < s.pool.maxQueueSize) :
    s.pool.tasks.length < s.pool.maxQueueSize := by
  have hstop := not_stopped_of_enter h
  cases kind with
  | submit =>
      simp only [ThreadPool.enter, hstop, hbound, if_true] at h
      exact (not_stopped_of_recheck (by simpa using h)).2
  | trySubmit =>
      by_contra hfull
      simp [ThreadPool.enter, hstop, hbound, Nat.not_lt.1 hfull] at h
  | enqueue => exact absurd rfl hkind

theorem inv_start (numThreads maxQueueSize : Nat) :
    Inv (start numThreads maxQueueSize : PoolRun Job) where
  queue := rfl
  inFlight := by
    have hheld : (start numThreads maxQueueSize : PoolRun Job).held = [] :=
      List.filterMap_eq_nil_iff.2 fun worker hworker => by
        rw [List.eq_of_mem_replicate hworker]
        rfl
    rw [hheld]
    exact .refl _
  exited := fun h => by cases List.eq_of_mem_replicate h
  joined := fun h => by cases h

theorem inv_settle (hs : Inv s) {outcome : Outcome}
    (hstop : outcome = .pushed → s.pool.stop = false) : Inv (s.settle q job outcome) := by
  cases outcome with
  | pushed =>
      refine ⟨?_, hs.inFlight, fun h => ?_, hs.joined⟩
      · show s.dequeued ++ (s.pool.tasks ++ [job]) = s.accepted ++ [job]
        rw [← List.append_assoc, hs.queue]
      · have hstopped := (hs.exited h).1
        rw [hstop rfl] at hstopped
        cases hstopped
  | refused => exact ⟨hs.queue, hs.inFlight, hs.exited, hs.joined⟩
  | thrown => exact ⟨hs.queue, hs.inFlight, hs.exited, hs.joined⟩
  | waits => exact ⟨hs.queue, hs.inFlight, hs.exited, hs.joined⟩

/-- A worker that has not ended goes on, with the job it has. -/
theorem Inv.move (hs : Inv s) {old : Worker Job} (hworker : s.workers[w]? = some old)
    (hold : old ≠ .exited) (new : Worker Job) (hjob : new.job? = old.job?)
    (hnew : new = .exited → s.pool.stop = true ∧ s.pool.tasks = [])
    (producers : List (Producer Job)) :
    Inv { s with workers := s.workers.set w new, producers := producers } := by
  refine ⟨hs.queue, ?_, fun h => ?_, fun h => ?_⟩
  · have hheld := Table.filterMap_set_perm hworker new Worker.job?
    rw [hjob, List.perm_append_left_iff] at hheld
    exact hs.inFlight.trans (hheld.symm.append_left _)
  · rcases List.mem_or_eq_of_mem_set h with hmem | heq
    · exact hs.exited hmem
    · exact hnew heq.symm
  · exact absurd (hs.joined h old (List.mem_of_getElem? hworker)) hold

theorem inv_look (hs : Inv s) (hworker : s.workers[w]? = some .ready) : Inv (s.look w) := by
  unfold look
  split
  · rename_i htasks
    split
    · rename_i hstop
      exact hs.move hworker nofun .exited rfl (fun _ => ⟨hstop, htasks⟩) s.producers
    · exact hs.move hworker nofun .asleep rfl nofun s.producers
  · rename_i job rest htasks
    refine ⟨?_, ?_, fun h => ?_, fun h => ?_⟩
    · show s.dequeued ++ [job] ++ rest = s.accepted
      rw [List.append_assoc, ← hs.queue, htasks]
      rfl
    · have hheld : ((s.workers.set w (.taken job)).filterMap Worker.job?).Perm (job :: s.held) :=
        Table.filterMap_set_perm hworker (.taken job) Worker.job?
      have htaken : (s.dequeued ++ [job]).Perm (s.finished ++ (s.held ++ [job])) := by
        rw [← List.append_assoc]
        exact hs.inFlight.append_right _
      have hlast := (List.perm_append_singleton job s.held).trans hheld.symm
      exact htaken.trans (hlast.append_left _)
    · rcases List.mem_or_eq_of_mem_set h with hmem | heq
      · have hnil := (hs.exited hmem).2
        rw [htasks] at hnil
        cases hnil
      · cases heq
    · exact absurd (hs.joined h _ (List.mem_of_getElem? hworker)) nofun

theorem inv_finish (hs : Inv s) (hworker : s.workers[w]? = some (.running job)) :
    Inv { s with workers := s.workers.set w .ready, finished := s.finished ++ [job] } := by
  refine ⟨hs.queue, ?_, fun h => ?_, fun h => ?_⟩
  · have hheld : (job :: (s.workers.set w .ready).filterMap Worker.job?).Perm s.held :=
      Table.filterMap_set_perm hworker .ready Worker.job?
    show s.dequeued.Perm (s.finished ++ [job] ++ (s.workers.set w .ready).filterMap Worker.job?)
    rw [List.append_assoc]
    exact hs.inFlight.trans (hheld.symm.append_left _)
  · rcases List.mem_or_eq_of_mem_set h with hmem | heq
    · exact hs.exited hmem
    · cases heq
  · exact absurd (hs.joined h _ (List.mem_of_getElem? hworker)) nofun

theorem inv_notify_all (hs : Inv s) :
    Inv { s with workers := s.workers.map Worker.wake, destructor := .joining } := by
  have hjob : ∀ worker : Worker Job, worker.wake.job? = worker.job? := fun worker => by
    cases worker <;> rfl
  refine ⟨hs.queue, ?_, fun h => ?_, nofun⟩
  · have hheld : (s.workers.map Worker.wake).filterMap Worker.job? = s.held := by
      rw [List.filterMap_map]
      exact List.filterMap_congr fun worker _ => hjob worker
    show s.dequeued.Perm (s.finished ++ (s.workers.map Worker.wake).filterMap Worker.job?)
    rw [hheld]
    exact hs.inFlight
  · obtain ⟨worker, hmem, hwake⟩ := List.mem_map.1 h
    cases worker with
    | exited => exact hs.exited hmem
    | _ => cases hwake

theorem inv_step {l : Label} (hs : Inv s) (h : Step s l t) : Inv t := by
  cases h with
  | call kind job => exact ⟨hs.queue, hs.inFlight, hs.exited, hs.joined⟩
  | enter hproducer => exact inv_settle hs not_stopped_of_enter
  | recheck hproducer => exact inv_settle hs fun h => (not_stopped_of_recheck h).1
  | spuriousProducer hproducer => exact ⟨hs.queue, hs.inFlight, hs.exited, hs.joined⟩
  | notifyNone hproducer hnone => exact ⟨hs.queue, hs.inFlight, hs.exited, hs.joined⟩
  | notifyOne hproducer hworker => exact hs.move hworker nofun .ready rfl nofun _
  | look hworker => exact inv_look hs hworker
  | spuriousWorker hworker => exact hs.move hworker nofun .ready rfl nofun s.producers
  | notFullNone hworker hnone => exact hs.move hworker nofun (.running _) rfl nofun s.producers
  | notFullOne hworker hproducer => exact hs.move hworker nofun (.running _) rfl nofun _
  | finish hworker => exact inv_finish hs hworker
  | stop hdestructor =>
      exact ⟨hs.queue, hs.inFlight, fun h => ⟨rfl, (hs.exited h).2⟩, nofun⟩
  | notifyAll hdestructor => exact inv_notify_all hs
  | join hdestructor hexited => exact ⟨hs.queue, hs.inFlight, hs.exited, fun _ => hexited⟩

theorem inv_run (hs : Inv s) (h : Run s t) : Inv t := by
  induction h with
  | refl => exact hs
  | tail _ hstep ih =>
      obtain ⟨l, hstep⟩ := hstep
      exact inv_step ih hstep

/-! ## Stopping and the bound -/

/-- Nothing is accepted when the pool has been stopped. -/
theorem accepted_step_of_stopped {l : Label} (hstop : s.pool.stop = true) (h : Step s l t) :
    t.pool.stop = true ∧ t.accepted = s.accepted := by
  have hsettle : ∀ {q job} {outcome : Outcome}, outcome ≠ .pushed →
      (s.settle q job outcome).pool.stop = true ∧
        (s.settle q job outcome).accepted = s.accepted := fun {q job outcome} hne => by
    cases outcome with
    | pushed => exact absurd rfl hne
    | _ => exact ⟨hstop, rfl⟩
  have hrunning : s.pool.stop ≠ false := by
    rw [hstop]
    exact Bool.noConfusion
  cases h with
  | enter hproducer => exact hsettle fun h => hrunning (not_stopped_of_enter h)
  | recheck hproducer => exact hsettle fun h => hrunning (not_stopped_of_recheck h).1
  | look hworker =>
      unfold look
      split <;> exact ⟨hstop, rfl⟩
  | stop hdestructor => exact ⟨rfl, rfl⟩
  | _ => exact ⟨hstop, rfl⟩

theorem accepted_run_of_stopped (hstop : s.pool.stop = true) (h : Run s t) :
    t.pool.stop = true ∧ t.accepted = s.accepted := by
  induction h with
  | refl => exact ⟨hstop, rfl⟩
  | tail _ hstep ih =>
      obtain ⟨l, hstep⟩ := hstep
      obtain ⟨hstopped, heq⟩ := accepted_step_of_stopped ih.1 hstep
      exact ⟨hstopped, heq.trans ih.2⟩

/-- The locked part of a call changes the queue only if it pushes its job. -/
theorem tasks_settle {outcome : Outcome} {bound : Nat}
    (h : outcome = .pushed → s.pool.tasks.length < bound) :
    (s.settle q job outcome).pool.tasks = s.pool.tasks ∨
      (s.settle q job outcome).pool.tasks.length ≤ bound := by
  cases outcome with
  | pushed =>
      refine .inr ?_
      show (s.pool.tasks ++ [job]).length ≤ bound
      rw [List.length_append]
      exact h rfl
  | _ => exact .inl rfl

theorem tasks_submission {kind : Submission} (h : Step s (.submission kind) t)
    (hkind : kind ≠ .enqueue) (hbound : 0 < s.pool.maxQueueSize) :
    t.pool.tasks = s.pool.tasks ∨ t.pool.tasks.length ≤ s.pool.maxQueueSize := by
  cases h with
  | enter hproducer => exact tasks_settle fun h => room_of_enter h hkind hbound
  | recheck hproducer => exact tasks_settle fun h => (not_stopped_of_recheck h).2

/-! ## No job is left behind -/

/-- The calls that are about to notify `cv_`. -/
def notifying (s : PoolRun Job) : Nat :=
  s.producers.countP Producer.isNotifying

/-- The workers that are about to take the mutex. -/
def ready (s : PoolRun Job) : Nat :=
  s.workers.countP Worker.isReady

/-- Wakeups are not lost: while a worker is asleep, there is a notification to come or a worker to
take the mutex for every job in the queue. -/
def Attended (s : PoolRun Job) : Prop :=
  Worker.asleep ∈ s.workers → s.pool.tasks.length ≤ s.notifying + s.ready

theorem Attended.mono (hs : Attended s)
    (hasleep : Worker.asleep ∈ t.workers → Worker.asleep ∈ s.workers)
    (hle : t.pool.tasks.length + (s.notifying + s.ready) ≤
      s.pool.tasks.length + (t.notifying + t.ready)) : Attended t := by
  intro h
  have := hs (hasleep h)
  omega

/-- A worker that does not fall asleep leaves no other one asleep. -/
theorem asleep_of_set {new : Worker Job} (hnew : new ≠ .asleep)
    (h : Worker.asleep ∈ s.workers.set w new) : Worker.asleep ∈ s.workers :=
  (List.mem_or_eq_of_mem_set h).resolve_right (Ne.symm hnew)

/-- A call goes on that was not about to notify `cv_`. -/
theorem Attended.producer (hs : Attended s) {old : Producer Job}
    (hproducer : s.producers[q]? = some old) (hold : old.isNotifying = false)
    (new : Producer Job) : Attended { s with producers := s.producers.set q new } := by
  have hcount : (s.producers.set q new).countP Producer.isNotifying + old.isNotifying.toNat =
    s.notifying + new.isNotifying.toNat := Table.countP_set hproducer new Producer.isNotifying
  rw [hold, Bool.toNat_false] at hcount
  refine hs.mono id ?_
  show s.pool.tasks.length + (s.notifying + s.ready) ≤
    s.pool.tasks.length + ((s.producers.set q new).countP Producer.isNotifying + s.ready)
  omega

/-- A worker goes on that was not about to take the mutex. -/
theorem Attended.worker (hs : Attended s) {old new : Worker Job}
    (hworker : s.workers[w]? = some old) (hold : old.isReady = false) (hnew : new ≠ .asleep) :
    Attended { s with workers := s.workers.set w new } := by
  have hcount : (s.workers.set w new).countP Worker.isReady + old.isReady.toNat =
    s.ready + new.isReady.toNat := Table.countP_set hworker new Worker.isReady
  rw [hold, Bool.toNat_false] at hcount
  refine hs.mono (asleep_of_set hnew) ?_
  show s.pool.tasks.length + (s.notifying + s.ready) ≤
    s.pool.tasks.length + (s.notifying + (s.workers.set w new).countP Worker.isReady)
  omega

theorem attended_settle (hs : Attended s) {old : Producer Job}
    (hproducer : s.producers[q]? = some old) (hold : old.isNotifying = false) (outcome : Outcome) :
    Attended (s.settle q job outcome) := by
  cases outcome with
  | pushed =>
      have hcount : (s.producers.set q .notifying).countP Producer.isNotifying +
        old.isNotifying.toNat = s.notifying + 1 := Table.countP_set hproducer _ _
      rw [hold, Bool.toNat_false] at hcount
      refine hs.mono id ?_
      show (s.pool.tasks ++ [job]).length + (s.notifying + s.ready) ≤
        s.pool.tasks.length + ((s.producers.set q .notifying).countP Producer.isNotifying + s.ready)
      rw [List.length_append, List.length_singleton]
      omega
  | refused => exact hs.producer hproducer hold .refused
  | thrown => exact hs.producer hproducer hold .thrown
  | waits => exact hs.producer hproducer hold (.asleep job)

theorem attended_look (hs : Attended s) (hworker : s.workers[w]? = some .ready) :
    Attended (s.look w) := by
  unfold look
  split
  · rename_i htasks
    intro _
    show s.pool.tasks.length ≤ _
    rw [htasks]
    exact Nat.zero_le _
  · rename_i job rest htasks
    have hready : (s.workers.set w (.taken job)).countP Worker.isReady + 1 = s.ready + 0 :=
      Table.countP_set hworker (.taken job) Worker.isReady
    refine hs.mono (asleep_of_set nofun) ?_
    show rest.length + (s.notifying + s.ready) ≤
      s.pool.tasks.length + (s.notifying + (s.workers.set w (.taken job)).countP Worker.isReady)
    rw [htasks, List.length_cons]
    omega

theorem attended_step {l : Label} (hs : Attended s) (h : Step s l t) : Attended t := by
  cases h with
  | call kind job =>
      refine hs.mono id (Nat.le_of_eq ?_)
      have hcount : (s.producers ++ [Producer.entering kind job]).countP Producer.isNotifying =
        s.notifying + 0 := Table.countP_append ..
      exact congrArg (fun n => _ + (n + s.ready)) hcount.symm
  | enter hproducer => exact attended_settle hs hproducer rfl _
  | recheck hproducer => exact attended_settle hs hproducer rfl _
  | @spuriousProducer q job hproducer => exact hs.producer hproducer rfl (.woken job)
  | notifyNone hproducer hnone => exact fun h => absurd h hnone
  | @notifyOne q w hproducer hworker =>
      have hcount : (s.producers.set q .returned).countP Producer.isNotifying + 1 =
        s.notifying + 0 := Table.countP_set hproducer _ _
      have hready : (s.workers.set w .ready).countP Worker.isReady + 0 = s.ready + 1 :=
        Table.countP_set hworker _ _
      -- the notification is spent on a worker that takes the mutex
      refine hs.mono (asleep_of_set nofun) (Nat.add_le_add_left ?_ _)
      show s.notifying + s.ready ≤ (s.producers.set q .returned).countP Producer.isNotifying +
        (s.workers.set w .ready).countP Worker.isReady
      omega
  | look hworker => exact attended_look hs hworker
  | spuriousWorker hworker => exact hs.worker hworker rfl nofun
  | notFullNone hworker hnone => exact hs.worker hworker rfl nofun
  | @notFullOne w q job other hworker hproducer =>
      have hwoken := hs.producer hproducer rfl (.woken other)
      exact hwoken.worker hworker rfl nofun
  | finish hworker => exact hs.worker hworker rfl nofun
  | stop hdestructor => exact hs.mono id (Nat.le_refl _)
  | notifyAll hdestructor =>
      intro h
      obtain ⟨worker, -, hwake⟩ := List.mem_map.1 h
      cases worker <;> cases hwake
  | join hdestructor hexited => exact hs.mono id (Nat.le_refl _)

/-- While there is a job in the queue, a worker can go on, or be notified. -/
theorem exists_work (hs : Inv s) (hattended : Attended s) (hworkers : s.workers ≠ [])
    (htasks : s.pool.tasks ≠ []) : ∃ t, Step s .work t := by
  obtain ⟨worker, hworker⟩ := List.exists_mem_of_ne_nil s.workers hworkers
  by_cases hactive : ∃ worker ∈ s.workers, worker ≠ .asleep
  · obtain ⟨worker, hmem, hawake⟩ := hactive
    obtain ⟨w, hw⟩ := List.getElem?_of_mem hmem
    cases worker with
    | ready => exact ⟨_, .look hw⟩
    | asleep => exact absurd rfl hawake
    | taken job =>
        by_cases hasleep : ∃ other, Producer.asleep other ∈ s.producers
        · obtain ⟨other, hother⟩ := hasleep
          obtain ⟨q, hq⟩ := List.getElem?_of_mem hother
          exact ⟨_, .notFullOne hw hq⟩
        · exact ⟨_, .notFullNone hw fun other hother => hasleep ⟨other, hother⟩⟩
    | running job => exact ⟨_, .finish hw⟩
    | exited => exact absurd (hs.exited hmem).2 htasks
  · -- all workers are asleep, so that a notification is still to come
    push Not at hactive
    have hasleep : Worker.asleep ∈ s.workers := hactive worker hworker ▸ hworker
    have hready : s.ready = 0 := List.countP_eq_zero.2 fun worker hmem => by
      rw [hactive worker hmem]
      exact Bool.false_ne_true
    have hpos : 0 < s.notifying := by
      have hle := hattended hasleep
      have := List.length_pos_of_ne_nil htasks
      omega
    obtain ⟨producer, hproducer, hnotifying⟩ := List.countP_pos_iff.1 hpos
    obtain ⟨q, hq⟩ := List.getElem?_of_mem hproducer
    obtain ⟨w, hw⟩ := List.getElem?_of_mem hasleep
    cases producer with
    | notifying => exact ⟨_, .notifyOne hq hw⟩
    | _ => cases hnotifying

theorem length_workers_step {l : Label} (h : Step s l t) : t.workers.length = s.workers.length := by
  have hsettle : ∀ {q job} (outcome : Outcome),
      (s.settle q job outcome).workers.length = s.workers.length := fun outcome => by
    cases outcome <;> rfl
  cases h with
  | enter hproducer => exact hsettle _
  | recheck hproducer => exact hsettle _
  | look hworker =>
      unfold look
      split <;> exact List.length_set
  | notifyAll hdestructor => exact List.length_map _
  | notifyOne hproducer hworker => exact List.length_set
  | spuriousWorker hworker => exact List.length_set
  | notFullNone hworker hnone => exact List.length_set
  | notFullOne hworker hproducer => exact List.length_set
  | finish hworker => exact List.length_set
  | _ => rfl

/-- A bound on the steps of the workers before they dequeue a job. -/
def weight (s : PoolRun Job) : Nat :=
  2 * s.notifying + (s.workers.map Worker.rank).sum

theorem weight_worker {old : Worker Job} (hworker : s.workers[w]? = some old)
    (new : Worker Job) :
    ({ s with workers := s.workers.set w new } : PoolRun Job).weight + old.rank =
      s.weight + new.rank := by
  have hrank := Table.sum_map_set hworker new Worker.rank
  show 2 * s.notifying + ((s.workers.set w new).map Worker.rank).sum + old.rank =
    2 * s.notifying + (s.workers.map Worker.rank).sum + new.rank
  omega

theorem weight_producer {old : Producer Job} (hproducer : s.producers[q]? = some old)
    (new : Producer Job) :
    ({ s with producers := s.producers.set q new } : PoolRun Job).weight +
      2 * old.isNotifying.toNat = s.weight + 2 * new.isNotifying.toNat := by
  have hcount : (s.producers.set q new).countP Producer.isNotifying + old.isNotifying.toNat =
    s.notifying + new.isNotifying.toNat := Table.countP_set hproducer new Producer.isNotifying
  show 2 * (s.producers.set q new).countP Producer.isNotifying +
      (s.workers.map Worker.rank).sum + 2 * old.isNotifying.toNat =
    2 * s.notifying + (s.workers.map Worker.rank).sum + 2 * new.isNotifying.toNat
  omega

/-- A step of a worker dequeues the first job of the queue, or brings a worker closer to it. -/
theorem work_cases {rest : List Job} (h : Step s .work t) (htasks : s.pool.tasks = job :: rest) :
    t.dequeued = s.dequeued ++ [job] ∨
      (t.pool = s.pool ∧ t.dequeued = s.dequeued ∧ t.weight < s.weight) := by
  cases h with
  | @notifyNone q hproducer hnone =>
      have hweight : weight _ + 2 = s.weight + 0 := weight_producer hproducer .returned
      exact .inr ⟨rfl, rfl, by omega⟩
  | @notifyOne q w hproducer hworker =>
      let t : PoolRun Job := { s with producers := s.producers.set q .returned }
      have hnotified : t.weight + 2 = s.weight + 0 := weight_producer hproducer .returned
      have hweight : weight { t with workers := s.workers.set w .ready } + 0 = t.weight + 1 :=
        weight_worker (s := t) hworker .ready
      refine .inr ⟨rfl, rfl, ?_⟩
      show weight { t with workers := s.workers.set w .ready } < s.weight
      omega
  | look hworker =>
      refine .inl ?_
      simp only [look, htasks]
  | @notFullNone w job hworker hnone =>
      have hweight : weight _ + 3 = s.weight + 2 := weight_worker hworker (.running job)
      exact .inr ⟨rfl, rfl, by omega⟩
  | @notFullOne w q job other hworker hproducer =>
      let t : PoolRun Job := { s with producers := s.producers.set q (.woken other) }
      have hwoken : t.weight + 0 = s.weight + 0 := weight_producer hproducer (.woken other)
      have hweight : weight { t with workers := s.workers.set w (.running job) } + 3 =
        t.weight + 2 := weight_worker (s := t) hworker (.running job)
      refine .inr ⟨rfl, rfl, ?_⟩
      show weight { t with workers := s.workers.set w (.running job) } < s.weight
      omega
  | @finish w job hworker =>
      have hweight : weight _ + 2 = s.weight + 1 := weight_worker hworker .ready
      refine .inr ⟨rfl, rfl, ?_⟩
      show weight { s with workers := s.workers.set w .ready } < s.weight
      omega

/-- Steps of the workers, and notifications that are on their way. -/
def Works : PoolRun Job → PoolRun Job → Prop :=
  Relation.ReflTransGen fun s t => Step s .work t

/-- The workers dequeue the first job of the queue, without a spurious wakeup or another call. -/
theorem exists_dequeue (hs : Inv s) (hattended : Attended s) (hworkers : s.workers ≠ [])
    {rest : List Job} (htasks : s.pool.tasks = job :: rest) :
    ∃ t, Works s t ∧ t.dequeued = s.dequeued ++ [job] := by
  induction hweight : s.weight using Nat.strong_induction_on generalizing s with
  | _ n ih =>
      obtain ⟨t, hstep⟩ := exists_work hs hattended hworkers (htasks ▸ List.cons_ne_nil job rest)
      rcases work_cases hstep htasks with hdequeued | ⟨hpool, hsame, hlt⟩
      · exact ⟨t, .single hstep, hdequeued⟩
      · have hworkers' : t.workers ≠ [] := by
          rw [← List.length_pos_iff, length_workers_step hstep]
          exact List.length_pos_iff.2 hworkers
        obtain ⟨r, hworks, hdequeued⟩ := ih t.weight (hweight ▸ hlt) (inv_step hs hstep)
          (attended_step hattended hstep) hworkers' (hpool ▸ htasks) rfl
        exact ⟨r, hworks.head hstep, hdequeued.trans (by rw [hsame])⟩

theorem attended_run (hs : Attended s) (h : Run s t) : Attended t := by
  induction h with
  | refl => exact hs
  | tail _ hstep ih =>
      obtain ⟨l, hstep⟩ := hstep
      exact attended_step ih hstep

theorem length_workers_run (h : Run s t) : t.workers.length = s.workers.length := by
  induction h with
  | refl => rfl
  | tail _ hstep ih =>
      obtain ⟨l, hstep⟩ := hstep
      exact (length_workers_step hstep).trans ih

/-- Every accepted job is dequeued once, in the order of acceptance, and a job in the queue can
always be dequeued; when the destructor returns, all accepted jobs have been run; nothing is
accepted once the pool has been stopped; and `submit` and `try_submit` respect the bound. -/
theorem jobs_exactly_once (numThreads maxQueueSize : Nat) (hthreads : 0 < numThreads)
    (s : PoolRun Job) (h : Reachable numThreads maxQueueSize s) :
    s.dequeued ++ s.pool.tasks = s.accepted ∧
    (∀ job rest, s.pool.tasks = job :: rest → ∃ t, Works s t ∧ t.dequeued = s.dequeued ++ [job]) ∧
    (s.destructor = .returned → s.pool.tasks = [] ∧ s.finished.Perm s.accepted) ∧
    (s.pool.stop = true → ∀ t, Run s t → t.accepted = s.accepted) ∧
    ∀ kind t, Step s (.submission kind) t → kind ≠ .enqueue → 0 < s.pool.maxQueueSize →
      t.pool.tasks = s.pool.tasks ∨ t.pool.tasks.length ≤ s.pool.maxQueueSize := by
  have hs : Inv s := inv_run (inv_start numThreads maxQueueSize) h
  have hattended : Attended s := by
    refine attended_run (fun hasleep => ?_) h
    cases List.eq_of_mem_replicate hasleep
  have hworkers : s.workers ≠ [] := by
    rw [← List.length_pos_iff, length_workers_run h]
    exact hthreads.trans_eq List.length_replicate.symm
  refine ⟨hs.queue, fun job rest => exists_dequeue hs hattended hworkers, fun hreturned => ?_,
    fun hstop t hrun => (accepted_run_of_stopped hstop hrun).2, fun kind t => tasks_submission⟩
  -- all workers have ended, so that nothing is in the queue or in their hands
  have hexited := hs.joined hreturned
  obtain ⟨worker, hworker⟩ := List.exists_mem_of_ne_nil s.workers hworkers
  have htasks := (hs.exited (hexited worker hworker ▸ hworker)).2
  have hheld : s.held = [] := List.filterMap_eq_nil_iff.2 fun worker hmem => by
    rw [hexited worker hmem]
    rfl
  have hqueue := hs.queue
  have hinFlight := hs.inFlight
  rw [htasks, List.append_nil] at hqueue
  rw [hheld, List.append_nil, hqueue] at hinFlight
  exact ⟨htasks, hinFlight.symm⟩

/-- One worker runs the job of one `submit`, and the pool is destroyed. -/
def destroyed : PoolRun Nat where
  pool := { stop := true, maxQueueSize := 1 }
  workers := [.exited]
  producers := [.returned]
  destructor := .returned
  accepted := [7]
  dequeued := [7]
  finished := [7]

theorem destroyed_reachable : Reachable 1 1 destroyed := by
  have hready : Worker.asleep ∉ [(Worker.ready : Worker Nat)] := by simp
  have hnone : ∀ other : Nat, Producer.asleep other ∉ [(Producer.returned : Producer Nat)] := by
    simp
  have hexited : ∀ worker ∈ [(Worker.exited : Worker Nat)], worker = .exited := by simp
  have hcall : Run (start 1 1) _ := .single ⟨_, .call .submit 7⟩
  have hpushed : Run (start 1 1) _ := hcall.tail ⟨_, .enter (q := 0) rfl⟩
  have hreturned : Run (start 1 1) _ := hpushed.tail ⟨_, .notifyNone (q := 0) rfl hready⟩
  have htaken : Run (start 1 1) _ := hreturned.tail ⟨_, .look (w := 0) rfl⟩
  have hrunning : Run (start 1 1) _ := htaken.tail ⟨_, .notFullNone (w := 0) rfl hnone⟩
  have hfinished : Run (start 1 1) _ := hrunning.tail ⟨_, .finish (w := 0) rfl⟩
  have hstop : Run (start 1 1) _ := hfinished.tail ⟨_, .stop rfl⟩
  have hnotified : Run (start 1 1) _ := hstop.tail ⟨_, .notifyAll rfl⟩
  have hlooked : Run (start 1 1) _ := hnotified.tail ⟨_, .look (w := 0) rfl⟩
  exact hlooked.tail ⟨_, .join rfl hexited⟩

theorem jobs_exactly_once_destroyed :
    Reachable 1 1 destroyed ∧ destroyed.finished.Perm destroyed.accepted :=
  ⟨destroyed_reachable,
    ((jobs_exactly_once 1 1 Nat.one_pos destroyed destroyed_reachable).2.2.1 rfl).2⟩

end PoolRun

end ApiGateway.Utils
