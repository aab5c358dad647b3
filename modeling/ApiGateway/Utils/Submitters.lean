import ApiGateway.Utils.ThreadPool

/-!
# Calls that wait for space in the queue

`submit` waits on `cv_not_full_` while the queue is full. A worker notifies one waiting thread after
each job it takes, so there have to be enough notifications for all of them: `Minded` is the
invariant that says so. A step of a thread that is already in the pool brings its job closer to its
end (`effort`), which gives `blocked_submits_finish`: in whatever order the threads go on, before
the destructor is called every waiting `submit` returns and every accepted job is run. The
destructor does not notify `cv_not_full_`, which gives `destructor_strands_submits`.
-/

namespace ApiGateway.Utils

universe u

variable {Job : Type u}

/-- Whether a thread waits on `cv_not_full_`. -/
def Producer.isAsleep : Producer Job → Bool
  | .asleep _ => true
  | _ => false

/-- Whether a thread has been woken up and is about to take the mutex again. -/
def Producer.isWoken : Producer Job → Bool
  | .woken _ => true
  | _ => false

/-- Whether a call has ended with an exception. -/
def Producer.isThrown : Producer Job → Bool
  | .thrown => true
  | _ => false

/-- Whether a worker is about to notify `cv_not_full_`. -/
def Worker.isTaken : Worker Job → Bool
  | .taken _ => true
  | _ => false

namespace PoolRun

/-- The calls of `submit` that wait for space. -/
def sleeping (s : PoolRun Job) : Nat :=
  s.producers.countP Producer.isAsleep

/-- The calls of `submit` that have been woken up. -/
def woken (s : PoolRun Job) : Nat :=
  s.producers.countP Producer.isWoken

/-- The calls that have ended with an exception. -/
def thrown (s : PoolRun Job) : Nat :=
  s.producers.countP Producer.isThrown

/-- The workers that are about to notify `cv_not_full_`. -/
def taken (s : PoolRun Job) : Nat :=
  s.workers.countP Worker.isTaken

/-- While a call waits for space, every free place of the queue has a thread that has been woken up
or a notification to come. -/
structure Minded (s : PoolRun Job) : Prop where
  bounded : 0 < s.sleeping + s.woken → 0 < s.pool.maxQueueSize
  room : s.pool.stop = false → 0 < s.sleeping →
    s.pool.maxQueueSize ≤ s.pool.tasks.length + s.woken + s.taken
  thrown : 0 < s.thrown → s.pool.stop = true

variable {s t : PoolRun Job} {q w : Nat} {job : Job}

theorem minded_start (numThreads maxQueueSize : Nat) :
    Minded (start numThreads maxQueueSize : PoolRun Job) where
  bounded h := (Nat.lt_irrefl 0 h).elim
  room _ h := (Nat.lt_irrefl 0 h).elim
  thrown h := (Nat.lt_irrefl 0 h).elim

/-- A call goes on. -/
theorem counts_producer {old : Producer Job} (hproducer : s.producers[q]? = some old)
    (new : Producer Job) {t : PoolRun Job} (ht : t.producers = s.producers.set q new) :
    t.sleeping + old.isAsleep.toNat = s.sleeping + new.isAsleep.toNat ∧
      t.woken + old.isWoken.toNat = s.woken + new.isWoken.toNat ∧
      t.thrown + old.isThrown.toNat = s.thrown + new.isThrown.toNat := by
  unfold sleeping woken thrown
  rw [ht]
  exact ⟨Table.countP_set hproducer new _, Table.countP_set hproducer new _,
    Table.countP_set hproducer new _⟩

/-- A worker goes on. -/
theorem taken_worker {old : Worker Job} (hworker : s.workers[w]? = some old) (new : Worker Job)
    {t : PoolRun Job} (ht : t.workers = s.workers.set w new) :
    t.taken + old.isTaken.toNat = s.taken + new.isTaken.toNat := by
  unfold taken
  rw [ht]
  exact Table.countP_set hworker new _

theorem taken_wake (s : PoolRun Job) :
    (s.workers.map Worker.wake).countP Worker.isTaken = s.taken := by
  rw [List.countP_map]
  refine List.countP_congr fun worker _ => ?_
  cases worker <;> rfl

/-- No more calls wait than before, and no notification is lost. -/
theorem Minded.mono (hs : Minded s) (hmax : t.pool.maxQueueSize = s.pool.maxQueueSize)
    (hstop : t.pool.stop = s.pool.stop) (hsleeping : t.sleeping ≤ s.sleeping)
    (hwaiting : t.sleeping + t.woken ≤ s.sleeping + s.woken) (hthrown : t.thrown ≤ s.thrown)
    (hroom : s.pool.tasks.length + s.woken + s.taken ≤
      t.pool.tasks.length + t.woken + t.taken) : Minded t where
  bounded h := hmax ▸ hs.bounded (by omega)
  room hopen h := by
    have hfree := hs.room (hstop ▸ hopen) (by omega)
    omega
  thrown h := hstop ▸ hs.thrown (by omega)

/-- The end of a locked part: a call that waits has found the queue full, and one that has waited is
not refused. -/
theorem minded_settle (hs : Minded s) {old : Producer Job}
    (hproducer : s.producers[q]? = some old) (hold : old.isAsleep = false ∧ old.isThrown = false)
    {outcome : Outcome} (hrefused : outcome = .refused → old.isWoken = false)
    (hthrown : outcome = .thrown → s.pool.stop = true)
    (hwaits : outcome = .waits →
      0 < s.pool.maxQueueSize ∧ s.pool.maxQueueSize ≤ s.pool.tasks.length) :
    Minded (s.settle q job outcome) := by
  have hcounts (new : Producer Job) {t : PoolRun Job} (ht : t.producers = s.producers.set q new) :
      t.sleeping = s.sleeping + new.isAsleep.toNat ∧
        t.woken + old.isWoken.toNat = s.woken + new.isWoken.toNat ∧
        t.thrown = s.thrown + new.isThrown.toNat := by
    have hset := counts_producer hproducer new ht
    rw [hold.1, hold.2] at hset
    exact hset
  have hwoken_le := Bool.toNat_le old.isWoken
  cases outcome with
  | pushed =>
      obtain ⟨hsleeping, hwoken, hfailed⟩ := hcounts .notifying (t := s.settle q job .pushed) rfl
      have hwoken' : (s.settle q job .pushed).woken + old.isWoken.toNat = s.woken := hwoken
      refine hs.mono rfl rfl hsleeping.le (hsleeping ▸ ?_) hfailed.le ?_
      · exact Nat.add_le_add_left (by omega) _
      · show _ ≤ (s.pool.tasks ++ [job]).length + _ + s.taken
        rw [List.length_append, List.length_singleton]
        omega
  | refused =>
      obtain ⟨hsleeping, hwoken, hfailed⟩ := hcounts .refused (t := s.settle q job .refused) rfl
      rw [hrefused rfl] at hwoken
      have hwoken' : (s.settle q job .refused).woken = s.woken := hwoken
      refine hs.mono rfl rfl hsleeping.le (hsleeping ▸ ?_) hfailed.le ?_
      · exact Nat.add_le_add_left hwoken'.le _
      · exact Nat.add_le_add_right (Nat.add_le_add_left hwoken'.ge _) _
  | thrown =>
      obtain ⟨hsleeping, hwoken, -⟩ := hcounts .thrown (t := s.settle q job .thrown) rfl
      have hsleeping' : (s.settle q job .thrown).sleeping = s.sleeping := hsleeping
      have hwoken' : (s.settle q job .thrown).woken + old.isWoken.toNat = s.woken := hwoken
      have hstop := hthrown rfl
      refine ⟨fun h => hs.bounded (by omega), fun hopen => ?_, fun _ => hstop⟩
      cases hopen.symm.trans hstop
  | waits =>
      obtain ⟨-, -, hfailed⟩ := hcounts (.asleep job) (t := s.settle q job .waits) rfl
      have hfailed' : (s.settle q job .waits).thrown = s.thrown := hfailed
      obtain ⟨hpos, hfull⟩ := hwaits rfl
      refine ⟨fun _ => hpos, fun _ _ => ?_, fun h => hs.thrown (hfailed' ▸ h)⟩
      show s.pool.maxQueueSize ≤ s.pool.tasks.length + _ + _
      omega

theorem recheck_thrown {pool : ThreadPool Job} (h : pool.recheck = .thrown) :
    pool.stop = true := by
  unfold ThreadPool.recheck at h
  split_ifs at h with hgo hstop
  exact hstop

theorem recheck_waits {pool : ThreadPool Job} (h : pool.recheck = .waits) :
    pool.maxQueueSize ≤ pool.tasks.length := by
  unfold ThreadPool.recheck at h
  split_ifs at h with hgo hstop
  exact Nat.le_of_not_lt fun hroom => hgo (Or.inr hroom)

theorem recheck_ne_refused (pool : ThreadPool Job) : pool.recheck ≠ .refused := by
  unfold ThreadPool.recheck
  split_ifs <;> simp

theorem enter_submit_ne_refused (pool : ThreadPool Job) : pool.enter .submit ≠ .refused := by
  simp only [ThreadPool.enter]
  split_ifs with hstop hpos
  · simp
  · exact recheck_ne_refused pool
  · simp

theorem enter_thrown {pool : ThreadPool Job} {kind : Submission}
    (h : pool.enter kind = .thrown) : pool.stop = true := by
  cases kind with
  | submit =>
      simp only [ThreadPool.enter] at h
      split_ifs at h with hstop hpos
      · exact hstop
      · exact recheck_thrown h
  | trySubmit =>
      simp only [ThreadPool.enter] at h
      split_ifs at h with hstop
      exact hstop
  | enqueue =>
      simp only [ThreadPool.enter] at h
      split_ifs at h with hstop
      exact hstop

/-- Only `submit` waits, on a queue that is full. -/
theorem enter_waits {pool : ThreadPool Job} {kind : Submission}
    (h : pool.enter kind = .waits) :
    0 < pool.maxQueueSize ∧ pool.maxQueueSize ≤ pool.tasks.length := by
  cases kind with
  | submit =>
      simp only [ThreadPool.enter] at h
      split_ifs at h with hstop hpos
      exact ⟨hpos, recheck_waits h⟩
  | trySubmit =>
      simp only [ThreadPool.enter] at h
      split_ifs at h
  | enqueue =>
      simp only [ThreadPool.enter] at h
      split_ifs at h

theorem minded_look (hs : Minded s) (hworker : s.workers[w]? = some .ready) :
    Minded (s.look w) := by
  unfold look
  split
  · have htaken := taken_worker hworker (if s.pool.stop then .exited else .asleep)
      (t := { s with workers := s.workers.set w (if s.pool.stop then .exited else .asleep) }) rfl
    refine hs.mono rfl rfl le_rfl le_rfl le_rfl (Nat.add_le_add_left ?_ _)
    split_ifs at htaken ⊢ with hstop
    · exact Nat.le_of_eq htaken.symm
    · exact Nat.le_of_eq htaken.symm
  · rename_i job rest htasks
    -- the place that becomes free is announced by the worker
    have htaken : taken { s with
        pool := { s.pool with tasks := rest }, dequeued := s.dequeued ++ [job]
        workers := s.workers.set w (.taken job) } = s.taken + 1 :=
      taken_worker hworker (.taken job) rfl
    refine hs.mono rfl rfl le_rfl le_rfl le_rfl ?_
    rw [htasks, List.length_cons, htaken]
    show _ ≤ rest.length + s.woken + _
    omega

/-- A worker goes on that does not notify `cv_not_full_`. -/
theorem Minded.worker (hs : Minded s) {old new : Worker Job} (hworker : s.workers[w]? = some old)
    (hold : old.isTaken = false) (finished : List Job) :
    Minded { s with workers := s.workers.set w new, finished := finished } := by
  have htaken := taken_worker hworker new
    (t := { s with workers := s.workers.set w new, finished := finished }) rfl
  rw [hold, Bool.toNat_false, Nat.add_zero] at htaken
  refine hs.mono rfl rfl le_rfl le_rfl le_rfl (Nat.add_le_add_left ?_ _)
  rw [htaken]
  exact Nat.le_add_right _ _

/-- A call that has put its job into the queue notifies `cv_`. -/
theorem Minded.returned (hs : Minded s) (hproducer : s.producers[q]? = some .notifying) :
    Minded { s with producers := s.producers.set q .returned } := by
  obtain ⟨hsleeping, hwoken, hfailed⟩ := counts_producer hproducer .returned
    (t := { s with producers := s.producers.set q .returned }) rfl
  have hwaiting := congrArg₂ (· + ·) hsleeping hwoken
  exact hs.mono rfl rfl hsleeping.le hwaiting.le hfailed.le
    (congrArg (fun n => s.pool.tasks.length + n + s.taken) hwoken).ge

theorem minded_step {l : Label} (hs : Minded s) (h : Step s l t) : Minded t := by
  cases h with
  | call kind job =>
      have hcount (p : Producer Job → Bool) (hp : p (.entering kind job) = false) :
          (s.producers ++ [Producer.entering kind job]).countP p = s.producers.countP p := by
        rw [Table.countP_append, hp, Bool.toNat_false, Nat.add_zero]
      have hsleeping := hcount Producer.isAsleep rfl
      have hwoken := hcount Producer.isWoken rfl
      exact hs.mono rfl rfl hsleeping.le (congrArg₂ _ hsleeping hwoken).le
        (hcount Producer.isThrown rfl).le
        (congrArg (fun n => s.pool.tasks.length + n + s.taken) hwoken.symm).le
  | enter hproducer =>
      exact minded_settle hs hproducer ⟨rfl, rfl⟩ (fun _ => rfl) enter_thrown enter_waits
  | @recheck q job hproducer =>
      have hwoken : 0 < s.woken :=
        List.countP_pos_iff.2 ⟨_, List.mem_of_getElem? hproducer, rfl⟩
      have hpos := hs.bounded (Nat.add_pos_right _ hwoken)
      exact minded_settle hs hproducer ⟨rfl, rfl⟩ (fun h => absurd h (recheck_ne_refused _))
        recheck_thrown fun h => ⟨hpos, recheck_waits h⟩
  | @spuriousProducer q job hproducer =>
      obtain ⟨hsleeping, hwoken, hfailed⟩ := counts_producer hproducer (.woken job)
        (t := { s with producers := s.producers.set q (.woken job) }) rfl
      have hsleeping' : sleeping _ + 1 = s.sleeping := hsleeping
      have hwoken' : woken _ = s.woken + 1 := hwoken
      refine hs.mono rfl rfl (by omega) (by omega) hfailed.le ?_
      show _ ≤ s.pool.tasks.length + _ + s.taken
      omega
  | notifyNone hproducer hnone => exact hs.returned hproducer
  | notifyOne hproducer hworker => exact (hs.returned hproducer).worker hworker rfl _
  | look hworker => exact minded_look hs hworker
  | spuriousWorker hworker => exact hs.worker hworker rfl s.finished
  | @notFullNone w job hworker hnone =>
      have hsleeping : s.sleeping = 0 := by
        refine List.countP_eq_zero.2 fun producer hmem hasleep => ?_
        cases producer with
        | asleep other => exact hnone other hmem
        | entering | woken | notifying | returned | refused | thrown => cases hasleep
      refine ⟨hs.bounded, fun _ h => ?_, hs.thrown⟩
      exact absurd (show 0 < s.sleeping from h) (by omega)
  | @notFullOne w q job other hworker hproducer =>
      -- the notification is spent on a call that takes the mutex
      let t : PoolRun Job := { s with
        workers := s.workers.set w (.running job)
        producers := s.producers.set q (.woken other) }
      obtain ⟨hsleeping, hwoken, hfailed⟩ := counts_producer hproducer (.woken other) (t := t) rfl
      have hsleeping' : t.sleeping + 1 = s.sleeping := hsleeping
      have hwoken' : t.woken = s.woken + 1 := hwoken
      have htaken : t.taken + 1 = s.taken := taken_worker hworker (.running job) rfl
      show Minded t
      refine hs.mono rfl rfl (by omega) (by omega) hfailed.le ?_
      show _ ≤ s.pool.tasks.length + t.woken + t.taken
      omega
  | finish hworker => exact hs.worker hworker rfl _
  | stop hdestructor =>
      refine ⟨hs.bounded, fun hopen => ?_, fun _ => rfl⟩
      cases hopen
  | notifyAll hdestructor =>
      refine ⟨hs.bounded, fun hopen h => ?_, hs.thrown⟩
      exact (hs.room hopen h).trans (Nat.add_le_add_left s.taken_wake.ge _)
  | join hdestructor hexited => exact ⟨hs.bounded, hs.room, hs.thrown⟩

theorem minded_run (hs : Minded s) (h : Run s t) : Minded t := by
  induction h with
  | refl => exact hs
  | tail _ hstep ih =>
      obtain ⟨l, hstep⟩ := hstep
      exact minded_step ih hstep

/-! ## What is left to do -/

end PoolRun

/-- What is left to do for a thread that hands over a job, its job included. -/
def Producer.effort : Producer Job → Nat
  | .entering _ _ | .woken _ => 7
  | .asleep _ => 6
  | .notifying => 2
  | .returned | .refused | .thrown => 0

/-- What is left to do for a worker. -/
def Worker.effort : Worker Job → Nat
  | .taken _ => 4
  | .running _ => 2
  | .ready => 1
  | .asleep | .exited => 0

namespace PoolRun

variable {s t : PoolRun Job} {q w : Nat} {job : Job}

/-- A step of a thread that is in the pool already: not a new call, a spurious wakeup or a step of
the destructor. -/
def Proceeds (s t : PoolRun Job) : Prop :=
  Step s .work t ∨ ∃ kind, Step s (.submission kind) t

/-- A bound on the steps of the threads that are in the pool. -/
def effort (s : PoolRun Job) : Nat :=
  (s.producers.map Producer.effort).sum + 4 * s.pool.tasks.length +
    (s.workers.map Worker.effort).sum

theorem effort_producer {old : Producer Job} (hproducer : s.producers[q]? = some old)
    (new : Producer Job) :
    effort { s with producers := s.producers.set q new } + old.effort = s.effort + new.effort := by
  have hsum := Table.sum_map_set hproducer new Producer.effort
  show ((s.producers.set q new).map Producer.effort).sum + 4 * s.pool.tasks.length +
      (s.workers.map Worker.effort).sum + old.effort =
    (s.producers.map Producer.effort).sum + 4 * s.pool.tasks.length +
      (s.workers.map Worker.effort).sum + new.effort
  omega

theorem effort_worker {old : Worker Job} (hworker : s.workers[w]? = some old) (new : Worker Job) :
    effort { s with workers := s.workers.set w new } + old.effort = s.effort + new.effort := by
  have hsum := Table.sum_map_set hworker new Worker.effort
  show (s.producers.map Producer.effort).sum + 4 * s.pool.tasks.length +
      ((s.workers.set w new).map Worker.effort).sum + old.effort =
    (s.producers.map Producer.effort).sum + 4 * s.pool.tasks.length +
      (s.workers.map Worker.effort).sum + new.effort
  omega

/-- The jobs in the queue. -/
theorem effort_tasks (tasks : List Job) :
    effort { s with pool := { s.pool with tasks := tasks } } + 4 * s.pool.tasks.length =
      s.effort + 4 * tasks.length := by
  show (s.producers.map Producer.effort).sum + 4 * tasks.length +
      (s.workers.map Worker.effort).sum + 4 * s.pool.tasks.length =
    (s.producers.map Producer.effort).sum + 4 * s.pool.tasks.length +
      (s.workers.map Worker.effort).sum + 4 * tasks.length
  omega

theorem effort_settle {old : Producer Job} (hproducer : s.producers[q]? = some old)
    (hold : old.effort = 7) (outcome : Outcome) :
    (s.settle q job outcome).effort < s.effort := by
  cases outcome with
  | pushed =>
      let t : PoolRun Job := { s with producers := s.producers.set q .notifying }
      have hcall : t.effort + old.effort = s.effort + 2 := effort_producer hproducer .notifying
      have hqueue : (s.settle q job .pushed).effort + 4 * s.pool.tasks.length =
        t.effort + 4 * (s.pool.tasks ++ [job]).length := effort_tasks (s := t) _
      rw [List.length_append, List.length_singleton] at hqueue
      omega
  | refused =>
      have hcall : (s.settle q job .refused).effort + old.effort = s.effort + 0 :=
        effort_producer hproducer .refused
      omega
  | thrown =>
      have hcall : (s.settle q job .thrown).effort + old.effort = s.effort + 0 :=
        effort_producer hproducer .thrown
      omega
  | waits =>
      have hcall : (s.settle q job .waits).effort + old.effort = s.effort + 6 :=
        effort_producer hproducer (.asleep job)
      omega

theorem effort_look (hworker : s.workers[w]? = some .ready) : (s.look w).effort < s.effort := by
  unfold look
  split
  · have hmove := effort_worker hworker (if s.pool.stop then .exited else .asleep)
    have hidle : (if s.pool.stop then .exited else .asleep : Worker Job).effort = 0 := by
      split_ifs <;> rfl
    rw [hidle] at hmove
    exact Nat.lt_of_succ_le hmove.le
  · rename_i job rest htasks
    let t : PoolRun Job := { s with workers := s.workers.set w (.taken job) }
    have hmove : t.effort + 1 = s.effort + 4 := effort_worker hworker (.taken job)
    have hqueue : effort { t with pool := { s.pool with tasks := rest } } +
      4 * s.pool.tasks.length = t.effort + 4 * rest.length := effort_tasks (s := t) rest
    rw [htasks, List.length_cons] at hqueue
    show effort { t with pool := { s.pool with tasks := rest } } < s.effort
    omega

/-- Every such step leaves less to do. -/
theorem effort_lt (h : Proceeds s t) : t.effort < s.effort := by
  rcases h with h | ⟨kind, h⟩
  · cases h with
    | notifyNone hproducer hnone =>
        have hcall : effort _ + 2 = s.effort + 0 := effort_producer hproducer .returned
        omega
    | @notifyOne q w hproducer hworker =>
        let t : PoolRun Job := { s with producers := s.producers.set q .returned }
        have hcall : t.effort + 2 = s.effort + 0 := effort_producer hproducer .returned
        have hmove : effort { t with workers := s.workers.set w .ready } + 0 = t.effort + 1 :=
          effort_worker (s := t) hworker .ready
        show effort { t with workers := s.workers.set w .ready } < s.effort
        omega
    | look hworker => exact effort_look hworker
    | @notFullNone w job hworker hnone =>
        have hmove : effort _ + 4 = s.effort + 2 := effort_worker hworker (.running job)
        omega
    | @notFullOne w q job other hworker hproducer =>
        let t : PoolRun Job := { s with producers := s.producers.set q (.woken other) }
        have hcall : t.effort + 6 = s.effort + 7 := effort_producer hproducer (.woken other)
        have hmove : effort { t with workers := s.workers.set w (.running job) } + 4 =
          t.effort + 2 := effort_worker (s := t) hworker (.running job)
        show effort { t with workers := s.workers.set w (.running job) } < s.effort
        omega
    | @finish w job hworker =>
        have hmove : effort _ + 2 = s.effort + 1 := effort_worker hworker .ready
        show effort { s with workers := s.workers.set w .ready } < s.effort
        omega
  · cases h with
    | enter hproducer => exact effort_settle hproducer rfl _
    | recheck hproducer => exact effort_settle hproducer rfl _

theorem stop_of_proceeds (h : Proceeds s t) : t.pool.stop = s.pool.stop := by
  have hsettle (q : Nat) (job : Job) (outcome : Outcome) :
      (s.settle q job outcome).pool.stop = s.pool.stop := by
    cases outcome <;> rfl
  rcases h with h | ⟨kind, h⟩
  · cases h with
    | notifyNone | notifyOne | notFullNone | notFullOne | finish => rfl
    | look hworker =>
        unfold look
        split <;> rfl
  · cases h with
    | enter hproducer => exact hsettle _ _ _
    | recheck hproducer => exact hsettle _ _ _

theorem stop_of_proceeding (h : Relation.ReflTransGen Proceeds s t) :
    t.pool.stop = s.pool.stop := by
  induction h with
  | refl => rfl
  | tail _ hstep ih => exact (stop_of_proceeds hstep).trans ih

theorem run_of_proceeds (h : Relation.ReflTransGen Proceeds s t) : Run s t := by
  refine Relation.ReflTransGen.mono (fun s t hstep => ?_) _ _ h
  rcases hstep with hstep | ⟨kind, hstep⟩
  · exact ⟨_, hstep⟩
  · exact ⟨_, hstep⟩

/-! ## Where the threads stop -/

/-- A thread can notify `cv_`, whether or not a worker waits. -/
theorem exists_notify (hproducer : s.producers[q]? = some .notifying) : ∃ t, Step s .work t := by
  by_cases hasleep : Worker.asleep ∈ s.workers
  · obtain ⟨w, hworker⟩ := List.mem_iff_getElem?.1 hasleep
    exact ⟨_, .notifyOne hproducer hworker⟩
  · exact ⟨_, .notifyNone hproducer hasleep⟩

/-- A worker can notify `cv_not_full_`, whether or not a call waits. -/
theorem exists_not_full (hworker : s.workers[w]? = some (.taken job)) : ∃ t, Step s .work t := by
  by_cases hasleep : ∃ other, Producer.asleep other ∈ s.producers
  · obtain ⟨other, hmem⟩ := hasleep
    obtain ⟨q, hproducer⟩ := List.mem_iff_getElem?.1 hmem
    exact ⟨_, .notFullOne hworker hproducer⟩
  · exact ⟨_, .notFullNone hworker fun other hmem => hasleep ⟨other, hmem⟩⟩

/-- If no thread can go on, all workers are asleep. -/
theorem workers_at_rest (hinv : Inv s) (hstop : s.pool.stop = false) (hrest : ∀ t, ¬ Proceeds s t) :
    ∀ worker ∈ s.workers, worker = .asleep := by
  intro worker hmem
  obtain ⟨w, hworker⟩ := List.mem_iff_getElem?.1 hmem
  cases worker with
  | asleep => rfl
  | ready => exact (hrest _ (.inl (.look hworker))).elim
  | taken job =>
      obtain ⟨t, ht⟩ := exists_not_full hworker
      exact (hrest t (.inl ht)).elim
  | running job => exact (hrest _ (.inl (.finish hworker))).elim
  | exited => cases hstop.symm.trans (hinv.exited hmem).1

/-- If no thread can go on, nothing is in the queue and no call waits for space. -/
theorem at_rest (hinv : Inv s) (hattended : Attended s) (hminded : Minded s)
    (hworkers : s.workers ≠ []) (hstop : s.pool.stop = false) (hrest : ∀ t, ¬ Proceeds s t) :
    s.pool.tasks = [] ∧ s.held = [] ∧
      ∀ producer ∈ s.producers, producer = .returned ∨ producer = .refused := by
  have hasleep := workers_at_rest hinv hstop hrest
  have hready : s.ready = 0 := List.countP_eq_zero.2 fun worker hmem => by
    rw [hasleep worker hmem]
    exact Bool.false_ne_true
  have htaken : s.taken = 0 := List.countP_eq_zero.2 fun worker hmem => by
    rw [hasleep worker hmem]
    exact Bool.false_ne_true
  have hnotifying : s.notifying = 0 := List.countP_eq_zero.2 fun producer hmem hnotifies => by
    obtain ⟨q, hproducer⟩ := List.mem_iff_getElem?.1 hmem
    cases producer with
    | notifying =>
        obtain ⟨t, ht⟩ := exists_notify hproducer
        exact hrest t (.inl ht)
    | entering | asleep | woken | returned | refused | thrown => cases hnotifies
  have hwoken : s.woken = 0 := List.countP_eq_zero.2 fun producer hmem hwakes => by
    obtain ⟨q, hproducer⟩ := List.mem_iff_getElem?.1 hmem
    cases producer with
    | woken job => exact hrest _ (.inr ⟨_, .recheck hproducer⟩)
    | entering | asleep | notifying | returned | refused | thrown => cases hwakes
  have htasks : s.pool.tasks.length = 0 := by
    obtain ⟨worker, hmem⟩ := List.exists_mem_of_ne_nil _ hworkers
    have hbound := hattended (hasleep worker hmem ▸ hmem)
    omega
  have hsleeping : s.sleeping = 0 := by
    by_contra hwaits
    have hpos := hminded.bounded (by omega)
    have hroom := hminded.room hstop (by omega)
    omega
  refine ⟨List.length_eq_zero_iff.1 htasks, ?_, fun producer hmem => ?_⟩
  · refine List.filterMap_eq_nil_iff.2 fun worker hmem => ?_
    rw [hasleep worker hmem]
    rfl
  · obtain ⟨q, hproducer⟩ := List.mem_iff_getElem?.1 hmem
    cases producer with
    | returned => exact Or.inl rfl
    | refused => exact Or.inr rfl
    | entering kind job => exact (hrest _ (.inr ⟨_, .enter hproducer⟩)).elim
    | woken job => exact (List.countP_eq_zero.1 hwoken _ hmem rfl).elim
    | asleep job => exact (List.countP_eq_zero.1 hsleeping _ hmem rfl).elim
    | notifying => exact (List.countP_eq_zero.1 hnotifying _ hmem rfl).elim
    | thrown =>
        have hthrown := hminded.thrown (List.countP_pos_iff.2 ⟨_, hmem, rfl⟩)
        cases hstop.symm.trans hthrown

/-! ## The calls of `submit` -/

/-- A call of `submit` for a job that has not failed: it is before its push or has made it. -/
inductive Submitting (s : PoolRun Job) (job : Job) : Producer Job → Prop where
  | entering : Submitting s job (.entering .submit job)
  | asleep : Submitting s job (.asleep job)
  | woken : Submitting s job (.woken job)
  | notifying (hpushed : job ∈ s.accepted) : Submitting s job .notifying
  | returned (hpushed : job ∈ s.accepted) : Submitting s job .returned

theorem Submitting.mono {producer : Producer Job} (h : Submitting s job producer)
    (haccepted : s.accepted ⊆ t.accepted) : Submitting t job producer := by
  cases h with
  | entering => exact .entering
  | asleep => exact .asleep
  | woken => exact .woken
  | notifying hpushed => exact .notifying (haccepted hpushed)
  | returned hpushed => exact .returned (haccepted hpushed)

/-- The locked part of a call for a job that is not refused, if the pool has not been stopped. -/
theorem submitting_settle {old : Producer Job} (hproducer : s.producers[q]? = some old)
    {outcome : Outcome} (hrefused : outcome ≠ .refused) (hthrown : outcome ≠ .thrown) :
    ∃ new, (s.settle q job outcome).producers[q]? = some new ∧
      Submitting (s.settle q job outcome) job new := by
  cases outcome with
  | pushed =>
      exact ⟨_, Table.get_set_self hproducer _, .notifying (List.mem_append_right _ (by simp))⟩
  | waits => exact ⟨_, Table.get_set_self hproducer _, .asleep⟩
  | refused => exact absurd rfl hrefused
  | thrown => exact absurd rfl hthrown

theorem accepted_settle (q : Nat) (job : Job) (outcome : Outcome) :
    s.accepted ⊆ (s.settle q job outcome).accepted := by
  cases outcome with
  | pushed => exact List.subset_append_left _ _
  | refused | thrown | waits => exact fun _ h => h

/-- Another thread goes on. -/
theorem submitting_other {old new producer : Producer Job} {i : Nat}
    (hother : s.producers[i]? = some old) (hne : q ≠ i)
    (hproducer : s.producers[q]? = some producer)
    (h : Submitting s job producer) {t : PoolRun Job} (ht : t.producers = s.producers.set i new)
    (haccepted : s.accepted ⊆ t.accepted) :
    ∃ new, t.producers[q]? = some new ∧ Submitting t job new := by
  refine ⟨producer, ?_, h.mono haccepted⟩
  rw [ht]
  exact (Table.get_set_iff hother).2 (Or.inr ⟨hne, hproducer⟩)

theorem producers_settle (q : Nat) (job : Job) (outcome : Outcome) :
    ∃ new, (s.settle q job outcome).producers = s.producers.set q new := by
  cases outcome <;> exact ⟨_, rfl⟩

/-- While the pool has not been stopped, a call of `submit` does not fail. -/
theorem submitting_proceeds (hstop : s.pool.stop = false) {producer : Producer Job}
    (hproducer : s.producers[q]? = some producer) (h : Submitting s job producer)
    (hstep : Proceeds s t) : ∃ new, t.producers[q]? = some new ∧ Submitting t job new := by
  rcases hstep with hstep | ⟨kind, hstep⟩
  · cases hstep with
    | @notifyNone i hother hnone =>
        by_cases hi : q = i
        · subst hi
          cases hother.symm.trans hproducer
          cases h with
          | notifying hpushed => exact ⟨_, Table.get_set_self hproducer _, .returned hpushed⟩
        · exact submitting_other hother hi hproducer h rfl fun _ h => h
    | @notifyOne i w hother hworker =>
        by_cases hi : q = i
        · subst hi
          cases hother.symm.trans hproducer
          cases h with
          | notifying hpushed => exact ⟨_, Table.get_set_self hproducer _, .returned hpushed⟩
        · exact submitting_other hother hi hproducer h rfl fun _ h => h
    | look hworker =>
        refine ⟨producer, ?_, h.mono ?_⟩
        · unfold look
          split <;> exact hproducer
        · unfold look
          split <;> exact fun _ h => h
    | notFullNone hworker hnone => exact ⟨producer, hproducer, h.mono fun _ h => h⟩
    | @notFullOne w i job' other hworker hother =>
        by_cases hi : q = i
        · subst hi
          cases hother.symm.trans hproducer
          cases h with
          | asleep => exact ⟨_, Table.get_set_self hproducer _, .woken⟩
        · exact submitting_other hother hi hproducer h rfl fun _ h => h
    | finish hworker => exact ⟨producer, hproducer, h.mono fun _ h => h⟩
  · have hthrown {outcome : Outcome} (h : outcome = .thrown → s.pool.stop = true) :
        outcome ≠ .thrown := fun heq => by cases hstop.symm.trans (h heq)
    cases hstep with
    | @enter i kind other hother =>
        by_cases hi : q = i
        · subst hi
          cases hother.symm.trans hproducer
          cases h with
          | entering =>
              exact submitting_settle hproducer (enter_submit_ne_refused _) (hthrown enter_thrown)
        · obtain ⟨new, hnew⟩ := s.producers_settle i other (s.pool.enter kind)
          exact submitting_other hother hi hproducer h hnew (accepted_settle _ _ _)
    | @recheck i other hother =>
        by_cases hi : q = i
        · subst hi
          cases hother.symm.trans hproducer
          cases h with
          | woken =>
              exact submitting_settle hproducer (recheck_ne_refused _) (hthrown recheck_thrown)
        · obtain ⟨new, hnew⟩ := s.producers_settle i other s.pool.recheck
          exact submitting_other hother hi hproducer h hnew (accepted_settle _ _ _)

theorem submitting_proceeding (hstop : s.pool.stop = false) {producer : Producer Job}
    (hproducer : s.producers[q]? = some producer) (h : Submitting s job producer)
    (hrun : Relation.ReflTransGen Proceeds s t) :
    ∃ new, t.producers[q]? = some new ∧ Submitting t job new := by
  induction hrun with
  | refl => exact ⟨producer, hproducer, h⟩
  | tail hrun hstep ih =>
      obtain ⟨new, hnew, hsubmitting⟩ := ih
      exact submitting_proceeds ((stop_of_proceeding hrun).trans hstop) hnew hsubmitting hstep

/-- Before the destructor is called, the threads in the pool stop after finitely many steps in
whatever order they make them, and when they have stopped every call has returned or been refused,
the queue is empty and every accepted job has been run. So every call of `submit`, also one that
waits for space, returns and its job is run. -/
theorem blocked_submits_finish (numThreads maxQueueSize : Nat) (hthreads : 0 < numThreads)
    (s : PoolRun Job) (h : Reachable numThreads maxQueueSize s) (hstop : s.pool.stop = false) :
    (∀ run : Nat → PoolRun Job, run 0 = s → ∃ n, ¬ Proceeds (run n) (run (n + 1))) ∧
    ∀ t, Relation.ReflTransGen Proceeds s t → (∀ u, ¬ Proceeds t u) →
      (∀ producer ∈ t.producers, producer = .returned ∨ producer = .refused) ∧
      t.pool.tasks = [] ∧ t.finished.Perm t.accepted ∧
      ∀ (q : Nat) (job : Job) (producer : Producer Job), s.producers[q]? = some producer →
        producer = .entering .submit job ∨ producer = .asleep job ∨ producer = .woken job →
        t.producers[q]? = some .returned ∧ job ∈ t.finished := by
  refine ⟨fun run hstart => ?_, fun t hrun hrest => ?_⟩
  · by_contra hforever
    simp only [not_exists, not_not] at hforever
    have hdown (n : Nat) : (run n).effort + n ≤ (run 0).effort := by
      induction n with
      | zero => exact le_rfl
      | succ n ih =>
          have hlt := effort_lt (hforever n)
          omega
    have hbound := hdown ((run 0).effort + 1)
    omega
  · have hreach := h.trans (run_of_proceeds hrun)
    have hinv := inv_run (inv_start numThreads maxQueueSize) hreach
    have hattended : Attended t := by
      refine attended_run (fun hasleep => ?_) hreach
      cases List.eq_of_mem_replicate hasleep
    have hworkers : t.workers ≠ [] := by
      rw [← List.length_pos_iff, length_workers_run hreach]
      exact hthreads.trans_eq List.length_replicate.symm
    obtain ⟨htasks, hheld, hcalls⟩ := at_rest hinv hattended
      (minded_run (minded_start numThreads maxQueueSize) hreach) hworkers
      ((stop_of_proceeding hrun).trans hstop) hrest
    have hqueue := hinv.queue
    have hinFlight := hinv.inFlight
    rw [htasks, List.append_nil] at hqueue
    rw [hheld, List.append_nil, hqueue] at hinFlight
    refine ⟨hcalls, htasks, hinFlight.symm, fun q job producer hproducer hsubmit => ?_⟩
    have hsubmitting : Submitting s job producer := by
      rcases hsubmit with rfl | rfl | rfl
      · exact .entering
      · exact .asleep
      · exact .woken
    obtain ⟨new, hnew, hdone⟩ := submitting_proceeding hstop hproducer hsubmitting hrun
    rcases hcalls new (List.mem_of_getElem? hnew) with rfl | rfl
    · cases hdone with
      | returned hpushed => exact ⟨hnew, hinFlight.mem_iff.1 hpushed⟩
    · cases hdone

/-- A queue of one place with the job of a first call of `submit` in it, and a second call that
waits. -/
def secondWaits : PoolRun Nat where
  pool := { tasks := [1], maxQueueSize := 1 }
  workers := [.ready]
  producers := [.notifying, .asleep 2]
  accepted := [1]

theorem second_waits_reachable : Reachable 1 1 secondWaits := by
  have hfirst : Run (start 1 1 : PoolRun Nat) _ := .single ⟨_, .call .submit 1⟩
  have hpushed := hfirst.tail ⟨_, .enter (q := 0) rfl⟩
  have hsecond := hpushed.tail ⟨_, .call .submit 2⟩
  exact hsecond.tail ⟨.submission .submit, .enter (q := 1) rfl⟩

theorem blocked_submits_finish_second : Reachable 1 1 secondWaits ∧
    secondWaits.pool.stop = false ∧ secondWaits.producers[1]? = some (.asleep 2) ∧
    ∀ t, Relation.ReflTransGen Proceeds secondWaits t → (∀ u, ¬ Proceeds t u) →
      t.producers[1]? = some .returned ∧ 2 ∈ t.finished := by
  refine ⟨second_waits_reachable, rfl, rfl, fun t hrun hrest => ?_⟩
  obtain ⟨-, hends⟩ := blocked_submits_finish 1 1 (by decide) secondWaits second_waits_reachable rfl
  obtain ⟨-, -, -, hcalls⟩ := hends t hrun hrest
  exact hcalls 1 2 _ rfl (Or.inr (Or.inl rfl))

/-! ## The destructor -/

/-- A step in which no call of `submit` wakes up by itself. -/
def Quiet (s t : PoolRun Job) : Prop :=
  ∃ l, Step s l t ∧ (l = .other → s.sleeping ≤ t.sleeping)

/-- The jobs whose worker is still to notify `cv_not_full_`. -/
def unannounced (s : PoolRun Job) : Nat :=
  s.pool.tasks.length + s.taken

theorem enter_stopped (hstop : s.pool.stop = true) (kind : Submission) :
    s.pool.enter kind = .thrown := by
  cases kind <;> simp [ThreadPool.enter, hstop]

theorem recheck_stopped (hstop : s.pool.stop = true) : s.pool.recheck = .thrown := by
  simp [ThreadPool.recheck, hstop]

/-- A locked part of a call in a pool that has been stopped throws. -/
theorem submission_stopped (hstop : s.pool.stop = true) {kind : Submission}
    (h : Step s (.submission kind) t) :
    t.sleeping = s.sleeping ∧ t.unannounced = s.unannounced := by
  have hthrows {i : Nat} {old : Producer Job} (hproducer : s.producers[i]? = some old)
      (hold : old.isAsleep = false) (job : Job) :
      (s.settle i job .thrown).sleeping = s.sleeping := by
    obtain ⟨hsleeping, -, -⟩ := counts_producer hproducer .thrown
      (t := s.settle i job .thrown) rfl
    rw [hold] at hsleeping
    exact hsleeping
  cases h with
  | enter hproducer =>
      rw [enter_stopped hstop]
      exact ⟨hthrows hproducer rfl _, rfl⟩
  | recheck hproducer =>
      rw [recheck_stopped hstop]
      exact ⟨hthrows hproducer rfl _, rfl⟩

/-- In a pool that has been stopped, no call falls asleep. -/
theorem asleep_of_stopped (hstop : s.pool.stop = true) {l : Label} (h : Step s l t)
    (hasleep : t.producers[q]? = some (.asleep job)) : s.producers[q]? = some (.asleep job) := by
  have hset {i : Nat} {old new : Producer Job} (hold : s.producers[i]? = some old)
      (hnew : new ≠ .asleep job) (hget : (s.producers.set i new)[q]? = some (.asleep job)) :
      s.producers[q]? = some (.asleep job) := by
    rcases (Table.get_set_iff hold).1 hget with ⟨-, heq⟩ | ⟨-, hsame⟩
    · exact absurd heq.symm hnew
    · exact hsame
  cases h with
  | call kind other =>
      rcases Table.get_append_iff.1 hasleep with hsame | ⟨-, heq⟩
      · exact hsame
      · cases heq
  | enter hproducer =>
      rw [enter_stopped hstop] at hasleep
      exact hset hproducer (fun heq => (by cases heq)) hasleep
  | recheck hproducer =>
      rw [recheck_stopped hstop] at hasleep
      exact hset hproducer (fun heq => (by cases heq)) hasleep
  | spuriousProducer hproducer | notifyNone hproducer | notifyOne hproducer
  | notFullOne _ hproducer => exact hset hproducer (fun heq => (by cases heq)) hasleep
  | look hworker =>
      unfold look at hasleep
      split at hasleep <;> exact hasleep
  | spuriousWorker | notFullNone | finish | stop | notifyAll | join => exact hasleep

/-- A worker wakes up at most one call for each job it takes. -/
theorem work_sleeping (h : Step s .work t) :
    s.sleeping + t.unannounced ≤ t.sleeping + s.unannounced := by
  cases h with
  | notifyNone hproducer hnone =>
      obtain ⟨hsleeping, -, -⟩ := counts_producer hproducer .returned
        (t := { s with producers := s.producers.set _ .returned }) rfl
      exact Nat.add_le_add_right hsleeping.ge _
  | @notifyOne i w hproducer hworker =>
      let t : PoolRun Job :=
        { s with producers := s.producers.set i .returned, workers := s.workers.set w .ready }
      obtain ⟨hsleeping, -, -⟩ := counts_producer hproducer .returned (t := t) rfl
      have htaken : t.taken = s.taken := taken_worker hworker .ready rfl
      exact Nat.add_le_add hsleeping.ge (Nat.add_le_add_left htaken.le _)
  | @look w hworker =>
      refine Nat.add_le_add (Nat.le_of_eq ?_) ?_
      · unfold look
        split <;> rfl
      · unfold look
        split
        · have htaken := taken_worker hworker (if s.pool.stop then .exited else .asleep)
            (t := { s with workers := s.workers.set w (if s.pool.stop then .exited else .asleep) })
            rfl
          refine Nat.add_le_add_left ?_ _
          split_ifs at htaken ⊢ with hstop
          · exact htaken.le
          · exact htaken.le
        · rename_i job rest htasks
          let t : PoolRun Job := { s with
            pool := { s.pool with tasks := rest }, dequeued := s.dequeued ++ [job]
            workers := s.workers.set w (.taken job) }
          have htaken : t.taken = s.taken + 1 := taken_worker hworker (.taken job) rfl
          show rest.length + t.taken ≤ s.pool.tasks.length + s.taken
          rw [htasks, List.length_cons]
          omega
  | @notFullNone w job hworker hnone =>
      have htaken : taken { s with workers := s.workers.set w (.running job) } + 1 = s.taken :=
        taken_worker hworker (.running job) rfl
      refine Nat.add_le_add_left (Nat.add_le_add_left ?_ _) _
      omega
  | @notFullOne w i job other hworker hproducer =>
      let t : PoolRun Job := { s with
        workers := s.workers.set w (.running job)
        producers := s.producers.set i (.woken other) }
      obtain ⟨hsleeping, -, -⟩ := counts_producer hproducer (.woken other) (t := t) rfl
      have hsleeping' : t.sleeping + 1 = s.sleeping := hsleeping
      have htaken : t.taken + 1 = s.taken := taken_worker hworker (.running job) rfl
      show s.sleeping + (s.pool.tasks.length + t.taken) ≤
        t.sleeping + (s.pool.tasks.length + s.taken)
      omega
  | @finish w job hworker =>
      have htaken : taken { s with
          workers := s.workers.set w .ready, finished := s.finished ++ [job] } = s.taken :=
        taken_worker hworker .ready rfl
      exact Nat.add_le_add_left (Nat.add_le_add_left htaken.le _) _

/-- In a pool that has been stopped, a call only wakes up for a job that a worker takes. -/
theorem sleeping_quiet (hstop : s.pool.stop = true) (h : Quiet s t) :
    s.sleeping + t.unannounced ≤ t.sleeping + s.unannounced := by
  obtain ⟨l, hstep, hother⟩ := h
  cases l with
  | work => exact work_sleeping hstep
  | submission kind =>
      obtain ⟨hsleeping, hjobs⟩ := submission_stopped hstop hstep
      rw [hsleeping, hjobs]
  | other =>
      refine Nat.add_le_add (hother rfl) ?_
      cases hstep with
      | call | spuriousProducer | stop | join => exact le_rfl
      | @spuriousWorker w hworker =>
          have htaken : taken { s with workers := s.workers.set w .ready } = s.taken :=
            taken_worker hworker .ready rfl
          exact Nat.add_le_add_left htaken.le _
      | notifyAll hdestructor => exact Nat.add_le_add_left s.taken_wake.le _

/-- The destructor notifies `cv_` only. Once the pool has been stopped, no more calls fall asleep,
and of those that wait for space in the queue at most as many wake up as there are jobs in the queue
or just taken from it, whatever the threads and the destructor do: if more calls wait, some of them
never return. -/
theorem destructor_strands_submits (s : PoolRun Job) (hstop : s.pool.stop = true)
    (t : PoolRun Job) (hrun : Relation.ReflTransGen Quiet s t) :
    s.sleeping ≤ t.sleeping + s.pool.tasks.length + s.taken ∧
      ∀ (q : Nat) (job : Job), t.producers[q]? = some (.asleep job) →
        s.producers[q]? = some (.asleep job) := by
  have hbound : t.pool.stop = true ∧
      s.sleeping + t.unannounced ≤ t.sleeping + s.unannounced ∧
      ∀ (q : Nat) (job : Job), t.producers[q]? = some (.asleep job) →
        s.producers[q]? = some (.asleep job) := by
    induction hrun with
    | refl => exact ⟨hstop, le_rfl, fun _ _ h => h⟩
    | tail _ hquiet ih =>
        obtain ⟨hstopped, hle, hsame⟩ := ih
        have hnext := sleeping_quiet hstopped hquiet
        obtain ⟨l, hstep, -⟩ := hquiet
        exact ⟨(accepted_step_of_stopped hstopped hstep).1, by omega,
          fun q job hq => hsame q job (asleep_of_stopped hstopped hstep hq)⟩
  obtain ⟨-, hle, hsame⟩ := hbound
  unfold unannounced at hle
  exact ⟨by omega, hsame⟩

/-- Two calls wait for a place in the queue when the destructor sets `stop_`, and one of the two is
never woken up. -/
theorem destructor_strands_submits_two : ∃ s : PoolRun Nat, Reachable 1 1 s ∧
    s.pool.stop = true ∧ s.producers = [.notifying, .asleep 2, .asleep 3] ∧
    ∀ t, Relation.ReflTransGen Quiet s t → 1 ≤ t.sleeping ∧
      ∀ (q : Nat) (job : Nat), t.producers[q]? = some (.asleep job) →
        s.producers[q]? = some (.asleep job) := by
  have hthird := second_waits_reachable.tail ⟨_, .call .submit 3⟩
  have hwaits := hthird.tail ⟨.submission .submit, .enter (q := 2) rfl⟩
  have hstopped := hwaits.tail ⟨_, .stop rfl⟩
  refine ⟨_, hstopped, rfl, rfl, fun t hrun => ?_⟩
  obtain ⟨hbound, hsame⟩ := destructor_strands_submits _ rfl t hrun
  have hbound' : 2 ≤ t.sleeping + 1 + 0 := hbound
  exact ⟨by omega, hsame⟩

end PoolRun

end ApiGateway.Utils
