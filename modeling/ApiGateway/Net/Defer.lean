import Mathlib

/-!
# Deferred tasks

`EventLoop::defer` and `run_deferred_tasks` of `event_loop.cpp`, with the callback of the eventfd
that runs them. A call of `defer`, by a worker or by a task that is running, is two steps of its
thread: the push under the lock, and the write to the eventfd. A round of the reactor is a sequence
of steps as well, so that other threads can come in between: reading the eventfd until it is empty,
taking the queue under the lock, and then task after task.

The main result is `deferred_in_order`: the tasks run in the order in which they were queued, and
as long as one is left over the reactor is woken again. The limit on the tasks of one round holds
as long as their number fits an `int`.
-/

namespace ApiGateway.Net

variable {α : Type}

/-- `static_cast<int>` of a size. -/
def sizeToInt (n : Nat) : Int :=
  (n : Int).bmod (2 ^ 32)

/-- The tasks that `run_deferred_tasks` runs, and those that it leaves for the next round. -/
def roundTasks (maxDeferredPerRound : Int) (tasks : List α) : List α × List α :=
  if 0 < maxDeferredPerRound ∧ maxDeferredPerRound < sizeToInt tasks.length then
    (tasks.take maxDeferredPerRound.toNat, tasks.drop maxDeferredPerRound.toNat)
  else (tasks, [])

theorem round_tasks_append (maxDeferredPerRound : Int) (tasks : List α) :
    (roundTasks maxDeferredPerRound tasks).1 ++ (roundTasks maxDeferredPerRound tasks).2 =
      tasks := by
  unfold roundTasks
  split
  · exact List.take_append_drop _ _
  · exact List.append_nil _

theorem size_to_int_eq {n : Nat} (h : n < 2 ^ 31) : sizeToInt n = n :=
  Int.bmod_eq_of_le (by omega) (by omega)

/-- The limit is kept when the number of tasks fits an `int`. -/
theorem round_tasks_length_le {maxDeferredPerRound : Int} {tasks : List α}
    (hmax : 0 < maxDeferredPerRound) (hfew : tasks.length < 2 ^ 31) :
    ((roundTasks maxDeferredPerRound tasks).1.length : Int) ≤ maxDeferredPerRound := by
  unfold roundTasks
  split
  · rw [List.length_take]
    omega
  · rename_i h
    rw [size_to_int_eq hfew] at h
    exact not_lt.1 fun hlt => h ⟨hmax, hlt⟩

/-- Where the reactor is: waiting for events, reading the eventfd, about to take the queue,
running a round with the tasks it has still to run and those it will leave over, or about to write
to the eventfd because it has left some over. -/
inductive Phase (α : Type) where
  | waiting
  | draining
  | swapping
  | running (todo rest : List α)
  | waking

/-- The queues of the event loop and its eventfd; how many calls of `defer` are between their push
and their write; all tasks ever queued and all tasks ever run; and how many tasks the last round
has run. -/
structure DeferLoop (α : Type) where
  deferredTasks : List α := []
  pendingTasks : List α := []
  wakeup : Nat := 0
  writing : Nat := 0
  phase : Phase α := .waiting
  queued : List α := []
  executed : List α := []
  ran : Nat := 0

namespace DeferLoop

/-- A write to the eventfd, which fails when the counter is at its maximum. -/
def writeWakeup (s : DeferLoop α) : DeferLoop α :=
  { s with wakeup := if s.wakeup < 2 ^ 64 - 2 then s.wakeup + 1 else s.wakeup }

/-- The locked part of `defer`. -/
def push (s : DeferLoop α) (task : α) : DeferLoop α :=
  { s with
    deferredTasks := s.deferredTasks ++ [task]
    writing := s.writing + 1
    queued := s.queued ++ [task] }

/-- `run_deferred_tasks` takes the queue and merges what the last round has left over. -/
def swap (maxDeferredPerRound : Int) (s : DeferLoop α) : DeferLoop α :=
  let tasks := roundTasks maxDeferredPerRound (s.pendingTasks ++ s.deferredTasks)
  { s with deferredTasks := [], pendingTasks := [], phase := .running tasks.1 tasks.2, ran := 0 }

/-- One step of a thread that calls `defer`, or of the reactor. -/
inductive Step (maxDeferredPerRound : Int) : DeferLoop α → DeferLoop α → Prop where
  | push (s : DeferLoop α) (task : α) : Step maxDeferredPerRound s (s.push task)
  | write (s : DeferLoop α) (h : 0 < s.writing) :
      Step maxDeferredPerRound s { s.writeWakeup with writing := s.writing - 1 }
  | wake (s : DeferLoop α) (h : s.phase = .waiting) :
      Step maxDeferredPerRound s { s with phase := .draining }
  | read (s : DeferLoop α) (h : s.phase = .draining) (hwakeup : 0 < s.wakeup) :
      Step maxDeferredPerRound s { s with wakeup := 0 }
  | drained (s : DeferLoop α) (h : s.phase = .draining) (hwakeup : s.wakeup = 0) :
      Step maxDeferredPerRound s { s with phase := .swapping }
  | swap (s : DeferLoop α) (h : s.phase = .swapping) :
      Step maxDeferredPerRound s (s.swap maxDeferredPerRound)
  | run (s : DeferLoop α) {task : α} {todo rest : List α}
      (h : s.phase = .running (task :: todo) rest) :
      Step maxDeferredPerRound s
        { s with phase := .running todo rest, executed := s.executed ++ [task], ran := s.ran + 1 }
  | finish (s : DeferLoop α) (h : s.phase = .running [] []) :
      Step maxDeferredPerRound s { s with phase := .waiting }
  | leave (s : DeferLoop α) {rest : List α} (h : s.phase = .running [] rest) (hrest : rest ≠ []) :
      Step maxDeferredPerRound s { s with pendingTasks := rest, phase := .waking }
  | rewake (s : DeferLoop α) (h : s.phase = .waking) :
      Step maxDeferredPerRound s { s.writeWakeup with phase := .waiting }

/-- The states of an event loop. -/
def Reachable (maxDeferredPerRound : Int) : DeferLoop α → Prop :=
  Relation.ReflTransGen (Step maxDeferredPerRound) {}

/-- If a round is about to take the queue, the number of its tasks fits an `int`. -/
def Few (s : DeferLoop α) : Prop :=
  s.phase = .swapping → (s.pendingTasks ++ s.deferredTasks).length < 2 ^ 31

/-- The states of an event loop all of whose rounds have few tasks. -/
def ReachableFew (maxDeferredPerRound : Int) : DeferLoop α → Prop :=
  Relation.ReflTransGen (fun s t => Step maxDeferredPerRound s t ∧ s.Few) {}

/-! ## Invariants -/

/-- The tasks of the round in progress that have not run yet. -/
def inRound (s : DeferLoop α) : List α :=
  match s.phase with
  | .running todo rest => todo ++ rest
  | _ => []

/-- Whether the reactor will look at the queues before it waits again. -/
def Looking (s : DeferLoop α) : Prop :=
  s.phase = .draining ∨ s.phase = .swapping

/-- No task is lost or reordered, and no wakeup is lost. -/
structure Inv (s : DeferLoop α) : Prop where
  order : s.queued = s.executed ++ s.inRound ++ s.pendingTasks ++ s.deferredTasks
  merged : ∀ todo rest, s.phase = .running todo rest → s.pendingTasks = []
  deferred : s.deferredTasks ≠ [] → 0 < s.wakeup ∨ 0 < s.writing ∨ s.Looking
  pending : s.pendingTasks ≠ [] → 0 < s.wakeup ∨ s.Looking ∨ s.phase = .waking

variable {s t : DeferLoop α} {maxDeferredPerRound : Int}

theorem write_wakeup_pos (s : DeferLoop α) : 0 < s.writeWakeup.wakeup := by
  simp only [writeWakeup]
  split <;> omega

theorem inv_step (hs : Inv s) (h : Step maxDeferredPerRound s t) : Inv t := by
  have horder := hs.order
  cases h with
  | push task =>
      refine ⟨?_, hs.merged, fun _ => .inr (.inl (Nat.succ_pos _)), hs.pending⟩
      show s.queued ++ [task] = s.executed ++ s.inRound ++ s.pendingTasks ++
        (s.deferredTasks ++ [task])
      rw [horder, List.append_assoc _ s.deferredTasks]
  | write h =>
      exact ⟨horder, hs.merged, fun _ => .inl (write_wakeup_pos s),
        fun _ => .inl (write_wakeup_pos s)⟩
  | wake h =>
      refine ⟨?_, nofun, fun _ => .inr (.inr (.inl rfl)), fun _ => .inr (.inl (.inl rfl))⟩
      simpa [inRound, h] using horder
  | read h hwakeup =>
      exact ⟨horder, hs.merged, fun _ => .inr (.inr (.inl h)), fun _ => .inr (.inl (.inl h))⟩
  | drained h hwakeup =>
      refine ⟨?_, nofun, fun _ => .inr (.inr (.inr rfl)), fun _ => .inr (.inl (.inr rfl))⟩
      simpa [inRound, h] using horder
  | swap h =>
      refine ⟨?_, fun _ _ _ => rfl, fun h => absurd rfl h, fun h => absurd rfl h⟩
      have hall := round_tasks_append maxDeferredPerRound (s.pendingTasks ++ s.deferredTasks)
      simp only [swap, inRound, hall, List.append_nil]
      simpa [inRound, h] using horder
  | @run task todo rest h =>
      have hpending := hs.merged _ _ h
      refine ⟨?_, fun _ _ _ => hpending, fun hne => ?_, fun hne => absurd hpending hne⟩
      · simpa [inRound, h] using horder
      · simpa [Looking, h] using hs.deferred hne
  | finish h =>
      have hpending := hs.merged _ _ h
      refine ⟨?_, nofun, fun hne => ?_, fun hne => absurd hpending hne⟩
      · simpa [inRound, h] using horder
      · simpa [Looking, h] using hs.deferred hne
  | @leave rest h hrest =>
      have hpending := hs.merged _ _ h
      refine ⟨?_, nofun, fun hne => ?_, fun _ => .inr (.inr rfl)⟩
      · simpa [inRound, h, hpending] using horder
      · simpa [Looking, h] using hs.deferred hne
  | rewake h =>
      refine ⟨?_, nofun, fun _ => .inl (write_wakeup_pos s),
        fun _ => .inl (write_wakeup_pos s)⟩
      simpa [inRound, h, writeWakeup] using horder

theorem inv_reachable (h : Reachable maxDeferredPerRound s) : Inv s := by
  induction h with
  | refl => exact ⟨rfl, nofun, fun h => absurd rfl h, fun h => absurd rfl h⟩
  | tail _ hstep ih => exact inv_step ih hstep

/-- The number of tasks that the round in progress has still to run. -/
def remaining (s : DeferLoop α) : Nat :=
  match s.phase with
  | .running todo _ => todo.length
  | _ => 0

/-- A round that has few tasks keeps within its limit. -/
theorem limit_step (hmax : 0 < maxDeferredPerRound)
    (hs : (s.ran + s.remaining : Int) ≤ maxDeferredPerRound) (h : Step maxDeferredPerRound s t)
    (hfew : s.Few) : (t.ran + t.remaining : Int) ≤ maxDeferredPerRound := by
  cases h with
  | push task => exact hs
  | write h => exact hs
  | wake h | drained h hwakeup | finish h | leave h hrest | rewake h =>
      simpa [remaining, h, writeWakeup] using hs
  | read h hwakeup => exact hs
  | swap h => simpa [swap, remaining] using round_tasks_length_le hmax (hfew h)
  | run h =>
      simp only [remaining, h, List.length_cons] at hs ⊢
      push_cast at hs ⊢
      omega

theorem limit_reachable (hmax : 0 < maxDeferredPerRound)
    (h : ReachableFew maxDeferredPerRound s) :
    (s.ran + s.remaining : Int) ≤ maxDeferredPerRound := by
  induction h with
  | refl => simpa [remaining] using hmax.le
  | tail _ hstep ih => exact limit_step hmax ih hstep.1 hstep.2

/-- In every run whose rounds have few tasks, the tasks run in the order in which they have been
queued and none runs twice, each round keeps within its limit, and while the reactor waits no task
is left over without a wakeup that has been written or is about to be. -/
theorem deferred_in_order (maxDeferredPerRound : Int) (s : DeferLoop α)
    (hs : ReachableFew maxDeferredPerRound s) :
    s.executed <+: s.queued ∧ (s.queued.Nodup → s.executed.Nodup) ∧
      (0 < maxDeferredPerRound → (s.ran : Int) ≤ maxDeferredPerRound) ∧
      (s.phase = .waiting → s.deferredTasks ≠ [] ∨ s.pendingTasks ≠ [] →
        0 < s.wakeup ∨ 0 < s.writing) := by
  have hinv : Inv s := inv_reachable (Relation.ReflTransGen.mono (fun _ _ h => h.1) _ _ hs)
  have hpre : s.executed <+: s.queued := by
    rw [hinv.order, List.append_assoc, List.append_assoc]
    exact List.prefix_append _ _
  refine ⟨hpre, hpre.sublist.nodup, fun hmax => ?_, fun hwaiting hne => ?_⟩
  · have := limit_reachable hmax hs
    omega
  · rcases hne with hne | hne
    · simpa [Looking, hwaiting] using hinv.deferred hne
    · exact .inl (by simpa [Looking, hwaiting] using hinv.pending hne)

/-- Two workers have deferred a task, of which the first round has run one. It has written to the
eventfd, and the workers have not yet. -/
def leftOver : DeferLoop Nat :=
  { pendingTasks := [8], wakeup := 1, writing := 2, queued := [7, 8], executed := [7], ran := 1 }

theorem left_over_reachable : ReachableFew 1 leftOver := by
  have hpushed : ReachableFew 1 ((push {} 7).push 8) :=
    .tail (.single ⟨.push {} 7, nofun⟩) ⟨.push _ 8, nofun⟩
  have hswap := (hpushed.tail ⟨.wake _ rfl, nofun⟩).tail ⟨.drained _ rfl rfl, nofun⟩
  have hran := (hswap.tail ⟨.swap _ rfl, fun _ => (by decide)⟩).tail ⟨.run _ rfl, nofun⟩
  exact (hran.tail ⟨.leave _ rfl (List.cons_ne_nil _ _), nofun⟩).tail ⟨.rewake _ rfl, nofun⟩

theorem deferred_in_order_left_over :
    leftOver.pendingTasks = [8] ∧ leftOver.executed <+: leftOver.queued ∧
      leftOver.executed.Nodup ∧ (leftOver.ran : Int) ≤ 1 ∧
      (0 < leftOver.wakeup ∨ 0 < leftOver.writing) := by
  obtain ⟨hpre, hnodup, hran, hwakeup⟩ := deferred_in_order 1 leftOver left_over_reachable
  exact ⟨rfl, hpre, hnodup (by decide), hran (by decide),
    hwakeup rfl (.inr (List.cons_ne_nil _ _))⟩

/-! ## A round with too many tasks -/

/-- Any number of workers can have pushed a task. -/
theorem reachable_pushes (maxDeferredPerRound : Int) (n : Nat) :
    Reachable maxDeferredPerRound
      { deferredTasks := List.replicate n (), writing := n, queued := List.replicate n () } := by
  induction n with
  | zero => exact .refl
  | succ n ih =>
      refine .tail ih ?_
      rw [List.replicate_succ']
      exact .push _ ()

/-- A round takes all tasks when their number is negative as an `int`. -/
theorem ran_two {n : Nat} (hn : sizeToInt (n + 2) ≤ 1) :
    ∃ s : DeferLoop Unit, Reachable 1 s ∧ s.ran = 2 := by
  have hall : roundTasks 1 (List.replicate (n + 2) ()) = (List.replicate (n + 2) (), []) := by
    unfold roundTasks
    rw [List.length_replicate, if_neg (by omega)]
  let s : DeferLoop Unit :=
    { deferredTasks := List.replicate (n + 2) (), writing := n + 2,
      queued := List.replicate (n + 2) () }
  have hswap : Reachable 1 ({ s with phase := .swapping }.swap 1) :=
    .tail (.tail (.tail (reachable_pushes 1 (n + 2)) (.wake _ rfl)) (.drained _ rfl rfl))
      (.swap _ rfl)
  have hphase : ({ s with phase := .swapping }.swap 1).phase =
      .running (() :: () :: List.replicate n ()) [] := by
    show Phase.running (roundTasks 1 (List.replicate (n + 2) ())).1
      (roundTasks 1 (List.replicate (n + 2) ())).2 = _
    rw [hall]
    rfl
  exact ⟨_, .tail (.tail hswap (.run _ hphase)) (.run _ rfl), rfl⟩

/-- With a limit of one, a round that finds `2 ^ 31` tasks runs more than one of them. -/
theorem round_limit_exceeded : ∃ s : DeferLoop Unit, Reachable 1 s ∧ s.ran = 2 :=
  ran_two (n := 2 ^ 31 - 2) (by decide)

end DeferLoop

end ApiGateway.Net
