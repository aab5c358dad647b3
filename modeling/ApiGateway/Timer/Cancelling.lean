import ApiGateway.Library.SiftHeap
import ApiGateway.Timer.Timer

/-!
# Cancelled timers

A timer in use, with the events in their order. A `tick` collects the callbacks that are due while
it holds the lock, and starts them one after the other when it has released it. In between, the
callbacks and other threads call `run_after`, `run_every` and `cancel`. The main result is
`cancelled_never_started_iff`: a cancelled timer is not started any more, unless its callback had
been collected when it was cancelled. The invariant says for every call of `cancel` that the entries
of its timer are marked, so that no later tick collects them.
-/

namespace ApiGateway

open StdHeap Timer

/-- What happens to a timer: a timer is set, a call of `cancel` returns, a `tick` has collected the
callbacks of some timers, and it starts one of them. -/
inductive TimerEvent where
  | set (timerId : Nat)
  | cancelled (timerId : Nat)
  | ticked (timerIds : List Nat)
  | started (timerId : Nat)
  deriving DecidableEq

/-- The timers whose callbacks are collected and not yet started, after one more event. -/
def TimerEvent.await (waiting : List Nat) : TimerEvent → List Nat
  | ticked timerIds => timerIds
  | started _ => waiting.tail
  | _ => waiting

/-- The timers whose callbacks are collected and not yet started. -/
def waiting (events : List TimerEvent) : List Nat :=
  events.foldl TimerEvent.await []

theorem waiting_concat (events : List TimerEvent) (event : TimerEvent) :
    waiting (events ++ [event]) = event.await (waiting events) :=
  List.foldl_concat ..

/-- No timer is started after it has been cancelled. -/
def CancelledNeverStarted (events : List TimerEvent) : Prop :=
  ∀ before timerId after, events = before ++ .cancelled timerId :: after →
    .set timerId ∈ before → .started timerId ∉ after

/-- No timer is cancelled when its callback has been collected, unless it still waits. -/
def NoneTooLate (events : List TimerEvent) : Prop :=
  ∀ before timerId after, events = before ++ .cancelled timerId :: after →
    .set timerId ∈ before → timerId ∈ waiting before → timerId ∈ waiting events

/-- A timer, the entries whose callbacks the current `tick` has still to call, and what has
happened. -/
structure TimerUse where
  timer : Timer := {}
  ready : List TimerEntry := []
  events : List TimerEvent := []

namespace TimerUse

/-- The numbers of the timers whose callbacks are still to be called. -/
def readyIds (s : TimerUse) : List Nat :=
  s.ready.map TimerEntry.id

/-- A call of `run_after` or `run_every`. -/
def schedule (s : TimerUse) (set : Nat × Timer) : TimerUse :=
  { s with timer := set.2, events := s.events ++ [.set set.1] }

/-- A call of `cancel`. -/
def cancel (s : TimerUse) (timerId : Nat) : TimerUse :=
  { s with timer := s.timer.cancel timerId, events := s.events ++ [.cancelled timerId] }

/-- The part of `tick` under the lock. -/
def tick (ops : HeapOps TimerEntry.expireTime) (s : TimerUse) (now : Int) : TimerUse where
  timer := (s.timer.tick ops now).1
  ready := (s.timer.tick ops now).2
  events := s.events ++ [.ticked ((s.timer.tick ops now).2.map TimerEntry.id)]

/-- The next pass of the loop of `tick` that calls the callbacks. -/
def start (s : TimerUse) (e : TimerEntry) (rest : List TimerEntry) : TimerUse :=
  { s with ready := rest, events := s.events ++ [.started e.id] }

/-- The steps. A `tick` begins when the one before has called all its callbacks, as it is called by
the main loop only, and the other calls come at any time. -/
inductive Step (ops : HeapOps TimerEntry.expireTime) : TimerUse → TimerUse → Prop where
  | runAfter {s : TimerUse} (delayMs : Int) (cb : Nat) (now : Int) :
      Step ops s (s.schedule (s.timer.runAfter ops delayMs cb now))
  | runEvery {s : TimerUse} (intervalMs : Int) (cb : Nat) (now : Int) :
      Step ops s (s.schedule (s.timer.runEvery ops intervalMs cb now))
  | cancel {s : TimerUse} (timerId : Nat) : Step ops s (s.cancel timerId)
  | tick {s : TimerUse} (now : Int) (hready : s.ready = []) : Step ops s (s.tick ops now)
  | start {s : TimerUse} {e : TimerEntry} {rest : List TimerEntry} (hready : s.ready = e :: rest) :
      Step ops s (s.start e rest)

/-- The states of a timer in use. -/
def Reachable (ops : HeapOps TimerEntry.expireTime) : TimerUse → Prop :=
  Relation.ReflTransGen (Step ops) {}

/-- What holds of a timer since a call of `cancel`, if `waited` says that its callback was collected
then and `after` are the events since. -/
structure Since (s : TimerUse) (timerId : Nat) (waited : Prop) (after : List TimerEvent) :
    Prop where
  marked : ∀ e ∈ s.timer.heap.entries, e.id = timerId → e.cancelled = true
  waits : timerId ∈ s.readyIds → waited
  started_iff : .started timerId ∈ after ↔ waited ∧ timerId ∉ s.readyIds

/-- The invariant. -/
structure Inv (s : TimerUse) : Prop where
  issued : ∀ e ∈ s.timer.heap.entries, e.id < s.timer.nextId
  unique : ∀ id, (s.timer.heap.entries.countP fun e => e.id = id) ≤ 1
  readyUnique : ∀ id, (s.ready.countP fun e => e.id = id) ≤ 1
  setIssued : ∀ id, .set id ∈ s.events → id < s.timer.nextId
  waiting : waiting s.events = s.readyIds
  since : ∀ before id after, s.events = before ++ .cancelled id :: after → .set id ∈ before →
    Since s id (id ∈ ApiGateway.waiting before) after

variable {ops : HeapOps TimerEntry.expireTime} {s t : TimerUse}

theorem inv_start : Inv {} := by
  constructor <;> simp [Heap.empty, ApiGateway.waiting, readyIds]

/-- How a list with one more element is split at an element. -/
theorem concat_eq_split {α : Type*} {l before after : List α} {a b : α}
    (h : l ++ [a] = before ++ b :: after) :
    (l = before ∧ a = b ∧ after = []) ∨ ∃ rest, after = rest ++ [a] ∧ l = before ++ b :: rest := by
  rcases after.eq_nil_or_concat with rfl | ⟨rest, last, rfl⟩
  · obtain ⟨hl, ha⟩ := List.append_inj' h rfl
    exact .inl ⟨hl, by simpa using ha, rfl⟩
  · rw [List.concat_eq_append, ← List.cons_append, ← List.append_assoc] at h
    obtain ⟨hl, ha⟩ := List.append_inj' h rfl
    obtain rfl : a = last := by simpa using ha
    exact .inr ⟨rest, List.concat_eq_append, hl⟩

/-- A call of `cancel` before the last event is one of those before. -/
theorem Inv.since_concat (hs : Inv s) {event : TimerEvent}
    {before after : List TimerEvent} {id : Nat}
    (h : s.events ++ [event] = before ++ .cancelled id :: after) (hset : .set id ∈ before)
    (hevent : event ≠ .cancelled id) :
    ∃ rest, after = rest ++ [event] ∧ id < s.timer.nextId ∧
      Since s id (id ∈ ApiGateway.waiting before) rest := by
  rcases concat_eq_split h with ⟨-, heq, -⟩ | ⟨rest, rfl, hevents⟩
  · exact absurd heq hevent
  · have hmem : .set id ∈ s.events := hevents ▸ List.mem_append_left _ hset
    exact ⟨rest, rfl, hs.setIssued id hmem, hs.since before id rest hevents hset⟩

/-- Events other than calls that set a timer leave the numbers that have been given. -/
theorem Inv.set_issued_concat (hs : Inv s) {event : TimerEvent} (hevent : ∀ id, event ≠ .set id)
    {id : Nat} (h : .set id ∈ s.events ++ [event]) : id < s.timer.nextId := by
  rcases List.mem_append.1 h with hold | hnew
  · exact hs.setIssued id hold
  · exact absurd (List.mem_singleton.1 hnew).symm (hevent id)

theorem started_mem_concat {events : List TimerEvent} {event : TimerEvent} {id : Nat}
    (hevent : event ≠ .started id) :
    .started id ∈ events ++ [event] ↔ .started id ∈ events := by
  rw [List.mem_append, List.mem_singleton, or_iff_left hevent.symm]

theorem inv_schedule (hs : Inv s) (delayMs intervalMs : Int) (cb : Nat) (now : Int) :
    Inv (s.schedule (s.timer.add ops delayMs intervalMs cb now)) := by
  have hperm := s.timer.heap.push_perm ops
    { id := s.timer.nextId, expireTime := now + milliseconds delayMs, intervalMs := intervalMs,
      callback := some cb }
  constructor
  case issued =>
    intro e he
    rcases List.mem_cons.1 (hperm.subset he) with rfl | hold
    · exact Nat.lt_succ_self _
    · exact (hs.issued e hold).trans (Nat.lt_succ_self _)
  case unique =>
    intro id
    refine (hperm.countP_eq _).trans_le ?_
    rw [Table.countP_cons]
    by_cases hid : s.timer.nextId = id
    · have hzero : (s.timer.heap.entries.countP fun e => e.id = id) = 0 := by
        refine List.countP_eq_zero.2 fun e he heq => ?_
        have := hs.issued e he
        simp only [decide_eq_true_eq] at heq
        omega
      simp [hzero, hid]
    · simpa [hid] using hs.unique id
  case readyUnique => exact hs.readyUnique
  case setIssued =>
    intro id hid
    rcases List.mem_append.1 hid with hold | hnew
    · exact (hs.setIssued id hold).trans (Nat.lt_succ_self _)
    · cases List.mem_singleton.1 hnew
      exact Nat.lt_succ_self _
  case waiting => exact (waiting_concat ..).trans hs.waiting
  case since =>
    intro before id after hevents hset
    obtain ⟨rest, rfl, hid, h⟩ := hs.since_concat hevents hset (by rintro ⟨⟩)
    refine ⟨fun e he heq => ?_, h.waits, ?_⟩
    · rcases List.mem_cons.1 (hperm.subset he) with rfl | hold
      · exact absurd heq hid.ne'
      · exact h.marked e hold heq
    · exact (started_mem_concat (by rintro ⟨⟩)).trans h.started_iff

theorem inv_cancel (hs : Inv s) (timerId : Nat) : Inv (s.cancel timerId) := by
  have hmem : ∀ {e}, e ∈ (s.cancel timerId).timer.heap.entries →
      (e.id ≠ timerId ∧ e ∈ s.timer.heap.entries) ∨
        ∃ old ∈ s.timer.heap.entries, old.id = timerId ∧
          e = { old with cancelled := true, callback := none } :=
    mem_cancel_first (hs.unique timerId)
  constructor
  case issued =>
    intro e he
    rcases hmem he with ⟨-, hold⟩ | ⟨old, hold, -, rfl⟩
    · exact hs.issued e hold
    · exact hs.issued old hold
  case unique =>
    intro id
    have hcount : ((cancelFirst timerId s.timer.heap.entries).countP fun e => e.id = id) =
        s.timer.heap.entries.countP fun e => e.id = id := by
      rw [countP_id_eq, map_id_cancel_first, ← countP_id_eq]
    exact hcount.trans_le (hs.unique id)
  case readyUnique => exact hs.readyUnique
  case setIssued => exact fun id => hs.set_issued_concat (by rintro _ ⟨⟩)
  case waiting => exact (waiting_concat ..).trans hs.waiting
  case since =>
    intro before id after hevents hset
    rcases concat_eq_split hevents with ⟨rfl, heq, rfl⟩ | ⟨rest, rfl, hold⟩
    · cases heq
      refine ⟨fun e he heq => ?_, fun hready => hs.waiting ▸ hready, ?_⟩
      · rcases hmem he with ⟨hid, -⟩ | ⟨old, -, -, rfl⟩
        · exact absurd heq hid
        · rfl
      · rw [hs.waiting]
        exact iff_of_false List.not_mem_nil (fun h => h.2 h.1)
    · have h := hs.since before id rest hold hset
      refine ⟨fun e he heq => ?_, h.waits, ?_⟩
      · rcases hmem he with ⟨-, hold⟩ | ⟨old, -, -, rfl⟩
        · exact h.marked e hold heq
        · rfl
      · exact (started_mem_concat (by rintro ⟨⟩)).trans h.started_iff

theorem inv_tick (hs : Inv s) (now : Int) (hready : s.ready = []) : Inv (s.tick ops now) := by
  have hticked := ticked_total ops s.timer.heap now
  constructor
  case issued =>
    intro e he
    rcases hticked.mem_heap he with hold | ⟨old, hold, -, rfl⟩
    · exact hs.issued e hold
    · exact hs.issued old hold
  case unique => exact fun id => (hticked.count_heap_le id).trans (hs.unique id)
  case readyUnique => exact fun id => (count_tick_le s.timer id).trans (hs.unique id)
  case setIssued => exact fun id => hs.set_issued_concat (by rintro _ ⟨⟩)
  case waiting => exact waiting_concat ..
  case since =>
    intro before id after hevents hset
    obtain ⟨rest, rfl, -, h⟩ := hs.since_concat hevents hset (by rintro ⟨⟩)
    -- a marked entry is neither collected nor renewed
    have hnot : id ∉ (s.tick ops now).readyIds := by
      intro hid
      obtain ⟨e, he, heq⟩ := List.mem_map.1 hid
      obtain ⟨hmem, hcancelled⟩ := mem_tick he
      rw [h.marked e hmem heq] at hcancelled
      cases hcancelled
    refine ⟨fun e he heq => ?_, fun hid => absurd hid hnot, ?_⟩
    · rcases hticked.mem_heap he with hold | ⟨old, hold, hcancelled, rfl⟩
      · exact h.marked e hold heq
      · rw [h.marked old hold heq] at hcancelled
        cases hcancelled
    · have hstarted := h.started_iff
      simp only [readyIds, hready, List.map_nil, List.not_mem_nil, not_false_eq_true,
        and_true] at hstarted
      rw [started_mem_concat (by rintro ⟨⟩), hstarted]
      exact (and_iff_left hnot).symm

theorem inv_start_next (hs : Inv s) {e : TimerEntry} {rest : List TimerEntry}
    (hready : s.ready = e :: rest) : Inv (s.start e rest) := by
  have hids : s.readyIds = e.id :: rest.map TimerEntry.id := by rw [readyIds, hready]; rfl
  have hcount := hs.readyUnique
  rw [hready] at hcount
  constructor
  case issued => exact hs.issued
  case unique => exact hs.unique
  case readyUnique =>
    intro id
    have hle := hcount id
    rw [Table.countP_cons] at hle
    exact (Nat.le_add_right _ _).trans hle
  case setIssued => exact fun id => hs.set_issued_concat (by rintro _ ⟨⟩)
  case waiting =>
    rw [start, waiting_concat, hs.waiting, hids]
    rfl
  case since =>
    intro before id after hevents hset
    obtain ⟨events, rfl, -, h⟩ := hs.since_concat hevents hset (by rintro ⟨⟩)
    have hwaits := h.waits
    have hstarted := h.started_iff
    rw [hids, List.mem_cons] at hwaits hstarted
    refine ⟨h.marked, fun hid => hwaits (.inr hid), ?_⟩
    show _ ↔ _ ∧ id ∉ rest.map TimerEntry.id
    rw [List.mem_append, List.mem_singleton, hstarted, TimerEvent.started.injEq]
    by_cases hid : id = e.id
    · have hone := hcount e.id
      rw [Table.countP_cons, decide_eq_true rfl] at hone
      have hnot : id ∉ rest.map TimerEntry.id := by
        intro hmem
        obtain ⟨e', he', heq⟩ := List.mem_map.1 hmem
        have hpos : 0 < rest.countP fun e' => e'.id = e.id :=
          List.countP_pos_iff.2 ⟨e', he', by simp [heq, hid]⟩
        simp only [Bool.toNat_true] at hone
        omega
      exact iff_of_true (.inr hid) ⟨hwaits (.inl hid), hnot⟩
    · simp [hid]

theorem inv_step (hs : Inv s) (h : Step ops s t) : Inv t := by
  cases h with
  | runAfter delayMs cb now => exact inv_schedule hs delayMs 0 cb now
  | runEvery intervalMs cb now => exact inv_schedule hs intervalMs intervalMs cb now
  | cancel timerId => exact inv_cancel hs timerId
  | tick now hready => exact inv_tick hs now hready
  | start hready => exact inv_start_next hs hready

theorem inv_reachable (h : Reachable ops s) : Inv s := by
  induction h with
  | refl => exact inv_start
  | tail _ hstep ih => exact inv_step ih hstep

/-- No cancelled timer is started again exactly if none is cancelled after a `tick` has collected
its callback and before it has started it. -/
theorem cancelled_never_started_iff (ops : HeapOps TimerEntry.expireTime) (s : TimerUse)
    (h : Reachable ops s) : CancelledNeverStarted s.events ↔ NoneTooLate s.events := by
  have hs := inv_reachable h
  constructor
  · intro hnever before id after hevents hset hwaited
    have hsince := hs.since before id after hevents hset
    rw [hs.waiting]
    by_contra hnot
    exact hnever before id after hevents hset (hsince.started_iff.2 ⟨hwaited, hnot⟩)
  · intro hlate before id after hevents hset hstarted
    obtain ⟨hwaited, hnot⟩ := (hs.since before id after hevents hset).started_iff.1 hstarted
    rw [← hs.waiting] at hnot
    exact hnot (hlate before id after hevents hset hwaited)

/-- A periodic timer is cancelled before it is due. -/
def cancelledInTime : TimerUse :=
  let ops := siftOps TimerEntry.expireTime
  ((schedule {} (runEvery ops {} 20 1 0)).cancel 1).tick ops (milliseconds 30)

theorem cancelled_in_time_reachable : Reachable (siftOps _) cancelledInTime :=
  .tail (.tail (.tail .refl (.runEvery 20 1 0)) (.cancel 1)) (.tick _ rfl)

theorem cancelled_never_started_in_time :
    Reachable (siftOps _) cancelledInTime ∧ CancelledNeverStarted cancelledInTime.events := by
  refine ⟨cancelled_in_time_reachable,
    (cancelled_never_started_iff _ _ cancelled_in_time_reachable).2 ?_⟩
  intro before timerId after hevents _ hwaited
  have hsplit : [.set 1, .cancelled 1, .ticked []] = before ++ .cancelled timerId :: after :=
    hevents
  have hbefore : before = [.set 1] := by
    rcases before with - | ⟨_, - | ⟨_, - | ⟨_, _⟩⟩⟩ <;> simp_all
  rw [hbefore] at hwaited
  cases hwaited

/-- The entry of a timer for 10 milliseconds. -/
def firstEntry : TimerEntry where
  id := 1
  expireTime := milliseconds 10
  intervalMs := 0
  callback := some 1

/-- The entry of a timer for 20 milliseconds. -/
def secondEntry : TimerEntry where
  id := 2
  expireTime := milliseconds 20
  intervalMs := 0
  callback := some 2

/-- The entry of a timer for every 25 milliseconds. -/
def thirdEntry : TimerEntry where
  id := 3
  expireTime := milliseconds 25
  intervalMs := 25
  callback := some 3

/-- The three timers when one tick has found them all due. -/
def allDue : TimerUse :=
  let ops := siftOps TimerEntry.expireTime
  let first := schedule {} (runAfter ops {} 10 1 0)
  let second := first.schedule (first.timer.runAfter ops 20 2 0)
  let third := second.schedule (second.timer.runEvery ops 25 3 0)
  third.tick ops (milliseconds 30)

/-- The callback of the first timer cancels the two others. -/
def cancelledTooLate : TimerUse :=
  ((((allDue.start firstEntry [secondEntry, thirdEntry]).cancel 2).cancel 3).start secondEntry
    [thirdEntry]).start thirdEntry []

theorem cancelled_too_late_reachable : Reachable (siftOps _) cancelledTooLate := by
  have hdue : Reachable (siftOps _) allDue :=
    .tail (.tail (.tail (.tail .refl (.runAfter 10 1 0)) (.runAfter 20 2 0)) (.runEvery 25 3 0))
      (.tick _ rfl)
  have hready : allDue.ready = [firstEntry, secondEntry, thirdEntry] := by decide
  exact .tail (.tail (.tail (.tail (.tail hdue (.start hready)) (.cancel 2)) (.cancel 3))
    (.start rfl)) (.start rfl)

/-- Both timers are started after they have been cancelled. -/
theorem cancelled_is_started :
    Reachable (siftOps _) cancelledTooLate ∧
      cancelledTooLate.events =
        [.set 1, .set 2, .set 3, .ticked [1, 2, 3], .started 1, .cancelled 2, .cancelled 3,
          .started 2, .started 3] ∧
      ¬ CancelledNeverStarted cancelledTooLate.events := by
  have hevents : cancelledTooLate.events =
      [.set 1, .set 2, .set 3, .ticked [1, 2, 3], .started 1, .cancelled 2, .cancelled 3,
        .started 2, .started 3] := by decide
  refine ⟨cancelled_too_late_reachable, hevents, fun hnever => ?_⟩
  have hsecond := hnever [.set 1, .set 2, .set 3, .ticked [1, 2, 3], .started 1] 2
    [.cancelled 3, .started 2, .started 3] hevents
  exact hsecond (by decide) (by decide)

end TimerUse

end ApiGateway
