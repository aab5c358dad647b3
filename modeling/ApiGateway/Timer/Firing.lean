import ApiGateway.Library.Table
import ApiGateway.Timer.Timer

/-!
# When timers fire

A timer with the record of its use: for every number that `run_after` and `run_every` have returned,
what the timer was set to, and for every `tick` its time and the callbacks it has called. The main
result is `timers_fire_when_due`. The invariant relates the entries in the heap to the record: the
entry of a one-shot timer is there until the first tick that is late enough, and the entry of a
periodic timer expires an interval after its last run.
-/

namespace ApiGateway

open Loop StdHeap Timer

/-- What is known of a timer: the number of ticks before it was set, when it is due for the first
time, its interval, and the number of ticks before it was cancelled. -/
structure TimerInfo where
  born : Nat
  expireTime : Int
  intervalMs : Int
  cancelledAt : Option Nat := none

/-- A call of `tick`: its time, and the entries whose callbacks it has called, in their order. -/
structure Tick where
  time : Int
  fired : List TimerEntry

/-- How often a tick has called the callback of a timer. -/
def Tick.runs (tick : Tick) (timerId : Nat) : Nat :=
  tick.fired.countP fun e => e.id = timerId

/-- A timer with the record of its use. -/
structure TimerRun where
  timer : Timer := {}
  clock : Int
  info : Nat → Option TimerInfo := fun _ => none
  ticks : List Tick := []

namespace TimerRun

/-- A call of `run_after` or `run_every`. -/
def schedule (s : TimerRun) (set : Nat × Timer) (delayMs intervalMs now : Int) : TimerRun :=
  { s with
    timer := set.2
    clock := now
    info := Function.update s.info set.1
      (some { born := s.ticks.length
              expireTime := now + milliseconds delayMs
              intervalMs := intervalMs }) }

/-- A call of `cancel`. -/
def cancel (s : TimerRun) (timerId : Nat) (now : Int) : TimerRun :=
  { s with
    timer := s.timer.cancel timerId
    clock := now
    info := Function.update s.info timerId ((s.info timerId).map fun i =>
      { i with cancelledAt := i.cancelledAt.or (some s.ticks.length) }) }

/-- A call of `tick`. -/
def tick (ops : HeapOps TimerEntry.expireTime) (s : TimerRun) (now : Int) : TimerRun :=
  { s with
    timer := (s.timer.tick ops now).1
    clock := now
    ticks := s.ticks ++ [⟨now, (s.timer.tick ops now).2⟩] }

/-- The calls, at times that do not decrease. -/
inductive Step (ops : HeapOps TimerEntry.expireTime) : TimerRun → TimerRun → Prop where
  | runAfter {s : TimerRun} (delayMs : Int) (cb : Nat) {now : Int} (hclock : s.clock ≤ now) :
      Step ops s (s.schedule (s.timer.runAfter ops delayMs cb now) delayMs 0 now)
  | runEvery {s : TimerRun} (intervalMs : Int) (cb : Nat) {now : Int} (hclock : s.clock ≤ now) :
      Step ops s (s.schedule (s.timer.runEvery ops intervalMs cb now) intervalMs intervalMs now)
  | cancel {s : TimerRun} (timerId : Nat) {now : Int} (hclock : s.clock ≤ now) :
      Step ops s (s.cancel timerId now)
  | tick {s : TimerRun} {now : Int} (hclock : s.clock ≤ now) : Step ops s (s.tick ops now)

/-- The states of a timer that is created at some time. -/
def Reachable (ops : HeapOps TimerEntry.expireTime) (s : TimerRun) : Prop :=
  ∃ start, Relation.ReflTransGen (Step ops) { clock := start } s

/-- A tick since a timer was set has been late enough for it. -/
def Passed (ticks : List Tick) (i : TimerInfo) : Prop :=
  ∃ (j : Nat) (tick : Tick), i.born ≤ j ∧ ticks[j]? = some tick ∧ i.expireTime ≤ tick.time

/-- Tick `j` is the first one since a timer was set that is late enough for it. -/
def FiringTick (ticks : List Tick) (i : TimerInfo) (j : Nat) : Prop :=
  (∃ tick, i.born ≤ j ∧ ticks[j]? = some tick ∧ i.expireTime ≤ tick.time) ∧
    ∀ (j' : Nat) (tick : Tick), i.born ≤ j' → j' < j → ticks[j']? = some tick →
      tick.time < i.expireTime

/-- A timer was cancelled before tick `j`. -/
def CancelledBefore (i : TimerInfo) (j : Nat) : Prop :=
  ∃ c, i.cancelledAt = some c ∧ c ≤ j

/-- The number of entries of a timer in the heap. -/
def entries (s : TimerRun) (timerId : Nat) : Nat :=
  s.timer.heap.entries.countP fun e => e.id = timerId

/-- What has become of one timer, of which `count` entries are in the heap. -/
structure History (ticks : List Tick) (id count : Nat) (i : TimerInfo) : Prop where
  born_le : i.born ≤ ticks.length
  cancelled_le : ∀ c, i.cancelledAt = some c → c ≤ ticks.length
  pending : i.intervalMs ≤ 0 → ¬ Passed ticks i → count = 1
  popped : i.intervalMs ≤ 0 → Passed ticks i → count = 0
  runs : i.intervalMs ≤ 0 → ∀ (j : Nat) (tick : Tick), ticks[j]? = some tick →
    FiringTick ticks i j ∧ ¬ CancelledBefore i j → tick.runs id = 1
  runs_not : i.intervalMs ≤ 0 → ∀ (j : Nat) (tick : Tick), ticks[j]? = some tick →
    ¬ (FiringTick ticks i j ∧ ¬ CancelledBefore i j) → tick.runs id = 0
  periodic : 0 < i.intervalMs → i.cancelledAt = none → count = 1
  apart : 0 < i.intervalMs → ticks.Pairwise fun tick tick' =>
    tick.runs id ≠ 0 → tick'.runs id ≠ 0 → tick.time + milliseconds i.intervalMs ≤ tick'.time

/-- An entry of the heap is the one of a timer that has been set. A periodic one expires an interval
after its last run. -/
structure Entered (ticks : List Tick) (e : TimerEntry) (i : TimerInfo) : Prop where
  interval : e.intervalMs = i.intervalMs
  cancelled : e.cancelled = i.cancelledAt.isSome
  callback : e.cancelled = false → e.callback.isSome
  expire : i.intervalMs ≤ 0 → e.expireTime = i.expireTime
  spaced : 0 < i.intervalMs → ∀ tick ∈ ticks, tick.runs e.id ≠ 0 →
    tick.time + milliseconds i.intervalMs ≤ e.expireTime

/-- The invariant. -/
structure Inv (s : TimerRun) : Prop where
  fresh : ∀ id, s.timer.nextId ≤ id → s.info id = none
  unique : ∀ id, s.entries id ≤ 1
  entered : ∀ e ∈ s.timer.heap.entries, ∃ i, s.info e.id = some i ∧ Entered s.ticks e i
  firedKnown : ∀ tick ∈ s.ticks, ∀ e ∈ tick.fired, s.info e.id ≠ none
  order : ∀ tick ∈ s.ticks, tick.fired.Pairwise fun e e' => e.expireTime ≤ e'.expireTime
  once : ∀ tick ∈ s.ticks, ∀ id, tick.runs id ≤ 1
  history : ∀ id i, s.info id = some i → History s.ticks id (s.entries id) i

variable {ops : HeapOps TimerEntry.expireTime} {s t : TimerRun} {now : Int}

theorem inv_start (start : Int) : Inv { clock := start } := by
  constructor <;> simp [entries, Heap.empty]

theorem Inv.entries_eq_zero (hs : Inv s) {id : Nat} (h : s.info id = none) : s.entries id = 0 := by
  refine List.countP_eq_zero.2 fun e he hid => ?_
  obtain ⟨i, hi, -⟩ := hs.entered e he
  rw [of_decide_eq_true hid, h] at hi
  cases hi

theorem Inv.runs_eq_zero (hs : Inv s) {id : Nat} (h : s.info id = none) {tick : Tick}
    (htick : tick ∈ s.ticks) : tick.runs id = 0 := by
  refine List.countP_eq_zero.2 fun e he hid => ?_
  have hknown := hs.firedKnown tick htick e he
  rw [of_decide_eq_true hid] at hknown
  exact hknown h

/-! ## Setting a timer -/

/-- A timer that has just been set has not run. -/
theorem history_of_new {ticks : List Tick} {id : Nat} (expireTime intervalMs : Int)
    (hruns : ∀ tick ∈ ticks, tick.runs id = 0) :
    History ticks id 1 { born := ticks.length, expireTime, intervalMs } := by
  have hlt : ∀ {j : Nat} {tick : Tick}, ticks[j]? = some tick → ¬ ticks.length ≤ j := fun hget =>
    Nat.not_le.2 (List.getElem?_eq_some_iff.1 hget).1
  constructor
  case born_le => exact Nat.le_refl _
  case cancelled_le => intro c hc; cases hc
  case pending => exact fun _ _ => rfl
  case popped =>
    rintro - ⟨j, tick, hborn, hget, -⟩
    exact absurd hborn (hlt hget)
  case runs =>
    rintro - j tick hget ⟨⟨⟨_, hborn, -⟩, -⟩, -⟩
    exact absurd hborn (hlt hget)
  case runs_not => exact fun _ j tick hget _ => hruns tick (List.mem_of_getElem? hget)
  case periodic => exact fun _ _ => rfl
  case apart =>
    exact fun _ => List.pairwise_of_forall_mem_list fun tick htick _ _ hne =>
      absurd (hruns tick htick) hne

/-- Setting a timer adds one entry, under the next number. -/
theorem entries_schedule (s : TimerRun) (delayMs intervalMs : Int) (cb id : Nat) :
    (s.schedule (s.timer.add ops delayMs intervalMs cb now) delayMs intervalMs now).entries id =
      s.entries id + (decide (s.timer.nextId = id)).toNat := by
  show (s.timer.heap.push ops _).entries.countP _ = _
  rw [(s.timer.heap.push_perm ops _).countP_eq, Table.countP_cons]
  rfl

theorem inv_schedule (hs : Inv s) (delayMs intervalMs : Int) (cb : Nat) :
    Inv (s.schedule (s.timer.add ops delayMs intervalMs cb now) delayMs intervalMs now) := by
  have hnew : s.info s.timer.nextId = none := hs.fresh _ (Nat.le_refl _)
  have hself : (s.schedule (s.timer.add ops delayMs intervalMs cb now) delayMs intervalMs
      now).info s.timer.nextId = _ := Function.update_self ..
  have hother : ∀ {id}, id ≠ s.timer.nextId → (s.schedule (s.timer.add ops delayMs intervalMs cb
      now) delayMs intervalMs now).info id = s.info id := fun h => Function.update_of_ne h ..
  have hne : ∀ {id i}, s.info id = some i → id ≠ s.timer.nextId := by
    rintro id i hi rfl
    rw [hnew] at hi
    cases hi
  constructor
  case fresh =>
    intro id hid
    replace hid : s.timer.nextId + 1 ≤ id := hid
    rw [hother (by omega)]
    exact hs.fresh id (by omega)
  case unique =>
    intro id
    rw [entries_schedule]
    by_cases hid : s.timer.nextId = id
    · rw [← hid, hs.entries_eq_zero hnew]
      simp
    · simpa [hid] using hs.unique id
  case entered =>
    intro e he
    rcases List.mem_cons.1 ((s.timer.heap.push_perm ops _).subset he) with rfl | hold
    · refine ⟨_, hself, rfl, rfl, fun _ => rfl, fun _ => rfl, fun _ tick htick hruns => ?_⟩
      exact absurd (hs.runs_eq_zero hnew htick) hruns
    · obtain ⟨i, hi, hentered⟩ := hs.entered e hold
      exact ⟨i, (hother (hne hi)).trans hi, hentered⟩
  case firedKnown =>
    intro tick htick e he
    have hknown := hs.firedKnown tick htick e he
    have hid : e.id ≠ s.timer.nextId := fun hid => hknown (hid ▸ hnew)
    rwa [hother hid]
  case order => exact hs.order
  case once => exact hs.once
  case history =>
    intro id i hi
    rw [entries_schedule]
    show History s.ticks _ _ i
    by_cases hid : id = s.timer.nextId
    · subst hid
      rw [hself] at hi
      cases hi
      rw [hs.entries_eq_zero hnew]
      simpa using history_of_new (now + milliseconds delayMs) intervalMs fun tick htick =>
        hs.runs_eq_zero hnew htick
    · rw [hother hid] at hi
      simpa [Ne.symm hid] using hs.history id i hi

/-! ## Cancelling a timer -/

/-- Cancelling a timer changes nothing of what it has done in the ticks before. -/
theorem History.cancel {ticks : List Tick} {id count : Nat} {i : TimerInfo}
    (h : History ticks id count i) :
    History ticks id count { i with cancelledAt := i.cancelledAt.or (some ticks.length) } := by
  have hbefore : ∀ {j : Nat} {tick : Tick}, ticks[j]? = some tick →
      (CancelledBefore { i with cancelledAt := i.cancelledAt.or (some ticks.length) } j ↔
        CancelledBefore i j) := fun {j tick} hget => by
    have hlt := (List.getElem?_eq_some_iff.1 hget).1
    cases hc : i.cancelledAt with
    | some c => simp [CancelledBefore, hc]
    | none => simpa [CancelledBefore, hc] using hlt
  constructor
  case born_le => exact h.born_le
  case cancelled_le =>
    intro c hc
    cases hold : i.cancelledAt with
    | some c' =>
        simp only [hold, Option.some_or, Option.some.injEq] at hc
        exact hc ▸ h.cancelled_le c' hold
    | none =>
        simp only [hold, Option.none_or, Option.some.injEq] at hc
        exact hc ▸ Nat.le_refl _
  case pending => exact h.pending
  case popped => exact h.popped
  case runs =>
    intro hinterval j tick hget hfiring
    rw [hbefore hget] at hfiring
    exact h.runs hinterval j tick hget hfiring
  case runs_not =>
    intro hinterval j tick hget hfiring
    rw [hbefore hget] at hfiring
    exact h.runs_not hinterval j tick hget hfiring
  case periodic =>
    intro _ hc
    cases hold : i.cancelledAt <;> simp [hold] at hc
  case apart => exact h.apart

theorem inv_cancel (hs : Inv s) (timerId : Nat) : Inv (s.cancel timerId now) := by
  have hcount : ∀ id, (s.cancel timerId now).entries id = s.entries id := fun id => by
    show (cancelFirst timerId s.timer.heap.entries).countP _ = _
    rw [countP_id_eq, map_id_cancel_first, ← countP_id_eq]
    rfl
  have hself : (s.cancel timerId now).info timerId = _ := Function.update_self ..
  have hother : ∀ {id}, id ≠ timerId → (s.cancel timerId now).info id = s.info id := fun h =>
    Function.update_of_ne h ..
  have hnone : ∀ id, (s.cancel timerId now).info id = none ↔ s.info id = none := fun id => by
    by_cases hid : id = timerId
    · rw [hid, hself, Option.map_eq_none_iff]
    · rw [hother hid]
  constructor
  case fresh => exact fun id hid => (hnone id).2 (hs.fresh id hid)
  case unique => exact fun id => hcount id ▸ hs.unique id
  case entered =>
    intro e he
    rcases mem_cancel_first (hs.unique timerId) he with ⟨hid, hold⟩ | ⟨old, hold, rfl, rfl⟩
    · obtain ⟨i, hi, hentered⟩ := hs.entered e hold
      exact ⟨i, (hother hid).trans hi, hentered⟩
    · obtain ⟨i, hi, hentered⟩ := hs.entered old hold
      rw [hi, Option.map_some] at hself
      refine ⟨_, hself, hentered.interval, ?_, ?_, hentered.expire, hentered.spaced⟩
      · simp
      · intro hc
        cases hc
  case firedKnown =>
    intro tick htick e he
    rw [Ne, hnone]
    exact hs.firedKnown tick htick e he
  case order => exact hs.order
  case once => exact hs.once
  case history =>
    intro id i hi
    rw [hcount]
    show History s.ticks _ _ i
    by_cases hid : id = timerId
    · subst hid
      rw [hself] at hi
      obtain ⟨old, hold, rfl⟩ := Option.map_eq_some_iff.1 hi
      exact (hs.history id old hold).cancel
    · rw [hother hid] at hi
      exact hs.history id i hi

/-! ## Ticks -/

section Ticks

variable {ticks : List Tick} {last : Tick} {i : TimerInfo} {j : Nat}

theorem passed_append (hborn : i.born ≤ ticks.length) :
    Passed (ticks ++ [last]) i ↔ Passed ticks i ∨ i.expireTime ≤ last.time := by
  constructor
  · rintro ⟨j, tick, hj, hget, hdue⟩
    rcases Table.get_append_iff.1 hget with hold | ⟨-, rfl⟩
    · exact .inl ⟨j, tick, hj, hold, hdue⟩
    · exact .inr hdue
  · rintro (⟨j, tick, hj, hget, hdue⟩ | hdue)
    · exact ⟨j, tick, hj, Table.get_append_of_some hget _, hdue⟩
    · exact ⟨ticks.length, last, hborn, Table.get_append_iff.2 (.inr ⟨rfl, rfl⟩), hdue⟩

/-- Whether a tick is the first one late enough does not depend on later ticks. -/
theorem firing_tick_append (hj : j < ticks.length) :
    FiringTick (ticks ++ [last]) i j ↔ FiringTick ticks i j := by
  have hget : ∀ {j'}, j' ≤ j → (ticks ++ [last])[j']? = ticks[j']? := fun h =>
    List.getElem?_append_left (by omega)
  constructor
  · rintro ⟨htick, hbefore⟩
    rw [hget (Nat.le_refl j)] at htick
    exact ⟨htick, fun j' tick hborn hlt h => hbefore j' tick hborn hlt ((hget hlt.le).trans h)⟩
  · rintro ⟨htick, hbefore⟩
    rw [← hget (Nat.le_refl j)] at htick
    exact ⟨htick, fun j' tick hborn hlt h => hbefore j' tick hborn hlt ((hget hlt.le).symm.trans h)⟩

/-- The last tick is the first one late enough for a timer if no tick has been before. -/
theorem firing_tick_last (hborn : i.born ≤ ticks.length) :
    FiringTick (ticks ++ [last]) i ticks.length ↔ i.expireTime ≤ last.time ∧ ¬ Passed ticks i := by
  constructor
  · rintro ⟨⟨tick, -, hget, hdue⟩, hbefore⟩
    rw [List.getElem?_concat_length, Option.some.injEq] at hget
    refine ⟨hget ▸ hdue, ?_⟩
    rintro ⟨j', tick', hborn', hget', hdue'⟩
    have hlt := (List.getElem?_eq_some_iff.1 hget').1
    have hearly := hbefore j' tick' hborn' hlt (Table.get_append_of_some hget' _)
    omega
  · rintro ⟨hdue, hpassed⟩
    refine ⟨⟨last, hborn, List.getElem?_concat_length, hdue⟩, fun j' tick' hborn' hlt hget' => ?_⟩
    rw [List.getElem?_append_left hlt] at hget'
    by_contra hearly
    exact hpassed ⟨j', tick', hborn', hget', by omega⟩

/-- A timer that is cancelled is cancelled before the next tick. -/
theorem History.not_cancelled_before {id count : Nat} (h : History ticks id count i) :
    ¬ CancelledBefore i ticks.length ↔ i.cancelledAt = none := by
  constructor
  · intro hnot
    by_contra hsome
    obtain ⟨c, hc⟩ := Option.ne_none_iff_exists'.1 hsome
    exact hnot ⟨c, hc, h.cancelled_le c hc⟩
  · rintro hnone ⟨c, hc, -⟩
    rw [hnone] at hc
    cases hc

end Ticks

theorem mem_ticks_tick {tick : Tick} :
    tick ∈ (s.tick ops now).ticks ↔ tick ∈ s.ticks ∨ tick = ⟨now, (s.timer.tick ops now).2⟩ := by
  show tick ∈ s.ticks ++ [_] ↔ _
  rw [List.mem_append, List.mem_singleton]

/-- A tick calls the callback of every entry it collects. -/
theorem Inv.ticked (hs : Inv s) (ops : HeapOps TimerEntry.expireTime) (now : Int) :
    Ticked now s.timer.heap.entries
      ((s.timer.tick ops now).1.heap, (s.timer.tick ops now).2) := by
  have h := ticked_total ops s.timer.heap now
  have hcallback : (s.timer.tick ops now).2 =
      (total (tick_iter_decreasing ops now) (s.timer.heap, [])).2 := by
    refine List.filter_eq_self.2 fun e he => ?_
    obtain ⟨hmem, hready⟩ := List.mem_filter.1 (h.collected.subset he)
    obtain ⟨i, -, hentered⟩ := hs.entered e hmem
    refine hentered.callback ?_
    simpa using (Bool.and_eq_true_iff.1 hready).2
  rw [hcallback]
  exact h

/-- The entries of a timer that a tick calls. -/
theorem Inv.runs_tick (hs : Inv s) (ops : HeapOps TimerEntry.expireTime) (now : Int) (id : Nat) :
    Tick.runs ⟨now, (s.timer.tick ops now).2⟩ id =
      s.timer.heap.entries.countP fun e => decide (e.id = id) && ready now e := by
  show List.countP _ (s.timer.tick ops now).2 = _
  rw [(hs.ticked ops now).collected.countP_eq, List.countP_filter]

/-- The entries of a timer after a tick: those that were not due, and those that were renewed. -/
theorem Inv.entries_tick (hs : Inv s) (ops : HeapOps TimerEntry.expireTime) (now : Int) (id : Nat) :
    (s.tick ops now).entries id =
      (s.timer.heap.entries.countP fun e => decide (e.id = id) && !due now e) +
        s.timer.heap.entries.countP fun e =>
          decide (e.id = id) && (ready now e && decide (0 < e.intervalMs)) :=
  (hs.ticked ops now).count_heap id

theorem Inv.entered_of_id (hs : Inv s) {e : TimerEntry} {i : TimerInfo}
    (hi : s.info e.id = some i) (he : e ∈ s.timer.heap.entries) : Entered s.ticks e i := by
  obtain ⟨i', hi', hentered⟩ := hs.entered e he
  cases hi.symm.trans hi'
  exact hentered

section OneTimer

variable {id : Nat} {i : TimerInfo}

/-- A tick calls the entry of a one-shot timer that is due and not cancelled. -/
theorem Inv.runs_one_shot (hs : Inv s) (hi : s.info id = some i) (h : i.intervalMs ≤ 0) :
    Tick.runs ⟨now, (s.timer.tick ops now).2⟩ id =
      if decide (i.expireTime ≤ now) && i.cancelledAt.isNone then s.entries id else 0 := by
  rw [hs.runs_tick]
  refine Table.countP_and_of_forall fun e he hid => ?_
  cases of_decide_eq_true hid
  have hentered := hs.entered_of_id hi he
  rw [ready, due, hentered.expire h, hentered.cancelled, Option.not_isSome]

/-- A tick removes the entry of a one-shot timer that is due. -/
theorem Inv.entries_one_shot (hs : Inv s) (hi : s.info id = some i) (h : i.intervalMs ≤ 0) :
    (s.tick ops now).entries id = if i.expireTime ≤ now then 0 else s.entries id := by
  have hkept : (s.timer.heap.entries.countP fun e => decide (e.id = id) && !due now e) =
      if !decide (i.expireTime ≤ now) then s.entries id else 0 := by
    refine Table.countP_and_of_forall fun e he hid => ?_
    cases of_decide_eq_true hid
    rw [due, (hs.entered_of_id hi he).expire h]
  have hnew : (s.timer.heap.entries.countP fun e =>
      decide (e.id = id) && (ready now e && decide (0 < e.intervalMs))) = 0 := by
    refine List.countP_eq_zero.2 fun e he hpos => ?_
    simp only [Bool.and_eq_true, decide_eq_true_eq] at hpos
    obtain ⟨rfl, -, hinterval⟩ := hpos
    have := (hs.entered_of_id hi he).interval
    omega
  rw [hs.entries_tick, hkept, hnew]
  by_cases hdue : i.expireTime ≤ now <;> simp [hdue]

/-- The entry of a periodic timer that is not cancelled stays, or is renewed. -/
theorem Inv.entries_periodic (hs : Inv s) (hi : s.info id = some i) (h : 0 < i.intervalMs)
    (hc : i.cancelledAt = none) : (s.tick ops now).entries id = s.entries id := by
  have hnew : (s.timer.heap.entries.countP fun e =>
      decide (e.id = id) && (ready now e && decide (0 < e.intervalMs))) =
        s.timer.heap.entries.countP fun e => decide (e.id = id) && due now e := by
    refine List.countP_congr fun e he => ?_
    simp only [Bool.and_eq_true, decide_eq_true_eq]
    refine and_congr_right fun hid => ?_
    cases hid
    have hentered := hs.entered_of_id hi he
    simp [ready, hentered.cancelled, hc, hentered.interval, h]
  rw [hs.entries_tick, hnew, Nat.add_comm]
  exact Table.countP_and_add ..

end OneTimer

/-- A tick leaves a timer one entry at most. -/
theorem Inv.entries_tick_le (hs : Inv s) (ops : HeapOps TimerEntry.expireTime) (now : Int)
    (id : Nat) : (s.tick ops now).entries id ≤ s.entries id :=
  (hs.ticked ops now).count_heap_le id

theorem Inv.runs_tick_le (hs : Inv s) (ops : HeapOps TimerEntry.expireTime) (now : Int) (id : Nat) :
    Tick.runs ⟨now, (s.timer.tick ops now).2⟩ id ≤ s.entries id := by
  rw [hs.runs_tick]
  exact List.countP_mono_left fun e _ h => (Bool.and_eq_true_iff.1 h).1

/-- A timer that a tick runs has an entry that is due. -/
theorem Inv.exists_due (hs : Inv s) {id : Nat}
    (h : Tick.runs ⟨now, (s.timer.tick ops now).2⟩ id ≠ 0) :
    ∃ e ∈ s.timer.heap.entries, e.id = id ∧ e.expireTime ≤ now := by
  rw [hs.runs_tick] at h
  obtain ⟨e, he, hboth⟩ := List.countP_pos_iff.1 (Nat.pos_of_ne_zero h)
  simp only [ready, due, Bool.and_eq_true, decide_eq_true_eq] at hboth
  exact ⟨e, he, hboth.1, hboth.2.1⟩

/-- A timer whose entry is not due is not run. -/
theorem Inv.runs_eq_zero_of_not_due (hs : Inv s) {e : TimerEntry}
    (he : e ∈ s.timer.heap.entries) (hdue : due now e = false) :
    Tick.runs ⟨now, (s.timer.tick ops now).2⟩ e.id = 0 := by
  by_contra hruns
  obtain ⟨e', he', hid, hdue'⟩ := hs.exists_due hruns
  have hsum := Table.countP_and_add (fun e' => decide (e'.id = e.id)) (due now)
    s.timer.heap.entries
  have hkept : 0 < s.timer.heap.entries.countP fun e' => decide (e'.id = e.id) && !due now e' :=
    List.countP_pos_iff.2 ⟨e, he, by simp [hdue]⟩
  have hgone : 0 < s.timer.heap.entries.countP fun e' => decide (e'.id = e.id) && due now e' :=
    List.countP_pos_iff.2 ⟨e', he', by simp [hid, due, hdue']⟩
  have hunique : (s.timer.heap.entries.countP fun e' => decide (e'.id = e.id)) ≤ 1 := hs.unique e.id
  omega

/-- What a tick adds to what has become of a timer. -/
theorem Inv.history_tick (hs : Inv s) {id : Nat} {i : TimerInfo} (hi : s.info id = some i) :
    History (s.tick ops now).ticks id ((s.tick ops now).entries id) i := by
  have h := hs.history id i hi
  have hfiring : FiringTick (s.tick ops now).ticks i s.ticks.length ∧
      ¬ CancelledBefore i s.ticks.length ↔
        (i.expireTime ≤ now ∧ ¬ Passed s.ticks i) ∧ i.cancelledAt = none :=
    and_congr (firing_tick_last h.born_le) h.not_cancelled_before
  have hpassed : Passed (s.tick ops now).ticks i ↔ Passed s.ticks i ∨ i.expireTime ≤ now :=
    passed_append h.born_le
  constructor
  case born_le => exact h.born_le.trans (by simp [tick])
  case cancelled_le => exact fun c hc => (h.cancelled_le c hc).trans (by simp [tick])
  case pending =>
    intro hinterval hnot
    rw [hpassed, not_or] at hnot
    rw [hs.entries_one_shot hi hinterval, if_neg hnot.2]
    exact h.pending hinterval hnot.1
  case popped =>
    intro hinterval hpast
    rw [hs.entries_one_shot hi hinterval]
    split_ifs with hdue
    · rfl
    · exact h.popped hinterval ((hpassed.1 hpast).resolve_right hdue)
  case runs =>
    intro hinterval j tick hget hboth
    rcases Table.get_append_iff.1 hget with hold | ⟨rfl, rfl⟩
    · have hlt := (List.getElem?_eq_some_iff.1 hold).1
      exact h.runs hinterval j tick hold ⟨(firing_tick_append hlt).1 hboth.1, hboth.2⟩
    · obtain ⟨⟨hdue, hnot⟩, hc⟩ := hfiring.1 hboth
      rw [hs.runs_one_shot hi hinterval, if_pos (by simp [hdue, hc])]
      exact h.pending hinterval hnot
  case runs_not =>
    intro hinterval j tick hget hboth
    rcases Table.get_append_iff.1 hget with hold | ⟨rfl, rfl⟩
    · have hlt := (List.getElem?_eq_some_iff.1 hold).1
      exact h.runs_not hinterval j tick hold fun hold =>
        hboth ⟨(firing_tick_append hlt).2 hold.1, hold.2⟩
    · rw [hs.runs_one_shot hi hinterval]
      split_ifs with hdue
      · simp only [Bool.and_eq_true, decide_eq_true_eq, Option.isNone_iff_eq_none] at hdue
        refine h.popped hinterval (by_contra fun hnot => hboth ?_)
        exact hfiring.2 ⟨⟨hdue.1, hnot⟩, hdue.2⟩
      · rfl
  case periodic =>
    intro hinterval hc
    rw [hs.entries_periodic hi hinterval hc]
    exact h.periodic hinterval hc
  case apart =>
    intro hinterval
    refine List.pairwise_append.2 ⟨h.apart hinterval, List.pairwise_singleton _ _, ?_⟩
    intro tick htick last hlast hruns hruns'
    cases List.mem_singleton.1 hlast
    obtain ⟨e, he, rfl, hdue⟩ := hs.exists_due hruns'
    exact ((hs.entered_of_id hi he).spaced hinterval tick htick hruns).trans hdue

/-- An entry that is not due stays as it is. -/
theorem Inv.entered_kept (hs : Inv s) {e : TimerEntry} {i : TimerInfo} (hi : s.info e.id = some i)
    (he : e ∈ s.timer.heap.entries) (hdue : due now e = false) :
    Entered (s.tick ops now).ticks e i := by
  have hentered := hs.entered_of_id hi he
  refine { hentered with spaced := fun hinterval tick htick hruns => ?_ }
  rcases mem_ticks_tick.1 htick with hold | rfl
  · exact hentered.spaced hinterval tick hold hruns
  · exact absurd (hs.runs_eq_zero_of_not_due he hdue) hruns

/-- A renewed entry expires an interval after this tick, which is its last run. -/
theorem Inv.entered_renewed (hs : Inv s) {e : TimerEntry} {i : TimerInfo}
    (hi : s.info e.id = some i) (he : e ∈ s.timer.heap.entries) (hready : ready now e = true)
    (hinterval : 0 < e.intervalMs) : Entered (s.tick ops now).ticks (renew now e) i := by
  have hentered := hs.entered_of_id hi he
  obtain ⟨hdue, hcancelled⟩ := Bool.and_eq_true_iff.1 hready
  replace hdue : e.expireTime ≤ now := of_decide_eq_true hdue
  rw [Bool.not_eq_true'] at hcancelled
  rw [hentered.interval] at hinterval
  constructor
  case interval => exact hentered.interval
  case cancelled => exact hcancelled.symm.trans hentered.cancelled
  case callback => exact fun _ => hentered.callback hcancelled
  case expire => intro hnot; omega
  case spaced =>
    intro _ tick htick hruns
    have hlate : tick.time ≤ now := by
      rcases mem_ticks_tick.1 htick with hold | rfl
      · have := hentered.spaced hinterval tick hold hruns
        simp only [milliseconds] at this
        omega
      · exact le_refl now
    show _ ≤ now + milliseconds e.intervalMs
    rw [hentered.interval]
    omega

theorem inv_tick (hs : Inv s) : Inv (s.tick ops now) := by
  have hticked := hs.ticked ops now
  constructor
  case fresh => exact hs.fresh
  case unique => exact fun id => (hs.entries_tick_le ops now id).trans (hs.unique id)
  case entered =>
    intro e he
    rcases List.mem_append.1 (hticked.heap.subset he) with hkept | hnew
    · obtain ⟨hmem, hdue⟩ := List.mem_filter.1 hkept
      obtain ⟨i, hi, -⟩ := hs.entered e hmem
      exact ⟨i, hi, hs.entered_kept hi hmem (by simpa using hdue)⟩
    · obtain ⟨old, hold, rfl⟩ := List.mem_map.1 hnew
      obtain ⟨hfired, hinterval⟩ := List.mem_filter.1 hold
      obtain ⟨hmem, hready⟩ := List.mem_filter.1 (hticked.collected.subset hfired)
      obtain ⟨i, hi, -⟩ := hs.entered old hmem
      exact ⟨i, hi, hs.entered_renewed hi hmem hready (of_decide_eq_true hinterval)⟩
  case firedKnown =>
    intro tick htick e he
    rcases mem_ticks_tick.1 htick with hold | rfl
    · exact hs.firedKnown tick hold e he
    · obtain ⟨i, hi, -⟩ := hs.entered e (List.mem_filter.1 (hticked.collected.subset he)).1
      exact Option.ne_none_iff_exists'.2 ⟨i, hi⟩
  case order =>
    intro tick htick
    rcases mem_ticks_tick.1 htick with hold | rfl
    · exact hs.order tick hold
    · exact hticked.order
  case once =>
    intro tick htick id
    rcases mem_ticks_tick.1 htick with hold | rfl
    · exact hs.once tick hold id
    · exact (hs.runs_tick_le ops now id).trans (hs.unique id)
  case history => exact fun id i hi => hs.history_tick hi

theorem inv_step (hs : Inv s) (h : Step ops s t) : Inv t := by
  cases h with
  | runAfter delayMs cb hclock => exact inv_schedule hs delayMs 0 cb
  | runEvery intervalMs cb hclock => exact inv_schedule hs intervalMs intervalMs cb
  | cancel timerId hclock => exact inv_cancel hs timerId
  | tick hclock => exact inv_tick hs

theorem inv_reachable (h : Reachable ops s) : Inv s := by
  obtain ⟨start, h⟩ := h
  induction h with
  | refl => exact inv_start start
  | tail _ hstep ih => exact inv_step ih hstep

end TimerRun

end ApiGateway
