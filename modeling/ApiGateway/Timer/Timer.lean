import ApiGateway.Library.Loop
import ApiGateway.Library.StdHeap
import ApiGateway.Library.Table

/-!
# Timers

`Timer` of `timer.cpp`, over any correct `push_heap` and `pop_heap`. Times are in nanoseconds,
without the limits of the clock's type (a time past them is undefined behaviour in the source), and
a callback is given by a number. `ticked_total` says what the loop of one `tick` does to the heap
and which callbacks it collects, in terms of the entries that are due.
-/

namespace ApiGateway

open Loop StdHeap

/-- `Timer::TimerEntry`. -/
structure TimerEntry where
  id : Nat
  expireTime : Int
  intervalMs : Int
  callback : Option Nat
  cancelled : Bool := false
  deriving DecidableEq

/-- `std::chrono::milliseconds`. -/
def milliseconds (ms : Int) : Int :=
  ms * 10 ^ 6

/-- `class Timer`. -/
structure Timer where
  heap : Heap TimerEntry.expireTime := .empty
  nextId : Nat := 1

namespace Timer

/-- The body of `run_after` and `run_every`, which differ in the interval of the entry. -/
def add (ops : HeapOps TimerEntry.expireTime) (t : Timer) (delayMs intervalMs : Int)
    (cb : Nat) (now : Int) : Nat × Timer :=
  (t.nextId,
    { heap := t.heap.push ops
        { id := t.nextId
          expireTime := now + milliseconds delayMs
          intervalMs := intervalMs
          callback := some cb }
      nextId := t.nextId + 1 })

/-- `run_after`. -/
def runAfter (ops : HeapOps TimerEntry.expireTime) (t : Timer) (delayMs : Int) (cb : Nat)
    (now : Int) : Nat × Timer :=
  t.add ops delayMs 0 cb now

/-- `run_every`. -/
def runEvery (ops : HeapOps TimerEntry.expireTime) (t : Timer) (intervalMs : Int) (cb : Nat)
    (now : Int) : Nat × Timer :=
  t.add ops intervalMs intervalMs cb now

/-- The loop of `cancel`, which stops at the first entry with the number. -/
def cancelFirst (timerId : Nat) : List TimerEntry → List TimerEntry
  | [] => []
  | e :: rest =>
      if e.id = timerId then { e with cancelled := true, callback := none } :: rest
      else e :: cancelFirst timerId rest

theorem map_expire_cancel_first (timerId : Nat) (l : List TimerEntry) :
    (cancelFirst timerId l).map TimerEntry.expireTime = l.map TimerEntry.expireTime := by
  induction l with
  | nil => rfl
  | cons e rest ih =>
      simp only [cancelFirst]
      split
      · rfl
      · rw [List.map_cons, List.map_cons, ih]

/-- `cancel`. -/
def cancel (t : Timer) (timerId : Nat) : Timer :=
  { t with heap := t.heap.modify (cancelFirst timerId) (map_expire_cancel_first timerId) }

/-- The entry that replaces one with a positive interval. -/
def renew (now : Int) (e : TimerEntry) : TimerEntry where
  id := e.id
  expireTime := now + milliseconds e.intervalMs
  intervalMs := e.intervalMs
  callback := e.callback

/-- One pass of the loop of `tick`, on the heap and the entries whose callbacks are ready. -/
def tickIter (ops : HeapOps TimerEntry.expireTime) (now : Int)
    (s : Heap TimerEntry.expireTime × List TimerEntry) :
    Iter (Heap TimerEntry.expireTime × List TimerEntry)
      (Heap TimerEntry.expireTime × List TimerEntry) :=
  match s.1.entries with
  | [] => .done s
  | front :: _ =>
      if now < front.expireTime then .done s
      else if front.cancelled then .next (s.1.pop ops, s.2)
      else if 0 < front.intervalMs then
        .next ((s.1.pop ops).push ops (renew now front), s.2 ++ [front])
      else .next (s.1.pop ops, s.2 ++ [front])

/-- Whether an entry is due. -/
def due (now : Int) (e : TimerEntry) : Bool :=
  e.expireTime ≤ now

theorem not_due_renew {now : Int} {e : TimerEntry} (h : 0 < e.intervalMs) :
    due now (renew now e) = false := by
  refine decide_eq_false ?_
  show ¬ now + e.intervalMs * 10 ^ 6 ≤ now
  omega

/-- The cases of a pass that goes round again. -/
theorem tick_iter_next {ops : HeapOps TimerEntry.expireTime} {now : Int}
    {s t : Heap TimerEntry.expireTime × List TimerEntry} (h : tickIter ops now s = .next t) :
    ∃ front rest, s.1.entries = front :: rest ∧ due now front = true ∧
      t.2 = s.2 ++ (if front.cancelled then [] else [front]) ∧
      t.1.entries.Perm (rest ++
        if front.cancelled = false ∧ 0 < front.intervalMs then [renew now front] else []) := by
  unfold tickIter at h
  split at h
  · cases h
  · rename_i front rest hentries
    have hpop := Heap.pop_perm ops hentries
    split_ifs at h with hnow hcancelled hinterval
    · cases h
      exact ⟨front, rest, hentries, by simpa [due] using hnow, by simp [hcancelled],
        by simpa [hcancelled] using hpop⟩
    · cases h
      refine ⟨front, rest, hentries, by simpa [due] using hnow, by simp [hcancelled], ?_⟩
      rw [if_pos ⟨by simpa using hcancelled, hinterval⟩]
      exact ((Heap.push_perm ops _ _).trans (hpop.cons _)).trans
        (List.perm_append_singleton _ rest).symm
    · cases h
      refine ⟨front, rest, hentries, by simpa [due] using hnow, by simp [hcancelled], ?_⟩
      rw [if_neg (fun h => hinterval h.2), List.append_nil]
      exact hpop

/-- A pass that leaves finds no entry that is due. -/
theorem tick_iter_done {ops : HeapOps TimerEntry.expireTime} {now : Int}
    {s t : Heap TimerEntry.expireTime × List TimerEntry} (h : tickIter ops now s = .done t) :
    t = s ∧ ∀ e ∈ s.1.entries, due now e = false := by
  unfold tickIter at h
  split at h
  · rename_i hentries
    cases h
    refine ⟨rfl, fun e he => ?_⟩
    rw [hentries] at he
    cases he
  · rename_i front rest hentries
    split_ifs at h with hnow
    cases h
    refine ⟨rfl, fun e he => ?_⟩
    have hle := Heap.front_le hentries he
    simp only [due, decide_eq_false_iff_not]
    omega

theorem tick_iter_decreasing (ops : HeapOps TimerEntry.expireTime) (now : Int) :
    Decreasing (tickIter ops now) fun s => s.1.entries.countP (due now) := by
  intro s t h
  obtain ⟨front, rest, hentries, hdue, -, hperm⟩ := tick_iter_next h
  have hnew : (if front.cancelled = false ∧ 0 < front.intervalMs then [renew now front]
      else []).countP (due now) = 0 := by
    split_ifs with hrenew
    · simp [not_due_renew hrenew.2]
    · rfl
  simp only [hperm.countP_eq, List.countP_append, hnew, hentries, List.countP_cons, hdue, if_true]
  omega

/-- `tick`, with the entries whose callbacks it calls. -/
def tick (ops : HeapOps TimerEntry.expireTime) (t : Timer) (now : Int) :
    Timer × List TimerEntry :=
  let result := total (tick_iter_decreasing ops now) (t.heap, [])
  ({ t with heap := result.1 }, result.2.filter fun e => e.callback.isSome)

/-! ## What a tick does -/

/-- Whether an entry is one whose callback a tick collects. -/
def ready (now : Int) (e : TimerEntry) : Bool :=
  due now e && !e.cancelled

/-- The entries that replace those with a positive interval. -/
def renewed (now : Int) (fired : List TimerEntry) : List TimerEntry :=
  (fired.filter fun e => 0 < e.intervalMs).map (renew now)

/-- The state of the loop when the entries `gone` have been popped from the heap it has started
with, and `rest` are still in it. -/
structure Ticking (now : Int) (start gone rest : List TimerEntry)
    (s : Heap TimerEntry.expireTime × List TimerEntry) : Prop where
  split : start.Perm (gone ++ rest)
  allDue : ∀ e ∈ gone, due now e = true
  collected : s.2 = gone.filter fun e => !e.cancelled
  heap : s.1.entries.Perm (rest ++ renewed now s.2)
  order : gone.Pairwise fun e e' => e.expireTime ≤ e'.expireTime
  earlier : ∀ e ∈ gone, ∀ e' ∈ rest, e.expireTime ≤ e'.expireTime

variable {ops : HeapOps TimerEntry.expireTime} {now : Int} {start gone rest : List TimerEntry}
  {s t : Heap TimerEntry.expireTime × List TimerEntry}

theorem not_due_of_mem_renewed {e : TimerEntry} {fired : List TimerEntry}
    (h : e ∈ renewed now fired) : due now e = false := by
  obtain ⟨e', he', rfl⟩ := List.mem_map.1 h
  exact not_due_renew (by simpa using (List.mem_filter.1 he').2)

theorem renewed_append (fired more : List TimerEntry) :
    renewed now (fired ++ more) = renewed now fired ++ renewed now more := by
  simp [renewed]

/-- What one collected entry is replaced by. -/
theorem renewed_front (front : TimerEntry) :
    renewed now (if front.cancelled then [] else [front]) =
      if front.cancelled = false ∧ 0 < front.intervalMs then [renew now front] else [] := by
  cases hcancelled : front.cancelled with
  | true => simp [renewed]
  | false =>
      by_cases hinterval : 0 < front.intervalMs
      · simp [renewed, hinterval]
      · simp [renewed, hinterval]

/-- A front that is due is not an entry that this tick has put in. -/
theorem Ticking.front_mem (hs : Ticking now start gone rest s) {front : TimerEntry}
    {l : List TimerEntry} (hentries : s.1.entries = front :: l) (hdue : due now front = true) :
    front ∈ rest := by
  have hmem : front ∈ s.1.entries := hentries ▸ List.mem_cons_self
  rcases List.mem_append.1 (hs.heap.subset hmem) with hrest | hnew
  · exact hrest
  · rw [not_due_of_mem_renewed hnew] at hdue
    cases hdue

theorem Ticking.next (hs : Ticking now start gone rest s) (h : tickIter ops now s = .next t) :
    ∃ front rest', Ticking now start (gone ++ [front]) rest' t := by
  obtain ⟨front, l, hentries, hdue, hready, hperm⟩ := tick_iter_next h
  have hheap := hs.heap
  rw [hentries] at hheap
  have hfront := hs.front_mem hentries hdue
  obtain ⟨before, after, rfl⟩ := List.append_of_mem hfront
  have hmiddle : (before ++ front :: after).Perm (front :: (before ++ after)) :=
    List.perm_middle
  have hl : l.Perm (before ++ after ++ renewed now s.2) :=
    (hheap.trans (hmiddle.append_right _)).cons_inv
  refine ⟨front, before ++ after, ?_⟩
  constructor
  case split =>
    rw [List.append_assoc]
    exact hs.split.trans (hmiddle.append_left gone)
  case allDue =>
    intro e he
    rcases List.mem_append.1 he with he | he
    · exact hs.allDue e he
    · rw [List.mem_singleton.1 he]
      exact hdue
  case collected =>
    rw [hready, List.filter_append, ← hs.collected]
    cases hcancelled : front.cancelled <;> simp [hcancelled]
  case heap =>
    rw [hready, renewed_append, renewed_front, ← List.append_assoc]
    exact hperm.trans (hl.append_right _)
  case order =>
    refine List.pairwise_append.2 ⟨hs.order, List.pairwise_singleton _ _, fun e he e' he' => ?_⟩
    rw [List.mem_singleton.1 he']
    exact hs.earlier e he front hfront
  case earlier =>
    intro e he e' he'
    have hmem : e' ∈ before ++ front :: after := hmiddle.symm.subset (List.mem_cons_of_mem _ he')
    rcases List.mem_append.1 he with he | he
    · exact hs.earlier e he e' hmem
    · rw [List.mem_singleton.1 he]
      exact Heap.front_le hentries (hs.heap.symm.subset (List.mem_append_left _ hmem))

/-- What the loop of a tick leaves: it has collected the entries that are due and not cancelled, in
the order of their times, and kept those that are not due. -/
structure Ticked (now : Int) (start : List TimerEntry)
    (s : Heap TimerEntry.expireTime × List TimerEntry) : Prop where
  collected : s.2.Perm (start.filter (ready now))
  order : s.2.Pairwise fun e e' => e.expireTime ≤ e'.expireTime
  heap : s.1.entries.Perm ((start.filter fun e => !due now e) ++ renewed now s.2)

theorem Ticking.done (hs : Ticking now start gone rest s) (h : tickIter ops now s = .done t) :
    Ticked now start t := by
  obtain ⟨rfl, hnone⟩ := tick_iter_done h
  have hrest : ∀ e ∈ rest, due now e = false := fun e he =>
    hnone e (hs.heap.symm.subset (List.mem_append_left _ he))
  constructor
  case collected =>
    have hfilter : (gone ++ rest).filter (ready now) = gone.filter fun e => !e.cancelled := by
      have hnil : rest.filter (ready now) = [] :=
        List.filter_eq_nil_iff.2 fun e he => by simp [ready, hrest e he]
      rw [List.filter_append, hnil, List.append_nil]
      exact List.filter_congr fun e he => by simp [ready, hs.allDue e he]
    rw [hs.collected, ← hfilter]
    exact (hs.split.filter _).symm
  case order =>
    rw [hs.collected]
    exact hs.order.sublist List.filter_sublist
  case heap =>
    have hfilter : (gone ++ rest).filter (fun e => !due now e) = rest := by
      have hnil : gone.filter (fun e => !due now e) = [] :=
        List.filter_eq_nil_iff.2 fun e he => by simp [hs.allDue e he]
      rw [List.filter_append, hnil, List.nil_append]
      exact List.filter_eq_self.2 fun e he => by simp [hrest e he]
    have hkept : (start.filter fun e => !due now e).Perm rest := by
      rw [← hfilter]
      exact hs.split.filter _
    exact hs.heap.trans (hkept.symm.append_right _)

theorem ticked_total (ops : HeapOps TimerEntry.expireTime) (h : Heap TimerEntry.expireTime)
    (now : Int) : Ticked now h.entries (total (tick_iter_decreasing ops now) (h, [])) := by
  have hstart : ∃ gone rest, Ticking now h.entries gone rest (h, []) :=
    ⟨[], h.entries, .refl _, by simp, rfl, by simp [renewed], .nil, by simp⟩
  refine Returns.invariant (fun s => ∃ gone rest, Ticking now h.entries gone rest s)
    (Ticked now h.entries) ?_ ?_ hstart (returns_total (tick_iter_decreasing ops now) (h, []))
  · rintro s t ⟨gone, rest, hs⟩ hnext
    obtain ⟨front, rest', ht⟩ := hs.next hnext
    exact ⟨_, _, ht⟩
  · rintro s r ⟨gone, rest, hs⟩ hdone
    exact hs.done hdone

/-- The entries of a timer after a tick: those that were not due, and those that were renewed. -/
theorem Ticked.count_heap (h : Ticked now start s) (id : Nat) :
    (s.1.entries.countP fun e => e.id = id) =
      (start.countP fun e => decide (e.id = id) && !due now e) +
        start.countP fun e => decide (e.id = id) && (ready now e && decide (0 < e.intervalMs)) := by
  have hnew : (renewed now s.2).countP (fun e => e.id = id) =
      s.2.countP fun e => decide (e.id = id) && decide (0 < e.intervalMs) := by
    rw [renewed, List.countP_map, List.countP_filter]
    rfl
  rw [h.heap.countP_eq, List.countP_append, List.countP_filter, hnew, h.collected.countP_eq,
    List.countP_filter]
  congr 2
  funext e
  rw [Bool.and_assoc, Bool.and_comm (decide (0 < e.intervalMs))]

/-- A timer does not gain entries. -/
theorem Ticked.count_heap_le (h : Ticked now start s) (id : Nat) :
    (s.1.entries.countP fun e => e.id = id) ≤ start.countP fun e => e.id = id := by
  have hnew : (start.countP fun e =>
      decide (e.id = id) && (ready now e && decide (0 < e.intervalMs))) ≤
        start.countP fun e => decide (e.id = id) && due now e := by
    refine List.countP_mono_left fun e _ hpos => ?_
    simp only [ready, Bool.and_eq_true] at hpos ⊢
    exact ⟨hpos.1, hpos.2.1.1⟩
  have hsum := Table.countP_and_add (fun e => decide (e.id = id)) (due now) start
  rw [h.count_heap]
  omega

/-- An entry of the heap after a tick was there before, or renews one that was not cancelled. -/
theorem Ticked.mem_heap (h : Ticked now start s) {e : TimerEntry} (he : e ∈ s.1.entries) :
    e ∈ start ∨ ∃ old ∈ start, old.cancelled = false ∧ e = renew now old := by
  rcases List.mem_append.1 (h.heap.subset he) with hkept | hnew
  · exact .inl (List.mem_filter.1 hkept).1
  · obtain ⟨old, hold, rfl⟩ := List.mem_map.1 hnew
    obtain ⟨hmem, hready⟩ :=
      List.mem_filter.1 (h.collected.subset (List.mem_filter.1 hold).1)
    exact .inr ⟨old, hmem, by simpa using (Bool.and_eq_true_iff.1 hready).2, rfl⟩

/-- A tick calls callbacks of entries that are not cancelled. -/
theorem mem_tick {timer : Timer} {e : TimerEntry} (h : e ∈ (timer.tick ops now).2) :
    e ∈ timer.heap.entries ∧ e.cancelled = false := by
  have hcollected := (ticked_total ops timer.heap now).collected.subset (List.mem_filter.1 h).1
  obtain ⟨hmem, hready⟩ := List.mem_filter.1 hcollected
  exact ⟨hmem, by simpa using (Bool.and_eq_true_iff.1 hready).2⟩

/-- A tick calls the callback of a timer no more often than it has entries. -/
theorem count_tick_le (timer : Timer) (id : Nat) :
    ((timer.tick ops now).2.countP fun e => e.id = id) ≤
      timer.heap.entries.countP fun e => e.id = id := by
  have hticked := ticked_total ops timer.heap now
  calc ((timer.tick ops now).2.countP fun e => e.id = id)
      ≤ (total (tick_iter_decreasing ops now) (timer.heap, [])).2.countP fun e => e.id = id :=
        List.filter_sublist.countP_le
    _ = (timer.heap.entries.filter (ready now)).countP fun e => e.id = id :=
        hticked.collected.countP_eq _
    _ ≤ timer.heap.entries.countP fun e => e.id = id := List.filter_sublist.countP_le

/-! ## What cancelling does -/

theorem map_id_cancel_first (timerId : Nat) (l : List TimerEntry) :
    (cancelFirst timerId l).map TimerEntry.id = l.map TimerEntry.id := by
  induction l with
  | nil => rfl
  | cons e rest ih =>
      simp only [cancelFirst]
      split
      · rfl
      · rw [List.map_cons, List.map_cons, ih]

theorem countP_id_eq (id : Nat) (l : List TimerEntry) :
    (l.countP fun e => e.id = id) = (l.map TimerEntry.id).countP fun n => n = id := by
  rw [List.countP_map]
  rfl

/-- Where a timer has one entry at most, `cancel` leaves none of it that is not cancelled. -/
theorem mem_cancel_first {timerId : Nat} {l : List TimerEntry} {e : TimerEntry}
    (hunique : (l.countP fun e => e.id = timerId) ≤ 1) (h : e ∈ cancelFirst timerId l) :
    (e.id ≠ timerId ∧ e ∈ l) ∨
      ∃ old ∈ l, old.id = timerId ∧ e = { old with cancelled := true, callback := none } := by
  induction l with
  | nil => cases h
  | cons front rest ih =>
      simp only [cancelFirst] at h
      rw [Table.countP_cons] at hunique
      split at h <;> rename_i hfront
      · rcases List.mem_cons.1 h with rfl | hrest
        · exact .inr ⟨front, List.mem_cons_self, hfront, rfl⟩
        · -- the entry found is the only one
          have hzero : (rest.countP fun e => e.id = timerId) = 0 := by
            simp only [hfront, decide_true, Bool.toNat_true] at hunique
            omega
          have hid := List.countP_eq_zero.1 hzero e hrest
          exact .inl ⟨by simpa using hid, List.mem_cons_of_mem _ hrest⟩
      · rcases List.mem_cons.1 h with rfl | hrest
        · exact .inl ⟨hfront, List.mem_cons_self⟩
        · rcases ih (Nat.le_of_add_right_le hunique) hrest with ⟨hid, hmem⟩ | ⟨old, hold, heq⟩
          · exact .inl ⟨hid, List.mem_cons_of_mem _ hmem⟩
          · exact .inr ⟨old, List.mem_cons_of_mem _ hold, heq⟩

end Timer

end ApiGateway
