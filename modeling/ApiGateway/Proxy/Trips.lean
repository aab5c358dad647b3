import ApiGateway.Proxy.CircuitBreaker

/-!
# When the breaker trips

A run of the circuit breaker with every call there is, `reset` among them. `recentFailures` is the
number of failures that have been reported since the count last started anew, read off the calls and
the states of the breaker, without its counters. The main result is `trips_at_threshold`: a closed
breaker has this number in both of its counters, it is below the threshold, and the breaker opens
with the report that makes it the threshold.
-/

namespace ApiGateway.Proxy

/-- The calls of a run, and `reset`. -/
inductive BreakerOp where
  | call (c : BreakerCall)
  | reset
  deriving DecidableEq

/-- The breaker after a call. -/
def CircuitBreaker.perform (b : CircuitBreaker) (now : Int) : BreakerOp → CircuitBreaker
  | .call c => b.call now c
  | .reset => b.reset

/-- A call that has been made, with the states of the breaker before and after it. -/
structure Performed where
  op : BreakerOp
  before : BreakerState
  after : BreakerState
  deriving DecidableEq

/-- The call reports a failure. -/
def Performed.isFailure (p : Performed) : Bool :=
  p.op = .call .onFailure

/-- The count of failures starts anew: with a success, with a reset, and when the breaker closes. -/
def Performed.restarts (p : Performed) : Bool :=
  p.op = .call .onSuccess ∨ p.op = .reset ∨ (p.before ≠ .closed ∧ p.after = .closed)

namespace CircuitBreaker

/-- The breaker after some calls with their times. -/
def performAll (b : CircuitBreaker) (ops : List (Int × BreakerOp)) : CircuitBreaker :=
  ops.foldl (fun b op => b.perform op.1 op.2) b

/-- The calls with the states between them. -/
def history (b : CircuitBreaker) : List (Int × BreakerOp) → List Performed
  | [] => []
  | (now, op) :: rest =>
      ⟨op, b.state, (b.perform now op).state⟩ :: (b.perform now op).history rest

/-- The number of failures that have been reported since the count last started anew. -/
def recentFailures (b : CircuitBreaker) (ops : List (Int × BreakerOp)) : Nat :=
  ((b.history ops).reverse.takeWhile fun p => !p.restarts).countP Performed.isFailure

theorem perform_all_concat (b : CircuitBreaker) (ops : List (Int × BreakerOp)) (now : Int)
    (op : BreakerOp) : b.performAll (ops ++ [(now, op)]) = (b.performAll ops).perform now op := by
  simp [performAll]

theorem history_concat (b : CircuitBreaker) (ops : List (Int × BreakerOp)) (now : Int)
    (op : BreakerOp) :
    b.history (ops ++ [(now, op)]) = b.history ops ++
      [⟨op, (b.performAll ops).state, ((b.performAll ops).perform now op).state⟩] := by
  induction ops generalizing b with
  | nil => rfl
  | cons first ops ih =>
      rw [List.cons_append, history, history, ih, List.cons_append]
      rfl

/-- The number of failures after one more call. -/
def countAfter (n : Nat) (p : Performed) : Nat :=
  if p.restarts then 0 else if p.isFailure then n + 1 else n

theorem recent_failures_concat (b : CircuitBreaker) (ops : List (Int × BreakerOp)) (now : Int)
    (op : BreakerOp) :
    b.recentFailures (ops ++ [(now, op)]) = countAfter (b.recentFailures ops)
      ⟨op, (b.performAll ops).state, ((b.performAll ops).perform now op).state⟩ := by
  rw [recentFailures, history_concat, List.reverse_concat, List.takeWhile_cons, countAfter]
  generalize (⟨op, (b.performAll ops).state, _⟩ : Performed) = p
  cases p.restarts with
  | true => rfl
  | false =>
      simp only [Bool.not_false, if_true, List.countP_cons, Bool.false_eq_true, if_false]
      split <;> rfl

/-! ## Closed breakers -/

variable {b : CircuitBreaker} {threshold now : Int} {n : Nat}

/-- A closed breaker has counted `n` failures, fewer than the threshold. -/
structure Counted (threshold : Int) (n : Nat) (b : CircuitBreaker) : Prop where
  limit : b.failureThreshold = threshold
  failures : b.state = .closed → b.failureCount = n
  consecutive : b.state = .closed → b.consecutiveFailures = n
  below : b.state = .closed → (n : Int) < threshold

theorem counted_of_not_closed (hthreshold : b.failureThreshold = threshold)
    (hstate : b.state ≠ .closed) : Counted threshold n b :=
  ⟨hthreshold, fun h => absurd h hstate, fun h => absurd h hstate, fun h => absurd h hstate⟩

/-- Both counters start at zero. -/
theorem counted_zero (hpos : 1 ≤ threshold) (hthreshold : b.failureThreshold = threshold)
    (hfailures : b.failureCount = 0) (hconsecutive : b.consecutiveFailures = 0) :
    Counted threshold 0 b :=
  ⟨hthreshold, fun _ => hfailures, fun _ => hconsecutive, fun _ => hpos⟩

/-- A failure that is reported to a closed breaker. -/
theorem on_failure_closed (hstate : b.state = .closed) (now : Int) :
    b.onFailure now =
      if b.failureThreshold ≤ b.failureCount + 1 then
        { b with
          consecutiveFailures := b.consecutiveFailures + 1
          failureCount := b.failureCount + 1 }.transitionToOpen now
      else
        { b with
          consecutiveFailures := b.consecutiveFailures + 1
          failureCount := b.failureCount + 1 } := by
  simp only [onFailure, hstate]

/-- A breaker that is not closed is open after a failure. -/
theorem on_failure_not_closed (hstate : b.state ≠ .closed) (now : Int) :
    (b.onFailure now).state = .opened ∧
      (b.onFailure now).failureThreshold = b.failureThreshold := by
  cases hb : b.state with
  | closed => exact absurd hb hstate
  | opened => simp [onFailure, hb]
  | halfOpen => simp [onFailure, hb, transitionToOpen]

theorem Counted.allow (hb : Counted threshold n b) (now : Int) :
    Counted threshold
      (countAfter n ⟨.call .allowRequest, b.state, (b.allowRequest now).2.state⟩)
      (b.allowRequest now).2 := by
  have hcases := b.allow_request_cases now
  generalize b.allowRequest now = out at hcases
  cases hcases with
  | closed hstate =>
      have hsame : countAfter n ⟨.call .allowRequest, b.state, b.state⟩ = n := by
        simp [countAfter, Performed.restarts, Performed.isFailure, hstate]
      rw [hsame]
      exact hb
  | first => exact counted_of_not_closed hb.limit (by simp [tryTransitionToHalfOpen])
  | waiting hstate => exact counted_of_not_closed hb.limit (by simp [hstate])
  | further hstate => exact counted_of_not_closed hb.limit (by simp [hstate])
  | exhausted hstate => exact counted_of_not_closed hb.limit (by simp [hstate])

theorem Counted.success (hpos : 1 ≤ threshold) (hb : Counted threshold n b) :
    Counted threshold 0 b.onSuccess := by
  have hcases := b.on_success_cases
  generalize b.onSuccess = out at hcases
  cases hcases with
  | closed => exact counted_zero hpos hb.limit rfl rfl
  | recovered => exact counted_zero hpos hb.limit rfl rfl
  | counted hstate => exact counted_of_not_closed hb.limit (by simp [hstate])
  | ignored hstate => exact counted_of_not_closed hb.limit (by simp [hstate])

theorem Counted.failure (hb : Counted threshold n b) (now : Int) :
    Counted threshold (countAfter n ⟨.call .onFailure, b.state, (b.onFailure now).state⟩)
      (b.onFailure now) := by
  by_cases hstate : b.state = .closed
  · have hmore : ∀ after, countAfter n ⟨.call .onFailure, b.state, after⟩ = n + 1 := by
      simp [countAfter, Performed.restarts, Performed.isFailure, hstate]
    have hfailures := hb.failures hstate
    have hconsecutive := hb.consecutive hstate
    have hthreshold := hb.limit
    rw [hmore, on_failure_closed hstate]
    split
    · exact counted_of_not_closed hthreshold (by simp [transitionToOpen])
    · refine ⟨hthreshold, fun _ => ?_, fun _ => ?_, fun _ => ?_⟩
      · exact (congrArg (· + 1) hfailures).trans (Nat.cast_succ n).symm
      · exact (congrArg (· + 1) hconsecutive).trans (Nat.cast_succ n).symm
      · push_cast
        omega
  · obtain ⟨hopened, hthreshold⟩ := on_failure_not_closed hstate now
    exact counted_of_not_closed (hthreshold.trans hb.limit) (by simp [hopened])

theorem Counted.perform (hpos : 1 ≤ threshold) (hb : Counted threshold n b) (now : Int)
    (op : BreakerOp) :
    Counted threshold (countAfter n ⟨op, b.state, (b.perform now op).state⟩)
      (b.perform now op) := by
  cases op with
  | call c =>
      cases c with
      | allowRequest => exact hb.allow now
      | onSuccess => exact hb.success hpos
      | onFailure => exact hb.failure now
  | reset => exact counted_zero hpos hb.limit rfl rfl

/-- A run counts the failures since the count last started anew. -/
theorem counted_run (hpos : 1 ≤ threshold) (hb : Counted threshold 0 b)
    (ops : List (Int × BreakerOp)) :
    Counted threshold (b.recentFailures ops) (b.performAll ops) := by
  induction ops using List.reverseRecOn with
  | nil => exact hb
  | append_singleton ops op ih =>
      obtain ⟨now, op⟩ := op
      rw [perform_all_concat, recent_failures_concat]
      exact ih.perform hpos now op

/-- A closed breaker opens with the failure that reaches the threshold. -/
theorem Counted.opens_iff (hb : Counted threshold n b) (hstate : b.state = .closed) (now : Int)
    (op : BreakerOp) :
    (b.perform now op).state = .opened ↔
      op = .call .onFailure ∧
        (countAfter n ⟨op, b.state, (b.perform now op).state⟩ : Int) = threshold := by
  have hfailures := hb.failures hstate
  have hbelow := hb.below hstate
  have hthreshold := hb.limit
  cases op with
  | call c =>
      cases c with
      | allowRequest => simp [CircuitBreaker.perform, CircuitBreaker.call, allowRequest, hstate]
      | onSuccess => simp [CircuitBreaker.perform, CircuitBreaker.call, onSuccess, hstate]
      | onFailure =>
          have hmore : countAfter n
              ⟨.call .onFailure, b.state, (b.perform now (.call .onFailure)).state⟩ = n + 1 := by
            simp [countAfter, Performed.restarts, Performed.isFailure, hstate]
          rw [hmore]
          simp only [CircuitBreaker.perform, CircuitBreaker.call,
            on_failure_closed hstate, true_and]
          split
          · simp only [transitionToOpen, true_iff]
            push_cast
            omega
          · simp only [hstate, reduceCtorEq, false_iff]
            push_cast
            omega
  | reset => simp [CircuitBreaker.perform, reset]

end CircuitBreaker

/-- In every run of a breaker, whenever it is closed both counters are the number of failures since
the last success, reset or entry into the closed state; this is below the threshold, and the breaker
opens exactly with the failure that makes it the threshold. -/
theorem trips_at_threshold (failureThreshold resetTimeoutMs halfOpenMaxRequests : Int)
    (hthreshold : 1 ≤ failureThreshold) (ops : List (Int × BreakerOp)) :
    let fresh : CircuitBreaker := { failureThreshold, resetTimeoutMs, halfOpenMaxRequests }
    (fresh.performAll ops).state = .closed →
      (fresh.performAll ops).failureCount = fresh.recentFailures ops ∧
      (fresh.performAll ops).consecutiveFailures = fresh.recentFailures ops ∧
      (fresh.recentFailures ops : Int) < failureThreshold ∧
      ∀ now op, ((fresh.performAll ops).perform now op).state = .opened ↔
        op = .call .onFailure ∧
          (fresh.recentFailures (ops ++ [(now, op)]) : Int) = failureThreshold := by
  intro fresh hstate
  have hcounted : CircuitBreaker.Counted failureThreshold (fresh.recentFailures ops)
      (fresh.performAll ops) :=
    CircuitBreaker.counted_run hthreshold
      (CircuitBreaker.counted_zero hthreshold rfl rfl rfl) ops
  refine ⟨hcounted.failures hstate, hcounted.consecutive hstate, hcounted.below hstate, ?_⟩
  intro now op
  rw [CircuitBreaker.recent_failures_concat]
  exact hcounted.opens_iff hstate now op

/-- With a threshold of two, a failure after a success does not trip the breaker, and the next one
does. -/
theorem trips_at_threshold_two :
    let fresh : CircuitBreaker :=
      { failureThreshold := 2, resetTimeoutMs := 1000, halfOpenMaxRequests := 1 }
    let ops : List (Int × BreakerOp) :=
      [(0, .call .onFailure), (1, .call .onSuccess), (2, .call .onFailure)]
    (fresh.performAll ops).failureCount = 1 ∧
      ((fresh.performAll ops).perform 3 (.call .onFailure)).state = .opened := by
  obtain ⟨hfailures, -, -, hopens⟩ := trips_at_threshold 2 1000 1 (by decide)
    [(0, .call .onFailure), (1, .call .onSuccess), (2, .call .onFailure)] rfl
  exact ⟨hfailures, (hopens 3 (.call .onFailure)).2 ⟨rfl, rfl⟩⟩

end ApiGateway.Proxy
