import Mathlib

/-!
# The circuit breaker

`CircuitBreaker` of `circuit_breaker.cpp`. Every call holds the mutex of the breaker and reads the
clock under it, so a run is a sequence of calls at times that do not decrease. What a call can do
is said once, by `Allowed`, `Succeeded` and `Failed`.

The main results are `fail_fast`, that no request is admitted before the timeout of a trip has
expired, and `probe_budget_iff`: the request that ends the open state is admitted without being
counted, so the number of probes stays within the budget exactly when nobody asks for one more.
-/

namespace ApiGateway.Proxy

/-- `CircuitBreaker::State`. -/
inductive BreakerState where
  | closed
  | opened
  | halfOpen
  deriving DecidableEq

/-- `class CircuitBreaker`. Times are in nanoseconds. -/
structure CircuitBreaker where
  failureThreshold : Int := 5
  resetTimeoutMs : Int := 30000
  halfOpenMaxRequests : Int := 3
  state : BreakerState := .closed
  failureCount : Int := 0
  consecutiveFailures : Int := 0
  halfOpenSuccesses : Int := 0
  halfOpenRequests : Int := 0
  openedAt : Int := 0
  deriving DecidableEq

namespace CircuitBreaker

/-- `transition_to_open`. -/
def transitionToOpen (b : CircuitBreaker) (now : Int) : CircuitBreaker :=
  { b with state := .opened, openedAt := now, halfOpenSuccesses := 0, halfOpenRequests := 0 }

/-- `try_transition_to_half_open`. The request that causes the transition is not counted. -/
def tryTransitionToHalfOpen (b : CircuitBreaker) : CircuitBreaker :=
  { b with state := .halfOpen, halfOpenSuccesses := 0, halfOpenRequests := 0 }

/-- `reset_timeout_ms_` in nanoseconds. -/
def resetTimeout (b : CircuitBreaker) : Int :=
  b.resetTimeoutMs * 1000000

/-- `allow_request`. -/
def allowRequest (b : CircuitBreaker) (now : Int) : Bool × CircuitBreaker :=
  match b.state with
  | .closed => (true, b)
  | .opened =>
      if b.resetTimeout ≤ now - b.openedAt then (true, b.tryTransitionToHalfOpen) else (false, b)
  | .halfOpen =>
      if b.halfOpenRequests < b.halfOpenMaxRequests then
        (true, { b with halfOpenRequests := b.halfOpenRequests + 1 })
      else (false, b)

/-- `on_success`. -/
def onSuccess (b : CircuitBreaker) : CircuitBreaker :=
  let b := { b with consecutiveFailures := 0 }
  match b.state with
  | .closed => { b with failureCount := 0 }
  | .halfOpen =>
      if b.halfOpenRequests ≤ b.halfOpenSuccesses + 1 then
        { b with
          state := .closed, failureCount := 0, halfOpenSuccesses := 0, halfOpenRequests := 0 }
      else { b with halfOpenSuccesses := b.halfOpenSuccesses + 1 }
  | .opened => b

/-- `on_failure`. -/
def onFailure (b : CircuitBreaker) (now : Int) : CircuitBreaker :=
  let b :=
    { b with
      consecutiveFailures := b.consecutiveFailures + 1
      failureCount := b.failureCount + 1 }
  match b.state with
  | .closed => if b.failureThreshold ≤ b.failureCount then b.transitionToOpen now else b
  | .halfOpen => b.transitionToOpen now
  | .opened => { b with openedAt := now }

/-- `reset`. -/
def reset (b : CircuitBreaker) : CircuitBreaker :=
  { b with
    state := .closed
    failureCount := 0
    consecutiveFailures := 0
    halfOpenSuccesses := 0
    halfOpenRequests := 0 }

/-! ## What a call can do -/

variable {b : CircuitBreaker} {now : Int}

/-- The ways in which a request is admitted or rejected. -/
inductive Allowed (b : CircuitBreaker) (now : Int) : Bool × CircuitBreaker → Prop where
  | closed (hstate : b.state = .closed) : Allowed b now (true, b)
  | first (hstate : b.state = .opened) (hexpired : b.resetTimeout ≤ now - b.openedAt) :
      Allowed b now (true, b.tryTransitionToHalfOpen)
  | waiting (hstate : b.state = .opened) (hearly : now - b.openedAt < b.resetTimeout) :
      Allowed b now (false, b)
  | further (hstate : b.state = .halfOpen) (hbudget : b.halfOpenRequests < b.halfOpenMaxRequests) :
      Allowed b now (true, { b with halfOpenRequests := b.halfOpenRequests + 1 })
  | exhausted (hstate : b.state = .halfOpen)
      (hbudget : b.halfOpenMaxRequests ≤ b.halfOpenRequests) : Allowed b now (false, b)

theorem allow_request_cases (b : CircuitBreaker) (now : Int) :
    Allowed b now (b.allowRequest now) := by
  unfold allowRequest
  split
  · exact .closed ‹_›
  · split
    · exact .first ‹_› ‹_›
    · exact .waiting ‹_› (by omega)
  · split
    · exact .further ‹_› ‹_›
    · exact .exhausted ‹_› (by omega)

/-- The ways in which a success is taken. -/
inductive Succeeded (b : CircuitBreaker) : CircuitBreaker → Prop where
  | closed (hstate : b.state = .closed) :
      Succeeded b { b with consecutiveFailures := 0, failureCount := 0 }
  | recovered (hstate : b.state = .halfOpen) (hall : b.halfOpenRequests ≤ b.halfOpenSuccesses + 1) :
      Succeeded b { b with
        consecutiveFailures := 0, state := .closed, failureCount := 0, halfOpenSuccesses := 0
        halfOpenRequests := 0 }
  | counted (hstate : b.state = .halfOpen) (hmore : b.halfOpenSuccesses + 1 < b.halfOpenRequests) :
      Succeeded b { b with
        consecutiveFailures := 0, halfOpenSuccesses := b.halfOpenSuccesses + 1 }
  | ignored (hstate : b.state = .opened) : Succeeded b { b with consecutiveFailures := 0 }

theorem on_success_cases (b : CircuitBreaker) : Succeeded b b.onSuccess := by
  simp only [onSuccess]
  split
  · exact .closed ‹_›
  · split
    · exact .recovered ‹_› ‹_›
    · exact .counted ‹_› (by omega)
  · exact .ignored ‹_›

/-- A failure leaves the breaker closed or opens it at the current time. -/
inductive Failed (b : CircuitBreaker) (now : Int) : CircuitBreaker → Prop where
  | counted (b' : CircuitBreaker) (hstate : b.state = .closed) (hstate' : b'.state = .closed)
      (htimeout : b'.resetTimeoutMs = b.resetTimeoutMs)
      (hmax : b'.halfOpenMaxRequests = b.halfOpenMaxRequests) : Failed b now b'
  | opened (b' : CircuitBreaker) (hstate' : b'.state = .opened) (hopened : b'.openedAt = now)
      (htimeout : b'.resetTimeoutMs = b.resetTimeoutMs)
      (hmax : b'.halfOpenMaxRequests = b.halfOpenMaxRequests) : Failed b now b'

theorem on_failure_cases (b : CircuitBreaker) (now : Int) : Failed b now (b.onFailure now) := by
  simp only [onFailure]
  split
  · split
    · exact .opened _ rfl rfl rfl rfl
    · exact .counted _ ‹_› ‹_› rfl rfl
  · exact .opened _ rfl rfl rfl rfl
  · exact .opened _ ‹_› rfl rfl rfl

end CircuitBreaker

/-! ## Runs -/

/-- The calls of a run. -/
inductive BreakerCall where
  | allowRequest
  | onSuccess
  | onFailure
  deriving DecidableEq

/-- The breaker after a call. -/
def CircuitBreaker.call (b : CircuitBreaker) (now : Int) : BreakerCall → CircuitBreaker
  | .allowRequest => (b.allowRequest now).2
  | .onSuccess => b.onSuccess
  | .onFailure => b.onFailure now

/-- A breaker and the time of its last call. -/
structure Timed where
  breaker : CircuitBreaker
  clock : Int

/-- A call, not earlier than the last one. -/
inductive Timed.Step : Timed → Timed → Prop where
  | call {s : Timed} (c : BreakerCall) {now : Int} (hclock : s.clock ≤ now) :
      Step s ⟨s.breaker.call now c, now⟩

/-! ## The window after a trip -/

namespace Timed

variable {s t : Timed}

/-- The breaker has been open since `since` at least, with a timeout of `timeout`. -/
structure Tripped (since timeout : Int) (s : Timed) : Prop where
  state : s.breaker.state = .opened
  opened : since ≤ s.breaker.openedAt
  clock : since ≤ s.clock
  timeout : s.breaker.resetTimeout = timeout

theorem Tripped.rejects {since timeout now : Int} (hs : Tripped since timeout s)
    (hearly : now < since + timeout) : s.breaker.allowRequest now = (false, s.breaker) := by
  have hopened := hs.opened
  have htimeout := hs.timeout
  unfold CircuitBreaker.allowRequest
  rw [hs.state]
  exact if_neg (by omega)

/-- Within the window no call ends the open state, and late failures only extend it. -/
theorem Tripped.step {since timeout : Int} (hs : Tripped since timeout s) (h : Step s t)
    (hearly : t.clock < since + timeout) : Tripped since timeout t := by
  cases h with
  | @call c now hclock =>
      have hsince : since ≤ now := le_trans hs.clock hclock
      cases c with
      | allowRequest =>
          have hreject := hs.rejects hearly
          refine ⟨?_, ?_, hsince, ?_⟩ <;> simp only [CircuitBreaker.call, hreject]
          · exact hs.state
          · exact hs.opened
          · exact hs.timeout
      | onSuccess =>
          have hignored : s.breaker.onSuccess = { s.breaker with consecutiveFailures := 0 } := by
            simp only [CircuitBreaker.onSuccess, hs.state]
          refine ⟨?_, ?_, hsince, ?_⟩ <;> simp only [CircuitBreaker.call, hignored]
          · exact hs.state
          · exact hs.opened
          · exact hs.timeout
      | onFailure =>
          have hlate : s.breaker.onFailure now =
              { s.breaker with
                consecutiveFailures := s.breaker.consecutiveFailures + 1
                failureCount := s.breaker.failureCount + 1
                openedAt := now } := by
            simp only [CircuitBreaker.onFailure, hs.state]
          refine ⟨?_, ?_, hsince, ?_⟩ <;> simp only [CircuitBreaker.call, hlate]
          · exact hs.state
          · exact hsince
          · exact hs.timeout

theorem Step.clock_le (h : Step s t) : s.clock ≤ t.clock := by
  cases h with
  | call _ hclock => exact hclock

theorem Tripped.run {since timeout : Int} (hs : Tripped since timeout s)
    (h : Relation.ReflTransGen Step s t) (hearly : t.clock < since + timeout) :
    Tripped since timeout t := by
  induction h with
  | refl => exact hs
  | tail _ hstep ih => exact (ih (lt_of_le_of_lt hstep.clock_le hearly)).step hstep hearly

end Timed

/-- A failure that opens the breaker at time `since` keeps every request out until the timeout has
expired, whatever is reported in between. -/
theorem fail_fast (b : CircuitBreaker) (since now : Int) (t : Timed)
    (htrip : (b.onFailure since).state = .opened)
    (hrun : Relation.ReflTransGen Timed.Step ⟨b.onFailure since, since⟩ t) (hclock : t.clock ≤ now)
    (hearly : now < since + b.resetTimeout) : (t.breaker.allowRequest now).1 = false := by
  have hstart : Timed.Tripped since b.resetTimeout ⟨b.onFailure since, since⟩ := by
    cases b.on_failure_cases since with
    | counted hstate hstate' => simp [hstate'] at htrip
    | opened _ hopened htimeout =>
        refine ⟨htrip, hopened.ge, le_rfl, ?_⟩
        unfold CircuitBreaker.resetTimeout
        rw [htimeout]
  have htripped := hstart.run hrun (lt_of_le_of_lt hclock hearly)
  rw [htripped.rejects hearly]

/-- A breaker that opens at the first failure and stays open for a second. -/
def sensitive : CircuitBreaker :=
  { failureThreshold := 1, resetTimeoutMs := 1000, halfOpenMaxRequests := 1 }

/-- The breaker trips at time 5; a late failure and a late success arrive before the next
request. -/
theorem fail_fast_late_reports :
    ((((sensitive.onFailure 5).onFailure 7).onSuccess).allowRequest 1000000004).1 = false := by
  refine fail_fast sensitive 5 1000000004 ⟨((sensitive.onFailure 5).onFailure 7).onSuccess, 8⟩ rfl
    ?_ (by decide) (by decide)
  exact .tail (.single (.call .onFailure (show (5 : Int) ≤ 7 by decide)))
    (.call .onSuccess (show (7 : Int) ≤ 8 by decide))

/-! ## The budget of probes -/

/-- A breaker and the number of requests admitted since it became half open. -/
structure Watch where
  breaker : CircuitBreaker
  probes : Nat := 0

namespace Watch

/-- A call, with the probe it admits. The first probe is the request that ends the open state. -/
def call (w : Watch) (now : Int) (c : BreakerCall) : Watch :=
  let following := w.breaker.call now c
  { breaker := following
    probes :=
      if c = .allowRequest ∧ (w.breaker.allowRequest now).1 = true ∧
        following.state = .halfOpen then
        if w.breaker.state = .halfOpen then w.probes + 1 else 1
      else w.probes }

/-- A sequence of calls with their times. -/
def run (w : Watch) (calls : List (Int × BreakerCall)) : Watch :=
  calls.foldl (fun w c => w.call c.1 c.2) w

/-- The first probe is missing in `half_open_requests_`. -/
structure Inv (m : Int) (w : Watch) : Prop where
  max : w.breaker.halfOpenMaxRequests = m
  probes : w.breaker.state = .halfOpen → (w.probes : Int) = w.breaker.halfOpenRequests + 1
  budget : w.breaker.state = .halfOpen → w.breaker.halfOpenRequests ≤ m

variable {m : Int} {w : Watch}

theorem inv_allow (hm : 1 ≤ m) (hw : Inv m w) (now : Int) : Inv m (w.call now .allowRequest) := by
  have hmax := hw.max
  have hcases := w.breaker.allow_request_cases now
  simp only [call, CircuitBreaker.call]
  generalize w.breaker.allowRequest now = out at hcases
  cases hcases with
  | closed hstate => exact ⟨hmax, by simp [hstate], by simp [hstate]⟩
  | first hstate hexpired =>
      refine ⟨hmax, ?_, ?_⟩
      · simp [CircuitBreaker.tryTransitionToHalfOpen, hstate]
      · intro _
        show (0 : Int) ≤ m
        omega
  | waiting hstate hearly => exact ⟨hmax, by simp [hstate], by simp [hstate]⟩
  | further hstate hbudget =>
      have hprobes := hw.probes hstate
      refine ⟨hmax, ?_, ?_⟩
      · simp only [hstate, true_and, if_true]
        push_cast
        omega
      · intro _
        show w.breaker.halfOpenRequests + 1 ≤ m
        omega
  | exhausted hstate hbudget => exact ⟨hmax, by simpa using hw.probes, hw.budget⟩

theorem inv_success (hw : Inv m w) (now : Int) : Inv m (w.call now .onSuccess) := by
  have hcases := w.breaker.on_success_cases
  simp only [call, CircuitBreaker.call, reduceCtorEq, false_and, if_false]
  generalize w.breaker.onSuccess = out at hcases
  cases hcases with
  | closed hstate => exact ⟨hw.max, by simp [hstate], by simp [hstate]⟩
  | recovered hstate hall => exact ⟨hw.max, by simp, by simp⟩
  | counted hstate hmore => exact ⟨hw.max, hw.probes, hw.budget⟩
  | ignored hstate => exact ⟨hw.max, by simp [hstate], by simp [hstate]⟩

theorem inv_failure (hw : Inv m w) (now : Int) : Inv m (w.call now .onFailure) := by
  have hcases := w.breaker.on_failure_cases now
  simp only [call, CircuitBreaker.call, reduceCtorEq, false_and, if_false]
  cases hcases with
  | counted _ hstate' htimeout hmax =>
      exact ⟨hmax.trans hw.max, by simp [hstate'], by simp [hstate']⟩
  | opened hstate' hopened htimeout hmax =>
      exact ⟨hmax.trans hw.max, by simp [hstate'], by simp [hstate']⟩

theorem inv_run (hm : 1 ≤ m) (hw : Inv m w) (calls : List (Int × BreakerCall)) :
    Inv m (w.run calls) := by
  induction calls generalizing w with
  | nil => exact hw
  | cons c calls ih =>
      obtain ⟨now, c⟩ := c
      refine ih ?_
      cases c with
      | allowRequest => exact inv_allow hm hw now
      | onSuccess => exact inv_success hw now
      | onFailure => exact inv_failure hw now

theorem run_concat (w : Watch) (calls : List (Int × BreakerCall)) (now : Int) (c : BreakerCall) :
    w.run (calls ++ [(now, c)]) = (w.run calls).call now c := by
  simp [run]

/-- A further probe is admitted as long as it is not beyond the budget by the count that leaves
out the first one. -/
theorem probes_allow (hw : Inv m w) (hstate : w.breaker.state = .halfOpen) (hprobes : w.probes = m)
    (now : Int) :
    (w.call now .allowRequest).breaker.state = .halfOpen ∧
      (w.call now .allowRequest).probes = m + 1 := by
  have hmax := hw.max
  have hcount := hw.probes hstate
  have hallow : w.breaker.allowRequest now =
      (true, { w.breaker with halfOpenRequests := w.breaker.halfOpenRequests + 1 }) := by
    simp only [CircuitBreaker.allowRequest, hstate]
    exact if_pos (by omega)
  simp only [call, CircuitBreaker.call, hallow, hstate, true_and, if_true]
  push_cast
  omega

/-- A report does not make the breaker half open. -/
theorem half_open_of_report (w : Watch) (now : Int) {c : BreakerCall} (hc : c ≠ .allowRequest)
    (h : (w.call now c).breaker.state = .halfOpen) : w.breaker.state = .halfOpen := by
  cases c with
  | allowRequest => exact absurd rfl hc
  | onSuccess =>
      have hcases := w.breaker.on_success_cases
      simp only [call, CircuitBreaker.call] at h
      generalize w.breaker.onSuccess = out at hcases h
      cases hcases with
      | closed hstate => exact h
      | recovered hstate hall => cases h
      | counted hstate hmore => exact hstate
      | ignored hstate => exact h
  | onFailure =>
      simp only [call, CircuitBreaker.call] at h
      cases w.breaker.on_failure_cases now with
      | counted _ hstate' => simp [hstate'] at h
      | opened hstate' => simp [hstate'] at h

/-- The number of probes grows only by an admission in the half-open state, or starts at one. -/
theorem probes_call_le (hm : 1 ≤ m) (now : Int) (c : BreakerCall)
    (hbefore : w.breaker.state = .halfOpen → (w.probes : Int) ≤ m)
    (hask : c = .allowRequest → w.breaker.state = .halfOpen → (w.probes : Int) < m)
    (hcall : (w.call now c).breaker.state = .halfOpen) : ((w.call now c).probes : Int) ≤ m := by
  by_cases hc : c = .allowRequest
  · subst hc
    have hcases := w.breaker.allow_request_cases now
    simp only [call, CircuitBreaker.call] at hcall ⊢
    generalize w.breaker.allowRequest now = out at hcases hcall
    cases hcases with
    | closed hstate => simp [hstate] at hcall
    | first hstate hexpired => simpa [CircuitBreaker.tryTransitionToHalfOpen, hstate] using hm
    | waiting hstate hearly => simp [hstate] at hcall
    | further hstate hbudget =>
        have hlt := hask rfl hstate
        simp only [hstate, true_and, if_true]
        push_cast
        omega
    | exhausted hstate hbudget => simpa using hbefore hstate
  · simpa [call, hc] using hbefore (half_open_of_report w now hc hcall)

end Watch

/-- In every sequence of calls, the probes of each half-open period stay within the budget exactly
when nobody asks for a further one after as many as the budget allows have been admitted. -/
theorem probe_budget_iff (failureThreshold resetTimeoutMs m : Int) (hm : 1 ≤ m)
    (calls : List (Int × BreakerCall)) :
    let w : Watch := { breaker := { failureThreshold, resetTimeoutMs, halfOpenMaxRequests := m } }
    (∀ before, before <+: calls → (w.run before).breaker.state = .halfOpen →
        ((w.run before).probes : Int) ≤ m) ↔
      ∀ before now, before ++ [(now, .allowRequest)] <+: calls →
        (w.run before).breaker.state = .halfOpen → ((w.run before).probes : Int) < m := by
  intro w
  have hinv : ∀ calls, Watch.Inv m (w.run calls) :=
    Watch.inv_run hm ⟨rfl, (fun h => by cases h), (fun h => by cases h)⟩
  constructor
  · intro hbudget before now hpre hstate
    have hle := hbudget before ((List.prefix_append _ _).trans hpre) hstate
    -- one more admission would be counted in the state after the call
    refine lt_of_le_of_ne hle fun hfull => ?_
    obtain ⟨hstate', hprobes⟩ := Watch.probes_allow (hinv before) hstate hfull now
    rw [← Watch.run_concat] at hstate' hprobes
    have := hbudget _ hpre hstate'
    omega
  · intro hask before
    induction before using List.reverseRecOn with
    | nil =>
        intro _ hstate
        cases hstate
    | append_singleton before c ih =>
        obtain ⟨now, c⟩ := c
        intro hpre hstate
        rw [Watch.run_concat] at hstate ⊢
        refine Watch.probes_call_le hm now c (ih ((List.prefix_append _ _).trans hpre)) ?_ hstate
        rintro rfl hopen
        exact hask before now hpre hopen

/-- A breaker that trips at the first failure and has a budget of `m` probes, watched. -/
def watched (m : Int) : Watch :=
  { breaker := { failureThreshold := 1, resetTimeoutMs := 1000, halfOpenMaxRequests := m } }

/-- With two requests after the trip the budget of two is used up and kept. -/
theorem probe_budget_two :
    let w := (watched 2).run
      [(0, .onFailure), (1000000000, .allowRequest), (1000000001, .allowRequest)]
    w.breaker.state = .halfOpen ∧ w.probes = 2 ∧ (w.probes : Int) ≤ 2 := by
  refine ⟨rfl, rfl, (probe_budget_iff 1 1000 2 (by decide)
    [(0, .onFailure), (1000000000, .allowRequest), (1000000001, .allowRequest)]).2
    ?_ _ (List.prefix_refl _) rfl⟩
  intro before now hpre hstate
  have hlength : before.length < 3 := by simpa using hpre.length_le
  have hbefore := List.prefix_iff_eq_take.1 ((List.prefix_append before _).trans hpre)
  generalize before.length = n at hlength hbefore
  subst hbefore
  interval_cases n
  · cases hstate
  · cases hstate
  · show ((1 : Nat) : Int) < 2
    decide

/-- With a budget of one, a second request is admitted as a probe. -/
theorem probe_budget_exceeded :
    let w := (watched 1).run
      [(0, .onFailure), (1000000000, .allowRequest), (1000000001, .allowRequest)]
    w.breaker.halfOpenMaxRequests = 1 ∧ w.breaker.state = .halfOpen ∧ w.probes = 2 := by
  decide

end ApiGateway.Proxy
