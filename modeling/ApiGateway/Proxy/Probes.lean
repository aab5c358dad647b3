import ApiGateway.Library.Table
import ApiGateway.Proxy.CircuitBreaker

/-!
# The probes of a half-open circuit breaker

The breaker together with the requests it has admitted, each of which reports success or failure
once, in any order. The reports are anonymous for the breaker: it only counts those that arrive
while it is half open. The main results are `probe_outstanding`, that a half-open breaker waits for
a probe of its current period, and `recovery_iff`, which says when a recovery is justified by all
of them: when the period has a single probe.
-/

namespace ApiGateway.Proxy

/-- A report, and the half-open period in which it arrives, if any. -/
structure Report where
  ok : Bool
  during : Option Nat
  deriving DecidableEq

/-- An admitted request: the half-open period for which it is a probe, if any, and its report. -/
structure Admitted where
  period : Option Nat
  report : Option Report := none
  deriving DecidableEq

/-- Whether a request is a probe of period `k`. -/
def Admitted.isProbe (k : Nat) (r : Admitted) : Bool :=
  r.period == some k

/-- Whether a request has reported success during period `k`. -/
def Admitted.succeeded (k : Nat) (r : Admitted) : Bool :=
  r.report == some ⟨true, some k⟩

/-- A breaker in use: the time of the last call, the number of half-open periods so far, and the
admitted requests. -/
structure Usage where
  breaker : CircuitBreaker
  clock : Int := 0
  periods : Nat := 0
  requests : List Admitted := []

namespace Usage

/-- The current half-open period. -/
def period (s : Usage) : Option Nat :=
  if s.breaker.state = .halfOpen then some s.periods else none

/-- A call of `allow_request`. -/
def allow (s : Usage) (now : Int) : Usage :=
  let (allowed, b) := s.breaker.allowRequest now
  let s' :=
    { s with
      breaker := b
      clock := now
      periods :=
        if s.breaker.state = .opened ∧ b.state = .halfOpen then s.periods + 1 else s.periods }
  if allowed then { s' with requests := s.requests ++ [{ period := s'.period }] } else s'

/-- A report of request `i`. -/
def report (s : Usage) (i : Nat) (r : Admitted) (ok : Bool) (now : Int) : Usage :=
  { s with
    breaker := if ok then s.breaker.onSuccess else s.breaker.onFailure now
    clock := now
    requests := s.requests.set i { r with report := some ⟨ok, s.period⟩ } }

/-- A request asks for admission, or an admitted request makes its only report. -/
inductive Step : Usage → Usage → Prop where
  | allow {s : Usage} {now : Int} (hclock : s.clock ≤ now) : Step s (s.allow now)
  | report {s : Usage} {i : Nat} {r : Admitted} {now : Int} (ok : Bool) (hclock : s.clock ≤ now)
      (hr : s.requests[i]? = some r) (hreport : r.report = none) : Step s (s.report i r ok now)

/-- The states of a breaker that is closed at first. -/
def Reachable (b : CircuitBreaker) : Usage → Prop :=
  Relation.ReflTransGen Step { breaker := b }

/-- The number of probes of the current period. -/
def probes (s : Usage) : Nat :=
  s.requests.countP (Admitted.isProbe s.periods)

/-- The number of successes reported during the current period, by whatever request. -/
def successes (s : Usage) : Nat :=
  s.requests.countP (Admitted.succeeded s.periods)

/-- The invariant. While the breaker is half open, its counters are those of the period, except
for the first probe, no success has been counted or fewer than the probes counted, and the probes
that have reported have reported success. -/
structure Inv (s : Usage) : Prop where
  periods : ∀ r ∈ s.requests, ∀ k, r.period = some k → k ≤ s.periods
  reports : ∀ r ∈ s.requests, ∀ ok k, r.report = some ⟨ok, some k⟩ → k ≤ s.periods
  probes : s.breaker.state = .halfOpen → (s.probes : Int) = s.breaker.halfOpenRequests + 1
  successes : s.breaker.state = .halfOpen → (s.successes : Int) = s.breaker.halfOpenSuccesses
  pending : s.breaker.state = .halfOpen →
    s.breaker.halfOpenSuccesses = 0 ∧ 0 ≤ s.breaker.halfOpenRequests ∨
      s.breaker.halfOpenSuccesses < s.breaker.halfOpenRequests
  reported : s.breaker.state = .halfOpen → ∀ r ∈ s.requests, r.period = some s.periods →
    r.report = none ∨ r.report = some ⟨true, some s.periods⟩

variable {s t : Usage}

theorem inv_start {b : CircuitBreaker} (hb : b.state = .closed) : Inv { breaker := b } where
  periods := by simp
  reports := by simp
  probes := by simp [hb]
  successes := by simp [hb]
  pending := by simp [hb]
  reported := by simp

/-! ## Admissions -/

/-- Counting for a new period starts from zero. -/
theorem countP_new_period (hs : Inv s) :
    s.requests.countP (Admitted.isProbe (s.periods + 1)) = 0 ∧
      s.requests.countP (Admitted.succeeded (s.periods + 1)) = 0 := by
  constructor
  · refine List.countP_eq_zero.2 fun r hr hk => ?_
    have := hs.periods r hr _ (eq_of_beq hk)
    omega
  · refine List.countP_eq_zero.2 fun r hr hk => ?_
    have := hs.reports r hr _ _ (eq_of_beq hk)
    omega

/-- The request that ends the open state starts a new period. -/
theorem inv_first (hs : Inv s) (now : Int) :
    Inv { s with
      breaker := s.breaker.tryTransitionToHalfOpen
      clock := now
      periods := s.periods + 1
      requests := s.requests ++ [{ period := some (s.periods + 1) }] } := by
  obtain ⟨hprobes, hsuccesses⟩ := countP_new_period hs
  constructor
  case periods =>
    intro r hr k hk
    rcases List.mem_append.1 hr with hr | hr
    · have := hs.periods r hr k hk
      show k ≤ s.periods + 1
      omega
    · rw [List.mem_singleton.1 hr] at hk
      exact (Option.some.inj hk).ge
  case reports =>
    intro r hr ok k hk
    rcases List.mem_append.1 hr with hr | hr
    · have := hs.reports r hr ok k hk
      show k ≤ s.periods + 1
      omega
    · rw [List.mem_singleton.1 hr] at hk
      cases hk
  case probes =>
    intro _
    simp [Usage.probes, hprobes, Admitted.isProbe, CircuitBreaker.tryTransitionToHalfOpen]
  case successes =>
    intro _
    simp [Usage.successes, hsuccesses, Admitted.succeeded, CircuitBreaker.tryTransitionToHalfOpen]
  case pending =>
    intro _
    exact .inl ⟨rfl, le_rfl⟩
  case reported =>
    intro _ r hr hk
    rcases List.mem_append.1 hr with hr | hr
    · have := hs.periods r hr _ hk
      exact absurd this (by simp)
    · rw [List.mem_singleton.1 hr]
      exact .inl rfl

/-- A request admitted outside of the half-open state, or as a further probe. -/
theorem inv_append (hs : Inv s) {b : CircuitBreaker} (p : Option Nat) (now : Int)
    (hstate : b.state = s.breaker.state) (hp : ∀ k, p = some k → k = s.periods)
    (hsuccesses : b.halfOpenSuccesses = s.breaker.halfOpenSuccesses)
    (hrequests : b.halfOpenRequests =
      s.breaker.halfOpenRequests + if p = some s.periods then 1 else 0) :
    Inv { s with breaker := b, clock := now, requests := s.requests ++ [{ period := p }] } := by
  constructor
  case periods =>
    intro r hr k hr'
    rcases List.mem_append.1 hr with hr | hr
    · exact hs.periods r hr k hr'
    · rw [List.mem_singleton.1 hr] at hr'
      exact (hp k hr').le
  case reports =>
    intro r hr ok k hr'
    rcases List.mem_append.1 hr with hr | hr
    · exact hs.reports r hr ok k hr'
    · rw [List.mem_singleton.1 hr] at hr'
      cases hr'
  case probes =>
    intro h
    have hprobes := hs.probes (hstate.symm.trans h)
    simp only [Usage.probes] at hprobes
    simp only [Usage.probes, List.countP_append, List.countP_singleton, Admitted.isProbe,
      beq_iff_eq, hrequests]
    push_cast
    omega
  case successes =>
    intro h
    have hsame := hs.successes (hstate.symm.trans h)
    simp only [Usage.successes] at hsame
    simpa [Usage.successes, hsuccesses, Admitted.succeeded] using hsame
  case pending =>
    intro h
    have hpending := hs.pending (hstate.symm.trans h)
    show b.halfOpenSuccesses = 0 ∧ 0 ≤ b.halfOpenRequests ∨
      b.halfOpenSuccesses < b.halfOpenRequests
    split at hrequests <;> omega
  case reported =>
    intro h r hr hr'
    rcases List.mem_append.1 hr with hr | hr
    · exact hs.reported (hstate.symm.trans h) r hr hr'
    · rw [List.mem_singleton.1 hr]
      exact .inl rfl

theorem inv_allow (hs : Inv s) (now : Int) : Inv (s.allow now) := by
  have hcases := s.breaker.allow_request_cases now
  simp only [Usage.allow]
  generalize s.breaker.allowRequest now = out at hcases
  cases hcases with
  | closed hstate =>
      simpa [Usage.period, hstate] using inv_append hs none now rfl (by simp) rfl (by simp)
  | first hstate hexpired =>
      simpa [Usage.period, hstate, CircuitBreaker.tryTransitionToHalfOpen] using inv_first hs now
  | waiting hstate hearly | exhausted hstate hbudget =>
      simp only [Bool.false_eq_true, if_false, hstate]
      exact ⟨hs.periods, hs.reports, hs.probes, hs.successes, hs.pending, hs.reported⟩
  | further hstate hbudget =>
      have hinv := inv_append hs
        (b := { s.breaker with halfOpenRequests := s.breaker.halfOpenRequests + 1 })
        (some s.periods) now rfl (by simp) rfl (by simp)
      simpa [Usage.period, hstate] using hinv

/-! ## Reports -/

section Report

variable {i : Nat} {r : Admitted} {ok : Bool} {now : Int}

/-- A request after the report of request `i`. -/
theorem mem_report {q : Admitted} (h : q ∈ (s.report i r ok now).requests) :
    q ∈ s.requests ∨ q = { r with report := some ⟨ok, s.period⟩ } :=
  List.mem_or_eq_of_mem_set h

theorem probes_report (hr : s.requests[i]? = some r) :
    (s.report i r ok now).probes = s.probes := by
  -- A report does not change whether the request is a probe.
  have hset : (s.report i r ok now).probes + (r.isProbe s.periods).toNat =
      s.probes + (r.isProbe s.periods).toNat := Table.countP_set hr _ _
  exact Nat.add_right_cancel hset

theorem successes_report (hr : s.requests[i]? = some r) (hreport : r.report = none)
    (hstate : s.breaker.state = .halfOpen) :
    (s.report i r true now).successes = s.successes + 1 := by
  obtain ⟨hi, hget⟩ := List.getElem?_eq_some_iff.1 hr
  simp [Usage.successes, Usage.report, List.countP_set hi, hget, hreport, Usage.period, hstate,
    Admitted.succeeded]

/-- The parts of the invariant that hold whatever the state of the breaker. -/
theorem inv_report_bounds (hs : Inv s) (hr : s.requests[i]? = some r) :
    (∀ q ∈ (s.report i r ok now).requests, ∀ k, q.period = some k → k ≤ s.periods) ∧
      ∀ q ∈ (s.report i r ok now).requests, ∀ ok' k, q.report = some ⟨ok', some k⟩ →
        k ≤ s.periods := by
  have hmem := List.mem_of_getElem? hr
  constructor
  · intro q hq k hk
    rcases mem_report hq with hq | rfl
    · exact hs.periods q hq k hk
    · exact hs.periods r hmem k hk
  · intro q hq ok' k hk
    rcases mem_report hq with hq | rfl
    · exact hs.reports q hq ok' k hk
    · have hperiod : s.period = some k := congrArg Report.during (Option.some.inj hk)
      unfold Usage.period at hperiod
      split at hperiod
      · exact (Option.some.inj hperiod).ge
      · cases hperiod

/-- A report that leaves the breaker in another state than half open. -/
theorem inv_report_of_ne (hs : Inv s) (hr : s.requests[i]? = some r)
    (hstate : (s.report i r ok now).breaker.state ≠ .halfOpen) : Inv (s.report i r ok now) where
  periods := (inv_report_bounds hs hr).1
  reports := (inv_report_bounds hs hr).2
  probes := fun h => absurd h hstate
  successes := fun h => absurd h hstate
  pending := fun h => absurd h hstate
  reported := fun h => absurd h hstate

/-- A success that is counted without closing the breaker. -/
theorem inv_counted (hs : Inv s) (hr : s.requests[i]? = some r) (hreport : r.report = none)
    (hstate : s.breaker.state = .halfOpen)
    (hmore : s.breaker.halfOpenSuccesses + 1 < s.breaker.halfOpenRequests) :
    Inv (s.report i r true now) := by
  have hbreaker : (s.report i r true now).breaker =
      { s.breaker with
        consecutiveFailures := 0, halfOpenSuccesses := s.breaker.halfOpenSuccesses + 1 } := by
    simp only [Usage.report, if_true, CircuitBreaker.onSuccess, hstate]
    exact if_neg (by omega)
  constructor
  case periods => exact (inv_report_bounds hs hr).1
  case reports => exact (inv_report_bounds hs hr).2
  case probes =>
    intro _
    rw [probes_report hr, hbreaker]
    exact hs.probes hstate
  case successes =>
    intro _
    have hcount := hs.successes hstate
    rw [successes_report hr hreport hstate, hbreaker]
    push_cast
    omega
  case pending =>
    intro _
    rw [hbreaker]
    exact .inr hmore
  case reported =>
    intro _ q hq hk
    rcases mem_report hq with hq | rfl
    · exact hs.reported hstate q hq hk
    · right
      simp [Usage.period, hstate, Usage.report]

theorem inv_report (hs : Inv s) (hr : s.requests[i]? = some r) (hreport : r.report = none)
    (ok : Bool) (now : Int) : Inv (s.report i r ok now) := by
  cases ok with
  | true =>
      have hcases := s.breaker.on_success_cases
      by_cases hstate : (s.report i r true now).breaker.state = .halfOpen
      · simp only [Usage.report, if_true] at hstate
        generalize s.breaker.onSuccess = out at hcases hstate
        cases hcases with
        | closed h => simp [h] at hstate
        | recovered h hall => simp at hstate
        | counted h hmore => exact inv_counted hs hr hreport h hmore
        | ignored h => simp [h] at hstate
      · exact inv_report_of_ne hs hr hstate
  | false =>
      refine inv_report_of_ne hs hr ?_
      simp only [Usage.report, Bool.false_eq_true, if_false]
      cases s.breaker.on_failure_cases now with
      | counted _ h => simp [h]
      | opened h => simp [h]

end Report

theorem inv_step (hs : Inv s) (h : Step s t) : Inv t := by
  cases h with
  | allow hclock => exact inv_allow hs _
  | report ok hclock hr hreport => exact inv_report hs hr hreport ok _

theorem inv_reachable {b : CircuitBreaker} (hb : b.state = .closed) (h : Reachable b s) :
    Inv s := by
  induction h with
  | refl => exact inv_start hb
  | tail _ hstep ih => exact inv_step ih hstep

/-! ## Results -/

/-- More probes have been admitted than successes have been reported, so one is outstanding. -/
theorem exists_outstanding (hs : Inv s) (hstate : s.breaker.state = .halfOpen) :
    ∃ (i : Nat) (r : Admitted),
      s.requests[i]? = some r ∧ r.period = some s.periods ∧ r.report = none := by
  have hlt : s.successes < s.probes := by
    have hprobes := hs.probes hstate
    have hsuccesses := hs.successes hstate
    have hpending := hs.pending hstate
    omega
  by_contra hnone
  refine absurd hlt (not_lt.2 (List.countP_mono_left fun r hr hprobe => ?_))
  have hk : r.period = some s.periods := eq_of_beq hprobe
  rcases hs.reported hstate r hr hk with hreport | hreport
  · obtain ⟨i, hi⟩ := List.mem_iff_getElem?.1 hr
    exact absurd ⟨i, r, hi, hk, hreport⟩ hnone
  · exact beq_iff_eq.2 hreport

/-- The breaker never waits in the half-open state for nothing: a probe of the current period has
not reported yet, and its failure would end the period. -/
theorem probe_outstanding (b : CircuitBreaker) (hb : b.state = .closed) (s : Usage)
    (hs : Reachable b s) (hstate : s.breaker.state = .halfOpen) :
    ∃ (i : Nat) (r : Admitted),
      s.requests[i]? = some r ∧ r.period = some s.periods ∧ r.report = none ∧ ∀ now, s.clock ≤ now →
        Step s (s.report i r false now) ∧ (s.report i r false now).breaker.state = .opened := by
  obtain ⟨i, r, hi, hk, hreport⟩ := exists_outstanding (inv_reachable hb hs) hstate
  refine ⟨i, r, hi, hk, hreport, fun now hclock => ⟨.report false hclock hi hreport, ?_⟩⟩
  simp only [Usage.report, Bool.false_eq_true, if_false, CircuitBreaker.onFailure, hstate]
  rfl

/-- The breaker `sensitive` has tripped at the failure of its first request, and admits a probe
after a second. -/
def probing : Usage :=
  (({ breaker := sensitive } : Usage).allow 0 |>.report 0 { period := none } false 0).allow
    1000000000

theorem probing_reachable : Reachable sensitive probing :=
  .tail (.tail (.single (.allow le_rfl)) (.report false le_rfl rfl rfl)) (.allow (by decide))

/-- The probe of `probing` is outstanding. -/
theorem probe_outstanding_first :
    ∃ (i : Nat) (r : Admitted),
      probing.requests[i]? = some r ∧ r.period = some probing.periods ∧ r.report = none ∧ ∀ now,
        probing.clock ≤ now → Step probing (probing.report i r false now) ∧
          (probing.report i r false now).breaker.state = .opened :=
  probe_outstanding sensitive rfl probing probing_reachable rfl

/-- A success closes a half-open breaker when the count, which leaves out the first probe, says
that it is the last one. -/
theorem closes_iff (hs : Inv s) (hstate : s.breaker.state = .halfOpen) (i : Nat) (r : Admitted)
    (now : Int) :
    (s.report i r true now).breaker.state = .closed ↔ s.probes ≤ s.successes + 2 := by
  have hprobes := hs.probes hstate
  have hsuccesses := hs.successes hstate
  have hcases := s.breaker.on_success_cases
  simp only [Usage.report, if_true]
  generalize s.breaker.onSuccess = out at hcases
  cases hcases with
  | closed h => simp [h] at hstate
  | recovered h hall =>
      refine iff_of_true rfl ?_
      omega
  | counted h hmore =>
      refine iff_of_false (by simp [h]) ?_
      omega
  | ignored h => simp [h] at hstate

/-- A report adds at most one success of the period. -/
theorem successes_report_le {i : Nat} {r : Admitted} (hr : s.requests[i]? = some r) (now : Int) :
    (s.report i r true now).successes ≤ s.successes + 1 := by
  have hset := Table.countP_set hr { r with report := some ⟨true, s.period⟩ }
    (Admitted.succeeded s.periods)
  have hone := Bool.toNat_le
    (Admitted.succeeded s.periods { r with report := some ⟨true, s.period⟩ })
  show (s.requests.set i _).countP (Admitted.succeeded s.periods) ≤
    s.requests.countP (Admitted.succeeded s.periods) + 1
  omega

/-- Once all probes have reported, there are no more of them than successes. -/
theorem probes_le_of_reported (hs : Inv s) (hstate : s.breaker.state = .halfOpen) {i : Nat}
    {r : Admitted} (hr : s.requests[i]? = some r) (now : Int)
    (hall : ∀ q ∈ (s.report i r true now).requests, q.period = some s.periods →
      ∃ during, q.report = some ⟨true, during⟩) : s.probes ≤ s.successes + 1 := by
  refine le_trans ?_ (successes_report_le hr now)
  rw [← probes_report hr]
  refine List.countP_mono_left fun q hq hprobe => ?_
  have hk : q.period = some s.periods := eq_of_beq hprobe
  refine beq_iff_eq.2 ?_
  rcases mem_report hq with hold | rfl
  · obtain ⟨during, hduring⟩ := hall q hq hk
    rcases hs.reported hstate q hold hk with hnone | hok
    · rw [hnone] at hduring
      cases hduring
    · exact hok
  · simp [Usage.period, hstate, Usage.report]

/-- The only probe of a period is none of the other requests. -/
theorem eq_of_single_probe {i j : Nat} {r q : Admitted} (hr : s.requests[i]? = some r)
    (hprobe : r.period = some s.periods) (hsingle : s.probes = 1) (hq : s.requests[j]? = some q)
    (hk : q.period = some s.periods) : j = i := by
  by_contra hj
  -- without request `i` no probe is left
  have hset := Table.countP_set hr { r with period := none } (Admitted.isProbe s.periods)
  have hself : r.isProbe s.periods = true := beq_iff_eq.2 hprobe
  have hnone : Admitted.isProbe s.periods { r with period := none } = false := rfl
  rw [hself, hnone, show s.requests.countP (Admitted.isProbe s.periods) = 1 from hsingle] at hset
  have hzero := List.countP_eq_zero.1 (Nat.add_right_cancel hset)
  exact hzero q (List.mem_of_getElem? ((Table.get_set_iff hr).2 (.inr ⟨hj, hq⟩)))
    (beq_iff_eq.2 hk)

/-- A success closes a half-open breaker only after all probes of the period have succeeded,
exactly when it is the success of the only probe of the period, or the breaker has counted too few
to close. -/
theorem recovery_iff (b : CircuitBreaker) (hb : b.state = .closed) (s : Usage)
    (hs : Reachable b s) (hstate : s.breaker.state = .halfOpen) (i : Nat) (r : Admitted)
    (hr : s.requests[i]? = some r) (now : Int) :
    ((s.report i r true now).breaker.state = .closed →
        ∀ q ∈ (s.report i r true now).requests, q.period = some s.periods →
          ∃ during, q.report = some ⟨true, during⟩) ↔
      (r.period = some s.periods ∧ s.probes = 1) ∨ s.successes + 2 < s.probes := by
  have hinv := inv_reachable hb hs
  rw [closes_iff hinv hstate i r now]
  constructor
  · intro hall
    refine (lt_or_ge (s.successes + 2) s.probes).symm.imp_left fun hclose => ?_
    have hle := probes_le_of_reported hinv hstate hr now (hall hclose)
    -- two probes that have succeeded would have left a third one outstanding
    have hsingle : s.probes = 1 := by
      have hprobes := hinv.probes hstate
      have hsuccesses := hinv.successes hstate
      have hpending := hinv.pending hstate
      omega
    obtain ⟨j, q, hq, hk, hnone⟩ := exists_outstanding hinv hstate
    by_cases hj : j = i
    · subst hj
      rw [hr] at hq
      cases hq
      exact ⟨hk, hsingle⟩
    · have hmem : q ∈ (s.report i r true now).requests :=
        List.mem_of_getElem? ((Table.get_set_iff hr).2 (.inr ⟨hj, hq⟩))
      obtain ⟨during, hduring⟩ := hall hclose q hmem hk
      rw [hnone] at hduring
      cases hduring
  · rintro (⟨hprobe, hsingle⟩ | hmore) hclose q hq hk
    · obtain ⟨j, hj⟩ := List.mem_iff_getElem?.1 hq
      rcases (Table.get_set_iff hr).1 hj with ⟨rfl, rfl⟩ | ⟨hij, hj⟩
      · exact ⟨_, rfl⟩
      · exact absurd (eq_of_single_probe hr hprobe hsingle hj hk) hij
    · exact absurd hclose (not_le.2 hmore)

/-- The success of the only probe justifies the recovery. -/
theorem recovery_single_probe :
    (probing.report 1 { period := some 1 } true 1000000000).breaker.state = .closed ∧
      ∀ q ∈ (probing.report 1 { period := some 1 } true 1000000000).requests,
        q.period = some probing.periods → ∃ during, q.report = some ⟨true, during⟩ :=
  ⟨rfl, (recovery_iff sensitive rfl probing probing_reachable rfl 1 { period := some 1 } rfl
    1000000000).2 (.inl ⟨rfl, rfl⟩) rfl⟩

/-- After the success of the first of two probes the breaker is closed, and the other probe is
outstanding. -/
theorem recovery_with_probe_outstanding :
    Reachable sensitive (probing.allow 1000000001) ∧
      (probing.allow 1000000001).breaker.state = .halfOpen ∧
      ((probing.allow 1000000001).report 1 { period := some 1 } true 1000000002).breaker.state =
        .closed ∧
      { period := some (probing.allow 1000000001).periods, report := none } ∈
        ((probing.allow 1000000001).report 1 { period := some 1 } true 1000000002).requests :=
  ⟨.tail probing_reachable (.allow (by decide)), by decide, by decide, by decide⟩

end Usage

end ApiGateway.Proxy
