import ApiGateway.Core.Pipeline

/-!
# Traffic to the backends

What the workers of the gateway do to the backends, over the states of `Pipeline`. Only backends of
the route that serves a request are contacted, and the load balancer counts exactly the requests
that are at a backend (`only_configured_backends`). What a step does with a circuit breaker is said
once, by `BreakerUse`. It follows that a breaker is half open only as long as a request to its
backend is under way (`half_open_only_in_flight`), and that after a trip no worker is admitted to
the backend until the timeout has expired (`open_backend_spared`).
-/

namespace ApiGateway.Core

open Http Monitor Proxy

/-- Whether a worker is between `on_connect` and `on_disconnect`. -/
def RequestStage.isConnected : RequestStage → Bool
  | .forwarding _ _ | .returned _ _ => true
  | _ => false

/-- Whether a call reports the outcome of a request to a backend. -/
def Call.reportsOn (b : Backend) : Call → Bool
  | .onSuccess target | .onFailure target => target = b
  | _ => false

namespace RequestWorker

variable {setup : Setup} {g g' : Shared} {w w' : RequestWorker} {b : Backend}

/-! ## The load balancer -/

/-- Whether the request of a worker is at a backend. -/
def connectedTo (b : Backend) (w : RequestWorker) : Bool :=
  w.stage.isConnected && decide (w.answers.target = b)

/-- A call after `on_disconnect` leaves the balancer alone. -/
theorem balancer_perform {call : Call} (h : call.isBalancing = false) :
    (setup.perform g call).balancer = g.balancer := by
  cases call <;> first | rfl | cases h

/-- What a step adds to the count of a backend, or takes from it. -/
theorem connected_step (hw : Follows setup w w.stage) (halgo : g.balancer.algo = .roundRobin)
    (hpos : w.stage.isConnected = true →
      0 < g.balancer.connCounts (LoadBalancer.key w.answers.target))
    (h : Step setup g w g' w') (b : Backend) :
    g'.balancer.connCounts (LoadBalancer.key b) + (connectedTo b w).toNat =
      g.balancer.connCounts (LoadBalancer.key b) + (connectedTo b w').toNat := by
  cases h with
  | malformed hstage | snapshot hstage | stats hstage | health hstage | parse hstage
  | requestId hstage | logging hstage | grant hstage | refuse hstage | noRoute hstage
  | route hstage | lookUp hstage | allow hstage | reject hstage | forward hstage
  | measure hstage =>
      simp [connectedTo, RequestStage.isConnected, hstage, ask, Setup.getCircuitBreaker,
        Shared.setBreaker]
  | @select ctx start backends hstage =>
      have hcounts := Balancing.conn_counts_select g.balancer 0 backends b
      simp [connectedTo, RequestStage.isConnected, hstage, hcounts, BalancedRequest.precountedFor,
        BalancedRequest.precounted, halgo]
  | connect hstage =>
      show (g.balancer.onConnect w.answers.target).connCounts _ + _ =
        _ + (decide (w.answers.target = b)).toNat
      rw [Balancing.conn_counts_on_connect]
      simp [connectedTo, RequestStage.isConnected, hstage]
  | disconnect hstage =>
      rw [hstage] at hpos
      have hcounts := Balancing.conn_counts_on_disconnect g.balancer b (hpos rfl)
      simpa [connectedTo, RequestStage.isConnected, hstage, made, Setup.perform] using hcounts
  | call hstage =>
      rw [hstage] at hw
      cases hw with
      | calling _ hrest =>
          rw [balancer_perform (hrest _ List.mem_cons_self)]
          simp [connectedTo, RequestStage.isConnected, hstage, made]

/-- A worker has contacted only backends for its request. -/
theorem Follows.target_of_connect (hw : Follows setup w w.stage) (hb : .onConnect b ∈ w.calls) :
    IsTarget setup w.raw b := by
  generalize w.stage = stage at hw
  cases hw with
  | parsing hcalls | reporting hcalls | filtering hcalls | selecting hcalls | lookingUp hcalls
  | asking hcalls | admitted hcalls =>
      rw [hcalls] at hb
      cases hb
  | forwarding hcalls hrouted | returned hcalls hrouted | measuring hcalls hrouted =>
      rw [hcalls] at hb
      obtain rfl : b = w.answers.target := by simpa using hb
      exact hrouted.target
  | calling _ _ htarget => exact htarget _ (List.mem_append_left _ hb) b rfl

/-! ## Circuit breakers -/

/-- The reports that a worker still has to make on a backend. -/
def owes (b : Backend) (w : RequestWorker) : Nat :=
  match w.stage with
  | .admitted _ _ | .forwarding _ _ | .returned _ _ | .measuring _ _ =>
      (decide (w.answers.target = b)).toNat
  | .calling rest => rest.countP (Call.reportsOn b)
  | _ => 0

/-- What a step can do with a breaker at a time, and to the number of reports that are owed
to it. -/
inductive BreakerUse (cb : CircuitBreaker) (now : Int) : Nat → CircuitBreaker → Nat → Prop where
  | none {owed : Nat} : BreakerUse cb now owed cb owed
  | allow {cb' : CircuitBreaker} {owed : Nat} (h : cb.allowRequest now = (true, cb')) :
      BreakerUse cb now owed cb' (owed + 1)
  | reject {cb' : CircuitBreaker} {owed : Nat} (h : cb.allowRequest now = (false, cb')) :
      BreakerUse cb now owed cb' owed
  | success {owed : Nat} : BreakerUse cb now (owed + 1) cb.onSuccess owed
  | failure {owed : Nat} : BreakerUse cb now (owed + 1) (cb.onFailure now) owed

theorem breaker_set_self (cb : CircuitBreaker) (b : Backend) :
    setup.breaker (g.setBreaker b cb) b = cb := by
  simp [Setup.breaker, Shared.setBreaker]

/-- The breakers of other backends stay as they are. -/
theorem breaker_set_ne (cb : CircuitBreaker) {target : Backend} (h : target ≠ b) :
    setup.breaker (g.setBreaker target cb) b = setup.breaker g b := by
  have hkey : LoadBalancer.key b ≠ LoadBalancer.key target := fun heq =>
    h (LoadBalancer.key_inj.1 heq).symm
  simp [Setup.breaker, Shared.setBreaker, Function.update_of_ne hkey]

/-- `get_circuit_breaker` changes no breaker. -/
theorem breaker_look_up (target : Backend) :
    setup.breaker (setup.getCircuitBreaker g target) b = setup.breaker g b := by
  by_cases h : target = b
  · subst h
    exact breaker_set_self _ _
  · exact breaker_set_ne _ h

/-- A request that is forwarded has one report ahead. -/
theorem count_forward_reports (env : Environment) (ctx : FilterContext) (target b : Backend)
    (raw : Bytes) : ((forwardRequest env ctx target raw).drop 2).countP (Call.reportsOn b) =
      (decide (target = b)).toNat := by
  simp only [forwardRequest]
  split <;> by_cases h : target = b <;> simp [Call.reportsOn, h]

/-- The use of a breaker by one of the calls in the end. -/
theorem use_of_call (call : Call) (owed : Nat) :
    BreakerUse (setup.breaker g b) g.clock (owed + (call.reportsOn b).toNat)
      (setup.breaker (setup.perform g call) b) owed := by
  cases call with
  | onSuccess target =>
      by_cases h : target = b
      · subst h
        simpa [Setup.perform, Call.reportsOn, breaker_set_self] using .success
      · simpa [Setup.perform, Call.reportsOn, h, breaker_set_ne] using .none
  | onFailure target =>
      by_cases h : target = b
      · subst h
        simpa [Setup.perform, Call.reportsOn, breaker_set_self] using .failure
      · simpa [Setup.perform, Call.reportsOn, h, breaker_set_ne] using .none
  | _ => exact .none

/-- What a step of a worker does with the breaker of a backend. -/
theorem breaker_use (h : Step setup g w g' w') (b : Backend) :
    BreakerUse (setup.breaker g b) g.clock (owes b w) (setup.breaker g' b) (owes b w') := by
  cases h with
  | malformed hstage | snapshot hstage | stats hstage | health hstage | parse hstage
  | requestId hstage | logging hstage | grant hstage | refuse hstage | noRoute hstage
  | route hstage | select hstage | connect hstage | forward hstage | disconnect hstage =>
      -- the table stays, and so does what is owed
      simpa [owes, hstage, ask, made, refusal, sendErrorAndClose, Call.reportsOn] using .none
  | lookUp hstage =>
      rw [breaker_look_up]
      simpa [owes, hstage] using .none
  | @allow ctx start cb hstage hallow =>
      have howed : owes b w = 0 := by simp [owes, hstage]
      by_cases htarget : w.answers.target = b
      · subst htarget
        rw [breaker_set_self, howed]
        simpa [owes] using .allow hallow
      · rw [breaker_set_ne _ htarget, howed]
        simpa [owes, htarget] using .none
  | @reject ctx start cb hstage hreject =>
      have howed : owes b w = 0 := by simp [owes, hstage]
      by_cases htarget : w.answers.target = b
      · subst htarget
        rw [breaker_set_self, howed]
        simpa [owes, sendErrorAndClose, Call.reportsOn] using .reject hreject
      · rw [breaker_set_ne _ htarget, howed]
        simpa [owes, sendErrorAndClose, Call.reportsOn] using .none
  | measure hstage hanswers =>
      subst hanswers
      have howed : owes b w = (decide (w.answers.target = b)).toNat := by simp [owes, hstage]
      rw [howed]
      show BreakerUse _ _ _ _ (((forwardRequest _ _ _ _).drop 2).countP (Call.reportsOn b))
      rw [count_forward_reports]
      exact .none
  | @call call rest hstage =>
      have howed : owes b w = rest.countP (Call.reportsOn b) + (call.reportsOn b).toNat := by
        simp only [owes, hstage, Table.countP_cons]
      rw [howed]
      exact use_of_call call _

namespace BreakerUse

variable {cb cb' : CircuitBreaker} {now : Int} {owed owed' : Nat}

/-- A use is a call of the breaker, or none. -/
theorem timed (h : BreakerUse cb now owed cb' owed') :
    Relation.ReflTransGen Timed.Step ⟨cb, now⟩ ⟨cb', now⟩ := by
  cases h with
  | none => exact .refl
  | allow hallow =>
      have hcall : cb.call now .allowRequest = cb' := congrArg Prod.snd hallow
      exact hcall ▸ .single (.call _ le_rfl)
  | reject hreject =>
      have hcall : cb.call now .allowRequest = cb' := congrArg Prod.snd hreject
      exact hcall ▸ .single (.call _ le_rfl)
  | success => exact .single (.call .onSuccess le_rfl)
  | failure => exact .single (.call .onFailure le_rfl)

theorem reset_timeout (h : BreakerUse cb now owed cb' owed') :
    cb'.resetTimeoutMs = cb.resetTimeoutMs := by
  cases h with
  | none => rfl
  | allow hallow =>
      have hcases := hallow ▸ CircuitBreaker.allow_request_cases cb now
      cases hcases <;> rfl
  | reject hreject =>
      have hcases := hreject ▸ CircuitBreaker.allow_request_cases cb now
      cases hcases <;> rfl
  | success =>
      have hcases := CircuitBreaker.on_success_cases cb
      generalize cb.onSuccess = after at hcases ⊢
      cases hcases <;> rfl
  | failure =>
      cases CircuitBreaker.on_failure_cases cb now with
      | counted _ _ htimeout | opened _ _ htimeout => exact htimeout

theorem opened_at (h : BreakerUse cb now owed cb' owed') (hcb : cb.openedAt ≤ now) :
    cb'.openedAt ≤ now := by
  cases h with
  | none => exact hcb
  | allow hallow =>
      have hcases := hallow ▸ CircuitBreaker.allow_request_cases cb now
      cases hcases <;> exact hcb
  | reject hreject =>
      have hcases := hreject ▸ CircuitBreaker.allow_request_cases cb now
      cases hcases <;> exact hcb
  | success =>
      have hcases := CircuitBreaker.on_success_cases cb
      generalize cb.onSuccess = after at hcases ⊢
      cases hcases <;> exact hcb
  | failure =>
      simp only [CircuitBreaker.onFailure]
      split
      · split
        · exact le_rfl
        · exact hcb
      · exact le_rfl
      · exact le_rfl

end BreakerUse

/-- While a breaker is half open, more requests are under way to its backend than it knows of,
except for those whose success it has counted. -/
def Pending (cb : CircuitBreaker) (owed : Nat) : Prop :=
  cb.state = .halfOpen → cb.halfOpenSuccesses ≤ cb.halfOpenRequests ∧
    cb.halfOpenRequests + 1 ≤ owed + cb.halfOpenSuccesses

theorem Pending.use {cb cb' : CircuitBreaker} {now : Int} {owed owed' total total' : Nat}
    (hcb : Pending cb total) (h : BreakerUse cb now owed cb' owed')
    (htotal : total' + owed = total + owed') : Pending cb' total' := by
  cases h with
  | none =>
      obtain rfl : total' = total := by omega
      exact hcb
  | allow hallow =>
      have hcases := hallow ▸ CircuitBreaker.allow_request_cases cb now
      cases hcases with
      | closed hstate => exact fun hopen => absurd (hopen.symm.trans hstate) (by simp)
      | first => exact fun _ => ⟨le_rfl, by simp [CircuitBreaker.tryTransitionToHalfOpen]; omega⟩
      | further hstate =>
          obtain ⟨hsuccesses, howed⟩ := hcb hstate
          exact fun _ => ⟨by simp only; omega, by simp only; omega⟩
  | reject hreject =>
      have hcases := hreject ▸ CircuitBreaker.allow_request_cases cb now
      obtain rfl : total' = total := by omega
      cases hcases <;> exact hcb
  | success =>
      have hcases := CircuitBreaker.on_success_cases cb
      generalize cb.onSuccess = after at hcases ⊢
      cases hcases with
      | closed hstate => exact fun hopen => absurd (hopen.symm.trans hstate) (by simp)
      | recovered => exact fun hopen => by cases hopen
      | counted hstate hmore =>
          obtain ⟨hsuccesses, howed⟩ := hcb hstate
          exact fun _ => ⟨by simp only; omega, by simp only; omega⟩
      | ignored hstate => exact fun hopen => absurd (hopen.symm.trans hstate) (by simp)
  | failure =>
      intro hopen
      cases CircuitBreaker.on_failure_cases cb now with
      | counted _ hstate' => exact absurd (hopen.symm.trans hstate') (by simp)
      | opened hstate' => exact absurd (hopen.symm.trans hstate') (by simp)

/-- Whether a worker has been admitted to a backend. -/
def AdmittedTo (b : Backend) (w : RequestWorker) : Prop :=
  (∃ ctx start, w.stage = .admitted ctx start ∧ w.answers.target = b) ∨ .onConnect b ∈ w.calls

/-- A worker is admitted by a breaker that lets it pass. -/
theorem admitted_step (hw : Follows setup w w.stage) (h : Step setup g w g' w')
    (hb : AdmittedTo b w') :
    AdmittedTo b w ∨ ∃ cb, (setup.breaker g b).allowRequest g.clock = (true, cb) := by
  cases h with
  | allow hstage hallow =>
      rcases hb with ⟨_, _, _, rfl⟩ | hcalls
      · exact .inr ⟨_, hallow⟩
      · exact .inl (.inr hcalls)
  | connect hstage =>
      rcases hb with ⟨_, _, hother, _⟩ | hcalls
      · cases hother
      · rcases List.mem_append.1 hcalls with hcalls | hlast
        · exact .inl (.inr hcalls)
        · obtain rfl : b = w.answers.target := by simpa using hlast
          exact .inl (.inl ⟨_, _, hstage, rfl⟩)
  | disconnect hstage =>
      rcases hb with ⟨_, _, hother, _⟩ | hcalls
      · cases hother
      · rcases List.mem_append.1 hcalls with hcalls | hlast
        · exact .inl (.inr hcalls)
        · simp at hlast
  | call hstage =>
      rw [hstage] at hw
      cases hw with
      | calling _ hrest =>
          rcases hb with ⟨_, _, hother, _⟩ | hcalls
          · cases hother
          · rcases List.mem_append.1 hcalls with hcalls | hlast
            · exact .inl (.inr hcalls)
            · rw [← List.mem_singleton.1 hlast] at hrest
              cases hrest _ List.mem_cons_self
  | _ =>
      rcases hb with ⟨_, _, hother, _⟩ | hcalls
      · cases hother
      · exact .inl (.inr hcalls)

end RequestWorker

namespace Pipeline

open RequestWorker

variable {setup : Setup} {rate burst : Int} {s t : Pipeline} {b : Backend}

/-! ## A worker on its own -/

/-- One route, and no filters. -/
def apiSetup : Setup where
  router := Router.create sortRoutes [apiRoute]
  filters := []
  backendTimeoutMs := 3000
  limiters := by decide

/-- The backend of the route. -/
def apiBackend : Backend :=
  { host := ascii "backend_A", port := 80 }

/-- A request for the route. -/
def apiRequest : Bytes :=
  ascii "GET /api HTTP/1.1\r\n\r\n"

/-- A request gets as far as the breaker. -/
theorem request_asks (g : Shared) : ∃ g' w ctx start,
    WorkerRun apiSetup g { raw := apiRequest } g' w ∧ w.stage = .asking ctx start ∧
      w.answers.target = apiBackend ∧ g'.clock = g.clock ∧
      apiSetup.breaker g' apiBackend = apiSetup.breaker g apiBackend := by
  have hparsed : (parseHttpRequest apiRequest {}).1 = true := by decide
  have hpath : (parseHttpRequest apiRequest {}).2.path = ascii "/api" := by decide
  have hinternal : (parseHttpRequest apiRequest {}).2.path ∉ internalPaths := by
    rw [hpath]
    decide
  have hroute : apiSetup.router.matchPath (parseHttpRequest apiRequest {}).2.path =
      some [apiBackend] := by
    rw [hpath]
    decide
  have hparse : WorkerRun apiSetup g { raw := apiRequest } g _ :=
    .tail .refl (.parse rfl hparsed hinternal)
  have hselect := (hparse.tail (.route rfl hroute)).tail (.select rfl)
  exact ⟨_, _, _, _, hselect.tail (.lookUp rfl), rfl, rfl, rfl, breaker_look_up _⟩

/-- A request that a closed breaker admits, and to which the backend does not answer. -/
theorem request_fails (g : Shared) (hclosed : (apiSetup.breaker g apiBackend).state = .closed) :
    ∃ g' w, WorkerRun apiSetup g { raw := apiRequest } g' w ∧ g'.clock = g.clock ∧
      apiSetup.breaker g' apiBackend = (apiSetup.breaker g apiBackend).onFailure g.clock := by
  obtain ⟨g₁, w, ctx, start, hasks, hstage, htarget, hclock, hbreaker⟩ := request_asks g
  have hallow : (apiSetup.breaker g₁ w.answers.target).allowRequest g₁.clock =
      (true, apiSetup.breaker g₁ apiBackend) := by
    rw [htarget, hbreaker, CircuitBreaker.allowRequest, hclosed]
  have hforward := ((hasks.tail (.allow hstage hallow)).tail (.connect rfl)).tail (.forward rfl [])
  have hmeasure := (hforward.tail (.disconnect rfl)).tail (.measure rfl rfl)
  -- `record_request`, `record_error`, `inc_upstream_errors` and `on_failure`
  have hreport := (((hmeasure.tail (.call rfl)).tail (.call rfl)).tail (.call rfl)).tail (.call rfl)
  refine ⟨_, _, hreport, hclock, ?_⟩
  show apiSetup.breaker (Shared.setBreaker _ w.answers.target (CircuitBreaker.onFailure
    (apiSetup.breaker (g₁.setBreaker w.answers.target (apiSetup.breaker g₁ apiBackend))
      w.answers.target) g₁.clock)) apiBackend = _
  rw [breaker_set_self, htarget, breaker_set_self, hbreaker, hclock]

/-- After some failures, the breaker of the backend has counted them. -/
theorem failures_reachable (n : Nat) (hn : n ≤ 5) : ∃ s, Reachable apiSetup 100 200 s ∧
    s.shared.clock = 0 ∧
    apiSetup.breaker s.shared apiBackend =
      (fun cb => CircuitBreaker.onFailure cb 0)^[n] apiSetup.newBreaker := by
  induction n with
  | zero => exact ⟨_, .refl, rfl, rfl⟩
  | succ n ih =>
      obtain ⟨s, hs, hclock, hbreaker⟩ := ih (Nat.le_of_succ_le hn)
      have hclosed : (apiSetup.breaker s.shared apiBackend).state = .closed := by
        have hfew : n < 5 := hn
        rw [hbreaker]
        interval_cases n <;> rfl
      obtain ⟨g, w, hrun, hg, hfailed⟩ := request_fails s.shared hclosed
      refine ⟨_, hrun.reachable hs, hg.trans hclock, ?_⟩
      rw [Function.iterate_succ_apply', ← hbreaker, ← hclock]
      exact hfailed

/-! ## What is contacted and counted -/

/-- The balancer counts the requests that are at a backend. -/
def Counted (s : Pipeline) : Prop :=
  ∀ b, s.shared.balancer.connCounts (LoadBalancer.key b) = s.workers.countP (connectedTo b)

theorem counted_step (hinv : Inv setup s) (hs : Counted s) (h : Step setup s t) : Counted t := by
  intro b
  cases h with
  | start raw =>
      have hnew : connectedTo b { raw } = false := rfl
      rw [Table.countP_append, hnew]
      exact hs b
  | elapse | cleanup => exact hs b
  | @work i w w' g hw hstep =>
      have hmem := List.mem_of_getElem? hw
      have hpos : w.stage.isConnected = true →
          0 < s.shared.balancer.connCounts (LoadBalancer.key w.answers.target) := by
        intro hconnected
        rw [hs, List.countP_pos_iff]
        exact ⟨w, hmem, by simp [connectedTo, hconnected]⟩
      have hcount := connected_step (hinv.follows w hmem) hinv.algo hpos hstep b
      have hset := Table.countP_set hw w' (connectedTo b)
      have hold := hs b
      show g.balancer.connCounts _ = (s.workers.set i w').countP _
      omega

theorem counted_reachable (h : Reachable setup rate burst s) : Counted s := by
  induction h with
  | refl => exact fun _ => rfl
  | tail hrun hstep ih => exact counted_step (inv_reachable hrun) ih hstep

/-- Every breaker of the table is that of a backend for some request. -/
def Entered (setup : Setup) (s : Pipeline) : Prop :=
  ∀ key, (s.shared.breakers key).isSome = true → ∃ b raw, key = LoadBalancer.key b ∧
    IsTarget setup raw b

theorem breakers_set {g : Shared} {cb : CircuitBreaker} {key : Bytes}
    (h : ((g.setBreaker b cb).breakers key).isSome = true) :
    key = LoadBalancer.key b ∨ (g.breakers key).isSome = true := by
  by_cases hkey : key = LoadBalancer.key b
  · exact .inl hkey
  · have hsame : (g.setBreaker b cb).breakers key = g.breakers key :=
      Function.update_of_ne hkey _ _
    exact .inr (hsame ▸ h)

/-- A step of a worker enters only breakers of backends for its request. -/
theorem breakers_step {g g' : Shared} {w w' : RequestWorker} (hw : Follows setup w w.stage)
    (h : RequestWorker.Step setup g w g' w') {key : Bytes}
    (hkey : (g'.breakers key).isSome = true) :
    (∃ b, key = LoadBalancer.key b ∧ IsTarget setup w.raw b) ∨
      (g.breakers key).isSome = true := by
  cases h with
  | lookUp hstage =>
      rw [hstage] at hw
      cases hw with
      | lookingUp _ hrouted =>
          exact (breakers_set hkey).imp_left fun heq => ⟨_, heq, hrouted.target⟩
  | allow hstage | reject hstage =>
      rw [hstage] at hw
      cases hw with
      | asking _ hrouted =>
          exact (breakers_set hkey).imp_left fun heq => ⟨_, heq, hrouted.target⟩
  | @call call rest hstage =>
      rw [hstage] at hw
      cases hw with
      | calling _ _ htarget =>
          have hcall := htarget call (List.mem_append_right _ List.mem_cons_self)
          cases call with
          | onSuccess target | onFailure target =>
              exact (breakers_set hkey).imp_left fun heq => ⟨_, heq, hcall target rfl⟩
          | _ => exact .inr hkey
  | _ => exact .inr hkey

theorem entered_reachable (h : Reachable setup rate burst s) : Entered setup s := by
  induction h with
  | refl => exact fun key hkey => by cases hkey
  | tail hrun hstep ih =>
      intro key hkey
      cases hstep with
      | start | elapse | cleanup => exact ih key hkey
      | work hw hwork =>
          have hfollows := (inv_reachable hrun).follows _ (List.mem_of_getElem? hw)
          rcases breakers_step hfollows hwork hkey with ⟨b, heq, htarget⟩ | hold
          · exact ⟨b, _, heq, htarget⟩
          · exact ih key hold

/-- A backend for a request is one of the longest route that matches its path. -/
theorem target_of_router {sort : StdSort comesBefore} {routes : List Route} {raw : Bytes}
    (hrouter : setup.router = Router.create sort routes) (h : IsTarget setup raw b) :
    ∃ route ∈ routes, route.Matches (parseHttpRequest raw {}).2.path ∧
      (b ∈ route.backends ∨ route.backends = [] ∧ b = ⟨[], 0⟩) ∧
      ∀ other ∈ routes, other.Matches (parseHttpRequest raw {}).2.path →
        other.path.length ≤ route.path.length := by
  obtain ⟨backends, hmatch, hb⟩ := h
  rw [hrouter] at hmatch
  obtain ⟨route, hroute, hmatches, rfl, hlongest⟩ := Router.match_eq_some sort routes _ hmatch
  exact ⟨route, hroute, hmatches, hb, hlongest⟩

/-- In every state of the gateway, a worker has contacted only backends of the longest route that
matches the path of its request (or the default of `select`, if that route has none); the load
balancer counts for every backend the workers that are between `on_connect` and `on_disconnect`; and
the table of circuit breakers has no entry but for backends of the configuration. -/
theorem only_configured_backends (setup : Setup) (sort : StdSort comesBefore) (routes : List Route)
    (hrouter : setup.router = Router.create sort routes) (rate burst : Int) (s : Pipeline)
    (h : Reachable setup rate burst s) :
    (∀ w ∈ s.workers, ∀ b, .onConnect b ∈ w.calls →
      ∃ route ∈ routes, route.Matches (parseHttpRequest w.raw {}).2.path ∧
        (b ∈ route.backends ∨ route.backends = [] ∧ b = ⟨[], 0⟩) ∧
        ∀ other ∈ routes, other.Matches (parseHttpRequest w.raw {}).2.path →
          other.path.length ≤ route.path.length) ∧
      (∀ b, s.shared.balancer.connCounts (LoadBalancer.key b) =
        s.workers.countP (connectedTo b)) ∧
      ∀ key, (s.shared.breakers key).isSome = true → ∃ b, key = LoadBalancer.key b ∧
        ∃ route ∈ routes, b ∈ route.backends ∨ route.backends = [] ∧ b = ⟨[], 0⟩ := by
  refine ⟨fun w hw b hb => ?_, counted_reachable h, fun key hkey => ?_⟩
  · exact target_of_router hrouter (((inv_reachable h).follows w hw).target_of_connect hb)
  · obtain ⟨b, raw, heq, htarget⟩ := entered_reachable h key hkey
    obtain ⟨route, hroute, -, hb, -⟩ := target_of_router hrouter htarget
    exact ⟨b, heq, route, hroute, hb⟩

/-- A request that has arrived at its backend. -/
theorem only_configured_backends_one : ∃ s, Reachable apiSetup 100 200 s ∧
    s.shared.balancer.connCounts (LoadBalancer.key apiBackend) =
      s.workers.countP (connectedTo apiBackend) ∧
    s.workers.countP (connectedTo apiBackend) = 1 := by
  obtain ⟨g, w, ctx, start, hasks, hstage, htarget, -, hbreaker⟩ :=
    request_asks { limiter := .create 100 200 (some Filter.extractClientIp) }
  have hallow : (apiSetup.breaker g w.answers.target).allowRequest g.clock =
      (true, apiSetup.breaker g apiBackend) := by
    rw [htarget, hbreaker]
    rfl
  have hconnect := (hasks.tail (.allow hstage hallow)).tail (.connect rfl)
  have hs : Reachable apiSetup 100 200 _ := WorkerRun.reachable .refl hconnect
  have hresult := only_configured_backends apiSetup sortRoutes [apiRoute] rfl 100 200 _ hs
  refine ⟨_, hs, hresult.2.1 apiBackend, ?_⟩
  simp [connectedTo, RequestStage.isConnected, made, htarget]

/-! ## A half-open breaker -/

/-- The reports that the workers still have to make on a backend. -/
def owed (b : Backend) (s : Pipeline) : Nat :=
  (s.workers.map (owes b)).sum

theorem pending_reachable (h : Reachable setup rate burst s) (b : Backend) :
    Pending (setup.breaker s.shared b) (owed b s) := by
  induction h with
  | refl => exact fun hopen => by cases hopen
  | tail hrun hstep ih =>
      cases hstep with
      | start raw =>
          have hnew : owes b { raw := raw } = 0 := rfl
          simpa [owed, hnew] using ih
      | elapse | cleanup => exact ih
      | work hw hwork =>
          exact ih.use (breaker_use hwork b) (Table.sum_map_set hw _ _)

/-- A breaker is half open only as long as a worker has been admitted to its backend and has not
reported yet, so that its probes cannot be used up without an outcome ahead. -/
theorem half_open_only_in_flight (setup : Setup) (rate burst : Int) (s : Pipeline)
    (h : Reachable setup rate burst s) (b : Backend)
    (hstate : (setup.breaker s.shared b).state = .halfOpen) :
    ∃ w ∈ s.workers, 0 < w.owes b := by
  obtain ⟨hsuccesses, howed⟩ := pending_reachable h b hstate
  by_contra hnone
  push Not at hnone
  have hzero : owed b s = 0 :=
    List.sum_eq_zero fun n hn => by
      obtain ⟨w, hw, rfl⟩ := List.mem_map.1 hn
      exact Nat.le_zero.1 (hnone w hw)
  rw [hzero] at howed
  omega

/-- The timeout of the breaker has expired, and the first probe has been admitted. -/
theorem half_open_only_in_flight_probe : ∃ s, Reachable apiSetup 100 200 s ∧
    (apiSetup.breaker s.shared apiBackend).state = .halfOpen ∧
    ∃ w ∈ s.workers, 0 < w.owes apiBackend := by
  obtain ⟨s, hs, hclock, hbreaker⟩ := failures_reachable 5 le_rfl
  have hlater :
      Reachable apiSetup 100 200 { s with shared := { s.shared with clock := 6000000000 } } :=
    hs.tail (.elapse (by rw [hclock]; decide))
  obtain ⟨g, w, ctx, start, hasks, hstage, htarget, hg, hsame⟩ :=
    request_asks { s.shared with clock := 6000000000 }
  have hbreaker' : apiSetup.breaker g apiBackend =
      (fun cb => CircuitBreaker.onFailure cb 0)^[5] apiSetup.newBreaker := hsame.trans hbreaker
  have hallow : (apiSetup.breaker g w.answers.target).allowRequest g.clock =
      (true, (apiSetup.breaker g apiBackend).tryTransitionToHalfOpen) := by
    rw [htarget, hg, hbreaker']
    rfl
  have hprobe : Reachable apiSetup 100 200 _ :=
    WorkerRun.reachable hlater (hasks.tail (.allow hstage hallow))
  have hstate : (apiSetup.breaker (g.setBreaker w.answers.target
      (apiSetup.breaker g apiBackend).tryTransitionToHalfOpen) apiBackend).state = .halfOpen := by
    rw [htarget, breaker_set_self]
    rfl
  exact ⟨_, hprobe, hstate, half_open_only_in_flight apiSetup 100 200 _ hprobe apiBackend hstate⟩

/-! ## An open breaker -/

/-- Breakers have the timeout of the configuration, and none is opened in the future. -/
structure Clocked (setup : Setup) (s : Pipeline) (b : Backend) : Prop where
  timeout : (setup.breaker s.shared b).resetTimeoutMs = setup.newBreaker.resetTimeoutMs
  openedAt : (setup.breaker s.shared b).openedAt ≤ s.shared.clock

theorem clocked_reachable (h : Reachable setup rate burst s) (b : Backend) :
    Clocked setup s b := by
  induction h with
  | refl => exact ⟨rfl, le_rfl⟩
  | tail hrun hstep ih =>
      cases hstep with
      | start | cleanup => exact ⟨ih.timeout, ih.openedAt⟩
      | elapse hclock => exact ⟨ih.timeout, ih.openedAt.trans hclock⟩
      | work hw hwork =>
          have huse := breaker_use hwork b
          refine ⟨huse.reset_timeout.trans ih.timeout, ?_⟩
          show _ ≤ Shared.clock _
          rw [clock_step hwork]
          exact huse.opened_at ih.openedAt

theorem clock_le_step (h : Step setup s t) : s.shared.clock ≤ t.shared.clock := by
  cases h with
  | start | cleanup => exact le_rfl
  | elapse hclock => exact hclock
  | work hw hwork => exact (clock_step hwork).ge

/-- The breaker has been open for some time, and nobody has been admitted since. -/
structure Spared (setup : Setup) (b : Backend) (since timeout : Int) (start s : Pipeline) :
    Prop where
  inv : Inv setup s
  tripped : Timed.Tripped since timeout ⟨setup.breaker s.shared b, s.shared.clock⟩
  admitted : ∀ (i : Nat) (w : RequestWorker), s.workers[i]? = some w → AdmittedTo b w →
    ∃ w', start.workers[i]? = some w' ∧ AdmittedTo b w'

theorem Spared.step {since timeout : Int} {start : Pipeline}
    (hs : Spared setup b since timeout start s) (h : Step setup s t)
    (hearly : t.shared.clock < since + timeout) : Spared setup b since timeout start t := by
  have hinv := inv_step hs.inv h
  cases h with
  | start raw =>
      refine ⟨hinv, hs.tripped, fun i w hw hadmitted => ?_⟩
      rcases Table.get_append_iff.1 hw with hw | ⟨-, rfl⟩
      · exact hs.admitted i w hw hadmitted
      · rcases hadmitted with ⟨_, _, hstage, _⟩ | hcalls
        · cases hstage
        · cases hcalls
  | elapse hclock =>
      exact ⟨hinv, ⟨hs.tripped.state, hs.tripped.opened, hs.tripped.clock.trans hclock,
        hs.tripped.timeout⟩, hs.admitted⟩
  | cleanup => exact ⟨hinv, hs.tripped, hs.admitted⟩
  | @work i w w' g hw hwork =>
      have hclock : g.clock = s.shared.clock := clock_step hwork
      have hearly' : s.shared.clock < since + timeout := hclock ▸ hearly
      refine ⟨hinv, ?_, fun j v hv hadmitted => ?_⟩
      · show Timed.Tripped since timeout ⟨setup.breaker g b, g.clock⟩
        rw [hclock]
        exact hs.tripped.run (breaker_use hwork b).timed hearly'
      · rcases (Table.get_set_iff hw).1 hv with ⟨rfl, rfl⟩ | ⟨-, hv⟩
        · have hfollows := hs.inv.follows w (List.mem_of_getElem? hw)
          rcases admitted_step hfollows hwork hadmitted with hold | ⟨cb, hallow⟩
          · exact hs.admitted j w hw hold
          · have hreject := hs.tripped.rejects hearly'
            rw [hallow] at hreject
            cases hreject
        · exact hs.admitted j v hv hadmitted

/-- The product is exact for timeouts of less than `2 ^ 30` milliseconds, some twelve days. -/
theorem new_breaker_timeout (hrange : -2 ^ 30 ≤ setup.backendTimeoutMs ∧
    setup.backendTimeoutMs < 2 ^ 30) :
    setup.newBreaker.resetTimeoutMs = setup.backendTimeoutMs * 2 := by
  obtain ⟨hlow, hhigh⟩ := hrange
  show (setup.backendTimeoutMs * 2).bmod (2 ^ 32) = _
  exact Int.bmod_eq_of_le (by omega) (by omega)

/-- Once the breaker of a backend is open, no worker is admitted to the backend before the timeout
(twice the timeout for backends, which must fit an `int`) has expired, whatever the workers report
on it meanwhile and whatever happens to other backends. -/
theorem open_backend_spared (setup : Setup) (rate burst : Int)
    (hrange : -2 ^ 30 ≤ setup.backendTimeoutMs ∧ setup.backendTimeoutMs < 2 ^ 30)
    (s t : Pipeline) (h : Reachable setup rate burst s) (b : Backend)
    (hopen : (setup.breaker s.shared b).state = .opened)
    (hrun : Relation.ReflTransGen (Step setup) s t)
    (hearly : t.shared.clock <
      (setup.breaker s.shared b).openedAt + setup.backendTimeoutMs * 2 * 1000000) :
    (setup.breaker t.shared b).state = .opened ∧
      ∀ (i : Nat) (w : RequestWorker), t.workers[i]? = some w → AdmittedTo b w →
        ∃ w', s.workers[i]? = some w' ∧ AdmittedTo b w' := by
  have hclocked := clocked_reachable h b
  have hspared : Spared setup b (setup.breaker s.shared b).openedAt
      (setup.backendTimeoutMs * 2 * 1000000) s t := by
    induction hrun with
    | refl =>
        refine ⟨inv_reachable h, ⟨hopen, le_rfl, hclocked.openedAt, ?_⟩,
          fun i w hw hadmitted => ⟨w, hw, hadmitted⟩⟩
        show CircuitBreaker.resetTimeoutMs _ * 1000000 = _
        rw [hclocked.timeout, new_breaker_timeout hrange]
    | tail _ hstep ih => exact (ih (lt_of_le_of_lt (clock_le_step hstep) hearly)).step hstep hearly
  exact ⟨hspared.tripped.state, hspared.admitted⟩

/-- The breaker is still open shortly before its timeout expires. -/
theorem open_backend_spared_failing : ∃ s t, Reachable apiSetup 100 200 s ∧
    (apiSetup.breaker s.shared apiBackend).state = .opened ∧
    Relation.ReflTransGen (Step apiSetup) s t ∧ t.shared.clock = 5999999999 ∧
    (apiSetup.breaker t.shared apiBackend).state = .opened := by
  obtain ⟨s, hs, hclock, hbreaker⟩ := failures_reachable 5 le_rfl
  have hopen : (apiSetup.breaker s.shared apiBackend).state = .opened := by
    rw [hbreaker]
    rfl
  have hopenedAt : (apiSetup.breaker s.shared apiBackend).openedAt = 0 := by
    rw [hbreaker]
    rfl
  have hrun : Relation.ReflTransGen (Step apiSetup) s
      { s with shared := { s.shared with clock := 5999999999 } } :=
    .single (.elapse (by rw [hclock]; decide))
  have hearly : (5999999999 : Int) <
      (apiSetup.breaker s.shared apiBackend).openedAt +
        apiSetup.backendTimeoutMs * 2 * 1000000 := by
    rw [hopenedAt]
    decide
  have hspared := open_backend_spared apiSetup 100 200 (by decide) s _ hs apiBackend
    hopen hrun hearly
  exact ⟨s, _, hs, hopen, hrun, rfl, hspared.1⟩

end Pipeline

end ApiGateway.Core
