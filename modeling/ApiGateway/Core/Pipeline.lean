import ApiGateway.Core.Rewrite
import ApiGateway.Core.RouteStats
import ApiGateway.Filter.RateLimit
import ApiGateway.Proxy.LoadBalancer
import ApiGateway.Proxy.CircuitBreaker

/-!
# Workers that process requests

Any number of workers execute `process_request` at the same time, over one rate limiter, one load
balancer, one table of circuit breakers and one object of statistics. Every access to one of these
is a step of its own, and the steps of the workers are interleaved in any order.

The main result is `worker_follows_process_request`: what a worker has done in the end is what
`processRequest` does alone, in the environment that consists of the answers the worker was given.
-/

namespace ApiGateway.Core

open Http Monitor Proxy
open ApiGateway.Filter (RateLimitFilter)

/-- The filters of the program. -/
inductive FilterKind where
  | requestId
  | rateLimit
  | logging
  deriving DecidableEq

/-- `LoggingFilter`, with the result of `std::time`. -/
def loggingFilter (now : Int) : Filter where
  onRequest ctx := (true, { ctx with startTime := now })
  onResponse ctx resp := (ctx, resp)

/-- `RateLimitFilter`, with what it has decided on a request. It has no handler for responses. -/
def limiterFilter (admitted : Bool) : Filter where
  onRequest ctx := (admitted, ctx)
  onResponse ctx resp := (ctx, resp)

/-- What a gateway is set up with: the routes, the filters in the order of `add_filter`, among which
there is not more than one rate limiter, and `backend_timeout_ms`. -/
structure Setup where
  router : Router
  filters : List FilterKind
  backendTimeoutMs : Int
  limiters : filters.count .rateLimit ≤ 1

/-- The objects that the workers share, and the time of `steady_clock` in nanoseconds. -/
structure Shared where
  clock : Int := 0
  limiter : RateLimitFilter
  balancer : LoadBalancer := {}
  breakers : Bytes → Option CircuitBreaker := fun _ => none
  stats : GatewayStats := {}

namespace Setup

variable (setup : Setup) (g : Shared)

/-- The breaker that `get_circuit_breaker` creates. The product is an `int`. -/
def newBreaker : CircuitBreaker where
  failureThreshold := 5
  resetTimeoutMs := (setup.backendTimeoutMs * 2).bmod (2 ^ 32)
  halfOpenMaxRequests := 3

/-- The breaker of a backend. -/
def breaker (b : Backend) : CircuitBreaker :=
  (g.breakers (LoadBalancer.key b)).getD setup.newBreaker

end Setup

/-- The breaker of a backend has changed. -/
def Shared.setBreaker (g : Shared) (b : Backend) (cb : CircuitBreaker) : Shared :=
  { g with breakers := Function.update g.breakers (LoadBalancer.key b) (some cb) }

namespace Setup

variable (setup : Setup) (g : Shared)

/-- `get_circuit_breaker`: afterwards the table has a breaker for the backend. -/
def getCircuitBreaker (b : Backend) : Shared :=
  g.setBreaker b (setup.breaker g b)

/-- The effect of a call on the shared objects. A response goes to the event loop. -/
def perform : Call → Shared
  | .onConnect target => { g with balancer := g.balancer.onConnect target }
  | .onDisconnect target => { g with balancer := g.balancer.onDisconnect target }
  | .onSuccess target => g.setBreaker target (setup.breaker g target).onSuccess
  | .onFailure target => g.setBreaker target ((setup.breaker g target).onFailure g.clock)
  | call => { g with stats := call.record g.stats }

end Setup

/-- Whether a call is one of the two around `forward`. -/
def Call.isBalancing : Call → Bool
  | .onConnect _ | .onDisconnect _ => true
  | _ => false

/-- The backend that a call is about. -/
def Call.backend? : Call → Option Backend
  | .onConnect b | .onDisconnect b | .onSuccess b | .onFailure b => some b
  | _ => none

/-- What a worker has learned from the shared objects and from the backend so far. -/
structure Answers where
  snapshots : Snapshot × List (Bytes × RouteSnapshot) := ({}, [])
  filters : List Filter := []
  target : Backend := ⟨[], 0⟩
  allowed : Bool := false
  response : Bytes := []
  elapsed : Nat := 0

/-- The environment in which `process_request` is given these answers. -/
def Answers.environment (a : Answers) (router : Router) : Environment where
  internalEndpoint := handleInternalEndpoint a.snapshots.1 a.snapshots.2
  filters := a.filters
  route := router.matchPath
  select _ := a.target
  allowRequest _ := a.allowed
  forward _ _ := a.response
  elapsed := a.elapsed

/-- Where a worker is in `process_request`: before the request is parsed, between the two snapshots
of `/stats`, before the filters that are still to be asked, before `select`, `get_circuit_breaker`,
`allow_request`, `on_connect`, in `forward`, before `on_disconnect`, before the clock is read for
the second time, and before calls that depend on nothing any more. -/
inductive RequestStage where
  | parsing
  | reporting (snap : Snapshot)
  | filtering (ctx : FilterContext) (rest : List FilterKind)
  | selecting (ctx : FilterContext) (startTime : Int) (backends : List Backend)
  | lookingUp (ctx : FilterContext) (startTime : Int)
  | asking (ctx : FilterContext) (startTime : Int)
  | admitted (ctx : FilterContext) (startTime : Int)
  | forwarding (ctx : FilterContext) (startTime : Int)
  | returned (ctx : FilterContext) (startTime : Int)
  | measuring (ctx : FilterContext) (startTime : Int)
  | calling (rest : List Call)

/-- A worker with its request, the answers it has been given, the calls it has made, and the
decision of the rate limiter. -/
structure RequestWorker where
  raw : Bytes
  stage : RequestStage := .parsing
  answers : Answers := {}
  calls : List Call := []
  token : Option RateLimitFilter.Decision := none

namespace RequestWorker

variable (w : RequestWorker)

/-- The result of `parse_http_request`. -/
def parsed : Bool × HttpRequest :=
  parseHttpRequest w.raw {}

/-- The environment of the answers so far. -/
def environment (setup : Setup) : Environment :=
  w.answers.environment setup.router

/-- A filter has been asked. -/
def ask (f : Filter) (stage : RequestStage) : RequestWorker :=
  { w with stage := stage, answers := { w.answers with filters := w.answers.filters ++ [f] } }

/-- A call has been made. -/
def made (call : Call) (stage : RequestStage) : RequestWorker :=
  { w with stage := stage, calls := w.calls ++ [call] }

/-- The calls after a filter has refused the request. -/
def refusal : List Call :=
  [.incRateLimited, sendErrorAndClose (make400 false).toString]

/-- A step of a worker. The random text of `generate_id`, the result of `std::time`, the order in
which an `unordered_map` lists its entries, and the response of the backend are arbitrary. So are
the values that a snapshot loads, as other workers count while it is taken. -/
inductive Step (setup : Setup) (g : Shared) (w : RequestWorker) :
    Shared → RequestWorker → Prop where
  | malformed (hstage : w.stage = .parsing) (hparsed : w.parsed.1 = false) :
      Step setup g w g
        { w with stage := .calling [sendErrorAndClose (make400 false).toString] }
  | snapshot {loaded : GatewayStats} (hstage : w.stage = .parsing) (hparsed : w.parsed.1 = true)
      (hpath : w.parsed.2.path = ascii "/stats" ∨ w.parsed.2.path = ascii "/stats/")
      (hloaded : g.stats.Loads loaded) :
      Step setup g w g { w with stage := .reporting loaded.globalSnapshot }
  | stats {snap : Snapshot} {loaded : GatewayStats} {routes : List (Bytes × RouteSnapshot)}
      {resp : Bytes} (hstage : w.stage = .reporting snap) (hloaded : g.stats.Loads loaded)
      (hroutes : routes.Perm loaded.routeSnapshot)
      (hresp : handleInternalEndpoint snap routes w.parsed.2.path = some resp) :
      Step setup g w g { w with
        stage := .calling [.send resp false]
        answers := { w.answers with snapshots := (snap, routes) } }
  | health {resp : Bytes} (hstage : w.stage = .parsing) (hparsed : w.parsed.1 = true)
      (hpath : w.parsed.2.path = ascii "/health" ∨ w.parsed.2.path = ascii "/health/")
      (hresp : handleInternalEndpoint {} [] w.parsed.2.path = some resp) :
      Step setup g w g { w with stage := .calling [.send resp false] }
  | parse (hstage : w.stage = .parsing) (hparsed : w.parsed.1 = true)
      (hpath : w.parsed.2.path ∉ internalPaths) :
      Step setup g w g { w with stage := .filtering { req := w.parsed.2 } setup.filters }
  | requestId {ctx : FilterContext} {rest : List FilterKind}
      (hstage : w.stage = .filtering ctx (.requestId :: rest)) (generated : Bytes) :
      Step setup g w g (w.ask (requestIdFilter generated)
        (.filtering ((requestIdFilter generated).onRequest ctx).2 rest))
  | logging {ctx : FilterContext} {rest : List FilterKind}
      (hstage : w.stage = .filtering ctx (.logging :: rest)) (now : Int) :
      Step setup g w g (w.ask (loggingFilter now)
        (.filtering ((loggingFilter now).onRequest ctx).2 rest))
  | grant {ctx : FilterContext} {rest : List FilterKind} {limiter : RateLimitFilter}
      (hstage : w.stage = .filtering ctx (.rateLimit :: rest))
      (h : g.limiter.onRequest ctx g.clock = (true, limiter)) :
      Step setup g w { g with limiter := limiter }
        { w.ask (limiterFilter true) (.filtering ctx rest) with
          token := some ⟨g.limiter.keyOf ctx, g.clock, true⟩ }
  | refuse {ctx : FilterContext} {rest : List FilterKind} {limiter : RateLimitFilter}
      (hstage : w.stage = .filtering ctx (.rateLimit :: rest))
      (h : g.limiter.onRequest ctx g.clock = (false, limiter)) :
      Step setup g w { g with limiter := limiter }
        { w.ask (limiterFilter false) (.calling refusal) with
          token := some ⟨g.limiter.keyOf ctx, g.clock, false⟩ }
  | noRoute {ctx : FilterContext} (hstage : w.stage = .filtering ctx [])
      (hroute : setup.router.matchPath ctx.req.path = none) :
      Step setup g w g
        { w with stage := .calling [sendErrorAndClose (make404 false).toString] }
  | route {ctx : FilterContext} {backends : List Backend} (hstage : w.stage = .filtering ctx [])
      (hroute : setup.router.matchPath ctx.req.path = some backends) :
      Step setup g w g { w with stage := .selecting ctx g.clock backends }
  | select {ctx : FilterContext} {start : Int} {backends : List Backend}
      (hstage : w.stage = .selecting ctx start backends) :
      Step setup g w { g with balancer := (g.balancer.select 0 backends).2 }
        { w with
          stage := .lookingUp ctx start
          answers := { w.answers with target := (g.balancer.select 0 backends).1 } }
  | lookUp {ctx : FilterContext} {start : Int} (hstage : w.stage = .lookingUp ctx start) :
      Step setup g w (setup.getCircuitBreaker g w.answers.target)
        { w with stage := .asking ctx start }
  | allow {ctx : FilterContext} {start : Int} {cb : CircuitBreaker}
      (hstage : w.stage = .asking ctx start)
      (h : (setup.breaker g w.answers.target).allowRequest g.clock = (true, cb)) :
      Step setup g w (g.setBreaker w.answers.target cb)
        { w with stage := .admitted ctx start, answers := { w.answers with allowed := true } }
  | reject {ctx : FilterContext} {start : Int} {cb : CircuitBreaker}
      (hstage : w.stage = .asking ctx start)
      (h : (setup.breaker g w.answers.target).allowRequest g.clock = (false, cb)) :
      Step setup g w (g.setBreaker w.answers.target cb)
        { w with
          stage := .calling [sendErrorAndClose unavailable]
          answers := { w.answers with allowed := false } }
  | connect {ctx : FilterContext} {start : Int} (hstage : w.stage = .admitted ctx start) :
      Step setup g w (setup.perform g (.onConnect w.answers.target))
        (w.made (.onConnect w.answers.target) (.forwarding ctx start))
  | forward {ctx : FilterContext} {start : Int} (hstage : w.stage = .forwarding ctx start)
      (response : Bytes) :
      Step setup g w g
        { w with stage := .returned ctx start, answers := { w.answers with response := response } }
  | disconnect {ctx : FilterContext} {start : Int} (hstage : w.stage = .returned ctx start) :
      Step setup g w (setup.perform g (.onDisconnect w.answers.target))
        (w.made (.onDisconnect w.answers.target) (.measuring ctx start))
  | measure {ctx : FilterContext} {start : Int} {answers : Answers}
      (hstage : w.stage = .measuring ctx start)
      (h : answers = { w.answers with elapsed := ((g.clock - start) / 1000000).toNat }) :
      Step setup g w g
        { w with
          stage := .calling ((forwardRequest (answers.environment setup.router) ctx answers.target
            w.raw).drop 2)
          answers := answers }
  | call {call : Call} {rest : List Call} (hstage : w.stage = .calling (call :: rest)) :
      Step setup g w (setup.perform g call) (w.made call (.calling rest))

end RequestWorker

/-- All workers, those that have finished included, and what they share. -/
structure Pipeline where
  shared : Shared
  workers : List RequestWorker := []

namespace Pipeline

/-- A worker takes a request from the queue or goes on with one, time passes, or the event loop
calls `cleanup_expired_buckets`. -/
inductive Step (setup : Setup) : Pipeline → Pipeline → Prop where
  | start {s : Pipeline} (raw : Bytes) :
      Step setup s { s with workers := s.workers ++ [{ raw }] }
  | elapse {s : Pipeline} {now : Int} (hclock : s.shared.clock ≤ now) :
      Step setup s { s with shared := { s.shared with clock := now } }
  | cleanup {s : Pipeline} :
      Step setup s { s with
        shared := { s.shared with
          limiter := s.shared.limiter.cleanupExpiredBuckets 300 s.shared.clock } }
  | work {s : Pipeline} {i : Nat} {w w' : RequestWorker} {g : Shared}
      (hw : s.workers[i]? = some w) (h : RequestWorker.Step setup s.shared w g w') :
      Step setup s { shared := g, workers := s.workers.set i w' }

/-- The states of a gateway whose rate limiter has the given parameters. -/
def Reachable (setup : Setup) (rate burst : Int) : Pipeline → Prop :=
  Relation.ReflTransGen (Step setup)
    { shared := { limiter := .create rate burst (some Filter.extractClientIp) } }

end Pipeline

/-! ## What a worker does -/

namespace RequestWorker

/-- The request is not for an internal endpoint, and the filters that have been asked have let it
pass with this context. -/
structure Passed (raw : Bytes) (filters : List Filter) (ctx : FilterContext) : Prop where
  parsed : (parseHttpRequest raw {}).1 = true
  path : (parseHttpRequest raw {}).2.path ∉ internalPaths
  filtered : filterRequest filters { req := (parseHttpRequest raw {}).2 } = (true, ctx)
  req : ctx.req = (parseHttpRequest raw {}).2

/-- A backend that `select` may return for a request. -/
def IsTarget (setup : Setup) (raw : Bytes) (b : Backend) : Prop :=
  ∃ backends, setup.router.matchPath (parseHttpRequest raw {}).2.path = some backends ∧
    (b ∈ backends ∨ backends = [] ∧ b = ⟨[], 0⟩)

/-- There is a route for the request, and `select` has been called with its backends. -/
structure Routed (setup : Setup) (raw : Bytes) (filters : List Filter) (target : Backend)
    (ctx : FilterContext) : Prop extends Passed raw filters ctx where
  target : IsTarget setup raw target

/-- The filters have let the request of a worker pass. -/
def HasPassed (w : RequestWorker) (ctx : FilterContext) : Prop :=
  Passed w.raw w.answers.filters ctx

/-- A backend has been selected for the request of a worker. -/
def HasTarget (setup : Setup) (w : RequestWorker) (ctx : FilterContext) : Prop :=
  Routed setup w.raw w.answers.filters w.answers.target ctx

/-- What is known of a worker at a stage. -/
inductive Follows (setup : Setup) (w : RequestWorker) : RequestStage → Prop where
  | parsing (hcalls : w.calls = []) (hasked : w.answers.filters = []) : Follows setup w .parsing
  | reporting {snap : Snapshot} (hcalls : w.calls = []) (hparsed : w.parsed.1 = true)
      (hpath : w.parsed.2.path ∈ internalPaths) : Follows setup w (.reporting snap)
  | filtering {ctx : FilterContext} {rest : List FilterKind} (hcalls : w.calls = [])
      (h : w.HasPassed ctx) : Follows setup w (.filtering ctx rest)
  | selecting {ctx : FilterContext} {start : Int} {backends : List Backend} (hcalls : w.calls = [])
      (h : w.HasPassed ctx) (hroute : setup.router.matchPath ctx.req.path = some backends) :
      Follows setup w (.selecting ctx start backends)
  | lookingUp {ctx : FilterContext} {start : Int} (hcalls : w.calls = [])
      (h : w.HasTarget setup ctx) : Follows setup w (.lookingUp ctx start)
  | asking {ctx : FilterContext} {start : Int} (hcalls : w.calls = [])
      (h : w.HasTarget setup ctx) : Follows setup w (.asking ctx start)
  | admitted {ctx : FilterContext} {start : Int} (hcalls : w.calls = [])
      (h : w.HasTarget setup ctx) (hallowed : w.answers.allowed = true) :
      Follows setup w (.admitted ctx start)
  | forwarding {ctx : FilterContext} {start : Int}
      (hcalls : w.calls = [.onConnect w.answers.target]) (h : w.HasTarget setup ctx)
      (hallowed : w.answers.allowed = true) : Follows setup w (.forwarding ctx start)
  | returned {ctx : FilterContext} {start : Int}
      (hcalls : w.calls = [.onConnect w.answers.target]) (h : w.HasTarget setup ctx)
      (hallowed : w.answers.allowed = true) : Follows setup w (.returned ctx start)
  | measuring {ctx : FilterContext} {start : Int}
      (hcalls : w.calls = [.onConnect w.answers.target, .onDisconnect w.answers.target])
      (h : w.HasTarget setup ctx) (hallowed : w.answers.allowed = true) :
      Follows setup w (.measuring ctx start)
  | calling {rest : List Call}
      (hcalls : w.calls ++ rest = processRequest (w.environment setup) w.raw)
      (hrest : ∀ call ∈ rest, call.isBalancing = false)
      (htarget : ∀ call ∈ w.calls ++ rest, ∀ b, call.backend? = some b → IsTarget setup w.raw b) :
      Follows setup w (.calling rest)

variable {setup : Setup} {g g' : Shared} {w w' : RequestWorker} {ctx : FilterContext}

/-- Asking one more filter. -/
theorem filter_request_concat (filters : List Filter) (f : Filter) {start ctx : FilterContext}
    (h : filterRequest filters start = (true, ctx)) :
    filterRequest (filters ++ [f]) start = f.onRequest ctx := by
  induction filters generalizing start with
  | nil =>
      cases h
      simp only [List.nil_append, filterRequest]
      split
      · rename_i hpass
        rw [← hpass]
      · rfl
  | cons first rest ih =>
      simp only [List.cons_append, filterRequest] at h ⊢
      split at h
      · rename_i hpass
        rw [if_pos hpass]
        exact ih h
      · rename_i hrefused
        rw [h] at hrefused
        exact absurd rfl hrefused

/-- A filter that lets the request pass. -/
theorem Passed.concat {raw : Bytes} {filters : List Filter}
    (h : Passed raw filters ctx) {f : Filter}
    (hf : (f.onRequest ctx).1 = true) (hreq : (f.onRequest ctx).2.req = ctx.req) :
    Passed raw (filters ++ [f]) (f.onRequest ctx).2 where
  parsed := h.parsed
  path := h.path
  req := hreq.trans h.req
  filtered := by
    rw [filter_request_concat _ f h.filtered, ← hf]

/-! The branches of `process_request`. -/

section Branches

variable {env : Environment} {raw : Bytes}

theorem process_malformed (hparsed : (parseHttpRequest raw {}).1 = false) :
    processRequest env raw = [sendErrorAndClose (make400 false).toString] := by
  simp only [processRequest, hparsed, Bool.not_false, if_true]

theorem process_internal {resp : Bytes} (hparsed : (parseHttpRequest raw {}).1 = true)
    (hresp : env.internalEndpoint (parseHttpRequest raw {}).2.path = some resp) :
    processRequest env raw = [.send resp false] := by
  simp only [processRequest, hparsed, hresp, Bool.not_true, Bool.false_eq_true, if_false]

theorem process_refused (hparsed : (parseHttpRequest raw {}).1 = true)
    (hinternal : env.internalEndpoint (parseHttpRequest raw {}).2.path = none)
    (hfiltered : (filterRequest env.filters { req := (parseHttpRequest raw {}).2 }).1 = false) :
    processRequest env raw = refusal := by
  simp only [processRequest, hparsed, hinternal, hfiltered, Bool.not_true, Bool.not_false,
    Bool.false_eq_true, if_false, if_true, refusal]

theorem process_unrouted (hparsed : (parseHttpRequest raw {}).1 = true)
    (hinternal : env.internalEndpoint (parseHttpRequest raw {}).2.path = none)
    (hfiltered : filterRequest env.filters { req := (parseHttpRequest raw {}).2 } = (true, ctx))
    (hroute : env.route ctx.req.path = none) :
    processRequest env raw = [sendErrorAndClose (make404 false).toString] := by
  simp only [processRequest, hparsed, hinternal, hfiltered, hroute, Bool.not_true,
    Bool.false_eq_true, if_false]

theorem process_routed {backends : List Backend} (hparsed : (parseHttpRequest raw {}).1 = true)
    (hinternal : env.internalEndpoint (parseHttpRequest raw {}).2.path = none)
    (hfiltered : filterRequest env.filters { req := (parseHttpRequest raw {}).2 } = (true, ctx))
    (hroute : env.route ctx.req.path = some backends) :
    processRequest env raw =
      if !env.allowRequest (env.select backends) then [sendErrorAndClose unavailable]
      else forwardRequest env ctx (env.select backends) raw := by
  simp only [processRequest, hparsed, hinternal, hfiltered, hroute, Bool.not_true,
    Bool.false_eq_true, if_false]

end Branches

/-- The health check does not look at the statistics. -/
theorem internal_endpoint_health {path : Bytes}
    (hpath : path = ascii "/health" ∨ path = ascii "/health/") (snap : Snapshot)
    (routeStats : List (Bytes × RouteSnapshot)) :
    handleInternalEndpoint snap routeStats path = handleInternalEndpoint {} [] path := by
  have hstats : ¬ (path = ascii "/stats" ∨ path = ascii "/stats/") := by
    rcases hpath with rfl | rfl <;> decide
  simp only [handleInternalEndpoint, if_neg hstats]

theorem stats_mem_internal {path : Bytes}
    (hpath : path = ascii "/stats" ∨ path = ascii "/stats/") : path ∈ internalPaths := by
  rcases hpath with rfl | rfl <;> decide

theorem internal_endpoint_none {path : Bytes} (hpath : path ∉ internalPaths) (a : Answers)
    (router : Router) : (a.environment router).internalEndpoint path = none :=
  Option.not_isSome_iff_eq_none.1 (mt internal_endpoint_iff.1 hpath)

theorem process_rejected {raw : Bytes} {a : Answers} (hallowed : a.allowed = false)
    (h : Routed setup raw a.filters a.target ctx) :
    processRequest (a.environment setup.router) raw = [sendErrorAndClose unavailable] := by
  obtain ⟨backends, hroute, -⟩ := h.target
  rw [← h.req] at hroute
  rw [process_routed h.parsed (internal_endpoint_none h.path _ _) h.filtered hroute]
  simp only [Answers.environment, hallowed, Bool.not_false, if_true]

theorem process_forwarded {raw : Bytes} {a : Answers} (hallowed : a.allowed = true)
    (h : Routed setup raw a.filters a.target ctx) :
    processRequest (a.environment setup.router) raw =
      forwardRequest (a.environment setup.router) ctx a.target raw := by
  obtain ⟨backends, hroute, -⟩ := h.target
  rw [← h.req] at hroute
  rw [process_routed h.parsed (internal_endpoint_none h.path _ _) h.filtered hroute]
  simp only [Answers.environment, hallowed, Bool.not_true, Bool.false_eq_true, if_false]

/-- After `on_disconnect` the balancer is not called any more. -/
theorem forward_rest_balancing (env : Environment) (ctx : FilterContext) (target : Backend)
    (raw : Bytes) :
    ∀ call ∈ (forwardRequest env ctx target raw).drop 2, call.isBalancing = false := by
  simp only [forwardRequest]
  split <;> simp [Call.isBalancing]

/-- All calls of a request that is forwarded are about its backend. -/
theorem forward_backend (env : Environment) (ctx : FilterContext) (target : Backend) (raw : Bytes) :
    ∀ call ∈ [.onConnect target, .onDisconnect target] ++
        (forwardRequest env ctx target raw).drop 2,
      ∀ b, call.backend? = some b → b = target := by
  simp only [forwardRequest]
  split <;> simp [Call.backend?, eq_comm]

/-- A member of the list, or the default for an empty list. -/
theorem select_mem (lb : LoadBalancer) (halgo : lb.algo = .roundRobin) (backends : List Backend) :
    (lb.select 0 backends).1 ∈ backends ∨
      backends = [] ∧ (lb.select 0 backends).1 = ⟨[], 0⟩ := by
  match backends with
  | [] => exact .inr ⟨rfl, rfl⟩
  | [b] => exact .inl List.mem_cons_self
  | b :: b' :: rest =>
      rw [LoadBalancer.select_round_robin halgo (by simp) 0]
      have hlt : lb.roundRobinIdx (b :: b' :: rest) < (b :: b' :: rest).length :=
        Nat.mod_lt _ (by simp)
      refine .inl ?_
      simp only [LoadBalancer.selectRoundRobin, LoadBalancer.entry, List.getD_eq_getElem _ _ hlt]
      exact List.getElem_mem hlt

/-- Each step of a worker is one of `process_request`. -/
theorem Follows.step (hw : Follows setup w w.stage) (halgo : g.balancer.algo = .roundRobin)
    (h : Step setup g w g' w') : Follows setup w' w'.stage := by
  cases h with
  | malformed hstage hparsed =>
      rw [hstage] at hw
      cases hw with
      | parsing hcalls =>
          refine .calling ?_ (by simp [sendErrorAndClose, Call.isBalancing])
            (by simp [hcalls, sendErrorAndClose, Call.backend?])
          rw [hcalls, List.nil_append]
          exact (process_malformed hparsed).symm
  | snapshot hstage hparsed hpath hloaded =>
      rw [hstage] at hw
      cases hw with
      | parsing hcalls => exact .reporting hcalls hparsed (stats_mem_internal hpath)
  | stats hstage hloaded hroutes hresp =>
      rw [hstage] at hw
      cases hw with
      | reporting hcalls hparsed =>
          refine .calling ?_ (by simp [Call.isBalancing]) (by simp [hcalls, Call.backend?])
          rw [hcalls, List.nil_append]
          exact (process_internal hparsed hresp).symm
  | health hstage hparsed hpath hresp =>
      rw [hstage] at hw
      cases hw with
      | parsing hcalls =>
          refine .calling ?_ (by simp [Call.isBalancing]) (by simp [hcalls, Call.backend?])
          rw [hcalls, List.nil_append]
          refine (process_internal hparsed ?_).symm
          exact (internal_endpoint_health hpath _ _).trans hresp
  | parse hstage hparsed hpath =>
      rw [hstage] at hw
      cases hw with
      | parsing hcalls hasked =>
          refine .filtering hcalls ⟨hparsed, hpath, ?_, rfl⟩
          show filterRequest w.answers.filters _ = _
          rw [hasked]
          rfl
  | requestId hstage =>
      rw [hstage] at hw
      cases hw with
      | filtering hcalls hpassed => exact .filtering hcalls (Passed.concat hpassed rfl rfl)
  | logging hstage =>
      rw [hstage] at hw
      cases hw with
      | filtering hcalls hpassed => exact .filtering hcalls (Passed.concat hpassed rfl rfl)
  | grant hstage =>
      rw [hstage] at hw
      cases hw with
      | filtering hcalls hpassed =>
          exact .filtering hcalls (Passed.concat (f := limiterFilter true) hpassed rfl rfl)
  | refuse hstage =>
      rw [hstage] at hw
      cases hw with
      | filtering hcalls hpassed =>
          refine .calling ?_ (by simp [refusal, sendErrorAndClose, Call.isBalancing])
            (by simp [ask, hcalls, refusal, sendErrorAndClose, Call.backend?])
          show w.calls ++ refusal = _
          rw [hcalls, List.nil_append]
          refine (process_refused hpassed.parsed (internal_endpoint_none hpassed.path _ _) ?_).symm
          show (filterRequest (w.answers.filters ++ [limiterFilter false]) _).1 = false
          rw [filter_request_concat _ _ hpassed.filtered]
          rfl
  | noRoute hstage hroute =>
      rw [hstage] at hw
      cases hw with
      | filtering hcalls hpassed =>
          refine .calling ?_ (by simp [sendErrorAndClose, Call.isBalancing])
            (by simp [hcalls, sendErrorAndClose, Call.backend?])
          rw [hcalls, List.nil_append]
          exact (process_unrouted hpassed.parsed (internal_endpoint_none hpassed.path _ _)
            hpassed.filtered hroute).symm
  | route hstage hroute =>
      rw [hstage] at hw
      cases hw with
      | filtering hcalls hpassed =>
          exact .selecting hcalls hpassed hroute
  | select hstage =>
      rw [hstage] at hw
      cases hw with
      | selecting hcalls hpassed hroute =>
          refine .lookingUp hcalls ⟨hpassed, _, ?_, select_mem _ halgo _⟩
          rw [← hpassed.req]
          exact hroute
  | lookUp hstage =>
      rw [hstage] at hw
      cases hw with
      | lookingUp hcalls hrouted =>
          exact .asking hcalls hrouted
  | allow hstage =>
      rw [hstage] at hw
      cases hw with
      | asking hcalls hrouted =>
          exact .admitted hcalls hrouted rfl
  | reject hstage =>
      rw [hstage] at hw
      cases hw with
      | asking hcalls hrouted =>
          refine .calling ?_ (by simp [sendErrorAndClose, Call.isBalancing])
            (by simp [hcalls, sendErrorAndClose, Call.backend?])
          rw [hcalls, List.nil_append]
          symm
          exact process_rejected rfl hrouted
  | connect hstage =>
      rw [hstage] at hw
      cases hw with
      | admitted hcalls hrouted hallowed =>
          refine .forwarding ?_ hrouted hallowed
          show w.calls ++ _ = _
          rw [hcalls]
          rfl
  | forward hstage =>
      rw [hstage] at hw
      cases hw with
      | forwarding hcalls hrouted hallowed =>
          exact .returned hcalls hrouted hallowed
  | disconnect hstage =>
      rw [hstage] at hw
      cases hw with
      | returned hcalls hrouted hallowed =>
          refine .measuring ?_ hrouted hallowed
          show w.calls ++ _ = _
          rw [hcalls]
          rfl
  | measure hstage hanswers =>
      rw [hstage] at hw
      cases hw with
      | measuring hcalls hrouted hallowed =>
          subst hanswers
          refine .calling ?_ (forward_rest_balancing _ _ _ _) fun call hcall b hb => ?_
          · rw [hcalls]
            symm
            exact process_forwarded hallowed hrouted
          · rw [hcalls] at hcall
            rw [forward_backend _ _ _ _ call hcall b hb]
            exact hrouted.target
  | call hstage =>
      rw [hstage] at hw
      cases hw with
      | calling hcalls hrest htarget =>
          have happend : ∀ (call : Call) (rest : List Call),
              (w.made call (.calling rest)).calls ++ rest = w.calls ++ call :: rest :=
            fun call rest => List.append_assoc _ _ _
          refine .calling ?_ (fun call hcall => hrest call (List.mem_cons_of_mem _ hcall)) ?_
          · rw [happend]
            exact hcalls
          · rw [happend]
            exact htarget

/-! ## A worker gets to its end -/

/-- A bound for the steps that a worker still has to make. -/
def rank (setup : Setup) : RequestStage → Nat
  | .parsing => setup.filters.length + 16
  | .reporting _ => 15
  | .filtering _ rest => rest.length + 15
  | .selecting _ _ _ => 14
  | .lookingUp _ _ => 13
  | .asking _ _ => 12
  | .admitted _ _ => 11
  | .forwarding _ _ => 10
  | .returned _ _ => 9
  | .measuring _ _ => 8
  | .calling rest => rest.length

theorem length_forward_request (env : Environment) (ctx : FilterContext) (target : Backend)
    (raw : Bytes) : ((forwardRequest env ctx target raw).drop 2).length ≤ 5 := by
  simp only [forwardRequest]
  split <;> simp

/-- `process_request` never waits for another worker. -/
theorem Follows.exists_step (hw : Follows setup w w.stage) (hstage : w.stage ≠ .calling []) :
    ∃ g' w', Step setup g w g' w' ∧ w'.raw = w.raw ∧
      rank setup w'.stage < rank setup w.stage := by
  cases hs : w.stage with
  | parsing =>
      cases hparsed : w.parsed.1 with
      | false => exact ⟨_, _, .malformed hs hparsed, rfl, by simp [rank]⟩
      | true =>
          by_cases hpath : w.parsed.2.path ∈ internalPaths
          · by_cases hstats : w.parsed.2.path = ascii "/stats" ∨ w.parsed.2.path = ascii "/stats/"
            · have hstep : Step setup g w g { w with stage := .reporting g.stats.globalSnapshot } :=
                .snapshot hs hparsed hstats rfl
              exact ⟨_, _, hstep, rfl, by simp [rank]⟩
            · have hhealth : w.parsed.2.path = ascii "/health" ∨
                  w.parsed.2.path = ascii "/health/" := by
                simpa [internalPaths, not_or.1 hstats] using hpath
              obtain ⟨resp, hresp⟩ := Option.isSome_iff_exists.1
                ((@internal_endpoint_iff {} [] _).2 hpath)
              exact ⟨_, _, .health hs hparsed hhealth hresp, rfl, by simp [rank]⟩
          · exact ⟨_, _, .parse hs hparsed hpath, rfl, by simp [rank]⟩
  | reporting snap =>
      rw [hs] at hw
      cases hw with
      | reporting _ _ hpath =>
          obtain ⟨resp, hresp⟩ := Option.isSome_iff_exists.1
            ((@internal_endpoint_iff snap g.stats.routeSnapshot _).2 hpath)
          exact ⟨_, _, .stats hs rfl (.refl _) hresp, rfl, by simp [rank]⟩
  | filtering ctx rest =>
      cases rest with
      | nil =>
          cases hroute : setup.router.matchPath ctx.req.path with
          | none => exact ⟨_, _, .noRoute hs hroute, rfl, by simp [rank]⟩
          | some backends => exact ⟨_, _, .route hs hroute, rfl, by simp [rank]⟩
      | cons kind rest =>
          cases kind with
          | requestId => exact ⟨_, _, .requestId hs [], rfl, by simp [rank, ask]⟩
          | logging => exact ⟨_, _, .logging hs 0, rfl, by simp [rank, ask]⟩
          | rateLimit =>
              cases hdecision : g.limiter.onRequest ctx g.clock with
              | mk admitted limiter =>
                  cases admitted with
                  | true => exact ⟨_, _, .grant hs hdecision, rfl, by simp [rank, ask]⟩
                  | false => exact ⟨_, _, .refuse hs hdecision, rfl, by simp [rank, ask, refusal]⟩
  | selecting ctx start backends => exact ⟨_, _, .select hs, rfl, by simp [rank]⟩
  | lookingUp ctx start => exact ⟨_, _, .lookUp hs, rfl, by simp [rank]⟩
  | asking ctx start =>
      cases hallow : (setup.breaker g w.answers.target).allowRequest g.clock with
      | mk allowed cb =>
          cases allowed with
          | true => exact ⟨_, _, .allow hs hallow, rfl, by simp [rank]⟩
          | false => exact ⟨_, _, .reject hs hallow, rfl, by simp [rank]⟩
  | admitted ctx start => exact ⟨_, _, .connect hs, rfl, by simp [rank, made]⟩
  | forwarding ctx start => exact ⟨_, _, .forward hs [], rfl, by simp [rank]⟩
  | returned ctx start => exact ⟨_, _, .disconnect hs, rfl, by simp [rank, made]⟩
  | measuring ctx start =>
      refine ⟨_, _, .measure hs rfl, rfl, ?_⟩
      exact Nat.lt_of_le_of_lt (length_forward_request _ _ _ _) (by simp [rank])
  | calling rest =>
      cases rest with
      | nil => exact absurd hs hstage
      | cons call rest => exact ⟨_, _, .call hs, rfl, by simp [rank, made]⟩

end RequestWorker

namespace Pipeline

variable {setup : Setup} {rate burst : Int} {s t : Pipeline} {i : Nat} {w : RequestWorker}

/-- Every worker follows `process_request`, and the balancer keeps its algorithm. -/
structure Inv (setup : Setup) (s : Pipeline) : Prop where
  algo : s.shared.balancer.algo = .roundRobin
  follows : ∀ w ∈ s.workers, w.Follows setup w.stage

/-- The balancer keeps its algorithm. -/
theorem algo_step {g g' : Shared} {w w' : RequestWorker} (h : RequestWorker.Step setup g w g' w') :
    g'.balancer.algo = g.balancer.algo := by
  cases h with
  | select hstage => exact Balancing.algo_select _ _ _
  | @call call rest hstage => cases call <;> rfl
  | _ => rfl

/-- Workers do not move the clock. -/
theorem clock_step {g g' : Shared} {w w' : RequestWorker}
    (h : RequestWorker.Step setup g w g' w') : g'.clock = g.clock := by
  cases h with
  | @call call rest hstage => cases call <;> rfl
  | _ => rfl

theorem inv_step (hs : Inv setup s) (h : Step setup s t) : Inv setup t := by
  cases h with
  | start raw =>
      refine ⟨hs.algo, fun w hw => ?_⟩
      rcases List.mem_append.1 hw with hw | hw
      · exact hs.follows w hw
      · rw [List.mem_singleton.1 hw]
        exact .parsing rfl rfl
  | elapse hclock => exact ⟨hs.algo, hs.follows⟩
  | cleanup => exact ⟨hs.algo, hs.follows⟩
  | work hw hstep =>
      refine ⟨(algo_step hstep).trans hs.algo, fun v hv => ?_⟩
      rcases List.mem_or_eq_of_mem_set hv with hv | rfl
      · exact hs.follows v hv
      · exact (hs.follows _ (List.mem_of_getElem? hw)).step hs.algo hstep

theorem inv_run (hs : Inv setup s) (h : Relation.ReflTransGen (Step setup) s t) : Inv setup t := by
  induction h with
  | refl => exact hs
  | tail _ hstep ih => exact inv_step ih hstep

theorem inv_reachable (h : Reachable setup rate burst s) : Inv setup s :=
  inv_run ⟨rfl, by simp⟩ h

/-- A worker goes on while all others rest. -/
inductive WorkerRun (setup : Setup) (g : Shared) (w : RequestWorker) :
    Shared → RequestWorker → Prop where
  | refl : WorkerRun setup g w g w
  | tail {g' g'' : Shared} {w' w'' : RequestWorker} (hrun : WorkerRun setup g w g' w')
      (h : RequestWorker.Step setup g' w' g'' w'') : WorkerRun setup g w g'' w''

theorem WorkerRun.steps {g : Shared} {i : Nat} {w w' : RequestWorker}
    (hw : s.workers[i]? = some w) (h : WorkerRun setup s.shared w g w') :
    Relation.ReflTransGen (Step setup) s { shared := g, workers := s.workers.set i w' } := by
  induction h with
  | refl =>
      obtain ⟨hi, rfl⟩ := List.getElem?_eq_some_iff.1 hw
      rw [List.set_getElem_self]
  | @tail g' g'' v v' _ hstep ih =>
      have hstep' := ih.tail (.work (Table.get_set_self hw v) hstep)
      rwa [List.set_set] at hstep'

/-- A new request, and what the worker that takes it does with it. -/
theorem WorkerRun.reachable {g : Shared} {raw : Bytes} {w' : RequestWorker}
    (hs : Reachable setup rate burst s) (h : WorkerRun setup s.shared { raw } g w') :
    Reachable setup rate burst { shared := g, workers := s.workers ++ [w'] } := by
  have hstart : Reachable setup rate burst { s with workers := s.workers ++ [{ raw := raw }] } :=
    hs.tail (.start raw)
  have hsteps := WorkerRun.steps (s := { s with workers := s.workers ++ [{ raw := raw }] })
    (List.getElem?_concat_length) h
  rw [List.set_append_right _ _ le_rfl, Nat.sub_self, List.set_cons_zero] at hsteps
  exact hstart.trans hsteps

/-- A worker can go on to its end while the others rest. -/
theorem exists_finished (hs : Inv setup s) (hw : s.workers[i]? = some w) :
    ∃ t w', Relation.ReflTransGen (Step setup) s t ∧ t.workers[i]? = some w' ∧
      w'.stage = .calling [] ∧ w'.raw = w.raw ∧ ∀ j, j ≠ i → t.workers[j]? = s.workers[j]? := by
  induction hrank : RequestWorker.rank setup w.stage using Nat.strong_induction_on
    generalizing s w with
  | _ n ih =>
      by_cases hstage : w.stage = .calling []
      · exact ⟨s, w, .refl, hw, hstage, rfl, fun _ _ => rfl⟩
      · obtain ⟨g', w', hstep, hraw, hless⟩ :=
          (hs.follows w (List.mem_of_getElem? hw)).exists_step hstage
        have hwork : Step setup s _ := .work hw hstep
        obtain ⟨t, v, hrun, hv, hend, hsame, hothers⟩ :=
          ih _ (hrank ▸ hless) (inv_step hs hwork) (Table.get_set_self hw w') rfl
        refine ⟨t, v, hrun.head hwork, hv, hend, hsame.trans hraw, fun j hj => ?_⟩
        rw [hothers j hj]
        exact List.getElem?_set_ne (Ne.symm hj)

/-- However the steps of the workers are interleaved, a worker that has finished has made the
calls of `process_request` for its request and the answers it was given, so that it has answered
its client exactly once; and every worker can finish by steps of its own, whatever the state of
the others. -/
theorem worker_follows_process_request (setup : Setup) (rate burst : Int) (s : Pipeline)
    (h : Reachable setup rate burst s) (i : Nat) (w : RequestWorker)
    (hw : s.workers[i]? = some w) :
    (w.stage = .calling [] →
      w.calls = processRequest (w.environment setup) w.raw ∧ (responsesOf w.calls).length = 1) ∧
      ∃ t w', Relation.ReflTransGen (Step setup) s t ∧ t.workers[i]? = some w' ∧
        w'.stage = .calling [] ∧ w'.raw = w.raw ∧ ∀ j, j ≠ i → t.workers[j]? = s.workers[j]? := by
  have hs := inv_reachable h
  refine ⟨fun hstage => ?_, exists_finished hs hw⟩
  have hfollows := hs.follows w (List.mem_of_getElem? hw)
  rw [hstage] at hfollows
  cases hfollows with
  | calling hcalls =>
      rw [List.append_nil] at hcalls
      obtain ⟨data, keepAlive, hreplies⟩ := process_request_replies (w.environment setup) w.raw
      exact ⟨hcalls, by rw [hcalls, hreplies]; rfl⟩

/-- The filters of `main`, and the routes of the example in `router.h`. -/
def mainSetup : Setup where
  router := Router.create sortRoutes [apiRoute, userRoute]
  filters := [.requestId, .rateLimit, .logging]
  backendTimeoutMs := 3000
  limiters := by decide

/-- A request for the health check. -/
def healthRequest : Bytes :=
  ascii "GET /health HTTP/1.1\r\n\r\n"

/-- A request of a client. -/
def clientRequest : Bytes :=
  ascii "GET /api HTTP/1.1\r\nX-Real-IP: 10.0.0.1\r\n\r\n"

theorem client_request_parsed : (parseHttpRequest clientRequest {}).1 = true ∧
    (parseHttpRequest clientRequest {}).2.path = ascii "/api" ∧
    (parseHttpRequest clientRequest {}).2.path ∉ internalPaths := by
  decide

/-- The rate limiter grants the first request of a client. -/
theorem first_granted {ctx : FilterContext}
    (hkey : (RateLimitFilter.create 100 200 (some Filter.extractClientIp)).keyOf ctx ≠ []) :
    ((RateLimitFilter.create 100 200 (some Filter.extractClientIp)).onRequest ctx 0).1 = true := by
  rw [RateLimitFilter.on_request_eq (by decide) hkey]
  simp [RateLimitFilter.takeToken, RateLimitFilter.create, RateLimitFilter.refill]

/-- A worker that has passed the rate limiter and the breaker and forwarded its request, while
another has answered a health check. -/
theorem worker_follows_forwarding : ∃ s w v, Reachable mainSetup 100 200 s ∧ s.workers = [w, v] ∧
    w.raw = clientRequest ∧ v.raw = healthRequest ∧ w.token.isSome = true ∧
    w.answers.allowed = true ∧
    w.calls.head? = some (.onConnect { host := ascii "backend_A", port := 80 }) ∧
    w.calls = processRequest (w.environment mainSetup) w.raw ∧
    (responsesOf w.calls).length = 1 := by
  obtain ⟨hparsed, hpath, hinternal⟩ := client_request_parsed
  have hroute : mainSetup.router.matchPath (parseHttpRequest clientRequest {}).2.path =
      some apiRoute.backends := by
    rw [hpath]
    decide
  have hgrant : ((RateLimitFilter.create 100 200 (some Filter.extractClientIp)).onRequest
      ((requestIdFilter []).onRequest { req := (parseHttpRequest clientRequest {}).2 }).2 0).1 =
        true := first_granted (by decide)
  have hparse : WorkerRun mainSetup { limiter := .create 100 200 (some Filter.extractClientIp) }
      { raw := clientRequest } _ _ := .tail .refl (.parse rfl hparsed hinternal)
  have hgranted := (hparse.tail (.requestId rfl [])).tail (.grant rfl (Prod.ext hgrant rfl))
  have hlogged := hgranted.tail (.logging rfl 0)
  have hselected := (hlogged.tail (.route rfl hroute)).tail (.select rfl)
  have hasks := hselected.tail (.lookUp rfl)
  have hconnect := (hasks.tail (.allow rfl rfl)).tail (.connect rfl)
  have hconnected : Reachable mainSetup 100 200 _ := WorkerRun.reachable .refl hconnect
  -- the other worker comes in between
  have hhealth : (parseHttpRequest healthRequest {}).2.path = ascii "/health" := by decide
  obtain ⟨resp, hresp⟩ := Option.isSome_iff_exists.1
    ((@internal_endpoint_iff {} [] (parseHttpRequest healthRequest {}).2.path).2
      (by rw [hhealth]; decide))
  have hasked := (hconnected.tail (.start healthRequest)).tail
    (.work (i := 1) rfl (.health rfl (by decide) (.inl hhealth) hresp))
  have hanswered := hasked.tail (.work (i := 1) rfl (.call rfl))
  have hreturned := (hanswered.tail (.work (i := 0) rfl (.forward rfl []))).tail
    (.work (i := 0) rfl (.disconnect rfl))
  have hmeasured := hreturned.tail (.work (i := 0) rfl (.measure rfl rfl))
  -- `record_request`, `record_error`, `inc_upstream_errors`, `on_failure` and the response
  have hrecorded := (hmeasured.tail (.work (i := 0) rfl (.call rfl))).tail
    (.work (i := 0) rfl (.call rfl))
  have hreported := (hrecorded.tail (.work (i := 0) rfl (.call rfl))).tail
    (.work (i := 0) rfl (.call rfl))
  have hdone : Reachable mainSetup 100 200 _ := hreported.tail (.work (i := 0) rfl (.call rfl))
  have hresult := (worker_follows_process_request mainSetup 100 200 _ hdone 0 _ rfl).1 rfl
  exact ⟨_, _, _, hdone, rfl, rfl, rfl, rfl, rfl, rfl, hresult⟩

end Pipeline

end ApiGateway.Core
