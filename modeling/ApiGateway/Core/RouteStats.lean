import ApiGateway.Core.Endpoint
import ApiGateway.Core.Router

/-!
# Statistics of the routes

What processing requests does to the statistics. `process_request` records a request under its path,
not under the prefix of the route that serves it, and no entry is ever removed.
`route_stats_bounded_iff` says for which sequences of requests the statistics are those of the
configured routes: exactly for those in which every request that is forwarded asks for a configured
prefix itself.
-/

namespace ApiGateway.Core

open Http Monitor

/-- The effect of a call of `process_request` on the statistics. -/
def Call.record (stats : GatewayStats) : Call → GatewayStats
  | .incRateLimited => stats.incRateLimited
  | .recordRequest path elapsed => stats.recordRequest path (UInt64.ofNat elapsed)
  | .recordSuccess path => stats.recordSuccess path
  | .recordError path => stats.recordError path
  | .incUpstreamErrors => stats.incUpstreamErrors
  | _ => stats

/-- The statistics after the calls of an execution of `process_request`. -/
def recordCalls (stats : GatewayStats) (calls : List Call) : GatewayStats :=
  calls.foldl Call.record stats

/-- A request that a gateway with the given router processes, with what the rest of the gateway
answers meanwhile. -/
structure Processed (router : Router) where
  env : Environment
  raw : Bytes
  routed : env.route = router.matchPath
  answered : ∃ snap routeStats, env.internalEndpoint = handleInternalEndpoint snap routeStats

/-- The statistics after some requests. -/
def recordRequests {router : Router} (stats : GatewayStats) (requests : List (Processed router)) :
    GatewayStats :=
  requests.foldl (fun stats request => recordCalls stats (processRequest request.env request.raw))
    stats

/-- The path of a request that is forwarded: it is parsed, it is not for an internal endpoint, the
filters let it pass, there is a route for it, and the circuit breaker admits it. -/
def forwardedPath (env : Environment) (raw : Bytes) : Option Bytes :=
  let parsed := parseHttpRequest raw {}
  let filtered := filterRequest env.filters { req := parsed.2 }
  if parsed.1 && (env.internalEndpoint parsed.2.path).isNone && filtered.1 &&
      (env.route filtered.2.req.path).any
        fun backends => env.allowRequest (env.select backends) then
    some filtered.2.req.path
  else none

/-! ## One request -/

/-- A request that is forwarded is recorded with its path, and any other one is not recorded. -/
theorem process_request_cases (env : Environment) (raw : Bytes) :
    (∃ ctx target, forwardedPath env raw = some ctx.req.path ∧
        processRequest env raw = forwardRequest env ctx target raw) ∨
      (forwardedPath env raw = none ∧
        ∀ stats, (recordCalls stats (processRequest env raw)).routes = stats.routes) := by
  simp only [forwardedPath, processRequest]
  cases (parseHttpRequest raw {}).1 with
  | false => exact .inr ⟨rfl, fun stats => rfl⟩
  | true =>
      cases env.internalEndpoint (parseHttpRequest raw {}).2.path with
      | some resp => exact .inr ⟨rfl, fun stats => rfl⟩
      | none =>
          cases (filterRequest env.filters { req := (parseHttpRequest raw {}).2 }).1 with
          | false => exact .inr ⟨rfl, fun stats => rfl⟩
          | true =>
              cases env.route
                  (filterRequest env.filters { req := (parseHttpRequest raw {}).2 }).2.req.path with
              | none => exact .inr ⟨rfl, fun stats => rfl⟩
              | some backends =>
                  cases hallow : env.allowRequest (env.select backends) with
                  | false =>
                      refine .inr ⟨by simp [hallow], fun stats => ?_⟩
                      simp only [hallow]
                      rfl
                  | true =>
                      refine .inl ⟨_, env.select backends, by simp [hallow]; rfl, ?_⟩
                      simp only [hallow]
                      rfl

variable (stats : GatewayStats) (env : Environment) (raw : Bytes) (key : Bytes)

/-- Forwarding a request records it with its path, and then a success or an error with it. -/
theorem record_forward (ctx : FilterContext) (target : Backend) :
    ∃ report : RouteStats → RouteStats,
      (recordCalls stats (forwardRequest env ctx target raw)).routes =
        ((stats.recordRequest ctx.req.path (UInt64.ofNat env.elapsed)).update
          ctx.req.path report).routes ∧
      ∀ rs, (report rs).totalRequests = rs.totalRequests := by
  simp only [forwardRequest]
  split
  · exact ⟨fun rs => { rs with successCount := rs.successCount + 1 }, rfl, fun rs => rfl⟩
  · exact ⟨fun rs => { rs with errorCount := rs.errorCount + 1 }, rfl, fun rs => rfl⟩

/-- The number of requests under a key grows with each request that is forwarded with that path. -/
theorem record_total :
    ((recordCalls stats (processRequest env raw)).getOrCreate key).totalRequests =
      (stats.getOrCreate key).totalRequests +
        if forwardedPath env raw = some key then 1 else 0 := by
  obtain ⟨ctx, target, hpath, hcalls⟩ | ⟨hpath, hroutes⟩ := process_request_cases env raw
  · obtain ⟨report, hroutes, hreport⟩ := record_forward stats env raw ctx target
    rw [hcalls, hpath, GatewayStats.getOrCreate, hroutes]
    show (GatewayStats.getOrCreate (GatewayStats.update _ _ _) key).totalRequests = _
    rw [GatewayStats.get_or_create_update, GatewayStats.recordRequest]
    by_cases hkey : ctx.req.path = key
    · rw [if_pos hkey, hreport, GatewayStats.get_or_create_update, if_pos rfl, hkey, if_pos rfl]
    · rw [if_neg hkey, GatewayStats.get_or_create_update, if_neg hkey,
        if_neg fun h => hkey (Option.some.inj h), UInt64.add_zero]
  · rw [hpath, GatewayStats.getOrCreate, hroutes, if_neg (Option.some_ne_none key).symm,
      UInt64.add_zero]
    rfl

/-- The only new key is the path of a request that is forwarded. -/
theorem record_keys :
    ((recordCalls stats (processRequest env raw)).routes.find? key).isSome = true ↔
      forwardedPath env raw = some key ∨ (stats.routes.find? key).isSome = true := by
  obtain ⟨ctx, target, hpath, hcalls⟩ | ⟨hpath, hroutes⟩ := process_request_cases env raw
  · obtain ⟨report, hroutes, -⟩ := record_forward stats env raw ctx target
    rw [hcalls, hpath, hroutes, GatewayStats.recorded_update, GatewayStats.recordRequest,
      GatewayStats.recorded_update, Option.some_inj, ← or_assoc, or_self]
  · rw [hpath, hroutes]
    exact (or_iff_right (Option.some_ne_none key).symm).symm

/-! ## Some requests -/

variable {router : Router}

/-- The path of a request, if it is forwarded. -/
def Processed.path? (request : Processed router) : Option Bytes :=
  forwardedPath request.env request.raw

/-- The route that serves a request, if it is forwarded. -/
def Processed.route? (request : Processed router) : Option Route :=
  request.path?.bind fun path => router.routes.find? fun route => route.accepts path

/-- The number of requests under a key is that of the requests with that path. -/
theorem records_total (requests : List (Processed router)) (stats : GatewayStats) :
    ((recordRequests stats requests).getOrCreate key).totalRequests =
      (stats.getOrCreate key).totalRequests +
        UInt64.ofNat (requests.countP fun request => request.path? == some key) := by
  induction requests generalizing stats with
  | nil => exact (UInt64.add_zero _).symm
  | cons request requests ih =>
      show ((recordRequests (recordCalls stats _) requests).getOrCreate key).totalRequests = _
      rw [ih, record_total, List.countP_cons, UInt64.ofNat_add, UInt64.add_assoc]
      congr 1
      rw [UInt64.add_comm]
      congr 1
      by_cases hpath : forwardedPath request.env request.raw = some key
      · simp [Processed.path?, hpath]
      · simp [Processed.path?, hpath]

/-- The keys after some requests are the paths of those that are forwarded. -/
theorem records_keys (requests : List (Processed router)) (stats : GatewayStats) :
    ((recordRequests stats requests).routes.find? key).isSome = true ↔
      (∃ request ∈ requests, request.path? = some key) ∨
        (stats.routes.find? key).isSome = true := by
  induction requests generalizing stats with
  | nil => simp [recordRequests]
  | cons request requests ih =>
      show ((recordRequests (recordCalls stats _) requests).routes.find? key).isSome = true ↔ _
      rw [ih, record_keys, List.exists_mem_cons_iff, or_left_comm, or_assoc]
      rfl

/-- The names of the entries are the paths of the requests that have been forwarded. -/
theorem mem_records_iff (requests : List (Processed router)) :
    key ∈ (recordRequests {} requests).routes.entries.map Prod.fst ↔
      ∃ request ∈ requests, request.path? = some key := by
  rw [List.mem_map, ← SortedMap.find?_isSome_iff, records_keys]
  exact or_iff_left Bool.false_ne_true

/-! ## The configured routes -/

/-- The statistics are those of the routes: every key is a configured prefix, there are no more keys
than routes, and all requests that a route serves are counted under its prefix. -/
structure CountedByRoute (requests : List (Processed router)) (stats : GatewayStats) : Prop where
  configured : ∀ key ∈ stats.routes.entries.map Prod.fst, ∃ route ∈ router.routes, route.path = key
  bounded : stats.routes.entries.length ≤ router.routes.length
  counted : ∀ route ∈ router.routes, (stats.getOrCreate route.path).totalRequests =
    UInt64.ofNat (requests.countP fun request =>
      request.route?.map Route.path == some route.path)

variable {sort : StdSort comesBefore} {routes : List Route}

/-- A request for a configured prefix is served by the route of that prefix. -/
theorem route_of_configured {request : Processed (Router.create sort routes)} {path : Bytes}
    (hpath : request.path? = some path) (hroute : ∃ route ∈ routes, route.path = path) :
    request.route?.map Route.path = some path := by
  obtain ⟨own, hmem, rfl⟩ := hroute
  have hown : own.Matches own.path := ⟨List.prefix_refl _, .inl rfl⟩
  have hsome : (Router.create sort routes).matchPath own.path ≠ none := by
    rw [ne_eq, Router.match_eq_none_iff]
    exact fun hnone => hnone own hmem hown
  obtain ⟨route, hfind⟩ := Option.ne_none_iff_exists'.1 fun hnone =>
    hsome (congrArg (Option.map Route.backends) hnone)
  obtain ⟨-, hmatches, hlongest⟩ := Router.find_longest sort routes own.path hfind
  rw [Processed.route?, hpath, Option.bind_some, hfind, Option.map_some,
    hmatches.1.eq_of_length_le (hlongest own hmem hown)]

/-- Distinct configured prefixes are not more than the routes. -/
theorem bounded_of_configured {keys : List Bytes} {router : Router} (hnodup : keys.Nodup)
    (h : ∀ key ∈ keys, ∃ route ∈ router.routes, route.path = key) :
    keys.length ≤ router.routes.length := by
  have hsub : keys ⊆ router.routes.map Route.path := fun key hkey =>
    List.mem_map.2 (h key hkey)
  calc keys.length ≤ (router.routes.map Route.path).length :=
        (List.subperm_of_subset hnodup hsub).length_le
    _ = router.routes.length := List.length_map ..

/-- If every request asks for a configured prefix, those that a route serves are those with its
prefix as their path. -/
theorem count_of_configured {requests : List (Processed (Router.create sort routes))}
    (h : ∀ request ∈ requests, ∀ path, request.path? = some path →
      ∃ route ∈ routes, route.path = path) (key : Bytes) :
    (requests.countP fun request => request.path? == some key) =
      requests.countP fun request => request.route?.map Route.path == some key := by
  refine List.countP_congr fun request hrequest => ?_
  rw [beq_iff_eq, beq_iff_eq]
  cases hpath : request.path? with
  | none => simp [Processed.route?, hpath]
  | some path => rw [route_of_configured hpath (h request hrequest path hpath)]

/-- The statistics are those of the routes exactly if every request that is forwarded asks for a
configured prefix itself. -/
theorem route_stats_bounded_iff (sort : StdSort comesBefore) (routes : List Route)
    (requests : List (Processed (Router.create sort routes))) :
    CountedByRoute requests (recordRequests {} requests) ↔
      ∀ request ∈ requests, ∀ path, request.path? = some path →
        ∃ route ∈ routes, route.path = path := by
  have hroutes (path : Bytes) : (∃ route ∈ (Router.create sort routes).routes, route.path = path) ↔
      ∃ route ∈ routes, route.path = path := by
    simp only [Router.create, sort.mem_sort]
  constructor
  · intro h request hrequest path hpath
    rw [← hroutes]
    exact h.configured path ((mem_records_iff path requests).2 ⟨request, hrequest, hpath⟩)
  · intro h
    have hconfigured : ∀ key ∈ (recordRequests {} requests).routes.entries.map Prod.fst,
        ∃ route ∈ (Router.create sort routes).routes, route.path = key := by
      intro key hkey
      obtain ⟨request, hrequest, hpath⟩ := (mem_records_iff key requests).1 hkey
      exact (hroutes key).2 (h request hrequest key hpath)
    refine ⟨hconfigured, ?_, fun route _ => ?_⟩
    · rw [← List.length_map Prod.fst]
      exact bounded_of_configured (SortedMap.nodup_keys _) hconfigured
    · rw [records_total, count_of_configured h]
      exact UInt64.zero_add _

/-- A request for a path below `/api`, to a gateway with one route. -/
def getBelowApi (rest : Bytes) : Processed (Router.create sortRoutes [apiRoute]) where
  env :=
    { internalEndpoint := handleInternalEndpoint {} []
      filters := []
      route := (Router.create sortRoutes [apiRoute]).matchPath
      select := fun _ => { host := ascii "backend_A", port := 80 }
      allowRequest := fun _ => true
      forward := fun _ _ => ascii "HTTP/1.1 200 OK\r\nContent-Length: 0\r\n\r\n"
      elapsed := 0 }
  raw := ascii "GET /api" ++ rest ++ ascii " HTTP/1.1\r\n\r\n"
  routed := rfl
  answered := ⟨{}, [], rfl⟩

/-- Two requests that one route serves are counted under two keys, and none of these is the prefix
of the route. -/
theorem served_by_one_route :
    [getBelowApi (ascii "/1"), getBelowApi (ascii "/2")].map
        (fun request => request.route?.map Route.path) =
      [some (ascii "/api"), some (ascii "/api")] ∧
    (recordRequests {} [getBelowApi (ascii "/1"), getBelowApi (ascii "/2")]).routes.entries.map
        Prod.fst = [ascii "/api/1", ascii "/api/2"] ∧
    ¬ CountedByRoute [getBelowApi (ascii "/1"), getBelowApi (ascii "/2")]
        (recordRequests {} [getBelowApi (ascii "/1"), getBelowApi (ascii "/2")]) := by
  refine ⟨by decide, by decide, fun h => ?_⟩
  -- two entries, and one route
  exact absurd h.bounded (by decide)

end ApiGateway.Core
