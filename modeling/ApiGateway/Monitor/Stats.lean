import ApiGateway.Library.SortedMap
import ApiGateway.Utils.Ostream

/-!
# Statistics

`stats.cpp`: counters for every key under which requests are recorded, and the snapshots that are
taken of them. The map `routes_` only ever gains entries while the gateway runs. A snapshot holds
the mutex, which keeps the map as it is, and loads the counters one by one; others change them in
between.
-/

namespace ApiGateway.Monitor

/-- `struct RouteStats`. -/
structure RouteStats where
  totalRequests : UInt64 := 0
  successCount : UInt64 := 0
  errorCount : UInt64 := 0
  latencySumMs : UInt64 := 0
  latencyMaxMs : UInt64 := 0
  inFlight : UInt64 := 0
  deriving DecidableEq

/-- `avg_latency_ms`, of a sum and a number of latencies. -/
def avgLatencyMs (sum total : UInt64) : ℚ :=
  if total = 0 then 0 else toDouble (toDouble sum.toNat / toDouble total.toNat)

/-- `struct RouteSnapshot`. -/
structure RouteSnapshot extends RouteStats where
  avgLatencyMs : ℚ := 0

/-- `struct Snapshot`. -/
structure Snapshot where
  totalRequests : UInt64 := 0
  totalSuccess : UInt64 := 0
  totalErrors : UInt64 := 0
  avgLatencyMs : ℚ := 0
  maxLatencyMs : UInt64 := 0
  inFlight : UInt64 := 0
  upstreamErrors : UInt64 := 0
  circuitBreakerTrips : UInt64 := 0
  rateLimited : UInt64 := 0

/-- `class GatewayStats`. -/
structure GatewayStats where
  routes : SortedMap Bytes RouteStats := .empty
  upstreamErrors : UInt64 := 0
  cbTrips : UInt64 := 0
  rateLimited : UInt64 := 0

namespace GatewayStats

/-- `get_or_create`: the counters of a route, which start at zero. -/
def getOrCreate (stats : GatewayStats) (route : Bytes) : RouteStats :=
  (stats.routes.find? route).getD {}

/-- Changing the counters that `get_or_create` returns. -/
def update (stats : GatewayStats) (route : Bytes) (change : RouteStats → RouteStats) :
    GatewayStats :=
  { stats with routes := stats.routes.assign route (change (stats.getOrCreate route)) }

/-- `record_request`. -/
def recordRequest (stats : GatewayStats) (route : Bytes) (latencyMs : UInt64) : GatewayStats :=
  stats.update route fun rs =>
    { rs with
      totalRequests := rs.totalRequests + 1
      latencySumMs := rs.latencySumMs + latencyMs
      latencyMaxMs := if latencyMs > rs.latencyMaxMs then latencyMs else rs.latencyMaxMs
      inFlight := if rs.inFlight > 0 then rs.inFlight - 1 else rs.inFlight }

/-- `record_success`. -/
def recordSuccess (stats : GatewayStats) (route : Bytes) : GatewayStats :=
  stats.update route fun rs => { rs with successCount := rs.successCount + 1 }

/-- `record_error`. -/
def recordError (stats : GatewayStats) (route : Bytes) : GatewayStats :=
  stats.update route fun rs => { rs with errorCount := rs.errorCount + 1 }

/-- `inc_upstream_errors`. -/
def incUpstreamErrors (stats : GatewayStats) : GatewayStats :=
  { stats with upstreamErrors := stats.upstreamErrors + 1 }

/-- `inc_rate_limited`. -/
def incRateLimited (stats : GatewayStats) : GatewayStats :=
  { stats with rateLimited := stats.rateLimited + 1 }

/-- What the loads of a snapshot can give: the routes are those of the map, and as each counter is
loaded on its own, the values need not be those of any one moment. -/
def Loads (stats loaded : GatewayStats) : Prop :=
  loaded.routes.entries.map Prod.fst = stats.routes.entries.map Prod.fst

/-- `route_snapshot`, of the values that the loads give. The result is an `unordered_map`, whose
order of iteration is not fixed. -/
def routeSnapshot (stats : GatewayStats) : List (Bytes × RouteSnapshot) :=
  stats.routes.entries.map fun e =>
    (e.1, { e.2 with avgLatencyMs := avgLatencyMs e.2.latencySumMs e.2.totalRequests })

/-- The sum of a counter over all routes. -/
def sumOver (stats : GatewayStats) (counter : RouteStats → UInt64) : UInt64 :=
  (stats.routes.entries.map fun e => counter e.2).sum

/-- The loop of `global_snapshot` for the greatest latency. -/
def maxLatencyMs (stats : GatewayStats) : UInt64 :=
  stats.routes.entries.foldl (fun m e => if e.2.latencyMaxMs > m then e.2.latencyMaxMs else m) 0

/-- `global_snapshot`, of the values that the loads give. -/
def globalSnapshot (stats : GatewayStats) : Snapshot :=
  { totalRequests := stats.sumOver (·.totalRequests)
    totalSuccess := stats.sumOver (·.successCount)
    totalErrors := stats.sumOver (·.errorCount)
    avgLatencyMs := avgLatencyMs (stats.sumOver (·.latencySumMs)) (stats.sumOver (·.totalRequests))
    maxLatencyMs := stats.maxLatencyMs
    inFlight := stats.sumOver (·.inFlight)
    upstreamErrors := stats.upstreamErrors
    circuitBreakerTrips := stats.cbTrips
    rateLimited := stats.rateLimited }

variable (stats : GatewayStats) (route other : Bytes) (change : RouteStats → RouteStats)

/-- Changing the counters of a route leaves those of the others alone. -/
theorem get_or_create_update : (stats.update route change).getOrCreate other =
    if route = other then change (stats.getOrCreate route) else stats.getOrCreate other := by
  rw [getOrCreate, update, SortedMap.find?_assign]
  split
  · rfl
  · rfl

/-- The only key that can be new is that of the route. -/
theorem recorded_update : ((stats.update route change).routes.find? other).isSome = true ↔
    route = other ∨ (stats.routes.find? other).isSome = true := by
  rw [update, SortedMap.find?_assign]
  split
  · rename_i heq
    exact iff_of_true rfl (.inl heq)
  · rename_i hne
    exact (or_iff_right hne).symm

end GatewayStats

end ApiGateway.Monitor
