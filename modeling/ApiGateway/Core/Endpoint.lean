import ApiGateway.Core.Gateway
import ApiGateway.Monitor.Stats

/-!
# Internal endpoints

`handle_internal_endpoint` of `gateway.cpp`: the statistics as a JSON document, printed by hand, and
the health check. The two snapshots are arguments: they are taken one after the other while other
workers go on recording, and the order of the routes is that of an `unordered_map`.
-/

namespace ApiGateway.Core

open Monitor

/-- The counters of one route in the document. -/
def routeEntry (entry : Bytes × RouteSnapshot) : Bytes :=
  ascii "\"" ++ entry.1 ++ ascii "\":\x7b" ++
    ascii "\"requests\":" ++ putCounter entry.2.totalRequests ++ ascii "," ++
    ascii "\"success\":" ++ putCounter entry.2.successCount ++ ascii "," ++
    ascii "\"errors\":" ++ putCounter entry.2.errorCount ++ ascii "," ++
    ascii "\"avg_ms\":" ++ putDouble entry.2.avgLatencyMs ++
    ascii "\x7d"

/-- The loop over the routes, which writes a comma before every route but the first. -/
def routeEntries (first : Bool) : List (Bytes × RouteSnapshot) → Bytes
  | [] => []
  | entry :: rest =>
      (if first then [] else ascii ",") ++ routeEntry entry ++ routeEntries false rest

/-- The document of `/stats`. -/
def statsBody (snap : Snapshot) (routeStats : List (Bytes × RouteSnapshot)) : Bytes :=
  ascii "\x7b" ++
    ascii "\"total_requests\":" ++ putCounter snap.totalRequests ++ ascii "," ++
    ascii "\"total_success\":" ++ putCounter snap.totalSuccess ++ ascii "," ++
    ascii "\"total_errors\":" ++ putCounter snap.totalErrors ++ ascii "," ++
    ascii "\"avg_latency_ms\":" ++ putDouble snap.avgLatencyMs ++ ascii "," ++
    ascii "\"max_latency_ms\":" ++ putCounter snap.maxLatencyMs ++ ascii "," ++
    ascii "\"in_flight\":" ++ putCounter snap.inFlight ++ ascii "," ++
    ascii "\"upstream_errors\":" ++ putCounter snap.upstreamErrors ++ ascii "," ++
    ascii "\"circuit_breaker_trips\":" ++ putCounter snap.circuitBreakerTrips ++ ascii "," ++
    ascii "\"rate_limited\":" ++ putCounter snap.rateLimited ++
    (if routeStats.isEmpty then []
      else ascii ",\"routes\":\x7b" ++ routeEntries true routeStats ++ ascii "\x7d") ++
    ascii "\x7d"

/-- `handle_internal_endpoint`: the response, if the path is that of an internal endpoint. -/
def handleInternalEndpoint (snap : Snapshot) (routeStats : List (Bytes × RouteSnapshot))
    (path : Bytes) : Option Bytes :=
  if path = ascii "/stats" ∨ path = ascii "/stats/" then
    some (ascii "HTTP/1.1 200 OK\r\nContent-Type: application/json\r\nConnection: close\r\n\r\n" ++
      statsBody snap routeStats)
  else if path = ascii "/health" ∨ path = ascii "/health/" then
    some (ascii "HTTP/1.1 200 OK\r\nContent-Length: 2\r\nConnection: close\r\n\r\nOK")
  else none

/-- The paths of the internal endpoints. -/
def internalPaths : List Bytes :=
  [ascii "/stats", ascii "/stats/", ascii "/health", ascii "/health/"]

theorem internal_endpoint_iff {snap : Snapshot} {routeStats : List (Bytes × RouteSnapshot)}
    {path : Bytes} :
    (handleInternalEndpoint snap routeStats path).isSome = true ↔ path ∈ internalPaths := by
  simp only [handleInternalEndpoint, internalPaths, List.mem_cons, List.not_mem_nil, or_false]
  split
  · rename_i h
    exact ⟨fun _ => h.imp_right .inl, fun _ => rfl⟩
  · rename_i hstats
    rw [not_or] at hstats
    split
    · rename_i h
      exact ⟨fun _ => .inr (.inr h), fun _ => rfl⟩
    · rename_i hhealth
      rw [not_or] at hhealth
      simp [hstats, hhealth]

end ApiGateway.Core
