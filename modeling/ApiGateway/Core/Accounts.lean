import ApiGateway.Core.Traffic

/-!
# Clients and statistics

What the gateway admits and what it records, over the states of `Pipeline`. Every request that is
forwarded has taken a token of its client, so that the backends as a whole get no more requests of a
client than its bucket allows (`client_rate_bounded`). The statistics balance at any time: what is
recorded as a request and has not been recorded as a success or an error is at a worker between the
two (`stats_balance`).
-/

namespace ApiGateway.Core

open Http Monitor Proxy
open ApiGateway.Filter (RateLimitFilter)

/-- The client of a request, as the rate limiter tells it. -/
def clientOf (raw : Bytes) : Bytes :=
  Filter.extractClientIp { req := (parseHttpRequest raw {}).2 }

/-- The filters that a worker has still to ask before its request is forwarded. -/
def RequestStage.unasked (setup : Setup) : RequestStage → Option (List FilterKind)
  | .parsing => some setup.filters
  | .reporting _ => none
  | .filtering _ rest => some rest
  | .calling _ => none
  | _ => some []

namespace RequestWorker

variable {setup : Setup} {g g' : Shared} {w w' : RequestWorker}

/-! ## Tokens -/

/-- The time at which a worker has taken a token of a client. -/
def tokenTime? (client : Bytes) (w : RequestWorker) : Option ℚ :=
  w.token.bind fun d => if d.admitted ∧ d.key = client then some (d.time : ℚ) else none

/-- A worker has taken its token, if it has asked the rate limiter. -/
structure Paid (setup : Setup) (raw : Bytes) (token : Option RateLimitFilter.Decision)
    (rest : List FilterKind) : Prop where
  asked : token.isSome.toNat + rest.count .rateLimit = setup.filters.count .rateLimit
  token : ∀ d, token = some d → d.admitted = true ∧ d.key = clientOf raw

/-- What is known of the token of a worker. -/
structure Charged (setup : Setup) (w : RequestWorker) : Prop where
  asking : ∀ rest, w.stage.unasked setup = some rest → Paid setup w.raw w.token rest
  forwarded : ∀ b, .onConnect b ∈ w.calls → Paid setup w.raw w.token []

/-- What a step can do with the rate limiter: nothing, or one request. -/
inductive LimiterUse (g : Shared) (w : RequestWorker) : Shared → RequestWorker → Prop where
  | none {g' : Shared} {w' : RequestWorker} (hlimiter : g'.limiter = g.limiter)
      (htoken : w'.token = w.token) : LimiterUse g w g' w'
  | request {w' : RequestWorker} {ctx : FilterContext} {rest : List FilterKind} {admitted : Bool}
      {limiter : RateLimitFilter} (hstage : w.stage = .filtering ctx (.rateLimit :: rest))
      (h : g.limiter.onRequest ctx g.clock = (admitted, limiter))
      (htoken : w'.token = some ⟨g.limiter.keyOf ctx, g.clock, admitted⟩) :
      LimiterUse g w { g with limiter := limiter } w'

theorem limiter_use (h : Step setup g w g' w') : LimiterUse g w g' w' := by
  cases h with
  | grant hstage hgrant => exact .request hstage hgrant rfl
  | refuse hstage hrefuse => exact .request hstage hrefuse rfl
  | @call call rest hstage =>
      refine .none ?_ rfl
      cases call <;> rfl
  | _ => exact .none rfl rfl

/-- The limiter tells the client from the request alone. -/
theorem Follows.client_eq (hw : Follows setup w w.stage) {ctx : FilterContext}
    {rest : List FilterKind}
    (hstage : w.stage = .filtering ctx rest) : Filter.extractClientIp ctx = clientOf w.raw := by
  rw [hstage] at hw
  cases hw with
  | filtering _ hpassed =>
      show Filter.extractClientIp { req := ctx.req } = _
      rw [hpassed.req]
      rfl

/-- A step that does not ask the limiter and does not connect. -/
theorem Charged.keep (hw : Charged setup w) (hraw : w'.raw = w.raw) (htoken : w'.token = w.token)
    (hcalls : ∀ b, .onConnect b ∈ w'.calls → .onConnect b ∈ w.calls)
    (hasking : ∀ rest, w'.stage.unasked setup = some rest → ∃ rest',
      w.stage.unasked setup = some rest' ∧ rest'.count .rateLimit = rest.count .rateLimit) :
    Charged setup w' where
  asking rest hrest := by
    obtain ⟨rest', hrest', hcount⟩ := hasking rest hrest
    have hpaid := hw.asking rest' hrest'
    rw [hraw, htoken]
    exact ⟨hcount ▸ hpaid.asked, hpaid.token⟩
  forwarded b hb := by
    rw [hraw, htoken]
    exact hw.forwarded b (hcalls b hb)

/-- A request is paid for when it is forwarded. -/
theorem Charged.step (hw : Charged setup w) (hfollows : Follows setup w w.stage)
    (hextract : g.limiter.keyExtractor = some Filter.extractClientIp) (h : Step setup g w g' w') :
    Charged setup w' := by
  cases h with
  | malformed hstage | snapshot hstage | stats hstage | health hstage | parse hstage
  | noRoute hstage | route hstage | select hstage | lookUp hstage | allow hstage | reject hstage
  | forward hstage | measure hstage =>
      exact hw.keep rfl rfl (fun _ hb => hb) (by simp [RequestStage.unasked, hstage])
  | requestId hstage | logging hstage =>
      exact hw.keep rfl rfl (fun _ hb => hb) (by simp [RequestStage.unasked, hstage, ask])
  | @grant ctx rest limiter hstage =>
      have hpaid := hw.asking _ (by rw [hstage]; rfl)
      have hcount := hpaid.asked
      have hone := setup.limiters
      rw [List.count_cons_self] at hcount
      -- no other limiter has been asked before, and none will be
      refine ⟨fun others hothers => ?_, fun b hb => ?_⟩
      · cases hothers
        refine ⟨?_, fun d hd => ?_⟩
        · show 1 + rest.count .rateLimit = _
          omega
        · cases hd
          refine ⟨rfl, ?_⟩
          show g.limiter.keyOf ctx = clientOf w.raw
          rw [RateLimitFilter.keyOf, hextract]
          exact hfollows.client_eq hstage
      · rw [hstage] at hfollows
        cases hfollows with
        | filtering hcalls =>
            have hb' : Call.onConnect b ∈ w.calls := hb
            rw [hcalls] at hb'
            cases hb'
  | refuse hstage =>
      rw [hstage] at hfollows
      cases hfollows with
      | filtering hcalls =>
          refine ⟨fun rest hrest => ?_, fun b hb => ?_⟩
          · cases hrest
          · have hb' : Call.onConnect b ∈ w.calls := hb
            rw [hcalls] at hb'
            cases hb'
  | connect hstage =>
      have hpaid := hw.asking [] (by rw [hstage]; rfl)
      refine ⟨fun rest hrest => ?_, fun _ _ => hpaid⟩
      cases hrest
      exact hpaid
  | disconnect hstage =>
      exact hw.keep rfl rfl (by simp [made]) (by simp [RequestStage.unasked, hstage, made])
  | @call call rest hstage =>
      have hcall : ∀ b, call ≠ .onConnect b := by
        intro b hb
        rw [hstage] at hfollows
        cases hfollows with
        | calling _ hrest =>
            have hbalancing := hrest call List.mem_cons_self
            rw [hb] at hbalancing
            cases hbalancing
      refine hw.keep rfl rfl (fun b hb => ?_) (by simp [RequestStage.unasked, made])
      rcases List.mem_append.1 hb with hb | hb
      · exact hb
      · exact absurd (List.mem_singleton.1 hb).symm (hcall b)

/-- The limiter is asked once. -/
theorem Charged.fresh (hw : Charged setup w) {ctx : FilterContext} {rest : List FilterKind}
    (hstage : w.stage = .filtering ctx (.rateLimit :: rest)) : w.token = none := by
  have hcount := (hw.asking _ (by rw [hstage]; rfl)).asked
  have hone := setup.limiters
  rw [List.count_cons_self] at hcount
  cases htoken : w.token with
  | none => rfl
  | some d =>
      rw [htoken, Option.isSome_some, Bool.toNat_true] at hcount
      omega

end RequestWorker

namespace Pipeline

open RequestWorker

variable {setup : Setup} {rate burst : Int} {s t : Pipeline} {client : Bytes}

/-! ## The rate of a client -/

/-- The limiter keeps its parameters, and every worker has paid for its request. -/
structure Limited (setup : Setup) (rate burst : Int) (s : Pipeline) : Prop where
  parameters : RateLimitFilter.SameSetup (.create rate burst (some Filter.extractClientIp))
    s.shared.limiter
  charged : ∀ w ∈ s.workers, w.Charged setup

theorem same_setup_use {limiter : RateLimitFilter} {g g' : Shared} {w w' : RequestWorker}
    (hg : RateLimitFilter.SameSetup limiter g.limiter) (h : LimiterUse g w g' w') :
    RateLimitFilter.SameSetup limiter g'.limiter := by
  cases h with
  | none hlimiter => rwa [hlimiter]
  | @request w' ctx rest admitted limiter' _ hrequest =>
      have hsame := RateLimitFilter.same_setup_on_request g.limiter ctx g.clock
      rw [hrequest] at hsame
      exact ⟨hsame.rate.trans hg.rate, hsame.burst.trans hg.burst,
        hsame.keyExtractor.trans hg.keyExtractor⟩

theorem limited_reachable (h : Reachable setup rate burst s) : Limited setup rate burst s := by
  induction h with
  | refl => exact ⟨⟨rfl, rfl, rfl⟩, by simp⟩
  | tail hrun hstep ih =>
      cases hstep with
      | start raw =>
          refine ⟨ih.parameters, fun w hw => ?_⟩
          rcases List.mem_append.1 hw with hw | hw
          · exact ih.charged w hw
          · rw [List.mem_singleton.1 hw]
            refine ⟨fun rest hrest => ?_, fun b hb => by cases hb⟩
            cases hrest
            exact ⟨Nat.zero_add _, fun d hd => by cases hd⟩
      | elapse => exact ⟨ih.parameters, ih.charged⟩
      | cleanup => exact ⟨⟨ih.parameters.rate, ih.parameters.burst, ih.parameters.keyExtractor⟩,
          ih.charged⟩
      | work hw hwork =>
          refine ⟨same_setup_use ih.parameters (limiter_use hwork), fun v hv => ?_⟩
          rcases List.mem_or_eq_of_mem_set hv with hv | rfl
          · exact ih.charged v hv
          · have hmem := List.mem_of_getElem? hw
            exact (ih.charged _ hmem).step ((inv_reachable hrun).follows _ hmem)
              ih.parameters.keyExtractor hwork

/-- The bucket of a client and the tokens that have been taken from it. -/
def Metering (client : Bytes) (s : Pipeline) : Prop :=
  ∃ b : TokenBucket.Bucket ℚ, s.shared.limiter.Tracks client s.shared.clock b ∧
    TokenBucket.Metered s.shared.limiter.tokenPerNs s.shared.limiter.burst b s.shared.clock
      (s.workers.filterMap (tokenTime? client))

/-- A worker whose token has not changed. -/
theorem tokens_set_same {workers : List RequestWorker} {i : Nat} {w w' : RequestWorker}
    (hw : workers[i]? = some w) (h : tokenTime? client w' = tokenTime? client w) :
    ((workers.set i w').filterMap (tokenTime? client)).Perm
      (workers.filterMap (tokenTime? client)) := by
  have hperm := Table.filterMap_set_perm hw w' (tokenTime? client)
  rw [h] at hperm
  exact (List.perm_append_left_iff _).1 hperm

/-- A worker that has taken its first token. -/
theorem tokens_set_new {workers : List RequestWorker} {i : Nat} {w w' : RequestWorker} {time : ℚ}
    (hw : workers[i]? = some w) (hold : tokenTime? client w = none)
    (hnew : tokenTime? client w' = some time) :
    ((workers.set i w').filterMap (tokenTime? client)).Perm
      (time :: workers.filterMap (tokenTime? client)) := by
  have hperm := Table.filterMap_set_perm hw w' (tokenTime? client)
  rwa [hold, hnew] at hperm

variable {i : Nat} {w w' : RequestWorker} {g : Shared}

theorem metering_use (hrate : 0 < s.shared.limiter.rate) (hburst : 0 ≤ s.shared.limiter.burst)
    (hclient : client ≠ []) (hs : Metering client s) (hw : s.workers[i]? = some w)
    (hcharged : w.Charged setup) (hclock : g.clock = s.shared.clock)
    (h : LimiterUse s.shared w g w') :
    Metering client { shared := g, workers := s.workers.set i w' } := by
  obtain ⟨b, htracks, hmetered⟩ := hs
  cases h with
  | none hlimiter htoken =>
      refine ⟨b, ?_, ?_⟩
      · show RateLimitFilter.Tracks g.limiter client g.clock b
        rw [hlimiter, hclock]
        exact htracks
      · have hsame : tokenTime? client w' = tokenTime? client w := by
          rw [tokenTime?, htoken]
          rfl
        show TokenBucket.Metered g.limiter.tokenPerNs g.limiter.burst b g.clock _
        rw [hlimiter, hclock]
        exact hmetered.perm (tokens_set_same hw hsame)
  | @request w' ctx rest admitted limiter hstage hrequest htoken =>
      have hold : tokenTime? client w = none := by rw [tokenTime?, hcharged.fresh hstage]; rfl
      have hsame := RateLimitFilter.same_setup_on_request s.shared.limiter ctx s.shared.clock
      rw [hrequest] at hsame
      have hparameters : limiter.tokenPerNs = s.shared.limiter.tokenPerNs := hsame.token_per_ns
      by_cases hkey : s.shared.limiter.keyOf ctx = client
      · -- the bucket of the client decides
        have htake := htracks.take_token hrate hburst le_rfl
        rw [← hkey, ← RateLimitFilter.on_request_eq hrate (hkey ▸ hclient), hrequest, hkey] at htake
        obtain ⟨hdecision, htracks'⟩ := htake
        refine ⟨_, htracks', ?_⟩
        show TokenBucket.Metered limiter.tokenPerNs limiter.burst _ _ _
        rw [hparameters, hsame.burst]
        cases admitted with
        | true =>
            have hnew : tokenTime? client w' = some (s.shared.clock : ℚ) := by
              simp [tokenTime?, htoken, hkey]
            exact (hmetered.grant (RateLimitFilter.token_per_ns_nonneg hrate)
              (Int.cast_nonneg hburst) htracks.tokens htracks.last hdecision.symm).perm
                (tokens_set_new hw hold hnew)
        | false =>
            have hnew : tokenTime? client w' = none := by simp [tokenTime?, htoken]
            exact (hmetered.refuse hdecision.symm).perm (tokens_set_same hw (hnew.trans hold.symm))
      · have hbuckets := RateLimitFilter.token_buckets_on_request hkey s.shared.clock
        rw [hrequest] at hbuckets
        refine ⟨b, htracks.mono le_rfl hsame.rate hsame.burst hbuckets, ?_⟩
        have hnew : tokenTime? client w' = none := by simp [tokenTime?, htoken, hkey]
        show TokenBucket.Metered limiter.tokenPerNs limiter.burst _ _ _
        rw [hparameters, hsame.burst]
        exact hmetered.perm (tokens_set_same hw (hnew.trans hold.symm))

theorem metering_reachable (hrate : 0 < rate) (hburst : 0 ≤ burst) (hidle : burst ≤ rate * 300)
    (hclient : client ≠ []) (h : Reachable setup rate burst s) : Metering client s := by
  induction h with
  | refl =>
      have htracks := RateLimitFilter.tracks_create hrate hburst (some Filter.extractClientIp)
        client 0
      refine ⟨_, htracks, .start ?_ (Int.cast_nonneg hburst) _ _⟩
      exact RateLimitFilter.token_per_ns_nonneg hrate
  | @tail u _ hrun hstep ih =>
      have hlimited := limited_reachable hrun
      have hrate' : 0 < u.shared.limiter.rate := hlimited.parameters.rate ▸ hrate
      have hburst' : 0 ≤ u.shared.limiter.burst := hlimited.parameters.burst ▸ hburst
      cases hstep with
      | start raw =>
          have hnew : tokenTime? client { raw := raw } = none := rfl
          simpa [Metering, hnew] using ih
      | @elapse now hclock =>
          obtain ⟨b, htracks, hmetered⟩ := ih
          refine ⟨b, htracks.mono hclock rfl rfl rfl, hmetered.elapse ?_ (Int.cast_le.2 hclock)⟩
          exact RateLimitFilter.token_per_ns_nonneg hrate'
      | cleanup =>
          obtain ⟨b, htracks, hmetered⟩ := ih
          have hidle' : u.shared.limiter.burst ≤ u.shared.limiter.rate * 300 := by
            rw [hlimited.parameters.rate, hlimited.parameters.burst]
            exact hidle
          exact ⟨b, htracks.cleanup hrate' le_rfl hidle', hmetered⟩
      | work hw hwork =>
          exact metering_use hrate' hburst' hclient ih hw
            (hlimited.charged _ (List.mem_of_getElem? hw)) (clock_step hwork) (limiter_use hwork)

/-- Whether a worker has forwarded a request of a client for which the token was taken between two
times. -/
def forwardedIn (client : Bytes) (a e : ℚ) (w : RequestWorker) : Bool :=
  w.calls.any Call.isBalancing && decide (clientOf w.raw = client) &&
    (w.tokenTime? client).any fun time => a ≤ time ∧ time ≤ e

/-- Behind a rate limiter whose buckets are full again before they are removed, every request of a
known client that is forwarded has taken a token of this client; and of the requests that take their
tokens in a window of time, all workers and all backends together, no more are forwarded than the
burst and what the rate adds during the window. -/
theorem client_rate_bounded (setup : Setup) (hlimiter : .rateLimit ∈ setup.filters)
    (rate burst : Int) (hrate : 0 < rate) (hburst : 0 ≤ burst) (hidle : burst ≤ rate * 300)
    (s : Pipeline) (h : Reachable setup rate burst s) (client : Bytes) (hclient : client ≠ []) :
    (∀ w ∈ s.workers, ∀ b, .onConnect b ∈ w.calls → clientOf w.raw = client →
      (w.tokenTime? client).isSome = true) ∧
      ∀ a e : ℚ, a ≤ e →
        (s.workers.countP (forwardedIn client a e) : ℚ) ≤ burst + rate * (e - a) / 10 ^ 9 := by
  have hlimited := limited_reachable h
  refine ⟨fun w hw b hb hname => ?_, fun a e hae => ?_⟩
  · have hpaid := (hlimited.charged w hw).forwarded b hb
    have hcount : 0 < setup.filters.count .rateLimit := List.count_pos_iff.2 hlimiter
    have hasked := hpaid.asked
    cases htoken : w.token with
    | none =>
        rw [htoken] at hasked
        simp at hasked
        omega
    | some d =>
        obtain ⟨hadmitted, hkey⟩ := hpaid.token d htoken
        simp [tokenTime?, htoken, hadmitted, hkey, hname]
  · obtain ⟨b, -, hmetered⟩ := metering_reachable hrate hburst hidle hclient h
    have hparameters : s.shared.limiter.tokenPerNs = rate / 10 ^ 9 := by
      rw [RateLimitFilter.tokenPerNs, hlimited.parameters.rate]
      rfl
    have hfew : s.workers.countP (forwardedIn client a e) ≤
        (s.workers.filterMap (tokenTime? client)).countP fun time => a ≤ time ∧ time ≤ e := by
      rw [List.countP_filterMap]
      refine List.countP_mono_left fun w _ hw => ?_
      rw [forwardedIn, Bool.and_eq_true] at hw
      cases htime : w.tokenTime? client with
      | none => simp [htime] at hw
      | some time =>
          rw [htime] at hw
          exact hw.2
    calc (s.workers.countP (forwardedIn client a e) : ℚ)
        ≤ (s.workers.filterMap (tokenTime? client)).countP fun time => a ≤ time ∧ time ≤ e :=
          Nat.cast_le.2 hfew
      _ ≤ s.shared.limiter.burst + s.shared.limiter.tokenPerNs * (e - a) :=
          hmetered.window a e hae
      _ = burst + rate * (e - a) / 10 ^ 9 := by
          rw [hparameters, hlimited.parameters.burst]
          show (burst : ℚ) + rate / 10 ^ 9 * (e - a) = _
          ring

/-- A gateway that does nothing to a request but limit its rate. -/
def limitedSetup : Setup where
  router := Router.create sortRoutes [apiRoute]
  filters := [.rateLimit]
  backendTimeoutMs := 3000
  limiters := by decide

theorem client_rate_bounded_one : ∃ s, Reachable limitedSetup 100 200 s ∧
    s.workers.countP (forwardedIn (ascii "10.0.0.1") 0 1) = 1 ∧
    (s.workers.countP (forwardedIn (ascii "10.0.0.1") 0 1) : ℚ) ≤
      200 + 100 * (1 - 0) / 10 ^ 9 := by
  obtain ⟨hparsed, hpath, hinternal⟩ := client_request_parsed
  have hclient : clientOf clientRequest = ascii "10.0.0.1" := by decide
  have hroute : limitedSetup.router.matchPath (parseHttpRequest clientRequest {}).2.path =
      some [apiBackend] := by
    rw [hpath]
    decide
  have hkey : (RateLimitFilter.create 100 200 (some Filter.extractClientIp)).keyOf
      { req := (parseHttpRequest clientRequest {}).2 } = ascii "10.0.0.1" := hclient
  have hgrant : ((RateLimitFilter.create 100 200 (some Filter.extractClientIp)).onRequest
      { req := (parseHttpRequest clientRequest {}).2 } 0).1 = true :=
    first_granted (by rw [hkey]; decide)
  have hparse : WorkerRun limitedSetup
      { limiter := .create 100 200 (some Filter.extractClientIp) } { raw := clientRequest } _ _ :=
    .tail .refl (.parse rfl hparsed hinternal)
  have hrouted := (hparse.tail (.grant rfl (Prod.ext hgrant rfl))).tail (.route rfl hroute)
  have hasks := (hrouted.tail (.select rfl)).tail (.lookUp rfl)
  have hconnect := (hasks.tail (.allow rfl (by rw [breaker_look_up]; rfl))).tail (.connect rfl)
  have hs : Reachable limitedSetup 100 200 _ := WorkerRun.reachable .refl hconnect
  have hcount : ∀ w : RequestWorker, w.calls.any Call.isBalancing = true → w.raw = clientRequest →
      w.token = some ⟨ascii "10.0.0.1", 0, true⟩ →
      [w].countP (forwardedIn (ascii "10.0.0.1") 0 1) = 1 := by
    intro w hcalls hraw htoken
    simp [forwardedIn, hcalls, hraw, hclient, tokenTime?, htoken]
  refine ⟨_, hs, hcount _ rfl rfl ?_, ?_⟩
  · exact congrArg (fun key => some (RateLimitFilter.Decision.mk key 0 true)) hkey
  · exact (client_rate_bounded limitedSetup (by decide) 100 200 (by decide) (by decide)
      (by decide) _
      hs (ascii "10.0.0.1") (by decide)).2 0 1 (by decide)

end Pipeline

/-! ## The statistics -/

namespace Call

/-- A request is recorded. -/
def isRecord : Call → Bool
  | .recordRequest _ _ => true
  | _ => false

/-- A success is recorded. -/
def isSuccess : Call → Bool
  | .recordSuccess _ => true
  | _ => false

/-- An error is recorded. -/
def isError : Call → Bool
  | .recordError _ => true
  | _ => false

/-- A success or an error is recorded. -/
def isOutcome (call : Call) : Bool :=
  call.isSuccess || call.isError

/-- An error of a backend is recorded. -/
def isUpstream : Call → Bool
  | .incUpstreamErrors => true
  | _ => false

/-- A refusal is recorded. -/
def isRefusal : Call → Bool
  | .incRateLimited => true
  | _ => false

theorem outcome_to_nat (call : Call) :
    call.isOutcome.toNat = call.isSuccess.toNat + call.isError.toNat := by
  cases call <;> rfl

end Call

section Snapshot

variable (stats : GatewayStats) (route : Bytes) (change : RouteStats → RouteStats)

/-- What changing the counters of one route changes in a sum over all routes. -/
theorem sum_update (f : RouteStats → UInt64) (hf : f {} = 0) :
    (stats.update route change).sumOver f +
        f (stats.getOrCreate route) =
      stats.sumOver f + f (change (stats.getOrCreate route)) := by
  have hsum := SortedMap.sum_assign f stats.routes route (change (stats.getOrCreate route))
  have hold : ((stats.routes.find? route).map f).getD 0 = f (stats.getOrCreate route) := by
    rw [GatewayStats.getOrCreate]
    cases stats.routes.find? route with
    | none => exact hf.symm
    | some rs => rfl
  rwa [hold] at hsum

/-- A sum over all routes grows by what is added to one of them. -/
theorem sum_update_add (f : RouteStats → UInt64) (hf : f {} = 0) (n : UInt64)
    (hchange : ∀ rs, f (change rs) = f rs + n) :
    (stats.update route change).sumOver f =
      stats.sumOver f + n := by
  have hsum := sum_update stats route change f hf
  rw [hchange] at hsum
  grind

end Snapshot

/-- What a call adds to the totals of the statistics. -/
structure Tallies (stats stats' : GatewayStats) (call : Call) : Prop where
  total : stats'.sumOver (·.totalRequests) =
    stats.sumOver (·.totalRequests) + UInt64.ofNat call.isRecord.toNat
  success : stats'.sumOver (·.successCount) =
    stats.sumOver (·.successCount) + UInt64.ofNat call.isSuccess.toNat
  error : stats'.sumOver (·.errorCount) =
    stats.sumOver (·.errorCount) + UInt64.ofNat call.isError.toNat
  upstream : stats'.upstreamErrors = stats.upstreamErrors + UInt64.ofNat call.isUpstream.toNat
  limited : stats'.rateLimited = stats.rateLimited + UInt64.ofNat call.isRefusal.toNat
  trips : stats'.cbTrips = stats.cbTrips

theorem record_tallies (stats : GatewayStats) (call : Call) :
    Tallies stats (call.record stats) call := by
  cases call with
  | recordRequest path elapsed =>
      exact ⟨sum_update_add _ _ _ (·.totalRequests) rfl 1 fun _ => rfl,
        sum_update_add _ _ _ (·.successCount) rfl 0 fun _ => (UInt64.add_zero _).symm,
        sum_update_add _ _ _ (·.errorCount) rfl 0 fun _ => (UInt64.add_zero _).symm,
        (UInt64.add_zero _).symm, (UInt64.add_zero _).symm, rfl⟩
  | recordSuccess path =>
      exact ⟨sum_update_add _ _ _ (·.totalRequests) rfl 0 fun _ => (UInt64.add_zero _).symm,
        sum_update_add _ _ _ (·.successCount) rfl 1 fun _ => rfl,
        sum_update_add _ _ _ (·.errorCount) rfl 0 fun _ => (UInt64.add_zero _).symm,
        (UInt64.add_zero _).symm, (UInt64.add_zero _).symm, rfl⟩
  | recordError path =>
      exact ⟨sum_update_add _ _ _ (·.totalRequests) rfl 0 fun _ => (UInt64.add_zero _).symm,
        sum_update_add _ _ _ (·.successCount) rfl 0 fun _ => (UInt64.add_zero _).symm,
        sum_update_add _ _ _ (·.errorCount) rfl 1 fun _ => rfl,
        (UInt64.add_zero _).symm, (UInt64.add_zero _).symm, rfl⟩
  | incUpstreamErrors =>
      exact ⟨(UInt64.add_zero _).symm, (UInt64.add_zero _).symm, (UInt64.add_zero _).symm, rfl,
        (UInt64.add_zero _).symm, rfl⟩
  | incRateLimited =>
      exact ⟨(UInt64.add_zero _).symm, (UInt64.add_zero _).symm, (UInt64.add_zero _).symm,
        (UInt64.add_zero _).symm, rfl, rfl⟩
  | onConnect | onDisconnect | onSuccess | onFailure | send =>
      exact ⟨(UInt64.add_zero _).symm, (UInt64.add_zero _).symm, (UInt64.add_zero _).symm,
        (UInt64.add_zero _).symm, (UInt64.add_zero _).symm, rfl⟩

namespace RequestWorker

variable {setup : Setup} {g g' : Shared} {w w' : RequestWorker}

/-- The calls of a kind that a worker has ahead and that depend on nothing any more. -/
def ahead (p : Call → Bool) (w : RequestWorker) : Nat :=
  match w.stage with
  | .calling rest => rest.countP p
  | _ => 0

/-- Whether the rate limiter has refused the request of a worker. -/
def refused (w : RequestWorker) : Bool :=
  w.token.any fun d => !d.admitted

/-- What a step does to the statistics and to the calls ahead: it makes one of these calls, or it
decides on all of them, and then each record has its outcome and each error its second counter. -/
inductive StatsUse (g : Shared) (w : RequestWorker) : Shared → RequestWorker → Prop where
  | decide {g' : Shared} {w' : RequestWorker} (hstats : g'.stats = g.stats)
      (hbefore : ∀ p, w.ahead p = 0)
      (houtcome : w'.ahead Call.isOutcome = w'.ahead Call.isRecord)
      (hupstream : w'.ahead Call.isUpstream = w'.ahead Call.isError)
      (hrefused : w'.ahead Call.isRefusal + w.refused.toNat = w'.refused.toNat) :
      StatsUse g w g' w'
  | call {g' : Shared} {w' : RequestWorker} (call : Call) (hstats : Tallies g.stats g'.stats call)
      (hahead : ∀ p, w.ahead p = w'.ahead p + (p call).toNat) (hrefused : w'.refused = w.refused) :
      StatsUse g w g' w'

theorem count_forward_outcomes (env : Environment) (ctx : FilterContext) (target : Backend)
    (raw : Bytes) :
    let rest := (forwardRequest env ctx target raw).drop 2
    rest.countP Call.isOutcome = rest.countP Call.isRecord ∧
      rest.countP Call.isUpstream = rest.countP Call.isError ∧ rest.countP Call.isRefusal = 0 := by
  simp only [forwardRequest]
  split <;> exact ⟨rfl, rfl, rfl⟩

theorem stats_use (hcharged : Charged setup w) (h : Step setup g w g' w') :
    StatsUse g w g' w' := by
  cases h with
  | malformed hstage | snapshot hstage | stats hstage | health hstage | parse hstage
  | requestId hstage | logging hstage | noRoute hstage | route hstage | select hstage
  | lookUp hstage | allow hstage | reject hstage | connect hstage | forward hstage
  | disconnect hstage =>
      refine .decide rfl (fun p => by simp [ahead, hstage]) ?_ ?_ ?_ <;>
        simp [ahead, refused, ask, made, sendErrorAndClose, Call.isOutcome, Call.isRecord,
          Call.isUpstream, Call.isError, Call.isSuccess, Call.isRefusal]
  | grant hstage | refuse hstage =>
      -- the limiter has not been asked before
      have hbefore : w.refused = false := by rw [refused, hcharged.fresh hstage]; rfl
      refine .decide rfl (fun p => by simp [ahead, hstage]) rfl rfl ?_
      rw [hbefore]
      rfl
  | measure hstage hanswers =>
      obtain ⟨houtcome, hupstream, hrefusal⟩ := count_forward_outcomes _ _ _ _
      refine .decide rfl (fun p => by simp [ahead, hstage]) houtcome hupstream ?_
      exact (congrArg (· + _) hrefusal).trans (Nat.zero_add _)
  | @call call rest hstage =>
      refine .call call ?_ (fun p => by simp only [ahead, hstage, made, Table.countP_cons]) rfl
      have htallies := record_tallies g.stats call
      cases call <;> exact htallies

/-- Whether a request has been recorded and its outcome has not. -/
def awaitsOutcome (rest : List Call) : Bool :=
  rest.any Call.isOutcome && !rest.any Call.isRecord

/-- Whether an error has been recorded for the route and not yet for the backends. -/
def awaitsUpstream (rest : List Call) : Bool :=
  rest.any Call.isUpstream && !rest.any Call.isError

/-- The order of the calls ahead: a request is recorded before its outcome, and an error for the
route before the error of the backend. -/
def Orderly (rest : List Call) : Prop :=
  ∀ later, later <:+ rest →
    later.countP Call.isOutcome = later.countP Call.isRecord + (awaitsOutcome later).toNat ∧
      later.countP Call.isUpstream = later.countP Call.isError + (awaitsUpstream later).toNat

theorem Orderly.tail {call : Call} {rest : List Call} (h : Orderly (call :: rest)) : Orderly rest :=
  fun later hlater => h later (hlater.trans (List.suffix_cons call rest))

theorem orderly_forward (env : Environment) (ctx : FilterContext) (target : Backend) (raw : Bytes) :
    Orderly ((forwardRequest env ctx target raw).drop 2) := by
  intro later hlater
  simp only [forwardRequest] at hlater
  split at hlater <;>
    simp only [List.cons_append, List.nil_append, List.drop_succ_cons, List.drop_zero,
      List.suffix_cons_iff, List.suffix_nil] at hlater
  · rcases hlater with rfl | rfl | rfl | rfl | rfl <;> exact ⟨rfl, rfl⟩
  · rcases hlater with rfl | rfl | rfl | rfl | rfl | rfl <;> exact ⟨rfl, rfl⟩

/-- Calls that record neither requests nor errors. -/
theorem orderly_of_none {rest : List Call}
    (h : ∀ call ∈ rest, call.isRecord = false ∧ call.isOutcome = false ∧ call.isUpstream = false) :
    Orderly rest := by
  intro later hlater
  have hnone : ∀ p : Call → Bool, (∀ call ∈ rest, p call = false) →
      later.countP p = 0 ∧ later.any p = false := by
    intro p hp
    have hp' : ∀ call ∈ later, ¬ p call = true := fun call hcall => by
      simp [hp call (hlater.subset hcall)]
    exact ⟨List.countP_eq_zero.2 hp', by simpa using hp'⟩
  have herror : ∀ call ∈ rest, call.isError = false := fun call hcall =>
    (Bool.or_eq_false_iff.1 (h call hcall).2.1).2
  obtain ⟨hrecord, -⟩ := hnone _ fun call hcall => (h call hcall).1
  obtain ⟨houtcome, hany⟩ := hnone _ fun call hcall => (h call hcall).2.1
  obtain ⟨hupstream, hany'⟩ := hnone _ fun call hcall => (h call hcall).2.2
  obtain ⟨herrors, -⟩ := hnone _ herror
  simp [hrecord, houtcome, hupstream, herrors, awaitsOutcome, awaitsUpstream, hany, hany']

/-- The calls that a worker has ahead are in order. -/
def InOrder (w : RequestWorker) : Prop :=
  ∀ rest, w.stage = .calling rest → Orderly rest

theorem InOrder.step (hw : InOrder w) (h : Step setup g w g' w') : InOrder w' := by
  cases h with
  | malformed | stats | health | noRoute | reject =>
      intro rest hrest
      cases hrest
      exact orderly_of_none (by
        simp [sendErrorAndClose, Call.isRecord, Call.isOutcome, Call.isUpstream, Call.isSuccess,
          Call.isError])
  | refuse =>
      intro rest hrest
      cases hrest
      exact orderly_of_none (by
        simp [refusal, sendErrorAndClose, Call.isRecord, Call.isOutcome, Call.isUpstream,
          Call.isSuccess, Call.isError])
  | measure =>
      intro rest hrest
      cases hrest
      exact orderly_forward _ _ _ _
  | call hstage =>
      intro rest hrest
      cases hrest
      exact (hw _ hstage).tail
  | _ =>
      intro rest hrest
      cases hrest

end RequestWorker

namespace Pipeline

open RequestWorker

variable {setup : Setup} {rate burst : Int} {s t : Pipeline}

/-- The calls of a kind that all workers have ahead. -/
def allAhead (p : Call → Bool) (s : Pipeline) : Nat :=
  (s.workers.map (ahead p)).sum

/-- The totals of the statistics balance with the calls that the workers have ahead. -/
structure Balances (s : Pipeline) : Prop where
  outcomes : s.shared.stats.sumOver (·.totalRequests) +
      UInt64.ofNat (allAhead Call.isRecord s) =
    s.shared.stats.sumOver (·.successCount) +
      s.shared.stats.sumOver (·.errorCount) +
      UInt64.ofNat (allAhead Call.isOutcome s)
  upstream : s.shared.stats.sumOver (·.errorCount) +
      UInt64.ofNat (allAhead Call.isError s) =
    s.shared.stats.upstreamErrors + UInt64.ofNat (allAhead Call.isUpstream s)
  limited : s.shared.stats.rateLimited + UInt64.ofNat (allAhead Call.isRefusal s) =
    UInt64.ofNat (s.workers.countP refused)
  trips : s.shared.stats.cbTrips = 0

/-- The calls ahead after a worker has gone on. -/
theorem all_ahead_set {i : Nat} {w : RequestWorker} (hw : s.workers[i]? = some w)
    (w' : RequestWorker) (g : Shared) (p : Call → Bool) :
    UInt64.ofNat (allAhead p { shared := g, workers := s.workers.set i w' }) +
        UInt64.ofNat (w.ahead p) =
      UInt64.ofNat (allAhead p s) + UInt64.ofNat (w'.ahead p) := by
  rw [← UInt64.ofNat_add, ← UInt64.ofNat_add]
  exact congrArg UInt64.ofNat (Table.sum_map_set hw w' (ahead p))

theorem refused_set {i : Nat} {w : RequestWorker} (hw : s.workers[i]? = some w)
    (w' : RequestWorker) :
    UInt64.ofNat ((s.workers.set i w').countP refused) + UInt64.ofNat w.refused.toNat =
      UInt64.ofNat (s.workers.countP refused) + UInt64.ofNat w'.refused.toNat := by
  rw [← UInt64.ofNat_add, ← UInt64.ofNat_add]
  exact congrArg UInt64.ofNat (Table.countP_set hw w' refused)

theorem Balances.use {i : Nat} {w w' : RequestWorker} {g : Shared} (hs : Balances s)
    (hw : s.workers[i]? = some w) (h : StatsUse s.shared w g w') :
    Balances { shared := g, workers := s.workers.set i w' } := by
  have hset := all_ahead_set hw w' g
  have hrefusals := refused_set hw w'
  cases h with
  | decide hstats hbefore houtcome hupstream hrefused =>
      have hzero : UInt64.ofNat 0 = 0 := rfl
      simp only [hbefore, hzero, UInt64.add_zero] at hset
      refine ⟨?_, ?_, ?_, ?_⟩
      · show g.stats.sumOver _ + _ = _ + _ + _
        rw [hstats, hset, hset, houtcome]
        have hold := hs.outcomes
        grind
      · show g.stats.sumOver _ + _ = _ + _
        rw [hstats, hset, hset, hupstream]
        have hold := hs.upstream
        grind
      · show g.stats.rateLimited + _ = _
        rw [hstats, hset]
        rw [← hrefused, UInt64.ofNat_add] at hrefusals
        have hold := hs.limited
        grind
      · exact hstats ▸ hs.trips
  | call call hstats hahead hrefused =>
      simp only [hahead, UInt64.ofNat_add] at hset
      refine ⟨?_, ?_, ?_, ?_⟩
      · have hold := hs.outcomes
        have hrecord := hset Call.isRecord
        have houtcome := hset Call.isOutcome
        rw [Call.outcome_to_nat, UInt64.ofNat_add] at houtcome
        show g.stats.sumOver _ + _ = _ + _ + _
        rw [hstats.total, hstats.success, hstats.error]
        grind
      · have hold := hs.upstream
        have herror := hset Call.isError
        have hupstream := hset Call.isUpstream
        show g.stats.sumOver _ + _ = g.stats.upstreamErrors + _
        rw [hstats.error, hstats.upstream]
        grind
      · have hold := hs.limited
        have hrefusal := hset Call.isRefusal
        rw [hrefused] at hrefusals
        show g.stats.rateLimited + _ = _
        rw [hstats.limited]
        grind
      · exact hstats.trips.trans hs.trips

theorem balances_reachable (h : Reachable setup rate burst s) : Balances s := by
  induction h with
  | refl => exact ⟨rfl, rfl, rfl, rfl⟩
  | @tail u _ hrun hstep ih =>
      cases hstep with
      | start raw =>
          have hahead : ∀ p, allAhead p { u with workers := u.workers ++ [{ raw := raw }] } =
              allAhead p u := by
            intro p
            simp [allAhead, ahead]
          have hrefused : (u.workers ++ [({ raw := raw } : RequestWorker)]).countP refused =
              u.workers.countP refused := by
            simp [refused]
          refine ⟨?_, ?_, ?_, ih.trips⟩
          · rw [hahead, hahead]
            exact ih.outcomes
          · rw [hahead, hahead]
            exact ih.upstream
          · rw [hahead, hrefused]
            exact ih.limited
      | elapse | cleanup => exact ⟨ih.outcomes, ih.upstream, ih.limited, ih.trips⟩
      | work hw hwork =>
          exact ih.use hw (stats_use ((limited_reachable hrun).charged _ (List.mem_of_getElem? hw))
            hwork)

/-- The counters that are never incremented. -/
def Idle (stats : GatewayStats) : Prop :=
  ∀ e ∈ stats.routes.entries, e.2.inFlight = 0

theorem idle_update {stats : GatewayStats} (h : Idle stats) (route : Bytes)
    {change : RouteStats → RouteStats}
    (hchange : ∀ rs, rs.inFlight = 0 → (change rs).inFlight = 0) :
    Idle (stats.update route change) := by
  intro e he
  rcases SortedMap.mem_assignEntries he with rfl | he
  · refine hchange _ ?_
    rw [GatewayStats.getOrCreate, SortedMap.find?]
    cases hfind : stats.routes.entries.find? fun e => compare e.1 route == .eq with
    | none => rfl
    | some old => exact h old (List.mem_of_find?_eq_some hfind)
  · exact h e he

theorem idle_record {stats : GatewayStats} (h : Idle stats) (call : Call) :
    Idle (call.record stats) := by
  cases call with
  | recordRequest path elapsed =>
      refine idle_update h path fun rs hrs => ?_
      simp [hrs]
  | recordSuccess path | recordError path => exact idle_update h path fun rs hrs => hrs
  | _ => exact h

theorem idle_reachable (h : Reachable setup rate burst s) : Idle s.shared.stats := by
  induction h with
  | refl => exact fun e he => by cases he
  | tail hrun hstep ih =>
      cases hstep with
      | start | elapse | cleanup => exact ih
      | work hw hwork =>
          cases hwork with
          | @call call rest hstage =>
              have hrecord := idle_record ih call
              cases call <;> exact hrecord
          | _ => exact ih

theorem in_order_reachable (h : Reachable setup rate burst s) : ∀ w ∈ s.workers, w.InOrder := by
  induction h with
  | refl => simp
  | tail hrun hstep ih =>
      cases hstep with
      | start raw =>
          intro w hw
          rcases List.mem_append.1 hw with hw | hw
          · exact ih w hw
          · rw [List.mem_singleton.1 hw]
            intro rest hrest
            cases hrest
      | elapse | cleanup => exact ih
      | work hw hwork =>
          intro v hv
          rcases List.mem_or_eq_of_mem_set hv with hv | rfl
          · exact ih v hv
          · exact (ih _ (List.mem_of_getElem? hw)).step hwork

/-- Whether a worker is where the calls ahead are of some kind. -/
def awaits (p : List Call → Bool) (w : RequestWorker) : Bool :=
  match w.stage with
  | .calling rest => p rest
  | _ => false

theorem ahead_in_order {w : RequestWorker} (hw : w.InOrder) :
    w.ahead Call.isOutcome = w.ahead Call.isRecord + (awaits awaitsOutcome w).toNat ∧
      w.ahead Call.isUpstream = w.ahead Call.isError + (awaits awaitsUpstream w).toNat := by
  cases hstage : w.stage with
  | calling rest =>
      have horder := hw rest hstage rest List.suffix_rfl
      simpa [ahead, awaits, hstage] using horder
  | _ => simp [ahead, awaits, hstage]

/-- In every state of the gateway the counters balance, modulo `2 ^ 64`: the requests are the
successes and the errors and those of the workers that have recorded a request and not yet its
outcome; the errors of the routes are those of the backends and those of the workers between the two
counters; and the refused requests are those of the workers that the rate limiter has refused,
except for workers that have still to count them. The number of requests in flight and the number of
trips of circuit breakers are always zero. -/
theorem stats_balance (setup : Setup) (rate burst : Int) (s : Pipeline)
    (h : Reachable setup rate burst s) :
    let stats := s.shared.stats
    stats.sumOver (·.totalRequests) =
        stats.sumOver (·.successCount) + stats.sumOver (·.errorCount) +
          UInt64.ofNat (s.workers.countP (awaits awaitsOutcome)) ∧
      stats.sumOver (·.errorCount) = stats.upstreamErrors +
        UInt64.ofNat (s.workers.countP (awaits awaitsUpstream)) ∧
      stats.rateLimited + UInt64.ofNat (allAhead Call.isRefusal s) =
        UInt64.ofNat (s.workers.countP refused) ∧
      stats.sumOver (·.inFlight) = 0 ∧ stats.cbTrips = 0 := by
  have hs := balances_reachable h
  have horder := in_order_reachable h
  have houtcomes : allAhead Call.isOutcome s =
      allAhead Call.isRecord s + s.workers.countP (awaits awaitsOutcome) :=
    Table.sum_map_add_countP fun w hw => (ahead_in_order (horder w hw)).1
  have hupstream : allAhead Call.isUpstream s =
      allAhead Call.isError s + s.workers.countP (awaits awaitsUpstream) :=
    Table.sum_map_add_countP fun w hw => (ahead_in_order (horder w hw)).2
  have hidle : s.shared.stats.sumOver (·.inFlight) = 0 := by
    refine List.sum_eq_zero fun x hx => ?_
    obtain ⟨e, he, rfl⟩ := List.mem_map.1 hx
    exact idle_reachable h e he
  refine ⟨?_, ?_, hs.limited, hidle, hs.trips⟩
  · have hold := hs.outcomes
    rw [houtcomes, UInt64.ofNat_add] at hold
    grind
  · have hold := hs.upstream
    rw [hupstream, UInt64.ofNat_add] at hold
    grind

/-- The first request has been recorded, and its outcome has not. -/
theorem stats_balance_first : ∃ s, Reachable apiSetup 100 200 s ∧
    s.workers.countP (awaits awaitsOutcome) = 1 ∧
    s.shared.stats.sumOver (·.totalRequests) =
      s.shared.stats.sumOver (·.successCount) + s.shared.stats.sumOver (·.errorCount) + 1 := by
  obtain ⟨g, w, ctx, start, hasks, hstage, htarget, -, hbreaker⟩ :=
    request_asks { limiter := .create 100 200 (some Filter.extractClientIp) }
  have hallow : (apiSetup.breaker g w.answers.target).allowRequest g.clock =
      (true, apiSetup.breaker g apiBackend) := by
    rw [htarget, hbreaker]
    rfl
  have hforward := ((hasks.tail (.allow hstage hallow)).tail (.connect rfl)).tail (.forward rfl [])
  have hmeasure := (hforward.tail (.disconnect rfl)).tail (.measure rfl rfl)
  have hs : Reachable apiSetup 100 200 _ :=
    WorkerRun.reachable .refl (hmeasure.tail (.call rfl))
  have hbalance := (stats_balance apiSetup 100 200 _ hs).1
  exact ⟨_, hs, rfl, hbalance⟩

end Pipeline

end ApiGateway.Core
