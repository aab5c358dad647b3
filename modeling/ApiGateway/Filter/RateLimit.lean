import ApiGateway.Core.Gateway
import ApiGateway.Library.TokenBucket

/-!
# The rate limiter

`RateLimitFilter` of `rate_limit_filter.cpp`, with exact numbers of tokens. Times are in
nanoseconds. `decisions_eq` says that the filter decides on the requests of each key as a single
token bucket would, whatever happens to other keys in between and although buckets are created by
requests and removed when they have been idle; `rate_limit_bound` follows from the bound for such a
bucket.
-/

namespace ApiGateway.Filter

open ApiGateway.Core ApiGateway.Http ApiGateway.Search

/-- `extract_client_ip`. -/
def extractClientIp (ctx : FilterContext) : Bytes :=
  match ctx.req.headers.find? (ascii "x-forwarded-for") with
  | some val =>
      let ip := match cut 44 val with
        | some (first, _) => first
        | none => val
      if ip.all isBlank then ip
      else ((ip.dropWhile isBlank).reverse.dropWhile isBlank).reverse
  | none => (ctx.req.headers.find? (ascii "x-real-ip")).getD []

/-- `RateLimitFilter::TokenBucket`. -/
structure TokenBucket where
  tokens : ℚ
  lastFillTime : Int

/-- `class RateLimitFilter`. -/
structure RateLimitFilter where
  rate : Int
  burst : Int
  keyExtractor : Option (FilterContext → Bytes) := some extractClientIp
  tokenBuckets : Bytes → Option TokenBucket := fun _ => none

namespace RateLimitFilter

/-- A new filter, after `set_key_extractor`. -/
def create (rate burst : Int) (extract : Option (FilterContext → Bytes)) : RateLimitFilter where
  rate := rate
  burst := burst
  keyExtractor := extract

/-- `token_per_ns_`. -/
def tokenPerNs (f : RateLimitFilter) : ℚ :=
  f.rate / 10 ^ 9

/-- The tokens of a bucket after it has been filled. -/
def refill (f : RateLimitFilter) (bucket : TokenBucket) (now : Int) : ℚ :=
  let tokens := bucket.tokens + ((now - bucket.lastFillTime : Int) : ℚ) * f.tokenPerNs
  if tokens > f.burst then f.burst else tokens

/-- The part of `on_request` that holds the lock. -/
def takeToken (f : RateLimitFilter) (key : Bytes) (now : Int) : Bool × RateLimitFilter :=
  let bucket := (f.tokenBuckets key).getD ⟨f.burst, now⟩
  let tokens := f.refill bucket now
  if 1 ≤ tokens then
    (true, { f with tokenBuckets := Function.update f.tokenBuckets key (some ⟨tokens - 1, now⟩) })
  else
    (false, { f with tokenBuckets := Function.update f.tokenBuckets key (some ⟨tokens, now⟩) })

/-- The key of a request. -/
def keyOf (f : RateLimitFilter) (ctx : FilterContext) : Bytes :=
  match f.keyExtractor with
  | some extract => extract ctx
  | none => []

/-- `on_request`. -/
def onRequest (f : RateLimitFilter) (ctx : FilterContext) (now : Int) : Bool × RateLimitFilter :=
  if f.rate ≤ 0 then (true, f)
  else if f.keyOf ctx = [] then (true, f)
  else f.takeToken (f.keyOf ctx) now

/-- Whether `cleanup_expired_buckets` removes a bucket. -/
def expired (idleSec now : Int) (bucket : TokenBucket) : Bool :=
  now - bucket.lastFillTime > idleSec * 10 ^ 9

/-- `cleanup_expired_buckets`. -/
def cleanupExpiredBuckets (f : RateLimitFilter) (idleSec now : Int) : RateLimitFilter :=
  { f with
    tokenBuckets := fun key =>
      (f.tokenBuckets key).filter fun bucket => !expired idleSec now bucket }

/-! ## Runs -/

/-- A call of the filter, with the time at which it holds the lock. -/
inductive Event where
  | request (ctx : FilterContext) (now : Int)
  | cleanup (idleSec : Int) (now : Int)

/-- The time of a call. -/
def Event.time : Event → Int
  | .request _ now => now
  | .cleanup _ now => now

/-- What `on_request` has returned for a request. -/
structure Decision where
  key : Bytes
  time : Int
  admitted : Bool
  deriving DecidableEq

/-- The decisions on the requests of a run. -/
def run (f : RateLimitFilter) : List Event → List Decision
  | [] => []
  | .request ctx now :: events =>
      ⟨f.keyOf ctx, now, (f.onRequest ctx now).1⟩ :: run (f.onRequest ctx now).2 events
  | .cleanup idleSec now :: events => run (f.cleanupExpiredBuckets idleSec now) events

/-- Whether a call is a request with the given key. -/
def requests (f : RateLimitFilter) (key : Bytes) : Event → Bool
  | .request ctx _ => f.keyOf ctx = key
  | .cleanup _ _ => false

/-- The decisions on the requests with the given key. -/
def decisions (f : RateLimitFilter) (key : Bytes) (events : List Event) : List Decision :=
  (f.run events).filter (·.key = key)

/-- The times of the requests with the given key. -/
def requestTimes (f : RateLimitFilter) (key : Bytes) (events : List Event) : List Int :=
  (events.filter (f.requests key)).map Event.time

/-- A decision, for the general theory. -/
def Decision.timed (d : Decision) : ℚ × Bool :=
  (d.time, d.admitted)

/-! ## One key -/

/-- The bucket `b` is what the filter knows of a key at a time: it is stored, or it is missing and
`b` is full from then on. -/
structure Tracks (f : RateLimitFilter) (key : Bytes) (clock : Int)
    (b : TokenBucket.Bucket ℚ) : Prop where
  tokens : 0 ≤ b.tokens
  last : b.last ≤ clock
  stored : ∀ bucket, f.tokenBuckets key = some bucket → b = ⟨bucket.tokens, bucket.lastFillTime⟩
  missing : f.tokenBuckets key = none → ∀ now : Int, clock ≤ now →
    b.level f.tokenPerNs f.burst now = f.burst

variable {f : RateLimitFilter} {key : Bytes} {clock now : Int} {b : TokenBucket.Bucket ℚ}

theorem refill_eq (f : RateLimitFilter) (bucket : TokenBucket) (now : Int) :
    f.refill bucket now = (⟨bucket.tokens, bucket.lastFillTime⟩ : TokenBucket.Bucket ℚ).level
      f.tokenPerNs f.burst now := by
  simp only [refill, TokenBucket.Bucket.level, Int.cast_sub, mul_comm f.tokenPerNs, gt_iff_lt]
  split_ifs with h
  · exact (min_eq_left h.le).symm
  · exact (min_eq_right (not_lt.1 h)).symm

/-- The tokens that a request of the key finds. -/
theorem Tracks.refill_eq (h : Tracks f key clock b) (hnow : clock ≤ now) :
    f.refill ((f.tokenBuckets key).getD ⟨f.burst, now⟩) now =
      b.level f.tokenPerNs f.burst now := by
  rw [RateLimitFilter.refill_eq]
  cases hbucket : f.tokenBuckets key with
  | some bucket =>
      rw [h.stored bucket hbucket]
      rfl
  | none =>
      rw [h.missing hbucket now hnow]
      simp [TokenBucket.Bucket.level]

theorem token_per_ns_nonneg (hrate : 0 < f.rate) : 0 ≤ f.tokenPerNs := by
  have : (0 : ℚ) ≤ f.rate := by exact_mod_cast hrate.le
  unfold tokenPerNs
  positivity

/-- A request of the key is decided as by the bucket. -/
theorem Tracks.take_token (h : Tracks f key clock b) (hrate : 0 < f.rate) (hburst : 0 ≤ f.burst)
    (hnow : clock ≤ now) :
    (f.takeToken key now).1 = (b.take f.tokenPerNs f.burst now).1 ∧
      Tracks (f.takeToken key now).2 key now (b.take f.tokenPerNs f.burst now).2 := by
  have hlast : b.last ≤ now := h.last.trans (by exact_mod_cast hnow)
  have htokens : 0 ≤ (b.take f.tokenPerNs f.burst now).2.tokens :=
    TokenBucket.Bucket.tokens_take_nonneg (token_per_ns_nonneg hrate) (by exact_mod_cast hburst)
      h.tokens hlast
  have htake : (f.takeToken key now).1 = (b.take f.tokenPerNs f.burst now).1 ∧
      (f.takeToken key now).2.tokenBuckets key =
        some ⟨(b.take f.tokenPerNs f.burst now).2.tokens, now⟩ := by
    simp only [takeToken, h.refill_eq hnow, TokenBucket.Bucket.take]
    split_ifs <;> simp
  refine ⟨htake.1, htokens, (TokenBucket.Bucket.last_take ..).le, fun bucket hbucket => ?_,
    fun hnone => ?_⟩
  · rw [htake.2] at hbucket
    cases hbucket
    exact TokenBucket.Bucket.ext rfl (TokenBucket.Bucket.last_take ..)
  · rw [htake.2] at hnone
    cases hnone

/-- Calls that leave the bucket of the key alone. -/
theorem Tracks.mono (h : Tracks f key clock b) (hnow : clock ≤ now) {f' : RateLimitFilter}
    (hrate : f'.rate = f.rate) (hburst : f'.burst = f.burst)
    (hsame : f'.tokenBuckets key = f.tokenBuckets key) : Tracks f' key now b where
  tokens := h.tokens
  last := h.last.trans (by exact_mod_cast hnow)
  stored bucket hbucket := h.stored bucket (hsame ▸ hbucket)
  missing hnone later hlater := by
    have hper : f'.tokenPerNs = f.tokenPerNs := by rw [tokenPerNs, tokenPerNs, hrate]
    rw [hper, hburst]
    exact h.missing (hsame ▸ hnone) later (hnow.trans hlater)

/-- The time since the last request on an expired bucket is enough to fill it from zero. -/
theorem Tracks.full_of_expired (h : Tracks f key clock b) (hrate : 0 < f.rate) {idleSec : Int}
    (hidle : f.burst ≤ f.rate * idleSec) {bucket : TokenBucket}
    (hbucket : f.tokenBuckets key = some bucket) (hexpired : expired idleSec now bucket = true)
    {later : Int} (hlater : now ≤ later) :
    (f.burst : ℚ) ≤ b.tokens + f.tokenPerNs * (later - b.last) := by
  have hlast : b.last = bucket.lastFillTime := by rw [h.stored bucket hbucket]
  have hlong : (idleSec * 10 ^ 9 : ℚ) ≤ later - b.last := by
    have hint : idleSec * 10 ^ 9 ≤ later - bucket.lastFillTime := by
      simp only [expired, decide_eq_true_eq] at hexpired
      omega
    rw [hlast]
    exact_mod_cast hint
  have hfull : (f.burst : ℚ) ≤ f.rate * idleSec := by exact_mod_cast hidle
  have hfilled : f.tokenPerNs * (idleSec * 10 ^ 9 : ℚ) ≤ f.tokenPerNs * (later - b.last) :=
    mul_le_mul_of_nonneg_left hlong (token_per_ns_nonneg hrate)
  have hrate' : f.tokenPerNs * (idleSec * 10 ^ 9 : ℚ) = f.rate * idleSec := by
    unfold tokenPerNs
    ring
  have := h.tokens
  linarith

/-- A bucket is removed only when it has become full again. -/
theorem Tracks.cleanup (h : Tracks f key clock b) (hrate : 0 < f.rate) (hnow : clock ≤ now)
    {idleSec : Int} (hidle : f.burst ≤ f.rate * idleSec) :
    Tracks (f.cleanupExpiredBuckets idleSec now) key now b := by
  cases hbucket : f.tokenBuckets key with
  | none => exact h.mono hnow rfl rfl (by simp [cleanupExpiredBuckets, hbucket])
  | some bucket =>
      cases hexpired : expired idleSec now bucket with
      | false => exact h.mono hnow rfl rfl (by simp [cleanupExpiredBuckets, hbucket, hexpired])
      | true =>
          have hremoved : (f.cleanupExpiredBuckets idleSec now).tokenBuckets key = none := by
            simp [cleanupExpiredBuckets, hbucket, hexpired]
          refine ⟨h.tokens, h.last.trans (by exact_mod_cast hnow), fun bucket' hbucket' => ?_,
            fun _ later hlater => min_eq_left ?_⟩
          · rw [hremoved] at hbucket'
            cases hbucket'
          · exact h.full_of_expired hrate hidle hbucket hexpired hlater

/-- What is set up when the filter is created. -/
structure SameSetup (f f' : RateLimitFilter) : Prop where
  rate : f'.rate = f.rate
  burst : f'.burst = f.burst
  keyExtractor : f'.keyExtractor = f.keyExtractor

theorem same_setup_take_token (f : RateLimitFilter) (key : Bytes) (now : Int) :
    SameSetup f (f.takeToken key now).2 := by
  simp only [takeToken]
  split_ifs <;> exact ⟨rfl, rfl, rfl⟩

theorem same_setup_on_request (f : RateLimitFilter) (ctx : FilterContext) (now : Int) :
    SameSetup f (f.onRequest ctx now).2 := by
  simp only [onRequest]
  split_ifs
  · exact ⟨rfl, rfl, rfl⟩
  · exact ⟨rfl, rfl, rfl⟩
  · exact same_setup_take_token f _ now

theorem SameSetup.key_of {f' : RateLimitFilter} (h : SameSetup f f') (ctx : FilterContext) :
    f'.keyOf ctx = f.keyOf ctx := by
  simp only [keyOf, h.keyExtractor]

theorem SameSetup.request_times {f' : RateLimitFilter} (h : SameSetup f f') (key : Bytes)
    (events : List Event) : f'.requestTimes key events = f.requestTimes key events := by
  have hrequests : f'.requests key = f.requests key := by
    funext e
    cases e with
    | request ctx now => simp only [requests, h.key_of]
    | cleanup idleSec now => rfl
  rw [requestTimes, requestTimes, hrequests]

theorem SameSetup.token_per_ns {f' : RateLimitFilter} (h : SameSetup f f') :
    f'.tokenPerNs = f.tokenPerNs := by
  rw [tokenPerNs, tokenPerNs, h.rate]

/-- A request with another key leaves the bucket of `key` alone. -/
theorem token_buckets_on_request {ctx : FilterContext} (hother : f.keyOf ctx ≠ key) (now : Int) :
    (f.onRequest ctx now).2.tokenBuckets key = f.tokenBuckets key := by
  simp only [onRequest, takeToken]
  split_ifs <;> simp [Function.update_of_ne hother.symm]

theorem on_request_eq {ctx : FilterContext} (hrate : 0 < f.rate) (hkey : f.keyOf ctx ≠ [])
    (now : Int) : f.onRequest ctx now = f.takeToken (f.keyOf ctx) now := by
  rw [onRequest, if_neg (not_le.2 hrate), if_neg hkey]

/-- The decisions on the requests of a key are those of a single bucket. -/
theorem decisions_eq {events : List Event} (hkey : key ≠ []) (hrate : 0 < f.rate)
    (hburst : 0 ≤ f.burst) (h : Tracks f key clock b)
    (hsorted : (events.map Event.time).Pairwise (· ≤ ·)) (hclock : ∀ e ∈ events, clock ≤ e.time)
    (hcleanup : ∀ idleSec now, Event.cleanup idleSec now ∈ events → f.burst ≤ f.rate * idleSec) :
    (f.decisions key events).map Decision.timed =
      b.decisions f.tokenPerNs f.burst ((f.requestTimes key events).map (↑)) := by
  induction events generalizing f b clock with
  | nil => rfl
  | cons e events ih =>
      obtain ⟨hfirst, hrest⟩ := List.pairwise_cons.1 hsorted
      have hlater : ∀ e' ∈ events, e.time ≤ e'.time := fun e' he' =>
        hfirst _ (List.mem_map_of_mem he')
      have hnow : clock ≤ e.time := hclock e List.mem_cons_self
      have hrestCleanup : ∀ idleSec now, Event.cleanup idleSec now ∈ events →
          f.burst ≤ f.rate * idleSec := fun idleSec now he =>
        hcleanup idleSec now (List.mem_cons_of_mem _ he)
      -- the rest of the run, from a filter with the same setup
      have hcontinue : ∀ {f' : RateLimitFilter} {b' : TokenBucket.Bucket ℚ}, SameSetup f f' →
          Tracks f' key e.time b' → (f'.decisions key events).map Decision.timed =
            b'.decisions f.tokenPerNs f.burst ((f.requestTimes key events).map (↑)) := by
        intro f' b' hsame htracks
        have heq := ih (hsame.rate.symm ▸ hrate) (hsame.burst.symm ▸ hburst) htracks hrest hlater
          (by rw [hsame.rate, hsame.burst]; exact hrestCleanup)
        rwa [hsame.request_times, hsame.token_per_ns, hsame.burst] at heq
      cases e with
      | cleanup idleSec now =>
          have hidle := hcleanup idleSec now List.mem_cons_self
          exact hcontinue ⟨rfl, rfl, rfl⟩ (h.cleanup hrate hnow hidle)
      | request ctx now =>
          have hsame := same_setup_on_request f ctx now
          by_cases hctx : f.keyOf ctx = key
          · have hrequest : f.onRequest ctx now = f.takeToken key now := by
              rw [on_request_eq hrate (hctx.symm ▸ hkey), hctx]
            obtain ⟨hdecision, htracks⟩ := h.take_token hrate hburst (show clock ≤ now from hnow)
            rw [← hrequest] at hdecision htracks
            have hcontinue' := hcontinue hsame htracks
            simp only [decisions] at hcontinue'
            simp only [decisions, run, requestTimes, requests, hctx, decide_true, List.filter_cons,
              if_true, List.map_cons, TokenBucket.Bucket.decisions, hdecision, Decision.timed,
              Event.time]
            simp only [hcontinue', requestTimes]
          · have hcontinue' := hcontinue hsame
              (h.mono hnow hsame.rate hsame.burst (token_buckets_on_request hctx now))
            simp only [decisions] at hcontinue'
            simp only [decisions, run, requestTimes, requests, hctx, decide_false, List.filter_cons,
              Bool.false_eq_true, if_false, hcontinue']

/-! ## The bound -/

/-- Whether a request is admitted in the window from `s` to `t`. -/
def Decision.admittedIn (s t : ℚ) (d : Decision) : Bool :=
  s ≤ d.time ∧ d.time ≤ t ∧ d.admitted

theorem tracks_create {rate burst : Int} (hrate : 0 < rate) (hburst : 0 ≤ burst)
    (extract : Option (FilterContext → Bytes)) (key : Bytes) (clock : Int) :
    Tracks (create rate burst extract) key clock ⟨burst, clock⟩ where
  tokens := by
    show (0 : ℚ) ≤ burst
    exact_mod_cast hburst
  last := le_refl _
  stored := nofun
  missing _ now hnow := by
    have hfilled : (0 : ℚ) ≤ (create rate burst extract).tokenPerNs * (now - clock) :=
      mul_nonneg (token_per_ns_nonneg hrate) (sub_nonneg.2 (by exact_mod_cast hnow))
    exact min_eq_left (le_add_of_nonneg_right hfilled)

/-- The first call of a run, if there is one, is not later than the others. -/
theorem exists_start {events : List Event} (hsorted : (events.map Event.time).Pairwise (· ≤ ·)) :
    ∃ clock, ∀ e ∈ events, clock ≤ e.time := by
  cases events with
  | nil => exact ⟨0, by simp⟩
  | cons e events =>
      refine ⟨e.time, fun e' he' => ?_⟩
      rcases List.mem_cons.1 he' with rfl | he'
      · exact le_refl _
      · exact (List.pairwise_cons.1 hsorted).1 _ (List.mem_map_of_mem he')

theorem decisions_untimed (f : RateLimitFilter) (key : Bytes) (events : List Event) :
    f.decisions key events =
      ((f.decisions key events).map Decision.timed).map fun d => ⟨key, ⌊d.1⌋, d.2⟩ := by
  have hsame : ∀ d ∈ f.decisions key events, d = ⟨key, ⌊d.timed.1⌋, d.timed.2⟩ := by
    intro d hd
    have hkey : d.key = key := by simpa using (List.mem_filter.1 hd).2
    simp [Decision.timed, ← hkey]
  rw [List.map_map]
  exact (List.map_id _).symm.trans (List.map_congr_left hsame)

theorem pairwise_request_times (f : RateLimitFilter) (key : Bytes) {events : List Event}
    (hsorted : (events.map Event.time).Pairwise (· ≤ ·)) :
    ((f.requestTimes key events).map (Int.cast : Int → ℚ)).Pairwise (· ≤ ·) := by
  have hsub : (f.requestTimes key events).Sublist (events.map Event.time) :=
    List.filter_sublist.map Event.time
  exact (hsorted.sublist hsub).map _ fun _ _ h => Int.cast_le.2 h

theorem le_request_times (f : RateLimitFilter) (key : Bytes) {events : List Event}
    (hclock : ∀ e ∈ events, clock ≤ e.time) :
    ∀ x ∈ (f.requestTimes key events).map (Int.cast : Int → ℚ), (clock : ℚ) ≤ x := by
  intro x hx
  obtain ⟨time, htime, rfl⟩ := List.mem_map.1 hx
  obtain ⟨e, he, rfl⟩ := List.mem_map.1 htime
  exact Int.cast_le.2 (hclock e (List.mem_filter.1 he).1)

theorem requests_create (rate burst : Int) (extract : Option (FilterContext → Bytes)) (key : Bytes)
    (events : List Event) : (create rate burst extract).requestTimes key
      (events.filter ((create rate burst extract).requests key)) =
        (create rate burst extract).requestTimes key events := by
  simp [requestTimes]

/-- In every run of a new filter, for every key but the empty one, at most `burst` requests, and
`rate` for every second, are admitted in a window of time; and the decisions are those of the run
that consists of the requests with this key only. -/
theorem rate_limit_bound (rate burst : Int) (hrate : 0 < rate) (hburst : 0 ≤ burst)
    (extract : Option (FilterContext → Bytes)) (events : List Event)
    (hsorted : (events.map Event.time).Pairwise (· ≤ ·))
    (hcleanup : ∀ idleSec now, Event.cleanup idleSec now ∈ events → burst ≤ rate * idleSec)
    (key : Bytes) (hkey : key ≠ []) :
    (∀ s t : ℚ, s ≤ t →
        (((create rate burst extract).decisions key events).countP (Decision.admittedIn s t) : ℚ) ≤
          burst + rate * (t - s) / 10 ^ 9) ∧
      (create rate burst extract).decisions key events =
        (create rate burst extract).decisions key
          (events.filter ((create rate burst extract).requests key)) := by
  obtain ⟨clock, hclock⟩ := exists_start hsorted
  have htracks := tracks_create hrate hburst extract key clock
  have heq := decisions_eq hkey hrate hburst htracks hsorted hclock hcleanup
  constructor
  · intro s t hst
    have hcount : ((create rate burst extract).decisions key events).countP
        (Decision.admittedIn s t) = (((create rate burst extract).decisions key events).map
          Decision.timed).countP (TokenBucket.admittedIn s t) := by
      rw [List.countP_map]
      rfl
    have hburst' : (0 : ℚ) ≤ burst := by exact_mod_cast hburst
    have hrate' : 0 ≤ (create rate burst extract).tokenPerNs := token_per_ns_nonneg hrate
    have hbound := TokenBucket.Bucket.admitted_window hrate' hburst' htracks.tokens hst
      (pairwise_request_times (create rate burst extract) key hsorted)
      (le_request_times (create rate burst extract) key hclock)
    calc (((create rate burst extract).decisions key events).countP (Decision.admittedIn s t) : ℚ)
        ≤ burst + (create rate burst extract).tokenPerNs * (t - s) := by
          rw [hcount, heq]
          exact hbound
      _ = burst + rate * (t - s) / 10 ^ 9 := by
          simp only [tokenPerNs, create]
          ring
  · -- the requests with other keys and the calls of `cleanup_expired_buckets` are not there
    have hsub : (events.filter ((create rate burst extract).requests key)).Sublist events :=
      List.filter_sublist
    have hcleanup' : ∀ idleSec now, Event.cleanup idleSec now ∈
        events.filter ((create rate burst extract).requests key) → burst ≤ rate * idleSec :=
      fun idleSec now he => hcleanup idleSec now (hsub.subset he)
    have heq' := decisions_eq hkey hrate hburst htracks (hsorted.sublist (hsub.map _))
      (fun e he => hclock e (hsub.subset he)) hcleanup'
    rw [decisions_untimed, heq, decisions_untimed _ key (events.filter _), heq', requests_create]

/-- A request for the given client, with one header. -/
def requestFrom (client : Bytes) : FilterContext where
  req := { headers := SortedMap.empty.assign (ascii "x-real-ip") client }

theorem rate_limit_bound_one :
    (((create 1 1 (some extractClientIp)).decisions (ascii "10.0.0.1")
      [.request (requestFrom (ascii "10.0.0.1")) 0, .cleanup 300 5,
        .request (requestFrom (ascii "10.0.0.1")) 10]).countP (Decision.admittedIn 0 10) : ℚ) ≤
      1 + 1 * (10 - 0) / 10 ^ 9 := by
  have hbound := (rate_limit_bound 1 1 (by decide) (by decide) (some extractClientIp)
    [.request (requestFrom (ascii "10.0.0.1")) 0, .cleanup 300 5,
      .request (requestFrom (ascii "10.0.0.1")) 10] (by decide) ?_ (ascii "10.0.0.1")
    (by decide)).1 0 10 (by norm_num)
  · exact_mod_cast hbound
  · intro idleSec now he
    obtain ⟨rfl, rfl⟩ : idleSec = 300 ∧ now = 5 := by simpa using he
    decide

/-- A request without a client address has the empty key, and is admitted by an empty bucket. -/
theorem unlimited_without_key :
    (create 1 0 (some extractClientIp)).keyOf { req := {} } = [] ∧
      ¬ (((create 1 0 (some extractClientIp)).decisions []
        [.request { req := {} } 0]).countP (Decision.admittedIn 0 0) : ℚ) ≤
          0 + 1 * (0 - 0) / 10 ^ 9 := by
  have hdecisions : (create 1 0 (some extractClientIp)).decisions []
      [.request { req := {} } 0] = [⟨[], 0, true⟩] := rfl
  refine ⟨rfl, ?_⟩
  rw [hdecisions]
  simp [Decision.admittedIn]

end RateLimitFilter

end ApiGateway.Filter
