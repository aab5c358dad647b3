import ApiGateway.Library.Table
import ApiGateway.Monitor.Stats

/-!
# Recording from several threads

`record_request`, `record_success` and `record_error` as sequences of atomic steps on the counters
of a route, which the calls of any number of threads make in any order. An additive counter holds
what the calls have added so far (`Adds.reachable`). The counter of the maximum only grows, and a
call that is past its loop is covered by it (`MaxInv`). The main result is `no_lost_update`.
-/

namespace ApiGateway.Monitor

/-- A call that records something. -/
inductive Record where
  | request (route : Bytes) (latencyMs : Int64)
  | success (route : Bytes)
  | error (route : Bytes)
  deriving DecidableEq

/-- Where a call is. After its first step a call of `record_request` is about to add to
`latency_sum_ms`, to load `latency_max_ms`, in the loop with a value of `current_max`, or about to
load or decrement `in_flight`. -/
inductive Progress where
  | start
  | addSum
  | loadMax
  | raise (currentMax : UInt64)
  | loadInFlight
  | subInFlight
  | finished
  deriving DecidableEq

/-- A call under way. -/
structure Call where
  record : Record
  progress : Progress := .start
  deriving DecidableEq

/-- The atomic steps of a call. `compare_exchange_weak` may fail without a reason. -/
inductive Call.Step : GatewayStats → Call → GatewayStats → Call → Prop where
  | addTotal {stats : GatewayStats} {route : Bytes} {latencyMs : Int64} :
      Step stats ⟨.request route latencyMs, .start⟩
        (stats.update route fun rs => { rs with totalRequests := rs.totalRequests + 1 })
        ⟨.request route latencyMs, .addSum⟩
  | addSum {stats : GatewayStats} {route : Bytes} {latencyMs : Int64} :
      Step stats ⟨.request route latencyMs, .addSum⟩
        (stats.update route fun rs =>
          { rs with latencySumMs := rs.latencySumMs + latencyMs.toUInt64 })
        ⟨.request route latencyMs, .loadMax⟩
  | loadMax {stats : GatewayStats} {route : Bytes} {latencyMs : Int64} :
      Step stats ⟨.request route latencyMs, .loadMax⟩
        stats ⟨.request route latencyMs, .raise (stats.getOrCreate route).latencyMaxMs⟩
  | notLarger {stats : GatewayStats} {route : Bytes} {latencyMs : Int64} {currentMax : UInt64}
      (hlarger : ¬ latencyMs.toUInt64 > currentMax) :
      Step stats ⟨.request route latencyMs, .raise currentMax⟩
        stats ⟨.request route latencyMs, .loadInFlight⟩
  | exchange {stats : GatewayStats} {route : Bytes} {latencyMs : Int64} {currentMax : UInt64}
      (hlarger : latencyMs.toUInt64 > currentMax)
      (hsame : (stats.getOrCreate route).latencyMaxMs = currentMax) :
      Step stats ⟨.request route latencyMs, .raise currentMax⟩
        (stats.update route fun rs => { rs with latencyMaxMs := latencyMs.toUInt64 })
        ⟨.request route latencyMs, .loadInFlight⟩
  | exchangeFails {stats : GatewayStats} {route : Bytes} {latencyMs : Int64} {currentMax : UInt64}
      (hlarger : latencyMs.toUInt64 > currentMax) :
      Step stats ⟨.request route latencyMs, .raise currentMax⟩
        stats ⟨.request route latencyMs, .raise (stats.getOrCreate route).latencyMaxMs⟩
  | inFlight {stats : GatewayStats} {route : Bytes} {latencyMs : Int64}
      (hpos : (stats.getOrCreate route).inFlight > 0) :
      Step stats ⟨.request route latencyMs, .loadInFlight⟩
        stats ⟨.request route latencyMs, .subInFlight⟩
  | noneInFlight {stats : GatewayStats} {route : Bytes} {latencyMs : Int64}
      (hpos : ¬ (stats.getOrCreate route).inFlight > 0) :
      Step stats ⟨.request route latencyMs, .loadInFlight⟩
        stats ⟨.request route latencyMs, .finished⟩
  | subInFlight {stats : GatewayStats} {route : Bytes} {latencyMs : Int64} :
      Step stats ⟨.request route latencyMs, .subInFlight⟩
        (stats.update route fun rs => { rs with inFlight := rs.inFlight - 1 })
        ⟨.request route latencyMs, .finished⟩
  | success {stats : GatewayStats} {route : Bytes} :
      Step stats ⟨.success route, .start⟩
        (stats.update route fun rs => { rs with successCount := rs.successCount + 1 })
        ⟨.success route, .finished⟩
  | error {stats : GatewayStats} {route : Bytes} :
      Step stats ⟨.error route, .start⟩
        (stats.update route fun rs => { rs with errorCount := rs.errorCount + 1 })
        ⟨.error route, .finished⟩

/-- The statistics, and the calls that record into them. -/
structure Recording where
  stats : GatewayStats
  calls : List Call

namespace Recording

/-- The calls before their first steps. -/
def start (stats : GatewayStats) (records : List Record) : Recording where
  stats := stats
  calls := records.map fun record => { record }

/-- A step of one of the calls. -/
inductive Step : Recording → Recording → Prop where
  | call {s : Recording} {i : Nat} {c c' : Call} {stats : GatewayStats}
      (hcall : s.calls[i]? = some c) (hstep : Call.Step s.stats c stats c') :
      Step s { stats, calls := s.calls.set i c' }

/-- The states that the calls lead to. -/
def Reachable (s t : Recording) : Prop :=
  Relation.ReflTransGen Step s t

/-- All calls have returned. -/
def Finished (s : Recording) : Prop :=
  ∀ c ∈ s.calls, c.progress = .finished

end Recording

/-- The latency of a call of `record_request` for a route. -/
def Record.latency? (route : Bytes) : Record → Option Int64
  | request route' latencyMs => if route' = route then some latencyMs else none
  | _ => none

/-- What a call adds to `total_requests` of a route. -/
def Record.requests (route : Bytes) (record : Record) : Nat :=
  (record.latency? route).elim 0 fun _ => 1

/-- What a call adds to `latency_sum_ms` of a route. -/
def Record.latency (route : Bytes) (record : Record) : Nat :=
  (record.latency? route).elim 0 fun latencyMs => latencyMs.toUInt64.toNat

/-- What a call has added to a counter, if it adds to it when it has been at some points. -/
def Call.added (before : List Progress) (amount : Record → Nat) (c : Call) : Nat :=
  if c.progress ∈ before then 0 else amount c.record

/-! ## Counters that are added to -/

/-- Each step adds to a counter what the call has then added more. -/
def Adds (counter : RouteStats → UInt64) (part : Bytes → Call → Nat) : Prop :=
  ∀ ⦃stats stats' : GatewayStats⦄ ⦃c c' : Call⦄, Call.Step stats c stats' c' → ∀ route,
    counter (stats'.getOrCreate route) + UInt64.ofNat (part route c) =
      counter (stats.getOrCreate route) + UInt64.ofNat (part route c')

/-- The route of a call. -/
def Record.route : Record → Bytes
  | request route _ | success route | error route => route

theorem step_record {stats stats' : GatewayStats} {c c' : Call} (h : Call.Step stats c stats' c') :
    c'.record = c.record := by
  cases h <;> rfl

/-- A step leaves the counters of the other routes alone. -/
theorem step_frame {stats stats' : GatewayStats} {c c' : Call} (h : Call.Step stats c stats' c')
    {route : Bytes} (hroute : c.record.route ≠ route) :
    stats'.getOrCreate route = stats.getOrCreate route := by
  cases h with
  | loadMax | notLarger | exchangeFails | inFlight | noneInFlight => rfl
  | addTotal | addSum | exchange | subInFlight | success | error =>
      rw [GatewayStats.get_or_create_update]
      exact if_neg hroute

/-- It is enough to look at the route of the call. -/
theorem adds_of_own {counter : RouteStats → UInt64} {before : List Progress}
    {amount : Bytes → Record → Nat}
    (hother : ∀ route record, record.route ≠ route → amount route record = 0)
    (hown : ∀ ⦃stats stats' : GatewayStats⦄ ⦃c c' : Call⦄, Call.Step stats c stats' c' →
      counter (stats'.getOrCreate c.record.route) +
          UInt64.ofNat (c.added before (amount c.record.route)) =
        counter (stats.getOrCreate c.record.route) +
          UInt64.ofNat (c'.added before (amount c.record.route))) :
    Adds counter fun route => Call.added before (amount route) := by
  intro stats stats' c c' hstep route
  by_cases hroute : c.record.route = route
  · rw [← hroute]
    exact hown hstep
  · have hzero : amount route c.record = 0 := hother route c.record hroute
    have hadded : ∀ d : Call, d.record = c.record → d.added before (amount route) = 0 := by
      intro d hd
      rw [Call.added, hd, hzero, ite_self]
    show _ + UInt64.ofNat (c.added before (amount route)) =
      _ + UInt64.ofNat (c'.added before (amount route))
    rw [step_frame hstep hroute, hadded c rfl, hadded c' (step_record hstep)]

theorem adds_total :
    Adds (·.totalRequests) fun route => Call.added [.start] (Record.requests route) := by
  refine adds_of_own (fun route record hroute => ?_) fun stats stats' c c' hstep => ?_
  · cases record <;> simp_all [Record.requests, Record.latency?, Record.route]
  · cases hstep <;>
      simp [GatewayStats.get_or_create_update, Call.added, Record.requests, Record.latency?,
        Record.route]

theorem adds_success :
    Adds (·.successCount) fun route =>
      Call.added [.start] fun record => (decide (record = .success route)).toNat := by
  refine adds_of_own (fun route record hroute => ?_) fun stats stats' c c' hstep => ?_
  · cases record <;> simp_all [Record.route]
  · cases hstep <;> simp [GatewayStats.get_or_create_update, Call.added, Record.route]

theorem adds_error :
    Adds (·.errorCount) fun route =>
      Call.added [.start] fun record => (decide (record = .error route)).toNat := by
  refine adds_of_own (fun route record hroute => ?_) fun stats stats' c c' hstep => ?_
  · cases record <;> simp_all [Record.route]
  · cases hstep <;> simp [GatewayStats.get_or_create_update, Call.added, Record.route]

theorem adds_sum :
    Adds (·.latencySumMs) fun route => Call.added [.start, .addSum] (Record.latency route) := by
  refine adds_of_own (fun route record hroute => ?_) fun stats stats' c c' hstep => ?_
  · cases record <;> simp_all [Record.latency, Record.latency?, Record.route]
  · cases hstep <;>
      simp [GatewayStats.get_or_create_update, Call.added, Record.latency, Record.latency?,
        Record.route]

open Recording in
/-- A counter holds what the calls have added to it. -/
theorem Adds.step {counter : RouteStats → UInt64} {part : Bytes → Call → Nat} {s t : Recording}
    (h : Adds counter part) (hstep : Step s t) (route : Bytes)
    (hs : counter (s.stats.getOrCreate route) = UInt64.ofNat (s.calls.map (part route)).sum) :
    counter (t.stats.getOrCreate route) = UInt64.ofNat (t.calls.map (part route)).sum := by
  obtain ⟨hcall, hstep⟩ := hstep
  rename_i i c c' stats
  have hsum := Table.sum_map_set hcall c' (part route)
  have hadd := h hstep route
  rw [hs, ← UInt64.ofNat_add, ← hsum, UInt64.ofNat_add] at hadd
  exact add_right_cancel hadd

open Recording in
theorem Adds.reachable {counter : RouteStats → UInt64} {part : Bytes → Call → Nat} {s t : Recording}
    (h : Adds counter part) (hreachable : Reachable s t) (route : Bytes)
    (hs : counter (s.stats.getOrCreate route) = UInt64.ofNat (s.calls.map (part route)).sum) :
    counter (t.stats.getOrCreate route) = UInt64.ofNat (t.calls.map (part route)).sum := by
  induction hreachable with
  | refl => exact hs
  | tail _ hstep ih => exact h.step hstep route ih

namespace Recording

variable {s t : Recording} {stats : GatewayStats} {records : List Record} {route : Bytes}

/-- The calls stay what they are. -/
theorem records_step (h : Step s t) : t.calls.map Call.record = s.calls.map Call.record := by
  obtain ⟨hcall, hstep⟩ := h
  rename_i i c c' stats
  obtain ⟨hi, rfl⟩ := List.getElem?_eq_some_iff.1 hcall
  show (s.calls.set i c').map Call.record = _
  rw [List.map_set, step_record hstep, ← List.map_set, List.set_getElem_self]

theorem records_reachable (h : Reachable (start stats records) s) :
    s.calls.map Call.record = records := by
  induction h with
  | refl => rw [start, List.map_map, Function.comp_def, List.map_id']
  | tail _ hstep ih => exact (records_step hstep).trans ih

/-- In the end a counter holds what all calls add to it. -/
theorem counter_finished {counter : RouteStats → UInt64} {before : List Progress}
    {amount : Bytes → Record → Nat}
    (h : Adds counter fun route => Call.added before (amount route)) (hstart : .start ∈ before)
    (hend : .finished ∉ before) (hzero : counter (stats.getOrCreate route) = 0)
    (hreachable : Reachable (start stats records) s) (hfinished : s.Finished) :
    (counter (s.stats.getOrCreate route)).toNat = (records.map (amount route)).sum % 2 ^ 64 := by
  have hnone : ((start stats records).calls.map (Call.added before (amount route))).sum = 0 := by
    refine List.sum_eq_zero fun n hn => ?_
    simp only [start, List.map_map, List.mem_map, Function.comp_apply] at hn
    obtain ⟨record, -, rfl⟩ := hn
    exact if_pos hstart
  have hall : s.calls.map (Call.added before (amount route)) = records.map (amount route) := by
    rw [← records_reachable hreachable, List.map_map]
    refine List.map_congr_left fun c hc => ?_
    rw [Call.added, hfinished c hc, if_neg hend]
    rfl
  have hcount := h.reachable hreachable route (by rw [hnone]; exact hzero)
  rw [hcount, hall, UInt64.toNat_ofNat']

end Recording

/-! ## The maximum -/

/-- `latency_max_ms` of a route. -/
def GatewayStats.maxOf (stats : GatewayStats) (route : Bytes) : Nat :=
  (stats.getOrCreate route).latencyMaxMs.toNat

/-- Whether a call of `record_request` is past its loop. -/
def Progress.pastLoop : Progress → Bool
  | loadInFlight | subInFlight | finished => true
  | _ => false

/-- What holds of the maximum for a call of `record_request`: it is not less than the value of
`current_max`, nor than the latency once the call is past its loop. -/
structure Call.Covered (stats : GatewayStats) (c : Call) : Prop where
  loaded : ∀ route latencyMs currentMax, c.record = .request route latencyMs →
    c.progress = .raise currentMax → currentMax.toNat ≤ stats.maxOf route
  past : ∀ route latencyMs, c.record = .request route latencyMs → c.progress.pastLoop = true →
    latencyMs.toUInt64.toNat ≤ stats.maxOf route

section Maximum

variable {stats stats' : GatewayStats} {c c' : Call}

/-- A step leaves the maximum of a route, or raises it to the latency of its call. -/
theorem max_of_step (h : Call.Step stats c stats' c') (route : Bytes) :
    stats'.maxOf route = stats.maxOf route ∨
      ∃ latencyMs, c.record = .request route latencyMs ∧
        stats'.maxOf route = latencyMs.toUInt64.toNat ∧
        stats.maxOf route ≤ latencyMs.toUInt64.toNat := by
  simp only [GatewayStats.maxOf]
  cases h with
  | exchange hlarger hsame =>
      rename_i route' latencyMs currentMax
      rw [GatewayStats.get_or_create_update]
      split_ifs with heq
      · subst heq
        exact .inr ⟨latencyMs, rfl, rfl, hsame ▸ Nat.le_of_lt (UInt64.lt_iff_toNat_lt.1 hlarger)⟩
      · exact .inl rfl
  | loadMax | notLarger hlarger | exchangeFails hlarger | inFlight hpos | noneInFlight hpos =>
      exact .inl rfl
  | addTotal | addSum | subInFlight | success | error =>
      rw [GatewayStats.get_or_create_update]
      split_ifs with heq
      · subst heq
        exact .inl rfl
      · exact .inl rfl

theorem max_of_le (h : Call.Step stats c stats' c') (route : Bytes) :
    stats.maxOf route ≤ stats'.maxOf route := by
  rcases max_of_step h route with heq | ⟨latencyMs, -, heq, hle⟩
  · exact heq.ge
  · exact hle.trans heq.ge

/-- A maximum that has grown still covers a call. -/
theorem Call.Covered.mono (h : c.Covered stats)
    (hle : ∀ route, stats.maxOf route ≤ stats'.maxOf route) : c.Covered stats' where
  loaded route latencyMs currentMax hrecord hprogress :=
    (h.loaded route latencyMs currentMax hrecord hprogress).trans (hle route)
  past route latencyMs hrecord hpast := (h.past route latencyMs hrecord hpast).trans (hle route)

/-- A call that has just loaded the maximum is covered. -/
theorem covered_of_loaded (route : Bytes) (latencyMs : Int64) :
    Call.Covered stats ⟨.request route latencyMs,
      .raise (stats.getOrCreate route).latencyMaxMs⟩ := by
  constructor
  · intro route' latencyMs' currentMax hrecord hprogress
    cases hrecord
    cases hprogress
    exact Nat.le_refl _
  · intro route' latencyMs' _ hpast
    cases hpast

/-- A call past its loop is covered if the maximum is not less than its latency. -/
theorem covered_of_past {route : Bytes} {latencyMs : Int64} {progress : Progress}
    (hprogress : ∀ currentMax, progress ≠ .raise currentMax)
    (h : latencyMs.toUInt64.toNat ≤ stats.maxOf route) :
    Call.Covered stats ⟨.request route latencyMs, progress⟩ := by
  constructor
  · intro route' latencyMs' currentMax _ heq
    exact absurd heq (hprogress currentMax)
  · intro route' latencyMs' hrecord _
    cases hrecord
    exact h

/-- A call whose maximum is not yet loaded is covered. -/
theorem covered_of_before {record : Record} {progress : Progress}
    (hprogress : ∀ currentMax, progress ≠ .raise currentMax) (hpast : progress.pastLoop = false) :
    Call.Covered stats ⟨record, progress⟩ := by
  constructor
  · intro route latencyMs currentMax _ heq
    exact absurd heq (hprogress currentMax)
  · intro route latencyMs _ htrue
    cases hpast.symm.trans htrue

/-- Calls that record no latency are covered. -/
theorem covered_of_other {record : Record} {progress : Progress}
    (h : ∀ route latencyMs, record ≠ .request route latencyMs) :
    Call.Covered stats ⟨record, progress⟩ :=
  ⟨fun route latencyMs _ hrecord => absurd hrecord (h route latencyMs),
    fun route latencyMs hrecord => absurd hrecord (h route latencyMs)⟩

/-- A call leaves its loop when the maximum covers its latency. -/
theorem covered_step (h : Call.Step stats c stats' c') (hc : c.Covered stats) :
    c'.Covered stats' := by
  have hle := max_of_le h
  cases h with
  | addTotal => exact covered_of_before (by rintro _ ⟨⟩) rfl
  | addSum => exact covered_of_before (by rintro _ ⟨⟩) rfl
  | loadMax => exact covered_of_loaded ..
  | notLarger hlarger =>
      refine covered_of_past (by rintro _ ⟨⟩) ?_
      rw [gt_iff_lt, UInt64.lt_iff_toNat_lt, Nat.not_lt] at hlarger
      exact hlarger.trans (hc.loaded _ _ _ rfl rfl)
  | exchange hlarger hsame =>
      refine covered_of_past (by rintro _ ⟨⟩) ?_
      rw [GatewayStats.maxOf, GatewayStats.get_or_create_update, if_pos rfl]
  | exchangeFails hlarger => exact covered_of_loaded ..
  | inFlight hpos => exact covered_of_past (by rintro _ ⟨⟩) (hc.past _ _ rfl rfl)
  | noneInFlight hpos => exact covered_of_past (by rintro _ ⟨⟩) (hc.past _ _ rfl rfl)
  | subInFlight => exact covered_of_past (by rintro _ ⟨⟩) ((hc.past _ _ rfl rfl).trans (hle _))
  | success => exact covered_of_other (by rintro _ _ ⟨⟩)
  | error => exact covered_of_other (by rintro _ _ ⟨⟩)

end Maximum

namespace Recording

variable {s t : Recording}

/-- The invariant of the maximum: it covers all calls, and is zero or the latency of one. -/
structure MaxInv (s : Recording) : Prop where
  covered : ∀ c ∈ s.calls, c.Covered s.stats
  attained : ∀ route, s.stats.maxOf route = 0 ∨ ∃ latencyMs,
    .request route latencyMs ∈ s.calls.map Call.record ∧
      s.stats.maxOf route = latencyMs.toUInt64.toNat

theorem max_inv_start {stats : GatewayStats} (records : List Record)
    (hzero : ∀ route, stats.getOrCreate route = {}) : MaxInv (start stats records) := by
  constructor
  · intro c hc
    obtain ⟨record, -, rfl⟩ := List.mem_map.1 hc
    exact covered_of_before (by rintro _ ⟨⟩) rfl
  · intro route
    left
    show (stats.getOrCreate route).latencyMaxMs.toNat = 0
    rw [hzero route]
    rfl

theorem max_inv_step (hs : MaxInv s) (h : Step s t) : MaxInv t := by
  have hrecords := records_step h
  obtain ⟨hcall, hstep⟩ := h
  rename_i i c c' stats
  have hmem := List.mem_of_getElem? hcall
  constructor
  · intro d hd
    rcases List.mem_or_eq_of_mem_set hd with hold | rfl
    · exact (hs.covered d hold).mono (max_of_le hstep)
    · exact covered_step hstep (hs.covered c hmem)
  · intro route
    rw [hrecords]
    rcases max_of_step hstep route with heq | ⟨latencyMs, hrecord, heq, -⟩
    · rw [heq]
      exact hs.attained route
    · exact .inr ⟨latencyMs, hrecord ▸ List.mem_map_of_mem hmem, heq⟩

theorem max_inv_reachable (hs : MaxInv s) (h : Reachable s t) : MaxInv t := by
  induction h with
  | refl => exact hs
  | tail _ hstep ih => exact max_inv_step ih hstep

end Recording

/-! ## Latencies -/

section Latencies

variable {latencyMs : Int64}

theorem to_int_eq (latencyMs : Int64) :
    latencyMs.toInt = if 2 * latencyMs.toUInt64.toNat < 2 ^ 64 then (latencyMs.toUInt64.toNat : Int)
      else latencyMs.toUInt64.toNat - 2 ^ 64 :=
  BitVec.toInt_eq_toNat_cond latencyMs.toBitVec

theorem to_nat_of_nonneg (h : 0 ≤ latencyMs.toInt) :
    (latencyMs.toUInt64.toNat : Int) = latencyMs.toInt := by
  have hlt := latencyMs.toUInt64.toNat_lt
  rw [to_int_eq] at h ⊢
  split_ifs at h ⊢ <;> omega

theorem le_to_nat_of_neg (h : latencyMs.toInt < 0) : 2 ^ 63 ≤ latencyMs.toUInt64.toNat := by
  rw [to_int_eq] at h
  split_ifs at h <;> omega

theorem to_int_lt (latencyMs : Int64) : latencyMs.toInt < 2 ^ 63 := by
  have hlt := latencyMs.toUInt64.toNat_lt
  rw [to_int_eq]
  split_ifs <;> omega

/-- Modulo `2 ^ 64` the conversion to an unsigned number changes nothing. -/
theorem sum_emod (latencies : List Int64) :
    (((latencies.map fun latencyMs => latencyMs.toUInt64.toNat).sum : Nat) : Int) % 2 ^ 64 =
      (latencies.map Int64.toInt).sum % 2 ^ 64 := by
  induction latencies with
  | nil => rfl
  | cons first rest ih =>
      have hfirst := to_int_eq first
      simp only [List.map_cons, List.sum_cons, Nat.cast_add]
      split_ifs at hfirst <;> omega

/-- A number that is zero or one of the latencies as the counter has them, and not less than any of
them, is the maximum of the latencies exactly if none is negative. -/
theorem eq_max_iff {latencies : List Int64} {maximum : Nat}
    (hle : ∀ latencyMs ∈ latencies, latencyMs.toUInt64.toNat ≤ maximum)
    (hmem : maximum = 0 ∨ ∃ latencyMs ∈ latencies, maximum = latencyMs.toUInt64.toNat) :
    (maximum : Int) = ((latencies.map Int64.toInt).max?).getD 0 ↔
      ∀ latencyMs ∈ latencies, 0 ≤ latencyMs.toInt := by
  constructor
  · intro heq latencyMs hlatency
    by_contra hneg
    have hlarge := (le_to_nat_of_neg (not_le.1 hneg)).trans (hle latencyMs hlatency)
    cases hmax : (latencies.map Int64.toInt).max? with
    | none =>
        rw [List.max?_eq_none_iff, List.map_eq_nil_iff] at hmax
        rw [hmax] at hlatency
        cases hlatency
    | some largest =>
        obtain ⟨latencyMs', -, rfl⟩ := List.mem_map.1 (List.max?_eq_some_iff.1 hmax).1
        have hsmall := to_int_lt latencyMs'
        rw [hmax, Option.getD_some] at heq
        omega
  · intro hnonneg
    cases latencies with
    | nil =>
        obtain rfl : maximum = 0 := hmem.resolve_right (by rintro ⟨_, hnone, -⟩; cases hnone)
        rfl
    | cons first rest =>
        have hmax : ((first :: rest).map Int64.toInt).max? = some (maximum : Int) := by
          refine List.max?_eq_some_iff.2 ⟨?_, ?_⟩
          · rcases hmem with rfl | ⟨latencyMs, hlatency, rfl⟩
            · have hfirst := hle first List.mem_cons_self
              have hcast := to_nat_of_nonneg (hnonneg first List.mem_cons_self)
              refine List.mem_map.2 ⟨first, List.mem_cons_self, ?_⟩
              omega
            · refine List.mem_map.2 ⟨latencyMs, hlatency, ?_⟩
              exact (to_nat_of_nonneg (hnonneg latencyMs hlatency)).symm
          · intro value hvalue
            obtain ⟨latencyMs, hlatency, rfl⟩ := List.mem_map.1 hvalue
            have hcovered := hle latencyMs hlatency
            have hcast := to_nat_of_nonneg (hnonneg latencyMs hlatency)
            omega
        rw [hmax, Option.getD_some]

end Latencies

theorem mem_latencies_iff {route : Bytes} {latencyMs : Int64} {records : List Record} :
    latencyMs ∈ records.filterMap (Record.latency? route) ↔ .request route latencyMs ∈ records := by
  rw [List.mem_filterMap]
  constructor
  · rintro ⟨record, hmem, hlatency⟩
    cases record with
    | request route' latencyMs' =>
        simp only [Record.latency?] at hlatency
        split_ifs at hlatency with heq
        cases hlatency
        exact heq ▸ hmem
    | success route' => cases hlatency
    | error route' => cases hlatency
  · exact fun hmem => ⟨_, hmem, if_pos rfl⟩

theorem sum_requests (route : Bytes) (records : List Record) :
    (records.map (Record.requests route)).sum =
      (records.filterMap (Record.latency? route)).length := by
  induction records with
  | nil => rfl
  | cons record rest ih =>
      rw [List.map_cons, List.sum_cons, ih, List.filterMap_cons, Record.requests]
      cases record.latency? route with
      | none => exact Nat.zero_add _
      | some latencyMs => exact Nat.add_comm ..

theorem sum_latencies (route : Bytes) (records : List Record) :
    (records.map (Record.latency route)).sum =
      ((records.filterMap (Record.latency? route)).map fun latencyMs =>
        latencyMs.toUInt64.toNat).sum := by
  induction records with
  | nil => rfl
  | cons record rest ih =>
      rw [List.map_cons, List.sum_cons, ih, List.filterMap_cons, Record.latency]
      cases record.latency? route with
      | none => exact Nat.zero_add _
      | some latencyMs => rfl

theorem sum_decide (record : Record) (records : List Record) :
    (records.map fun other => (decide (other = record)).toNat).sum = records.count record := by
  induction records with
  | nil => rfl
  | cons first rest ih =>
      rw [List.map_cons, List.sum_cons, ih, List.count_cons]
      by_cases heq : first = record
      · simp [heq, Nat.add_comm]
      · simp [heq]

open Recording in
/-- No update is lost. However the atomic steps of any calls are interleaved, when all have returned
the counters of a route hold the numbers of its calls and the sum of its latencies, all modulo
`2 ^ 64`, and `latency_max_ms` is the maximum of its latencies exactly if none is negative. -/
theorem no_lost_update (stats : GatewayStats) (records : List Record) (s : Recording)
    (hzero : ∀ route, stats.getOrCreate route = {})
    (hreachable : Reachable (start stats records) s) (hfinished : s.Finished) (route : Bytes) :
    let rs := s.stats.getOrCreate route
    let latencies := records.filterMap (Record.latency? route)
    rs.totalRequests.toNat = latencies.length % 2 ^ 64 ∧
      rs.successCount.toNat = records.count (.success route) % 2 ^ 64 ∧
      rs.errorCount.toNat = records.count (.error route) % 2 ^ 64 ∧
      (rs.latencySumMs.toNat : Int) = (latencies.map Int64.toInt).sum % 2 ^ 64 ∧
      ((rs.latencyMaxMs.toNat : Int) = ((latencies.map Int64.toInt).max?).getD 0 ↔
        ∀ latencyMs ∈ latencies, 0 ≤ latencyMs.toInt) := by
  intro rs latencies
  have hrecords := records_reachable hreachable
  have hmax := max_inv_reachable (max_inv_start records hzero) hreachable
  have hnone : ∀ counter : RouteStats → UInt64, counter {} = 0 →
      counter (stats.getOrCreate route) = 0 :=
        fun counter h => (congrArg counter (hzero route)).trans h
  refine ⟨?_, ?_, ?_, ?_, ?_⟩
  · rw [counter_finished adds_total (by decide) (by decide) (hnone _ rfl) hreachable hfinished,
      sum_requests]
  · rw [counter_finished adds_success (by decide) (by decide) (hnone _ rfl) hreachable hfinished,
      sum_decide]
  · rw [counter_finished adds_error (by decide) (by decide) (hnone _ rfl) hreachable hfinished,
      sum_decide]
  · rw [counter_finished adds_sum (by decide) (by decide) (hnone _ rfl) hreachable hfinished,
      sum_latencies, Int.natCast_mod]
    exact sum_emod latencies
  · refine eq_max_iff ?_ ?_
    · intro latencyMs hlatency
      rw [mem_latencies_iff, ← hrecords] at hlatency
      obtain ⟨c, hc, hrecord⟩ := List.mem_map.1 hlatency
      exact (hmax.covered c hc).past route latencyMs hrecord (by rw [hfinished c hc]; rfl)
    · rcases hmax.attained route with hzero' | ⟨latencyMs, hmem, heq⟩
      · exact .inl hzero'
      · rw [hrecords] at hmem
        exact .inr ⟨latencyMs, mem_latencies_iff.2 hmem, heq⟩

/-- Statistics with an entry for one route. -/
def oneRoute : GatewayStats :=
  GatewayStats.update {} (ascii "/api") id

theorem one_route_zero (route : Bytes) : oneRoute.getOrCreate route = {} := by
  rw [oneRoute, GatewayStats.get_or_create_update]
  split_ifs <;> rfl

namespace Recording

theorem step_at {stats stats' : GatewayStats} {calls : List Call} {i : Nat} {c c' : Call}
    (hi : i < calls.length) (h : Call.Step stats c stats' c') :
    Step { stats, calls := calls.set i c } { stats := stats', calls := calls.set i c' } := by
  have hstep := Step.call (s := { stats, calls := calls.set i c }) (List.getElem?_set_self hi) h
  rwa [List.set_set] at hstep

/-- A call of `record_request` that is not interrupted. -/
theorem request_returns (stats : GatewayStats) (calls : List Call) (i : Nat) (route : Bytes)
    (latencyMs : Int64) (hi : i < calls.length)
    (hflight : (stats.getOrCreate route).inFlight = 0) :
    ∃ stats', Reachable { stats, calls := calls.set i ⟨.request route latencyMs, .start⟩ }
        { stats := stats', calls := calls.set i ⟨.request route latencyMs, .finished⟩ } ∧
      (stats'.getOrCreate route).inFlight = 0 ∧
      stats'.maxOf route = max (stats.maxOf route) latencyMs.toUInt64.toNat := by
  obtain ⟨added, hadded, hsame, hmax⟩ : ∃ added,
      Reachable { stats, calls := calls.set i ⟨.request route latencyMs, .start⟩ }
        { stats := added, calls := calls.set i ⟨.request route latencyMs, .loadMax⟩ } ∧
      (added.getOrCreate route).inFlight = 0 ∧ added.maxOf route = stats.maxOf route := by
    refine ⟨_, .tail (.single (step_at hi .addTotal)) (step_at hi .addSum), ?_, ?_⟩
    · rw [GatewayStats.get_or_create_update, if_pos rfl, GatewayStats.get_or_create_update,
        if_pos rfl]
      exact hflight
    · rw [GatewayStats.maxOf, GatewayStats.get_or_create_update, if_pos rfl,
        GatewayStats.get_or_create_update, if_pos rfl]
      rfl
  have hload : Call.Step added ⟨.request route latencyMs, .loadMax⟩ added
      ⟨.request route latencyMs, .raise (added.getOrCreate route).latencyMaxMs⟩ := .loadMax
  by_cases hlarger : latencyMs.toUInt64 > (added.getOrCreate route).latencyMaxMs
  · have hraised : ((added.update route fun rs =>
        { rs with latencyMaxMs := latencyMs.toUInt64 }).getOrCreate route) =
          { added.getOrCreate route with latencyMaxMs := latencyMs.toUInt64 } := by
      rw [GatewayStats.get_or_create_update, if_pos rfl]
    refine ⟨_, ((hadded.tail (step_at hi hload)).tail (step_at hi (.exchange hlarger rfl))).tail
      (step_at hi (.noneInFlight ?_)), ?_, ?_⟩
    · rw [hraised, hsame]
      decide
    · rw [hraised]
      exact hsame
    · rw [gt_iff_lt, UInt64.lt_iff_toNat_lt] at hlarger
      rw [← hmax, GatewayStats.maxOf, hraised, GatewayStats.maxOf, max_eq_right hlarger.le]
  · refine ⟨added, ((hadded.tail (step_at hi hload)).tail (step_at hi (.notLarger hlarger))).tail
      (step_at hi (.noneInFlight ?_)), hsame, ?_⟩
    · rw [hsame]
      decide
    · rw [gt_iff_lt, UInt64.lt_iff_toNat_lt, Nat.not_lt] at hlarger
      rw [← hmax, GatewayStats.maxOf, max_eq_left hlarger]

/-- Two calls for one route, one after the other. -/
theorem two_requests_return (route : Bytes) (first second : Int64) :
    ∃ s, Reachable (start oneRoute [.request route first, .request route second]) s ∧
      s.Finished ∧ s.stats.maxOf route = max first.toUInt64.toNat second.toUInt64.toNat := by
  have hstart : oneRoute.getOrCreate route = {} := one_route_zero route
  have hzero : oneRoute.maxOf route = 0 := by
    rw [GatewayStats.maxOf, hstart]
    rfl
  obtain ⟨stats, hfirst, hflight, hmax⟩ := request_returns oneRoute
    [⟨.request route first, .start⟩, ⟨.request route second, .start⟩] 0 route first
    Nat.zero_lt_two (by rw [hstart])
  obtain ⟨stats', hsecond, -, hmax'⟩ := request_returns stats
    [⟨.request route first, .finished⟩, ⟨.request route second, .start⟩] 1 route second
    Nat.one_lt_two hflight
  refine ⟨_, hfirst.trans hsecond, ?_, ?_⟩
  · intro c hc
    rcases List.mem_cons.1 hc with rfl | hc
    · rfl
    · rw [List.mem_singleton.1 hc]
  · rw [hmax', hmax, hzero, Nat.zero_max]

end Recording

open Recording in
theorem no_lost_update_two :
    ∃ s, Reachable (start oneRoute [.request (ascii "/api") 3, .request (ascii "/api") 7]) s ∧
      (s.stats.getOrCreate (ascii "/api")).totalRequests.toNat = 2 ∧
      (s.stats.getOrCreate (ascii "/api")).latencySumMs.toNat = 10 ∧
      (s.stats.getOrCreate (ascii "/api")).latencyMaxMs.toNat = 7 := by
  obtain ⟨s, hs, hfinished, -⟩ := two_requests_return (ascii "/api") 3 7
  obtain ⟨htotal, -, -, hsum, hmax⟩ := no_lost_update oneRoute _ s one_route_zero hs hfinished
    (ascii "/api")
  refine ⟨s, hs, htotal, ?_, ?_⟩
  · exact Int.ofNat.inj hsum
  · have hnonneg : ∀ latencyMs ∈ ([3, 7] : List Int64), 0 ≤ latencyMs.toInt := by simp
    exact Int.ofNat.inj (hmax.2 hnonneg)

open Recording in
/-- A negative latency hides the others. -/
theorem negative_latency_is_largest :
    ∃ s, Reachable (start oneRoute [.request (ascii "/api") (-1), .request (ascii "/api") 5]) s ∧
      s.Finished ∧ (s.stats.getOrCreate (ascii "/api")).latencyMaxMs.toNat = 2 ^ 64 - 1 := by
  obtain ⟨s, hs, hfinished, hmax⟩ := two_requests_return (ascii "/api") (-1) 5
  exact ⟨s, hs, hfinished, hmax.trans (by decide)⟩

end ApiGateway.Monitor
