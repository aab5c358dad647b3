import ApiGateway.Library.Rounds
import ApiGateway.Library.Table
import ApiGateway.Proxy.Backend

/-!
# The load balancer

`LoadBalancer` of `load_balancer.cpp`. One balancer, with one counter for `select_roundRobin` and
one table of connection counts, serves all routes of the gateway.

`round_robin_fair_iff` says for which orders of calls each list of backends gets its turns: the
calls for other lists advance the counter as well. `counts_match_iff` is about the requests that
`process_request` takes through the balancer: the table counts the requests in flight as long as no
request that `select_leastConnections` has counted goes on to `on_connect` or is rejected.
-/

namespace ApiGateway.Proxy

open ApiGateway.Core (Backend)

/-- `enum class LBAlgorithm`. -/
inductive LBAlgorithm where
  | roundRobin
  | random
  | leastConnections
  deriving DecidableEq

/-- `class LoadBalancer`. A key that is missing in `conn_counts_` has the count that `operator[]`
gives it. -/
structure LoadBalancer where
  algo : LBAlgorithm := .roundRobin
  rrCounter : Nat := 0
  connCounts : Bytes → Nat := fun _ => 0

namespace LoadBalancer

/-- `make_key`, for a backend. -/
def key (backend : Backend) : Bytes :=
  makeKey backend.host backend.port

theorem key_inj {b b' : Backend} : key b = key b' ↔ b = b' := by
  constructor
  · intro h
    obtain ⟨hhost, hport⟩ := make_key_inj h
    cases b
    cases b'
    simp_all
  · rintro rfl
    rfl

/-- `on_connect`. -/
def onConnect (lb : LoadBalancer) (backend : Backend) : LoadBalancer :=
  { lb with
    connCounts := Function.update lb.connCounts (key backend) (lb.connCounts (key backend) + 1) }

/-- `on_disconnect`. -/
def onDisconnect (lb : LoadBalancer) (backend : Backend) : LoadBalancer :=
  { lb with
    connCounts := Function.update lb.connCounts (key backend)
      (if 0 < lb.connCounts (key backend) then lb.connCounts (key backend) - 1
        else lb.connCounts (key backend)) }

/-- The variable `idx` of `select_roundRobin`. -/
def roundRobinIdx (lb : LoadBalancer) (backends : List Backend) : Nat :=
  lb.rrCounter % backends.length

/-- The backend at a position of a list that has one. -/
def entry (backends : List Backend) (idx : Nat) : Backend :=
  backends.getD idx ⟨[], 0⟩

/-- `select_roundRobin`. The counter is a `size_t`. -/
def selectRoundRobin (lb : LoadBalancer) (backends : List Backend) : Backend × LoadBalancer :=
  (entry backends (lb.roundRobinIdx backends),
    { lb with rrCounter := (lb.rrCounter + 1) % 2 ^ 64 })

/-- `select_random`, for the position that the generator draws. -/
def selectRandom (lb : LoadBalancer) (draw : Nat) (backends : List Backend) :
    Backend × LoadBalancer :=
  (entry backends draw, lb)

/-- A count as `select_leastConnections` compares it, converted to `int`. -/
def intCount (lb : LoadBalancer) (backend : Backend) : Int :=
  (lb.connCounts (key backend) : Int).bmod (2 ^ 32)

/-- The loop of `select_leastConnections` over the backends after the first. -/
def leastFrom (lb : LoadBalancer) (best : Backend) (minConn : Int) : List Backend → Backend
  | [] => best
  | b :: rest =>
      if lb.intCount b < minConn then leastFrom lb b (lb.intCount b) rest
      else leastFrom lb best minConn rest

/-- `select_leastConnections`. It counts the selected backend as `on_connect` does. -/
def selectLeastConnections (lb : LoadBalancer) (first : Backend) (rest : List Backend) :
    Backend × LoadBalancer :=
  let best := lb.leastFrom first (lb.intCount first) rest
  (best, lb.onConnect best)

/-- `select`. -/
def select (lb : LoadBalancer) (draw : Nat) : List Backend → Backend × LoadBalancer
  | [] => (⟨[], 0⟩, lb)
  | [b] => (b, lb)
  | b :: b' :: rest =>
      match lb.algo with
      | .roundRobin => lb.selectRoundRobin (b :: b' :: rest)
      | .random => lb.selectRandom draw (b :: b' :: rest)
      | .leastConnections => lb.selectLeastConnections b (b' :: rest)

/-! ## Turns of a list -/

/-- A call of `select` under round robin: the list that is passed, the position `idx` in it, and the
backend that is returned. -/
structure Selection where
  backends : List Backend
  idx : Nat
  result : Backend
  deriving DecidableEq

/-- A call that returns the backend at position `p` of a list. -/
def Selection.isOf (backends : List Backend) (p : Nat) (c : Selection) : Bool :=
  c.backends = backends ∧ c.idx = p ∧ backends[p]? = some c.result

/-- A run of `select` under round robin, for the lists that are passed. -/
def picks (lb : LoadBalancer) : List (List Backend) → List Selection
  | [] => []
  | backends :: calls =>
      ⟨backends, lb.roundRobinIdx backends, (lb.select 0 backends).1⟩ ::
        picks (lb.select 0 backends).2 calls

/-- How often position `p` of a list has been selected. -/
def selections (history : List Selection) (backends : List Backend) (p : Nat) : Nat :=
  history.countP (Selection.isOf backends p)

/-- The numbers of the calls for a list among all calls. -/
def callNumbers (backends : List Backend) (calls : List (List Backend)) : List Nat :=
  (calls.zipIdx.filter fun call => call.1 = backends).map Prod.snd

/-- The same, modulo the length of the list. -/
def residues (backends : List Backend) (calls : List (List Backend)) : List Nat :=
  (callNumbers backends calls).map (· % backends.length)

theorem select_round_robin {lb : LoadBalancer} (halgo : lb.algo = .roundRobin)
    {backends : List Backend} (hsize : 2 ≤ backends.length) (draw : Nat) :
    lb.select draw backends = lb.selectRoundRobin backends := by
  match backends, hsize with
  | b :: b' :: rest, _ => simp only [select, halgo]

/-- The call with the given number, which counts the calls for all lists. -/
def numbered (call : List Backend × Nat) : Selection :=
  ⟨call.1, call.2 % call.1.length, entry call.1 (call.2 % call.1.length)⟩

/-- The position depends only on the number of the call, and the backend there is returned. -/
theorem picks_eq {calls : List (List Backend)} (hsize : ∀ l ∈ calls, 2 ≤ l.length) {k : Nat}
    {lb : LoadBalancer} (halgo : lb.algo = .roundRobin) (hcounter : lb.rrCounter = k % 2 ^ 64) :
    lb.picks calls = (calls.zipIdx k).map fun call => numbered (call.1, call.2 % 2 ^ 64) := by
  induction calls generalizing lb k with
  | nil => rfl
  | cons backends calls ih =>
      have hselect := select_round_robin halgo (hsize backends List.mem_cons_self) 0
      have hnext : (lb.select 0 backends).2.rrCounter = (k + 1) % 2 ^ 64 := by
        rw [hselect]
        simp only [selectRoundRobin, hcounter]
        omega
      have halgo' : (lb.select 0 backends).2.algo = .roundRobin := by
        rw [hselect]
        exact halgo
      have hresult : (lb.select 0 backends).1 = entry backends (k % 2 ^ 64 % backends.length) := by
        rw [hselect, ← hcounter]
        rfl
      rw [picks, ih (fun l hl => hsize l (List.mem_cons_of_mem _ hl)) halgo' hnext,
        List.zipIdx_cons, List.map_cons, hresult, roundRobinIdx, hcounter]
      rfl

theorem picks_start {calls : List (List Backend)} (hsize : ∀ l ∈ calls, 2 ≤ l.length)
    (htotal : calls.length < 2 ^ 64) :
    ({} : LoadBalancer).picks calls = calls.zipIdx.map numbered := by
  rw [picks_eq hsize rfl (k := 0) rfl]
  refine List.map_congr_left fun call hcall => ?_
  have hlt : call.2 < calls.length := by
    have := List.snd_lt_add_of_mem_zipIdx hcall
    omega
  rw [Nat.mod_eq_of_lt (hlt.trans htotal)]

theorem numbered_is_of {call : List Backend × Nat} (hsize : 2 ≤ call.1.length)
    (backends : List Backend) (p : Nat) :
    (numbered call).isOf backends p =
      decide (call.1 = backends ∧ call.2 % call.1.length = p) := by
  have hlt : call.2 % call.1.length < call.1.length := Nat.mod_lt _ (by omega)
  have hentry : call.1[call.2 % call.1.length]? =
      some (entry call.1 (call.2 % call.1.length)) := by
    rw [List.getElem?_eq_getElem hlt, entry, List.getD_eq_getElem _ _ hlt]
  refine decide_eq_decide.2 ⟨fun h => ⟨h.1, h.2.1⟩, ?_⟩
  rintro ⟨rfl, rfl⟩
  exact ⟨rfl, rfl, hentry⟩

/-- The positions that are selected in a list are the numbers of its calls, modulo its length. -/
theorem selections_picks {calls : List (List Backend)} (hsize : ∀ l ∈ calls, 2 ≤ l.length)
    (htotal : calls.length < 2 ^ 64) (backends : List Backend) (p : Nat) :
    selections (({} : LoadBalancer).picks calls) backends p =
      (residues backends calls).count p := by
  have hlists : ∀ call ∈ calls.zipIdx, 2 ≤ call.1.length := fun call hcall =>
    hsize _ (List.fst_mem_of_mem_zipIdx hcall)
  rw [selections, picks_start hsize htotal, residues, callNumbers]
  revert hlists
  induction calls.zipIdx with
  | nil => exact fun _ => rfl
  | cons call rest ih =>
      intro hlists
      obtain ⟨hcall, hrest⟩ := List.forall_mem_cons.1 hlists
      rw [List.map_cons, List.countP_cons, ih hrest, numbered_is_of hcall]
      by_cases heq : call.1 = backends
      · simp [List.count_cons, heq]
      · simp [heq]

/-- In a list without duplicates the position is that of the backend returned. -/
theorem selections_eq_returned {calls : List (List Backend)} (hsize : ∀ l ∈ calls, 2 ≤ l.length)
    (htotal : calls.length < 2 ^ 64) {backends : List Backend} (hnodup : backends.Nodup) {p : Nat}
    {b : Backend} (hb : backends[p]? = some b) :
    selections (({} : LoadBalancer).picks calls) backends p =
      (({} : LoadBalancer).picks calls).countP fun c => c.backends = backends ∧ c.result = b := by
  rw [selections, picks_start hsize htotal]
  refine List.countP_congr fun c hc => ?_
  obtain ⟨call, hcall, rfl⟩ := List.mem_map.1 hc
  have hlt : call.2 % call.1.length < call.1.length :=
    Nat.mod_lt _ (by have := hsize _ (List.fst_mem_of_mem_zipIdx hcall); omega)
  simp only [Selection.isOf, decide_eq_true_eq, hb, Option.some.injEq]
  refine ⟨fun h => ⟨h.1, h.2.2.symm⟩, ?_⟩
  rintro ⟨rfl, hresult⟩
  refine ⟨rfl, ?_, hresult.symm⟩
  obtain ⟨hp, hget⟩ := List.getElem?_eq_some_iff.1 hb
  have hentry : call.1[call.2 % call.1.length] = b := by
    rw [← hresult]
    exact (List.getD_eq_getElem _ _ hlt).symm
  exact (List.Nodup.getElem_inj_iff hnodup).1 (hentry.trans hget.symm)

theorem residues_append (backends : List Backend) (calls more : List (List Backend)) :
    ∃ extra, residues backends (calls ++ more) = residues backends calls ++ extra := by
  simp only [residues, callNumbers, List.zipIdx_append, List.filter_append, List.map_append]
  exact ⟨_, rfl⟩

theorem residues_concat (backends : List Backend) (calls : List (List Backend))
    (call : List Backend) : (residues backends (calls ++ [call])).length ≤
      (residues backends calls).length + 1 := by
  simp only [residues, callNumbers, List.zipIdx_append, List.filter_append, List.map_append,
    List.length_append, List.length_map]
  exact Nat.add_le_add_left (List.length_filter_le _ _) _

/-- The beginnings of the sequence of positions belong to beginnings of the run. -/
theorem exists_past_residues (backends : List Backend) (calls : List (List Backend)) (m : Nat) :
    ∃ past, past <+: calls ∧ residues backends past = (residues backends calls).take m := by
  induction calls using List.reverseRecOn with
  | nil => exact ⟨[], List.prefix_refl _, by simp [residues, callNumbers]⟩
  | append_singleton calls call ih =>
      obtain ⟨extra, hextra⟩ := residues_append backends calls [call]
      by_cases hm : m ≤ (residues backends calls).length
      · obtain ⟨past, hpast, heq⟩ := ih
        refine ⟨past, hpast.trans (List.prefix_append _ _), ?_⟩
        rw [heq, hextra, List.take_append_of_le_length hm]
      · refine ⟨calls ++ [call], List.prefix_refl _, (List.take_of_length_le ?_).symm⟩
        have := residues_concat backends calls call
        omega

theorem residues_lt {backends : List Backend} (hsize : 2 ≤ backends.length)
    (calls : List (List Backend)) : ∀ x ∈ residues backends calls, x < backends.length := by
  intro x hx
  obtain ⟨number, -, rfl⟩ := List.mem_map.1 hx
  exact Nat.mod_lt _ (by omega)

/-- The numbers of selections of any two positions of a list differ by at most one. -/
def Fair (history : List Selection) (backends : List Backend) : Prop :=
  ∀ p < backends.length, ∀ p' < backends.length,
    selections history backends p ≤ selections history backends p' + 1

theorem fair_iff {calls : List (List Backend)} (hsize : ∀ l ∈ calls, 2 ≤ l.length)
    (htotal : calls.length < 2 ^ 64) (backends : List Backend) :
    Fair (({} : LoadBalancer).picks calls) backends ↔
      Rounds.Balanced backends.length (residues backends calls) := by
  simp only [Fair, Rounds.Balanced, selections_picks hsize htotal]

/-- Every list gets its turns, at every point of a run, if and only if the calls for it come so
that in each of its rounds (as many consecutive calls for it as it has backends) the numbers of the
calls, counted over all lists, are pairwise different modulo its length. In a list without
duplicates, the selections of a position are the calls that return its backend. -/
theorem round_robin_fair_iff (calls : List (List Backend)) (hsize : ∀ l ∈ calls, 2 ≤ l.length)
    (htotal : calls.length < 2 ^ 64) :
    (∀ backends ∈ calls, backends.Nodup → ∀ p b, backends[p]? = some b →
        selections (({} : LoadBalancer).picks calls) backends p =
          (({} : LoadBalancer).picks calls).countP fun c =>
            c.backends = backends ∧ c.result = b) ∧
      ((∀ backends ∈ calls, ∀ past, past <+: calls →
          Fair (({} : LoadBalancer).picks past) backends) ↔
        ∀ backends ∈ calls, ∀ q,
          (Rounds.round backends.length q (residues backends calls)).Nodup) := by
  refine ⟨fun backends _ hnodup p b hb => selections_eq_returned hsize htotal hnodup hb, ?_⟩
  refine forall_congr' fun backends => forall_congr' fun hmem => ?_
  have hsize' := hsize backends hmem
  rw [← Rounds.balanced_take_iff (by omega) (residues_lt hsize' calls)]
  have hpast : ∀ past, past <+: calls → (Fair (({} : LoadBalancer).picks past) backends ↔
      Rounds.Balanced backends.length (residues backends past)) := fun past hpast =>
    fair_iff (fun l hl => hsize l (hpast.subset hl)) (hpast.length_le.trans_lt htotal) backends
  constructor
  · intro h m
    obtain ⟨past, hpre, heq⟩ := exists_past_residues backends calls m
    rw [← heq]
    exact (hpast past hpre).1 (h past hpre)
  · intro h past hpre
    obtain ⟨more, rfl⟩ := hpre
    obtain ⟨extra, hextra⟩ := residues_append backends past more
    have hbalanced := h (residues backends past).length
    rw [hextra, List.take_left] at hbalanced
    exact (hpast past (List.prefix_append _ _)).2 hbalanced

/-- The backends of one route. -/
def users : List Backend := [⟨ascii "10.0.0.1", 9001⟩, ⟨ascii "10.0.0.2", 9001⟩]

/-- The backends of another route. -/
def orders : List Backend := [⟨ascii "10.0.0.1", 9002⟩, ⟨ascii "10.0.0.2", 9002⟩]

/-- A route called alone gets its turns. -/
theorem round_robin_fair_two : (∀ l ∈ [users, users], 2 ≤ l.length) ∧
    (({} : LoadBalancer).picks [users, users]).map Selection.result = users ∧
      ∀ backends ∈ [users, users], ∀ past, past <+: [users, users] →
        Fair (({} : LoadBalancer).picks past) backends := by
  have hsize : ∀ l ∈ [users, users], 2 ≤ l.length := by decide
  refine ⟨hsize, rfl, (round_robin_fair_iff [users, users] hsize (by decide)).2.2 ?_⟩
  intro backends hmem q
  have hbackends : backends = users := by simpa using hmem
  have hresidues : residues users [users, users] = [0, 1] := by decide
  rw [hbackends, hresidues]
  cases q with
  | zero => decide
  | succ q =>
      have hlength : [0, 1].length ≤ (q + 1) * users.length := by
        show 2 ≤ (q + 1) * 2
        omega
      simp [Rounds.round, List.drop_eq_nil_of_le hlength]

/-- Two routes that are called in turn: the first backend of one gets all its requests. -/
theorem round_robin_unfair : (∀ l ∈ [users, orders, users], 2 ≤ l.length) ∧
    (({} : LoadBalancer).picks [users, orders, users]).map Selection.result =
        [⟨ascii "10.0.0.1", 9001⟩, ⟨ascii "10.0.0.2", 9002⟩, ⟨ascii "10.0.0.1", 9001⟩] ∧
      ¬ Fair (({} : LoadBalancer).picks [users, orders, users]) users := by
  refine ⟨by decide, rfl, fun h => ?_⟩
  exact absurd (h 0 (by decide) 1 (by decide)) (by decide)

end LoadBalancer

/-! ## Requests in flight -/

/-- Where a request is in `process_request`, seen from the balancer. -/
inductive BalancedStage where
  | selected
  | rejected
  | connected
  | finished
  deriving DecidableEq

/-- A request: the list that was passed to `select`, the backend it returned, and the stage. -/
structure BalancedRequest where
  backends : List Backend
  target : Backend
  stage : BalancedStage := .selected
  deriving DecidableEq

/-- Whether `select` has counted the backend of a request. -/
def BalancedRequest.precounted (algo : LBAlgorithm) (r : BalancedRequest) : Bool :=
  algo = .leastConnections ∧ 2 ≤ r.backends.length

/-- A balancer with all requests so far. -/
structure Balancing where
  lb : LoadBalancer
  requests : List BalancedRequest := []

namespace Balancing

/-- Request `q` has arrived at another stage. -/
def move (s : Balancing) (q : Nat) (r : BalancedRequest) (stage : BalancedStage)
    (lb : LoadBalancer) : Balancing where
  lb := lb
  requests := s.requests.set q { r with stage := stage }

/-- A step of one of the requests. Between `select` and `on_connect` stands the circuit breaker,
and between `on_connect` and `on_disconnect` the request is forwarded. -/
inductive Step : Balancing → Balancing → Prop where
  | select {s : Balancing} (draw : Nat) (backends : List Backend) :
      Step s { lb := (s.lb.select draw backends).2
               requests := s.requests ++
                 [{ backends := backends, target := (s.lb.select draw backends).1 }] }
  | reject {s : Balancing} {q : Nat} {r : BalancedRequest} (hr : s.requests[q]? = some r)
      (hstage : r.stage = .selected) : Step s (s.move q r .rejected s.lb)
  | connect {s : Balancing} {q : Nat} {r : BalancedRequest} (hr : s.requests[q]? = some r)
      (hstage : r.stage = .selected) : Step s (s.move q r .connected (s.lb.onConnect r.target))
  | disconnect {s : Balancing} {q : Nat} {r : BalancedRequest} (hr : s.requests[q]? = some r)
      (hstage : r.stage = .connected) :
      Step s (s.move q r .finished (s.lb.onDisconnect r.target))

/-- The states of a balancer with the given algorithm. -/
def Reachable (algo : LBAlgorithm) : Balancing → Prop :=
  Relation.ReflTransGen Step { lb := { algo := algo } }

end Balancing

namespace BalancedRequest

/-- A request for `b` between `on_connect` and `on_disconnect`. -/
def connectedTo (b : Backend) (r : BalancedRequest) : Bool :=
  r.target = b ∧ r.stage = .connected

/-- A request for `b` that `select` has counted. -/
def precountedFor (algo : LBAlgorithm) (b : Backend) (r : BalancedRequest) : Bool :=
  r.target = b ∧ r.precounted algo

/-- A request for `b` that is in flight: from the point at which it is first counted, its selection
or `on_connect`, up to `on_disconnect`. -/
def inFlight (algo : LBAlgorithm) (b : Backend) (r : BalancedRequest) : Bool :=
  r.target = b ∧ (r.stage = .connected ∨ r.stage = .selected ∧ r.precounted algo)

/-- A request for `b` that `select` has counted and that has gone on. -/
def leftSelection (algo : LBAlgorithm) (b : Backend) (r : BalancedRequest) : Bool :=
  r.target = b ∧ r.precounted algo ∧ r.stage ≠ .selected

/-- A request is counted twice, or although it is not in flight, if it has gone on. -/
theorem count_split (algo : LBAlgorithm) (b : Backend) (requests : List BalancedRequest) :
    requests.countP (connectedTo b) + requests.countP (precountedFor algo b) =
      requests.countP (inFlight algo b) + requests.countP (leftSelection algo b) := by
  induction requests with
  | nil => rfl
  | cons r rest ih =>
      have hone : (connectedTo b r).toNat + (precountedFor algo b r).toNat =
          (inFlight algo b r).toNat + (leftSelection algo b r).toNat := by
        by_cases htarget : r.target = b
        · cases hpre : r.precounted algo <;> cases hstage : r.stage <;>
            simp [connectedTo, precountedFor, inFlight, leftSelection, htarget, hpre, hstage]
        · simp [connectedTo, precountedFor, inFlight, leftSelection, htarget]
      simp only [Table.countP_cons]
      omega

end BalancedRequest

namespace Balancing

open BalancedRequest

/-- The table counts every request from `on_connect` to `on_disconnect`, and all that `select` has
counted for ever. -/
structure Inv (algo : LBAlgorithm) (s : Balancing) : Prop where
  algorithm : s.lb.algo = algo
  counts : ∀ b, s.lb.connCounts (LoadBalancer.key b) =
    s.requests.countP (connectedTo b) + s.requests.countP (precountedFor algo b)

variable {algo : LBAlgorithm} {s t : Balancing} {q : Nat} {r : BalancedRequest}

theorem conn_counts_on_connect (lb : LoadBalancer) (target b : Backend) :
    (lb.onConnect target).connCounts (LoadBalancer.key b) =
      lb.connCounts (LoadBalancer.key b) + (decide (target = b)).toNat := by
  by_cases h : target = b
  · subst h
    simp [LoadBalancer.onConnect]
  · have hne : LoadBalancer.key b ≠ LoadBalancer.key target := fun hkey =>
      h (LoadBalancer.key_inj.1 hkey).symm
    simp [LoadBalancer.onConnect, Function.update_of_ne hne, h]

/-- The count does not stop at zero for a backend that is counted. -/
theorem conn_counts_on_disconnect (lb : LoadBalancer) {target : Backend} (b : Backend)
    (hpos : 0 < lb.connCounts (LoadBalancer.key target)) :
    (lb.onDisconnect target).connCounts (LoadBalancer.key b) + (decide (target = b)).toNat =
      lb.connCounts (LoadBalancer.key b) := by
  by_cases h : target = b
  · subst h
    simp [LoadBalancer.onDisconnect, hpos, Nat.sub_add_cancel hpos]
  · have hne : LoadBalancer.key b ≠ LoadBalancer.key target := fun hkey =>
      h (LoadBalancer.key_inj.1 hkey).symm
    simp [LoadBalancer.onDisconnect, Function.update_of_ne hne, h]

/-- `select` counts its result only for the least connections, and only in longer lists. -/
theorem conn_counts_select (lb : LoadBalancer) (draw : Nat) (backends : List Backend)
    (b : Backend) : (lb.select draw backends).2.connCounts (LoadBalancer.key b) =
      lb.connCounts (LoadBalancer.key b) +
        (precountedFor lb.algo b
          { backends := backends, target := (lb.select draw backends).1 }).toNat := by
  match backends with
  | [] | [_] => simp [LoadBalancer.select, precountedFor, precounted]
  | b₁ :: b₂ :: rest =>
      cases halgo : lb.algo with
      | roundRobin | random =>
          simp [LoadBalancer.select, LoadBalancer.selectRoundRobin, LoadBalancer.selectRandom,
            halgo, precountedFor, precounted]
      | leastConnections =>
          simp [LoadBalancer.select, LoadBalancer.selectLeastConnections, halgo, precountedFor,
            precounted, conn_counts_on_connect]

theorem algo_select (lb : LoadBalancer) (draw : Nat) (backends : List Backend) :
    (lb.select draw backends).2.algo = lb.algo := by
  match backends with
  | [] | [_] => rfl
  | b₁ :: b₂ :: rest =>
      cases halgo : lb.algo with
      | roundRobin | random | leastConnections =>
          simp [LoadBalancer.select, LoadBalancer.selectRoundRobin, LoadBalancer.selectRandom,
            LoadBalancer.selectLeastConnections, LoadBalancer.onConnect, halgo]

/-- A request moves on; its backend and what `select` has counted stay. -/
theorem Inv.move (hs : Inv algo s) (hr : s.requests[q]? = some r) {stage : BalancedStage}
    {lb : LoadBalancer} (halgo : lb.algo = s.lb.algo)
    (hcounts : ∀ b, lb.connCounts (LoadBalancer.key b) + (connectedTo b r).toNat =
      s.lb.connCounts (LoadBalancer.key b) + (connectedTo b { r with stage := stage }).toNat) :
    Inv algo (s.move q r stage lb) := by
  refine ⟨halgo.trans hs.algorithm, fun b => ?_⟩
  have hconnected : (s.move q r stage lb).requests.countP (connectedTo b) +
      (connectedTo b r).toNat =
        s.requests.countP (connectedTo b) + (connectedTo b { r with stage := stage }).toNat :=
    Table.countP_set hr _ _
  have hprecounted : (s.move q r stage lb).requests.countP (precountedFor algo b) +
      (precountedFor algo b r).toNat =
        s.requests.countP (precountedFor algo b) + (precountedFor algo b r).toNat :=
    Table.countP_set hr _ _
  have hbefore := hs.counts b
  have hafter := hcounts b
  show lb.connCounts (LoadBalancer.key b) = _
  omega

theorem inv_step (hs : Inv algo s) (h : Step s t) : Inv algo t := by
  cases h with
  | select draw backends =>
      refine ⟨(algo_select ..).trans hs.algorithm, fun b => ?_⟩
      have hbefore := hs.counts b
      simp only [Table.countP_append, conn_counts_select, hs.algorithm]
      have hnew : connectedTo b { backends := backends, target := (s.lb.select draw backends).1 } =
          false := by simp [connectedTo]
      rw [hnew, Bool.toNat_false]
      omega
  | reject hr hstage =>
      refine hs.move hr rfl fun b => ?_
      simp [connectedTo, hstage]
  | @connect q r hr hstage =>
      refine hs.move hr rfl fun b => ?_
      simp [connectedTo, hstage, conn_counts_on_connect]
  | @disconnect q r hr hstage =>
      have hpos : 0 < s.lb.connCounts (LoadBalancer.key r.target) := by
        have hcounted : 0 < s.requests.countP (connectedTo r.target) :=
          List.countP_pos_iff.2 ⟨r, List.mem_of_getElem? hr, by simp [connectedTo, hstage]⟩
        have := hs.counts r.target
        omega
      refine hs.move hr rfl fun b => ?_
      have := conn_counts_on_disconnect s.lb b hpos
      simp [connectedTo, hstage]
      omega

theorem inv_reachable (hs : Reachable algo s) : Inv algo s := by
  induction hs with
  | refl => exact ⟨rfl, fun b => rfl⟩
  | tail _ h ih => exact inv_step ih h

/-- In every state, the count of a backend is the number of its requests in flight if and only if no
request for it that `select_leastConnections` has taken from a list of several backends has gone on
from its selection. -/
theorem counts_match_iff (algo : LBAlgorithm) (s : Balancing) (hs : Reachable algo s)
    (b : Backend) :
    s.lb.connCounts (LoadBalancer.key b) = s.requests.countP (inFlight algo b) ↔
      ∀ r ∈ s.requests, r.target = b → algo = .leastConnections → 2 ≤ r.backends.length →
        r.stage = .selected := by
  have hsplit := count_split algo b s.requests
  have hcounts := (inv_reachable hs).counts b
  have hnone : s.requests.countP (leftSelection algo b) = 0 ↔
      ∀ r ∈ s.requests, r.target = b → algo = .leastConnections → 2 ≤ r.backends.length →
        r.stage = .selected := by
    simp [List.countP_eq_zero, leftSelection, precounted]
  rw [← hnone]
  omega

/-- One request under round robin, after `on_connect`. -/
def oneConnected : Balancing where
  lb := (({ rrCounter := 1 } : LoadBalancer).onConnect ⟨ascii "10.0.0.1", 9001⟩)
  requests := [⟨LoadBalancer.users, ⟨ascii "10.0.0.1", 9001⟩, .connected⟩]

theorem one_connected_reachable : Reachable .roundRobin oneConnected := by
  have hselect : Reachable .roundRobin _ :=
    Relation.ReflTransGen.single (Step.select 0 LoadBalancer.users)
  have hconnect : Reachable .roundRobin _ := hselect.tail (.connect (q := 0) rfl rfl)
  exact hconnect

theorem counts_match_connected : Reachable .roundRobin oneConnected ∧
    oneConnected.lb.connCounts (LoadBalancer.key ⟨ascii "10.0.0.1", 9001⟩) =
      oneConnected.requests.countP (inFlight .roundRobin ⟨ascii "10.0.0.1", 9001⟩) := by
  refine ⟨one_connected_reachable, ?_⟩
  exact (counts_match_iff .roundRobin oneConnected one_connected_reachable _).2 nofun

/-- After its only request has been served, a balancer for the least connections still
counts one. -/
theorem counts_drift : ∃ s, Reachable .leastConnections s ∧
    s.lb.connCounts (LoadBalancer.key ⟨ascii "10.0.0.1", 9001⟩) = 1 ∧
      ∀ b, s.requests.countP (inFlight .leastConnections b) = 0 := by
  have hselect : Reachable .leastConnections _ :=
    Relation.ReflTransGen.single (Step.select 0 LoadBalancer.users)
  have hconnect : Reachable .leastConnections _ := hselect.tail (.connect (q := 0) rfl rfl)
  have hdisconnect : Reachable .leastConnections _ := hconnect.tail (.disconnect (q := 0) rfl rfl)
  refine ⟨_, hdisconnect, by decide, fun b => ?_⟩
  rw [List.countP_eq_zero]
  intro r hr
  have hstage : r.stage = .finished := by
    rw [List.mem_singleton.1 hr]
  simp [inFlight, hstage]

end Balancing

end ApiGateway.Proxy
