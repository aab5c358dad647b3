import ApiGateway.Core.Config
import ApiGateway.Core.Json

/-!
# Loading a configuration

`parse_config` and `ConfigLoader::load_json` of `config_loader.cpp`: nested loops over the tokens
of a file, each of which has to leave the current token where the enclosing loop expects it. The
loop over the backends of a route does not: it leaves the closing brace of the first backend as the
current token and takes it for the end of the array. The main results are
`load_json_returns`, which says what is loaded from a rendered configuration, and `round_trip_iff`:
the configuration is loaded as it was exactly when every route has one backend.
-/

namespace ApiGateway.Core

open Loop JsonParser

/-- The values of the variables that the source leaves uninitialized: the type of the token
before the first one, and the port of a backend without that member. -/
structure Uninitialized where
  type : TokenType
  port : Int

/-- An integer member of the configuration: its key, and how it is read and assigned. -/
structure IntField where
  key : Bytes
  get : GatewayConfig → Int
  set : GatewayConfig → Int → GatewayConfig

/-- The integer members, in the order in which `parse_config` compares their keys. -/
def intFields : List IntField :=
  [⟨ascii "listen_port", (·.listenPort), fun c n => { c with listenPort := n }⟩,
    ⟨ascii "keep_alive_timeout_sec", (·.keepAliveTimeoutSec),
      fun c n => { c with keepAliveTimeoutSec := n }⟩,
    ⟨ascii "thread_count", (·.threadCount), fun c n => { c with threadCount := n }⟩,
    ⟨ascii "backend_timeout_ms", (·.backendTimeoutMs), fun c n => { c with backendTimeoutMs := n }⟩,
    ⟨ascii "max_request_size", (·.maxRequestSize), fun c n => { c with maxRequestSize := n }⟩,
    ⟨ascii "max_epoll_events", (·.maxEpollEvents), fun c n => { c with maxEpollEvents := n }⟩,
    ⟨ascii "idle_cleanup_interval_sec", (·.idleCleanupIntervalSec),
      fun c n => { c with idleCleanupIntervalSec := n }⟩,
    ⟨ascii "pool_max_idle_per_host", (·.poolMaxIdlePerHost),
      fun c n => { c with poolMaxIdlePerHost := n }⟩,
    ⟨ascii "pool_idle_timeout_sec", (·.poolIdleTimeoutSec),
      fun c n => { c with poolIdleTimeoutSec := n }⟩,
    ⟨ascii "max_connections", (·.maxConnections), fun c n => { c with maxConnections := n }⟩,
    ⟨ascii "max_queue_size", (·.maxQueueSize), fun c n => { c with maxQueueSize := n }⟩,
    ⟨ascii "max_deferred_per_round", (·.maxDeferredPerRound),
      fun c n => { c with maxDeferredPerRound := n }⟩]

/-! ## The loops of `parse_config` -/

/-- Advance if the current token has the given type. -/
def skipToken (p : JsonParser) (type : TokenType) : Fueled JsonParser :=
  if p.type = type then p.advance else pure p

/-- From a key to its value, over the colon. -/
def toValue (p : JsonParser) : Fueled JsonParser := do
  let p ← p.advance
  p.advance

/-- From a value to the next key, over the comma if there is one. -/
def nextMember (p : JsonParser) : Fueled JsonParser := do
  let p ← p.advance
  skipToken p .comma

/-- A member of a backend object, at its value. -/
def backendMember (key : Bytes) (p : JsonParser) (b : Backend) : Fueled (JsonParser × Backend) :=
  if key = ascii "host" then pure (p, { b with host := p.readString })
  else if key = ascii "port" then pure (p, { b with port := p.readInt 0 })
  else do
    let p ← p.skipValue
    pure (p, b)

/-- One pass of the loop over the members of a backend object. -/
def backendIter :
    JsonParser × Backend → Fueled (Iter (JsonParser × Backend) (JsonParser × Backend))
  | (p, b) =>
      if p.type ≠ .string then pure (.done (p, b))
      else do
        let q ← toValue p
        let (q, b) ← backendMember p.text q b
        let q ← nextMember q
        pure (.next (q, b))

/-- One pass of the loop over the backends of a route. -/
def backendsIter (u : Uninitialized) : JsonParser × List Backend →
    Fueled (Iter (JsonParser × List Backend) (JsonParser × List Backend))
  | (p, backends) =>
      if p.type ≠ .objectStart then pure (.done (p, backends))
      else do
        let p ← p.advance
        let (p, b) ← Fueled.loop backendIter (p, ⟨[], u.port⟩)
        let p ← skipToken p .comma
        pure (.next (p, if b.host ≠ [] ∧ 0 < b.port then backends ++ [b] else backends))

/-- A member of a route object, at its value. -/
def routeMember (u : Uninitialized) (key : Bytes) (p : JsonParser) (route : Route) :
    Fueled (Except Bytes (JsonParser × Route)) :=
  if key = ascii "prefix" then pure (.ok (p, { route with path := p.readString }))
  else if key = ascii "backends" then
    if p.type ≠ .arrayStart then pure (.error (ascii "Expected array for 'backends'"))
    else do
      let p ← p.advance
      let (p, backends) ← Fueled.loop (backendsIter u) (p, route.backends)
      pure (.ok (p, { route with backends := backends }))
  else do
    let p ← p.skipValue
    pure (.ok (p, route))

/-- One pass of the loop over the members of a route object. -/
def routeIter (u : Uninitialized) : JsonParser × Route →
    Fueled (Iter (JsonParser × Route) (Except Bytes (JsonParser × Route)))
  | (p, route) =>
      if p.type ≠ .string then pure (.done (.ok (p, route)))
      else do
        let q ← toValue p
        let r ← routeMember u p.text q route
        match r with
        | .error msg => pure (.done (.error msg))
        | .ok (q, route) => do
            let q ← nextMember q
            pure (.next (q, route))

/-- One pass of the loop over the routes. -/
def routesIter (u : Uninitialized) : JsonParser × List Route →
    Fueled (Iter (JsonParser × List Route) (Except Bytes (JsonParser × List Route)))
  | (p, routes) =>
      if p.type ≠ .objectStart then pure (.done (.ok (p, routes)))
      else do
        let p ← p.advance
        let r ← Fueled.loop (routeIter u) (p, {})
        match r with
        | .error msg => pure (.done (.error msg))
        | .ok (p, route) => do
            let p ← p.advance
            let p ← skipToken p .objectEnd
            let p ← skipToken p .comma
            pure (.next (p,
              if route.path ≠ [] ∧ route.backends ≠ [] then routes ++ [route] else routes))

/-- A member of the root object, at its value. -/
def rootMember (u : Uninitialized) (key : Bytes) (p : JsonParser) (cfg : GatewayConfig) :
    Fueled (Except Bytes (JsonParser × GatewayConfig)) :=
  match intFields.find? fun f => f.key = key with
  | some f => pure (.ok (p, f.set cfg (p.readInt (f.get cfg))))
  | none =>
      if key = ascii "routes" then
        if p.type ≠ .arrayStart then pure (.error (ascii "Expected array for 'routes'"))
        else do
          let p ← p.advance
          let r ← Fueled.loop (routesIter u) (p, cfg.routes)
          match r with
          | .error msg => pure (.error msg)
          | .ok (p, routes) => pure (.ok (p, { cfg with routes := routes }))
      else do
        let p ← p.skipValue
        pure (.ok (p, cfg))

/-- One pass of the loop over the members of the root object. -/
def rootIter (u : Uninitialized) : JsonParser × GatewayConfig →
    Fueled (Iter (JsonParser × GatewayConfig) (Except Bytes (JsonParser × GatewayConfig)))
  | (p, cfg) =>
      if p.type ≠ .string then pure (.done (.ok (p, cfg)))
      else do
        let q ← toValue p
        let r ← rootMember u p.text q cfg
        match r with
        | .error msg => pure (.done (.error msg))
        | .ok (q, cfg) => do
            let q ← nextMember q
            if q.type ≠ .string ∧ q.type ≠ .objectEnd then pure (.done (.ok (q, cfg)))
            else pure (.next (q, cfg))

/-- `parse_config`. An error carries the text of `g_last_error`. -/
def parseConfig (u : Uninitialized) (json : Bytes) : Fueled (Except Bytes GatewayConfig) := do
  let p ← advance { rest := json, type := u.type }
  if p.type ≠ .objectStart then pure (.error (ascii "Expected root object '\x7b'"))
  else do
    let p ← p.advance
    let r ← Fueled.loop (rootIter u) (p, {})
    match r with
    | .error msg => pure (.error msg)
    | .ok (p, cfg) => pure (if p.error then .error p.errorMsg else .ok cfg)

/-- `ConfigLoader::load_json`. -/
def loadJson (u : Uninitialized) (json : Bytes) : Fueled (Except Bytes GatewayConfig) := do
  let r ← parseConfig u json
  match r with
  | .error msg => pure (.error (if msg = [] then ascii "Unknown parse error" else msg))
  | .ok cfg => pure (.ok cfg)

/-! ## Rendering -/

/-- Groups of tokens with commas between them. -/
def commaSeparated : List (List Tok) → List Tok
  | [] => []
  | group :: groups => group ++ groups.flatMap (.comma :: ·)

/-- A backend object. -/
def Backend.tokens (b : Backend) : List Tok :=
  [.objectStart, .string (ascii "host"), .colon, .string b.host, .comma,
    .string (ascii "port"), .colon, .number b.port, .objectEnd]

/-- A route object. -/
def Route.tokens (r : Route) : List Tok :=
  [.objectStart, .string (ascii "prefix"), .colon, .string r.path, .comma,
    .string (ascii "backends"), .colon, .arrayStart] ++
    commaSeparated (r.backends.map Backend.tokens) ++ [.arrayEnd, .objectEnd]

/-- An integer member and the comma after it. -/
def IntField.tokens (cfg : GatewayConfig) (f : IntField) : List Tok :=
  [.string f.key, .colon, .number (f.get cfg), .comma]

/-- The documented shape of a configuration: all integers, then the routes. -/
def GatewayConfig.tokens (cfg : GatewayConfig) : List Tok :=
  .objectStart :: (intFields.flatMap (IntField.tokens cfg) ++
    (.string (ascii "routes") :: .colon :: .arrayStart ::
      (commaSeparated (cfg.routes.map Route.tokens) ++ [.arrayEnd, .objectEnd])))

/-- A rendering of the configuration, with any white space between the tokens. -/
def Renders (cfg : GatewayConfig) (json : Bytes) : Prop :=
  Spaced cfg.tokens json

/-- The tokens one after the other. -/
def GatewayConfig.render (cfg : GatewayConfig) : Bytes :=
  cfg.tokens.flatMap Tok.bytes

/-- Every route has a path and a backend, and every backend a host and a positive port. -/
def RoutesOk (routes : List Route) : Prop :=
  ∀ r ∈ routes, (r.path ≠ [] ∧ r.backends ≠ []) ∧
    ∀ b ∈ r.backends, b.host ≠ [] ∧ 0 < b.port ∧ IsInt b.port

instance (routes : List Route) : Decidable (RoutesOk routes) :=
  inferInstanceAs (Decidable (∀ r ∈ routes, _))

/-- A configuration whose integers fit an `int` and whose routes can be loaded. -/
structure WellFormed (cfg : GatewayConfig) : Prop where
  ints : ∀ f ∈ intFields, IsInt (f.get cfg)
  routes : RoutesOk cfg.routes

/-- What is loaded of the routes: everything up to the first route with more than one backend,
and of that route the first backend. -/
def loadedRoutes : List Route → List Route
  | [] => []
  | r :: rest =>
      if r.backends.length = 1 then r :: loadedRoutes rest
      else [{ r with backends := r.backends.take 1 }]

variable {u : Uninitialized} {p : JsonParser} {t v : Tok} {toks : List Tok}

theorem comma_separated_apart {groups : List (List Tok)}
    (h : ∀ group ∈ groups, Tok.apart group = true) : Tok.apart (commaSeparated groups) = true := by
  cases groups with
  | nil => rfl
  | cons group groups =>
      refine Tok.apart_append (h group (by simp)) (Tok.apart_flat_map fun g hg => ?_)
      exact Tok.apart_cons rfl (h g (by simp [hg]))

/-- Every configuration has a rendering. -/
theorem renders_render (cfg : GatewayConfig) : Renders cfg cfg.render := by
  refine spaced_flat_map ?_
  have hbackend : ∀ b : Backend, Tok.apart b.tokens = true := fun _ => rfl
  have hroute : ∀ r : Route, Tok.apart r.tokens = true := by
    intro r
    refine Tok.apart_append (Tok.apart_append rfl (comma_separated_apart ?_)) rfl
    simp [hbackend]
  have hints : Tok.apart (intFields.flatMap (IntField.tokens cfg)) = true :=
    Tok.apart_flat_map fun f _ => rfl
  have hroutes : Tok.apart (commaSeparated (cfg.routes.map Route.tokens)) = true := by
    refine comma_separated_apart ?_
    simp [hroute]
  have hend : Tok.apart [.arrayEnd, .objectEnd] = true := rfl
  exact Tok.apart_cons rfl (Tok.apart_append hints (Tok.apart_cons rfl (Tok.apart_cons rfl
    (Tok.apart_cons rfl (Tok.apart_append hroutes hend)))))

/-! ## Moving along the tokens -/

theorem skip_token_on (h : On p t toks) {type : TokenType} (hne : t.type ≠ type) :
    (skipToken p type).Returns p := by
  rw [skipToken, if_neg (by rw [h.type]; exact hne)]
  exact Fueled.returns_pure_iff.2 rfl

theorem skip_token_over (h : On p t (v :: toks)) :
    ∃ q, (skipToken p t.type).Returns q ∧ On q v toks := by
  rw [skipToken, if_pos h.type]
  exact advance_on h

theorem to_value_on (h : On p t (.colon :: v :: toks)) :
    ∃ q, (toValue p).Returns q ∧ On q v toks := by
  obtain ⟨p₁, hp₁, h₁⟩ := advance_on h
  obtain ⟨p₂, hp₂, h₂⟩ := advance_on h₁
  exact ⟨p₂, hp₁.bind hp₂, h₂⟩

theorem next_member_comma (h : On p t (.comma :: v :: toks)) :
    ∃ q, (nextMember p).Returns q ∧ On q v toks := by
  obtain ⟨p₁, hp₁, h₁⟩ := advance_on h
  obtain ⟨p₂, hp₂, h₂⟩ := skip_token_over h₁
  exact ⟨p₂, hp₁.bind hp₂, h₂⟩

theorem next_member_on (h : On p t (v :: toks)) (hv : v.type ≠ .comma) :
    ∃ q, (nextMember p).Returns q ∧ On q v toks := by
  obtain ⟨p₁, hp₁, h₁⟩ := advance_on h
  exact ⟨p₁, hp₁.bind (skip_token_on h₁ hv), h₁⟩

/-! ## Backends -/

/-- One member of a backend object. -/
theorem backend_iter_on {key : Bytes} {b b' : Backend} {q r : JsonParser}
    (h : On p (.string key) toks)
    (hvalue : (toValue p).Returns q) (hmember : (backendMember key q b).Returns (q, b'))
    (hnext : (nextMember q).Returns r) : (backendIter (p, b)).Returns (.next (r, b')) := by
  have htext : p.text = key := h.text
  simp only [backendIter, h.type, Tok.type, ne_eq, not_true_eq_false, if_false, htext]
  exact hvalue.bind (hmember.bind (hnext.bind (Fueled.returns_pure_iff.2 rfl)))

/-- The loop over the members of a backend reads it and leaves its closing brace as the current
token. -/
theorem backend_returns (b : Backend) (hport : IsInt b.port) (port : Int)
    (h : On p .objectStart (b.tokens.tail ++ toks)) :
    ∃ p' q, p.advance.Returns p' ∧ (Fueled.loop backendIter (p', ⟨[], port⟩)).Returns (q, b) ∧
      On q .objectEnd toks := by
  obtain ⟨p₁, hp₁, h₁⟩ := advance_on h
  obtain ⟨p₂, hp₂, h₂⟩ := to_value_on h₁
  obtain ⟨p₃, hp₃, h₃⟩ := next_member_comma h₂
  obtain ⟨p₄, hp₄, h₄⟩ := to_value_on h₃
  obtain ⟨p₅, hp₅, h₅⟩ := next_member_on h₄ (by simp [Tok.type])
  have hhost : (backendMember (ascii "host") p₂ ⟨[], port⟩).Returns (p₂, ⟨b.host, port⟩) := by
    rw [backendMember, if_pos rfl, read_string_on h₂]
    exact Fueled.returns_pure_iff.2 rfl
  have hport' : (backendMember (ascii "port") p₄ ⟨b.host, port⟩).Returns (p₄, b) := by
    rw [backendMember, if_neg (by decide), if_pos rfl, read_int_on h₄ hport.1 hport.2]
    exact Fueled.returns_pure_iff.2 rfl
  refine ⟨p₁, p₅, hp₁, .loop_next (backend_iter_on h₁ hp₂ hhost hp₃)
    (.loop_next (backend_iter_on h₃ hp₄ hport' hp₅) (.loop_done ?_)), h₅⟩
  simp only [backendIter, h₅.type, Tok.type, ne_eq, reduceCtorEq, not_false_eq_true, if_true]
  exact Fueled.returns_pure_iff.2 rfl

/-- The loop over the backends of a route stops after the first one: the token it compares with
an opening brace is the closing brace of that backend, which nothing has skipped. -/
theorem backends_return {b : Backend} (hb : b.host ≠ [] ∧ 0 < b.port ∧ IsInt b.port)
    (h : On p .objectStart (b.tokens.tail ++ toks)) :
    ∃ q, (Fueled.loop (backendsIter u) (p, [])).Returns (q, [b]) ∧ On q .objectEnd toks := by
  obtain ⟨p₁, q, hp₁, hloop, hq⟩ := backend_returns b hb.2.2 u.port h
  refine ⟨q, .loop_next (t := (q, [b])) ?_ (.loop_done ?_), hq⟩
  · simp only [backendsIter, h.type, Tok.type, ne_eq, not_true_eq_false, if_false]
    refine hp₁.bind (hloop.bind ((skip_token_on hq (by simp [Tok.type])).bind ?_))
    exact Fueled.returns_pure_iff.2 (by simp [hb.1, hb.2.1])
  · simp only [backendsIter, hq.type, Tok.type, ne_eq, reduceCtorEq, not_false_eq_true, if_true]
    exact Fueled.returns_pure_iff.2 rfl

/-! ## Routes -/

/-- One member of a route object. -/
theorem route_iter_on {key : Bytes} {route route' : Route} {q q' r : JsonParser}
    (h : On p (.string key) toks) (hvalue : (toValue p).Returns q)
    (hmember : (routeMember u key q route).Returns (.ok (q', route')))
    (hnext : (nextMember q').Returns r) :
    (routeIter u (p, route)).Returns (.next (r, route')) := by
  have htext : p.text = key := h.text
  simp only [routeIter, h.type, Tok.type, ne_eq, not_true_eq_false, if_false, htext]
  exact hvalue.bind (hmember.bind (hnext.bind (Fueled.returns_pure_iff.2 rfl)))

/-- What the loop over the members of a route leaves behind: with one backend, the end of the
array of backends as the current token; with more, the start of the second backend. -/
def AfterRoute (r : Route) (p : JsonParser) (toks : List Tok) : Prop :=
  if r.backends.length = 1 then On p .arrayEnd (.objectEnd :: toks)
  else ∃ rest, On p .objectStart (.string (ascii "host") :: .colon :: rest)

/-- After the loop over the backends, whose current token is the end of the first backend. -/
theorem next_member_after {r : Route} {b : Backend} {bs : List Backend}
    (hbackends : r.backends = b :: bs)
    (h : On p .objectEnd ((bs.map Backend.tokens).flatMap (.comma :: ·) ++
      .arrayEnd :: .objectEnd :: toks)) :
    ∃ q, (nextMember p).Returns q ∧ AfterRoute r q toks := by
  unfold AfterRoute
  cases bs with
  | nil =>
      obtain ⟨q, hq, hon⟩ := next_member_on h (by simp [Tok.type])
      exact ⟨q, hq, by rw [if_pos (by simp [hbackends])]; exact hon⟩
  | cons b' bs =>
      obtain ⟨q, hq, hon⟩ := next_member_comma h
      exact ⟨q, hq, by rw [if_neg (by simp [hbackends])]; exact ⟨_, hon⟩⟩

theorem AfterRoute.not_string {r : Route} (h : AfterRoute r p toks) : p.type ≠ .string := by
  unfold AfterRoute at h
  split at h
  · rw [h.type]
    simp [Tok.type]
  · obtain ⟨rest, hon⟩ := h
    rw [hon.type]
    simp [Tok.type]

/-- The loop over the members of a route reads its path and its first backend. -/
theorem route_returns {r : Route} (hne : r.backends ≠ [])
    (hbackends : ∀ b ∈ r.backends, b.host ≠ [] ∧ 0 < b.port ∧ IsInt b.port)
    (h : On p .objectStart (r.tokens.tail ++ toks)) :
    ∃ p' q, p.advance.Returns p' ∧
      (Fueled.loop (routeIter u) (p', {})).Returns
        (.ok (q, { r with backends := r.backends.take 1 })) ∧
      AfterRoute r q toks := by
  obtain ⟨b, bs, hb⟩ := List.exists_cons_of_ne_nil hne
  have htokens : r.tokens.tail ++ toks = .string (ascii "prefix") :: .colon :: .string r.path ::
      .comma :: .string (ascii "backends") :: .colon :: .arrayStart :: .objectStart ::
        (b.tokens.tail ++ ((bs.map Backend.tokens).flatMap (.comma :: ·) ++
          .arrayEnd :: .objectEnd :: toks)) := by
    simp [Route.tokens, hb, commaSeparated, Backend.tokens]
  rw [htokens] at h
  obtain ⟨p₁, hp₁, h₁⟩ := advance_on h
  obtain ⟨p₂, hp₂, h₂⟩ := to_value_on h₁
  obtain ⟨p₃, hp₃, h₃⟩ := next_member_comma h₂
  obtain ⟨p₄, hp₄, h₄⟩ := to_value_on h₃
  obtain ⟨p₅, hp₅, h₅⟩ := advance_on h₄
  obtain ⟨p₆, hp₆, h₆⟩ := backends_return (u := u) (hbackends b (by simp [hb])) h₅
  obtain ⟨q, hq, hafter⟩ := next_member_after hb h₆
  have hpath : (routeMember u (ascii "prefix") p₂ {}).Returns (.ok (p₂, ⟨r.path, []⟩)) := by
    rw [routeMember, if_pos rfl, read_string_on h₂]
    exact Fueled.returns_pure_iff.2 rfl
  have hlist : (routeMember u (ascii "backends") p₄ ⟨r.path, []⟩).Returns
      (.ok (p₆, ⟨r.path, [b]⟩)) := by
    rw [routeMember, if_neg (by decide), if_pos rfl, if_neg (by rw [h₄.type]; simp [Tok.type])]
    exact hp₅.bind (hp₆.bind (Fueled.returns_pure_iff.2 rfl))
  refine ⟨p₁, q, hp₁, .loop_next (route_iter_on h₁ hp₂ hpath hp₃)
    (.loop_next (route_iter_on h₃ hp₄ hlist hq) (.loop_done ?_)), hafter⟩
  rw [routeIter, if_pos hafter.not_string, hb]
  exact Fueled.returns_pure_iff.2 rfl

/-! ## The array of routes -/

/-- From the end of a route of one backend to the next token of the array of routes. -/
theorem routes_iter_single {r : Route} (routes : List Route) (hone : r.backends.length = 1)
    (hpath : r.path ≠ [])
    (hbackends : ∀ b ∈ r.backends, b.host ≠ [] ∧ 0 < b.port ∧ IsInt b.port)
    (h : On p .objectStart (r.tokens.tail ++ v :: toks)) :
    ∃ q, On q v toks ∧ ∀ q', (skipToken q .comma).Returns q' →
      (routesIter u (p, routes)).Returns (.next (q', routes ++ [r])) := by
  have hne : r.backends ≠ [] := by
    intro hnil
    simp [hnil] at hone
  obtain ⟨p₁, p₂, hp₁, hloop, hafter⟩ := route_returns (u := u) hne hbackends h
  rw [AfterRoute, if_pos hone] at hafter
  obtain ⟨p₃, hp₃, h₃⟩ := advance_on hafter
  obtain ⟨p₄, hp₄, h₄⟩ := skip_token_over h₃
  refine ⟨p₄, h₄, fun q' hq' => ?_⟩
  have hroute : ({ r with backends := r.backends.take 1 } : Route) = r := by
    rw [List.take_of_length_le hone.le]
  rw [hroute] at hloop
  simp only [routesIter, h.type, Tok.type, ne_eq, not_true_eq_false, if_false]
  refine hp₁.bind (hloop.bind (hp₃.bind (hp₄.bind (hq'.bind ?_))))
  exact Fueled.returns_pure_iff.2 (by simp [hpath, hne])

/-- After a route of several backends the first key of the second backend is the current token. -/
theorem routes_iter_several {r : Route} (routes : List Route) (hone : r.backends.length ≠ 1)
    (hpath : r.path ≠ []) (hne : r.backends ≠ [])
    (hbackends : ∀ b ∈ r.backends, b.host ≠ [] ∧ 0 < b.port ∧ IsInt b.port)
    (h : On p .objectStart (r.tokens.tail ++ toks)) :
    ∃ q rest, On q (.string (ascii "host")) (.colon :: rest) ∧
      (routesIter u (p, routes)).Returns
        (.next (q, routes ++ [{ r with backends := r.backends.take 1 }])) := by
  obtain ⟨p₁, p₂, hp₁, hloop, hafter⟩ := route_returns (u := u) hne hbackends h
  rw [AfterRoute, if_neg hone] at hafter
  obtain ⟨rest, h₂⟩ := hafter
  obtain ⟨p₃, hp₃, h₃⟩ := advance_on h₂
  refine ⟨p₃, rest, h₃, ?_⟩
  simp only [routesIter, h.type, Tok.type, ne_eq, not_true_eq_false, if_false]
  refine hp₁.bind (hloop.bind (hp₃.bind ((skip_token_on h₃ ?_).bind
    ((skip_token_on h₃ ?_).bind ?_))))
  · simp [Tok.type]
  · simp [Tok.type]
  · exact Fueled.returns_pure_iff.2 (by simp [hpath, hne])

theorem routes_iter_done {routes : List Route} (h : On p t toks) (hne : t.type ≠ .objectStart) :
    (Fueled.loop (routesIter u) (p, routes)).Returns (.ok (p, routes)) := by
  refine .loop_done ?_
  rw [routesIter, if_pos (by rw [h.type]; exact hne)]
  exact Fueled.returns_pure_iff.2 rfl

/-- What the loop over the routes leaves behind: the end of the array, or a key of a backend that
has been passed over. -/
def AfterRoutes (p : JsonParser) (toks : List Tok) : Prop :=
  On p .arrayEnd toks ∨ ∃ key rest, On p (.string key) (.colon :: rest)

/-- A route of several backends ends the loop over the routes. -/
theorem routes_return_several {r : Route} {rs : List Route} (hok : RoutesOk (r :: rs))
    (hone : r.backends.length ≠ 1) (routes : List Route)
    (h : On p .objectStart (r.tokens.tail ++ toks)) :
    ∃ q, (Fueled.loop (routesIter u) (p, routes)).Returns
      (.ok (q, routes ++ loadedRoutes (r :: rs))) ∧
      ∃ key rest, On q (.string key) (.colon :: rest) := by
  obtain ⟨⟨hpath, hne⟩, hbackends⟩ := hok r (by simp)
  obtain ⟨q, rest, hq, hiter⟩ :=
    routes_iter_several (u := u) routes hone hpath hne hbackends h
  refine ⟨q, .loop_next hiter ?_, _, rest, hq⟩
  simpa [loadedRoutes, hone] using routes_iter_done hq (by simp [Tok.type])

/-- The loop over the routes, from the start of a route on. -/
theorem routes_return_cons (r : Route) (rs : List Route) (hok : RoutesOk (r :: rs))
    (routes : List Route)
    (h : On p .objectStart (r.tokens.tail ++ ((rs.map Route.tokens).flatMap (.comma :: ·) ++
      .arrayEnd :: toks))) :
    ∃ q, (Fueled.loop (routesIter u) (p, routes)).Returns
      (.ok (q, routes ++ loadedRoutes (r :: rs))) ∧ AfterRoutes q toks := by
  induction rs generalizing p r routes with
  | nil =>
      by_cases hone : r.backends.length = 1
      · obtain ⟨⟨hpath, -⟩, hbackends⟩ := hok r (by simp)
        obtain ⟨q, hq, hiter⟩ :=
          routes_iter_single (u := u) routes hone hpath hbackends h
        refine ⟨q, .loop_next (hiter q (skip_token_on hq (by simp [Tok.type]))) ?_, .inl hq⟩
        simpa [loadedRoutes, hone] using routes_iter_done hq (by simp [Tok.type])
      · obtain ⟨q, hloop, hafter⟩ := routes_return_several (u := u) hok hone routes h
        exact ⟨q, hloop, .inr hafter⟩
  | cons r' rs ih =>
      -- the loop goes on to the next route only after a route of one backend
      by_cases hone : r.backends.length = 1
      · obtain ⟨⟨hpath, -⟩, hbackends⟩ := hok r (by simp)
        obtain ⟨q, hq, hiter⟩ :=
          routes_iter_single (u := u) routes hone hpath hbackends h
        obtain ⟨q', hq', hon⟩ := skip_token_over hq
        have hstart : On q' .objectStart (r'.tokens.tail ++
            ((rs.map Route.tokens).flatMap (.comma :: ·) ++ .arrayEnd :: toks)) := by
          rw [← List.append_assoc]
          exact hon
        obtain ⟨q'', hloop, hafter⟩ :=
          ih r' (fun x hx => hok x (by simp [hx])) (routes ++ [r]) hstart
        refine ⟨q'', .loop_next (hiter q' hq') ?_, hafter⟩
        rw [loadedRoutes, if_pos hone]
        simpa using hloop
      · obtain ⟨q, hloop, hafter⟩ := routes_return_several (u := u) hok hone routes h
        exact ⟨q, hloop, .inr hafter⟩

/-- The loop over the routes, from the first token of the array on. -/
theorem routes_return (rs : List Route) (hok : RoutesOk rs) (routes : List Route)
    (h : On p .arrayStart (commaSeparated (rs.map Route.tokens) ++ .arrayEnd :: toks)) :
    ∃ p' q, p.advance.Returns p' ∧ (Fueled.loop (routesIter u) (p', routes)).Returns
      (.ok (q, routes ++ loadedRoutes rs)) ∧ AfterRoutes q toks := by
  cases rs with
  | nil =>
      obtain ⟨p', hp', hon⟩ := advance_on h
      refine ⟨p', p', hp', ?_, .inl hon⟩
      simpa [loadedRoutes] using routes_iter_done hon (by simp [Tok.type])
  | cons r rs =>
      have hstart : On p .arrayStart (.objectStart :: (r.tokens.tail ++
          ((rs.map Route.tokens).flatMap (.comma :: ·) ++ .arrayEnd :: toks))) := by
        rw [← List.append_assoc]
        exact h
      obtain ⟨p', hp', hon⟩ := advance_on hstart
      obtain ⟨q, hloop, hafter⟩ := routes_return_cons (u := u) r rs hok routes hon
      exact ⟨p', q, hp', hloop, hafter⟩

/-! ## The root object -/

/-- A key is found as the field it belongs to. -/
theorem find_int_field {f : IntField} (h : f ∈ intFields) :
    intFields.find? (fun g => g.key = f.key) = some f := by
  simp only [intFields, List.mem_cons, List.not_mem_nil, or_false] at h
  rcases h with rfl | rfl | rfl | rfl | rfl | rfl | rfl | rfl | rfl | rfl | rfl | rfl <;> rfl

/-- One member of the root object that is followed by another or by the end of the object. -/
theorem root_iter_on {key : Bytes} {cfg cfg' : GatewayConfig} {q q' r : JsonParser}
    (h : On p (.string key) toks) (hvalue : (toValue p).Returns q)
    (hmember : (rootMember u key q cfg).Returns (.ok (q', cfg')))
    (hnext : (nextMember q').Returns r) :
    (rootIter u (p, cfg)).Returns
      (if r.type ≠ .string ∧ r.type ≠ .objectEnd then .done (.ok (r, cfg'))
        else .next (r, cfg')) := by
  have htext : p.text = key := h.text
  simp only [rootIter, h.type, Tok.type, ne_eq, not_true_eq_false, if_false, htext]
  refine hvalue.bind (hmember.bind (hnext.bind ?_))
  split <;> exact Fueled.returns_pure_iff.2 rfl

/-- An integer member of the root object. -/
theorem root_member_int {cfg c : GatewayConfig} {f : IntField} (hf : f ∈ intFields)
    (hint : IsInt (f.get cfg)) (h : On p (.number (f.get cfg)) toks) :
    (rootMember u f.key p c).Returns (.ok (p, f.set c (f.get cfg))) := by
  simp only [rootMember, find_int_field hf]
  rw [read_int_on h hint.1 hint.2]
  exact Fueled.returns_pure_iff.2 rfl

/-- The loop over the root object assigns the integers one after the other and arrives at the key
behind them. -/
theorem int_fields_return {cfg : GatewayConfig} {key : Bytes} (fs : List IntField)
    (hfs : ∀ f ∈ fs, f ∈ intFields ∧ IsInt (f.get cfg)) (c : GatewayConfig)
    (h : On p t (fs.flatMap (IntField.tokens cfg) ++ .string key :: toks)) :
    ∃ p' q, p.advance.Returns p' ∧ p'.type = .string ∧ On q (.string key) toks ∧
      ∀ r, (Fueled.loop (rootIter u) (q, fs.foldl (fun c f => f.set c (f.get cfg)) c)).Returns r →
        (Fueled.loop (rootIter u) (p', c)).Returns r := by
  induction fs generalizing p t c with
  | nil =>
      obtain ⟨q, hq, hon⟩ := advance_on h
      exact ⟨q, q, hq, hon.type, hon, fun r hr => hr⟩
  | cons f fs ih =>
      obtain ⟨hf, hint⟩ := hfs f (by simp)
      obtain ⟨p₁, hp₁, h₁⟩ := advance_on h
      obtain ⟨p₂, hp₂, h₂⟩ := to_value_on h₁
      obtain ⟨p₃, hp₃, h₃⟩ := advance_on h₂
      obtain ⟨p₄, q, hp₄, htype, hon, hloop⟩ :=
        ih (fun g hg => hfs g (by simp [hg])) (f.set c (f.get cfg)) h₃
      have hnext : (nextMember p₂).Returns p₄ := by
        refine hp₃.bind ?_
        rw [skipToken, if_pos (show p₃.type = .comma from h₃.type)]
        exact hp₄
      have hiter := root_iter_on h₁ hp₂ (root_member_int (u := u) (c := c) hf hint h₂) hnext
      rw [if_neg (by simp [htype])] at hiter
      exact ⟨p₁, q, hp₁, h₁.type, hon, fun r hr => .loop_next hiter (hloop r hr)⟩

/-- The assignments of the integers, from the defaults. -/
theorem fold_int_fields (cfg : GatewayConfig) :
    intFields.foldl (fun c f => f.set c (f.get cfg)) {} = { cfg with routes := [] } :=
  rfl

/-- The loop over the root object, at the key of the routes. -/
theorem root_routes_return {cfg c : GatewayConfig} (hok : RoutesOk cfg.routes)
    (hnil : c.routes = [])
    (h : On p (.string (ascii "routes")) (.colon :: .arrayStart ::
      (commaSeparated (cfg.routes.map Route.tokens) ++ [Tok.arrayEnd, .objectEnd]))) :
    ∃ q, (Fueled.loop (rootIter u) (p, c)).Returns
      (.ok (q, { c with routes := loadedRoutes cfg.routes })) ∧ q.error = false := by
  obtain ⟨p₁, hp₁, h₁⟩ := to_value_on h
  obtain ⟨p₂, p₃, hp₂, hloop, hafter⟩ := routes_return (u := u) cfg.routes hok c.routes h₁
  have hmember : (rootMember u (ascii "routes") p₁ c).Returns
      (.ok (p₃, { c with routes := loadedRoutes cfg.routes })) := by
    have hfind : intFields.find? (fun f => f.key = ascii "routes") = none := rfl
    simp only [rootMember, hfind, if_true, h₁.type, Tok.type, ne_eq, not_true_eq_false, if_false]
    rw [hnil, List.nil_append] at hloop
    rw [hnil]
    exact hp₂.bind (hloop.bind (Fueled.returns_pure_iff.2 rfl))
  rcases hafter with hend | ⟨key, rest, hkey⟩
  · obtain ⟨q, hq, hon⟩ := next_member_on hend (by simp [Tok.type])
    have hiter := root_iter_on h hp₁ hmember hq
    rw [if_neg (by simp [hon.type, Tok.type])] at hiter
    refine ⟨q, .loop_next hiter (.loop_done ?_), hon.error⟩
    rw [rootIter, if_pos (by simp [hon.type, Tok.type])]
    exact Fueled.returns_pure_iff.2 rfl
  · -- the value of the stray key is not examined: its colon ends the loop without an error
    obtain ⟨q, hq, hon⟩ := next_member_on hkey (by simp [Tok.type])
    have hiter := root_iter_on h hp₁ hmember hq
    rw [if_pos (by simp [hon.type, Tok.type])] at hiter
    exact ⟨q, .loop_done hiter, hon.error⟩

/-- What is loaded from a rendered configuration: all integers, and the routes up to the first one
with several backends. -/
theorem load_json_returns {cfg : GatewayConfig} {json : Bytes} (hcfg : WellFormed cfg)
    (hjson : Renders cfg json) :
    (loadJson u json).Returns (.ok { cfg with routes := loadedRoutes cfg.routes }) := by
  obtain ⟨p, hp, hstart⟩ := advance_spaced (p := { rest := json, type := u.type }) hjson rfl
  obtain ⟨p₁, p₂, hp₁, -, hroutes, hloop⟩ := int_fields_return (u := u) intFields
    (fun f hf => ⟨hf, hcfg.ints f hf⟩) {} hstart
  rw [fold_int_fields] at hloop
  obtain ⟨q, hroot, herror⟩ :=
    root_routes_return (u := u) (c := { cfg with routes := [] }) hcfg.routes rfl hroutes
  have hparse : (parseConfig u json).Returns
      (.ok { cfg with routes := loadedRoutes cfg.routes }) := by
    refine hp.bind ?_
    rw [if_neg (by simp [hstart.type, Tok.type])]
    refine hp₁.bind ((hloop _ hroot).bind (Fueled.returns_pure_iff.2 ?_))
    simp [herror]
  exact hparse.bind (Fueled.returns_pure_iff.2 rfl)

theorem loaded_routes_eq_iff {rs : List Route} (hne : ∀ r ∈ rs, r.backends ≠ []) :
    loadedRoutes rs = rs ↔ ∀ r ∈ rs, r.backends.length = 1 := by
  induction rs with
  | nil => simp [loadedRoutes]
  | cons r rs ih =>
      by_cases hone : r.backends.length = 1
      · simp [loadedRoutes, hone, ih fun x hx => hne x (by simp [hx])]
      · have hlength : (r.backends.take 1).length = 1 := by
          have := List.length_pos_iff.2 (hne r (by simp))
          rw [List.length_take]
          omega
        refine iff_of_false (fun heq => hone ?_) (fun hall => hone (hall r (by simp)))
        rw [loadedRoutes, if_neg hone] at heq
        rw [← (List.cons.inj heq).1]
        exact hlength

/-- A rendered configuration is loaded as it was exactly when every route has one backend. -/
theorem round_trip_iff (u : Uninitialized) (cfg : GatewayConfig) (json : Bytes)
    (hcfg : WellFormed cfg) (hjson : Renders cfg json) :
    (loadJson u json).Returns (.ok cfg) ↔ ∀ r ∈ cfg.routes, r.backends.length = 1 := by
  have hreturns := load_json_returns (u := u) hcfg hjson
  rw [← loaded_routes_eq_iff fun r hr => (hcfg.routes r hr).1.2]
  constructor
  · intro hload
    have heq := Except.ok.inj (hreturns.unique hload)
    exact congrArg GatewayConfig.routes heq
  · intro heq
    rw [heq] at hreturns
    exact hreturns

/-- The configuration in the documentation of `config_loader.h`, with one route that has backends
at the given ports. -/
def documentedConfig (ports : List Int) : GatewayConfig :=
  { routes := [⟨ascii "/api/user", ports.map fun port => ⟨ascii "127.0.0.1", port⟩⟩] }

/-- With its first backend only, the documented configuration is loaded as it is. -/
theorem round_trip_one_backend :
    WellFormed (documentedConfig [9001]) ∧
      (loadJson ⟨.endOfInput, 0⟩ (documentedConfig [9001]).render).Returns
        (.ok (documentedConfig [9001])) := by
  have hcfg : WellFormed (documentedConfig [9001]) := ⟨by decide, by decide⟩
  exact ⟨hcfg, (round_trip_iff _ _ _ hcfg (renders_render _)).2 (by decide)⟩

/-- The second backend of the documented configuration is lost. -/
theorem round_trip_two_backends :
    WellFormed (documentedConfig [9001, 9002]) ∧
      Renders (documentedConfig [9001, 9002]) (documentedConfig [9001, 9002]).render ∧
      (loadJson ⟨.endOfInput, 0⟩ (documentedConfig [9001, 9002]).render).Returns
        (.ok (documentedConfig [9001])) ∧
      ¬ (loadJson ⟨.endOfInput, 0⟩ (documentedConfig [9001, 9002]).render).Returns
        (.ok (documentedConfig [9001, 9002])) := by
  have hcfg : WellFormed (documentedConfig [9001, 9002]) := ⟨by decide, by decide⟩
  have hload : (loadJson ⟨.endOfInput, 0⟩ (documentedConfig [9001, 9002]).render).Returns
      (.ok (documentedConfig [9001])) := load_json_returns hcfg (renders_render _)
  refine ⟨hcfg, renders_render _, hload, fun hsame => ?_⟩
  exact absurd (Except.ok.inj (hload.unique hsame)) (by decide)

end ApiGateway.Core
