import ApiGateway.Core.ConfigLoader
import ApiGateway.Core.Scan

/-!
# The loader as a walk over tokens

The nested loops of `parse_config` are flattened into a machine with one place for each point at
which the loader asks for a token (`Place`), and one transition for each token (`next`). The machine
forgets the values that are read. The main results are `Awaits.step`, which says that the rest of
the program after a token is the one that belongs to the next place, and `walk_spec`, which follows
the program along all tokens of a text.
-/

namespace ApiGateway.Core

open Loop JsonParser Fueled

/-- The objects whose members `parse_config` reads. -/
inductive Scope where
  | root
  | route
  | backend
  deriving DecidableEq

/-- The keys whose values are taken from the token at hand. -/
def Scope.reads : Scope → Bytes → Bool
  | .root, key => (intFields.find? fun f => f.key = key).isSome
  | .route, key => key = ascii "prefix"
  | .backend, key => key = ascii "host" ∨ key = ascii "port"

/-- The keys whose values are arrays of objects, and those objects. -/
def Scope.array : Scope → Bytes → Option Scope
  | .root, key => if key = ascii "routes" then some .route else none
  | .route, key => if key = ascii "backends" then some .backend else none
  | .backend, _ => none

/-- The object in whose arrays the objects of a scope stand. -/
def Scope.outer : Scope → Scope
  | .backend => .route
  | .route | .root => .root

/-- The two kinds of values that `skip_value` skips by counting. -/
inductive Bracket where
  | object
  | array
  deriving DecidableEq

def Bracket.opening : Bracket → TokenType
  | .object => .objectStart
  | .array => .arrayStart

def Bracket.closing : Bracket → TokenType
  | .object => .objectEnd
  | .array => .arrayEnd

/-- The points at which the loader asks for the next token. -/
inductive Place where
  | start
  | members (scope : Scope)
  | colon (scope : Scope) (key : Bytes)
  | value (scope : Scope) (key : Bytes)
  | skipping (scope : Scope) (bracket : Bracket) (inner : Nat)
  | after (scope : Scope)
  | elements (scope : Scope)
  | routeEnd
  | routeClosed
  | done (accepted : Bool)
  deriving DecidableEq

namespace Place

/-- Whether the loops have been left. -/
def isDone : Place → Bool
  | .done _ => true
  | _ => false

/-- The loop over an array has the given token at hand. -/
def atElements (scope : Scope) (t : Token) : Place :=
  if t.type = .objectStart then .members scope else .after scope.outer

/-- The loop over the members of an object has the given token at hand. -/
def atMembers (scope : Scope) (t : Token) : Place :=
  if t.type = .string then .colon scope t.text
  else
    match scope with
    | .root => .done true
    | .route => .routeEnd
    | .backend => if t.type = .comma then .elements .backend else atElements .backend t

/-- The value of an unknown key is at hand. -/
def atSkip (scope : Scope) (t : Token) : Place :=
  if t.type = .objectStart then .skipping scope .object 0
  else if t.type = .arrayStart then .skipping scope .array 0
  else .after scope

/-- The value of a key is at hand. -/
def atValue (scope : Scope) (key : Bytes) (t : Token) : Place :=
  if scope.reads key then .after scope
  else
    match scope.array key with
    | some inner => if t.type = .arrayStart then .elements inner else .done false
    | none => atSkip scope t

/-- The token after a route is at hand. -/
def atRouteClosed (t : Token) : Place :=
  if t.type = .comma then .elements .route else atElements .route t

/-- The place after a token. -/
def next : Place → Token → Place
  | .start, t => if t.type = .objectStart then .members .root else .done false
  | .members scope, t => atMembers scope t
  | .colon scope key, _ => .value scope key
  | .value scope key, t => atValue scope key t
  | .skipping scope b inner, t =>
      if t.type = b.opening then .skipping scope b (inner + 1)
      else if t.type = b.closing then
        match inner with
        | 0 => .after scope
        | inner + 1 => .skipping scope b inner
      else if t.type = .endOfInput then .after scope
      else .skipping scope b inner
  | .after scope, t => if t.type = .comma then .members scope else atMembers scope t
  | .elements scope, t => atElements scope t
  | .routeEnd, t => if t.type = .objectEnd then .routeClosed else atRouteClosed t
  | .routeClosed, t => atRouteClosed t
  | .done accepted, _ => .done accepted

end Place

/-! ## The rest of the program -/

/-- What the loops of `parse_config` result in: the text of an error, or the parser at the last
token and the configuration. -/
abbrev Parsed := Except Bytes (JsonParser × GatewayConfig)

section Programs

variable (u : Uninitialized)

/-- The loops of `parse_config`. -/
def parseRoot (json : Bytes) : Fueled Parsed := do
  let p ← advance { rest := json, type := u.type }
  if p.type ≠ .objectStart then pure (.error (ascii "Expected root object '\x7b'"))
  else do
    let p ← p.advance
    Fueled.loop (rootIter u) (p, {})

/-- From the head of the loop over the members of the root object. -/
def inRoot (cfg : GatewayConfig) (p : JsonParser) : Fueled Parsed :=
  Fueled.loop (rootIter u) (p, cfg)

/-- From the head of the loop over the routes. -/
def inRoutes (cfg : GatewayConfig) (p : JsonParser) : Fueled Parsed := do
  match ← Fueled.loop (routesIter u) (p, cfg.routes) with
  | .error msg => pure (.error msg)
  | .ok (p, routes) => do
      let p ← nextMember p
      inRoot u { cfg with routes := routes } p

/-- A route is added if it has a path and a backend. -/
def pushRoute (cfg : GatewayConfig) (route : Route) : GatewayConfig :=
  { cfg with
    routes :=
      if route.path ≠ [] ∧ route.backends ≠ [] then cfg.routes ++ [route] else cfg.routes }

/-- From the head of the loop over the members of a route. -/
def inRoute (route : Route) (cfg : GatewayConfig) (p : JsonParser) : Fueled Parsed := do
  match ← Fueled.loop (routeIter u) (p, route) with
  | .error msg => pure (.error msg)
  | .ok (p, route) => do
      let p ← p.advance
      let p ← skipToken p .objectEnd
      let p ← skipToken p .comma
      inRoutes u (pushRoute cfg route) p

/-- From the head of the loop over the backends of a route. -/
def inBackends (route : Route) (cfg : GatewayConfig) (p : JsonParser) : Fueled Parsed := do
  let (p, backends) ← Fueled.loop (backendsIter u) (p, route.backends)
  let p ← nextMember p
  inRoute u { route with backends := backends } cfg p

/-- A backend is added if it has a host and a positive port. -/
def pushBackend (route : Route) (b : Backend) : Route :=
  { route with
    backends := if b.host ≠ [] ∧ 0 < b.port then route.backends ++ [b] else route.backends }

/-- From the head of the loop over the members of a backend. -/
def inBackend (b : Backend) (route : Route) (cfg : GatewayConfig) (p : JsonParser) :
    Fueled Parsed := do
  let (p, b) ← Fueled.loop backendIter (p, b)
  let p ← skipToken p .comma
  inBackends u (pushBackend route b) cfg p

/-- From the value of a member of the root object. -/
def atRootValue (key : Bytes) (cfg : GatewayConfig) (p : JsonParser) : Fueled Parsed := do
  match ← rootMember u key p cfg with
  | .error msg => pure (.error msg)
  | .ok (p, cfg) => do
      let p ← nextMember p
      inRoot u cfg p

/-- From the value of a member of a route. -/
def atRouteValue (key : Bytes) (route : Route) (cfg : GatewayConfig) (p : JsonParser) :
    Fueled Parsed := do
  match ← routeMember u key p route with
  | .error msg => pure (.error msg)
  | .ok (p, route) => do
      let p ← nextMember p
      inRoute u route cfg p

/-- From the value of a member of a backend. -/
def atBackendValue (key : Bytes) (b : Backend) (route : Route) (cfg : GatewayConfig)
    (p : JsonParser) : Fueled Parsed := do
  let (p, b) ← backendMember key p b
  let p ← nextMember p
  inBackend u b route cfg p

end Programs

variable {u : Uninitialized} {p q : JsonParser}

/-- One pass of the loop over the members of the root object. -/
theorem same_in_root (cfg : GatewayConfig) (p : JsonParser) :
    Same (inRoot u cfg p)
      (if p.type = .string then p.advance >>= fun p' => p'.advance >>= atRootValue u p.text cfg
      else pure (.ok (p, cfg))) := by
  refine (same_loop _ _).trans ?_
  simp only [rootIter, ne_eq, ite_not]
  split
  · simp only [toValue, bind_assoc]
    refine .bind _ fun p' => .bind _ fun q => .bind _ fun r => ?_
    cases r with
    | error msg => exact .refl _
    | ok r =>
        simp only [bind_assoc]
        refine .bind _ fun q' => ?_
        split
        · -- the loop would leave on the same token
          rename_i hleave
          refine .symm ((same_loop _ _).trans ?_)
          simp only [rootIter]
          rw [if_pos hleave.1]
        · exact .refl _
  · exact .refl _

/-- One pass of the loop over the routes. -/
theorem same_in_routes (cfg : GatewayConfig) (p : JsonParser) :
    Same (inRoutes u cfg p)
      (if p.type = .objectStart then p.advance >>= inRoute u {} cfg
      else nextMember p >>= inRoot u cfg) := by
  refine (same_loop_bind _ _ _).trans ?_
  simp only [routesIter, ne_eq, ite_not]
  split
  · simp only [bind_assoc]
    refine .bind _ fun p' => ?_
    simp only [inRoute]
    refine .bind _ fun r => ?_
    cases r with
    | error msg => exact .refl _
    | ok r => simp only [bind_assoc]; exact .refl _
  · exact .refl _

/-- One pass of the loop over the members of a route. -/
theorem same_in_route (route : Route) (cfg : GatewayConfig) (p : JsonParser) :
    Same (inRoute u route cfg p)
      (if p.type = .string then
        p.advance >>= fun p' => p'.advance >>= atRouteValue u p.text route cfg
      else p.advance >>= fun p => skipToken p .objectEnd >>= fun p => skipToken p .comma >>=
        inRoutes u (pushRoute cfg route)) := by
  refine (same_loop_bind _ _ _).trans ?_
  simp only [routeIter, ne_eq, ite_not]
  split
  · simp only [toValue, bind_assoc]
    refine .bind _ fun p' => .bind _ fun q => .bind _ fun r => ?_
    cases r with
    | error msg => exact .refl _
    | ok r => simp only [bind_assoc]; exact .refl _
  · exact .refl _

/-- One pass of the loop over the backends of a route. -/
theorem same_in_backends (route : Route) (cfg : GatewayConfig) (p : JsonParser) :
    Same (inBackends u route cfg p)
      (if p.type = .objectStart then p.advance >>= inBackend u ⟨[], u.port⟩ route cfg
      else nextMember p >>= inRoute u route cfg) := by
  refine (same_loop_bind _ _ _).trans ?_
  simp only [backendsIter, ne_eq, ite_not]
  split
  · simp only [bind_assoc]
    exact .bind _ fun p' => .refl _
  · exact .refl _

/-- One pass of the loop over the members of a backend. -/
theorem same_in_backend (b : Backend) (route : Route) (cfg : GatewayConfig) (p : JsonParser) :
    Same (inBackend u b route cfg p)
      (if p.type = .string then
        p.advance >>= fun p' => p'.advance >>= atBackendValue u p.text b route cfg
      else skipToken p .comma >>= inBackends u (pushBackend route b) cfg) := by
  refine (same_loop_bind _ _ _).trans ?_
  simp only [backendIter, ne_eq, ite_not]
  split
  · simp only [toValue, bind_assoc]
    exact .refl _
  · exact .refl _

/-! ## Skipped values -/

/-- The loop of `skip_value` and what follows it. -/
def skipLoop (b : Bracket) (depth : Nat) (f : JsonParser → Fueled Parsed) (p : JsonParser) :
    Fueled Parsed :=
  Fueled.loop (skipNestedIter b.opening b.closing) (p, depth) >>= f

/-- From the next token inside of a skipped value. -/
def inSkipped (b : Bracket) (inner : Nat) (f : JsonParser → Fueled Parsed) (p : JsonParser) :
    Fueled Parsed :=
  if p.type = b.opening then skipLoop b (inner + 2) f p
  else if p.type = b.closing then skipLoop b inner f p
  else if p.type = .endOfInput then f p
  else skipLoop b (inner + 1) f p

theorem same_skip_loop_zero (b : Bracket) (f : JsonParser → Fueled Parsed) (p : JsonParser) :
    Same (skipLoop b 0 f p) (f p) :=
  same_loop_bind _ _ _

theorem same_skip_loop (b : Bracket) (inner : Nat) (f : JsonParser → Fueled Parsed)
    (p : JsonParser) :
    Same (skipLoop b (inner + 1) f p) (p.advance >>= inSkipped b inner f) := by
  refine (same_loop_bind _ _ _).trans ?_
  simp only [skipNestedIter, bind_assoc]
  refine .bind _ fun q => ?_
  simp only [inSkipped]
  split_ifs <;> exact .refl _

/-! ## Places and programs -/

/-- The program from the head of a loop over members. -/
inductive InMembers (u : Uninitialized) : Scope → (JsonParser → Fueled Parsed) → Prop where
  | root (cfg : GatewayConfig) : InMembers u .root (inRoot u cfg)
  | route (route : Route) (cfg : GatewayConfig) : InMembers u .route (inRoute u route cfg)
  | backend (b : Backend) (route : Route) (cfg : GatewayConfig) :
      InMembers u .backend (inBackend u b route cfg)

/-- The program from a place on, once the token has arrived. -/
inductive Awaits (u : Uninitialized) : Place → (JsonParser → Fueled Parsed) → Prop where
  | start : Awaits u .start fun p =>
      if p.type ≠ .objectStart then pure (.error (ascii "Expected root object '\x7b'"))
      else p.advance >>= inRoot u {}
  | members {scope : Scope} {m : JsonParser → Fueled Parsed} (hm : InMembers u scope m) :
      Awaits u (.members scope) m
  | colon {scope : Scope} {key : Bytes} {f : JsonParser → Fueled Parsed}
      (hf : Awaits u (.value scope key) f) : Awaits u (.colon scope key) fun p => p.advance >>= f
  | rootValue (key : Bytes) (cfg : GatewayConfig) :
      Awaits u (.value .root key) (atRootValue u key cfg)
  | routeValue (key : Bytes) (route : Route) (cfg : GatewayConfig) :
      Awaits u (.value .route key) (atRouteValue u key route cfg)
  | backendValue (key : Bytes) (b : Backend) (route : Route) (cfg : GatewayConfig) :
      Awaits u (.value .backend key) (atBackendValue u key b route cfg)
  | skipping {scope : Scope} {m : JsonParser → Fueled Parsed} (b : Bracket) (inner : Nat)
      (hm : InMembers u scope m) :
      Awaits u (.skipping scope b inner) (inSkipped b inner fun p => nextMember p >>= m)
  | after {scope : Scope} {m : JsonParser → Fueled Parsed} (hm : InMembers u scope m) :
      Awaits u (.after scope) fun p => skipToken p .comma >>= m
  | routes (cfg : GatewayConfig) : Awaits u (.elements .route) (inRoutes u cfg)
  | backends (route : Route) (cfg : GatewayConfig) :
      Awaits u (.elements .backend) (inBackends u route cfg)
  | routeEnd (cfg : GatewayConfig) :
      Awaits u .routeEnd fun p =>
        skipToken p .objectEnd >>= fun p => skipToken p .comma >>= inRoutes u cfg
  | routeClosed (cfg : GatewayConfig) :
      Awaits u .routeClosed fun p => skipToken p .comma >>= inRoutes u cfg

/-- The computation `c` is the rest of the program at a place, with the parser `q`. -/
inductive Continues (u : Uninitialized) : Place → JsonParser → Fueled Parsed → Prop where
  | accepted {q : JsonParser} {c : Fueled Parsed} (cfg : GatewayConfig)
      (h : Same c (pure (.ok (q, cfg)))) : Continues u (.done true) q c
  | refused {q : JsonParser} {c : Fueled Parsed} (msg : Bytes) (h : Same c (pure (.error msg))) :
      Continues u (.done false) q c
  | awaits {place : Place} {q : JsonParser} {c : Fueled Parsed} {f : JsonParser → Fueled Parsed}
      (hf : Awaits u place f) (h : Same c (q.advance >>= f)) : Continues u place q c

variable {scope : Scope} {place : Place} {c c' : Fueled Parsed} {m f : JsonParser → Fueled Parsed}

theorem Continues.of_same (hsame : Same c c') (h : Continues u place q c') :
    Continues u place q c := by
  cases h with
  | accepted cfg h => exact .accepted cfg (hsame.trans h)
  | refused msg h => exact .refused msg (hsame.trans h)
  | awaits hf h => exact .awaits hf (hsame.trans h)

theorem continues_next_member (hm : InMembers u scope m) (q : JsonParser) :
    Continues u (.after scope) q (nextMember q >>= m) :=
  .awaits (.after hm) (.of_eq (bind_assoc _ _ _))

theorem continues_routes (cfg : GatewayConfig) (q : JsonParser) :
    Continues u (Place.atElements .route q.token) q (inRoutes u cfg q) := by
  refine .of_same (same_in_routes cfg q) ?_
  simp only [Place.atElements]
  split_ifs
  · exact .awaits (.members (.route {} cfg)) (.refl _)
  · exact continues_next_member (.root cfg) q

theorem continues_backends (route : Route) (cfg : GatewayConfig) (q : JsonParser) :
    Continues u (Place.atElements .backend q.token) q (inBackends u route cfg q) := by
  refine .of_same (same_in_backends route cfg q) ?_
  simp only [Place.atElements]
  split_ifs
  · exact .awaits (.members (.backend _ route cfg)) (.refl _)
  · exact continues_next_member (.route route cfg) q

theorem continues_members (hm : InMembers u scope m) (q : JsonParser) :
    Continues u (Place.atMembers scope q.token) q (m q) := by
  cases hm with
  | root cfg =>
      refine .of_same (same_in_root cfg q) ?_
      simp only [Place.atMembers]
      split_ifs
      · exact .awaits (.colon (.rootValue q.text cfg)) (.refl _)
      · exact .accepted cfg (.refl _)
  | route route cfg =>
      refine .of_same (same_in_route route cfg q) ?_
      simp only [Place.atMembers]
      split_ifs
      · exact .awaits (.colon (.routeValue q.text route cfg)) (.refl _)
      · exact .awaits (.routeEnd _) (.refl _)
  | backend b route cfg =>
      refine .of_same (same_in_backend b route cfg q) ?_
      simp only [Place.atMembers, skipToken]
      split_ifs
      · exact .awaits (.colon (.backendValue q.text b route cfg)) (.refl _)
      · exact .awaits (.backends _ cfg) (.refl _)
      · exact continues_backends _ cfg q

/-- An unknown value: `skip_value` goes over it if it is bracketed, and leaves it otherwise. -/
theorem continues_skip (hm : InMembers u scope m) (q : JsonParser) :
    Continues u (Place.atSkip scope q.token) q (q.skipValue >>= fun q => nextMember q >>= m) := by
  simp only [Place.atSkip, skipValue]
  split_ifs with hobject harray
  · rw [hobject]
    exact .awaits (.skipping .object 0 hm) (same_skip_loop .object 0 _ q)
  · rw [harray]
    exact .awaits (.skipping .array 0 hm) (same_skip_loop .array 0 _ q)
  · split
    · exact absurd ‹_› hobject
    · exact absurd ‹_› harray
    · exact continues_next_member hm q

theorem continues_in_skipped (b : Bracket) (inner : Nat) (hm : InMembers u scope m)
    (q : JsonParser) :
    Continues u (Place.next (.skipping scope b inner) q.token) q
      (inSkipped b inner (fun p => nextMember p >>= m) q) := by
  simp only [Place.next, inSkipped]
  split_ifs
  · exact .awaits (.skipping b (inner + 1) hm) (same_skip_loop b (inner + 1) _ q)
  · cases inner with
    | zero => exact .of_same (same_skip_loop_zero b _ q) (continues_next_member hm q)
    | succ inner => exact .awaits (.skipping b inner hm) (same_skip_loop b inner _ q)
  · exact continues_next_member hm q
  · exact .awaits (.skipping b inner hm) (same_skip_loop b inner _ q)

theorem Place.at_value_reads {key : Bytes} (h : scope.reads key = true) (t : Token) :
    atValue scope key t = .after scope :=
  if_pos h

theorem Place.at_value_array {key : Bytes} {inner : Scope} (h : scope.reads key = false)
    (harray : scope.array key = some inner) (t : Token) :
    atValue scope key t = if t.type = .arrayStart then .elements inner else .done false := by
  simp [atValue, h, harray]

theorem Place.at_value_skip {key : Bytes} (h : scope.reads key = false)
    (harray : scope.array key = none) (t : Token) : atValue scope key t = atSkip scope t := by
  simp [atValue, h, harray]

theorem continues_root_value (key : Bytes) (cfg : GatewayConfig) (q : JsonParser) :
    Continues u (Place.atValue .root key q.token) q (atRootValue u key cfg q) := by
  simp only [atRootValue, rootMember]
  cases hfind : intFields.find? fun f => f.key = key with
  | some f =>
      rw [Place.at_value_reads (by simp [Scope.reads, hfind])]
      exact continues_next_member (.root _) q
  | none =>
      have hreads : Scope.root.reads key = false := by simp [Scope.reads, hfind]
      by_cases hkey : key = ascii "routes"
      · rw [Place.at_value_array hreads (if_pos hkey)]
        simp only [hkey, if_true, ne_eq, ite_not]
        split_ifs
        · refine .awaits (.routes cfg) (.of_eq ?_)
          simp only [bind_assoc]
          refine bind_congr fun p => bind_congr fun r => ?_
          cases r with
          | error msg => rfl
          | ok r => rfl
        · exact .refused _ (.refl _)
      · rw [Place.at_value_skip hreads (if_neg hkey)]
        simp only [hkey, if_false, bind_assoc, pure_bind]
        exact continues_skip (.root cfg) q

theorem continues_route_value (key : Bytes) (route : Route) (cfg : GatewayConfig)
    (q : JsonParser) :
    Continues u (Place.atValue .route key q.token) q (atRouteValue u key route cfg q) := by
  simp only [atRouteValue, routeMember]
  by_cases hread : key = ascii "prefix"
  · rw [Place.at_value_reads (by simp [Scope.reads, hread]), if_pos hread]
    exact continues_next_member (.route _ cfg) q
  · have hreads : Scope.route.reads key = false := decide_eq_false hread
    rw [if_neg hread]
    by_cases hkey : key = ascii "backends"
    · rw [Place.at_value_array hreads (if_pos hkey)]
      simp only [hkey, if_true, ne_eq, ite_not]
      split_ifs
      · refine .awaits (.backends route cfg) (.of_eq ?_)
        simp only [bind_assoc]
        rfl
      · exact .refused _ (.refl _)
    · rw [Place.at_value_skip hreads (if_neg hkey)]
      simp only [hkey, if_false, bind_assoc, pure_bind]
      exact continues_skip (.route route cfg) q

theorem continues_backend_value (key : Bytes) (b : Backend) (route : Route) (cfg : GatewayConfig)
    (q : JsonParser) :
    Continues u (Place.atValue .backend key q.token) q (atBackendValue u key b route cfg q) := by
  simp only [atBackendValue, backendMember]
  by_cases hhost : key = ascii "host"
  · rw [Place.at_value_reads (by simp [Scope.reads, hhost]), if_pos hhost]
    exact continues_next_member (.backend _ route cfg) q
  · rw [if_neg hhost]
    by_cases hport : key = ascii "port"
    · rw [Place.at_value_reads (by simp [Scope.reads, hport]), if_pos hport]
      exact continues_next_member (.backend _ route cfg) q
    · rw [Place.at_value_skip (by simp [Scope.reads, hhost, hport]) rfl, if_neg hport]
      simp only [bind_assoc, pure_bind]
      exact continues_skip (.backend b route cfg) q

/-- After a token, the program is at the next place. -/
theorem Awaits.step (hf : Awaits u place f) (q : JsonParser) :
    Continues u (place.next q.token) q (f q) := by
  cases hf with
  | start =>
      simp only [Place.next, ne_eq, ite_not]
      split_ifs
      · exact .awaits (.members (.root {})) (.refl _)
      · exact .refused _ (.refl _)
  | members hm => exact continues_members hm q
  | colon hf => exact .awaits hf (.refl _)
  | rootValue key cfg => exact continues_root_value key cfg q
  | routeValue key route cfg => exact continues_route_value key route cfg q
  | backendValue key b route cfg => exact continues_backend_value key b route cfg q
  | skipping b inner hm => exact continues_in_skipped b inner hm q
  | after hm =>
      simp only [Place.next, skipToken]
      split_ifs
      · exact .awaits (.members hm) (.refl _)
      · exact continues_members hm q
  | routes cfg => exact continues_routes cfg q
  | backends route cfg => exact continues_backends route cfg q
  | routeEnd cfg =>
      simp only [Place.next, Place.atRouteClosed, skipToken]
      split_ifs with hend hcomma
      · exact .awaits (.routeClosed cfg) (.refl _)
      · exact .awaits (.routes cfg) (by simp [hcomma, Same.refl])
      · exact .of_same (.of_eq (by simp [hcomma])) (continues_routes cfg q)
  | routeClosed cfg =>
      simp only [Place.next, Place.atRouteClosed, skipToken]
      split_ifs
      · exact .awaits (.routes cfg) (.refl _)
      · exact continues_routes cfg q

theorem Continues.step (h : Continues u place p c) (hplace : place.isDone = false)
    (hq : p.advance.Returns q) : ∃ c', Same c c' ∧ Continues u (place.next q.token) q c' := by
  cases h with
  | accepted | refused => cases hplace
  | @awaits _ _ _ f hf h => exact ⟨f q, h.trans (hq.same_bind f), hf.step q⟩

/-- The loops begin in front of the first token. -/
theorem continues_start (json : Bytes) :
    Continues u .start { rest := json, type := u.type } (parseRoot u json) :=
  .awaits .start (.refl _)

/-! ## The tokens of a text -/

/-- Where the loader is, with the token at hand and those it has not seen. -/
structure Stop where
  place : Place
  current : Token
  unread : List Token

/-- The way of the loader along tokens, until it leaves the loops or they run out. -/
def walk (place : Place) (current : Token) : List Token → Stop
  | [] => ⟨place, current, []⟩
  | t :: toks =>
      if place.isDone then ⟨place, current, t :: toks⟩ else walk (place.next t) t toks

/-- The program follows the walk along the tokens of a text. -/
theorem walk_spec {toks : List Token} (htoks : (scan p.rest).1 = toks)
    (h : Continues u place p c) :
    ∃ q c', Same c c' ∧ Continues u (walk place p.token toks).place q c' ∧
      q.token = (walk place p.token toks).current ∧ q.error = p.error ∧
      scan q.rest = ((walk place p.token toks).unread, (scan p.rest).2) := by
  induction toks generalizing place p c with
  | nil => exact ⟨p, c, .refl _, h, rfl, rfl, Prod.ext htoks rfl⟩
  | cons t toks ih =>
      simp only [walk]
      split
      · exact ⟨p, c, .refl _, h, rfl, rfl, Prod.ext htoks rfl⟩
      · rename_i hdone
        obtain ⟨rest, hlex, hrest, hend⟩ := lexeme_of_scan htoks
        obtain ⟨c', hsame, hnext⟩ := h.step (Bool.eq_false_iff.2 hdone) (advance_token hlex)
        obtain ⟨q, c'', hsame', hq⟩ := ih hrest hnext
        rw [hend] at hq
        exact ⟨q, c'', hsame.trans hsame', hq⟩

end ApiGateway.Core
