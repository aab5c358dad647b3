import ApiGateway.Core.Config
import ApiGateway.Library.StdSort

/-!
# Routes

`router.cpp`: the routes are sorted by the number of slashes of their prefixes, then by length, and
the first route that accepts a path wins. Of two prefixes that match the same path, the shorter one
is followed by a slash inside the longer one, which therefore has more slashes
(`Route.Matches.comes_before`). So the order of the table is the order of the lengths as far as one
path is concerned, and the first match is the longest (`router_longest_match`).
-/

namespace ApiGateway.Core

/-- `count_slashes`. -/
def countSlashes (s : Bytes) : Nat :=
  s.count 47

/-- The comparison of `sort_routes`. -/
def comesBefore (a b : Route) : Bool :=
  if countSlashes a.path != countSlashes b.path then
    decide (countSlashes b.path < countSlashes a.path)
  else decide (b.path.length < a.path.length)

/-- `class Router`. -/
structure Router where
  routes : List Route := []

/-- The constructor of `Router`, with the `std::sort` that `sort_routes` calls. -/
def Router.create (sort : StdSort comesBefore) (routes : List Route) : Router :=
  ⟨sort.sort routes⟩

/-- The test that `match` makes for one route. -/
def Route.accepts (route : Route) (path : Bytes) : Bool :=
  decide (route.path.length ≤ path.length) && path.take route.path.length == route.path &&
    (route.path.length == path.length || path[route.path.length]? == some 47)

/-- `match`: the backends of the first route that accepts the path. -/
def Router.matchPath (router : Router) (path : Bytes) : Option (List Backend) :=
  (router.routes.find? fun route => route.accepts path).map Route.backends

/-- A route matches the paths that are its prefix and those in which a slash follows it. -/
def Route.Matches (route : Route) (path : Bytes) : Prop :=
  route.path <+: path ∧ (route.path = path ∨ route.path ++ [47] <+: path)

theorem comes_before_iff {a b : Route} : comesBefore a b = true ↔
    toLex (countSlashes b.path, b.path.length) < toLex (countSlashes a.path, a.path.length) := by
  rw [Prod.Lex.toLex_lt_toLex]
  simp only [comesBefore, bne_iff_ne]
  split
  · rename_i hne
    rw [decide_eq_true_iff]
    omega
  · rename_i heq
    rw [decide_eq_true_iff]
    omega

/-- A `std::sort` for routes. -/
def sortRoutes : StdSort comesBefore :=
  .byKey (fun route => toLex (countSlashes route.path, route.path.length)) comesBefore
    fun _ _ => comes_before_iff

theorem slash_prefix_iff {pre path : Bytes} :
    pre ++ [47] <+: path ↔ pre <+: path ∧ path[pre.length]? = some 47 := by
  constructor
  · rintro ⟨rest, rfl⟩
    exact ⟨⟨47 :: rest, by simp⟩, by simp⟩
  · rintro ⟨⟨rest, rfl⟩, hnext⟩
    rw [List.getElem?_append_right le_rfl, Nat.sub_self] at hnext
    cases rest with
    | nil => cases hnext
    | cons c rest =>
        cases hnext
        exact ⟨rest, by simp⟩

/-- The test of the source decides whether a route matches. -/
theorem Route.accepts_iff {route : Route} {path : Bytes} :
    route.accepts path = true ↔ route.Matches path := by
  simp only [Route.accepts, Route.Matches, Bool.and_eq_true, Bool.or_eq_true, beq_iff_eq,
    decide_eq_true_eq, slash_prefix_iff]
  constructor
  · rintro ⟨⟨hlen, htake⟩, hend⟩
    have hpre : route.path <+: path := htake ▸ List.take_prefix _ path
    exact ⟨hpre, hend.imp hpre.eq_of_length fun hnext => ⟨hpre, hnext⟩⟩
  · rintro ⟨hpre, hend⟩
    have htake : path.take route.path.length = route.path := (List.prefix_iff_eq_take.1 hpre).symm
    exact ⟨⟨hpre.length_le, htake⟩, hend.imp (congrArg List.length) And.right⟩

namespace Route.Matches

variable {route longer : Route} {path : Bytes}

/-- A longer prefix that matches the same path continues a shorter one with a slash. -/
theorem slash_prefix (h : route.Matches path) (hlonger : longer.Matches path)
    (hlen : route.path.length < longer.path.length) : route.path ++ [47] <+: longer.path := by
  rcases h.2 with heq | hslash
  · have := hlonger.1.length_le
    rw [heq] at hlen
    omega
  · refine List.prefix_of_prefix_length_le hslash hlonger.1 ?_
    rw [List.length_append, List.length_singleton]
    exact hlen

/-- Of two routes that match a path, the one with the longer prefix comes first. -/
theorem comes_before (h : route.Matches path) (hlonger : longer.Matches path)
    (hlen : route.path.length < longer.path.length) : comesBefore longer route = true := by
  have hcount : countSlashes route.path + 1 ≤ countSlashes longer.path := by
    have hle := (h.slash_prefix hlonger hlen).sublist.count_le 47
    rw [List.count_append] at hle
    exact hle
  rw [comes_before_iff, Prod.Lex.toLex_lt_toLex]
  exact .inl hcount

/-- Prefixes of the same length that match the same path are equal. -/
theorem path_eq (h : route.Matches path) (hlonger : longer.Matches path)
    (hlen : route.path.length = longer.path.length) : route.path = longer.path :=
  (List.prefix_of_prefix_length_le h.1 hlonger.1 hlen.le).eq_of_length hlen

end Route.Matches

variable (sort : StdSort comesBefore) (routes : List Route) (path : Bytes)

theorem Router.match_eq_none_iff : (Router.create sort routes).matchPath path = none ↔
    ∀ route ∈ routes, ¬ route.Matches path := by
  rw [matchPath, create, Option.map_eq_none_iff, sort.find_eq_none_iff]
  refine forall₂_congr fun route _ => ?_
  rw [← Bool.not_eq_true, Route.accepts_iff]

/-- The first route that accepts a path is a matching route with the longest prefix. -/
theorem Router.find_longest {route : Route}
    (h : ((Router.create sort routes).routes.find? fun route => route.accepts path) = some route) :
    route ∈ routes ∧ route.Matches path ∧
      ∀ other ∈ routes, other.Matches path → other.path.length ≤ route.path.length := by
  obtain ⟨hmem, haccepts, hleast⟩ := sort.find_least h
  have hmatches := Route.accepts_iff.1 haccepts
  refine ⟨hmem, hmatches, fun other hother hothers => ?_⟩
  by_contra hlonger
  rcases hleast other hother (Route.accepts_iff.2 hothers) with rfl | hless
  · exact hlonger le_rfl
  · rw [hmatches.comes_before hothers (Nat.lt_of_not_le hlonger)] at hless
    cases hless

/-- A result of `match` is that of a matching route with the longest prefix. -/
theorem Router.match_eq_some {backends : List Backend}
    (h : (Router.create sort routes).matchPath path = some backends) :
    ∃ route ∈ routes, route.Matches path ∧ route.backends = backends ∧
      ∀ other ∈ routes, other.Matches path → other.path.length ≤ route.path.length := by
  obtain ⟨route, hfind, hbackends⟩ := Option.map_eq_some_iff.1 h
  obtain ⟨hmem, hmatches, hlongest⟩ := Router.find_longest sort routes path hfind
  exact ⟨route, hmem, hmatches, hbackends, hlongest⟩

/-- With distinct prefixes, at most one route of the table has a longest matching prefix. -/
theorem longest_unique {routes : List Route} {path : Bytes} {route other : Route}
    (hdistinct : (routes.map Route.path).Nodup) (hmem : route ∈ routes) (hother : other ∈ routes)
    (hmatches : route.Matches path) (hothers : other.Matches path)
    (hlen : route.path.length = other.path.length) : route = other :=
  List.inj_on_of_nodup_map hdistinct hmem hother (hmatches.path_eq hothers hlen)

/-- Longest-prefix routing. -/
theorem router_longest_match :
    ((Router.create sort routes).matchPath path = none ↔
      ∀ route ∈ routes, ¬ route.Matches path) ∧
    (∀ backends, (Router.create sort routes).matchPath path = some backends →
      ∃ route ∈ routes, route.Matches path ∧ route.backends = backends ∧
        ∀ other ∈ routes, other.Matches path → other.path.length ≤ route.path.length) ∧
    ((routes.map Route.path).Nodup → ∀ (sort' : StdSort comesBefore) (routes' : List Route),
      routes'.Perm routes →
      (Router.create sort' routes').matchPath path = (Router.create sort routes).matchPath path) :=
    by
  refine ⟨Router.match_eq_none_iff sort routes path,
    fun _ => Router.match_eq_some sort routes path, fun hdistinct sort' routes' hperm => ?_⟩
  cases h : (Router.create sort routes).matchPath path with
  | none =>
      rw [Router.match_eq_none_iff] at h ⊢
      exact fun route hroute => h route (hperm.mem_iff.1 hroute)
  | some backends =>
      obtain ⟨route, hmem, hmatches, rfl, hlongest⟩ := Router.match_eq_some sort routes path h
      cases h' : (Router.create sort' routes').matchPath path with
      | none =>
          exact absurd hmatches
            ((Router.match_eq_none_iff sort' routes' path).1 h' route (hperm.mem_iff.2 hmem))
      | some backends' =>
          obtain ⟨other, hother, hothers, rfl, hlongest'⟩ :=
            Router.match_eq_some sort' routes' path h'
          have hmem' := hperm.mem_iff.1 hother
          have hlen := Nat.le_antisymm (hlongest' route (hperm.mem_iff.2 hmem) hmatches)
            (hlongest other hmem' hothers)
          rw [longest_unique hdistinct hmem hmem' hmatches hothers hlen]

/-- The routes of the example in `router.h`. -/
def apiRoute : Route :=
  { path := ascii "/api", backends := [{ host := ascii "backend_A", port := 80 }] }

@[inherit_doc apiRoute] def userRoute : Route :=
  { path := ascii "/api/user", backends := [{ host := ascii "backend_B", port := 80 }] }

/-- In both orders of the two routes, the longer one serves `/api/user/profile`. -/
theorem router_longest_match_profile :
    (Router.create sortRoutes [apiRoute, userRoute]).matchPath (ascii "/api/user/profile") =
      some userRoute.backends ∧
    (Router.create sortRoutes [userRoute, apiRoute]).matchPath (ascii "/api/user/profile") =
      some userRoute.backends := by
  have hfirst : (Router.create sortRoutes [apiRoute, userRoute]).matchPath
      (ascii "/api/user/profile") = some userRoute.backends := by decide
  have hdistinct : ([apiRoute, userRoute].map Route.path).Nodup := by decide
  have hother := (router_longest_match sortRoutes [apiRoute, userRoute]
    (ascii "/api/user/profile")).2.2 hdistinct sortRoutes [userRoute, apiRoute]
    (List.Perm.swap apiRoute userRoute [])
  exact ⟨hfirst, hother.trans hfirst⟩

end ApiGateway.Core
