import ApiGateway.Core.Endpoint
import ApiGateway.Core.Router

/-!
# Request targets with a query

`parse_request_line` stores the target of a request as it is, so the path that is routed includes
the query. A route whose prefix is the whole path does not match once a query follows, since the
next byte is a question mark and not a slash; a route whose prefix ends at a slash of the path still
does; and a slash inside the query can end the prefix of a further route. `query_ignored_iff` says
for which tables the result is nevertheless that of the path alone.
-/

namespace ApiGateway.Core

open Http Monitor

/-- The target of a request for a path with a query. -/
def withQuery (path query : Bytes) : Bytes :=
  path ++ 63 :: query

namespace Router

/-- The first route whose prefix is the path. -/
def exactRoute (router : Router) (path : Bytes) : Option Route :=
  router.routes.find? fun route => route.path == path

/-- The first route whose prefix ends before a slash of the path. -/
def parentRoute (router : Router) (path : Bytes) : Option Route :=
  router.routes.find? fun route => (route.path ++ [47]).isPrefixOf path

/-- The first route whose prefix reaches into the query and ends before a slash or at its end. -/
def queryRoute (router : Router) (path query : Bytes) : Option Route :=
  router.routes.find? fun route =>
    (path ++ [63]).isPrefixOf route.path && route.accepts (withQuery path query)

/-- The routes that are lost or gained with the query have the backends of the route that takes
their place. -/
def QueryNeutral (router : Router) (path query : Bytes) : Prop :=
  match router.exactRoute path, router.queryRoute path query with
  | none, none => True
  | some own, none => (router.parentRoute path).map Route.backends = some own.backends
  | none, some reached => (router.parentRoute path).map Route.backends = some reached.backends
  | some own, some reached => own.backends = reached.backends

end Router

theorem matches_iff {route : Route} {path : Bytes} :
    route.Matches path ↔ route.path = path ∨ route.path ++ [47] <+: path := by
  refine ⟨And.right, fun h => ⟨?_, h⟩⟩
  rcases h with rfl | hslash
  · exact List.prefix_rfl
  · exact (List.prefix_append _ _).trans hslash

/-- A slash of a target with a query lies in the path or in the query. -/
theorem slash_in_query {pre path query : Bytes} (h : pre ++ [47] <+: withQuery path query) :
    pre ++ [47] <+: path ∨ path ++ [63] <+: pre := by
  have hpre : pre <+: withQuery path query := (List.prefix_append _ _).trans h
  have hpath : path <+: withQuery path query := List.prefix_append _ _
  rcases Nat.lt_trichotomy pre.length path.length with hlt | heq | hgt
  · exact .inl (List.prefix_of_prefix_length_le h hpath (by simpa using hlt))
  · -- the byte after the path is a question mark
    have hsame : pre = path := (List.prefix_of_prefix_length_le hpre hpath heq.le).eq_of_length heq
    rw [hsame, withQuery, List.prefix_append_right_inj, List.cons_prefix_cons] at h
    exact absurd h.1 (by decide)
  · have hmark : path ++ [63] <+: withQuery path query := ⟨query, by simp [withQuery]⟩
    exact .inr (List.prefix_of_prefix_length_le hmark hpre (by simpa using hgt))

theorem accepts_path (path : Bytes) (route : Route) :
    route.accepts path = (route.path == path || (route.path ++ [47]).isPrefixOf path) := by
  rw [Bool.eq_iff_iff, Route.accepts_iff, matches_iff, Bool.or_eq_true, beq_iff_eq,
    List.isPrefixOf_iff_prefix]

theorem accepts_with_query (path query : Bytes) (route : Route) :
    route.accepts (withQuery path query) =
      (((path ++ [63]).isPrefixOf route.path && route.accepts (withQuery path query)) ||
        (route.path ++ [47]).isPrefixOf path) := by
  rw [Bool.eq_iff_iff, Bool.or_eq_true, Bool.and_eq_true, Route.accepts_iff,
    List.isPrefixOf_iff_prefix, List.isPrefixOf_iff_prefix]
  constructor
  · intro h
    rcases (matches_iff.1 h) with heq | hslash
    · exact .inl ⟨⟨query, by simp [heq, withQuery]⟩, h⟩
    · exact (slash_in_query hslash).symm.imp_left fun hmark => ⟨hmark, h⟩
  · rintro (⟨-, h⟩ | hslash)
    · exact h
    · exact matches_iff.2 (.inr (hslash.trans (List.prefix_append _ _)))

section Match

variable (sort : StdSort comesBefore) (routes : List Route) (path query : Bytes)

/-- A path goes to the route whose prefix it is, and otherwise to its longest parent. -/
theorem match_path : (Router.create sort routes).matchPath path =
    (((Router.create sort routes).exactRoute path).or
      ((Router.create sort routes).parentRoute path)).map Route.backends := by
  rw [Router.matchPath, funext (accepts_path path)]
  refine congrArg (Option.map Route.backends) (sort.find_or fun own _ parent _ hown hparent => ?_)
  rw [beq_iff_eq] at hown
  rw [List.isPrefixOf_iff_prefix] at hparent
  have hlen := hparent.length_le
  rw [List.length_append, List.length_singleton] at hlen
  refine (matches_iff.2 (.inr hparent)).comes_before (matches_iff.2 (.inl hown)) ?_
  rw [hown]
  exact hlen

/-- With a query, the place of the route whose prefix is the path is taken by those whose prefix
reaches into the query. -/
theorem match_with_query : (Router.create sort routes).matchPath (withQuery path query) =
    (((Router.create sort routes).queryRoute path query).or
      ((Router.create sort routes).parentRoute path)).map Route.backends := by
  rw [Router.matchPath, funext (accepts_with_query path query)]
  refine congrArg (Option.map Route.backends)
    (sort.find_or fun reached _ parent _ hreached hparent => ?_)
  rw [Bool.and_eq_true, List.isPrefixOf_iff_prefix, Route.accepts_iff] at hreached
  rw [List.isPrefixOf_iff_prefix] at hparent
  have hlong := hreached.1.length_le
  have hshort := hparent.length_le
  rw [List.length_append, List.length_singleton] at hlong hshort
  refine Route.Matches.comes_before ?_ hreached.2 (by omega)
  exact matches_iff.2 (.inr (hparent.trans (List.prefix_append _ _)))

theorem match_with_query_iff : (Router.create sort routes).matchPath (withQuery path query) =
      (Router.create sort routes).matchPath path ↔
    (Router.create sort routes).QueryNeutral path query := by
  rw [match_with_query, match_path, Router.QueryNeutral]
  cases (Router.create sort routes).exactRoute path <;>
    cases (Router.create sort routes).queryRoute path query
  · exact iff_of_true rfl trivial
  · exact eq_comm
  · exact Iff.rfl
  · exact Option.some_inj.trans eq_comm

end Match

theorem with_query_not_internal (path query : Bytes) : withQuery path query ∉ internalPaths := by
  have hmark : (63 : UInt8) ∈ withQuery path query := by simp [withQuery]
  have hplain : ∀ internal ∈ internalPaths, (63 : UInt8) ∉ internal := by decide
  exact fun h => hplain _ h hmark

/-- The query has no influence on routing exactly for the paths that are not internal endpoints
and the tables in which the routes concerned agree. -/
theorem query_ignored_iff (sort : StdSort comesBefore) (routes : List Route) (path query : Bytes)
    (snap : Snapshot) (routeStats : List (Bytes × RouteSnapshot)) :
    ((Router.create sort routes).matchPath (withQuery path query) =
        (Router.create sort routes).matchPath path ∧
      ((handleInternalEndpoint snap routeStats (withQuery path query)).isSome = true ↔
        (handleInternalEndpoint snap routeStats path).isSome = true)) ↔
      path ∉ internalPaths ∧ (Router.create sort routes).QueryNeutral path query := by
  rw [match_with_query_iff, internal_endpoint_iff, internal_endpoint_iff, and_comm]
  refine and_congr_left' ?_
  exact ⟨fun h hpath => with_query_not_internal path query (h.2 hpath),
    fun h => iff_of_false (with_query_not_internal path query) h⟩

/-- A request for `/api/user` with a query is led to the backends of `/api`, and `/stats` with a
query is no internal endpoint. -/
theorem query_changes_route :
    (parseRequestLine (ascii "GET /api/user?id=1 HTTP/1.1") {}).2.path =
      withQuery (ascii "/api/user") (ascii "id=1") ∧
    (Router.create sortRoutes [apiRoute, userRoute]).matchPath
      (withQuery (ascii "/api/user") (ascii "id=1")) = some apiRoute.backends ∧
    (Router.create sortRoutes [apiRoute, userRoute]).matchPath (ascii "/api/user") =
      some userRoute.backends ∧
    apiRoute.backends ≠ userRoute.backends ∧
    handleInternalEndpoint {} [] (withQuery (ascii "/stats") (ascii "pretty")) = none ∧
    (handleInternalEndpoint {} [] (ascii "/stats")).isSome = true := by
  refine ⟨by decide, by decide, by decide, by decide, by decide, ?_⟩
  exact internal_endpoint_iff.2 (by decide)

end ApiGateway.Core
