import ApiGateway.Core.RouteStats
import ApiGateway.Utils.NumberText

/-!
# The statistics as JSON

`handle_internal_endpoint` writes the names of the routes between quotation marks as they are. Since
a name is the path of a request, it is chosen by a client. `stats_json_iff` says for which requests
the document of `/stats` is JSON from which the recorded names and counters can be read: exactly if
every path that has been recorded is UTF-8 and has no quotation mark, no backslash and no control
character.
-/

namespace ApiGateway.Core

open Http Monitor Json Search

/-! ## The document as members -/

/-- A counter of the document. -/
def counterMember (key : Bytes) (hkey : key.all fun b => unescaped b && b < 128) (n : UInt64) :
    NumberMember :=
  ⟨key, putCounter n, n.toNat, .of_ascii hkey, put_counter_number n⟩

/-- An average of the document. -/
def averageMember (key : Bytes) (hkey : key.all fun b => unescaped b && b < 128) (x : ℚ) :
    NumberMember :=
  ⟨key, putDouble x, sixDigits x, .of_ascii hkey, put_double_number x⟩

/-- The counters of one route. -/
def routeCounters (snap : RouteSnapshot) : List NumberMember :=
  [counterMember (ascii "requests") rfl snap.totalRequests,
    counterMember (ascii "success") rfl snap.successCount,
    counterMember (ascii "errors") rfl snap.errorCount,
    averageMember (ascii "avg_ms") rfl snap.avgLatencyMs]

/-- The counters in front of those of the routes. -/
def totals (snap : Snapshot) : List NumberMember :=
  [counterMember (ascii "total_requests") rfl snap.totalRequests,
    counterMember (ascii "total_success") rfl snap.totalSuccess,
    counterMember (ascii "total_errors") rfl snap.totalErrors,
    averageMember (ascii "avg_latency_ms") rfl snap.avgLatencyMs,
    counterMember (ascii "max_latency_ms") rfl snap.maxLatencyMs,
    counterMember (ascii "in_flight") rfl snap.inFlight,
    counterMember (ascii "upstream_errors") rfl snap.upstreamErrors,
    counterMember (ascii "circuit_breaker_trips") rfl snap.circuitBreakerTrips,
    counterMember (ascii "rate_limited") rfl snap.rateLimited]

/-- A route of the statistics as a member of a JSON object. -/
def recordedRoute (entry : Bytes × RouteSnapshot) : Bytes × Json :=
  (entry.1, .obj ((routeCounters entry.2).map NumberMember.member))

/-- A member as the source writes it: the name with its quotation marks and its colon, then the
number. -/
theorem member_text_label (key : String) (text s : Bytes) :
    memberText (ascii key) text ++ s = ascii ("\"" ++ key ++ "\":") ++ (text ++ s) := by
  simp [ascii, memberText]

theorem ascii_comma : ascii "," = [44] := rfl

theorem ascii_open : ascii "\x7b" = [123] := rfl

theorem ascii_close : ascii "\x7d" = [125] := rfl

theorem route_entry_eq (entry : Bytes × RouteSnapshot) : routeEntry entry =
    memberText entry.1 (objectText ((routeCounters entry.2).map NumberMember.print)) := by
  have hquote : ascii "\"" = [34] := rfl
  have hopen : ascii "\":\x7b" = [34, 58, 123] := rfl
  rw [memberText]
  delta routeEntry
  simp only [routeCounters, objectText, membersText, NumberMember.print, counterMember,
    averageMember, List.map_cons, List.map_nil, List.intercalate_cons_cons,
    List.intercalate_singleton, List.append_assoc, member_text_label, String.reduceAppend, hquote,
    hopen, ascii_comma, ascii_close, List.cons_append, List.nil_append]

/-- The loop over the routes puts commas between them. -/
theorem route_entries_eq (routeStats : List (Bytes × RouteSnapshot)) :
    routeEntries true routeStats = [44].intercalate (routeStats.map routeEntry) := by
  have hrest (entry : Bytes × RouteSnapshot) (rest : List (Bytes × RouteSnapshot)) :
      routeEntry entry ++ routeEntries false rest =
        [44].intercalate ((entry :: rest).map routeEntry) := by
    induction rest generalizing entry with
    | nil => simp [routeEntries]
    | cons next rest ih =>
        have hnext : routeEntries false (next :: rest) =
            [44] ++ (routeEntry next ++ routeEntries false rest) := by
          rw [routeEntries, if_neg Bool.false_ne_true, ascii_comma, List.append_assoc]
        rw [hnext, ih, List.map_cons (a := entry), List.map_cons, List.intercalate_cons_cons,
          List.append_assoc]
  cases routeStats with
  | nil => rfl
  | cons entry rest => rw [routeEntries, if_pos rfl, List.nil_append, hrest]

/-- The member with the routes, which is left out if there are none. -/
def routesText (routeStats : List (Bytes × RouteSnapshot)) : List Bytes :=
  if routeStats.isEmpty then []
  else [memberText (ascii "routes") (objectText (routeStats.map routeEntry))]

theorem stats_body_eq (snap : Snapshot) (routeStats : List (Bytes × RouteSnapshot)) :
    statsBody snap routeStats =
      objectText ((totals snap).map NumberMember.print ++ routesText routeStats) := by
  have hroutes : ascii ",\"routes\":\x7b" = 44 :: (ascii "\"routes\":" ++ [123]) := by
    simp [ascii]
  delta statsBody
  -- the last member has no comma behind it, so the two cases end differently
  cases routeStats <;>
    simp only [routesText, route_entries_eq, hroutes, totals, objectText, membersText,
      NumberMember.print, counterMember, averageMember, List.map_cons, List.map_nil,
      List.intercalate_cons_cons, List.intercalate_singleton, List.append_assoc, member_text_label,
      String.reduceAppend, ascii_comma, ascii_open, ascii_close, List.cons_append, List.nil_append,
      List.isEmpty_nil, List.isEmpty_cons, Bool.false_eq_true, if_true, if_false]

/-! ## What is read from the document -/

/-- The routes among the members of a document, none if there is no member for them. -/
def RoutesOf (members routes : List (Bytes × Json)) : Prop :=
  (ascii "routes", .obj routes) ∈ members ∨ (routes = [] ∧ ∀ m ∈ members, m.1 ≠ ascii "routes")

/-- The document is JSON, and its routes are those that have been recorded, with their counters. -/
def Readable (body : Bytes) (routeStats : List (Bytes × RouteSnapshot)) : Prop :=
  Utf8 body ∧ ∃ members routes, Denotes body (.obj members) ∧ RoutesOf members routes ∧
    routes.Perm (routeStats.map recordedRoute)

variable (snap : Snapshot) (routeStats : List (Bytes × RouteSnapshot))

/-- The document is UTF-8 if the names are. -/
theorem utf8_stats_body :
    Utf8 (statsBody snap routeStats) ↔ ∀ entry ∈ routeStats, Utf8 entry.1 := by
  have htotals : ∀ text ∈ (totals snap).map NumberMember.print, Utf8 text :=
    List.forall_mem_map.2 fun m _ => m.utf8_print
  have hentry (entry : Bytes × RouteSnapshot) : Utf8 (routeEntry entry) ↔ Utf8 entry.1 := by
    rw [route_entry_eq, utf8_member_text, utf8_object_text]
    exact and_iff_left (List.forall_mem_map.2 fun m _ => m.utf8_print)
  rw [stats_body_eq, utf8_object_text, List.forall_mem_append, and_iff_right htotals, routesText]
  cases routeStats with
  | nil => exact iff_of_true nofun nofun
  | cons entry rest =>
      rw [List.isEmpty_cons, if_neg Bool.false_ne_true, List.forall_mem_singleton, utf8_member_text,
        utf8_object_text, List.forall_mem_map, and_iff_right (Plain.of_ascii rfl).utf8]
      exact forall₂_congr fun entry _ => hentry entry

/-- The routes are not among the totals. -/
theorem totals_key_ne : ∀ m ∈ totals snap, m.key ≠ ascii "routes" := by
  simp [totals, counterMember, averageMember, ascii]

theorem entry_prints {entry : Bytes × RouteSnapshot} (h : Plain entry.1) :
    Prints (routeEntry entry) (recordedRoute entry) := by
  rw [route_entry_eq]
  exact ValueText.prints h
    (Value.read_obj (NumberMember.prints (routeCounters entry.2)) (List.cons_ne_nil _ _))

/-- A document with plain names is read as what has been recorded. -/
theorem readable_of_plain (h : ∀ entry ∈ routeStats, Plain entry.1) :
    Readable (statsBody snap routeStats) routeStats := by
  refine ⟨(utf8_stats_body snap routeStats).2 fun entry hentry => (h entry hentry).utf8, ?_⟩
  have htotals := NumberMember.prints (totals snap)
  rw [stats_body_eq]
  cases routeStats with
  | nil =>
      refine ⟨(totals snap).map NumberMember.member, [], ?_, .inr ⟨rfl, ?_⟩, .nil⟩
      · rw [routesText, List.isEmpty_nil, if_pos rfl, List.append_nil]
        exact .read_obj htotals (List.cons_ne_nil _ _)
      · exact List.forall_mem_map.2 (totals_key_ne snap)
  | cons entry rest =>
      have hroutes : List.Forall₂ Prints ((entry :: rest).map routeEntry)
          ((entry :: rest).map recordedRoute) := by
        rw [List.forall₂_map_left_iff, List.forall₂_map_right_iff, List.forall₂_same]
        exact fun entry hentry => entry_prints (h entry hentry)
      have hmember :
          Prints (memberText (ascii "routes") (objectText ((entry :: rest).map routeEntry)))
            (ascii "routes", .obj ((entry :: rest).map recordedRoute)) :=
        (Value.read_obj hroutes (List.cons_ne_nil _ _)).prints (.of_ascii rfl)
      refine ⟨(totals snap).map NumberMember.member ++
        [(ascii "routes", Json.obj ((entry :: rest).map recordedRoute))],
        (entry :: rest).map recordedRoute, ?_, .inl ?_, List.Perm.refl _⟩
      · rw [routesText, List.isEmpty_cons, if_neg Bool.false_ne_true]
        exact .read_obj (List.rel_append htotals (.cons hmember .nil)) (List.cons_ne_nil _ _)
      · exact List.mem_append_right _ List.mem_cons_self

/-- The routes of a document are read from what follows the totals. -/
theorem routes_after_totals {members routes : List (Bytes × Json)} (hne : routeStats ≠ [])
    (hdenotes : Denotes (statsBody snap routeStats) (.obj members))
    (hroutes : (ascii "routes", Json.obj routes) ∈ members) :
    ∃ others rest, Members (membersText [memberText (ascii "routes")
        (objectText (routeStats.map routeEntry))]) others rest ∧
      (ascii "routes", Json.obj routes) ∈ others := by
  have hempty : routeStats.isEmpty = false := List.isEmpty_eq_false_iff.2 hne
  rw [stats_body_eq, routesText, hempty, if_neg Bool.false_ne_true] at hdenotes
  obtain ⟨rest, hmembers⟩ := hdenotes.members
  obtain ⟨others, rfl, hothers⟩ :=
    Members.starts (NumberMember.fixes (totals snap)) (List.cons_ne_nil _ _) hmembers
  refine ⟨others, rest, hothers, ?_⟩
  rcases List.mem_append.1 hroutes with htotal | hother
  · -- the totals are numbers
    obtain ⟨m, -, hm⟩ := List.mem_map.1 htotal
    have hvalue : Json.num m.value = .obj routes := congrArg Prod.snd hm
    cases hvalue
  · exact hother

/-- The routes need the marks that they have in the document, and one for every byte of a name that
has to be escaped. -/
theorem routes_price : priceMembers (routeStats.map recordedRoute) =
    ((routeStats.map routeEntry).map marks).sum +
      (routeStats.map fun entry => entry.1.countP fun b => !unescaped b).sum := by
  induction routeStats with
  | nil => rfl
  | cons entry rest ih =>
      have hentry : marks (routeEntry entry) =
          marks entry.1 + price (.obj ((routeCounters entry.2).map NumberMember.member)) := by
        rw [route_entry_eq, marks_member_text, NumberMember.price_eq]
      rw [List.map_cons, List.map_cons, List.map_cons, List.map_cons, recordedRoute, priceMembers,
        ih, List.sum_cons, List.sum_cons, hentry, cost]
      omega

/-- From a document that is read as what has been recorded, no name has had to be escaped. -/
theorem unescaped_of_readable (h : Readable (statsBody snap routeStats) routeStats) :
    ∀ entry ∈ routeStats, ∀ b ∈ entry.1, unescaped b = true := by
  obtain ⟨-, members, routes, hdenotes, hroutes, hperm⟩ := h
  by_cases hne : routeStats = []
  · rw [hne]
    exact nofun
  rcases hroutes with hroutes | ⟨rfl, -⟩
  · obtain ⟨others, rest, hothers, hmem⟩ := routes_after_totals snap routeStats hne hdenotes hroutes
    have hplain : Plain (ascii "routes") := .of_ascii rfl
    have hneeds : cost (ascii "routes") + price (.obj routes) ≤ priceMembers others :=
      price_le_of_mem hmem
    have hhas := hothers.cost_le
    rw [membersText, List.intercalate_singleton, marks_append, marks_member_text,
      marks_object_text] at hhas
    rw [price, priceMembers_perm hperm, routes_price, hplain.cost_eq] at hneeds
    have hend : marks [125] = 0 := rfl
    have hzero : (routeStats.map fun entry => entry.1.countP fun b => !unescaped b).sum = 0 := by
      omega
    intro entry hentry b hb
    have hnone := List.sum_eq_zero_iff.1 hzero _ (List.mem_map.2 ⟨entry, hentry, rfl⟩)
    simpa using List.countP_eq_zero.1 hnone b hb
  · exact absurd (List.map_eq_nil_iff.1 hperm.symm.eq_nil) hne

/-- The document of `/stats` can be read exactly if the names are plain. -/
theorem readable_iff : Readable (statsBody snap routeStats) routeStats ↔
    ∀ entry ∈ routeStats, Plain entry.1 := by
  refine ⟨fun h entry hentry => ⟨?_, ?_⟩, readable_of_plain snap routeStats⟩
  · exact (utf8_stats_body snap routeStats).1 h.1 entry hentry
  · exact unescaped_of_readable snap routeStats h entry hentry

/-- The statistics are read back from the response to `/stats` exactly if every path that has been
recorded is plain: it is UTF-8, without quotation marks, backslashes and control characters. -/
theorem stats_json_iff {router : Router} (requests : List (Processed router)) (snap : Snapshot)
    {routeStats : List (Bytes × RouteSnapshot)}
    (hsnapshot : routeStats.Perm (recordRequests {} requests).routeSnapshot) {path : Bytes}
    (hpath : path = ascii "/stats" ∨ path = ascii "/stats/") :
    ∃ response head body, handleInternalEndpoint snap routeStats path = some response ∧
      cutSub crlfcrlf response = some (head, body) ∧
      (Readable body routeStats ↔
        ∀ request ∈ requests, ∀ name, request.path? = some name → Plain name) := by
  have hhead : cutSub crlfcrlf
      (ascii "HTTP/1.1 200 OK\r\nContent-Type: application/json\r\nConnection: close\r\n\r\n") =
      some
        (ascii "HTTP/1.1 200 OK\r\nContent-Type: application/json\r\nConnection: close", []) := by
    decide
  have hnames (name : Bytes) : name ∈ routeStats.map Prod.fst ↔
      ∃ request ∈ requests, request.path? = some name := by
    rw [(hsnapshot.map Prod.fst).mem_iff, GatewayStats.routeSnapshot, List.map_map]
    exact mem_records_iff name requests
  refine ⟨_, _, _, if_pos hpath, cutSub_append_of_some hhead _, ?_⟩
  rw [List.nil_append, readable_iff]
  constructor
  · intro h request hrequest name hname
    obtain ⟨entry, hentry, rfl⟩ := List.mem_map.1 ((hnames name).2 ⟨request, hrequest, hname⟩)
    exact h entry hentry
  · intro h entry hentry
    obtain ⟨request, hrequest, hname⟩ := (hnames entry.1).1 (List.mem_map.2 ⟨entry, hentry, rfl⟩)
    exact h request hrequest entry.1 hname

theorem stats_json_plain : ∃ response head body,
    handleInternalEndpoint (recordRequests {} [getBelowApi (ascii "/1")]).globalSnapshot
        (recordRequests {} [getBelowApi (ascii "/1")]).routeSnapshot (ascii "/stats") =
      some response ∧
    cutSub crlfcrlf response = some (head, body) ∧
    Readable body (recordRequests {} [getBelowApi (ascii "/1")]).routeSnapshot := by
  obtain ⟨response, head, body, hresponse, hcut, hiff⟩ :=
    stats_json_iff [getBelowApi (ascii "/1")]
      (recordRequests {} [getBelowApi (ascii "/1")]).globalSnapshot (.refl _) (.inl rfl)
  refine ⟨response, head, body, hresponse, hcut, hiff.2 ?_⟩
  intro request hrequest name hname
  rw [List.mem_singleton.1 hrequest,
    show (getBelowApi (ascii "/1")).path? = some (ascii "/api/1") by decide] at hname
  rw [← Option.some.inj hname]
  exact .of_ascii rfl

/-- The routes that are recorded after a request for a path with a quotation mark. -/
def quotedStats : List (Bytes × RouteSnapshot) :=
  [(ascii "/api/\"x", { totalRequests := 1, successCount := 1, avgLatencyMs := 0 })]

/-- A client chooses a name that ends the string in which it is written. -/
theorem stats_quotation_mark :
    (recordRequests {} [getBelowApi (ascii "/\"x")]).routeSnapshot = quotedStats ∧
    routeEntries true quotedStats =
      ascii "\"/api/\"x\":\x7b\"requests\":1,\"success\":1,\"errors\":0,\"avg_ms\":0\x7d" ∧
    ∀ snap, ¬ Readable (statsBody snap quotedStats) quotedStats := by
  refine ⟨?_, ?_, fun snap h => ?_⟩
  · have hentries : (recordRequests {} [getBelowApi (ascii "/\"x")]).routes.entries =
        [(ascii "/api/\"x", { totalRequests := 1, successCount := 1 })] := by decide
    rw [GatewayStats.routeSnapshot, hentries]
    simp [quotedStats, avgLatencyMs, toDouble]
  · simp [quotedStats, routeEntries, routeEntry, putCounter, putDouble, natToString, digitsBefore,
      ascii]
  · have hquote := unescaped_of_readable snap quotedStats h _ List.mem_cons_self 34 (by decide)
    cases hquote

end ApiGateway.Core
