import ApiGateway.Core.ConfigWalk

/-!
# Whether a configuration file is ever loaded

After the tokens of a text the parser gives one token for ever: the token for the end, or at an
unexpected byte the last one. `Place.leaves` says from which places the loops are left on that
token; where they are left, `Place.rank` decreases (`settled_leaves`), and where they are not, one
of the loops of `parse_config` repeats its state (`Awaits.stays`). The main result is
`load_json_terminates_iff`, on which inputs `ConfigLoader::load_json` returns.
-/

namespace ApiGateway.Core

open Loop JsonParser Fueled

namespace Place

/-! ## One token for ever -/

/-- Whether the loop over the members of an object is left when every token is `t`. -/
def membersLeave (t : Token) (scope : Scope) : Bool :=
  if t.type = .string then (scope.array t.text).isSome
  else if t.type = .objectStart then scope = .root
  else true

/-- Whether the loop over an array of objects is left when every token is `t`. -/
def elementsLeave (t : Token) (scope : Scope) : Bool :=
  if t.type = .objectStart then membersLeave t scope else membersLeave t scope.outer

/-- Whether the loops are left from a place when every token is `t`. -/
def leaves (t : Token) : Place → Bool
  | .start | .done _ => true
  | .members scope | .after scope => membersLeave t scope
  | .elements scope => elementsLeave t scope
  | .routeEnd | .routeClosed => elementsLeave t .route
  | .colon scope key | .value scope key =>
      if scope.reads key then membersLeave t scope
      else if (scope.array key).isSome then true
      else t.type ≠ .objectStart ∧ t.type ≠ .arrayStart ∧ membersLeave t scope
  | .skipping _ b _ => t.type = b.closing ∨ t.type = .endOfInput

/-- The order in which the objects are left. -/
def level : Scope → Nat
  | .root => 1
  | .route => 6
  | .backend => 9

/-- A bound on the number of tokens until the loops are left. -/
def rank (t : Token) : Place → Nat
  | .done _ => 0
  | .start => 2
  | .members scope => if t.type = .string then 3 else level scope
  | .after scope => if t.type = .string then 3 else level scope + 1
  | .elements scope => if t.type = .string then 4 else level scope.outer + 2
  | .routeClosed => 4
  | .routeEnd => if t.type = .string then 4 else 5
  | .value scope key =>
      if t.type = .string then if (scope.array key).isSome then 1 else 4 else level scope + 3
  | .colon scope key =>
      if t.type = .string then if (scope.array key).isSome then 2 else 5 else level scope + 4
  | .skipping scope _ inner => level scope + inner + 2

theorem not_reads_of_array {scope inner : Scope} {key : Bytes} (h : scope.array key = some inner) :
    scope.reads key = false := by
  cases scope with
  | root =>
      simp only [Scope.array] at h
      split_ifs at h with hkey
      rw [hkey]
      decide
  | route =>
      simp only [Scope.array] at h
      split_ifs at h with hkey
      rw [hkey]
      decide
  | backend => cases h

theorem leaves_at_elements (t : Token) (scope : Scope) :
    leaves t (atElements scope t) = elementsLeave t scope := by
  simp only [atElements, elementsLeave]
  split_ifs <;> rfl

theorem leaves_at_members (t : Token) (scope : Scope) :
    leaves t (atMembers scope t) = membersLeave t scope := by
  by_cases hstring : t.type = .string
  · unfold atMembers
    rw [if_pos hstring]
    cases harray : scope.array t.text with
    | some inner => simp [leaves, membersLeave, hstring, harray, not_reads_of_array harray]
    | none => simp [leaves, membersLeave, hstring, harray]
  · unfold atMembers
    rw [if_neg hstring]
    cases scope with
    | root => simp [leaves, membersLeave, hstring]
    | route => simp [leaves, elementsLeave, membersLeave, hstring, Scope.outer]
    | backend =>
        dsimp only
        split_ifs with hcomma
        · simp [leaves, elementsLeave, membersLeave, hcomma]
        · rw [leaves_at_elements]
          simp [elementsLeave, membersLeave, hstring, Scope.outer]

theorem leaves_at_value (t : Token) (scope : Scope) (key : Bytes) :
    leaves t (atValue scope key t) = leaves t (.value scope key) := by
  cases hreads : scope.reads key with
  | true => simp [at_value_reads hreads, leaves, hreads]
  | false =>
      cases harray : scope.array key with
      | some inner =>
          rw [at_value_array hreads harray]
          split_ifs with h
          · simp [leaves, hreads, harray, elementsLeave, membersLeave, h]
          · simp [leaves, hreads, harray]
      | none =>
          rw [at_value_skip hreads harray, atSkip]
          split_ifs with hobject harray'
          · simp [leaves, hreads, harray, hobject, Bracket.closing]
          · simp [leaves, hreads, harray, harray', Bracket.closing]
          · simp [leaves, hreads, harray, hobject, harray']

/-- A token does not change whether its repetition leads out of the loops. -/
theorem leaves_next (t : Token) (place : Place) : leaves t (place.next t) = leaves t place := by
  cases place with
  | start =>
      simp only [next]
      split_ifs with h
      · simp [leaves, membersLeave, h]
      · rfl
  | members scope => exact leaves_at_members t scope
  | colon scope key => rfl
  | value scope key => exact leaves_at_value t scope key
  | skipping scope b inner =>
      simp only [next]
      split_ifs with hopen hclose hend
      · rfl
      · have hmembers : membersLeave t scope = true := by
          cases b <;> simp [membersLeave, hclose, Bracket.closing]
        cases inner <;> simp [leaves, hclose, hmembers]
      · simp [leaves, membersLeave, hend]
      · rfl
  | after scope =>
      simp only [next]
      split_ifs with h
      · rfl
      · exact leaves_at_members t scope
  | elements scope => exact leaves_at_elements t scope
  | routeEnd =>
      simp only [next, atRouteClosed]
      split_ifs
      · rfl
      · rfl
      · exact leaves_at_elements t .route
  | routeClosed =>
      simp only [next, atRouteClosed]
      split_ifs
      · rfl
      · exact leaves_at_elements t .route
  | done accepted => rfl

theorem rank_at_elements {t : Token} {scope : Scope} (h : elementsLeave t scope = true) :
    rank t (atElements scope t) < rank t (.elements scope) := by
  simp only [atElements, elementsLeave] at h ⊢
  split_ifs at h ⊢ with hobject
  · -- only the root object is left on an opening brace
    have hroot : scope = .root := by simpa [membersLeave, hobject] using h
    subst hroot
    simp [rank, hobject, level, Scope.outer]
  · simp only [rank]
    split_ifs <;> omega

theorem rank_at_members {t : Token} {scope : Scope} (h : membersLeave t scope = true) :
    rank t (atMembers scope t) < rank t (.members scope) := by
  by_cases hstring : t.type = .string
  · have harray : (scope.array t.text).isSome = true := by simpa [membersLeave, hstring] using h
    simp [atMembers, rank, hstring, harray]
  · unfold atMembers
    rw [if_neg hstring]
    cases scope with
    | root => simp [rank, hstring, level]
    | route => simp [rank, hstring, level]
    | backend =>
        dsimp only
        split_ifs with hcomma
        · simp [rank, hstring, level, Scope.outer]
        · have hobject : t.type ≠ .objectStart := by
            rintro hobject
            simp [membersLeave, hobject] at h
          simp [atElements, hobject, rank, hstring, level, Scope.outer]

theorem rank_at_value {t : Token} {scope : Scope} {key : Bytes}
    (h : leaves t (.value scope key) = true) :
    rank t (atValue scope key t) < rank t (.value scope key) := by
  cases hreads : scope.reads key with
  | true =>
      have harray : scope.array key = none := by
        cases harray : scope.array key with
        | none => rfl
        | some inner => simp [not_reads_of_array harray] at hreads
      rw [at_value_reads hreads]
      simp only [rank, harray, Option.isSome_none, Bool.false_eq_true, if_false]
      split_ifs <;> omega
  | false =>
      cases harray : scope.array key with
      | some inner =>
          rw [at_value_array hreads harray]
          split_ifs with h
          · have hinner : level inner.outer = level scope := by
              cases scope with
              | root | route =>
                  simp only [Scope.array] at harray
                  split_ifs at harray
                  cases harray
                  rfl
              | backend => cases harray
            simp [rank, h, hinner]
          · simp only [rank, harray, Option.isSome_some, if_true]
            split_ifs <;> omega
      | none =>
          simp only [leaves, hreads, harray, Option.isSome_none, Bool.false_eq_true, if_false,
            decide_eq_true_eq] at h
          rw [at_value_skip hreads harray, atSkip, if_neg h.1, if_neg h.2.1]
          simp only [rank, harray, Option.isSome_none, Bool.false_eq_true, if_false]
          split_ifs <;> omega

/-- A token brings the loader nearer to the end of the loops, if its repetition leads there. -/
theorem rank_next {t : Token} {place : Place} (hdone : place.isDone = false)
    (h : leaves t place = true) : rank t (place.next t) < rank t place := by
  cases place with
  | start =>
      simp only [next]
      split_ifs with hobject
      · simp [rank, hobject, level]
      · simp [rank]
  | members scope => exact rank_at_members h
  | colon scope key =>
      simp only [next, rank]
      split_ifs <;> omega
  | value scope key => exact rank_at_value h
  | skipping scope b inner =>
      -- only the closing bracket and the end of the text lead out of `skip_value`
      simp only [leaves, decide_eq_true_eq] at h
      have hstring : t.type ≠ .string := by
        rcases h with h | h <;> rw [h]
        · cases b <;> decide
        · decide
      have hopening : t.type ≠ b.opening := by
        rcases h with h | h <;> rw [h] <;> cases b <;> decide
      simp only [next, if_neg hopening]
      split_ifs with hclose hend
      · cases inner <;> simp [rank, hstring]
      · simp only [rank, if_neg hstring]
        omega
      · exact absurd h (by simp [hclose, hend])
  | after scope =>
      simp only [next]
      split_ifs with hcomma
      · simp [rank, hcomma]
      · refine (rank_at_members h).trans_le ?_
        simp only [rank]
        split_ifs <;> omega
  | elements scope => exact rank_at_elements h
  | routeEnd =>
      have hclosed : rank t (.elements .route) ≤ rank t .routeEnd := by
        simp only [rank]
        split_ifs <;> decide
      simp only [next, atRouteClosed]
      split_ifs with hend hcomma
      · simp [rank, hend]
      · simp [rank, hcomma, level, Scope.outer]
      · exact (rank_at_elements h).trans_le hclosed
  | routeClosed =>
      have hclosed : rank t (.elements .route) ≤ rank t .routeClosed := by
        simp only [rank]
        split_ifs <;> decide
      simp only [next, atRouteClosed]
      split_ifs with hcomma
      · simp [rank, hcomma, level, Scope.outer]
      · exact (rank_at_elements h).trans_le hclosed
  | done accepted => cases hdone

/-- The token after the last one of a text. -/
def endToken : Token :=
  ⟨.endOfInput, []⟩

/-- Whether the loader accepts a text that breaks off at a place. -/
def acceptsEnd : Place → Bool
  | .start => false
  | .done accepted => accepted
  | .colon scope key | .value scope key => scope.reads key || (scope.array key).isNone
  | _ => true

theorem leaves_end (place : Place) : leaves endToken place = true := by
  cases place with
  | start | done => rfl
  | members | after | elements | routeEnd | routeClosed => rfl
  | colon scope key | value scope key => simp [leaves, endToken, membersLeave]
  | skipping scope b inner => simp [leaves, endToken]

theorem accepts_end_next (place : Place) :
    acceptsEnd (place.next endToken) = acceptsEnd place := by
  cases place with
  | start | done | colon => rfl
  | members scope | after scope | elements scope => cases scope <;> rfl
  | routeEnd | routeClosed => rfl
  | value scope key =>
      simp only [next, acceptsEnd]
      cases hreads : scope.reads key with
      | true => rw [at_value_reads hreads]; rfl
      | false =>
          cases harray : scope.array key with
          | some inner => rw [at_value_array hreads harray]; rfl
          | none => rw [at_value_skip hreads harray]; rfl
  | skipping scope b inner => cases b <;> rfl

theorem eq_done_of_is_done {place : Place} (h : place.isDone = true) :
    ∃ accepted, place = .done accepted := by
  cases place with
  | done accepted => exact ⟨accepted, rfl⟩
  | _ => cases h

end Place

variable {u : Uninitialized} {p q : JsonParser} {scope : Scope} {place : Place}
  {c : Fueled Parsed} {m f : JsonParser → Fueled Parsed}

/-- If the repetition of the token leads out of the loops, the program comes out. -/
theorem settled_leaves (hp : p.advance.Returns p) (h : Continues u place p c)
    (hleaves : place.leaves p.token = true) :
    ∃ accepted c', Same c c' ∧ Continues u (.done accepted) p c' ∧
      (p.token = Place.endToken → accepted = place.acceptsEnd) := by
  induction hn : place.rank p.token using Nat.strong_induction_on generalizing place c with
  | _ n ih =>
      cases hdone : place.isDone with
      | true =>
          obtain ⟨accepted, rfl⟩ := Place.eq_done_of_is_done hdone
          exact ⟨accepted, c, .refl _, h, fun _ => rfl⟩
      | false =>
          obtain ⟨c', hsame, hnext⟩ := h.step hdone hp
          have hrank := Place.rank_next hdone hleaves
          obtain ⟨accepted, c'', hsame', hend, haccepted⟩ :=
            ih _ (hn ▸ hrank) hnext (by rw [Place.leaves_next, hleaves]) rfl
          refine ⟨accepted, c'', hsame.trans hsame', hend, fun htoken => ?_⟩
          rw [haccepted htoken, htoken, Place.accepts_end_next]

/-! ## Loops that are never left -/

theorem next_member_settled (hp : p.advance.Returns p) (hcomma : p.type ≠ .comma) :
    (nextMember p).Returns p :=
  hp.bind (by rw [skipToken, if_neg hcomma]; exact returns_pure_iff.2 rfl)

theorem skip_value_settled (hobject : p.type ≠ .objectStart) (harray : p.type ≠ .arrayStart) :
    p.skipValue = pure p := by
  unfold skipValue
  split
  · exact absurd ‹_› hobject
  · exact absurd ‹_› harray
  · rfl

theorem not_returns_skip_loop (hp : p.advance.Returns p) {b : Bracket} (hclose : p.type ≠ b.closing)
    (hend : p.type ≠ .endOfInput) (inner : Nat) :
    ¬ ∃ r, (skipLoop b (inner + 1) f p).Returns r := by
  refine not_returns_bind (not_returns_loop_of_closed (fun s => ∃ d, s = (p, d + 1)) ?_ ⟨_, rfl⟩) f
  rintro _ ⟨d, rfl⟩
  by_cases hopen : p.type = b.opening
  · refine ⟨(p, d + 2), hp.bind ?_, _, rfl⟩
    rw [if_pos hopen]
    exact returns_pure_iff.2 rfl
  · refine ⟨(p, d + 1), hp.bind ?_, _, rfl⟩
    rw [if_neg hopen, if_neg hclose, if_neg hend]
    exact returns_pure_iff.2 rfl

section Strings

variable (hp : p.advance.Returns p) (hstring : p.type = .string)

include hp hstring

theorem not_returns_in_root (harray : Scope.root.array p.text = none) (cfg : GatewayConfig) :
    ¬ ∃ r, (inRoot u cfg p).Returns r := by
  refine not_returns_loop_of_closed (fun s => ∃ cfg, s = (p, cfg)) ?_ ⟨cfg, rfl⟩
  rintro _ ⟨cfg, rfl⟩
  obtain ⟨cfg', hmember⟩ : ∃ cfg', (rootMember u p.text p cfg).Returns (.ok (p, cfg')) := by
    unfold rootMember
    split
    · exact ⟨_, returns_pure_iff.2 rfl⟩
    · rw [if_neg fun hkey => by simp [Scope.array, hkey] at harray,
        skip_value_settled (by simp [hstring]) (by simp [hstring])]
      exact ⟨_, returns_pure_iff.2 rfl⟩
  refine ⟨(p, cfg'), ?_, cfg', rfl⟩
  simp only [rootIter, hstring, ne_eq, not_true_eq_false, if_false]
  refine (hp.bind hp).bind (hmember.bind ((next_member_settled hp (by simp [hstring])).bind ?_))
  simp [hstring]

theorem not_returns_in_route (harray : Scope.route.array p.text = none) (route : Route)
    (cfg : GatewayConfig) : ¬ ∃ r, (inRoute u route cfg p).Returns r := by
  refine not_returns_bind (not_returns_loop_of_closed (fun s => ∃ route, s = (p, route)) ?_
    ⟨route, rfl⟩) _
  rintro _ ⟨route, rfl⟩
  obtain ⟨route', hmember⟩ : ∃ route', (routeMember u p.text p route).Returns
    (.ok (p, route')) := by
    unfold routeMember
    split_ifs with hread hkey
    · exact ⟨_, returns_pure_iff.2 rfl⟩
    · simp [Scope.array, hkey] at harray
    · simp [Scope.array, hkey] at harray
    · rw [skip_value_settled (by simp [hstring]) (by simp [hstring])]
      exact ⟨_, returns_pure_iff.2 rfl⟩
  refine ⟨(p, route'), ?_, route', rfl⟩
  simp only [routeIter, hstring, ne_eq, not_true_eq_false, if_false]
  refine (hp.bind hp).bind (hmember.bind ((next_member_settled hp (by simp [hstring])).bind ?_))
  exact returns_pure_iff.2 rfl

theorem not_returns_in_backend (b : Backend) (route : Route) (cfg : GatewayConfig) :
    ¬ ∃ r, (inBackend u b route cfg p).Returns r := by
  refine not_returns_bind (not_returns_loop_of_closed (fun s => ∃ b, s = (p, b)) ?_ ⟨b, rfl⟩) _
  rintro _ ⟨b, rfl⟩
  obtain ⟨b', hmember⟩ : ∃ b', (backendMember p.text p b).Returns (p, b') := by
    unfold backendMember
    split_ifs
    · exact ⟨_, returns_pure_iff.2 rfl⟩
    · exact ⟨_, returns_pure_iff.2 rfl⟩
    · rw [skip_value_settled (by simp [hstring]) (by simp [hstring])]
      exact ⟨_, returns_pure_iff.2 rfl⟩
  refine ⟨(p, b'), ?_, b', rfl⟩
  simp only [backendIter, hstring, ne_eq, not_true_eq_false, if_false]
  refine (hp.bind hp).bind (hmember.bind ((next_member_settled hp (by simp [hstring])).bind ?_))
  exact returns_pure_iff.2 rfl

end Strings

section Braces

variable (hp : p.advance.Returns p) (hobject : p.type = .objectStart)

include hp hobject

theorem not_returns_in_routes (cfg : GatewayConfig) : ¬ ∃ r, (inRoutes u cfg p).Returns r := by
  refine not_returns_bind (not_returns_loop_of_closed (fun s => ∃ routes, s = (p, routes)) ?_
    ⟨cfg.routes, rfl⟩) _
  rintro _ ⟨routes, rfl⟩
  have hroute : (Fueled.loop (routeIter u) (p, {})).Returns (.ok (p, {})) :=
    .loop_done (by simp [routeIter, hobject])
  refine ⟨(p, routes), ?_, routes, rfl⟩
  simp only [routesIter, hobject, ne_eq, not_true_eq_false, if_false]
  refine hp.bind (hroute.bind (hp.bind ?_))
  simp [skipToken, hobject]

theorem not_returns_in_backends (route : Route) (cfg : GatewayConfig) :
    ¬ ∃ r, (inBackends u route cfg p).Returns r := by
  refine not_returns_bind (not_returns_loop_of_closed (fun s => ∃ backends, s = (p, backends)) ?_
    ⟨route.backends, rfl⟩) _
  rintro _ ⟨backends, rfl⟩
  have hbackend : (Fueled.loop backendIter (p, ⟨[], u.port⟩)).Returns (p, ⟨[], u.port⟩) :=
    .loop_done (by simp [backendIter, hobject])
  refine ⟨(p, backends), ?_, backends, rfl⟩
  simp only [backendsIter, hobject, ne_eq, not_true_eq_false, if_false]
  refine hp.bind (hbackend.bind ?_)
  simp [skipToken, hobject]

end Braces

/-- What the repeated token is if it does not lead out of the loop over members. -/
theorem members_stay {t : Token} (h : Place.membersLeave t scope = false) :
    (t.type = .string ∧ scope.array t.text = none) ∨ (t.type = .objectStart ∧ scope ≠ .root) := by
  simp only [Place.membersLeave] at h
  split_ifs at h with hstring hobject
  · exact .inl ⟨hstring, by simpa using h⟩
  · exact .inr ⟨hobject, by simpa using h⟩

theorem InMembers.stays (hm : InMembers u scope m) (hp : p.advance.Returns p)
    (h : Place.membersLeave p.token scope = false) : ¬ ∃ r, (m p).Returns r := by
  rcases members_stay h with ⟨hstring, harray⟩ | ⟨hobject, hscope⟩
  · cases hm with
    | root cfg => exact not_returns_in_root hp hstring harray cfg
    | route route cfg => exact not_returns_in_route hp hstring harray route cfg
    | backend b route cfg => exact not_returns_in_backend hp hstring b route cfg
  · have hobject' : p.type = .objectStart := hobject
    cases hm with
    | root cfg => exact absurd rfl hscope
    | route route cfg =>
        -- the route is left at once, and its brace is taken for the next one
        rw [(same_in_route route cfg p).exists_returns_iff, if_neg (by simp [hobject']),
          (hp.same_bind _).exists_returns_iff]
        simpa [skipToken, hobject'] using not_returns_in_routes hp hobject (pushRoute cfg route)
    | backend b route cfg =>
        rw [(same_in_backend b route cfg p).exists_returns_iff, if_neg (by simp [hobject'])]
        simpa [skipToken, hobject'] using
          not_returns_in_backends hp hobject (pushBackend route b) cfg

/-- A place is not left on a token from which the next place is not left either. -/
theorem stays_of_next (hp : p.advance.Returns p) (h : place.leaves p.token = false)
    (hnext : ∀ f, Awaits u (place.next p.token) f → ¬ ∃ r, (f p).Returns r)
    (hf : Awaits u place f) : ¬ ∃ r, (f p).Returns r := by
  have hleaves := (Place.leaves_next p.token place).trans h
  have hstep := hf.step p
  generalize place.next p.token = place' at hnext hleaves hstep
  cases hstep with
  | accepted | refused => cases hleaves
  | awaits hf' hsame =>
      rw [hsame.exists_returns_iff, (hp.same_bind _).exists_returns_iff]
      exact hnext _ hf'

theorem stays_members (hp : p.advance.Returns p) (h : Place.membersLeave p.token scope = false)
    (hf : Awaits u (.members scope) f) : ¬ ∃ r, (f p).Returns r := by
  cases hf with
  | members hm => exact hm.stays hp h

theorem stays_after (hp : p.advance.Returns p) (h : Place.membersLeave p.token scope = false)
    (hf : Awaits u (.after scope) f) : ¬ ∃ r, (f p).Returns r := by
  have hcomma : p.type ≠ .comma := by
    intro hcomma
    simp [Place.membersLeave, hcomma] at h
  cases hf with
  | after hm => simpa [skipToken, hcomma] using hm.stays hp h

theorem stays_at_elements (hp : p.advance.Returns p)
    (h : Place.elementsLeave p.token scope = false)
    (hf : Awaits u (Place.atElements scope p.token) f) : ¬ ∃ r, (f p).Returns r := by
  simp only [Place.elementsLeave, Place.atElements] at h hf
  split_ifs at h hf
  · exact stays_members hp h hf
  · exact stays_after hp h hf

theorem stays_skipping (hp : p.advance.Returns p) {b : Bracket} {inner : Nat}
    (hclose : p.type ≠ b.closing) (hend : p.type ≠ .endOfInput)
    (hf : Awaits u (.skipping scope b inner) f) : ¬ ∃ r, (f p).Returns r := by
  cases hf with
  | skipping b inner hm =>
      simp only [inSkipped, hclose, hend, if_false]
      split_ifs
      · exact not_returns_skip_loop hp hclose hend (inner + 1)
      · exact not_returns_skip_loop hp hclose hend inner

theorem stays_at_value (hp : p.advance.Returns p) {key : Bytes}
    (h : Place.leaves p.token (.value scope key) = false)
    (hf : Awaits u (Place.atValue scope key p.token) f) : ¬ ∃ r, (f p).Returns r := by
  cases hreads : scope.reads key with
  | true =>
      rw [Place.at_value_reads hreads] at hf
      simp only [Place.leaves, hreads, if_true] at h
      exact stays_after hp h hf
  | false =>
      cases harray : scope.array key with
      | some inner => simp [Place.leaves, hreads, harray] at h
      | none =>
          rw [Place.at_value_skip hreads harray, Place.atSkip] at hf
          split_ifs at hf with hobject hbracket
          · have htype : p.type = .objectStart := hobject
            exact stays_skipping hp (by simp [htype, Bracket.closing]) (by simp [htype]) hf
          · have htype : p.type = .arrayStart := hbracket
            exact stays_skipping hp (by simp [htype, Bracket.closing]) (by simp [htype]) hf
          · refine stays_after hp ?_ hf
            simpa [Place.leaves, hreads, harray, hobject, hbracket] using h

/-- If the repetition of the token does not lead out of the loops, the program never returns. -/
theorem Awaits.stays (hf : Awaits u place f) (hp : p.advance.Returns p)
    (h : place.leaves p.token = false) : ¬ ∃ r, (f p).Returns r := by
  cases place with
  | start | done => cases h
  | members scope => exact stays_members hp h hf
  | after scope => exact stays_after hp h hf
  | elements scope => exact stays_of_next hp h (fun _ => stays_at_elements hp h) hf
  | value scope key => exact stays_of_next hp h (fun _ => stays_at_value hp h) hf
  | colon scope key =>
      exact stays_of_next hp h (fun _ => stays_of_next hp h fun _ => stays_at_value hp h) hf
  | skipping scope b inner =>
      simp only [Place.leaves, decide_eq_false_iff_not, not_or] at h
      exact stays_skipping hp h.1 h.2 hf
  | routeEnd | routeClosed =>
      refine stays_of_next hp h (fun f hf' => ?_) hf
      have hcomma : p.type ≠ .comma := fun hcomma => by
        simp [Place.leaves, Place.elementsLeave, Place.membersLeave, hcomma] at h
      have hend : p.type ≠ .objectEnd := fun hend => by
        simp [Place.leaves, Place.elementsLeave, Place.membersLeave, hend] at h
      simp only [Place.next, Place.atRouteClosed, hcomma, hend, if_false] at hf'
      exact stays_at_elements hp h hf'

/-- A parser that gives one token for ever comes out of the loops exactly if the token leads out
of them. -/
theorem settled_returns_iff (hp : p.advance.Returns p) (h : Continues u place p c) :
    (∃ r, c.Returns r) ↔ place.leaves p.token = true := by
  cases hleaves : place.leaves p.token with
  | true =>
      obtain ⟨accepted, c', hsame, hdone, -⟩ := settled_leaves hp h hleaves
      simp only [hsame.exists_returns_iff, iff_true]
      cases hdone with
      | accepted cfg h' => exact ⟨_, (h' _).2 (returns_pure_iff.2 rfl)⟩
      | refused msg h' => exact ⟨_, (h' _).2 (returns_pure_iff.2 rfl)⟩
      | awaits hf => cases hf
  | false =>
      simp only [Bool.false_eq_true, iff_false]
      cases h with
      | accepted | refused => cases hleaves
      | awaits hf hsame =>
          rw [hsame.exists_returns_iff, (hp.same_bind _).exists_returns_iff]
          exact hf.stays hp hleaves

/-! ## Termination -/

/-- How far the loader gets along the tokens of a text. -/
def stopOf (u : Uninitialized) (json : Bytes) : Stop :=
  walk .start ⟨u.type, []⟩ (scan json).1

theorem walk_unread {t : Token} {toks : List Token} (h : (walk place t toks).place.isDone = false) :
    (walk place t toks).unread = [] := by
  induction toks generalizing place t with
  | nil => rfl
  | cons t' toks ih =>
      simp only [walk] at h ⊢
      split_ifs at h ⊢ with hdone
      · simp [hdone] at h
      · exact ih h

theorem parse_root_spec (u : Uninitialized) (json : Bytes) :
    ∃ q c, Same (parseRoot u json) c ∧ Continues u (stopOf u json).place q c ∧
      q.token = (stopOf u json).current ∧ q.error = false ∧
      scan q.rest = ((stopOf u json).unread, (scan json).2) :=
  walk_spec rfl (continues_start json)

/-- A text that breaks off at a place leads out of the loops with the token for the end. -/
theorem continues_blank (h : Continues u place q c) (hdone : place.isDone = false)
    (hlex : lexeme q.rest = .blank) :
    ∃ q' c', Same c c' ∧ Continues u (.done place.acceptsEnd) q' c' ∧
      q'.type = .endOfInput ∧ q'.error = q.error := by
  obtain ⟨q', hq', hsettled, htoken, herror⟩ := advance_blank hlex
  obtain ⟨c', hsame, hnext⟩ := h.step hdone hq'
  obtain ⟨accepted, c'', hsame', hend, haccepted⟩ := settled_leaves hsettled hnext
    (by rw [htoken]; exact Place.leaves_end _)
  refine ⟨q', c'', hsame.trans hsame', ?_, congrArg Token.type htoken, herror⟩
  have haccepted := haccepted htoken
  rw [htoken] at haccepted
  rwa [haccepted, show (⟨.endOfInput, []⟩ : Token) = Place.endToken from rfl,
    Place.accepts_end_next] at hend

theorem continues_slash (h : Continues u place q c) (hdone : place.isDone = false)
    (hlex : lexeme q.rest = .slash) : ¬ ∃ r, c.Returns r := by
  cases h with
  | accepted | refused => cases hdone
  | awaits hf hsame =>
      rw [hsame.exists_returns_iff]
      exact not_returns_bind (not_advance_slash hlex) _

theorem Continues.returns_ok (h : Continues u (.done true) q c) :
    ∃ cfg, c.Returns (.ok (q, cfg)) := by
  cases h with
  | accepted cfg h => exact ⟨cfg, (h _).2 (returns_pure_iff.2 rfl)⟩
  | awaits hf => cases hf

theorem Continues.returns_of_done {accepted : Bool} (h : Continues u (.done accepted) q c) :
    ∃ r, c.Returns r := by
  cases h with
  | accepted cfg h => exact ⟨_, (h _).2 (returns_pure_iff.2 rfl)⟩
  | refused msg h => exact ⟨_, (h _).2 (returns_pure_iff.2 rfl)⟩
  | awaits hf => cases hf

/-- Whether the loops are left on a text: its tokens lead out of them, or nothing follows the
tokens, or an unexpected byte follows and the last token leads out of them. -/
def terminates (u : Uninitialized) (json : Bytes) : Bool :=
  match (scan json).2 with
  | .finished => true
  | .unexpected => (stopOf u json).place.leaves (stopOf u json).current
  | .slash => (stopOf u json).place.isDone

theorem parse_root_returns_iff (u : Uninitialized) (json : Bytes) :
    (∃ r, (parseRoot u json).Returns r) ↔ terminates u json = true := by
  obtain ⟨q, c, hsame, hcont, htoken, -, hscan⟩ := parse_root_spec u json
  rw [hsame.exists_returns_iff]
  cases hdone : (stopOf u json).place.isDone with
  | true =>
      obtain ⟨accepted, hplace⟩ := Place.eq_done_of_is_done hdone
      have hterminates : terminates u json = true := by
        unfold terminates
        split
        · rfl
        · rw [hplace]; rfl
        · exact hdone
      rw [hplace] at hcont
      exact iff_of_true hcont.returns_of_done hterminates
  | false =>
      rw [stopOf, walk_unread hdone] at hscan
      have hlex := lexeme_of_scan_nil (congrArg Prod.fst hscan)
      rw [hscan] at hlex
      -- all tokens are read; what follows them decides
      unfold terminates
      generalize (scan json).2 = ending at hlex
      cases ending with
      | finished =>
          obtain ⟨q', c', hsame', hend, -⟩ := continues_blank hcont hdone hlex
          rw [hsame'.exists_returns_iff]
          exact iff_of_true hend.returns_of_done rfl
      | unexpected =>
          obtain ⟨rest, hlex⟩ := hlex
          obtain ⟨q', hq', hsettled, htoken', -⟩ := advance_unexpected hlex
          obtain ⟨c', hsame', hnext⟩ := hcont.step hdone hq'
          rw [hsame'.exists_returns_iff, settled_returns_iff hsettled hnext, htoken', htoken,
            Place.leaves_next]
      | slash =>
          dsimp only
          rw [hdone]
          exact iff_of_false (continues_slash hcont hdone hlex) (by simp)

/-- The result of `load_json`, given that of the loops. -/
def loaded : Parsed → Except Bytes GatewayConfig
  | .error msg => .error (if msg = [] then ascii "Unknown parse error" else msg)
  | .ok (p, cfg) =>
      if p.error then .error (if p.errorMsg = [] then ascii "Unknown parse error" else p.errorMsg)
      else .ok cfg

theorem load_json_eq (u : Uninitialized) (json : Bytes) :
    loadJson u json = parseRoot u json >>= fun r => pure (loaded r) := by
  simp only [loadJson, parseConfig, parseRoot, bind_assoc]
  refine bind_congr fun p => ?_
  split_ifs
  · rfl
  · simp only [bind_assoc]
    refine bind_congr fun p => bind_congr fun r => ?_
    cases r with
    | error msg => rfl
    | ok r =>
        simp only [pure_bind, loaded]
        split_ifs <;> simp_all

/-- `load_json` returns exactly on the texts whose tokens, the last one repeated at an unexpected
byte, lead out of the loops before a slash that starts no comment. -/
theorem load_json_terminates_iff (u : Uninitialized) (json : Bytes) :
    (∃ r, (loadJson u json).Returns r) ↔ terminates u json = true := by
  rw [← parse_root_returns_iff, load_json_eq]
  simp only [returns_bind_iff, returns_pure_iff]
  constructor
  · rintro ⟨-, r, hr, -⟩
    exact ⟨r, hr⟩
  · rintro ⟨r, hr⟩
    exact ⟨_, r, hr, rfl⟩

/-- A slash alone, and an object whose first key is followed by an unexpected byte, are read for
ever. -/
theorem load_json_hangs :
    (∀ u : Uninitialized, ¬ ∃ r, (loadJson u (ascii "/")).Returns r) ∧
      ∀ u : Uninitialized, ¬ ∃ r, (loadJson u (ascii "\x7b\"a\" x")).Returns r := by
  have hnever : ∀ u json, terminates u json = false → ¬ ∃ r, (loadJson u json).Returns r := by
    intro u json h
    rw [load_json_eq]
    exact not_returns_bind (by simp [parse_root_returns_iff, h]) _
  exact ⟨fun u => hnever u _ rfl, fun u => hnever u _ rfl⟩

end ApiGateway.Core
