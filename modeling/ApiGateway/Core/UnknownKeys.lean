import ApiGateway.Core.ConfigDocument

/-!
# Unknown keys of a configuration

`skip_value` counts one kind of brackets; the values of JSON are balanced in both (`Balanced`), so
it ends at the last token of a value (`skip_value_at`). Each member of an object leads the loop over
the members to the next one (`Leads`), or to an error if it has an exponent. The main results are
`load_json_document`, which says what is loaded from a document, and `unknown_keys_ignored`: the
members with unknown keys make no difference.
-/

namespace ApiGateway.Core

open Loop JsonParser Fueled

/-! ## Skipping a value -/

/-- Tokens in which the brackets of one kind match. -/
inductive Balanced (b : Bracket) : List Piece → Prop where
  | nil : Balanced b []
  | neutral {t : Token} (hopen : t.type ≠ b.opening) (hclose : t.type ≠ b.closing)
      (hend : t.type ≠ .endOfInput) : Balanced b [.of t]
  | append {xs ys : List Piece} (hxs : Balanced b xs) (hys : Balanced b ys) : Balanced b (xs ++ ys)
  | nested {t t' : Token} {xs : List Piece} (hopen : t.type = b.opening)
      (hclose : t'.type = b.closing) (h : Balanced b xs) : Balanced b (.of t :: (xs ++ [.of t']))

namespace Balanced

variable {b : Bracket}

theorem cons {t : Token} {xs : List Piece} (hopen : t.type ≠ b.opening)
    (hclose : t.type ≠ b.closing) (hend : t.type ≠ .endOfInput) (h : Balanced b xs) :
    Balanced b (.of t :: xs) :=
  .append (.neutral hopen hclose hend) h

theorem commas {groups : List (List Piece)} (h : ∀ group ∈ groups, Balanced b group) :
    Balanced b (Piece.commas groups) := by
  have hflat : ∀ groups : List (List Piece), (∀ group ∈ groups, Balanced b group) →
      Balanced b (groups.flatMap (Piece.comma :: ·)) := by
    intro groups hgroups
    induction groups with
    | nil => exact .nil
    | cons group groups ih =>
        obtain ⟨hgroup, hgroups⟩ := List.forall_mem_cons.1 hgroups
        rw [List.flatMap_cons]
        refine .append (.cons ?_ ?_ ?_ hgroup) (ih hgroups) <;> cases b <;> decide
  cases groups with
  | nil => exact .nil
  | cons group groups =>
      obtain ⟨hgroup, hgroups⟩ := List.forall_mem_cons.1 h
      exact .append hgroup (hflat groups hgroups)

theorem member {value : List Piece} (key : Bytes) (h : Balanced b value) :
    Balanced b (Piece.member key value) := by
  refine .cons ?_ ?_ ?_ (.cons ?_ ?_ ?_ h) <;> cases b <;> simp [Bracket.opening, Bracket.closing]

/-- Brackets of the other kind are tokens like any other. -/
theorem bracketed (b' : Bracket) {t t' : Token} {xs : List Piece} (hopen : t.type = b'.opening)
    (hclose : t'.type = b'.closing) (h : Balanced b xs) :
    Balanced b (.of t :: (xs ++ [.of t'])) := by
  by_cases hb : b' = b
  · subst hb
    exact .nested hopen hclose h
  · refine .cons ?_ ?_ ?_ (.append h (.neutral ?_ ?_ ?_))
    all_goals
      first | rw [hopen] | rw [hclose]
      cases b <;> cases b' <;> first | exact absurd rfl hb | decide

end Balanced

theorem Balanced.compositional (b : Bracket) : Compositional (Balanced b) where
  scalar ht := by
    rcases type_of_scalar ht with htype | htype | htype | htype <;>
      refine .neutral ?_ ?_ ?_ <;> cases b <;> simp [htype, Bracket.opening, Bracket.closing]
  member key _ h := .member key h
  array h := .bracketed .array rfl rfl (.commas h)
  object h := .bracketed .object rfl rfl (.commas h)

variable {u : Uninitialized} {p q : JsonParser} {x : Piece} {xs more next : List Piece}

/-- The loop of `skip_value` reaches the next token. -/
theorem skip_loop_advance {b : Bracket} {y : Piece} (h : At p (x :: y :: xs))
    (hx : x.exponent = []) (inner : Nat) :
    ∃ q, At q (y :: xs) ∧ ∀ f, Same (skipLoop b (inner + 1) f p) (inSkipped b inner f q) := by
  obtain ⟨q, hq, hat⟩ := advance_at h hx
  exact ⟨q, hat, fun f => (same_skip_loop b inner f p).trans (hq.same_bind _)⟩

theorem in_skipped_closing {b : Bracket} (h : p.type = b.closing) (inner : Nat)
    (f : JsonParser → Fueled Parsed) : inSkipped b inner f p = skipLoop b inner f p := by
  have hne : b.closing ≠ b.opening := by cases b <;> decide
  rw [inSkipped, if_neg (h.trans_ne hne), if_pos h]

/-- The loop of `skip_value` goes over balanced tokens and keeps its depth. -/
theorem skip_balanced {b : Bracket} (hxs : Balanced b xs) (hmore : more ≠ [])
    (h : At p (x :: (xs ++ more))) (hx : x.exponent = []) (inner : Nat) :
    ∃ q y, At q (y :: more) ∧ y.exponent = [] ∧
      ∀ f, Same (skipLoop b (inner + 1) f p) (skipLoop b (inner + 1) f q) := by
  induction hxs generalizing p x more inner with
  | nil => exact ⟨p, x, h, hx, fun f => .refl _⟩
  | neutral hopen hclose hend =>
      obtain ⟨q, hat, hsame⟩ := skip_loop_advance (b := b) h hx inner
      refine ⟨q, _, hat, rfl, fun f => (hsame f).trans (.of_eq ?_)⟩
      have htype := hat.type_eq
      rw [inSkipped, if_neg (htype.trans_ne hopen), if_neg (htype.trans_ne hclose),
        if_neg (htype.trans_ne hend)]
  | append _ _ ihxs ihys =>
      rw [List.append_assoc] at h
      obtain ⟨p₁, x₁, h₁, hx₁, hsame₁⟩ := ihxs (by simp [hmore]) h hx inner
      obtain ⟨p₂, x₂, h₂, hx₂, hsame₂⟩ := ihys hmore h₁ hx₁ inner
      exact ⟨p₂, x₂, h₂, hx₂, fun f => (hsame₁ f).trans (hsame₂ f)⟩
  | nested hopen hclose _ ih =>
      rw [List.cons_append, List.append_assoc] at h
      obtain ⟨p₁, h₁, hsame₁⟩ := skip_loop_advance (b := b) h hx inner
      obtain ⟨p₂, x₂, h₂, hx₂, hsame₂⟩ := ih (by simp) h₁ rfl (inner + 1)
      obtain ⟨p₃, h₃, hsame₃⟩ := skip_loop_advance (b := b) h₂ hx₂ (inner + 1)
      refine ⟨p₃, _, h₃, rfl, fun f => ?_⟩
      have hopened : inSkipped b inner f p₁ = skipLoop b (inner + 2) f p₁ :=
        if_pos (h₁.type_eq.trans hopen)
      have hclosed := in_skipped_closing (h₃.type_eq.trans hclose) (inner + 1) f
      refine (hsame₁ f).trans ((Same.of_eq hopened).trans ?_)
      exact (hsame₂ f).trans ((hsame₃ f).trans (.of_eq hclosed))

/-- From the opening bracket, the loop ends at the closing one. -/
theorem skip_bracketed {b : Bracket} {t t' : Token} (hxs : Balanced b xs)
    (hclose : t'.type = b.closing) (h : At p (.of t :: (xs ++ .of t' :: more))) :
    ∃ q, At q (.of t' :: more) ∧ ∀ f, Same (skipLoop b 1 f p) (f q) := by
  obtain ⟨p₁, x₁, h₁, hx₁, hsame₁⟩ := skip_balanced hxs (List.cons_ne_nil _ _) h rfl 0
  obtain ⟨p₂, h₂, hsame₂⟩ := skip_loop_advance (b := b) h₁ hx₁ 0
  refine ⟨p₂, h₂, fun f => (hsame₁ f).trans ((hsame₂ f).trans ?_)⟩
  have hclosed := in_skipped_closing (h₂.type_eq.trans hclose) 0 f
  exact (Same.of_eq hclosed).trans (same_skip_loop_zero b f p₂)

/-- `skip_value` ends at the last token of a value. -/
theorem skip_value_at {value : List Token} (hvalue : IsValue value)
    (h : At p (value.map Piece.of ++ more)) :
    ∃ q t, At q (.of t :: more) ∧
      ∀ f : JsonParser → Fueled Parsed, Same (p.skipValue >>= f) (f q) := by
  cases hvalue with
  | @scalar t ht =>
      have htype : p.type = t.type := h.type_eq
      have hskip : p.skipValue = pure p := by
        refine skip_value_settled ?_ ?_ <;> rw [htype] <;>
          rcases type_of_scalar ht with ht | ht | ht | ht <;> simp [ht]
      exact ⟨p, t, h, fun f => .of_eq (by rw [hskip, pure_bind])⟩
  | @array elements helements =>
      rw [map_array_tokens, Piece.array, List.cons_append, List.append_assoc] at h
      have hinner : ∀ e ∈ elements, Balanced .array (e.map Piece.of) := fun e he =>
        (helements e he).holds (Balanced.compositional .array)
      obtain ⟨q, hq, hsame⟩ := skip_bracketed (.commas (List.forall_mem_map.2 hinner)) rfl h
      refine ⟨q, _, hq, fun f => (Same.of_eq ?_).trans (hsame f)⟩
      rw [skipValue, h.type_eq]
      rfl
  | @object members hmembers =>
      rw [map_object_tokens, Piece.object, List.cons_append, List.append_assoc] at h
      have hinner : ∀ m ∈ members,
          Balanced .object (Piece.member m.1 (m.2.map Piece.of)) := fun m hm =>
        .member m.1 ((hmembers m hm).holds (Balanced.compositional .object))
      obtain ⟨q, hq, hsame⟩ := skip_bracketed (.commas (List.forall_mem_map.2 hinner)) rfl h
      refine ⟨q, _, hq, fun f => (Same.of_eq ?_).trans (hsame f)⟩
      rw [skipValue, h.type_eq]
      rfl

/-! ## Moving along the members -/

/-- What follows a member, and what follows after its comma. -/
inductive Separated : List Piece → List Piece → Prop where
  | comma {x : Piece} {xs : List Piece} : Separated (.comma :: x :: xs) (x :: xs)
  | close {x : Piece} {xs : List Piece} (h : x.token.type ≠ .comma) : Separated (x :: xs) (x :: xs)

theorem skip_comma_at (hsep : Separated more next) (h : At p more) :
    ∃ q, (skipToken p .comma).Returns q ∧ At q next := by
  cases hsep with
  | comma =>
      have htype : p.type = .comma := h.type_eq
      rw [skipToken, if_pos htype]
      exact advance_at h rfl
  | close hne =>
      rw [skipToken, if_neg (h.type_eq.trans_ne hne)]
      exact ⟨p, returns_pure_iff.2 rfl, h⟩

theorem Separated.ne_nil (h : Separated more next) : more ≠ [] := by
  cases h with
  | comma | close => exact List.cons_ne_nil _ _

theorem advance_more (h : At p (x :: more)) (hmore : more ≠ []) (hx : x.exponent = []) :
    ∃ q, p.advance.Returns q ∧ At q more := by
  obtain ⟨y, ys, rfl⟩ := List.exists_cons_of_ne_nil hmore
  exact advance_at h hx

theorem next_member_at (hsep : Separated more next) (h : At p (x :: more))
    (hx : x.exponent = []) : ∃ q, (nextMember p).Returns q ∧ At q next := by
  obtain ⟨p₁, hp₁, h₁⟩ := advance_more h hsep.ne_nil hx
  obtain ⟨p₂, hp₂, h₂⟩ := skip_comma_at hsep h₁
  exact ⟨p₂, hp₁.bind hp₂, h₂⟩

/-- A loop over members goes from a key to the first token of its value. -/
theorem same_at_member {key : Bytes} {value : List Piece}
    (h : At p (Piece.member key value ++ more)) (hne : value ≠ [])
    (f : Bytes → JsonParser → Fueled Parsed) (d : Fueled Parsed) :
    ∃ q, At q (value ++ more) ∧
      Same (if p.type = .string then p.advance >>= fun p' => p'.advance >>= f p.text else d)
        (f key q) := by
  have htype : p.type = .string := h.type_eq
  have htext : p.text = key := h.text_eq
  obtain ⟨x, value, rfl⟩ := List.exists_cons_of_ne_nil hne
  obtain ⟨p₁, hp₁, h₁⟩ := advance_at h rfl
  obtain ⟨p₂, hp₂, h₂⟩ := advance_at h₁ rfl
  rw [if_pos htype, htext]
  exact ⟨p₂, h₂, (hp₁.same_bind _).trans (hp₂.same_bind _)⟩

/-- The program arrives at the given tokens with what has been loaded, or leaves its loops with an
error. -/
def Leads {α : Type} (c : Fueled Parsed) (toks : List Piece)
    (k : α → JsonParser → Fueled Parsed) : Except Bytes α → Prop
  | .ok a => ∃ q, At q toks ∧ Same c (k a q)
  | .error msg => ∃ r, c.Returns r ∧ loaded r = .error msg

section Leads

variable {α β : Type} {c c' : Fueled Parsed} {toks toks' : List Piece}
  {k : α → JsonParser → Fueled Parsed} {k' : β → JsonParser → Fueled Parsed}
  {r : Except Bytes α}

theorem Leads.of_same (hsame : Same c c') (h : Leads c' toks k r) : Leads c toks k r := by
  cases r with
  | ok a =>
      obtain ⟨q, hq, h⟩ := h
      exact ⟨q, hq, hsame.trans h⟩
  | error msg =>
      obtain ⟨r, h, hr⟩ := h
      exact ⟨r, (hsame _).2 h, hr⟩

theorem Leads.bind {f : α → Except Bytes β} (h : Leads c toks k r)
    (h' : ∀ a q, At q toks → Leads (k a q) toks' k' (f a)) : Leads c toks' k' (r >>= f) := by
  cases r with
  | ok a =>
      obtain ⟨q, hq, hsame⟩ := h
      exact .of_same hsame (h' a q hq)
  | error msg => exact h

theorem Leads.followed {k' : α → JsonParser → Fueled Parsed} (h : Leads c toks k r)
    (h' : ∀ a q, At q toks → ∃ q', At q' toks' ∧ Same (k a q) (k' a q')) :
    Leads c toks' k' r := by
  cases r with
  | ok a =>
      obtain ⟨q, hq, hsame⟩ := h
      obtain ⟨q', hq', hsame'⟩ := h' a q hq
      exact ⟨q', hq', hsame.trans hsame'⟩
  | error msg => exact h

/-- A loop over groups of tokens, from what it does with one group. -/
theorem leads_commas {load : α → β → Except Bytes α} {pieces : β → List Piece}
    (hstep : ∀ b a p more next, Separated more next → At p (pieces b ++ more) →
      Leads (k a p) next k (load a b))
    (hpieces : ∀ b, pieces b ≠ []) (hx : x.token.type ≠ .comma) (bs : List β) (a : α)
    (h : At p (Piece.commas (bs.map pieces) ++ x :: xs)) :
    Leads (k a p) (x :: xs) k (bs.foldlM load a) := by
  induction bs generalizing a p with
  | nil => exact ⟨p, h, .refl _⟩
  | cons b bs ih =>
      rw [List.foldlM_cons]
      rw [List.map_cons, Piece.commas, List.append_assoc] at h
      refine (hstep b a p _ _ ?_ h).bind fun a' q hq => ih a' hq
      cases bs with
      | nil => exact .close hx
      | cons b' bs =>
          obtain ⟨y, ys, hys⟩ := List.exists_cons_of_ne_nil (hpieces b')
          simp only [List.map_cons, List.flatMap_cons, Piece.commas, hys, List.cons_append]
          exact .comma

theorem Leads.skip {value : List Token} (hvalue : IsValue value) (hsep : Separated more next)
    (h : At p (value.map Piece.of ++ more)) (a : α) :
    Leads (p.skipValue >>= fun q => nextMember q >>= k a) next k (.ok a) := by
  obtain ⟨q, t, hq, hsame⟩ := skip_value_at hvalue h
  obtain ⟨q', hq', hat⟩ := next_member_at hsep hq rfl
  exact ⟨q', hat, (hsame _).trans (hq'.same_bind _)⟩

end Leads

/-! ## Exponents -/

/-- A number that is given again and again leads from place to place. -/
theorem stuck_step {place place' : Place} {c : Fueled Parsed} (hplace : place.isDone = false)
    (hnext : place.next q.token = place') (hq : p.advance.Returns q)
    (hrest : ∀ c, Continues u place' q c → ∃ cfg, c.Returns (.ok (q, cfg)))
    (h : Continues u place p c) : ∃ cfg, c.Returns (.ok (q, cfg)) := by
  obtain ⟨c', hsame, hcont⟩ := h.step hplace hq
  rw [hnext] at hcont
  obtain ⟨cfg, hr⟩ := hrest c' hcont
  exact ⟨cfg, (hsame _).2 hr⟩

/-- After a value, a number that is given again and again leads out of all loops. -/
theorem after_stuck {scope : Scope} {c : Fueled Parsed} (h : Continues u (.after scope) p c)
    (hq : p.advance.Returns q) (hsettled : q.advance.Returns q) (htype : q.type = .number) :
    ∃ cfg, c.Returns (.ok (q, cfg)) := by
  have hroot : ∀ p c, p.advance.Returns q → Continues u (.after .root) p c →
      ∃ cfg, c.Returns (.ok (q, cfg)) := fun p c hq =>
    stuck_step rfl (by simp [Place.next, Place.atMembers, htype]) hq fun c => Continues.returns_ok
  have hclosed : ∀ c, Continues u .routeEnd q c → ∃ cfg, c.Returns (.ok (q, cfg)) := by
    intro c
    refine stuck_step rfl ?_ hsettled fun c => hroot q c hsettled
    simp [Place.next, Place.atRouteClosed, Place.atElements, Scope.outer, htype]
  have hroute : ∀ p c, p.advance.Returns q → Continues u (.after .route) p c →
      ∃ cfg, c.Returns (.ok (q, cfg)) := fun p c hq =>
    stuck_step rfl (by simp [Place.next, Place.atMembers, htype]) hq hclosed
  cases scope with
  | root => exact hroot p c hq h
  | route => exact hroute p c hq h
  | backend =>
      refine stuck_step rfl ?_ hq (fun c => hroute q c hsettled) h
      simp [Place.next, Place.atMembers, Place.atElements, Scope.outer, htype]

/-- From a scalar value to the next member. -/
theorem Leads.scalar {α : Type} {scope : Scope} {k : α → JsonParser → Fueled Parsed}
    (hk : ∀ a, InMembers u scope (k a)) (g : Token → α) (hsep : Separated more next)
    (h : At p (x :: more)) : Leads (nextMember p >>= k (g p.token)) next k (x.read.map g) := by
  unfold Piece.read
  split
  · rename_i hx
    obtain ⟨q, hq, hat⟩ := next_member_at hsep h hx
    rw [h.token_eq]
    exact ⟨q, hat, hq.same_bind _⟩
  · rename_i c rest hx
    obtain ⟨q, hq, hsettled, htype, herror, hmsg⟩ := advance_stuck h hx
    obtain ⟨cfg, hr⟩ := after_stuck (continues_next_member (hk _) p) hq hsettled htype
    exact ⟨_, hr, by simp [loaded, herror, hmsg, unexpectedCharacter]⟩

/-! ## Backends and routes -/

theorem BackendMember.pieces_ne_nil (m : BackendMember) : m.pieces ≠ [] := by
  cases m with
  | host | port | other => exact List.cons_ne_nil _ _

/-- One member of a backend. -/
theorem BackendMember.leads (m : BackendMember) (b : Backend) (route : Route)
    (cfg : GatewayConfig) (hsep : Separated more next) (h : At p (m.pieces ++ more)) :
    Leads (inBackend u b route cfg p) next (fun b => inBackend u b route cfg) (m.load b) := by
  have hk : ∀ b, InMembers u .backend (inBackend u b route cfg) := fun b => .backend b route cfg
  refine .of_same (same_in_backend b route cfg p) ?_
  cases m with
  | host value =>
      obtain ⟨q, hq, hsame⟩ := same_at_member h (by simp) (atBackendValue u · b route cfg) _
      refine .of_same hsame ?_
      exact Leads.scalar hk (fun t => { b with host := t.parser.readString }) hsep hq
  | port value =>
      obtain ⟨q, hq, hsame⟩ := same_at_member h (by simp) (atBackendValue u · b route cfg) _
      refine .of_same hsame ?_
      exact Leads.scalar hk (fun t => { b with port := t.parser.readInt 0 }) hsep hq
  | other key value hkey hvalue =>
      obtain ⟨q, hq, hsame⟩ := same_at_member h (by simpa using hvalue.ne_nil)
        (atBackendValue u · b route cfg) _
      refine .of_same hsame ?_
      simp only [atBackendValue, backendMember, if_neg hkey.1, if_neg hkey.2, bind_assoc, pure_bind]
      exact Leads.skip (k := fun b => inBackend u b route cfg) hvalue hsep hq b

/-- From the closing brace of its backend, a route is added. -/
theorem backend_end_leads (b : Backend) (route : Route) (cfg : GatewayConfig)
    (hsep : Separated more next)
    (h : At p (.objectEnd :: .arrayEnd :: .objectEnd :: more)) :
    Leads (inBackend u b route cfg p) next (fun cfg => inRoutes u cfg)
      (.ok (pushRoute cfg (pushBackend route b))) := by
  have htype : p.type = .objectEnd := h.type_eq
  obtain ⟨p₁, hp₁, h₁⟩ := next_member_at (.close (by decide)) h rfl
  have htype₁ : p₁.type = .arrayEnd := h₁.type_eq
  obtain ⟨p₂, hp₂, h₂⟩ := advance_at h₁ rfl
  have htype₂ : p₂.type = .objectEnd := h₂.type_eq
  obtain ⟨p₃, hp₃, h₃⟩ := advance_more h₂ hsep.ne_nil rfl
  obtain ⟨p₄, hp₄, h₄⟩ := skip_comma_at hsep h₃
  refine ⟨p₄, h₄, (same_in_backend b route cfg p).trans ?_⟩
  rw [if_neg (by simp [htype]), skipToken, if_neg (by simp [htype]), pure_bind]
  -- the brace ends the loop over the backends as well
  refine (same_in_backends _ cfg p).trans ?_
  rw [if_neg (by simp [htype])]
  refine (hp₁.same_bind _).trans ((same_in_route _ cfg p₁).trans ?_)
  rw [if_neg (by simp [htype₁])]
  refine (hp₂.same_bind _).trans ?_
  rw [skipToken, if_pos htype₂]
  exact (hp₃.same_bind _).trans (hp₄.same_bind _)

theorem at_route_value_backends (route : Route) (cfg : GatewayConfig)
    (h : p.type = .arrayStart) :
    atRouteValue u (ascii "backends") route cfg p = p.advance >>= inBackends u route cfg := by
  have hne : ascii "backends" ≠ ascii "prefix" := by decide
  simp only [atRouteValue, routeMember, if_neg hne, if_true, h, ne_eq, not_true_eq_false, if_false,
    bind_assoc]
  rfl

/-- The backends of a route with one backend. -/
theorem backends_lead (members : List BackendMember) (route : Route) (cfg : GatewayConfig)
    (hsep : Separated more next)
    (h : At p (Piece.member (ascii "backends")
      (Piece.array [Piece.object (members.map BackendMember.pieces)]) ++ .objectEnd :: more)) :
    Leads (inRoute u route cfg p) next (fun cfg => inRoutes u cfg) (do
      let b ← members.foldlM BackendMember.load ⟨[], u.port⟩
      .ok (pushRoute cfg (pushBackend route b))) := by
  obtain ⟨p₁, h₁, hsame₁⟩ := same_at_member h (by simp [Piece.array])
    (atRouteValue u · route cfg) _
  refine .of_same ((same_in_route route cfg p).trans hsame₁) ?_
  simp only [Piece.array, Piece.commas, Piece.object, List.flatMap_nil, List.append_nil,
    List.cons_append, List.append_assoc, List.nil_append] at h₁
  rw [at_route_value_backends route cfg h₁.type_eq]
  obtain ⟨p₂, hp₂, h₂⟩ := advance_at h₁ rfl
  have htype₂ : p₂.type = .objectStart := h₂.type_eq
  obtain ⟨p₃, hp₃, h₃⟩ := advance_more h₂ (by simp) rfl
  refine .of_same ((hp₂.same_bind _).trans (same_in_backends route cfg p₂)) ?_
  rw [if_pos htype₂]
  refine .of_same (hp₃.same_bind _) ?_
  refine (leads_commas (fun m b p more next hsep h => m.leads b route cfg hsep h) ?_ (by decide)
    members _ h₃).bind fun b q hq => backend_end_leads b route cfg hsep hq
  exact BackendMember.pieces_ne_nil

/-- One route. -/
theorem RouteText.leads (r : RouteText) (cfg : GatewayConfig) (hsep : Separated more next)
    (h : At p (r.pieces ++ more)) :
    Leads (inRoutes u cfg p) next (fun cfg => inRoutes u cfg) (r.load u cfg) := by
  simp only [RouteText.pieces, Piece.object, Piece.commas, List.flatMap_cons, List.flatMap_nil,
    List.append_nil, List.cons_append, List.append_assoc, List.nil_append] at h
  have htype : p.type = .objectStart := h.type_eq
  obtain ⟨p₁, hp₁, h₁⟩ := advance_more h (by simp [Piece.member]) rfl
  obtain ⟨p₂, h₂, hsame₂⟩ := same_at_member h₁ (by simp) (atRouteValue u · {} cfg) _
  refine .of_same (same_in_routes cfg p) ?_
  rw [if_pos htype]
  refine .of_same ((hp₁.same_bind _).trans ((same_in_route {} cfg p₁).trans hsame₂)) ?_
  refine Leads.bind (Leads.scalar (fun route => .route route cfg)
    (fun t => ({ path := t.parser.readString } : Route)) .comma h₂) fun route q hq => ?_
  exact backends_lead r.backend route cfg hsep hq

/-! ## The root object -/

theorem RouteText.pieces_ne_nil (r : RouteText) : r.pieces ≠ [] :=
  List.cons_ne_nil _ _

theorem at_root_value_routes (cfg : GatewayConfig) (h : p.type = .arrayStart) :
    atRootValue u (ascii "routes") cfg p = p.advance >>= inRoutes u cfg := by
  have hfind : intFields.find? (fun f => f.key = ascii "routes") = none := rfl
  simp only [atRootValue, rootMember, hfind, if_true, h, ne_eq, not_true_eq_false, if_false,
    bind_assoc]
  refine bind_congr fun p => bind_congr fun r => ?_
  cases r with
  | error msg => rfl
  | ok r => rfl

/-- One member of the root object. -/
theorem RootMember.leads (m : RootMember) (cfg : GatewayConfig) (hsep : Separated more next)
    (h : At p (m.pieces ++ more)) :
    Leads (inRoot u cfg p) next (fun cfg => inRoot u cfg) (m.load u cfg) := by
  refine .of_same (same_in_root cfg p) ?_
  cases m with
  | int f hf value hvalue =>
      obtain ⟨q, hq, hsame⟩ := same_at_member h (by simp) (atRootValue u · cfg) _
      refine .of_same hsame ?_
      simp only [atRootValue, rootMember, find_int_field hf, pure_bind]
      exact Leads.scalar (fun cfg => .root cfg)
        (fun t => f.set cfg (t.parser.readInt (f.get cfg))) hsep hq
  | routes rs =>
      obtain ⟨p₁, h₁, hsame⟩ := same_at_member h (by simp [Piece.array]) (atRootValue u · cfg) _
      refine .of_same hsame ?_
      simp only [Piece.array, List.cons_append, List.append_assoc, List.nil_append] at h₁
      rw [at_root_value_routes cfg h₁.type_eq]
      obtain ⟨p₂, hp₂, h₂⟩ := advance_more h₁ (by simp) rfl
      refine .of_same (hp₂.same_bind _) ?_
      refine (leads_commas (fun r cfg p more next hsep h => r.leads cfg hsep h)
        RouteText.pieces_ne_nil (by decide) rs cfg h₂).followed fun cfg q hq => ?_
      have htype : q.type = .arrayEnd := hq.type_eq
      obtain ⟨q', hq', hat⟩ := next_member_at hsep hq rfl
      refine ⟨q', hat, (same_in_routes cfg q).trans ?_⟩
      rw [if_neg (by simp [htype])]
      exact hq'.same_bind _
  | unknown key value hkey hvalue =>
      obtain ⟨q, hq, hsame⟩ := same_at_member h (by simpa using hvalue.ne_nil)
        (atRootValue u · cfg) _
      refine .of_same hsame ?_
      simp only [recognised, Bool.or_eq_false_iff, Option.isSome_eq_false_iff,
        Option.isNone_iff_eq_none, decide_eq_false_iff_not] at hkey
      simp only [atRootValue, rootMember, hkey.1, if_neg hkey.2, bind_assoc, pure_bind]
      exact Leads.skip (k := fun cfg => inRoot u cfg) hvalue hsep hq cfg

theorem RootMember.pieces_ne_nil (m : RootMember) : m.pieces ≠ [] := by
  cases m with
  | int | routes | unknown => exact List.cons_ne_nil _ _

/-- What is loaded from a document. -/
theorem load_json_document (u : Uninitialized) {members : List RootMember} {json : Bytes}
    (h : Writes (document members) json) :
    (loadJson u json).Returns (members.foldlM (RootMember.load u) {}) := by
  obtain ⟨p₁, hp₁, h₁⟩ := advance_writes (p := { rest := json, type := u.type }) h
    (document_apart members) rfl
  have htype₁ : p₁.type = .objectStart := h₁.type_eq
  obtain ⟨p₂, hp₂, h₂⟩ := advance_more h₁ (by simp) rfl
  have hstart : Same (parseRoot u json) (inRoot u {} p₂) := by
    refine (hp₁.same_bind _).trans ?_
    rw [if_neg (by simp [htype₁])]
    exact hp₂.same_bind _
  have hmembers : Leads (inRoot u {} p₂) [.objectEnd] (fun cfg => inRoot u cfg)
      (members.foldlM (RootMember.load u) {}) :=
    leads_commas (fun m cfg p more next hsep h => m.leads cfg hsep h) RootMember.pieces_ne_nil
      (by decide) members {} h₂
  rw [load_json_eq]
  generalize members.foldlM (RootMember.load u) {} = r at hmembers
  cases r with
  | error msg =>
      obtain ⟨r, hr, hmsg⟩ := hmembers
      exact ((hstart _).2 hr).bind (returns_pure_iff.2 hmsg)
  | ok cfg =>
      obtain ⟨q, hq, hsame⟩ := hmembers
      have htype : q.type = .objectEnd := hq.type_eq
      have hr : (inRoot u cfg q).Returns (.ok (q, cfg)) := by
        rw [same_in_root cfg q _, if_neg (by simp [htype])]
        exact returns_pure_iff.2 rfl
      refine ((hstart _).2 ((hsame _).2 hr)).bind (returns_pure_iff.2 ?_)
      simp [loaded, hq.error_eq]

theorem load_filter (u : Uninitialized) (members : List RootMember) (cfg : GatewayConfig) :
    (members.filter RootMember.isKnown).foldlM (RootMember.load u) cfg =
      members.foldlM (RootMember.load u) cfg := by
  induction members generalizing cfg with
  | nil => rfl
  | cons m members ih =>
      cases m with
      | int | routes =>
          rw [List.filter_cons_of_pos rfl, List.foldlM_cons, List.foldlM_cons]
          exact bind_congr fun cfg => ih cfg
      | unknown =>
          rw [List.filter_cons_of_neg (by simp [RootMember.isKnown]), List.foldlM_cons]
          exact ih cfg

/-- A document with unknown keys is loaded with the same result as without them. -/
theorem unknown_keys_ignored (u : Uninitialized) (members : List RootMember) {json json' : Bytes}
    (h : Writes (document members) json)
    (h' : Writes (document (members.filter RootMember.isKnown)) json') :
    ∃ r, (loadJson u json).Returns r ∧ (loadJson u json').Returns r := by
  have hknown := load_json_document u h'
  rw [load_filter] at hknown
  exact ⟨_, load_json_document u h, hknown⟩

/-- A port, between two members with unknown keys. -/
def portAndUnknown : List RootMember :=
  [.unknown (ascii "a") [⟨.null, ascii "null"⟩] rfl (.scalar (by decide)),
    .int intFields[0] (List.getElem_mem _)
      ⟨.of ⟨.number, ascii "80"⟩, by decide⟩ rfl,
    .unknown (ascii "b\"]") (arrayTokens [objectTokens []]) rfl
      (.array (List.forall_mem_singleton.2 (.object (by rintro _ ⟨⟩))))]

theorem unknown_keys_ignored_port :
    ∃ r, (loadJson ⟨.null, 0⟩
        (ascii "\x7b\"a\":null,\"listen_port\":80,\"b\\\"]\":[\x7b\x7d]\x7d")).Returns r ∧
      (loadJson ⟨.null, 0⟩ (ascii "\x7b\"listen_port\":80\x7d")).Returns r :=
  unknown_keys_ignored ⟨.null, 0⟩ portAndUnknown (document_writes _) (document_writes _)

end ApiGateway.Core
