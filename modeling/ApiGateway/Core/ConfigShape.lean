import ApiGateway.Core.ConfigWalk
import ApiGateway.Core.JsonTokens

/-!
# Documents that the loader goes through

Where the walk of the loader leads along the text of a JSON object. The loader goes through an
object to its closing brace if the object fits it (`RootFits`): the values that it reads are neither
arrays nor objects, and the backends of a route are its last member and at most one. All other
members are skipped, whatever their values are.

`Carries` follows the walk along tokens, and `Walks` along a text. The main result is
`walks_root`, for the members of a root object that fits.
-/

namespace ApiGateway.Core

open JsonParser

/-! ## Along tokens -/

variable {place place' place'' : Place} {scope : Scope} {toks more : List Token} {tok : Token}

/-- The tokens lead from one place to another. -/
def Carries (place : Place) (toks : List Token) (place' : Place) : Prop :=
  ∀ cur more, ∃ cur', walk place cur (toks ++ more) = walk place' cur' more

theorem Carries.trans (h : Carries place toks place') (h' : Carries place' more place'') :
    Carries place (toks ++ more) place'' := by
  intro cur rest
  obtain ⟨cur', hcur'⟩ := h cur (more ++ rest)
  obtain ⟨cur'', hcur''⟩ := h' cur' rest
  exact ⟨cur'', by rw [List.append_assoc, hcur', hcur'']⟩

theorem Carries.cons (h : Carries place [tok] place') (h' : Carries place' more place'') :
    Carries place (tok :: more) place'' :=
  h.trans h'

theorem carries_token (hplace : place.isDone = false) (hnext : place.next tok = place') :
    Carries place [tok] place' :=
  fun _ _ => ⟨tok, by rw [← hnext]; exact if_neg (by simp [hplace])⟩

theorem carries_intercalate {sep : Token} {groups : List (List Token)}
    (hsep : Carries place [sep] place) (h : ∀ group ∈ groups, Carries place group place) :
    Carries place ([sep].intercalate groups) place := by
  induction groups with
  | nil => exact fun cur _ => ⟨cur, rfl⟩
  | cons group groups ih =>
      obtain ⟨hgroup, hgroups⟩ := List.forall_mem_cons.1 h
      cases groups with
      | nil => simpa using hgroup
      | cons next groups =>
          rw [List.intercalate_cons_cons]
          exact (hgroup.trans hsep).trans (ih hgroups)

/-- Tokens other than the brackets that are counted are passed over. -/
theorem carries_skipping {b : Bracket} {inner : Nat} (hopen : tok.type ≠ b.opening)
    (hclose : tok.type ≠ b.closing) (hend : tok.type ≠ .endOfInput) :
    Carries (.skipping scope b inner) [tok] (.skipping scope b inner) := by
  refine carries_token rfl ?_
  simp only [Place.next, if_neg hopen, if_neg hclose, if_neg hend]

theorem Bracket.closing_ne_opening (b : Bracket) : b.closing ≠ b.opening := by
  cases b <;> decide

/-- Two brackets and what is between them, if that is passed over at any depth. -/
theorem carries_bracketed {b : Bracket} {opening closing : Token} (b' : Bracket)
    (hopen : opening.type = b'.opening) (hclose : closing.type = b'.closing)
    (h : ∀ inner, Carries (.skipping scope b inner) toks (.skipping scope b inner)) (inner : Nat) :
    Carries (.skipping scope b inner) (opening :: toks ++ [closing]) (.skipping scope b inner) := by
  by_cases hb : b' = b
  · subst hb
    refine Carries.trans (Carries.cons (carries_token rfl (if_pos hopen)) (h (inner + 1)))
      (carries_token rfl ?_)
    simp only [Place.next, if_neg (hclose.trans_ne b'.closing_ne_opening), if_pos hclose]
  · refine Carries.trans (Carries.cons (carries_skipping ?_ ?_ ?_) (h inner))
      (carries_skipping ?_ ?_ ?_)
    all_goals
      first | rw [hopen] | rw [hclose]
      cases b <;> cases b' <;> first | exact absurd rfl hb | decide

/-- Members and elements are passed over if their values are. -/
theorem carries_member {b : Bracket} {inner : Nat} (key : Bytes)
    (h : Carries (.skipping scope b inner) toks (.skipping scope b inner)) :
    Carries (.skipping scope b inner) (⟨.string, key⟩ :: ⟨.colon, ascii ":"⟩ :: toks)
      (.skipping scope b inner) := by
  refine Carries.cons (carries_skipping ?_ ?_ ?_) (Carries.cons (carries_skipping ?_ ?_ ?_) h)
  all_goals cases b <;> simp [Bracket.opening, Bracket.closing]

theorem carries_commas {b : Bracket} {inner : Nat} {groups : List (List Token)}
    (h : ∀ group ∈ groups,
      Carries (.skipping scope b inner) group (.skipping scope b inner)) :
    Carries (.skipping scope b inner) ([⟨.comma, ascii ","⟩].intercalate groups)
      (.skipping scope b inner) := by
  refine carries_intercalate (carries_skipping ?_ ?_ ?_) h
  all_goals cases b <;> simp [Bracket.opening, Bracket.closing]

/-- The tokens of a value are passed over. -/
theorem IsValue.passed {b : Bracket} (h : IsValue toks) (inner : Nat) :
    Carries (.skipping scope b inner) toks (.skipping scope b inner) := by
  induction h generalizing inner with
  | scalar h =>
      rcases type_of_scalar h with htype | htype | htype | htype <;>
        refine carries_skipping ?_ ?_ ?_ <;>
        cases b <;> simp [htype, Bracket.opening, Bracket.closing]
  | array h ih =>
      exact carries_bracketed .array rfl rfl
        (fun inner => carries_commas fun e he => ih e he inner) inner
  | object h ih =>
      refine carries_bracketed .object rfl rfl (fun inner => carries_commas fun group hgroup => ?_)
        inner
      obtain ⟨m, hm, rfl⟩ := List.mem_map.1 hgroup
      exact carries_member m.1 (ih m hm inner)

/-- The value of a member that is not known is skipped. -/
theorem IsValue.skipped {key : Bytes} (h : IsValue toks) (hreads : scope.reads key = false)
    (harray : scope.array key = none) : Carries (.value scope key) toks (.after scope) := by
  have hfirst {t : Token} {place' : Place} (ht : Place.atSkip scope t = place') :
      Carries (.value scope key) [t] place' :=
    carries_token rfl ((Place.at_value_skip hreads harray t).trans ht)
  cases h with
  | @scalar t h =>
      refine hfirst ?_
      rcases type_of_scalar h with htype | htype | htype | htype <;> simp [Place.atSkip, htype]
  | array h =>
      have hclose : Carries (.skipping scope .array 0) [⟨.arrayEnd, ascii "]"⟩] (.after scope) :=
        carries_token rfl rfl
      refine Carries.trans (Carries.cons (hfirst rfl) ?_) hclose
      exact carries_commas fun e he => (h e he).passed 0
  | object h =>
      have hclose : Carries (.skipping scope .object 0) [⟨.objectEnd, ascii "\x7d"⟩]
          (.after scope) := carries_token rfl rfl
      refine Carries.trans (Carries.cons (hfirst rfl) ?_) hclose
      refine carries_commas fun group hgroup => ?_
      obtain ⟨m, hm, rfl⟩ := List.mem_map.1 hgroup
      exact carries_member m.1 ((h m hm).passed 0)

/-! ## Along a text -/

/-- The tokens of `s` lead from one place to another in front of `rest`, unless the lexer meets an
exponent while the loader is still in its loops. -/
def Walks (place : Place) (s : Bytes) (place' : Place) (rest : Bytes) : Prop :=
  ∀ cur, (∃ cur', walk place cur (scan s).1 = walk place' cur' (scan rest).1 ∧
      (scan s).2 = (scan rest).2) ∨
    (walk place cur (scan s).1).place.isDone = false ∧ (scan s).2 = .unexpected

variable {s t rest : Bytes} {c : UInt8} {type : TokenType} {v : Json} {key : Bytes}

theorem Walks.refl (place : Place) (s : Bytes) : Walks place s place s :=
  fun cur => .inl ⟨cur, rfl, rfl⟩

theorem Walks.trans (h : Walks place s place' t) (h' : Walks place' t place'' rest) :
    Walks place s place'' rest := by
  intro cur
  obtain ⟨cur', hwalk, hend⟩ | hstuck := h cur
  · rw [hwalk, hend]
    exact h' cur'
  · exact .inr hstuck

/-- Only the tokens matter. -/
theorem Walks.congr (h : Walks place s place' rest) (hs : scan t = scan s) :
    Walks place t place' rest := by
  rwa [Walks, hs]

/-- Once the loops have been left, further tokens are not read. -/
theorem walk_append_done {cur : Token} (h : (walk place cur toks).place.isDone = true)
    (more : List Token) : (walk place cur (toks ++ more)).place.isDone = true := by
  induction toks generalizing place cur with
  | nil =>
      have hdone : place.isDone = true := h
      cases more with
      | nil => exact h
      | cons t more => simp [walk, hdone]
  | cons t toks ih =>
      simp only [List.cons_append, walk] at h ⊢
      split at h
      · rename_i hdone
        rw [if_pos hdone]
        exact hdone
      · rename_i hdone
        rw [if_neg hdone]
        exact ih h

theorem Reads.walks (h : Reads s toks rest) (hcarries : Carries place toks place')
    (hplace : place'.isDone = false) : Walks place s place' rest := by
  intro cur
  rcases h with hs | ⟨read, ⟨unread, rfl⟩, hs⟩
  · obtain ⟨cur', hcur'⟩ := hcarries cur (scan rest).1
    rw [hs]
    exact .inl ⟨cur', hcur', rfl⟩
  · -- the loops are left neither on the way nor at its end
    obtain ⟨cur', hcur'⟩ := hcarries cur []
    rw [hs]
    refine .inr ⟨Bool.eq_false_iff.2 fun hdone => ?_, rfl⟩
    have hleft := walk_append_done hdone unread
    rw [List.append_nil] at hcur'
    rw [hcur'] at hleft
    exact absurd hleft (by simp [walk, hplace])

/-- A mark, behind white space. -/
theorem walks_mark (hs : Json.skip s = c :: rest) (hc : punctuation c = some type)
    (hplace : place.isDone = false) (hnext : place.next ⟨type, [c]⟩ = place')
    (hplace' : place'.isDone = false) : Walks place s place' rest := by
  have hreads := reads_mark hc rest
  rw [← hs] at hreads
  exact (hreads.of_skip (mark_ne_slash hs hc)).walks (carries_token hplace hnext) hplace'

/-- White space in front of a value. -/
theorem walks_skip (h : Walks place (Json.skip s) place' rest)
    (hs : (Json.skip s).head? ≠ some 47) : Walks place s place' rest :=
  h.congr (scan_skip hs).symm

/-- White space in front of a mark. -/
theorem Walks.to_mark (h : Walks place s place' t) (ht : Json.skip t = c :: rest)
    (hc : punctuation c = some type) : Walks place s place' (c :: rest) := by
  have hscan := scan_skip (mark_ne_slash ht hc)
  rw [ht] at hscan
  rwa [Walks, hscan]

/-! ## Members -/

/-- The value of a member leads to a place. -/
def ValueWalks (scope : Scope) (m : Bytes × Json) (place : Place) : Prop :=
  ∀ s rest, Json.Value s m.2 rest → BehindValue rest → KnownEscapes s →
    Walks (.value scope m.1) s place rest

theorem walks_member {m : Bytes × Json} (h : Json.Member s m (c :: rest))
    (hc : punctuation c = some type) (hknown : KnownEscapes s) (hm : ValueWalks scope m place) :
    Walks (.members scope) s place (c :: rest) := by
  generalize hend : c :: rest = text at h
  cases h with
  | @mk _ s₁ s₂ s₃ rest' key v hquote hkey hcolon hvalue =>
      have hmark : Json.skip rest' = c :: rest := hend.symm
      have hsuffix : s₁ <:+ s := Json.suffix_of_skip hquote
      have hsuffix₃ : Json.skip s₃ <:+ s :=
        (Json.skip_suffix s₃).trans ((Json.suffix_of_skip hcolon).trans (hkey.suffix.trans hsuffix))
      obtain ⟨read, hname, hsame⟩ := reads_chars hkey
      obtain rfl := hsame (hknown.of_suffix hsuffix)
      rw [← hquote] at hname
      have hfirst := (hname.of_skip (by simp [hquote])).to_mark hcolon rfl
      have hkeyed : Walks (.members scope) s (.value scope read) s₃ :=
        hfirst.walks (Carries.cons (carries_token rfl rfl) (carries_token rfl rfl)) rfl
      have hread := hm _ _ hvalue (behind_value_of_mark hmark hc) (hknown.of_suffix hsuffix₃)
      rw [← hend]
      exact (hkeyed.trans (walks_skip hread (value_head hvalue))).to_mark hmark hc

/-- Members whose values lead to the end of the member are gone through, up to a last one. -/
theorem walks_members_concat {others : List (Bytes × Json)} {m : Bytes × Json}
    (h : Json.Members s (others ++ [m]) rest) (hknown : KnownEscapes s)
    (hothers : ∀ m ∈ others, ValueWalks scope m (.after scope)) :
    ∃ t, Walks (.members scope) s (.members scope) t ∧ Json.Member t m (125 :: rest) ∧ t <:+ s := by
  induction others generalizing s with
  | nil =>
      cases h with
      | last hmember => exact ⟨s, .refl _ _, hmember, List.suffix_refl s⟩
      | cons _ hmembers => cases hmembers
  | cons first others ih =>
      obtain ⟨hfirst, hrest⟩ := List.forall_mem_cons.1 hothers
      generalize htail : others ++ [m] = tail at ih
      rw [List.cons_append, htail] at h
      cases h with
      | last hmember => simp at htail
      | @cons _ s' _ _ _ hmember hmembers =>
          have hsuffix : s' <:+ s := (List.suffix_cons _ _).trans hmember.suffix
          obtain ⟨t, hwalks, hlast, ht⟩ := ih hmembers (hknown.of_suffix hsuffix) hrest
          have hcomma : Walks (.after scope) (44 :: s') (.members scope) s' :=
            walks_mark rfl rfl rfl rfl rfl
          exact ⟨t, ((walks_member hmember rfl hknown hfirst).trans hcomma).trans hwalks, hlast,
            ht.trans hsuffix⟩

theorem walks_members {members : List (Bytes × Json)} (h : Json.Members s members rest)
    (hknown : KnownEscapes s) (hmembers : ∀ m ∈ members, ValueWalks scope m (.after scope)) :
    Walks (.members scope) s (.after scope) (125 :: rest) := by
  rcases List.eq_nil_or_concat members with rfl | ⟨others, m, rfl⟩
  · cases h
  · rw [List.concat_eq_append] at h hmembers
    obtain ⟨hothers, hlast⟩ := List.forall_mem_append.1 hmembers
    obtain ⟨t, hwalks, hmember, ht⟩ := walks_members_concat h hknown hothers
    exact hwalks.trans (walks_member hmember rfl (hknown.of_suffix ht) (hlast m (by simp)))

/-! ## Objects that fit -/

/-- A member of an object that has no array which the loader goes into: a value that is read is
neither an array nor an object. -/
def Simple (scope : Scope) (m : Bytes × Json) : Prop :=
  scope.array m.1 = none ∧ (scope.reads m.1 = true → m.2.isScalar = true)

/-- A backend that the loader goes through. -/
def BackendFits (v : Json) : Prop :=
  ∃ members, v = .obj members ∧ ∀ m ∈ members, Simple .backend m

/-- Backends that the loader goes through: at most one. -/
def BackendsFit (backends : List Json) : Prop :=
  backends = [] ∨ ∃ b, backends = [b] ∧ BackendFits b

/-- A route that the loader goes through: if it has backends, they are its last member. -/
def RouteFits (v : Json) : Prop :=
  ∃ members, v = .obj members ∧ ((∀ m ∈ members, Simple .route m) ∨
    ∃ others backends, members = others ++ [(ascii "backends", .arr backends)] ∧
      (∀ m ∈ others, Simple .route m) ∧ BackendsFit backends)

theorem Simple.value_walks {m : Bytes × Json} (h : Simple scope m) :
    ValueWalks scope m (.after scope) := by
  intro s rest hvalue hrest _
  obtain ⟨toks, htoks, hscalar, hreads⟩ := value_reads hvalue hrest
  refine hreads.walks ?_ rfl
  cases hkey : scope.reads m.1 with
  | false => exact htoks.skipped hkey h.1
  | true =>
      obtain ⟨tok, rfl, -⟩ := hscalar (h.2 hkey)
      exact carries_token rfl (Place.at_value_reads hkey tok)

/-- An object whose members are simple is left at its closing brace. -/
theorem walks_object {members : List (Bytes × Json)} (h : Json.Value s (.obj members) rest)
    (hknown : KnownEscapes s) (hmembers : ∀ m ∈ members, Simple scope m)
    (hplace : place.isDone = false)
    (hopen : place.next ⟨.objectStart, ascii "\x7b"⟩ = .members scope)
    (hclose : Place.atMembers scope ⟨.objectEnd, ascii "\x7d"⟩ = place')
    (hplace' : place'.isDone = false) : Walks place s place' rest := by
  cases h with
  | @emptyObj s _ hbrace =>
      have hfirst : Walks place (123 :: s) (.members scope) s :=
        walks_mark rfl rfl hplace hopen rfl
      exact hfirst.trans (walks_mark hbrace rfl rfl hclose hplace')
  | @obj s _ _ hobject =>
      have hfirst : Walks place (123 :: s) (.members scope) s :=
        walks_mark rfl rfl hplace hopen rfl
      have hinside := walks_members hobject (hknown.of_suffix (List.suffix_cons _ _))
        fun m hm => (hmembers m hm).value_walks
      exact hfirst.trans (hinside.trans (walks_mark rfl rfl rfl hclose hplace'))

/-- A backend is left at its closing brace, behind which the loader takes it for its route's. -/
theorem BackendFits.walks (hfits : BackendFits v) (h : Json.Value s v rest)
    (hknown : KnownEscapes s) : Walks (.elements .backend) s (.after .route) rest := by
  obtain ⟨members, rfl, hmembers⟩ := hfits
  exact walks_object h hknown hmembers rfl rfl rfl rfl

/-- The places behind the backends of a route. -/
theorem BackendsFit.walks {backends : List Json} (hfits : BackendsFit backends) :
    ValueWalks .route (ascii "backends", .arr backends) (.after .route) ∨
      ValueWalks .route (ascii "backends", .arr backends) .routeEnd := by
  have hopen (s : Bytes) :
      Walks (.value .route (ascii "backends")) (91 :: s) (.elements .backend) s :=
    walks_mark rfl rfl rfl rfl rfl
  rcases hfits with rfl | ⟨b, rfl, hb⟩
  · refine .inl fun s rest hvalue _ _ => ?_
    cases hvalue with
    | emptyArr hclose => exact (hopen _).trans (walks_mark hclose rfl rfl rfl rfl)
    | arr hitems => cases hitems
  · refine .inr fun s rest hvalue _ hknown => ?_
    cases hvalue with
    | @arr s _ _ hitems =>
        cases hitems with
        | last hvalue hclose =>
            have hsuffix : Json.skip s <:+ 91 :: s :=
              (Json.skip_suffix s).trans (List.suffix_cons _ _)
            have hbackend := hb.walks hvalue (hknown.of_suffix hsuffix)
            exact (hopen s).trans ((walks_skip hbackend (value_head hvalue)).trans
              (walks_mark hclose rfl rfl rfl rfl))
        | cons _ _ hitems => cases hitems

/-- A route is left at its closing brace or behind it. -/
theorem RouteFits.walks (hfits : RouteFits v) (h : Json.Value s v rest) (hknown : KnownEscapes s) :
    Walks (.elements .route) s .routeEnd rest ∨ Walks (.elements .route) s .routeClosed rest := by
  obtain ⟨members, rfl, hsimple | ⟨others, backends, rfl, hothers, hbackends⟩⟩ := hfits
  · exact .inl (walks_object h hknown hsimple rfl rfl rfl rfl)
  · generalize hmembers : others ++ [(ascii "backends", Json.arr backends)] = members at h
    cases h with
    | emptyObj => simp at hmembers
    | @obj s _ _ hobject =>
        rw [← hmembers] at hobject
        have hknown := hknown.of_suffix (List.suffix_cons _ _)
        have hfirst : Walks (.elements .route) (123 :: s) (.members .route) s :=
          walks_mark rfl rfl rfl rfl rfl
        obtain ⟨t, hinside, hmember, ht⟩ := walks_members_concat hobject hknown
          fun m hm => (hothers m hm).value_walks
        -- without a backend the brace closes the route, behind one it has been closed already
        rcases hbackends.walks with hlast | hlast
        · have hbackends := walks_member hmember rfl (hknown.of_suffix ht) hlast
          exact .inl (((hfirst.trans hinside).trans hbackends).trans
            (walks_mark rfl rfl rfl rfl rfl))
        · have hbackends := walks_member hmember rfl (hknown.of_suffix ht) hlast
          exact .inr (((hfirst.trans hinside).trans hbackends).trans
            (walks_mark rfl rfl rfl rfl rfl))

/-- A route and the mark behind it. -/
theorem RouteFits.walks_mark (hfits : RouteFits v) (h : Json.Value (Json.skip s) v t)
    (hknown : KnownEscapes s) (ht : Json.skip t = c :: rest) (hc : punctuation c = some type)
    (hend : Place.next .routeEnd ⟨type, [c]⟩ = place')
    (hclosed : Place.next .routeClosed ⟨type, [c]⟩ = place') (hplace' : place'.isDone = false) :
    Walks (.elements .route) s place' rest := by
  rcases hfits.walks h (hknown.of_suffix (Json.skip_suffix s)) with hroute | hroute
  · exact (walks_skip hroute (value_head h)).trans (Core.walks_mark ht hc rfl hend hplace')
  · exact (walks_skip hroute (value_head h)).trans (Core.walks_mark ht hc rfl hclosed hplace')

end ApiGateway.Core
