import ApiGateway.Http.Response

/-!
# Keeping a connection open

The `Connection` header of a request is a list of options separated by commas, in any letter case.
`request_keep_alive` does not read that list: it looks for the letters of `keep-alive` anywhere in
the value and otherwise decides by the version alone, so `close` has no effect.
`keep_alive_decision_iff` says for which requests its answer is what the options ask for.
-/

namespace ApiGateway.Http

/-- A string without the blanks at its ends. -/
def trim (s : Bytes) : Bytes :=
  ((s.dropWhile isBlank).reverse.dropWhile isBlank).reverse

/-- The options in a header value. -/
def options (value : Bytes) : List Bytes :=
  (List.splitOn 44 value).map trim

/-- Whether an option, given in lower case, is among those of a header value. -/
def hasOption (option value : Bytes) : Bool :=
  (options value).any fun o => toLower o == option

/-- Whether the `Connection` header of a request, if it has one, contains an option. -/
def HttpRequest.asksFor (req : HttpRequest) (option : Bytes) : Bool :=
  (req.headers.find? (ascii "connection")).any (hasOption option)

/-- Whether some part of the `Connection` header is a word, up to letter case. -/
def HttpRequest.mentions (req : HttpRequest) (word : Bytes) : Prop :=
  ∃ value, req.headers.find? (ascii "connection") = some value ∧
    ∃ part, part <:+: value ∧ toLower part = toLower word

theorem str_iequal_iff {a b : Bytes} : strIequal a b = true ↔ toLower a = toLower b := by
  simp only [strIequal, Bool.and_eq_true, beq_iff_eq]
  refine ⟨And.right, fun h => ⟨?_, h⟩⟩
  have hlen := congrArg List.length h
  rwa [toLower, toLower, List.length_map, List.length_map] at hlen

theorem to_lower_to_lower (s : Bytes) : toLower (toLower s) = toLower s := by
  have hbyte : ∀ c : UInt8, asciiToLower (asciiToLower c) = asciiToLower c := by
    intro c
    simp only [asciiToLower, Bool.and_eq_true, decide_eq_true_eq]
    split
    · rename_i hupper
      rw [if_neg]
      simp only [UInt8.le_iff_toNat_le, UInt8.toNat_add, UInt8.reduceToNat] at hupper ⊢
      omega
    · rfl
  simp only [toLower, List.map_map]
  exact List.map_congr_left fun c _ => hbyte c

theorem prefix_of_to_lower_eq {word part v : Bytes} (hpre : part <+: v)
    (heq : toLower part = toLower word) : v.take word.length = part := by
  have hlen := congrArg List.length heq
  rw [toLower, toLower, List.length_map, List.length_map] at hlen
  rw [← hlen]
  exact (List.prefix_iff_eq_take.1 hpre).symm

/-- The sliding comparison finds a word wherever it is. -/
theorem contains_icase_iff {word v : Bytes} : containsIcase word v = true ↔
    ∃ part, part <:+: v ∧ toLower part = toLower word := by
  induction v with
  | nil =>
      simp only [containsIcase, str_iequal_iff, List.infix_nil]
      exact ⟨fun h => ⟨[], rfl, h⟩, fun ⟨_, hnil, h⟩ => hnil ▸ h⟩
  | cons c rest ih =>
      rw [containsIcase, Bool.or_eq_true, str_iequal_iff, ih]
      constructor
      · rintro (hhere | ⟨part, hpart, heq⟩)
        · exact ⟨_, (List.take_prefix _ _).isInfix, hhere⟩
        · exact ⟨part, hpart.trans (List.suffix_cons c rest).isInfix, heq⟩
      · rintro ⟨part, hpart, heq⟩
        rcases List.infix_cons_iff.1 hpart with hpre | hlater
        · exact .inl (by rwa [prefix_of_to_lower_eq hpre heq])
        · exact .inr ⟨part, hlater, heq⟩

theorem infix_intercalate (sep : Bytes) {piece : Bytes} {pieces : List Bytes} (h : piece ∈ pieces) :
    piece <:+: sep.intercalate pieces := by
  induction pieces with
  | nil => cases h
  | cons first rest ih =>
      cases rest with
      | nil =>
          rw [List.mem_singleton.1 h, List.intercalate_singleton]
      | cons second rest =>
          rw [List.intercalate_cons_cons]
          rcases List.mem_cons.1 h with rfl | hlater
          · exact ((List.prefix_append _ _).trans (List.prefix_append _ _)).isInfix
          · exact (ih hlater).trans (List.suffix_append _ _).isInfix

theorem infix_of_trim (s : Bytes) : trim s <:+: s := by
  have hfront : s.dropWhile isBlank <:+: s := (List.dropWhile_suffix _).isInfix
  have hback : trim s <:+: s.dropWhile isBlank := by
    rw [trim, ← List.reverse_infix, List.reverse_reverse]
    exact (List.dropWhile_suffix _).isInfix
  exact hback.trans hfront

/-- An option is a part of the value. -/
theorem infix_of_mem_options {o value : Bytes} (h : o ∈ options value) : o <:+: value := by
  obtain ⟨piece, hpiece, rfl⟩ := List.mem_map.1 h
  have hpart : piece <:+: value := by
    have := infix_intercalate [44] hpiece
    rwa [List.intercalate_splitOn] at this
  exact (infix_of_trim piece).trans hpart

/-- What is among the options is mentioned. -/
theorem HttpRequest.mentions_of_asks_for {req : HttpRequest} {option : Bytes}
    (h : req.asksFor option = true) : req.mentions option := by
  rw [asksFor] at h
  cases hvalue : req.headers.find? (ascii "connection") with
  | none =>
      rw [hvalue] at h
      cases h
  | some value =>
      rw [hvalue] at h
      obtain ⟨o, ho, heq⟩ := List.any_eq_true.1 h
      rw [beq_iff_eq] at heq
      refine ⟨value, hvalue, o, infix_of_mem_options ho, ?_⟩
      rw [← heq, to_lower_to_lower]

/-- `request_keep_alive` looks for the letters of the option and at the version. -/
theorem request_keep_alive_iff {req : HttpRequest} : requestKeepAlive req = true ↔
    req.mentions (ascii "keep-alive") ∨ req.version = ascii "HTTP/1.1" := by
  rw [requestKeepAlive, Bool.or_eq_true, decide_eq_true_iff]
  refine or_congr_left ?_
  cases h : req.headers.find? (ascii "connection") with
  | none => simp [HttpRequest.mentions, h]
  | some value => simp [HttpRequest.mentions, h, contains_icase_iff]

/-- The decision follows the options exactly for the requests that ask for `keep-alive`, the
requests of HTTP/1.1 that do not ask for `close`, and the requests of another version that do not
mention `keep-alive` in any other way. -/
theorem keep_alive_decision_iff (req : HttpRequest) :
    (requestKeepAlive req = true ↔
      req.asksFor (ascii "keep-alive") = true ∨
        (req.version = ascii "HTTP/1.1" ∧ req.asksFor (ascii "close") = false)) ↔
    (req.asksFor (ascii "keep-alive") = true ∨
      if req.version = ascii "HTTP/1.1" then req.asksFor (ascii "close") = false
      else ¬ req.mentions (ascii "keep-alive")) := by
  rw [request_keep_alive_iff]
  by_cases hasks : req.asksFor (ascii "keep-alive") = true
  · have hmentions := req.mentions_of_asks_for hasks
    exact iff_of_true (iff_of_true (.inl hmentions) (.inl hasks)) (.inl hasks)
  · by_cases hversion : req.version = ascii "HTTP/1.1"
    · simp [hasks, hversion]
    · simp [hasks, hversion]

/-- The request of a client that asks for its connection to be closed. -/
def closeRequest : HttpRequest :=
  addHeaderLine (parseRequestLine (ascii "GET / HTTP/1.1") {}).2 (ascii "Connection: close")

/-- The connection of a client that asks for `close` is kept open. -/
theorem close_ignored : closeRequest.asksFor (ascii "close") = true ∧
    closeRequest.asksFor (ascii "keep-alive") = false ∧ requestKeepAlive closeRequest = true := by
  decide

end ApiGateway.Http
