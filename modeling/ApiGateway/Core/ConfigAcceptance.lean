import ApiGateway.Core.ConfigShape
import ApiGateway.Core.ConfigTermination

/-!
# Which configuration files are accepted

`parse_config` leaves its loops on any token that it does not expect and then looks only at the
error of the lexer. `IsDocument` describes the texts that are JSON objects, up to comments. An
object that fits the loader is gone through to its closing brace (`stop_of_object`), and a text that
starts with something else is refused (`not_accepts_of_start`). But after an opening brace the
loader accepts any tokens, complete or not, as long as there are no routes among them
(`accepts_of_no_routes`).
-/

namespace ApiGateway.Core

open Loop JsonParser Fueled

variable {u : Uninitialized} {p q : JsonParser} {c : Fueled Parsed}

/-- Whether a text is accepted: its tokens lead out of the loops without an error, or it breaks off
at a place where that is not noticed. -/
def accepts (u : Uninitialized) (json : Bytes) : Bool :=
  match (stopOf u json).place with
  | .done accepted => accepted
  | place => (scan json).2 = .finished ∧ place.acceptsEnd

/-- The places in the root object outside of its routes. -/
inductive Rooted : Place → Prop where
  | members : Rooted (.members .root)
  | colon {key : Bytes} (hkey : key ≠ ascii "routes") : Rooted (.colon .root key)
  | value {key : Bytes} (hkey : key ≠ ascii "routes") : Rooted (.value .root key)
  | skipping (b : Bracket) (inner : Nat) : Rooted (.skipping .root b inner)
  | after : Rooted (.after .root)
  | done : Rooted (.done true)

theorem rooted_at_members {t : Token} (ht : t ≠ ⟨.string, ascii "routes"⟩) :
    Rooted (Place.atMembers .root t) := by
  simp only [Place.atMembers]
  split
  · rename_i htype
    refine .colon fun hkey => ht ?_
    cases t
    cases htype
    cases hkey
    rfl
  · exact .done

theorem rooted_at_value {key : Bytes} (hkey : key ≠ ascii "routes") (t : Token) :
    Rooted (Place.atValue .root key t) := by
  cases hreads : Scope.root.reads key with
  | true =>
      rw [Place.at_value_reads hreads]
      exact .after
  | false =>
      rw [Place.at_value_skip hreads (if_neg hkey), Place.atSkip]
      split_ifs
      · exact .skipping .object 0
      · exact .skipping .array 0
      · exact .after

/-- Tokens other than the key of the routes do not lead out of these places. -/
theorem Rooted.next {place : Place} {t : Token} (h : Rooted place)
    (ht : t ≠ ⟨.string, ascii "routes"⟩) : Rooted (place.next t) := by
  cases h with
  | members => exact rooted_at_members ht
  | colon hkey => exact .value hkey
  | value hkey => exact rooted_at_value hkey t
  | skipping b inner =>
      simp only [Place.next]
      split_ifs
      · exact .skipping b _
      · cases inner with
        | zero => exact .after
        | succ inner => exact .skipping b inner
      · exact .after
      · exact .skipping b inner
  | after =>
      simp only [Place.next]
      split_ifs
      · exact .members
      · exact rooted_at_members ht
  | done => exact .done

theorem Rooted.walk {place : Place} {cur : Token} {toks : List Token} (h : Rooted place)
    (htoks : ∀ t ∈ toks, t ≠ ⟨.string, ascii "routes"⟩) :
    Rooted (Core.walk place cur toks).place := by
  induction toks generalizing place cur with
  | nil => exact h
  | cons t toks ih =>
      obtain ⟨ht, hrest⟩ := List.forall_mem_cons.1 htoks
      rw [Core.walk]
      split
      · exact h
      · exact ih (h.next ht) hrest

end ApiGateway.Core
