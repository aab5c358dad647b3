import ApiGateway.Core.ConfigTermination
import ApiGateway.Core.JsonText

/-!
# Configuration documents

JSON texts for `parse_config`: documents whose root object has integer members, routes with one
backend each, and members with keys that are not known (`RootMember`), as they are written
(`document`) and as they are meant to be loaded (`RootMember.load`). An exponent is an error at the
letter that starts it.

A property of texts that the constructs of JSON keep (`Compositional`) holds of all values
(`IsValue.holds`) and documents (`document_holds`). So the tokens of a document are apart
(`document_apart`), and every document has a text (`document_writes`).
-/

namespace ApiGateway.Core

open JsonParser

/-! ## Objects and arrays -/

namespace Piece

/-- Groups of tokens with commas between them. -/
def commas : List (List Piece) → List Piece
  | [] => []
  | group :: groups => group ++ groups.flatMap (comma :: ·)

/-- A member of an object. -/
def member (key : Bytes) (value : List Piece) : List Piece :=
  of ⟨.string, key⟩ :: colon :: value

/-- An object with the given members. -/
def object (members : List (List Piece)) : List Piece :=
  objectStart :: (commas members ++ [objectEnd])

/-- An array with the given elements. -/
def array (elements : List (List Piece)) : List Piece :=
  arrayStart :: (commas elements ++ [arrayEnd])

/-- The token that the loader gets, or the error if there is an exponent. -/
def read (x : Piece) : Except Bytes Token :=
  match x.exponent with
  | [] => .ok x.token
  | c :: _ => .error (unexpectedCharacter c)

end Piece

/-- A property of texts that the constructs of JSON keep. -/
structure Compositional (P : List Piece → Prop) : Prop where
  scalar : ∀ {t : Token}, t.isScalar = true → P [.of t]
  member : ∀ (key : Bytes) {value : List Piece}, P value → P (Piece.member key value)
  array : ∀ {elements : List (List Piece)}, (∀ e ∈ elements, P e) → P (Piece.array elements)
  object : ∀ {members : List (List Piece)}, (∀ m ∈ members, P m) → P (Piece.object members)

theorem intercalate_cons {α : Type} (sep : α) (group : List α) (groups : List (List α)) :
    [sep].intercalate (group :: groups) = group ++ groups.flatMap (sep :: ·) := by
  induction groups generalizing group with
  | nil => simp
  | cons group' groups ih =>
      rw [List.intercalate_cons_cons, ih, List.flatMap_cons, List.append_assoc]
      rfl

theorem map_intercalate_comma (groups : List (List Token)) :
    ([⟨.comma, ascii ","⟩].intercalate groups).map Piece.of =
      Piece.commas (groups.map fun group => group.map Piece.of) := by
  cases groups with
  | nil => rfl
  | cons group groups =>
      rw [intercalate_cons, List.map_append, List.map_flatMap, List.map_cons, Piece.commas,
        List.flatMap_map]
      rfl

theorem map_array_tokens (elements : List (List Token)) :
    (arrayTokens elements).map Piece.of =
      Piece.array (elements.map fun e => e.map Piece.of) := by
  rw [arrayTokens, Piece.array, ← map_intercalate_comma]
  simp

theorem map_object_tokens (members : List (Bytes × List Token)) :
    (objectTokens members).map Piece.of =
      Piece.object (members.map fun m => Piece.member m.1 (m.2.map Piece.of)) := by
  have hmembers : (members.map fun m => Piece.member m.1 (m.2.map Piece.of)) =
      (members.map fun m => ⟨.string, m.1⟩ :: ⟨.colon, ascii ":"⟩ :: m.2).map
        fun group => group.map Piece.of := by
    rw [List.map_map]
    rfl
  rw [objectTokens, Piece.object, hmembers, ← map_intercalate_comma]
  simp

theorem IsValue.holds {P : List Piece → Prop} (hP : Compositional P) {value : List Token}
    (h : IsValue value) : P (value.map Piece.of) := by
  induction h with
  | scalar h => exact hP.scalar h
  | array h ih =>
      rw [map_array_tokens]
      exact hP.array (List.forall_mem_map.2 ih)
  | object h ih =>
      rw [map_object_tokens]
      exact hP.object (List.forall_mem_map.2 fun m hm => hP.member m.1 (ih m hm))

theorem IsValue.ne_nil {value : List Token} (h : IsValue value) : value ≠ [] := by
  cases h with
  | scalar | array | object => exact List.cons_ne_nil _ _

/-! ## Documents -/

/-- A value that is neither an array nor an object. -/
structure Scalar extends Piece where
  scalar : token.isScalar = true

/-- A parser with the given token as far as `read_string` and `read_int` look at it. -/
def Token.parser (t : Token) : JsonParser :=
  { rest := [], type := t.type, text := t.text }

/-- A member of a backend object. -/
inductive BackendMember where
  | host (value : Scalar)
  | port (value : Scalar)
  | other (key : Bytes) (value : List Token)
      (hkey : key ≠ ascii "host" ∧ key ≠ ascii "port") (hvalue : IsValue value)

namespace BackendMember

def pieces : BackendMember → List Piece
  | host value => Piece.member (ascii "host") [value.toPiece]
  | port value => Piece.member (ascii "port") [value.toPiece]
  | other key value _ _ => Piece.member key (value.map Piece.of)

/-- What is made of a member. -/
def load (b : Backend) : BackendMember → Except Bytes Backend
  | host value => value.read.map fun t => { b with host := t.parser.readString }
  | port value => value.read.map fun t => { b with port := t.parser.readInt 0 }
  | other _ _ _ _ => .ok b

end BackendMember

/-- A route object: its prefix, and then the members of its backend. -/
structure RouteText where
  path : Scalar
  backend : List BackendMember

namespace RouteText

def pieces (r : RouteText) : List Piece :=
  Piece.object
    [Piece.member (ascii "prefix") [r.path.toPiece],
      Piece.member (ascii "backends")
        (Piece.array [Piece.object (r.backend.map BackendMember.pieces)])]

/-- What is made of a route. -/
def load (u : Uninitialized) (cfg : GatewayConfig) (r : RouteText) :
    Except Bytes GatewayConfig := do
  let route ← r.path.read.map fun t => ({ path := t.parser.readString } : Route)
  let b ← r.backend.foldlM BackendMember.load ⟨[], u.port⟩
  .ok (pushRoute cfg (pushBackend route b))

end RouteText

/-- The keys of the root object that `parse_config` knows. -/
def recognised (key : Bytes) : Bool :=
  (intFields.find? fun f => f.key = key).isSome || key = ascii "routes"

/-- A member of the root object. -/
inductive RootMember where
  | int (f : IntField) (hf : f ∈ intFields) (value : Scalar)
      (hvalue : value.token.type = .number)
  | routes (routes : List RouteText)
  | unknown (key : Bytes) (value : List Token) (hkey : recognised key = false)
      (hvalue : IsValue value)

namespace RootMember

/-- Whether the key is known. -/
def isKnown : RootMember → Bool
  | int _ _ _ _ | routes _ => true
  | unknown _ _ _ _ => false

def pieces : RootMember → List Piece
  | int f _ value _ => Piece.member f.key [value.toPiece]
  | routes rs => Piece.member (ascii "routes") (Piece.array (rs.map RouteText.pieces))
  | unknown key value _ _ => Piece.member key (value.map Piece.of)

/-- What is made of a member. -/
def load (u : Uninitialized) (cfg : GatewayConfig) : RootMember → Except Bytes GatewayConfig
  | int f _ value _ => value.read.map fun t => f.set cfg (t.parser.readInt (f.get cfg))
  | routes rs => rs.foldlM (RouteText.load u) cfg
  | unknown _ _ _ _ => .ok cfg

end RootMember

/-- A document with the given members. -/
def document (members : List RootMember) : List Piece :=
  Piece.object (members.map RootMember.pieces)

section Holds

variable {P : List Piece → Prop} (hP : Compositional P) (hscalar : ∀ s : Scalar, P [s.toPiece])

include hP hscalar

theorem BackendMember.holds (m : BackendMember) : P m.pieces := by
  cases m with
  | host value | port value => exact hP.member _ (hscalar value)
  | other key value _ hvalue => exact hP.member key (hvalue.holds hP)

theorem RouteText.holds (r : RouteText) : P r.pieces := by
  have hbackend : P (Piece.object (r.backend.map BackendMember.pieces)) :=
    hP.object (List.forall_mem_map.2 fun m _ => m.holds hP hscalar)
  have hbackends := hP.array (List.forall_mem_singleton.2 hbackend)
  exact hP.object (List.forall_mem_cons.2 ⟨hP.member _ (hscalar r.path),
    List.forall_mem_singleton.2 (hP.member _ hbackends)⟩)

theorem RootMember.holds (m : RootMember) : P m.pieces := by
  cases m with
  | int f hf value => exact hP.member _ (hscalar value)
  | routes rs =>
      exact hP.member _ (hP.array (List.forall_mem_map.2 fun r _ => r.holds hP hscalar))
  | unknown key value _ hvalue => exact hP.member key (hvalue.holds hP)

/-- A property that the constructs of JSON keep holds of every document. -/
theorem document_holds (members : List RootMember) : P (document members) :=
  hP.object (List.forall_mem_map.2 fun m _ => m.holds hP hscalar)

end Holds

/-! ## Neighbours -/

/-- The tokens are apart, between any two marks. -/
def Framed (xs : List Piece) : Prop :=
  ∀ x y, x.token ∈ Token.marks → y.token ∈ Token.marks → Apart (x :: (xs ++ [y]))

namespace Framed

theorem nil : Framed [] := fun _ _ hx _ =>
  List.isChain_pair.2 (.inl hx)

theorem single (x : Piece) : Framed [x] := fun _ _ hy hz =>
  .cons_cons (.inl hy) (.cons_cons (.inr hz) (.singleton _))

theorem join {xs ys : List Piece} (hxs : Framed xs) {m : Piece} (hm : m.token ∈ Token.marks)
    (hys : Framed ys) : Framed (xs ++ m :: ys) := by
  intro x y hx hy
  rw [List.append_assoc, ← List.cons_append]
  exact List.isChain_split.2 ⟨hxs x m hx hm, hys m y hm hy⟩

theorem cons {xs : List Piece} {m : Piece} (hm : m.token ∈ Token.marks) (h : Framed xs) :
    Framed (m :: xs) :=
  nil.join hm h

theorem concat {xs : List Piece} {m : Piece} (hm : m.token ∈ Token.marks) (h : Framed xs) :
    Framed (xs ++ [m]) :=
  h.join hm nil

theorem commas {groups : List (List Piece)} (h : ∀ group ∈ groups, Framed group) :
    Framed (Piece.commas groups) := by
  have hall : ∀ (xs : List Piece) (groups : List (List Piece)), Framed xs →
      (∀ group ∈ groups, Framed group) → Framed (xs ++ groups.flatMap (Piece.comma :: ·)) := by
    intro xs groups hxs hgroups
    induction groups generalizing xs with
    | nil => simpa using hxs
    | cons group groups ih =>
        obtain ⟨hgroup, hgroups⟩ := List.forall_mem_cons.1 hgroups
        rw [List.flatMap_cons, ← List.append_assoc]
        exact ih _ (hxs.join (by decide) hgroup) hgroups
  cases groups with
  | nil => exact nil
  | cons group groups =>
      obtain ⟨hgroup, hgroups⟩ := List.forall_mem_cons.1 h
      exact hall group groups hgroup hgroups

theorem compositional : Compositional Framed where
  scalar _ := single _
  member _ _ h := (single _).join (by decide) h
  array h := .cons (by decide) (.concat (by decide) (.commas h))
  object h := .cons (by decide) (.concat (by decide) (.commas h))

end Framed

theorem document_apart (members : List RootMember) : Apart (document members) := by
  have hframed := document_holds Framed.compositional (fun s => .single s.toPiece) members
  have hchain := hframed .comma .comma (by decide) (by decide)
  exact (List.isChain_cons.1 hchain).2.left_of_append

/-! ## Every document has a text -/

/-- Every token has the spelling of `Piece.text`. -/
def Spellable (xs : List Piece) : Prop :=
  ∀ x ∈ xs, Spelled x x.text

namespace Spellable

theorem commas {groups : List (List Piece)} (h : ∀ group ∈ groups, Spellable group) :
    Spellable (Piece.commas groups) := by
  cases groups with
  | nil => rintro _ ⟨⟩
  | cons group groups =>
      obtain ⟨hgroup, hgroups⟩ := List.forall_mem_cons.1 h
      intro x hx
      rw [Piece.commas, List.mem_append, List.mem_flatMap] at hx
      rcases hx with hx | ⟨group', hgroup', hx⟩
      · exact hgroup x hx
      · rcases List.mem_cons.1 hx with rfl | hx
        · exact spelled_mark (by decide)
        · exact hgroups group' hgroup' x hx

theorem bracketed {xs : List Piece} {t t' : Token} (ht : t ∈ Token.marks) (ht' : t' ∈ Token.marks)
    (h : Spellable xs) : Spellable (.of t :: (xs ++ [.of t'])) :=
  List.forall_mem_cons.2 ⟨spelled_mark ht,
    List.forall_mem_append.2 ⟨h, List.forall_mem_singleton.2 (spelled_mark ht')⟩⟩

theorem compositional : Compositional Spellable where
  scalar ht := List.forall_mem_singleton.2 (spelled_scalar ht)
  member _ _ h := List.forall_mem_cons.2 ⟨spelled_scalar rfl,
    List.forall_mem_cons.2 ⟨spelled_mark (by decide), h⟩⟩
  array h := .bracketed (by decide) (by decide) (.commas h)
  object h := .bracketed (by decide) (by decide) (.commas h)

end Spellable

/-- Every document can be written without white space. -/
theorem document_writes (members : List RootMember) :
    Writes (document members) ((document members).flatMap Piece.text) :=
  writes_flat_map (document_holds Spellable.compositional
    (fun s => List.forall_mem_singleton.2 (spelled_scalar s.scalar)) members)

end ApiGateway.Core
