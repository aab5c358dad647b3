import ApiGateway.Library.StdHeap

/-!
# Heaps by sifting

The usual `push_heap` and `pop_heap`, which move a hole through the array and fill it at the end.
`siftUp` moves it towards the front as long as the element for it is smaller than the parent;
`sink` moves it down to a leaf, along the smaller children. `Hole` is what is left of a heap with a
hole in it: every other element has a parent that is not larger, and so have the children of the
hole with the parent of the hole in its place. The result is `siftOps`: both algorithms do what is
required of them.
-/

namespace ApiGateway.StdHeap

universe u v

variable {α : Type u} {β : Type v} [LinearOrder β] {key : α → β} {l : List α} {i j : Nat}
  {value x : α}

/-- The element at `i` is not larger than that at `j`, if there are such elements. -/
def AtMost (key : α → β) (l : List α) (i j : Nat) : Prop :=
  ∀ x y, l[i]? = some x → l[j]? = some y → key x ≤ key y

theorem isHeap_iff : IsHeap key l ↔ ∀ j, 0 < j → AtMost key l ((j - 1) / 2) j :=
  ⟨fun h j hj x y hx hy => h j x y hj hx hy, fun h j x y hj hx hy => h j hj x y hx hy⟩

theorem AtMost.trans {k : Nat} (h : AtMost key l i j) (h' : AtMost key l j k)
    (hj : l[j]? = some x) : AtMost key l i k :=
  fun _ _ hi hk => (h _ _ hi hj).trans (h' _ _ hj hk)

/-- Setting an element does not matter for the others. -/
theorem atMost_set_of_ne {k : Nat} (hi : k ≠ i) (hj : k ≠ j) (h : AtMost key l i j) :
    AtMost key (l.set k value) i j := by
  intro x y hx hy
  rw [List.getElem?_set_ne hi] at hx
  rw [List.getElem?_set_ne hj] at hy
  exact h x y hx hy

theorem eq_of_getElem?_set (h : (l.set i value)[i]? = some x) : x = value := by
  rw [List.getElem?_set_self'] at h
  obtain ⟨_, -, rfl⟩ := Option.map_eq_some_iff.1 h
  rfl

theorem atMost_set_left (hne : i ≠ j) (h : ∀ y, l[j]? = some y → key value ≤ key y) :
    AtMost key (l.set i value) i j := by
  intro x y hx hy
  rw [eq_of_getElem?_set hx]
  rw [List.getElem?_set_ne hne] at hy
  exact h y hy

theorem atMost_set_right (hne : j ≠ i) (h : ∀ x, l[i]? = some x → key x ≤ key value) :
    AtMost key (l.set j value) i j := by
  intro x y hx hy
  rw [eq_of_getElem?_set hy]
  rw [List.getElem?_set_ne hne] at hx
  exact h x hx

/-- The array is a heap but for the element at `i`. -/
structure Hole (key : α → β) (l : List α) (i : Nat) : Prop where
  off : ∀ j, 0 < j → j ≠ i → (j - 1) / 2 ≠ i → AtMost key l ((j - 1) / 2) j
  across : ∀ j, 0 < j → (j - 1) / 2 = i → 0 < i → AtMost key l ((i - 1) / 2) j

/-- The children of `i` are not smaller than `value`. -/
def BelowAre (key : α → β) (l : List α) (i : Nat) (value : α) : Prop :=
  ∀ j y, 0 < j → (j - 1) / 2 = i → l[j]? = some y → key value ≤ key y

theorem hole_of_isHeap (h : IsHeap key l) (i : Nat) : Hole key l i := by
  rw [isHeap_iff] at h
  refine ⟨fun j hj _ _ => h j hj, fun j hj hparent hi x y hx hy => ?_⟩
  have hlt : i < l.length := by
    have := (List.getElem?_eq_some_iff.1 hy).1
    omega
  have hmiddle := List.getElem?_eq_getElem hlt
  exact (h i hi _ _ hx hmiddle).trans (h j hj _ _ (by rw [hparent]; exact hmiddle) hy)

/-- The hole is filled. -/
theorem Hole.fill (h : Hole key l i)
    (habove : ∀ x, 0 < i → l[(i - 1) / 2]? = some x → key x ≤ key value)
    (hbelow : BelowAre key l i value) : IsHeap key (l.set i value) := by
  rw [isHeap_iff]
  intro j hj
  by_cases hself : j = i
  · subst hself
    exact atMost_set_right (by omega) fun x => habove x hj
  · by_cases hparent : (j - 1) / 2 = i
    · rw [hparent]
      exact atMost_set_left (Ne.symm hself) fun y => hbelow j y hj hparent
    · exact atMost_set_of_ne (Ne.symm hparent) (Ne.symm hself) (h.off j hj hself hparent)

/-! ## Up -/

/-- The parent of the hole moves into it. -/
theorem Hole.up (h : Hole key l i) (hi : 0 < i) (hx : l[(i - 1) / 2]? = some x) :
    Hole key (l.set i x) ((i - 1) / 2) := by
  constructor
  · intro j hj hne hparent
    have hself : j ≠ i := fun heq => hparent (by rw [heq])
    by_cases hchild : (j - 1) / 2 = i
    · rw [hchild]
      exact atMost_set_left (Ne.symm hself) fun y hy => h.across j hj hchild hi x y hx hy
    · exact atMost_set_of_ne (Ne.symm hchild) (Ne.symm hself) (h.off j hj hself hchild)
  · intro j hj hparent hpos
    have hgrand := h.off ((i - 1) / 2) hpos (by omega) (by omega)
    by_cases hself : j = i
    · subst hself
      exact atMost_set_right (by omega) fun y hy => hgrand y x hy hx
    · refine atMost_set_of_ne (by omega) (Ne.symm hself) (hgrand.trans ?_ hx)
      rw [← hparent]
      exact h.off j hj hself (by omega)

theorem Hole.below_up (h : Hole key l i) (hi : 0 < i) (hx : l[(i - 1) / 2]? = some x)
    (hlt : key value < key x) : BelowAre key (l.set i x) ((i - 1) / 2) value := by
  intro j y hj hparent hy
  by_cases hself : j = i
  · rw [hself] at hy
    rw [eq_of_getElem?_set hy]
    exact hlt.le
  · rw [List.getElem?_set_ne (Ne.symm hself)] at hy
    have hle := h.off j hj hself (by omega) x y (by rw [hparent]; exact hx) hy
    exact hlt.le.trans hle

/-- The hole moves up as long as the value is smaller than the parent, at most `fuel` times. -/
def siftUp (key : α → β) : Nat → List α → Nat → α → List α
  | 0, l, hole, value => l.set hole value
  | fuel + 1, l, hole, value =>
      match l[(hole - 1) / 2]? with
      | none => l.set hole value
      | some parent =>
          if 0 < hole ∧ key value < key parent then
            siftUp key fuel (l.set hole parent) ((hole - 1) / 2) value
          else l.set hole value

theorem siftUp_isHeap {fuel : Nat} (h : Hole key l i) (hbelow : BelowAre key l i value)
    (hfuel : i ≤ fuel) : IsHeap key (siftUp key fuel l i value) := by
  induction fuel generalizing l i with
  | zero => exact h.fill (fun _ hi => by omega) hbelow
  | succ fuel ih =>
      simp only [siftUp]
      split
      · rename_i hnone
        exact h.fill (fun x _ hx => by rw [hnone] at hx; cases hx) hbelow
      · rename_i parent hparent
        split_ifs with hmove
        · exact ih (h.up hmove.1 hparent) (h.below_up hmove.1 hparent hmove.2) (by omega)
        · refine h.fill (fun x hi hx => ?_) hbelow
          rw [hparent] at hx
          cases hx
          exact not_lt.1 fun hlt => hmove ⟨hi, hlt⟩

/-- An element moves into the hole, and leaves one behind. -/
theorem set_move_perm (hi : i < l.length) (hne : i ≠ j) (hx : l[j]? = some x) :
    ((l.set i x).set j value).Perm (l.set i value) := by
  obtain ⟨hj, rfl⟩ := List.getElem?_eq_some_iff.1 hx
  have hi' : i < (l.set i value).length := by simpa using hi
  have hj' : j < (l.set i value).length := by simpa using hj
  have hswap := List.set_set_perm hi' hj'
  simpa [List.getElem_set_ne hne] using hswap

theorem siftUp_perm {fuel : Nat} (hi : i < l.length) :
    (siftUp key fuel l i value).Perm (l.set i value) := by
  induction fuel generalizing l i with
  | zero => exact .refl _
  | succ fuel ih =>
      simp only [siftUp]
      split
      · exact .refl _
      · rename_i parent hparent
        split_ifs with hmove
        · have hlt : (i - 1) / 2 < (l.set i parent).length := by
            rw [List.length_set]
            omega
          exact (ih hlt).trans (set_move_perm hi (by omega) hparent)
        · exact .refl _

/-- `push_heap`: the last element is taken out and a hole moves up from there. -/
def pushHeap (key : α → β) (l : List α) : List α :=
  match l.getLast? with
  | none => []
  | some value => siftUp key (l.length - 1) l (l.length - 1) value

theorem pushHeap_concat (l : List α) (value : α) :
    pushHeap key (l ++ [value]) = siftUp key l.length (l ++ [value]) l.length value := by
  simp [pushHeap]

theorem pushHeap_perm (l : List α) : (pushHeap key l).Perm l := by
  induction l using List.reverseRecOn with
  | nil => exact .refl _
  | append_singleton l value _ =>
      rw [pushHeap_concat]
      refine (siftUp_perm (by simp)).trans ?_
      simp

theorem pushHeap_isHeap (h : IsHeap key l) (value : α) :
    IsHeap key (pushHeap key (l ++ [value])) := by
  rw [pushHeap_concat]
  rw [isHeap_iff] at h
  -- the last element has no children
  have hlast : ∀ {j : Nat} {y : α}, (j - 1) / 2 = l.length → 0 < j →
      (l ++ [value])[j]? ≠ some y := by
    intro j y hparent hj hy
    have hlt := (List.getElem?_eq_some_iff.1 hy).1
    rw [List.length_append, List.length_singleton] at hlt
    omega
  refine siftUp_isHeap ⟨fun j hj hne hparent x y hx hy => ?_, fun j hj hparent _ x y _ hy => ?_⟩
    (fun j y hj hparent hy => absurd hy (hlast hparent hj)) le_rfl
  · have hlt := (List.getElem?_eq_some_iff.1 hy).1
    rw [List.length_append, List.length_singleton] at hlt
    rw [List.getElem?_append_left (by omega)] at hx hy
    exact h j hj x y hx hy
  · exact absurd hy (hlast hparent hj)

/-! ## Down -/

/-- The smallest child of the hole moves into it. -/
theorem Hole.down (h : Hole key l i) {c : Nat} (hc : 0 < c) (hparent : (c - 1) / 2 = i)
    (hx : l[c]? = some x) (hmin : BelowAre key l i x) : Hole key (l.set i x) c := by
  constructor
  · intro j hj hne hchild
    by_cases hself : j = i
    · subst hself
      exact atMost_set_right (by omega) fun y hy => h.across c hc hparent hj y x hy hx
    · by_cases hsibling : (j - 1) / 2 = i
      · rw [hsibling]
        exact atMost_set_left (Ne.symm hself) fun y => hmin j y hj hsibling
      · exact atMost_set_of_ne (Ne.symm hsibling) (Ne.symm hself) (h.off j hj hself hsibling)
  · intro j hj hchild _
    rw [hparent]
    refine atMost_set_left (by omega) fun y hy => ?_
    exact h.off j hj (by omega) (by omega) x y (by rw [hchild]; exact hx) hy

/-- The hole moves down to a leaf, along the smaller children; of equal ones the right one moves. -/
def sink (key : α → β) : Nat → List α → Nat → List α × Nat
  | 0, l, hole => (l, hole)
  | fuel + 1, l, hole =>
      match l[2 * hole + 1]?, l[2 * hole + 2]? with
      | some left, some right =>
          if key left < key right then sink key fuel (l.set hole left) (2 * hole + 1)
          else sink key fuel (l.set hole right) (2 * hole + 2)
      | some left, none => (l.set hole left, 2 * hole + 1)
      | none, _ => (l, hole)

/-- What `sink` keeps: there is a hole at a leaf, and any value for it makes up the same
elements. -/
structure Sunk (key : α → β) (l : List α) (i : Nat) (s : List α × Nat) : Prop where
  hole : Hole key s.1 s.2
  leaf : ∀ j, 0 < j → (j - 1) / 2 = s.2 → s.1[j]? = none
  length : s.1.length = l.length
  inside : s.2 < l.length
  perm : ∀ value, (s.1.set s.2 value).Perm (l.set i value)

theorem Sunk.after {c : Nat} {s : List α × Nat} (hi : i < l.length) (hne : i ≠ c)
    (hx : l[c]? = some x) (h : Sunk key (l.set i x) c s) : Sunk key l i s where
  hole := h.hole
  leaf := h.leaf
  length := h.length.trans List.length_set
  inside := h.inside.trans_eq List.length_set
  perm value := (h.perm value).trans (set_move_perm hi hne hx)

/-- A hole without children is where it has to be. -/
theorem Hole.sunk (h : Hole key l i) (hi : i < l.length)
    (hleaf : ∀ j, 0 < j → (j - 1) / 2 = i → l[j]? = none) : Sunk key l i (l, i) :=
  ⟨h, hleaf, rfl, hi, fun _ => .refl _⟩

theorem child_cases (hj : 0 < j) (hparent : (j - 1) / 2 = i) : j = 2 * i + 1 ∨ j = 2 * i + 2 := by
  omega

theorem sink_sunk {fuel : Nat} (h : Hole key l i) (hi : i < l.length)
    (hfuel : l.length ≤ i + fuel) : Sunk key l i (sink key fuel l i) := by
  induction fuel generalizing l i with
  | zero => omega
  | succ fuel ih =>
      simp only [sink]
      split
      · rename_i left right hleft hright
        have hlength := (List.getElem?_eq_some_iff.1 hright).1
        split_ifs with hlt
        · have hmin : BelowAre key l i left := by
            intro j y hj hparent hy
            rcases child_cases hj hparent with rfl | rfl
            · cases hleft.symm.trans hy
              exact le_rfl
            · cases hright.symm.trans hy
              exact hlt.le
          refine .after hi (by omega) hleft (ih (h.down (by omega) (by omega) hleft hmin) ?_ ?_)
          · rw [List.length_set]
            omega
          · rw [List.length_set]
            omega
        · have hmin : BelowAre key l i right := by
            intro j y hj hparent hy
            rcases child_cases hj hparent with rfl | rfl
            · cases hleft.symm.trans hy
              exact not_lt.1 hlt
            · cases hright.symm.trans hy
              exact le_rfl
          refine .after hi (by omega) hright (ih (h.down (by omega) (by omega) hright hmin) ?_ ?_)
          · rw [List.length_set]
            omega
          · rw [List.length_set]
            omega
      · rename_i left hleft hright
        have hlength := (List.getElem?_eq_some_iff.1 hleft).1
        have hend := List.getElem?_eq_none_iff.1 hright
        have hmin : BelowAre key l i left := by
          intro j y hj hparent hy
          rcases child_cases hj hparent with rfl | rfl
          · cases hleft.symm.trans hy
            exact le_rfl
          · rw [hright] at hy
            cases hy
        refine .after hi (by omega) hleft
          ((h.down (by omega) (by omega) hleft hmin).sunk ?_ fun j hj hparent => ?_)
        · rw [List.length_set]
          exact hlength
        · rw [List.getElem?_eq_none_iff, List.length_set]
          omega
      · rename_i hleft
        have hend := List.getElem?_eq_none_iff.1 hleft
        refine h.sunk hi fun j hj hparent => ?_
        rw [List.getElem?_eq_none_iff]
        omega

/-- `pop_heap`: the front goes to the end, the hole sinks to a leaf, and the last element moves up
from there. -/
def popHeap (key : α → β) : List α → List α
  | [] => []
  | front :: l =>
      match l.getLast? with
      | none => [front]
      | some value =>
          let sunk := sink key (front :: l).length (front :: l.dropLast) 0
          siftUp key sunk.2 sunk.1 sunk.2 value ++ [front]

theorem popHeap_concat (front value : α) (l : List α) :
    popHeap key (front :: (l ++ [value])) =
      let sunk := sink key (l.length + 2) (front :: l) 0
      siftUp key sunk.2 sunk.1 sunk.2 value ++ [front] := by
  simp [popHeap]

theorem popHeap_spec (front : α) (h : IsHeap key (front :: l)) :
    ∃ rest, popHeap key (front :: l) = rest ++ [front] ∧ rest.Perm l ∧ IsHeap key rest := by
  cases l using List.reverseRecOn with
  | nil => exact ⟨[], rfl, .refl _, .nil⟩
  | append_singleton l value =>
      have hheap : IsHeap key (front :: l) := by
        rw [isHeap_iff] at h ⊢
        intro j hj x y hx hy
        have hlt := (List.getElem?_eq_some_iff.1 hy).1
        have happend : ∀ {k : Nat}, k ≤ j →
            (front :: (l ++ [value]))[k]? = (front :: l)[k]? := fun hk => by
          rw [← List.cons_append, List.getElem?_append_left (by omega)]
        exact h j hj x y ((happend (by omega)).trans hx) ((happend le_rfl).trans hy)
      have hsunk : Sunk key (front :: l) 0 (sink key (l.length + 2) (front :: l) 0) :=
        sink_sunk (hole_of_isHeap hheap 0) (by simp) (by simp)
      rw [popHeap_concat]
      generalize sink key (l.length + 2) (front :: l) 0 = sunk at hsunk
      refine ⟨_, rfl, ?_, ?_⟩
      · have hinside : sunk.2 < sunk.1.length := hsunk.length ▸ hsunk.inside
        exact ((siftUp_perm hinside).trans (hsunk.perm value)).trans
          (List.perm_append_singleton value l).symm
      · refine siftUp_isHeap hsunk.hole (fun j y hj hparent hy => ?_) le_rfl
        rw [hsunk.leaf j hj hparent] at hy
        cases hy

/-- The two algorithms by sifting. -/
def siftOps (key : α → β) : HeapOps key where
  pushHeap := pushHeap key
  popHeap := popHeap key
  pushHeap_perm := pushHeap_perm
  pushHeap_isHeap _ value h := pushHeap_isHeap h value
  popHeap_eq _ front h := popHeap_spec front h

end ApiGateway.StdHeap
