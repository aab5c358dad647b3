import Mathlib

/-!
# Searching a list for an element or a pattern

`cut c s` splits `s` at the first occurrence of the element `c`, and `cutSub w s` at the first
occurrence of the pattern `w`; both drop the occurrence itself. They are the list forms of
`memchr` and `memmem`. The characterizations `cut_eq_some_iff` and `cutSub_eq_some_iff` say
that a cut is a factorization of the input whose first part holds no earlier occurrence.
-/

namespace ApiGateway.Search

universe u

variable {α : Type u} [DecidableEq α]

/-- Split at the first occurrence of `c`, which belongs to neither part. -/
def cut (c : α) : List α → Option (List α × List α)
  | [] => none
  | x :: xs =>
      if x = c then some ([], xs)
      else (cut c xs).map fun parts => (x :: parts.1, parts.2)

variable {c : α} {s a b : List α}

theorem cut_append (ha : c ∉ a) (b : List α) : cut c (a ++ c :: b) = some (a, b) := by
  induction a with
  | nil => simp [cut]
  | cons x xs ih =>
      simp only [List.mem_cons, not_or] at ha
      simp [cut, Ne.symm ha.1, ih ha.2]

theorem cut_eq_some_iff : cut c s = some (a, b) ↔ s = a ++ c :: b ∧ c ∉ a := by
  constructor
  · intro h
    induction s generalizing a with
    | nil => simp [cut] at h
    | cons x xs ih =>
        by_cases hx : x = c
        · simp only [cut, hx, if_true, Option.some.injEq, Prod.mk.injEq] at h
          obtain ⟨rfl, rfl⟩ := h
          simp [hx]
        · simp only [cut, hx, if_false, Option.map_eq_some_iff, Prod.exists,
            Prod.mk.injEq] at h
          obtain ⟨front, back, hcut, rfl, rfl⟩ := h
          obtain ⟨rfl, hmem⟩ := ih hcut
          exact ⟨by simp, by simp [hmem, Ne.symm hx]⟩
  · rintro ⟨rfl, ha⟩
    exact cut_append ha b

/-- Split at the first occurrence of the pattern `w`, which belongs to neither part. -/
def cutSub (w : List α) : List α → Option (List α × List α)
  | [] => if w = [] then some ([], []) else none
  | x :: xs =>
      if w <+: x :: xs then some ([], (x :: xs).drop w.length)
      else (cutSub w xs).map fun parts => (x :: parts.1, parts.2)

variable {w : List α}

theorem cutSub_at_start (h : w <+: s) : cutSub w s = some ([], s.drop w.length) := by
  cases s with
  | nil => simp [cutSub, List.prefix_nil.1 h]
  | cons x xs => simp [cutSub, h]

theorem cutSub_cons {x : α} {xs : List α} (h : ¬ w <+: x :: xs) :
    cutSub w (x :: xs) = (cutSub w xs).map fun parts => (x :: parts.1, parts.2) := by
  simp [cutSub, h]

/-- A cut of `s` is a factorization of `s` with no occurrence of the pattern at any earlier
position. -/
theorem cutSub_eq_some_iff :
    cutSub w s = some (a, b) ↔
      s = a ++ w ++ b ∧ ∀ i < a.length, ¬ w <+: s.drop i := by
  induction s generalizing a with
  | nil =>
      by_cases hw : w = []
      · subst hw
        simp only [cutSub, if_true, Option.some.injEq, Prod.mk.injEq, List.append_nil]
        constructor
        · rintro ⟨rfl, rfl⟩
          simp
        · rintro ⟨h, -⟩
          have := List.append_eq_nil_iff.1 h.symm
          exact ⟨this.1.symm, this.2.symm⟩
      · simp [cutSub, hw]
  | cons x xs ih =>
      by_cases hw : w <+: x :: xs
      · rw [cutSub_at_start hw]
        simp only [Option.some.injEq, Prod.mk.injEq]
        constructor
        · rintro ⟨rfl, rfl⟩
          obtain ⟨t, ht⟩ := hw
          simp [← ht]
        · rintro ⟨h, hfirst⟩
          cases a with
          | nil => exact ⟨rfl, by simp [h]⟩
          | cons y ys => exact absurd (by simpa using hw) (hfirst 0 (by simp))
      · rw [cutSub_cons hw, Option.map_eq_some_iff]
        constructor
        · rintro ⟨⟨front, back⟩, hcut, h⟩
          simp only [Prod.mk.injEq] at h
          obtain ⟨rfl, rfl⟩ := h
          obtain ⟨rfl, hfirst⟩ := ih.1 hcut
          refine ⟨by simp, ?_⟩
          intro i hi
          cases i with
          | zero => simpa using hw
          | succ i => simpa using hfirst i (by simpa using hi)
        · rintro ⟨h, hfirst⟩
          cases a with
          | nil => exact absurd ⟨b, by simpa using h.symm⟩ hw
          | cons y ys =>
              simp only [List.cons_append, List.cons.injEq] at h
              obtain ⟨rfl, rfl⟩ := h
              refine ⟨(ys, b), ih.2 ⟨by simp, ?_⟩, rfl⟩
              intro i hi
              simpa using hfirst (i + 1) (by simpa using hi)

/-- There is a cut if the pattern occurs. -/
theorem cutSub_isSome_iff : (cutSub w s).isSome = true ↔ w <:+: s := by
  constructor
  · intro h
    obtain ⟨⟨a, b⟩, hcut⟩ := Option.isSome_iff_exists.1 h
    exact ⟨a, b, (cutSub_eq_some_iff.1 hcut).1.symm⟩
  · intro h
    induction s with
    | nil =>
        rw [List.infix_nil.1 h]
        rfl
    | cons x xs ih =>
        by_cases hw : w <+: x :: xs
        · rw [cutSub_at_start hw]
          rfl
        · rw [cutSub_cons hw, Option.isSome_map]
          exact ih ((List.infix_cons_iff.1 h).resolve_left hw)

/-- A cut is not moved by what follows the input. -/
theorem cutSub_append_of_some (h : cutSub w s = some (a, b)) (t : List α) :
    cutSub w (s ++ t) = some (a, b ++ t) := by
  obtain ⟨rfl, hfirst⟩ := cutSub_eq_some_iff.1 h
  refine cutSub_eq_some_iff.2 ⟨by simp, fun i hi hpre => hfirst i hi ?_⟩
  -- the pattern fits into what is left of the input behind position `i`
  have hdrop : (a ++ w ++ b ++ t).drop i = (a ++ w ++ b).drop i ++ t :=
    List.drop_append_of_le_length (by simp only [List.length_append]; omega)
  rw [hdrop] at hpre
  refine List.prefix_of_prefix_length_le hpre (List.prefix_append _ t) ?_
  simp only [List.length_drop, List.length_append]
  omega

/-- The search passes over a part of the input in which no occurrence starts. -/
theorem cutSub_append_of_not_prefix (h : ∀ i < a.length, ¬ w <+: (a ++ s).drop i) :
    cutSub w (a ++ s) = (cutSub w s).map fun parts => (a ++ parts.1, parts.2) := by
  induction a with
  | nil => simp
  | cons x xs ih =>
      have hno : ¬ w <+: x :: (xs ++ s) := h 0 (by simp)
      have hrest := ih fun i hi => h (i + 1) (by simpa using hi)
      rw [List.cons_append, cutSub_cons hno, hrest, Option.map_map]
      rfl

/-- The search passes over elements that the pattern does not start with. -/
theorem cutSub_append (hc : c ∉ a) (w s : List α) :
    cutSub (c :: w) (a ++ s) = (cutSub (c :: w) s).map fun parts => (a ++ parts.1, parts.2) := by
  refine cutSub_append_of_not_prefix fun i hi hpre => hc ?_
  rw [List.drop_append_of_le_length hi.le, List.drop_eq_getElem_cons hi, List.cons_append] at hpre
  rw [(List.cons_prefix_cons.1 hpre).1]
  exact List.getElem_mem hi

end ApiGateway.Search
