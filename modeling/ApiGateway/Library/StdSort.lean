import Mathlib

/-!
# Sorting by a comparison

`StdSort less` is a sorting algorithm for the comparison `less`: it rearranges a list such that no
element is less than one before it. Elements that are equivalent under the comparison may come in
any order. What programs rely on is that the first element of a sorted list with some property is
not preceded, in the sense of the comparison, by any other element that has it (`find_least`), and
that a search for one of two properties can look for the lesser kind first (`find_or`).
-/

namespace ApiGateway

universe u v

variable {α : Type u} {β : Type v}

/-- A sorting algorithm for a comparison. -/
structure StdSort (less : α → α → Bool) where
  sort : List α → List α
  perm (l : List α) : (sort l).Perm l
  sorted (l : List α) : (sort l).Pairwise fun a b => less b a = false

namespace StdSort

variable {less : α → α → Bool}

theorem mem_sort (s : StdSort less) {l : List α} {a : α} : a ∈ s.sort l ↔ a ∈ l :=
  (s.perm l).mem_iff

theorem find_eq_none_iff (s : StdSort less) {l : List α} {p : α → Bool} :
    (s.sort l).find? p = none ↔ ∀ a ∈ l, p a = false := by
  simp [List.find?_eq_none, s.mem_sort]

/-- The first element with a property is least among those that have it. -/
theorem find_least (s : StdSort less) {l : List α} {p : α → Bool} {a : α}
    (h : (s.sort l).find? p = some a) :
    a ∈ l ∧ p a = true ∧ ∀ b ∈ l, p b = true → b = a ∨ less b a = false := by
  obtain ⟨hp, before, after, hsplit, hbefore⟩ := List.find?_eq_some_iff_append.1 h
  have hsorted := s.sorted l
  rw [hsplit] at hsorted
  refine ⟨s.mem_sort.1 (List.mem_of_find?_eq_some h), hp, fun b hb hpb => ?_⟩
  rw [← s.mem_sort, hsplit] at hb
  rcases List.mem_append.1 hb with hearly | hlate
  · have hnot := hbefore b hearly
    rw [hpb] at hnot
    cases hnot
  · rcases List.mem_cons.1 hlate with heq | hlate
    · exact .inl heq
    · exact .inr (List.rel_of_pairwise_cons (List.pairwise_append.1 hsorted).2.1 hlate)

/-- Where every element of one kind is less than every element of another kind, the first element
of either kind is the first one of the one kind, if there is any. -/
theorem find_or (s : StdSort less) {l : List α} {p q : α → Bool}
    (h : ∀ a ∈ l, ∀ b ∈ l, p a = true → q b = true → less a b = true) :
    (s.sort l).find? (fun a => p a || q a) = ((s.sort l).find? p).or ((s.sort l).find? q) := by
  have hall : ∀ a ∈ s.sort l, ∀ b ∈ s.sort l, p a = true → q b = true → less a b = true :=
    fun a ha b hb => h a (s.mem_sort.1 ha) b (s.mem_sort.1 hb)
  have hsorted := s.sorted l
  generalize s.sort l = sorted at hall hsorted
  induction sorted with
  | nil => rfl
  | cons x xs ih =>
      obtain ⟨hx, hxs⟩ := List.pairwise_cons.1 hsorted
      cases hp : p x with
      | true => simp [hp]
      | false =>
          cases hq : q x with
          | true =>
              -- no element of the one kind comes after an element of the other
              have hnone : xs.find? p = none := by
                refine List.find?_eq_none.2 fun a ha hpa => ?_
                have hless := hall a (List.mem_cons_of_mem x ha) x List.mem_cons_self hpa hq
                rw [hx a ha] at hless
                cases hless
              simp [hp, hq, hnone]
          | false =>
              have hrest := ih (fun a ha b hb =>
                hall a (List.mem_cons_of_mem x ha) b (List.mem_cons_of_mem x hb)) hxs
              simpa [hp, hq] using hrest

/-- Sorting by decreasing keys. -/
def byKey [LinearOrder β] (key : α → β) (less : α → α → Bool)
    (hless : ∀ a b, less a b = true ↔ key b < key a) : StdSort less where
  sort l := l.insertionSort fun a b => key b ≤ key a
  perm l := List.perm_insertionSort _ l
  sorted l := by
    have : Std.Total fun a b : α => key b ≤ key a := ⟨fun a b => le_total (key b) (key a)⟩
    have : IsTrans α fun a b => key b ≤ key a := ⟨fun _ _ _ hab hbc => le_trans hbc hab⟩
    refine (List.pairwise_insertionSort (fun a b => key b ≤ key a) l).imp fun {a b} hle => ?_
    rw [← Bool.not_eq_true, hless]
    exact not_lt.2 hle

end StdSort

end ApiGateway
