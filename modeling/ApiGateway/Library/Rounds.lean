import Mathlib

/-!
# Sequences that take turns

A sequence of numbers below `n` is fair if at every point of it no number has occurred more than
once more often than another. `balanced_take_iff` says that this is so exactly if no number occurs
twice in a round, the rounds being the blocks of `n` elements from the beginning on.
-/

namespace ApiGateway.Rounds

variable {n p q : Nat} {xs : List Nat}

/-- No number below `n` occurs more than once more often than another. -/
def Balanced (n : Nat) (xs : List Nat) : Prop :=
  ∀ p < n, ∀ p' < n, xs.count p ≤ xs.count p' + 1

/-- Round `q` of a sequence. The last round may be shorter than `n`. -/
def round (n q : Nat) (xs : List Nat) : List Nat :=
  (xs.drop (q * n)).take n

theorem take_succ_mul (n q : Nat) (xs : List Nat) :
    xs.take ((q + 1) * n) = xs.take (q * n) ++ round n q xs := by
  rw [Nat.succ_mul, List.take_add]
  rfl

theorem sum_count (hlt : ∀ x ∈ xs, x < n) : ∑ p ∈ Finset.range n, xs.count p = xs.length := by
  have h := Multiset.sum_count_eq_card (s := Finset.range n) (m := (xs : Multiset Nat))
    fun x hx => Finset.mem_range.2 (hlt x hx)
  simpa using h

/-- A balanced sequence has no number more often than its length allows. -/
theorem Balanced.count_le (h : Balanced n xs) (hlt : ∀ x ∈ xs, x < n) (hp : p < n)
    (hlength : xs.length ≤ q * n) : xs.count p ≤ q := by
  by_contra hover
  have hsum : ∑ _p ∈ Finset.range n, q < ∑ p ∈ Finset.range n, xs.count p := by
    refine Finset.sum_lt_sum (fun p' hp' => ?_) ⟨p, Finset.mem_range.2 hp, by omega⟩
    have := h p hp p' (Finset.mem_range.1 hp')
    omega
  rw [sum_count hlt, Finset.sum_const, Finset.card_range, smul_eq_mul, Nat.mul_comm] at hsum
  omega

theorem Balanced.le_count (h : Balanced n xs) (hlt : ∀ x ∈ xs, x < n) (hp : p < n)
    (hlength : q * n ≤ xs.length) : q ≤ xs.count p := by
  by_contra hunder
  have hsum : ∑ p ∈ Finset.range n, xs.count p < ∑ _p ∈ Finset.range n, q := by
    refine Finset.sum_lt_sum (fun p' hp' => ?_) ⟨p, Finset.mem_range.2 hp, by omega⟩
    have := h p' (Finset.mem_range.1 hp') p hp
    omega
  rw [sum_count hlt, Finset.sum_const, Finset.card_range, smul_eq_mul, Nat.mul_comm] at hsum
  omega

/-- A complete round without repetitions has every number once. -/
theorem count_round (hlt : ∀ x ∈ xs, x < n) (hnodup : (round n q xs).Nodup) (hp : p < n)
    (hlength : (q + 1) * n ≤ xs.length) : (round n q xs).count p = 1 := by
  have hsubset : round n q xs ⊆ List.range n := fun x hx =>
    List.mem_range.2 (hlt x (List.mem_of_mem_drop (List.mem_of_mem_take hx)))
  have hfull : (List.range n).length ≤ (round n q xs).length := by
    rw [Nat.succ_mul] at hlength
    simp only [round, List.length_range, List.length_take, List.length_drop]
    omega
  have hperm : (round n q xs).Perm (List.range n) :=
    (hnodup.subperm hsubset).perm_of_length_le hfull
  rw [hperm.count_eq]
  exact List.count_eq_one_of_mem List.nodup_range (List.mem_range.2 hp)

theorem count_take_mul (hlt : ∀ x ∈ xs, x < n) (hnodup : ∀ q, (round n q xs).Nodup) (hp : p < n)
    (hlength : q * n ≤ xs.length) : (xs.take (q * n)).count p = q := by
  induction q with
  | zero => simp
  | succ q ih =>
      have hbefore : q * n ≤ xs.length := (Nat.mul_le_mul_right n (Nat.le_succ q)).trans hlength
      rw [take_succ_mul, List.count_append, ih hbefore, count_round hlt (hnodup q) hp hlength]

/-- After `m` elements `m / n` rounds are complete, and the next one has begun. -/
theorem count_take_bounds (hn : 0 < n) (hlt : ∀ x ∈ xs, x < n)
    (hnodup : ∀ q, (round n q xs).Nodup) {m : Nat} (hm : m ≤ xs.length) (hp : p < n) :
    m / n ≤ (xs.take m).count p ∧ (xs.take m).count p ≤ m / n + 1 := by
  have hmul : m / n * n ≤ m := Nat.div_mul_le_self m n
  have hbegun : m - m / n * n ≤ n := by
    have := Nat.lt_mul_div_succ m hn
    rw [Nat.mul_succ, Nat.mul_comm] at this
    omega
  have hsplit : xs.take m =
      xs.take (m / n * n) ++ (xs.drop (m / n * n)).take (m - m / n * n) := by
    rw [← List.take_add, Nat.add_sub_cancel' hmul]
  have hone : ((xs.drop (m / n * n)).take (m - m / n * n)).count p ≤ 1 :=
    List.nodup_iff_count_le_one.1
      ((hnodup (m / n)).sublist (List.take_sublist_take_left hbegun)) p
  rw [hsplit, List.count_append, count_take_mul hlt hnodup hp (hmul.trans hm)]
  omega

/-- At every point of the sequence the numbers are balanced if and only if no number occurs twice in
a round. -/
theorem balanced_take_iff (hn : 0 < n) (hlt : ∀ x ∈ xs, x < n) :
    (∀ m, Balanced n (xs.take m)) ↔ ∀ q, (round n q xs).Nodup := by
  have hltTake : ∀ m, ∀ x ∈ xs.take m, x < n := fun m x hx => hlt x (List.mem_of_mem_take hx)
  constructor
  · intro h q
    rw [List.nodup_iff_count_le_one]
    intro p
    by_cases hp : p < n
    · by_cases hshort : xs.length ≤ q * n
      · simp [round, List.drop_eq_nil_of_le hshort]
      · -- every number has occurred `q` times before the round, and at most `q + 1` times after it
        have hbefore : q ≤ (xs.take (q * n)).count p :=
          (h (q * n)).le_count (hltTake _) hp (by rw [List.length_take]; omega)
        have hafter : (xs.take ((q + 1) * n)).count p ≤ q + 1 :=
          (h ((q + 1) * n)).count_le (hltTake _) hp (by rw [List.length_take]; omega)
        rw [take_succ_mul, List.count_append] at hafter
        omega
    · have hnot : p ∉ round n q xs := fun hmem =>
        hp (hlt p (List.mem_of_mem_drop (List.mem_of_mem_take hmem)))
      rw [List.count_eq_zero_of_not_mem hnot]
      omega
  · intro h m p hp p' hp'
    rw [List.take_eq_take_min]
    have hle := (count_take_bounds hn hlt h (Nat.min_le_right m xs.length) hp).2
    have hge := (count_take_bounds hn hlt h (Nat.min_le_right m xs.length) hp').1
    omega

end ApiGateway.Rounds
