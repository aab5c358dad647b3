import Mathlib

/-!
# Lists as tables of objects

Objects that are created one after the other are kept in a list and known by their positions. An
object is replaced by `List.set` or added at the end. `get_set_iff` and `get_append_iff` say what is
in the table afterwards, and `countP_append` and `countP_set` how many objects of a kind there are.
-/

namespace ApiGateway.Table

universe u

variable {α : Type u} {l : List α} {i j : Nat} {a b c : α}

theorem get_set_self (h : l[i]? = some a) (b : α) : (l.set i b)[i]? = some b :=
  List.getElem?_set_self (List.getElem?_eq_some_iff.1 h).1

/-- The objects after the one with number `i` has been replaced. -/
theorem get_set_iff (h : l[i]? = some a) :
    (l.set i b)[j]? = some c ↔ (j = i ∧ c = b) ∨ (j ≠ i ∧ l[j]? = some c) := by
  by_cases hij : j = i
  · subst hij
    simp [get_set_self h, eq_comm]
  · simp [List.getElem?_set_ne (Ne.symm hij), hij]

/-- Objects stay when others are added. -/
theorem get_append_of_some (h : l[j]? = some c) (more : List α) : (l ++ more)[j]? = some c :=
  (List.getElem?_append_left (List.getElem?_eq_some_iff.1 h).1).trans h

/-- The objects after one has been added. -/
theorem get_append_iff : (l ++ [b])[j]? = some c ↔ l[j]? = some c ∨ (j = l.length ∧ c = b) := by
  rcases Nat.lt_trichotomy j l.length with hlt | rfl | hgt
  · simp [List.getElem?_append_left hlt, hlt.ne]
  · simp [eq_comm]
  · have hnone : (l ++ [b])[j]? = none := List.getElem?_eq_none (by simp; omega)
    simp [hnone, hgt.le, hgt.ne']

theorem countP_cons (p : α → Bool) (a : α) (l : List α) :
    (a :: l).countP p = l.countP p + (p a).toNat := by
  rw [List.countP_cons]
  cases p a <;> rfl

/-- Adding an object changes a count by what it is counted for. -/
theorem countP_append (p : α → Bool) (l : List α) (b : α) :
    (l ++ [b]).countP p = l.countP p + (p b).toNat := by
  rw [List.countP_append, countP_cons, List.countP_nil, Nat.zero_add]

/-- Counting the objects of a kind that also meet a condition on which they all agree. -/
theorem countP_and_of_forall {p q : α → Bool} {agreed : Bool}
    (h : ∀ a ∈ l, p a = true → q a = agreed) :
    (l.countP fun a => p a && q a) = if agreed then l.countP p else 0 := by
  cases agreed with
  | true =>
      refine List.countP_congr fun a ha => ?_
      rw [Bool.and_eq_true]
      exact ⟨And.left, fun hp => ⟨hp, h a ha hp⟩⟩
  | false =>
      refine List.countP_eq_zero.2 fun a ha hpq => ?_
      rw [Bool.and_eq_true] at hpq
      rw [h a ha hpq.1] at hpq
      exact Bool.false_ne_true hpq.2

/-- The objects of a kind are those that meet a condition and those that do not. -/
theorem countP_and_add (p q : α → Bool) (l : List α) :
    (l.countP fun a => p a && q a) + (l.countP fun a => p a && !q a) = l.countP p := by
  rw [l.countP_eq_countP_filter_add p q, List.countP_filter, List.countP_filter]

/-- Replacing an object changes a count by what the two objects are counted for. -/
theorem countP_set (h : l[i]? = some a) (b : α) (p : α → Bool) :
    (l.set i b).countP p + (p a).toNat = l.countP p + (p b).toNat := by
  obtain ⟨hi, hget⟩ := List.getElem?_eq_some_iff.1 h
  have hpos : p a = true → 0 < l.countP p := fun hp =>
    List.countP_pos_iff.2 ⟨a, List.mem_of_getElem? h, hp⟩
  rw [List.countP_set hi, hget]
  cases ha : p a with
  | true =>
      have := hpos ha
      cases p b <;> simp <;> omega
  | false => cases p b <;> simp

/-- Replacing an object changes a sum by what the two objects contribute. -/
theorem sum_map_set (h : l[i]? = some a) (b : α) (f : α → Nat) :
    ((l.set i b).map f).sum + f a = (l.map f).sum + f b := by
  obtain ⟨hi, rfl⟩ := List.getElem?_eq_some_iff.1 h
  have hnew := ((List.set_perm_cons_eraseIdx hi b).map f).sum_eq
  have hold := ((List.getElem_cons_eraseIdx_perm hi).map f).sum_eq
  rw [List.map_cons, List.sum_cons] at hnew hold
  omega

/-- Two sums that differ by one for each object of a kind. -/
theorem sum_map_add_countP {f g : α → Nat} {p : α → Bool} (h : ∀ a ∈ l, f a = g a + (p a).toNat) :
    (l.map f).sum = (l.map g).sum + l.countP p := by
  induction l with
  | nil => rfl
  | cons a l ih =>
      have htail := ih fun b hb => h b (List.mem_cons_of_mem a hb)
      have hhead := h a List.mem_cons_self
      rw [countP_cons, List.map_cons, List.map_cons, List.sum_cons, List.sum_cons]
      omega

/-- Replacing an object replaces what it has in a list of such things. -/
theorem filterMap_set_perm {β : Type*} (h : l[i]? = some a) (b : α) (f : α → Option β) :
    ((f a).toList ++ (l.set i b).filterMap f).Perm ((f b).toList ++ l.filterMap f) := by
  obtain ⟨hi, rfl⟩ := List.getElem?_eq_some_iff.1 h
  have hcons : ∀ (c : α) (rest : List α),
      (c :: rest).filterMap f = (f c).toList ++ rest.filterMap f := fun c rest => by
    rw [List.filterMap_cons]
    cases f c <;> rfl
  have hnew := (List.set_perm_cons_eraseIdx hi b).filterMap f
  have hold := (List.getElem_cons_eraseIdx_perm hi).filterMap f
  rw [hcons] at hnew hold
  have hswap : ((f l[i]).toList ++ ((f b).toList ++ (l.eraseIdx i).filterMap f)).Perm
      ((f b).toList ++ ((f l[i]).toList ++ (l.eraseIdx i).filterMap f)) := by
    rw [← List.append_assoc, ← List.append_assoc]
    exact List.perm_append_comm.append_right _
  exact ((hnew.append_left _).trans hswap).trans (hold.append_left _)

end ApiGateway.Table
