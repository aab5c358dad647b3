import Mathlib

/-!
# Maps as sorted association lists

A `SortedMap` is a list of key/value pairs in strictly increasing key order, so that iterating
over it visits the keys in order and two maps with the same bindings are equal. `assign` is
the assignment `m[k] = v`: it replaces the value of a key that is present and inserts the key
at its place otherwise.
-/

namespace ApiGateway

universe u v

/-- A finite map whose entries are kept in strictly increasing key order. -/
structure SortedMap (α : Type u) (β : Type v) [Ord α] where
  entries : List (α × β)
  sorted : entries.Pairwise fun x y => compare x.1 y.1 = .lt

namespace SortedMap

variable {α : Type u} {β : Type v} [Ord α]

instance [DecidableEq α] [DecidableEq β] : DecidableEq (SortedMap α β) := fun m n =>
  decidable_of_iff (m.entries = n.entries) (by cases m; cases n; simp)

/-- The map without entries. -/
def empty : SortedMap α β := ⟨[], .nil⟩

/-- The value bound to a key. -/
def find? (m : SortedMap α β) (k : α) : Option β :=
  (m.entries.find? fun e => compare e.1 k == .eq).map Prod.snd

/-- Assignment on the entries of a map. -/
def assignEntries (k : α) (v : β) : List (α × β) → List (α × β)
  | [] => [(k, v)]
  | e :: rest =>
      match compare e.1 k with
      | .lt => e :: assignEntries k v rest
      | .eq => (k, v) :: rest
      | .gt => (k, v) :: e :: rest

variable [Std.TransOrd α] [Std.LawfulEqOrd α]

omit [Std.TransOrd α] [Std.LawfulEqOrd α] in
/-- Assignment adds no key other than the assigned one. -/
theorem mem_assignEntries {k : α} {v : β} {e : α × β} {entries : List (α × β)}
    (h : e ∈ assignEntries k v entries) : e = (k, v) ∨ e ∈ entries := by
  induction entries with
  | nil => exact Or.inl (by simpa [assignEntries] using h)
  | cons d rest ih =>
      simp only [assignEntries] at h
      split at h
      · rcases List.mem_cons.1 h with rfl | h
        · simp
        · rcases ih h with rfl | h <;> simp_all
      · rcases List.mem_cons.1 h with rfl | h <;> simp_all
      · rcases List.mem_cons.1 h with rfl | h <;> simp_all

/-- Assignment keeps the entries sorted. -/
theorem sorted_assignEntries (k : α) (v : β) {entries : List (α × β)}
    (h : entries.Pairwise fun x y => compare x.1 y.1 = .lt) :
    (assignEntries k v entries).Pairwise fun x y => compare x.1 y.1 = .lt := by
  induction entries with
  | nil => simp [assignEntries]
  | cons e rest ih =>
      rw [List.pairwise_cons] at h
      simp only [assignEntries]
      split
      · rename_i hlt
        refine List.pairwise_cons.2 ⟨?_, ih h.2⟩
        intro d hd
        rcases mem_assignEntries hd with rfl | hd
        · exact hlt
        · exact h.1 d hd
      · rename_i heq
        have hk : e.1 = k := Std.LawfulEqOrd.eq_of_compare heq
        exact List.pairwise_cons.2 ⟨fun d hd => hk ▸ h.1 d hd, h.2⟩
      · rename_i hgt
        have hlt : compare k e.1 = .lt := Std.OrientedCmp.gt_iff_lt.1 hgt
        refine List.pairwise_cons.2 ⟨?_, List.pairwise_cons.2 h⟩
        intro d hd
        rcases List.mem_cons.1 hd with rfl | hd
        · exact hlt
        · exact Std.TransCmp.lt_trans hlt (h.1 d hd)

/-- The assignment `m[k] = v`. -/
def assign (m : SortedMap α β) (k : α) (v : β) : SortedMap α β :=
  ⟨assignEntries k v m.entries, sorted_assignEntries k v m.sorted⟩

/-- Reading the assigned key returns the assigned value. -/
@[simp] theorem find?_assign_self (m : SortedMap α β) (k : α) (v : β) :
    (m.assign k v).find? k = some v := by
  obtain ⟨entries, hsorted⟩ := m
  simp only [assign, find?]
  induction entries with
  | nil => simp [assignEntries]
  | cons e rest ih =>
      simp only [assignEntries]
      split
      · rename_i hlt
        simpa [hlt] using ih (List.pairwise_cons.1 hsorted).2
      · simp
      · simp

/-- Reading another key is not affected by an assignment. -/
theorem find?_assign_of_ne (m : SortedMap α β) {k other : α} (v : β) (h : k ≠ other) :
    (m.assign k v).find? other = m.find? other := by
  have hk : compare k other ≠ .eq := fun heq => h (Std.LawfulEqOrd.eq_of_compare heq)
  obtain ⟨entries, hsorted⟩ := m
  simp only [assign, find?]
  induction entries with
  | nil => simp [assignEntries, hk]
  | cons e rest ih =>
      simp only [assignEntries]
      split
      · have := ih (List.pairwise_cons.1 hsorted).2
        by_cases he : compare e.1 other = .eq
        · simp [he]
        · simpa [he] using this
      · rename_i heq
        have he : compare e.1 other ≠ .eq :=
          Std.LawfulEqOrd.eq_of_compare heq ▸ hk
        simp [hk, he]
      · simp [hk]

/-- Assignment as a conditional read. -/
theorem find?_assign [DecidableEq α] (m : SortedMap α β) (k other : α) (v : β) :
    (m.assign k v).find? other = if k = other then some v else m.find? other := by
  split
  · rename_i h
    exact h ▸ find?_assign_self m k v
  · rename_i h
    exact find?_assign_of_ne m v h

omit [Std.TransOrd α] in
/-- The keys of the entries are those that have a value. -/
theorem find?_isSome_iff (m : SortedMap α β) {k : α} :
    (m.find? k).isSome = true ↔ ∃ e ∈ m.entries, e.1 = k := by
  rw [find?, Option.isSome_map, List.find?_isSome]
  simp only [beq_iff_eq, Std.LawfulEqOrd.compare_eq_iff_eq]

omit [Std.TransOrd α] in
/-- No key has two entries. -/
theorem nodup_keys (m : SortedMap α β) : (m.entries.map Prod.fst).Nodup := by
  refine List.pairwise_map.2 (m.sorted.imp fun {a b} hlt heq => ?_)
  rw [Std.LawfulEqOrd.compare_eq_iff_eq.2 heq] at hlt
  cases hlt

omit [Std.TransOrd α] [Std.LawfulEqOrd α] in
@[simp] theorem find?_empty (k : α) : (empty : SortedMap α β).find? k = none := rfl

/-- Assignment replaces what the value of the key contributes to a sum over the entries. -/
theorem sum_assign {M : Type*} [AddCommMonoid M] (f : β → M) (m : SortedMap α β) (k : α) (v : β) :
    ((m.assign k v).entries.map fun e => f e.2).sum + ((m.find? k).map f).getD 0 =
      (m.entries.map fun e => f e.2).sum + f v := by
  obtain ⟨entries, hsorted⟩ := m
  simp only [assign, find?]
  induction entries with
  | nil => simp [assignEntries]
  | cons e rest ih =>
      obtain ⟨hfirst, hrest⟩ := List.pairwise_cons.1 hsorted
      simp only [assignEntries]
      split
      · rename_i hlt
        have htail := ih hrest
        simp only [List.map_cons, List.sum_cons, List.find?_cons, hlt]
        rw [add_assoc, add_assoc]
        exact congrArg (f e.2 + ·) htail
      · rename_i heq
        simp only [List.map_cons, List.sum_cons, List.find?_cons, heq, beq_self_eq_true,
          Option.map_some, Option.getD_some]
        rw [add_right_comm, add_comm (f v), add_assoc, add_comm (f v), ← add_assoc]
      · rename_i hgt
        -- the key comes before all entries
        have hmissing : (e :: rest).find? (fun e => compare e.1 k == .eq) = none := by
          refine List.find?_eq_none.2 fun other hmem hother => ?_
          rcases List.mem_cons.1 hmem with rfl | hmem
          · rw [hgt] at hother
            cases hother
          · have hlater := hfirst other hmem
            rw [Std.LawfulEqOrd.eq_of_compare (eq_of_beq hother)] at hlater
            rw [hgt] at hlater
            cases hlater
        simp only [hmissing, List.map_cons, List.sum_cons, Option.map_none, Option.getD_none,
          add_zero]
        rw [add_comm]

end SortedMap

end ApiGateway
