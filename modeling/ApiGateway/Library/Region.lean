import Mathlib

/-!
# Ranges of an array

`slice` reads a range of an array and `overwrite` copies a list over one. The lemmas say what is
read after a copy: the list itself, the list together with the range before or after it, or a range
of a longer array.
-/

namespace ApiGateway.Region

universe u

variable {α : Type u}

/-- The `n` elements from position `start` on. -/
def slice (l : List α) (start n : Nat) : List α :=
  (l.drop start).take n

/-- The array with `data` copied to position `start`. -/
def overwrite (l : List α) (start : Nat) (data : List α) : List α :=
  l.take start ++ (data ++ l.drop (start + data.length))

variable {l data : List α} {start n m target : Nat}

theorem length_slice (h : start + n ≤ l.length) : (slice l start n).length = n := by
  rw [slice, List.length_take, List.length_drop]
  omega

theorem length_overwrite (h : start + data.length ≤ l.length) :
    (overwrite l start data).length = l.length := by
  simp only [overwrite, List.length_append, List.length_take, List.length_drop]
  omega

theorem slice_zero (l : List α) (start : Nat) : slice l start 0 = [] :=
  List.take_zero

/-- A range consists of its two parts. -/
theorem slice_add (l : List α) (start n m : Nat) :
    slice l start (n + m) = slice l start n ++ slice l (start + n) m := by
  rw [slice, slice, slice, List.take_add, List.drop_drop]

theorem slice_drop (l : List α) (start n k : Nat) :
    slice l (start + k) (n - k) = (slice l start n).drop k := by
  rw [slice, slice, ← List.drop_drop, List.drop_take]

/-- A range of an array is one of every longer array. -/
theorem slice_append (h : start + n ≤ l.length) (more : List α) :
    slice (l ++ more) start n = slice l start n := by
  rw [slice, slice, List.drop_append_of_le_length (by omega), List.take_append_of_le_length]
  rw [List.length_drop]
  omega

theorem slice_take (h : start + n ≤ m) (l : List α) :
    slice (l.take m) start n = slice l start n := by
  rw [slice, slice, List.drop_take, List.take_take, min_eq_left]
  omega

/-- What has been copied is read back. -/
theorem slice_overwrite (h : start ≤ l.length) :
    slice (overwrite l start data) start data.length = data := by
  rw [slice, overwrite, List.drop_left' (List.length_take_of_le h), List.take_left']
  rfl

/-- A range before the copy is not changed. -/
theorem slice_overwrite_before (h : start + n ≤ target) (hat : target ≤ l.length) :
    slice (overwrite l target data) start n = slice l start n := by
  have hle : start + n ≤ (l.take target).length := by
    rw [List.length_take_of_le hat]
    exact h
  rw [overwrite, slice_append hle, slice_take h]

/-- A range after the copy is not changed. -/
theorem slice_overwrite_after (h : target + data.length ≤ start) (hat : target ≤ l.length) :
    slice (overwrite l target data) start n = slice l start n := by
  have hlength : (l.take target ++ data).length = target + data.length := by
    rw [List.length_append, List.length_take_of_le hat]
  obtain ⟨k, rfl⟩ := Nat.exists_eq_add_of_le h
  rw [slice, slice, overwrite, ← List.append_assoc, ← List.drop_drop, List.drop_left' hlength,
    List.drop_drop]

end ApiGateway.Region
