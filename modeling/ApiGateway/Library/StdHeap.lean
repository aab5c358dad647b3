import Mathlib

/-!
# Heaps in arrays

The heaps of the algorithms `push_heap` and `pop_heap`, for a key that is smallest at the front. The
algorithms themselves are the fields of `HeapOps`, with what is required of them: they rearrange the
elements, and keep the heap. `Heap` is an array that is a heap, with the pushing and popping that
programs do with the two algorithms.
-/

namespace ApiGateway.StdHeap

universe u v

variable {α : Type u} {β : Type v} [LinearOrder β] {key : α → β} {l l' : List α} {a b : α}

/-- No element has a smaller key than its parent, which is half way to the front. -/
def IsHeap (key : α → β) (l : List α) : Prop :=
  ∀ (j : Nat) (parent child : α), 0 < j → l[(j - 1) / 2]? = some parent → l[j]? = some child →
    key parent ≤ key child

theorem IsHeap.nil : IsHeap key [] := by
  intro j parent child _ hparent
  simp at hparent

/-- Only the keys matter. -/
theorem IsHeap.of_map_eq (h : IsHeap key l) (hkeys : l'.map key = l.map key) : IsHeap key l' := by
  intro j parent child hj hparent hchild
  have hget : ∀ (i : Nat) (x : α), l'[i]? = some x → ∃ y, l[i]? = some y ∧ key y = key x := by
    intro i x hx
    have hmap : (l.map key)[i]? = some (key x) := by rw [← hkeys, List.getElem?_map, hx]; rfl
    rw [List.getElem?_map] at hmap
    exact Option.map_eq_some_iff.1 hmap
  obtain ⟨parent', hparent', hpkey⟩ := hget _ _ hparent
  obtain ⟨child', hchild', hckey⟩ := hget _ _ hchild
  rw [← hpkey, ← hckey]
  exact h j parent' child' hj hparent' hchild'

/-- The front has the smallest key. -/
theorem IsHeap.front_le (h : IsHeap key (a :: l)) (hb : b ∈ a :: l) : key a ≤ key b := by
  obtain ⟨j, hj⟩ := List.mem_iff_getElem?.1 hb
  -- from an element to its parent, and so on to the front
  induction j using Nat.strongRecOn generalizing b with
  | ind j ih =>
      cases j with
      | zero =>
          cases hj
          exact le_refl _
      | succ j =>
          have hlt : j / 2 < (a :: l).length := by
            have := (List.getElem?_eq_some_iff.1 hj).1
            omega
          have hparent : (a :: l)[(j + 1 - 1) / 2]? = some (a :: l)[j / 2] := by
            rw [Nat.add_sub_cancel, List.getElem?_eq_getElem hlt]
          have hle := ih (j / 2) (by omega) (List.getElem_mem hlt) hparent
          exact hle.trans (h (j + 1) _ b (Nat.succ_pos j) hparent hj)

theorem pairwise_insertionSort (l : List α) :
    ((l.insertionSort fun a b => key a ≤ key b).map key).Pairwise (· ≤ ·) := by
  have : Std.Total fun a b : α => key a ≤ key b := ⟨fun a b => le_total (key a) (key b)⟩
  have : IsTrans α fun a b => key a ≤ key b := ⟨fun _ _ _ => le_trans⟩
  rw [List.pairwise_map]
  exact List.pairwise_insertionSort _ l

/-- The two algorithms. `pushHeap` is called when an element has been added to a heap at the end;
`popHeap` moves the front to the end. -/
structure HeapOps (key : α → β) where
  pushHeap : List α → List α
  popHeap : List α → List α
  pushHeap_perm (l : List α) : (pushHeap l).Perm l
  pushHeap_isHeap (l : List α) (a : α) : IsHeap key l → IsHeap key (pushHeap (l ++ [a]))
  popHeap_eq (l : List α) (a : α) : IsHeap key (a :: l) →
    ∃ rest, popHeap (a :: l) = rest ++ [a] ∧ rest.Perm l ∧ IsHeap key rest

/-- An array that is a heap. -/
structure Heap (key : α → β) where
  entries : List α
  isHeap : IsHeap key entries

namespace Heap

/-- The empty array. -/
def empty : Heap key :=
  ⟨[], .nil⟩

variable (ops : HeapOps key) (h : Heap key)

/-- `push_back` and `push_heap`. -/
def push (a : α) : Heap key :=
  ⟨ops.pushHeap (h.entries ++ [a]), ops.pushHeap_isHeap _ a h.isHeap⟩

theorem push_perm (a : α) : (h.push ops a).entries.Perm (a :: h.entries) :=
  (ops.pushHeap_perm _).trans (List.perm_append_singleton a h.entries)

/-- `pop_heap` and `pop_back`, for a heap that is not empty. -/
def pop : Heap key :=
  match h with
  | ⟨[], _⟩ => empty
  | ⟨a :: l, hheap⟩ =>
      ⟨(ops.popHeap (a :: l)).dropLast, by
        obtain ⟨rest, heq, -, hrest⟩ := ops.popHeap_eq l a hheap
        rw [heq, List.dropLast_concat]
        exact hrest⟩

variable {h}

theorem pop_perm (hentries : h.entries = a :: l) : (h.pop ops).entries.Perm l := by
  obtain ⟨entries, hheap⟩ := h
  cases hentries
  obtain ⟨rest, heq, hperm, -⟩ := ops.popHeap_eq l a hheap
  simp only [pop, heq, List.dropLast_concat]
  exact hperm

theorem front_le (hentries : h.entries = a :: l) (hb : b ∈ h.entries) : key a ≤ key b := by
  have hheap := h.isHeap
  rw [hentries] at hheap hb
  exact hheap.front_le hb

/-- Elements are changed in place, and keep their keys. -/
def modify (h : Heap key) (f : List α → List α) (hf : ∀ l, (f l).map key = l.map key) : Heap key :=
  ⟨f h.entries, h.isHeap.of_map_eq (hf _)⟩

end Heap

end ApiGateway.StdHeap
