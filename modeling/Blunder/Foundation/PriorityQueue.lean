import Mathlib.Data.Multiset.AddSub
import Mathlib.Order.Defs.LinearOrder
import Mathlib.Data.List.MinMax
import Mathlib.Data.Prod.Lex

/-!
# Max-heaps that break ties as they like

A max-heap pops an item with the greatest key; which of several it pops is its own
choice. `MaxHeap` states this for a heap of any representation, so that a result about
all max-heaps does not depend on how ties are broken. `MaxHeap.ofList` is one of them,
and `MaxHeap.ranked` breaks the ties by a rank that can be chosen.
-/

namespace Foundation.PriorityQueue

/-- A priority queue of items of type `α` with keys in `κ`, greatest key first. -/
structure MaxHeap (α : Type) {κ : Type} [LE κ] (key : α → κ) where
  Heap : Type
  empty : Heap
  push : Heap → α → Heap
  pop : Heap → Option (α × Heap)
  contents : Heap → Multiset α
  contents_empty : contents empty = 0
  contents_push : ∀ heap a, contents (push heap a) = a ::ₘ contents heap
  contents_of_pop_none : ∀ heap, pop heap = none → contents heap = 0
  contents_of_pop : ∀ heap a rest, pop heap = some (a, rest) → contents heap = a ::ₘ contents rest
  key_le_of_pop : ∀ heap a rest, pop heap = some (a, rest) → ∀ b ∈ contents heap, key b ≤ key a

namespace MaxHeap

variable {α κ : Type} [DecidableEq α] [LinearOrder κ] {key : α → κ}

theorem coe_of_argmax_none {items : List α}
    (h : (items.argmax key).map (fun a => (a, items.erase a)) = none) : (items : Multiset α) = 0 := by
  rw [Option.map_eq_none_iff, List.argmax_eq_none] at h
  rw [h]
  rfl

/-- Taking the first greatest item off a list. -/
theorem coe_of_argmax {items rest : List α} {a : α}
    (h : (items.argmax key).map (fun a => (a, items.erase a)) = some (a, rest)) :
    (items : Multiset α) = a ::ₘ rest := by
  obtain ⟨b, hb, hEq⟩ := Option.map_eq_some_iff.mp h
  cases hEq
  exact Multiset.coe_eq_coe.mpr (List.perm_cons_erase (List.argmax_mem hb))

/-- A heap kept as an unordered list; of several greatest items it pops the first. -/
def ofList (key : α → κ) : MaxHeap α key where
  Heap := List α
  empty := []
  push items a := a :: items
  pop items := (items.argmax key).map fun a => (a, items.erase a)
  contents items := items
  contents_empty := rfl
  contents_push _ _ := rfl
  contents_of_pop_none _ := coe_of_argmax_none
  contents_of_pop _ _ _ := coe_of_argmax
  key_le_of_pop items a rest h b hb := by
    obtain ⟨c, hc, hEq⟩ := Option.map_eq_some_iff.mp h
    cases hEq
    exact List.le_of_mem_argmax hb hc

/-- The greatest key first, then the least rank. -/
def rankedKey (key : α → κ) (rank : α → ℕ) (a : α) : κ ×ₗ ℕᵒᵈ :=
  toLex (key a, OrderDual.toDual (rank a))

omit [DecidableEq α] in
theorem rankedKey_le_iff {rank : α → ℕ} {a b : α} :
    rankedKey key rank b ≤ rankedKey key rank a ↔ key b < key a ∨ key b = key a ∧ rank a ≤ rank b :=
  Prod.Lex.toLex_le_toLex

/-- A heap kept as an unordered list that pops by `rankedKey`. -/
def ranked (key : α → κ) (rank : α → ℕ) : MaxHeap α key where
  Heap := List α
  empty := []
  push items a := a :: items
  pop items := (items.argmax (rankedKey key rank)).map fun a => (a, items.erase a)
  contents items := items
  contents_empty := rfl
  contents_push _ _ := rfl
  contents_of_pop_none _ := coe_of_argmax_none
  contents_of_pop _ _ _ := coe_of_argmax
  key_le_of_pop items a rest h b hb := by
    obtain ⟨c, hc, hEq⟩ := Option.map_eq_some_iff.mp h
    cases hEq
    rcases rankedKey_le_iff.mp (List.le_of_mem_argmax hb hc) with hLt | ⟨hEq, -⟩
    · exact le_of_lt hLt
    · exact le_of_eq hEq

/-- Of several items with the greatest key one with the least rank is popped. -/
theorem rank_le_of_pop {rank : α → ℕ} {heap rest : (ranked key rank).Heap} {a b : α}
    (hPop : (ranked key rank).pop heap = some (a, rest)) (hb : b ∈ (ranked key rank).contents heap)
    (hKey : key b = key a) : rank a ≤ rank b := by
  obtain ⟨c, hc, hEq⟩ := Option.map_eq_some_iff.mp hPop
  cases hEq
  rcases rankedKey_le_iff.mp (List.le_of_mem_argmax (Multiset.mem_coe.mp hb) hc) with hLt | ⟨-, hRank⟩
  · exact absurd hKey (ne_of_lt hLt)
  · exact hRank

end MaxHeap

end Foundation.PriorityQueue
