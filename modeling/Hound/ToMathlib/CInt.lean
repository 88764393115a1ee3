import Mathlib.Data.Nat.Notation
import Mathlib.Tactic.Ring

/-!
# The type `int`

Sizes are narrowed to `int`, whose operations are undefined when the result does not fit into 32
bits and whose division rounds towards zero.

* `castToInt_eq_iff` : which sizes are narrowed without loss.
* `lt_batchCount_iff` : the quotient that is rounded up.
-/

namespace Hound

/-- The result of an addition, subtraction or multiplication of `int`s, undefined on overflow. -/
def checkedInt (z : ℤ) : Option ℤ :=
  if -2147483648 ≤ z ∧ z < 2147483648 then some z else none

/-- `static_cast<int>` of a `size_t`. -/
def castToInt (n : ℕ) : ℤ :=
  let r : ℤ := n % 4294967296
  if r < 2147483648 then r else r - 4294967296

theorem checkedInt_of_lt {z : ℤ} (hlow : -2147483648 ≤ z) (hhigh : z < 2147483648) :
    checkedInt z = some z := if_pos ⟨hlow, hhigh⟩

theorem eq_of_checkedInt {z y : ℤ} (h : checkedInt z = some y) : y = z := by
  unfold checkedInt at h
  split at h
  · exact (Option.some.inj h).symm
  · cases h

/-- The narrowed size. -/
theorem castToInt_bounds (n : ℕ) :
    -2147483648 ≤ castToInt n ∧ castToInt n < 2147483648 ∧ castToInt n ≤ n := by
  unfold castToInt
  simp only
  split <;> omega

/-- Below `2 ^ 31` nothing is lost. -/
theorem castToInt_eq_iff {n : ℕ} : castToInt n = n ↔ n < 2147483648 := by
  unfold castToInt
  simp only
  split <;> omega

/-- Batch `i` exists exactly when it begins below the size. -/
theorem lt_batchCount_iff {d b i : ℕ} (hb : 1 ≤ b) : i < (d + b - 1) / b ↔ i * b < d := by
  have hmul : (i + 1) * b = i * b + b := by ring
  rw [← Nat.succ_le_iff, Nat.le_div_iff_mul_le (by omega), Nat.succ_eq_add_one, hmul]
  omega

/-- A quotient that is rounded towards zero is not positive when the size is not. -/
theorem tdiv_nonpos {d b : ℤ} (hd : d ≤ 0) (hb : 1 ≤ b) : (d + b - 1).tdiv b ≤ 0 := by
  rcases le_or_gt 0 (d + b - 1) with hnonneg | hneg
  · rw [Int.tdiv_eq_zero_of_lt hnonneg (by omega)]
  · have hopposite := Int.tdiv_nonneg (a := -(d + b - 1)) (b := b) (by omega) (by omega)
    rw [Int.neg_tdiv] at hopposite
    omega

end Hound
