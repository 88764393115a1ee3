import Mathlib.Data.List.Basic
import Mathlib.Tactic.Ring

/-!
# Chunks of a list

* `chunks` : a list cut into pieces of one length, the last of them possibly shorter.
* `chunks_append` : a first piece of that length is the first chunk.
* `chunks_flatten_append` : pieces of that length and a last one that is not longer are the chunks
  of what they make up.
-/

variable {α : Type*}

/-- The consecutive pieces of `m` elements, the last of them possibly shorter. -/
def chunks (m : ℕ) (xs : List α) : List (List α) :=
  (List.range ((xs.length + m - 1) / m)).map fun i => xs.extract (i * m) (i * m + m)

theorem chunks_nil {m : ℕ} (hm : 0 < m) : chunks m ([] : List α) = [] := by
  have hzero : (([] : List α).length + m - 1) / m = 0 := by
    apply Nat.div_eq_of_lt
    rw [List.length_nil]
    omega
  rw [chunks, hzero]
  rfl

/-- A list that fits in one piece. -/
theorem chunks_of_length_le {m : ℕ} {xs : List α} (hne : 1 ≤ xs.length) (hle : xs.length ≤ m) :
    chunks m xs = [xs] := by
  have hone : (xs.length + m - 1) / m = 1 := by
    rw [Nat.div_eq_iff (by omega)]
    omega
  rw [chunks, hone, List.range_one, List.map_singleton, Nat.zero_mul, Nat.zero_add,
    List.extract_eq_take_drop, List.drop_zero, Nat.sub_zero, List.take_of_length_le hle]

/-- A first piece of `m` elements is the first chunk. -/
theorem chunks_append {m : ℕ} (hm : 0 < m) {front : List α} (hfront : front.length = m)
    (rest : List α) : chunks m (front ++ rest) = front :: chunks m rest := by
  have hcount : ((front ++ rest).length + m - 1) / m = (rest.length + m - 1) / m + 1 := by
    rw [← Nat.add_div_right _ hm, List.length_append, hfront]
    congr 1
    omega
  unfold chunks
  rw [hcount, List.range_succ_eq_map, List.map_cons, List.map_map]
  congr 1
  · rw [Nat.zero_mul, Nat.zero_add, List.extract_eq_take_drop, List.drop_zero, Nat.sub_zero]
    exact List.take_left' hfront
  · refine List.map_congr_left fun i _ => ?_
    -- the chunks behind the first one begin behind `front`
    have hstart : (i + 1) * m = front.length + i * m := by
      rw [hfront]
      ring
    rw [Function.comp_apply, hstart, List.extract_eq_take_drop, List.extract_eq_take_drop,
      List.drop_length_add_append]
    congr 1
    omega

/-- Pieces of `m` elements, followed by one of at most `m`, are the chunks of what they make up. -/
theorem chunks_flatten_append {m : ℕ} {pieces : List (List α)} {last : List α}
    (hpieces : ∀ p ∈ pieces, p.length = m) (hne : 1 ≤ last.length) (hle : last.length ≤ m) :
    chunks m (pieces.flatten ++ last) = pieces ++ [last] := by
  induction pieces with
  | nil => exact chunks_of_length_le hne hle
  | cons p pieces ih =>
      have hrest := ih fun q hq => hpieces q (List.mem_cons_of_mem p hq)
      rw [List.flatten_cons, List.append_assoc,
        chunks_append (by omega) (hpieces p List.mem_cons_self), hrest, List.cons_append]
