import Mathlib.Data.List.Basic
import Mathlib.Data.String.Basic

/-!
# Text joined by a separator

A text that consists of fields joined by a character none of the fields contains determines
its fields.

* `SeparatedText.append_sep_inj` : the first field and the rest.
* `SeparatedText.notMem_repr` : a decimal number contains no character that is not a digit.
* `SeparatedText.splitOn_flatMap` : splitting fields that each end with the separator.
-/

namespace SeparatedText

/-- The elements before the first `a` and those behind it are determined by the whole list. -/
theorem append_cons_inj {α : Type*} {a : α} :
    ∀ {xs ys us vs : List α}, a ∉ xs → a ∉ ys →
      (xs ++ a :: us = ys ++ a :: vs ↔ xs = ys ∧ us = vs)
  | [], [], _, _, _, _ => by simp
  | [], y :: ys, us, vs, _, hy => by
      have hay : a ≠ y := fun h => hy (h ▸ List.mem_cons_self)
      simp [hay]
  | x :: xs, [], us, vs, hx, _ => by
      have hxa : x ≠ a := fun h => hx (h ▸ List.mem_cons_self)
      simp [hxa]
  | x :: xs, y :: ys, us, vs, hx, hy => by
      have hxs : a ∉ xs := fun h => hx (List.mem_cons_of_mem x h)
      have hys : a ∉ ys := fun h => hy (List.mem_cons_of_mem y h)
      simp only [List.cons_append, List.cons.injEq, append_cons_inj hxs hys, and_assoc]

/-- The part before the first separator and the part behind it are determined by the whole. -/
theorem append_sep_inj {c : Char} {sep s t u v : String} (hsep : sep.toList = [c])
    (hs : c ∉ s.toList) (ht : c ∉ t.toList) :
    s ++ (sep ++ u) = t ++ (sep ++ v) ↔ s = t ∧ u = v := by
  rw [← String.toList_inj, ← @String.toList_inj s t, ← @String.toList_inj u v]
  simp only [String.toList_append, hsep, List.cons_append, List.nil_append]
  exact append_cons_inj hs ht

/-- A decimal number consists of digits. -/
theorem notMem_repr {c : Char} (hc : c.isDigit = false) (n : ℕ) : c ∉ (Nat.repr n).toList := by
  intro hmem
  rw [Nat.toList_repr] at hmem
  have hdigit := Nat.isDigit_of_mem_toDigits (by decide) (by decide) hmem
  rw [hc] at hdigit
  exact Bool.false_ne_true hdigit

theorem notMem_append {c : Char} {s t : String} (hs : c ∉ s.toList) (ht : c ∉ t.toList) :
    c ∉ (s ++ t).toList := by
  rw [String.toList_append, List.mem_append]
  exact not_or.mpr ⟨hs, ht⟩

/-- Splitting fields that each end with the separator gives the fields and an empty rest. -/
theorem splitOn_flatMap {α : Type*} [BEq α] [LawfulBEq α] {a : α} (xss : List (List α))
    (hxss : ∀ xs ∈ xss, a ∉ xs) : (xss.flatMap (· ++ [a])).splitOn a = xss ++ [[]] := by
  induction xss with
  | nil => simp
  | cons xs xss ih =>
      rw [List.flatMap_cons, List.append_assoc, List.singleton_append,
        List.splitOn_append_cons_self_of_not_mem (hxss xs List.mem_cons_self),
        ih fun ys hys => hxss ys (List.mem_cons_of_mem xs hys), List.cons_append]

end SeparatedText
