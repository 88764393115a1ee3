import Mathlib.Data.List.Basic
import Mathlib.Order.Defs.PartialOrder

/-!
# Items spread over places

Numbered items lie at places, in increasing lists, and each is at one place at most. An item may
be added at a place, and the items of one place may be moved behind those of another.

* `Spread` : the invariant.
* `Spread.insert`, `Spread.move` : it is kept.
-/

/-- Every list is increasing, and no item is at two places. -/
structure Spread {P ι : Type*} [LT ι] (f : P → List ι) : Prop where
  sorted : ∀ p, (f p).Pairwise (· < ·)
  unique : ∀ {p q i}, i ∈ f p → i ∈ f q → p = q

/-- `g` is `f` with the items of `a` moved to `b`. -/
structure Spread.Moved {P ι : Type*} (f g : P → List ι) (a b : P) : Prop where
  ne : a ≠ b
  source : g a = []
  target : g b = f b ++ f a
  other : ∀ p, p ≠ a → p ≠ b → g p = f p

namespace Spread

variable {P ι : Type*} {f g : P → List ι} {a b : P}

/-- No item is lost by moving. -/
theorem Moved.mem_iff (h : Moved f g a b) {p : P} {i : ι} :
    i ∈ g p ↔ p ≠ a ∧ i ∈ f p ∨ p = b ∧ i ∈ f a := by
  rcases eq_or_ne p a with rfl | ha
  · simp [h.source, h.ne]
  · rcases eq_or_ne p b with rfl | hb
    · simp [h.target, ha]
    · simp [h.other p ha hb, ha, hb]

theorem Moved.exists_mem_iff (h : Moved f g a b) {i : ι} : (∃ p, i ∈ g p) ↔ ∃ p, i ∈ f p := by
  constructor
  · rintro ⟨p, hp⟩
    rcases h.mem_iff.mp hp with ⟨-, hp⟩ | ⟨-, hp⟩
    · exact ⟨p, hp⟩
    · exact ⟨a, hp⟩
  · rintro ⟨p, hp⟩
    rcases eq_or_ne p a with rfl | ha
    · exact ⟨b, h.mem_iff.mpr (.inr ⟨rfl, hp⟩)⟩
    · exact ⟨p, h.mem_iff.mpr (.inl ⟨ha, hp⟩)⟩

/-- What is at the places when one item is added. -/
theorem exists_mem_insert_iff {x : ι} (htarget : g a = f a ++ [x])
    (hother : ∀ p, p ≠ a → g p = f p) {i : ι} : (∃ p, i ∈ g p) ↔ (∃ p, i ∈ f p) ∨ i = x := by
  constructor
  · rintro ⟨p, hp⟩
    rcases eq_or_ne p a with rfl | ha
    · rw [htarget, List.mem_append, List.mem_singleton] at hp
      exact hp.imp_left fun hp => ⟨p, hp⟩
    · exact .inl ⟨p, hother p ha ▸ hp⟩
  · rintro (⟨p, hp⟩ | rfl)
    · rcases eq_or_ne p a with rfl | ha
      · exact ⟨p, htarget ▸ List.mem_append_left _ hp⟩
      · exact ⟨p, (hother p ha).symm ▸ hp⟩
    · exact ⟨a, htarget ▸ List.mem_append_right _ (List.mem_singleton_self _)⟩

variable [Preorder ι]

/-- The items moved have to follow those that are there. -/
theorem move (hf : Spread f) (h : Moved f g a b) (hlt : ∀ i ∈ f b, ∀ j ∈ f a, i < j) :
    Spread g where
  sorted p := by
    rcases eq_or_ne p a with rfl | ha
    · rw [h.source]
      exact List.Pairwise.nil
    · rcases eq_or_ne p b with rfl | hb
      · rw [h.target, List.pairwise_append]
        exact ⟨hf.sorted p, hf.sorted a, hlt⟩
      · rw [h.other p ha hb]
        exact hf.sorted p
  unique {p q i} hp hq := by
    rcases h.mem_iff.mp hp with ⟨hpa, hp⟩ | ⟨rfl, hp⟩ <;>
      rcases h.mem_iff.mp hq with ⟨hqa, hq⟩ | ⟨rfl, hq⟩
    · exact hf.unique hp hq
    · exact absurd (hf.unique hp hq) hpa
    · exact absurd (hf.unique hq hp) hqa
    · rfl

/-- A new item is added at the end of a list of smaller ones. -/
theorem insert (hf : Spread f) {x : ι} (hx : ∀ p, x ∉ f p) (hlt : ∀ i ∈ f a, i < x)
    (htarget : g a = f a ++ [x]) (hother : ∀ p, p ≠ a → g p = f p) : Spread g := by
  have hmem : ∀ {p i}, i ∈ g p → i ∈ f p ∨ p = a ∧ i = x := by
    intro p i hi
    rcases eq_or_ne p a with rfl | ha
    · simpa [htarget] using hi
    · exact .inl (hother p ha ▸ hi)
  refine ⟨fun p => ?_, fun {p q i} hp hq => ?_⟩
  · rcases eq_or_ne p a with rfl | ha
    · rw [htarget, List.pairwise_append]
      exact ⟨hf.sorted p, List.pairwise_singleton _ _, by simpa using hlt⟩
    · rw [hother p ha]
      exact hf.sorted p
  · rcases hmem hp with hp | ⟨rfl, rfl⟩ <;> rcases hmem hq with hq | ⟨rfl, hi⟩
    · exact hf.unique hp hq
    · exact absurd (hi ▸ hp) (hx p)
    · exact absurd hq (hx q)
    · rfl

end Spread
