import Mathlib.Tactic.Common

/-!
# Computations that may fail

* `Except.bind_eq_ok_iff` : a sequence succeeds when both parts do.
* `List.mapM_eq_ok_iff`, `List.exists_mapM_eq_ok` : a traversal succeeds when every element does.
-/

variable {α β ε : Type}

/-- A sequence that succeeds succeeds in both parts. -/
theorem Except.bind_eq_ok_iff {r : Except ε α} {f : α → Except ε β} {b : β} :
    (r >>= f) = .ok b ↔ ∃ a, r = .ok a ∧ f a = .ok b := by
  cases r <;> simp [bind, Except.bind]

/-- A traversal that succeeds computes each result from its own element. -/
theorem List.mapM_eq_ok_iff {f : α → Except ε β} {xs : List α} {ys : List β} :
    xs.mapM f = .ok ys ↔ xs.map f = ys.map .ok := by
  induction xs generalizing ys with
  | nil => cases ys <;> simp [pure, Except.pure]
  | cons x xs ih =>
      rw [List.mapM_cons, List.map_cons]
      cases hx : f x with
      | error e => cases ys <;> simp [bind, Except.bind]
      | ok y =>
          cases hxs : xs.mapM f with
          | error e =>
              cases ys with
              | nil => simp [bind, Except.bind]
              | cons y' ys => simp [bind, Except.bind, ← ih, hxs]
          | ok ys' =>
              cases ys with
              | nil => simp [bind, Except.bind, pure, Except.pure]
              | cons y' ys => simp [bind, Except.bind, pure, Except.pure, ← ih, hxs]

/-- A traversal succeeds if every element has a result. -/
theorem List.exists_mapM_eq_ok {f : α → Except ε β} {xs : List α}
    (h : ∀ x ∈ xs, ∃ y, f x = .ok y) : ∃ ys, xs.mapM f = .ok ys := by
  induction xs with
  | nil => exact ⟨[], rfl⟩
  | cons x xs ih =>
      obtain ⟨y, hy⟩ := h x List.mem_cons_self
      obtain ⟨ys, hys⟩ := ih fun x' hx' => h x' (List.mem_cons_of_mem x hx')
      refine ⟨y :: ys, List.mapM_eq_ok_iff.mpr ?_⟩
      rw [List.map_cons, List.map_cons, hy, List.mapM_eq_ok_iff.mp hys]

/-- A loop succeeds if its body always does. -/
theorem List.exists_foldlM_eq_ok {f : β → α → Except ε β} : ∀ {xs : List α} (b : β),
    (∀ b, ∀ x ∈ xs, ∃ b', f b x = .ok b') → ∃ b', xs.foldlM f b = .ok b'
  | [], b, _ => ⟨b, rfl⟩
  | x :: xs, b, h => by
      obtain ⟨b', hb'⟩ := h b x List.mem_cons_self
      obtain ⟨b'', hb''⟩ := exists_foldlM_eq_ok b' fun c y hy =>
        h c y (List.mem_cons_of_mem x hy)
      refine ⟨b'', ?_⟩
      rw [List.foldlM_cons]
      exact Except.bind_eq_ok_iff.mpr ⟨b', hb', hb''⟩

/-- What every single result is known to be, the list of results is. -/
theorem List.map_eq_map_of_mapM {γ : Type} {f : α → Except ε β} {xs : List α} {ys : List β}
    (h : xs.mapM f = .ok ys) {g : β → γ} {k : α → γ} (hf : ∀ x y, f x = .ok y → g y = k x) :
    ys.map g = xs.map k := by
  rw [List.mapM_eq_ok_iff] at h
  induction xs generalizing ys with
  | nil =>
      rw [List.map_nil, eq_comm, List.map_eq_nil_iff] at h
      rw [h]
      rfl
  | cons x xs ih =>
      cases ys with
      | nil => cases h
      | cons y ys =>
          rw [List.map_cons, List.map_cons, List.cons.injEq] at h
          rw [List.map_cons, List.map_cons, hf x y h.1, ih h.2]

/-- Results that are all `ok` are determined by their values. -/
theorem Except.eq_map_ok_of_toOption {rs : List (Except ε α)} {xs : List α}
    (hok : ∀ r ∈ rs, r.isOk = true) (h : rs.map Except.toOption = xs.map some) :
    rs = xs.map .ok := by
  induction rs generalizing xs with
  | nil =>
      rw [List.map_nil, eq_comm, List.map_eq_nil_iff] at h
      rw [h]
      rfl
  | cons r rs ih =>
      cases xs with
      | nil => cases h
      | cons x xs =>
          rw [List.map_cons, List.map_cons, List.cons.injEq] at h
          have htail := ih (fun r' hr' => hok r' (List.mem_cons_of_mem r hr')) h.2
          cases r with
          | error e => cases h.1
          | ok y =>
              cases h.1
              rw [List.map_cons, htail]
