import Mathlib.Algebra.BigOperators.Group.List.Basic
import Mathlib.Data.Vector.Basic
import Mathlib.Tactic.Ring

/-!
# Tensors as rows

A tensor with at least one dimension is the list of its rows along the first dimension, each
flattened, with the sizes of the other dimensions. Operations that may throw return an `Option`.

* `Tensor.concat`, `Tensor.slice0`, `Tensor.slice1`, `Tensor.reshape`, `Tensor.max0` : the
  operations along the first two dimensions.
* `List.extract_flatten` : cutting rows of one length out of the flattened list.
* `Tensor.reshape_ofGroups`, `Tensor.reshape_flatten` : regrouping rows, and flattening them.
* `foldl_set_of_perm` : writing every slot of a vector once, in any order.
-/

/-! ### Lists of rows -/

section Lists

variable {α : Type}

/-- Dropping `n` rows' worth of elements drops `n` rows. -/
theorem List.drop_flatten_of_length {w : ℕ} :
    ∀ {xss : List (List α)} (n : ℕ), (∀ xs ∈ xss, xs.length = w) →
      xss.flatten.drop (n * w) = (xss.drop n).flatten
  | [], n, _ => by simp
  | xs :: xss, 0, _ => by simp
  | xs :: xss, n + 1, hw => by
      have hlen : xs.length = w := hw xs List.mem_cons_self
      have hmul : (n + 1) * w = xs.length + n * w := by rw [hlen]; ring
      rw [List.flatten_cons, hmul, ← List.drop_drop, List.drop_left, List.drop_succ_cons]
      exact drop_flatten_of_length n fun ys hys => hw ys (List.mem_cons_of_mem xs hys)

/-- Taking `n` rows' worth of elements takes `n` rows. -/
theorem List.take_flatten_of_length {w : ℕ} :
    ∀ {xss : List (List α)} (n : ℕ), (∀ xs ∈ xss, xs.length = w) →
      xss.flatten.take (n * w) = (xss.take n).flatten
  | [], n, _ => by simp
  | xs :: xss, 0, _ => by simp
  | xs :: xss, n + 1, hw => by
      have hlen : xs.length = w := hw xs List.mem_cons_self
      have hmul : (n + 1) * w = xs.length + n * w := by rw [hlen]; ring
      rw [List.flatten_cons, hmul, List.take_length_add_append, List.take_succ_cons,
        List.flatten_cons]
      congr 1
      exact take_flatten_of_length n fun ys hys => hw ys (List.mem_cons_of_mem xs hys)

/-- Cutting rows of one length out of the flattened list cuts the list of rows. -/
theorem List.extract_flatten {xss : List (List α)} {w : ℕ} (hw : ∀ xs ∈ xss, xs.length = w)
    (a b : ℕ) : xss.flatten.extract (a * w) (b * w) = (xss.extract a b).flatten := by
  have hrest : ∀ xs ∈ xss.drop a, xs.length = w := fun xs hxs => hw xs (List.mem_of_mem_drop hxs)
  rw [List.extract_eq_take_drop, List.extract_eq_take_drop, List.drop_flatten_of_length a hw,
    ← Nat.sub_mul, List.take_flatten_of_length (b - a) hrest]

end Lists

/-! ### Tensors -/

/-- A tensor of at least one dimension. -/
@[ext]
structure Tensor (α : Type) where
  /-- The sizes of the dimensions behind the first. -/
  trailing : List ℕ
  /-- The rows, flattened. -/
  rows : List (List α)
  length_eq : ∀ row ∈ rows, row.length = trailing.prod

namespace Tensor

variable {α : Type}

/-- The matrix with given rows. -/
def ofRows {n : ℕ} (rows : List (List.Vector α n)) : Tensor α where
  trailing := [n]
  rows := rows.map (·.toList)
  length_eq row hrow := by
    obtain ⟨v, -, rfl⟩ := List.mem_map.mp hrow
    simp

/-- `concat(ts, 0)`. It throws for an empty list and for tensors whose other dimensions differ. -/
def concat : List (Tensor α) → Option (Tensor α)
  | [] => none
  | t :: ts =>
      if h : ∀ u ∈ ts, u.trailing = t.trailing then some
        { trailing := t.trailing
          rows := (t :: ts).flatMap Tensor.rows
          length_eq := by
            intro row hrow
            obtain ⟨u, hu, hmem⟩ := List.mem_flatMap.mp hrow
            rcases List.mem_cons.mp hu with rfl | hu
            · exact u.length_eq row hmem
            · exact h u hu ▸ u.length_eq row hmem }
      else none

/-- `slice(0, a, b)`. -/
def slice0 (t : Tensor α) (a b : ℕ) : Tensor α where
  trailing := t.trailing
  rows := t.rows.extract a b
  length_eq row hrow :=
    t.length_eq row (List.mem_of_mem_drop (List.mem_of_mem_take (by simpa using hrow)))

/-- `slice(1, a, b)`. It throws for a tensor of one dimension. -/
def slice1 (t : Tensor α) (a b : ℕ) : Option (Tensor α) :=
  match h : t.trailing with
  | [] => none
  | d :: ds => some
      { trailing := (min b d - a) :: ds
        rows := t.rows.map (·.extract (a * ds.prod) (min b d * ds.prod))
        length_eq := by
          intro row hrow
          obtain ⟨r, hr, rfl⟩ := List.mem_map.mp hrow
          have hlen := t.length_eq r hr
          rw [h, List.prod_cons] at hlen
          have hle : min b d * ds.prod ≤ d * ds.prod := Nat.mul_le_mul_right _ (min_le_right b d)
          rw [List.extract_eq_take_drop, List.length_take, List.length_drop, List.prod_cons,
            Nat.sub_mul, hlen]
          omega }

/-- The consecutive pieces of `k` elements, without a rest. -/
def pieces (k : ℕ) (xs : List α) : List (List α) :=
  (List.range (xs.length / k)).map fun i => xs.extract (i * k) ((i + 1) * k)

/-- `reshape({-1, dims...})`. It throws when the number of elements is no multiple of the
product of `dims`. -/
def reshape (t : Tensor α) (dims : List ℕ) : Option (Tensor α) :=
  if 0 < dims.prod ∧ t.rows.flatten.length % dims.prod = 0 then some
    { trailing := dims
      rows := pieces dims.prod t.rows.flatten
      length_eq := by
        intro row hrow
        obtain ⟨i, hi, rfl⟩ := List.mem_map.mp hrow
        have hbound : (i + 1) * dims.prod ≤ t.rows.flatten.length :=
          (Nat.mul_le_mul_right _ (List.mem_range.mp hi)).trans (Nat.div_mul_le_self _ _)
        rw [List.extract_eq_take_drop, List.length_take, List.length_drop, ← Nat.sub_mul,
          Nat.add_sub_cancel_left, one_mul]
        have hmul : (i + 1) * dims.prod = i * dims.prod + dims.prod := by ring
        omega }
  else none

/-- Apply a function to every row; it must keep the length of rows. -/
def mapRows (f : List α → List α) (hf : ∀ row, (f row).length = row.length) (t : Tensor α) :
    Tensor α where
  trailing := t.trailing
  rows := t.rows.map f
  length_eq row hrow := by
    obtain ⟨r, hr, rfl⟩ := List.mem_map.mp hrow
    rw [hf, t.length_eq r hr]

/-- The elementwise maximum of rows; there is none of no rows. -/
def maxRows (max : α → α → α) : List (List α) → Option (List α)
  | [] => none
  | row :: rows => some (rows.foldl (List.zipWith max) row)

/-- `max(t, 0)`, as a flattened tensor of the other dimensions. It throws when there are no
rows. -/
def max0 (max : α → α → α) (t : Tensor α) : Option (List α) := maxRows max t.rows

/-- Assign a flattened tensor with sizes `shape` to a row of length `n`. A tensor of one element
is broadcast; other sizes throw. -/
def copyRow (n : ℕ) (shape : List ℕ) (row : List α) : Option (List.Vector α n) :=
  if h : shape = [n] ∧ row.length = n then some ⟨row, h.2⟩
  else if (shape = [] ∨ shape = [1]) ∧ row.length = 1 then
    row.head?.map (List.Vector.replicate n)
  else none

/-! ### What the operations do -/

/-- A concatenation that succeeds has the rows of its parts, and their other dimensions. -/
theorem concat_eq_some {ts : List (Tensor α)} {t : Tensor α} (h : concat ts = some t) :
    t.rows = ts.flatMap Tensor.rows ∧ ∀ u ∈ ts, u.trailing = t.trailing := by
  cases ts with
  | nil => cases h
  | cons u us =>
      unfold concat at h
      split at h
      case h_1 => contradiction
      case h_2 u' us' heq =>
          split at h
          case isTrue hall =>
              cases h
              cases heq
              refine ⟨rfl, fun v hv => ?_⟩
              rcases List.mem_cons.mp hv with rfl | hv
              · rfl
              · exact hall v hv
          case isFalse => cases h

theorem concat_singleton (t : Tensor α) : concat [t] = some t := by
  have hall : ∀ u ∈ ([] : List (Tensor α)), u.trailing = t.trailing := nofun
  rw [concat, dif_pos hall, Option.some.injEq]
  ext1
  · rfl
  · exact List.append_nil t.rows

/-- Tensors with one row for each element of a part make one with a row for each element of all
parts. -/
theorem length_concat_map {β : Type*} {n : ℕ} {u : ℕ → Tensor α} {t : Tensor α}
    (h : concat ((List.range n).map u) = some t) (part : ℕ → List β)
    (hlen : ∀ i < n, (u i).rows.length = (part i).length) :
    t.rows.length = ((List.range n).map part).flatten.length := by
  rw [(concat_eq_some h).1, List.length_flatMap, List.length_flatten, List.map_map, List.map_map]
  congr 1
  exact List.map_congr_left fun i hi => hlen i (List.mem_range.mp hi)

/-- Tensors with the same other dimensions can be concatenated. -/
theorem exists_concat {ts : List (Tensor α)} (hne : ts ≠ []) {dims : List ℕ}
    (h : ∀ u ∈ ts, u.trailing = dims) : ∃ t, concat ts = some t ∧ t.trailing = dims := by
  obtain ⟨u, us, rfl⟩ := List.exists_cons_of_ne_nil hne
  have hall : ∀ v ∈ us, v.trailing = u.trailing := by
    intro v hv
    rw [h v (List.mem_cons_of_mem u hv), h u List.mem_cons_self]
  exact ⟨_, dif_pos hall, h u List.mem_cons_self⟩

/-- The flattened list has as many pieces of the common length as there are rows. -/
theorem length_flatten_eq {xss : List (List α)} {w : ℕ} (hw : ∀ xs ∈ xss, xs.length = w) :
    xss.flatten.length = xss.length * w := by
  rw [List.length_flatten, List.map_congr_left hw, List.map_const', List.sum_replicate_nat]

/-- A slice along the second dimension cuts every row. -/
theorem slice1_eq_some {t : Tensor α} {d : ℕ} {ds : List ℕ} (ht : t.trailing = d :: ds)
    (a b : ℕ) : ∃ t', t.slice1 a b = some t' ∧ t'.trailing = (min b d - a) :: ds ∧
      t'.rows = t.rows.map (·.extract (a * ds.prod) (min b d * ds.prod)) := by
  unfold slice1
  split
  case h_1 h =>
      rw [ht] at h
      cases h
  case h_2 d' ds' h =>
      rw [ht] at h
      cases h
      exact ⟨_, rfl, rfl, rfl⟩

/-- A row of the right length is copied as it is. -/
theorem toList_of_copyRow {n : ℕ} {row : List α} {v : List.Vector α n}
    (h : copyRow n [n] row = some v) : v.toList = row := by
  unfold copyRow at h
  split_ifs at h with hlen hone
  · cases h
    rfl
  · -- a tensor of one element whose size is that of the row
    obtain ⟨hshape | hshape, hrow⟩ := hone
    · cases hshape
    · cases hshape
      exact absurd ⟨rfl, hrow⟩ hlen

/-- Regrouping rows: `m` groups of `k` rows become `m` rows. -/
theorem reshape_ofGroups (dims : List ℕ) {t : Tensor α} {w k m : ℕ} (ht : t.trailing = [w])
    (hrows : t.rows.length = m * k) (hdims : dims.prod = k * w) (hpos : 0 < k * w) :
    ∃ t', t.reshape dims = some t' ∧ t'.trailing = dims ∧
      t'.rows = (List.range m).map fun j => (t.rows.extract (j * k) ((j + 1) * k)).flatten := by
  have hw : ∀ row ∈ t.rows, row.length = w := by
    intro row hrow
    rw [t.length_eq row hrow, ht, List.prod_singleton]
  have hlen : t.rows.flatten.length = m * (k * w) := by
    rw [length_flatten_eq hw, hrows, Nat.mul_assoc]
  have hcond : 0 < dims.prod ∧ t.rows.flatten.length % dims.prod = 0 := by
    rw [hdims, hlen]
    exact ⟨hpos, Nat.mul_mod_left m _⟩
  refine ⟨_, if_pos hcond, rfl, ?_⟩
  show pieces dims.prod t.rows.flatten = _
  rw [pieces, hdims, hlen, Nat.mul_div_cancel m hpos]
  refine List.map_congr_left fun j _ => ?_
  rw [← Nat.mul_assoc, ← Nat.mul_assoc, List.extract_flatten hw]

/-- Flattening the rows of a tensor changes its shape only. -/
theorem reshape_flatten {t : Tensor α} {w : ℕ} (ht : t.trailing.prod = w) (hpos : 0 < w) :
    ∃ t', t.reshape [w] = some t' ∧ t'.trailing = [w] ∧ t'.rows = t.rows := by
  have hw : ∀ row ∈ t.rows, row.length = w := fun row hrow => (t.length_eq row hrow).trans ht
  have hcond : 0 < [w].prod ∧ t.rows.flatten.length % [w].prod = 0 := by
    rw [List.prod_singleton, length_flatten_eq hw]
    exact ⟨hpos, Nat.mul_mod_left _ _⟩
  refine ⟨_, if_pos hcond, rfl, ?_⟩
  show pieces [w].prod t.rows.flatten = _
  rw [pieces, List.prod_singleton, length_flatten_eq hw, Nat.mul_div_cancel _ hpos]
  refine List.ext_getElem? fun j => ?_
  rcases Nat.lt_or_ge j t.rows.length with hj | hj
  · have hone : j + 1 - j = 1 := by omega
    rw [List.getElem?_map, List.getElem?_range hj, Option.map_some, List.extract_flatten hw,
      List.extract_eq_take_drop, List.drop_eq_getElem_cons hj, hone, List.getElem?_eq_getElem hj,
      List.take_succ_cons, List.take_zero, List.flatten_cons, List.flatten_nil, List.append_nil]
  · simp [hj]

end Tensor

/-! ### Slots written in any order -/

section Slots

variable {α : Type}

/-- Writing `f i` to slot `i` for each `i` of a list sets those slots and no others. -/
theorem getElem?_foldl_set (f : ℕ → α) (order : List ℕ) (slots : List α) (j : ℕ) :
    (order.foldl (fun slots i => slots.set i (f i)) slots)[j]? =
      if j ∈ order ∧ j < slots.length then some (f j) else slots[j]? := by
  induction order generalizing slots with
  | nil => simp
  | cons i order ih =>
      -- slot `i` is written first and, with the same value, once more if it occurs again
      rw [List.foldl_cons, ih, List.length_set, List.getElem?_set]
      by_cases hij : i = j
      · subst hij
        by_cases hlt : i < slots.length <;> simp [hlt]
      · have hji : ¬j = i := fun h => hij h.symm
        simp [hij, hji]

/-- Slots written once each, in any order, hold what was written. -/
theorem foldl_set_of_perm {f : ℕ → α} {order : List ℕ} {slots : List α} {n : ℕ}
    (hlen : slots.length = n) (h : order.Perm (List.range n)) :
    order.foldl (fun slots i => slots.set i (f i)) slots = (List.range n).map f := by
  subst hlen
  refine List.ext_getElem? fun j => ?_
  simp only [getElem?_foldl_set, h.mem_iff, List.mem_range]
  by_cases hj : j < slots.length <;> simp [hj]

variable {ε : Type}

/-- Computing and writing slots one after the other succeeds when every computation does. -/
theorem foldlM_set_eq_ok_iff {h : ℕ → Except ε α} {order : List ℕ}
    {slots slots' : List (Option α)} :
    order.foldlM (fun slots i => do let x ← h i; return slots.set i (some x)) slots = .ok slots' ↔
      (∀ i ∈ order, (h i).isOk = true) ∧
        slots' = order.foldl (fun slots i => slots.set i (h i).toOption) slots := by
  induction order generalizing slots with
  | nil =>
      constructor
      · intro h
        cases h
        exact ⟨nofun, rfl⟩
      · rintro ⟨-, rfl⟩
        rfl
  | cons i order ih =>
      rw [List.foldlM_cons, List.foldl_cons]
      cases hi : h i with
      | error e => simp [bind, Except.bind, hi, Except.isOk, Except.toBool]
      | ok x =>
          have hstep : (do let x ← (.ok x : Except ε α); return slots.set i (some x)) =
              (.ok (slots.set i (some x)) : Except ε (List (Option α))) := rfl
          rw [hstep]
          show List.foldlM _ (slots.set i (some x)) order = _ ↔ _
          rw [ih]
          simp [hi, Except.isOk, Except.toBool, Except.toOption]

/-- A vector of slots that are all filled. -/
theorem mapM_id_eq_some_iff {xs : List (Option α)} {ys : List α} :
    xs.mapM id = some ys ↔ xs = ys.map some := by
  induction xs generalizing ys with
  | nil => cases ys <;> simp
  | cons x xs ih =>
      cases x with
      | none => cases ys <;> simp
      | some x =>
          rw [List.mapM_cons]
          simp only [id, Option.bind_eq_bind, Option.bind_some, Option.bind_eq_some_iff, ih,
            Option.pure_def, Option.some.injEq]
          constructor
          · rintro ⟨zs, rfl, rfl⟩
            rfl
          · intro h
            cases ys with
            | nil => cases h
            | cons y ys =>
                cases h
                exact ⟨ys, rfl, rfl⟩

/-- Pieces of `b` elements, the last of them possibly shorter, make up the list. -/
theorem flatten_extract_range {xs : List α} {b : ℕ} (hb : 0 < b) :
    ((List.range ((xs.length + b - 1) / b)).map fun i =>
      xs.extract (i * b) (min (i * b + b) xs.length)).flatten = xs := by
  -- the first `m` pieces make up the first `m * b` elements
  have hfront : ∀ m, ((List.range m).map fun i =>
      xs.extract (i * b) (min (i * b + b) xs.length)).flatten = xs.take (m * b) := by
    intro m
    induction m with
    | zero => simp
    | succ m ih =>
        have hmul : (m + 1) * b = m * b + b := by ring
        rw [List.range_succ, List.map_append, List.flatten_append, ih, hmul, List.take_add]
        simp only [List.map_cons, List.map_nil, List.flatten_cons, List.flatten_nil,
          List.append_nil, List.append_cancel_left_eq, List.extract_eq_take_drop]
        rw [← List.take_length (l := xs.drop (m * b)), List.take_take, List.take_take]
        congr 1
        rw [List.length_drop]
        omega
  rw [hfront, List.take_of_length_le]
  have hdiv := Nat.lt_div_mul_add (a := xs.length + b - 1) hb
  omega

end Slots
