import Mathlib.Combinatorics.Enumerative.DoubleCounting
import Mathlib.Data.Fintype.Card

/-!
# Pools of exclusive resources

A `Pool` has resources that are idle and clients, each of which holds at most one resource. A client
takes an idle resource, gives back the one it holds, or brings a new one into the pool.

* `Pool.Exclusive` : no resource is in two places.
* `Pool.Has` : which resources there are.
* `Pool.Reuse` : the steps that make no new resource; `Reuse.has_iff` says that they lose none.
* `Pool.OnDemand` : how many there are when new ones are made only while none is idle.
-/

/-- What is idle in a pool and what each client holds. -/
structure Pool (κ ρ : Type*) where
  idle : Multiset ρ
  held : κ → Option ρ

namespace Pool

variable {κ ρ : Type*}

/-- The resource is idle, or some client holds it. -/
def Has (P : Pool κ ρ) (r : ρ) : Prop := r ∈ P.idle ∨ ∃ k, P.held k = some r

/-- No resource is in two places. -/
structure Exclusive (P : Pool κ ρ) : Prop where
  nodup : P.idle.Nodup
  notMem_idle : ∀ {k r}, P.held k = some r → r ∉ P.idle
  holder_unique : ∀ {k k' r}, P.held k = some r → P.held k' = some r → k = k'

/-- At first nothing is held. -/
def initial (idle : Multiset ρ) : Pool κ ρ := ⟨idle, fun _ => none⟩

theorem exclusive_initial {idle : Multiset ρ} (h : idle.Nodup) :
    (initial idle : Pool κ ρ).Exclusive where
  nodup := h
  notMem_idle hk := by cases hk
  holder_unique hk := by cases hk

@[simp]
theorem has_initial {idle : Multiset ρ} {r : ρ} :
    (initial idle : Pool κ ρ).Has r ↔ r ∈ idle := by
  simp [Has, initial]

/-- Clients that hold resources of a finite set are at most as many as these. -/
theorem Exclusive.card_le {P : Pool κ ρ} (hP : P.Exclusive) {K : Finset κ} {R : Finset ρ}
    (hK : ∀ k ∈ K, ∃ r ∈ R, P.held k = some r) : K.card ≤ R.card :=
  Finset.card_le_card_of_forall_subsingleton (fun k r => P.held k = some r) hK
    fun _ _ _ hk _ hk' => hP.holder_unique hk.2 hk'.2

variable [DecidableEq κ]

/-- The client `k` comes to hold the resource `r`, which is not idle any more. -/
def take [DecidableEq ρ] (P : Pool κ ρ) (k : κ) (r : ρ) : Pool κ ρ where
  idle := P.idle.erase r
  held := Function.update P.held k (some r)

/-- The client `k` gives `r` back. -/
def give (P : Pool κ ρ) (k : κ) (r : ρ) : Pool κ ρ where
  idle := r ::ₘ P.idle
  held := Function.update P.held k none

/-- The client `k` holds the new resource `r`. -/
def create (P : Pool κ ρ) (k : κ) (r : ρ) : Pool κ ρ where
  idle := P.idle
  held := Function.update P.held k (some r)

/-- A step that makes no new resource. -/
inductive Reuse [DecidableEq ρ] (P : Pool κ ρ) : Pool κ ρ → Prop where
  | stay : Reuse P P
  | take {k : κ} {r : ρ} (hk : P.held k = none) (hr : r ∈ P.idle) : Reuse P (P.take k r)
  | give {k : κ} {r : ρ} (hk : P.held k = some r) : Reuse P (P.give k r)

/-- Who holds what after one client's hand has changed. -/
theorem update_eq_some {held : κ → Option ρ} {k k' : κ} {o : Option ρ} {r : ρ} :
    Function.update held k o k' = some r ↔ k' = k ∧ o = some r ∨ k' ≠ k ∧ held k' = some r := by
  by_cases hk : k' = k
  · subst hk
    simp
  · simp [hk]

/-! ### Exclusion -/

/-- A resource that no client holds can be handed to one. -/
theorem Exclusive.hand {P : Pool κ ρ} (hP : P.Exclusive) {k : κ} {r : ρ} {idle : Multiset ρ}
    (hidle : idle ≤ P.idle) (hr : r ∉ idle) (hheld : ∀ k, P.held k ≠ some r) :
    Exclusive ⟨idle, Function.update P.held k (some r)⟩ where
  nodup := Multiset.nodup_of_le hidle hP.nodup
  notMem_idle {k' x} h := by
    obtain ⟨-, hx⟩ | ⟨-, hx⟩ := update_eq_some.mp h
    · exact Option.some.inj hx ▸ hr
    · exact fun hmem => hP.notMem_idle hx (Multiset.mem_of_le hidle hmem)
  holder_unique {k₁ k₂ x} h₁ h₂ := by
    obtain ⟨rfl, hx₁⟩ | ⟨-, hx₁⟩ := update_eq_some.mp h₁ <;>
      obtain ⟨rfl, hx₂⟩ | ⟨-, hx₂⟩ := update_eq_some.mp h₂
    · rfl
    · exact absurd (hx₁ ▸ hx₂) (hheld k₂)
    · exact absurd (hx₂ ▸ hx₁) (hheld k₁)
    · exact hP.holder_unique hx₁ hx₂

theorem Exclusive.take [DecidableEq ρ] {P : Pool κ ρ} (hP : P.Exclusive) {k : κ} {r : ρ}
    (hr : r ∈ P.idle) : (P.take k r).Exclusive := by
  refine hP.hand (Multiset.erase_le r P.idle) ?_ fun k' hk' => hP.notMem_idle hk' hr
  exact fun hmem => (hP.nodup.mem_erase_iff.mp hmem).1 rfl

theorem Exclusive.give {P : Pool κ ρ} (hP : P.Exclusive) {k : κ} {r : ρ}
    (hk : P.held k = some r) : (P.give k r).Exclusive where
  nodup := Multiset.nodup_cons.mpr ⟨hP.notMem_idle hk, hP.nodup⟩
  notMem_idle {k' x} h := by
    obtain ⟨-, hx⟩ | ⟨hne, hx⟩ := update_eq_some.mp h
    · cases hx
    · rw [Pool.give, Multiset.mem_cons, not_or]
      -- the client that has given `r` back was its only holder
      refine ⟨?_, hP.notMem_idle hx⟩
      rintro rfl
      exact hne (hP.holder_unique hx hk)
  holder_unique {k₁ k₂ x} h₁ h₂ := by
    obtain ⟨-, hx₁⟩ | ⟨-, hx₁⟩ := update_eq_some.mp h₁
    · cases hx₁
    obtain ⟨-, hx₂⟩ | ⟨-, hx₂⟩ := update_eq_some.mp h₂
    · cases hx₂
    exact hP.holder_unique hx₁ hx₂

theorem Exclusive.create {P : Pool κ ρ} (hP : P.Exclusive) {k : κ} {r : ρ} (hr : ¬P.Has r) :
    (P.create k r).Exclusive :=
  hP.hand le_rfl (fun hmem => hr (.inl hmem)) fun k' hk' => hr (.inr ⟨k', hk'⟩)

theorem Reuse.exclusive [DecidableEq ρ] {P Q : Pool κ ρ} (h : P.Reuse Q) (hP : P.Exclusive) :
    Q.Exclusive := by
  cases h with
  | stay => exact hP
  | take hk hr => exact hP.take hr
  | give hk => exact hP.give hk

/-! ### The resources -/

theorem has_take [DecidableEq ρ] {P : Pool κ ρ} {k : κ} {r x : ρ} (hk : P.held k = none)
    (hr : r ∈ P.idle) : (P.take k r).Has x ↔ P.Has x := by
  constructor
  · rintro (hmem | ⟨k', hk'⟩)
    · exact .inl (Multiset.mem_of_mem_erase hmem)
    · obtain ⟨-, hx⟩ | ⟨-, hx⟩ := update_eq_some.mp hk'
      · exact .inl (Option.some.inj hx ▸ hr)
      · exact .inr ⟨k', hx⟩
  · rintro (hmem | ⟨k', hk'⟩)
    · by_cases hx : x = r
      · exact .inr ⟨k, update_eq_some.mpr (.inl ⟨rfl, congrArg some hx.symm⟩)⟩
      · exact .inl ((Multiset.mem_erase_of_ne hx).mpr hmem)
    · -- the client that takes `r` has held nothing before
      have hne : k' ≠ k := by
        rintro rfl
        cases hk.symm.trans hk'
      exact .inr ⟨k', update_eq_some.mpr (.inr ⟨hne, hk'⟩)⟩

theorem has_give {P : Pool κ ρ} {k : κ} {r x : ρ} (hk : P.held k = some r) :
    (P.give k r).Has x ↔ P.Has x := by
  constructor
  · rintro (hmem | ⟨k', hk'⟩)
    · obtain rfl | hmem := Multiset.mem_cons.mp hmem
      · exact .inr ⟨k, hk⟩
      · exact .inl hmem
    · obtain ⟨-, hx⟩ | ⟨-, hx⟩ := update_eq_some.mp hk'
      · cases hx
      · exact .inr ⟨k', hx⟩
  · rintro (hmem | ⟨k', hk'⟩)
    · exact .inl (Multiset.mem_cons_of_mem hmem)
    · by_cases hne : k' = k
      · -- it is `r`, which is idle now
        subst hne
        exact .inl (Multiset.mem_cons.mpr (.inl (Option.some.inj (hk'.symm.trans hk))))
      · exact .inr ⟨k', update_eq_some.mpr (.inr ⟨hne, hk'⟩)⟩

/-- No resource is lost. -/
theorem Reuse.has_iff [DecidableEq ρ] {P Q : Pool κ ρ} (h : P.Reuse Q) {x : ρ} :
    Q.Has x ↔ P.Has x := by
  cases h with
  | stay => rfl
  | take hk hr => exact has_take hk hr
  | give hk => exact has_give hk

theorem has_create {P : Pool κ ρ} {k : κ} {r x : ρ} (hk : P.held k = none) :
    (P.create k r).Has x ↔ x = r ∨ P.Has x := by
  constructor
  · rintro (hmem | ⟨k', hk'⟩)
    · exact .inr (.inl hmem)
    · obtain ⟨-, hx⟩ | ⟨-, hx⟩ := update_eq_some.mp hk'
      · exact .inl (Option.some.inj hx).symm
      · exact .inr (.inr ⟨k', hx⟩)
  · rintro (rfl | hmem | ⟨k', hk'⟩)
    · exact .inr ⟨k, update_eq_some.mpr (.inl ⟨rfl, rfl⟩)⟩
    · exact .inl hmem
    · have hne : k' ≠ k := by
        rintro rfl
        cases hk.symm.trans hk'
      exact .inr ⟨k', update_eq_some.mpr (.inr ⟨hne, hk'⟩)⟩

/-! ### Counting -/

section Count

variable [Fintype κ]

/-- The number of clients that hold a resource. -/
def heldCount (P : Pool κ ρ) : ℕ := (Finset.univ.filter fun k => (P.held k).isSome).card

omit [DecidableEq κ] in
@[simp]
theorem heldCount_initial (idle : Multiset ρ) : (initial idle : Pool κ ρ).heldCount = 0 := by
  simp [heldCount, initial]

/-- One more client holds something. -/
theorem card_update_some (held : κ → Option ρ) {k : κ} (hk : held k = none) (r : ρ) :
    (Finset.univ.filter fun k' => (Function.update held k (some r) k').isSome).card =
      (Finset.univ.filter fun k' => (held k').isSome).card + 1 := by
  have hset : (Finset.univ.filter fun k' => (Function.update held k (some r) k').isSome) =
      insert k (Finset.univ.filter fun k' => (held k').isSome) := by
    ext k'
    by_cases hne : k' = k
    · simp [hne]
    · simp [hne]
  rw [hset, Finset.card_insert_of_notMem (by simp [hk])]

theorem heldCount_take [DecidableEq ρ] {P : Pool κ ρ} {k : κ} (hk : P.held k = none) (r : ρ) :
    (P.take k r).heldCount = P.heldCount + 1 :=
  card_update_some P.held hk r

theorem heldCount_create {P : Pool κ ρ} {k : κ} (hk : P.held k = none) (r : ρ) :
    (P.create k r).heldCount = P.heldCount + 1 :=
  card_update_some P.held hk r

theorem heldCount_give {P : Pool κ ρ} {k : κ} {r : ρ} (hk : P.held k = some r) :
    (P.give k r).heldCount + 1 = P.heldCount := by
  -- the client that gives `r` back could take it again
  have hagain := card_update_some (P.give k r).held (Function.update_self ..) r
  rw [show (P.give k r).held = Function.update P.held k none from rfl, Function.update_idem,
    ← hk, Function.update_eq_self] at hagain
  exact hagain.symm

/-- The pool had `size` resources at first, `created` have been made in all, and at most `peak` were
held at a time. -/
structure OnDemand (P : Pool κ ρ) (size created peak : ℕ) : Prop where
  total : P.idle.card + P.heldCount = created
  created_eq : created = max size peak
  heldCount_le : P.heldCount ≤ peak

theorem OnDemand.take [DecidableEq ρ] {P : Pool κ ρ} {size created peak : ℕ}
    (hP : P.OnDemand size created peak) {k : κ} {r : ρ} (hk : P.held k = none) (hr : r ∈ P.idle) :
    (P.take k r).OnDemand size created (max peak (P.take k r).heldCount) := by
  have hcard : (P.take k r).idle.card + 1 = P.idle.card := Multiset.card_erase_add_one hr
  have hcount := heldCount_take hk r
  have htotal := hP.total
  have hcreated := hP.created_eq
  refine ⟨by omega, ?_, le_max_right _ _⟩
  -- the new number held is at most what has been made
  have hle : (P.take k r).heldCount ≤ max size peak := by omega
  rw [← max_assoc, ← hcreated]
  omega

theorem OnDemand.give {P : Pool κ ρ} {size created peak : ℕ} (hP : P.OnDemand size created peak)
    {k : κ} {r : ρ} (hk : P.held k = some r) :
    (P.give k r).OnDemand size created (max peak (P.give k r).heldCount) := by
  have hcard : (P.give k r).idle.card = P.idle.card + 1 := Multiset.card_cons _ _
  have hcount := heldCount_give hk
  have htotal := hP.total
  have hle := hP.heldCount_le
  have hpeak : max peak (P.give k r).heldCount = peak := by omega
  exact ⟨by omega, by rw [hpeak, hP.created_eq], le_max_right _ _⟩

/-- A new resource is made only when none is idle, that is when all that have been made are
held. -/
theorem OnDemand.create {P : Pool κ ρ} {size created peak : ℕ} (hP : P.OnDemand size created peak)
    {k : κ} (hk : P.held k = none) (hidle : P.idle = 0) (r : ρ) :
    (P.create k r).OnDemand size (created + 1) (max peak (P.create k r).heldCount) := by
  have hcount := heldCount_create hk r
  have htotal := hP.total
  have hcreated := hP.created_eq
  have hcard : P.idle.card = 0 := by rw [hidle, Multiset.card_zero]
  refine ⟨?_, by omega, le_max_right _ _⟩
  show P.idle.card + _ = _
  omega

theorem Reuse.onDemand [DecidableEq ρ] {P Q : Pool κ ρ} (h : P.Reuse Q) {size created peak : ℕ}
    (hP : P.OnDemand size created peak) : Q.OnDemand size created (max peak Q.heldCount) := by
  cases h with
  | stay =>
      rw [max_eq_left hP.heldCount_le]
      exact hP
  | take hk hr => exact hP.take hk hr
  | give hk => exact hP.give hk

end Count

end Pool
