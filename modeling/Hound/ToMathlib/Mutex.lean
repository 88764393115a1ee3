import Mathlib.Logic.Basic

/-!
# Mutexes in state machines

A mutex is an optional owner. In a program with program points, a thread holds a mutex between
the point behind its `lock` and the point of its `unlock`. `Mutex.Owned` says that the two views
agree; it is kept by every step that is a `Mutex.StepBy`.

* `Mutex.Owned.unique` : mutual exclusion.
* `Mutex.Owned.step` : the step rule.
-/

namespace Mutex

variable {ω : Type*}

/-- The threads at a point where they hold the mutex are those that own it. -/
def Owned (owner : Option ω) (holds : ω → Bool) : Prop :=
  ∀ w, holds w = true ↔ owner = some w

/-- At most one thread holds the mutex. -/
theorem Owned.unique {owner : Option ω} {holds : ω → Bool} (h : Owned owner holds) {v w : ω}
    (hv : holds v = true) (hw : holds w = true) : v = w := by
  have hsome : some v = some w := ((h v).mp hv).symm.trans ((h w).mp hw)
  exact Option.some.inj hsome

/-- What a step of thread `w` may do to the mutex and to its own claim to it. -/
inductive StepBy (w : ω) (owner : Option ω) (holds : Bool) : Option ω → Bool → Prop
  | lock (hfree : owner = none) : StepBy w owner holds (some w) true
  | unlock (hheld : holds = true) : StepBy w owner holds none false
  | keep : StepBy w owner holds owner holds

/-- A step of `w` that leaves the points of the other threads alone keeps `Owned`. -/
theorem Owned.step {owner owner' : Option ω} {holds holds' : ω → Bool} (h : Owned owner holds)
    {w : ω} (hstep : StepBy w owner (holds w) owner' (holds' w))
    (hothers : ∀ v, v ≠ w → holds' v = holds v) : Owned owner' holds' := by
  intro v
  rcases eq_or_ne v w with rfl | hne
  · -- the thread that takes the step
    generalize hclaim : holds' v = claim at hstep ⊢
    cases hstep with
    | lock => simp
    | unlock => simp
    | keep => exact h v
  · -- another thread
    rw [hothers v hne]
    generalize holds' w = claim at hstep
    cases hstep with
    | lock hfree =>
        rw [h v, hfree]
        simp [Ne.symm hne]
    | unlock hheld =>
        have howner := (h w).mp hheld
        rw [h v, howner]
        simp [Ne.symm hne]
    | keep => exact h v

end Mutex
