import Mathlib.Algebra.Order.BigOperators.Group.Finset
import Mathlib.Logic.Relation
import Mathlib.Order.Lattice
import Mathlib.Data.List.Basic

/-!
# Machines with a partial step

A `Machine` has one initial state and a step function that returns `none` when an action is
not enabled. A schedule is a list of actions; `run` executes it.

* `Machine.run_induction_rest` : what every step keeps of the state and the actions to come holds at
  the end of a run.
* `Machine.Reachable` : the states some schedule leads to.
* `Machine.Reachable.invariant` : what holds initially and is kept by every step holds of
  every reachable state.
* `Machine.Later.stable` : the same for the states after a given one.
* `Machine.StepsMeet` : runs whose steps all meet a condition on the state before the step;
  `StepsMeet.run_induction` is their induction rule and `StepsMeet.of_not` recognises them.
* `Machine.Throughout` : what holds in every state of a run.
* `Machine.peak` : the largest value of a measure in the states of a run.
* `Machine.Terminates` : runs that come to an end, whatever the schedule; `Terminates.of_measure` is
  their rule.
* `Machine.exists_run_of_measure` : the rule for what some schedule leads to.
* `Machine.LaterBy` : what schedules of some of the actions lead to.
* `Machine.run_map` : the runs of a machine inside another.
* `Machine.StepsMeet.lift` : the same for runs whose steps all meet a condition.
* `Machine.Reachable.map` : the abstraction of a machine by another.
* `Machine.Reachable.simulation` : the same with a relation between the states, and with runs of the
  other machine for single steps.
-/

/-- An update that a function does not see. -/
theorem comp_update_of_eq {ι α β : Type*} [DecidableEq ι] {f : α → β} {g : ι → α} {i : ι} {a : α}
    (h : f a = f (g i)) : f ∘ Function.update g i a = f ∘ g := by
  rw [Function.comp_update, h]
  exact Function.update_eq_self i (f ∘ g)

/-- Sums that differ in one term. -/
theorem sum_add_eq_sum_add_of_forall_ne {ι : Type*} [DecidableEq ι] {F : Finset ι} {f g : ι → ℕ}
    {i : ι} (hi : i ∈ F) (hsame : ∀ j, j ≠ i → f j = g j) :
    ∑ j ∈ F, f j + g i = ∑ j ∈ F, g j + f i := by
  have hrest : ∑ j ∈ F.erase i, f j = ∑ j ∈ F.erase i, g j :=
    Finset.sum_congr rfl fun j hj => hsame j (Finset.ne_of_mem_erase hj)
  rw [← Finset.add_sum_erase F f hi, ← Finset.add_sum_erase F g hi]
  omega

/-- When one term of a sum goes down and the others stay, so does the sum. -/
theorem sum_add_le_sum_of_forall_ne {ι : Type*} [DecidableEq ι] {F : Finset ι} {f g : ι → ℕ}
    {i : ι} {d : ℕ} (hi : i ∈ F) (hle : f i + d ≤ g i) (hsame : ∀ j, j ≠ i → f j = g j) :
    ∑ j ∈ F, f j + d ≤ ∑ j ∈ F, g j := by
  have hsum := sum_add_eq_sum_add_of_forall_ne hi hsame
  omega

/-- A state machine with labelled, partial steps. -/
structure Machine (σ α : Type*) where
  /-- The initial state. -/
  init : σ
  /-- `step s a` is the state after action `a`, or `none` if `a` is not enabled in `s`. -/
  step : σ → α → Option σ

namespace Machine

variable {σ α : Type*} (M : Machine σ α)

/-- Execute a schedule from a state. -/
def run : σ → List α → Option σ
  | s, [] => some s
  | s, a :: as => (M.step s a).bind fun s' => run s' as

@[simp]
theorem run_nil (s : σ) : M.run s [] = some s := rfl

theorem run_cons (s : σ) (a : α) (as : List α) :
    M.run s (a :: as) = (M.step s a).bind fun s' => M.run s' as := rfl

/-- A schedule with a first action runs exactly when that action is enabled and the rest runs
from the state it leads to. -/
theorem run_cons_eq_some {s s' : σ} {a : α} {as : List α} :
    M.run s (a :: as) = some s' ↔ ∃ t, M.step s a = some t ∧ M.run t as = some s' := by
  rw [run_cons, Option.bind_eq_some_iff]

/-- Running two schedules one after the other. -/
theorem run_append (s : σ) (as bs : List α) :
    M.run s (as ++ bs) = (M.run s as).bind fun s' => M.run s' bs := by
  induction as generalizing s with
  | nil => rfl
  | cons a as ih =>
      rw [List.cons_append, run_cons, run_cons, Option.bind_assoc]
      congr 1
      funext t
      exact ih t

/-- `s` is the state after some schedule. -/
def Reachable (s : σ) : Prop := ∃ as, M.run M.init as = some s

/-- `t` is a state after some schedule that starts in `s`. -/
def Later (s t : σ) : Prop := ∃ as, M.run s as = some t

variable {M}

theorem Reachable.init : M.Reachable M.init := ⟨[], rfl⟩

theorem Later.refl (s : σ) : M.Later s s := ⟨[], rfl⟩

theorem Later.head {s t u : σ} {a : α} (hstep : M.step s a = some t) (h : M.Later t u) :
    M.Later s u := by
  obtain ⟨as, has⟩ := h
  exact ⟨a :: as, M.run_cons_eq_some.mpr ⟨t, hstep, has⟩⟩

theorem Later.single {s t : σ} {a : α} (hstep : M.step s a = some t) : M.Later s t :=
  Later.head hstep (Later.refl t)

/-- A state later than a reachable one is reachable. -/
theorem Reachable.later {s t : σ} (hs : M.Reachable s) (h : M.Later s t) : M.Reachable t := by
  obtain ⟨as, has⟩ := hs
  obtain ⟨bs, hbs⟩ := h
  exact ⟨as ++ bs, by rw [run_append, has, Option.bind_some, hbs]⟩

theorem Reachable.step {s t : σ} {a : α} (hs : M.Reachable s) (hstep : M.step s a = some t) :
    M.Reachable t :=
  hs.later (Later.single hstep)

/-- What every step keeps of the state and the actions to come, every schedule keeps. -/
theorem run_induction_rest {P : List α → σ → Prop}
    (hstep : ∀ a as s t, P (a :: as) s → M.step s a = some t → P as t) :
    ∀ (as : List α) (s t : σ), P as s → M.run s as = some t → P [] t
  | [], s, t, hs, h => by
      rw [run_nil, Option.some.injEq] at h
      exact h ▸ hs
  | a :: as, s, t, hs, h => by
      obtain ⟨u, hu, hrest⟩ := M.run_cons_eq_some.mp h
      exact run_induction_rest hstep as u t (hstep a as s u hs hu) hrest

/-- What every step keeps, every schedule keeps. -/
theorem run_induction {P : σ → Prop} (hstep : ∀ s a t, P s → M.step s a = some t → P t)
    (as : List α) (s t : σ) (hs : P s) (h : M.run s as = some t) : P t :=
  run_induction_rest (P := fun _ => P) (fun a _ s t => hstep s a t) as s t hs h

/-- What holds in `s` and is kept by every step holds in every later state. -/
theorem Later.stable {P : σ → Prop} {s t : σ} (h : M.Later s t) (hs : P s)
    (hstep : ∀ s a t, P s → M.step s a = some t → P t) : P t := by
  obtain ⟨as, has⟩ := h
  exact run_induction hstep as s t hs has

/-- What holds initially and is kept by every step holds in every reachable state. -/
theorem Reachable.invariant {P : σ → Prop} {s : σ} (h : M.Reachable s) (hinit : P M.init)
    (hstep : ∀ s a t, P s → M.step s a = some t → P t) : P s := by
  obtain ⟨as, has⟩ := h
  exact run_induction hstep as M.init s hinit has

/-- An invariant may be proved with an already established one at hand. -/
theorem Reachable.invariant_of {I P : σ → Prop} {s : σ} (h : M.Reachable s)
    (hI : ∀ s, M.Reachable s → I s) (hinit : P M.init)
    (hstep : ∀ s a t, I s → P s → M.step s a = some t → P t) : P s := by
  have hboth : M.Reachable s ∧ P s :=
    h.invariant (P := fun s => M.Reachable s ∧ P s) ⟨Reachable.init, hinit⟩
      fun s a t hs hst => ⟨hs.1.step hst, hstep s a t (hI s hs.1) hs.2 hst⟩
  exact hboth.2

/-- The same for what reachable states keep. -/
theorem Later.stable_of_reachable {P : σ → Prop} {s t : σ} (h : M.Later s t)
    (hreach : M.Reachable s) (hs : P s)
    (hstep : ∀ s a t, M.Reachable s → P s → M.step s a = some t → P t) : P t := by
  have hboth : M.Reachable t ∧ P t :=
    h.stable (P := fun s => M.Reachable s ∧ P s) ⟨hreach, hs⟩
      fun s a t hs hst => ⟨hs.1.step hst, hstep s a t hs.1 hs.2 hst⟩
  exact hboth.2

/-- A run that comes to have a property has a step that establishes it. -/
theorem exists_step_of_run {P : σ → Prop} :
    ∀ (as : List α) {s t : σ}, M.run s as = some t → ¬P s → P t →
      ∃ before a after u v, as = before ++ a :: after ∧ M.run s before = some u ∧ ¬P u ∧
        M.step u a = some v ∧ P v ∧ M.run v after = some t
  | [], s, t, h, hs, ht => by
      rw [run_nil, Option.some.injEq] at h
      exact absurd (h ▸ ht) hs
  | a :: as, s, t, h, hs, ht => by
      obtain ⟨u, hu, hrest⟩ := M.run_cons_eq_some.mp h
      by_cases hPu : P u
      -- the first step does it, or a later one
      · exact ⟨[], a, as, s, u, rfl, rfl, hs, hu, hPu, hrest⟩
      · obtain ⟨before, b, after, v, w, rfl, hv, hPv, hw, hPw, hafter⟩ :=
          exists_step_of_run as hrest hPu ht
        exact ⟨a :: before, b, after, v, w, rfl, M.run_cons_eq_some.mpr ⟨u, hu, hv⟩, hPv, hw,
          hPw, hafter⟩

section Guard

variable (M)

/-- Every step of a schedule meets the guard in the state it starts from. -/
def StepsMeet (guard : σ → α → Prop) : σ → List α → Prop
  | _, [] => True
  | s, a :: as => guard s a ∧ ∀ t, M.step s a = some t → StepsMeet guard t as

variable {M}

/-- What every step that meets the guard keeps, every run of such steps keeps. -/
theorem StepsMeet.run_induction {guard : σ → α → Prop} {P : σ → Prop}
    (hstep : ∀ s a t, M.Reachable s → P s → guard s a → M.step s a = some t → P t) :
    ∀ (as : List α) {s t : σ}, M.Reachable s → M.StepsMeet guard s as → P s →
      M.run s as = some t → P t
  | [], s, t, _, _, hs, h => by
      rw [run_nil, Option.some.injEq] at h
      exact h ▸ hs
  | a :: as, s, t, hreach, hmeet, hs, h => by
      obtain ⟨u, hu, hrest⟩ := M.run_cons_eq_some.mp h
      exact StepsMeet.run_induction hstep as (hreach.step hu) (hmeet.2 u hu)
        (hstep s a u hreach hs hmeet.1 hu) hrest

/-- The first step meets the condition, and so do those from the state it leads to on. -/
theorem StepsMeet.cons {guard : σ → α → Prop} {as : List α} {s t : σ} {a : α} (hguard : guard s a)
    (hstep : M.step s a = some t) (hrest : M.StepsMeet guard t as) :
    M.StepsMeet guard s (a :: as) := by
  refine ⟨hguard, fun u hu => ?_⟩
  rw [hstep] at hu
  obtain rfl := Option.some.inj hu
  exact hrest

/-- A guard may be replaced by one that follows from it. -/
theorem StepsMeet.imp {guard guard' : σ → α → Prop} (h : ∀ s a, guard s a → guard' s a) :
    ∀ (as : List α) {s : σ}, M.StepsMeet guard s as → M.StepsMeet guard' s as
  | [], _, _ => trivial
  | a :: as, s, hmeet => ⟨h s a hmeet.1, fun t ht => StepsMeet.imp h as (hmeet.2 t ht)⟩

/-- A condition on the actions alone that implies the guard. -/
theorem StepsMeet.of_forall_mem {guard : σ → α → Prop} {ok : α → Prop}
    (h : ∀ s a, ok a → guard s a) :
    ∀ {as : List α} {s : σ}, (∀ a ∈ as, ok a) → M.StepsMeet guard s as
  | [], _, _ => trivial
  | a :: as, s, hok => by
      obtain ⟨ha, has⟩ := List.forall_mem_cons.mp hok
      exact ⟨h s a ha, fun _ _ => StepsMeet.of_forall_mem h has⟩

/-- What an invariant implies of each step, the steps of a run meet. -/
theorem StepsMeet.of_run {guard : σ → α → Prop} {ok : α → Prop} {P : σ → Prop}
    (hstep : ∀ s a t, P s → ok a → M.step s a = some t → guard s a ∧ P t) :
    ∀ {as : List α} {s t : σ}, (∀ a ∈ as, ok a) → P s → M.run s as = some t →
      M.StepsMeet guard s as
  | [], _, _, _, _, _ => trivial
  | a :: as, s, t, hok, hs, h => by
      obtain ⟨ha, has⟩ := List.forall_mem_cons.mp hok
      obtain ⟨u, hu, hrest⟩ := M.run_cons_eq_some.mp h
      obtain ⟨hguard, hPu⟩ := hstep s a u hs ha hu
      exact .cons hguard hu (StepsMeet.of_run hstep has hPu hrest)

/-- A condition on the actions alone holds of all actions of a run. -/
theorem StepsMeet.forall_mem {ok : α → Prop} :
    ∀ {as : List α} {s t : σ}, M.StepsMeet (fun _ a => ok a) s as → M.run s as = some t →
      ∀ a ∈ as, ok a
  | [], _, _, _, _ => List.forall_mem_nil ok
  | a :: as, s, t, hmeet, h => by
      obtain ⟨u, hu, hrest⟩ := M.run_cons_eq_some.mp h
      exact List.forall_mem_cons.mpr ⟨hmeet.1, StepsMeet.forall_mem (hmeet.2 u hu) hrest⟩

/-- Two runs of such steps make one. -/
theorem StepsMeet.append {guard : σ → α → Prop} {bs : List α} :
    ∀ {as : List α} {s t : σ}, M.StepsMeet guard s as → M.run s as = some t →
      M.StepsMeet guard t bs → M.StepsMeet guard s (as ++ bs)
  | [], s, t, _, h, hbs => by
      rw [run_nil, Option.some.injEq] at h
      exact h ▸ hbs
  | a :: as, s, t, has, h, hbs => by
      obtain ⟨u, hu, hrest⟩ := M.run_cons_eq_some.mp h
      refine ⟨has.1, fun v hv => ?_⟩
      rw [hu, Option.some.injEq] at hv
      exact hv ▸ StepsMeet.append (has.2 u hu) hrest hbs

variable (M)

/-- A schedule from a state can be checked step by step. -/
def check (ok : σ → α → Bool) : σ → List α → Bool
  | _, [] => true
  | s, a :: as => ok s a && match M.step s a with
      | none => true
      | some t => check ok t as

variable {M}

theorem StepsMeet.of_check {guard : σ → α → Prop} {ok : σ → α → Bool}
    (hok : ∀ s a, M.Reachable s → ok s a = true → guard s a) :
    ∀ (as : List α) {s : σ}, M.Reachable s → M.check ok s as = true → M.StepsMeet guard s as
  | [], _, _, _ => trivial
  | a :: as, s, hs, h => by
      rw [check, Bool.and_eq_true] at h
      refine ⟨hok s a hs h.1, fun t ht => StepsMeet.of_check hok as (hs.step ht) ?_⟩
      rw [ht] at h
      exact h.2

/-- If what a step that misses the guard does is never undone, a run after which it has not been
done consists of steps that meet the guard. -/
theorem StepsMeet.of_not {guard : σ → α → Prop} {B : σ → Prop}
    (hkeep : ∀ s a t, M.Reachable s → B s → M.step s a = some t → B t)
    (hmiss : ∀ s a t, M.Reachable s → ¬guard s a → M.step s a = some t → B t) :
    ∀ (as : List α) {s t : σ}, M.Reachable s → M.run s as = some t → ¬B t →
      M.StepsMeet guard s as
  | [], _, _, _, _, _ => trivial
  | a :: as, s, t, hs, h, hgood => by
      obtain ⟨u, hu, hrest⟩ := M.run_cons_eq_some.mp h
      have hreach := hs.step hu
      have hgoodu : ¬B u := fun hbad =>
        hgood (Later.stable_of_reachable ⟨as, hrest⟩ hreach hbad hkeep)
      refine ⟨by_contra fun hguard => hgoodu (hmiss s a u hs hguard hu), fun v hv => ?_⟩
      rw [hu, Option.some.injEq] at hv
      exact hv ▸ StepsMeet.of_not hkeep hmiss as hreach hrest hgood

variable (M)

/-- A property holds in every state a schedule passes through, the first and the last included. -/
def Throughout (P : σ → Prop) : σ → List α → Prop
  | s, [] => P s
  | s, a :: as => P s ∧ ∀ t, M.step s a = some t → Throughout P t as

variable {M}

/-- What holds throughout a run holds at its end. -/
theorem Throughout.last {P : σ → Prop} :
    ∀ (as : List α) {s t : σ}, M.Throughout P s as → M.run s as = some t → P t
  | [], s, t, hP, h => by
      rw [run_nil, Option.some.injEq] at h
      exact h ▸ hP
  | a :: as, s, t, hP, h => by
      obtain ⟨u, hu, hrest⟩ := M.run_cons_eq_some.mp h
      exact Throughout.last as (hP.2 u hu) hrest

/-- What an invariant implies holds throughout a run whose steps meet the guard under which the
invariant is kept. -/
theorem StepsMeet.throughout {guard : σ → α → Prop} {I P : σ → Prop}
    (hstep : ∀ s a t, M.Reachable s → I s → guard s a → M.step s a = some t → I t)
    (hP : ∀ s, I s → P s) :
    ∀ (as : List α) {s : σ}, M.Reachable s → M.StepsMeet guard s as → I s →
      M.Throughout P s as
  | [], _, _, _, hs => hP _ hs
  | a :: as, s, hreach, hmeet, hs => ⟨hP s hs, fun t ht =>
      StepsMeet.throughout hstep hP as (hreach.step ht) (hmeet.2 t ht)
        (hstep s a t hreach hs hmeet.1 ht)⟩

/-- If a step that misses the guard leads from a state with the property to one without it, a run
throughout which the property holds consists of steps that meet the guard. -/
theorem Throughout.stepsMeet_of_holds {guard : σ → α → Prop} {P : σ → Prop}
    (hmiss : ∀ s a t, P s → ¬guard s a → M.step s a = some t → ¬P t) :
    ∀ (as : List α) {s t : σ}, M.run s as = some t → M.Throughout P s as →
      M.StepsMeet guard s as
  | [], _, _, _, _ => trivial
  | a :: as, s, t, h, hP => by
      obtain ⟨u, hu, hrest⟩ := M.run_cons_eq_some.mp h
      have hPu : P u := by cases as with
        | nil => exact hP.2 u hu
        | cons => exact (hP.2 u hu).1
      refine ⟨by_contra fun hguard => hmiss s a u hP.1 hguard hu hPu, fun v hv => ?_⟩
      rw [hu, Option.some.injEq] at hv
      exact hv ▸ Throughout.stepsMeet_of_holds hmiss as hrest (hP.2 u hu)

theorem Throughout.stepsMeet {guard : σ → α → Prop} {P : σ → Prop}
    (hmiss : ∀ s a t, ¬guard s a → M.step s a = some t → ¬P t) (as : List α) {s t : σ}
    (h : M.run s as = some t) (hP : M.Throughout P s as) : M.StepsMeet guard s as :=
  Throughout.stepsMeet_of_holds (fun s a t _ => hmiss s a t) as h hP

end Guard

section Peak

variable (M)

/-- The largest value of `f` in the states a schedule passes through. -/
def peak (f : σ → ℕ) : σ → List α → ℕ
  | s, [] => f s
  | s, a :: as => max (f s) (match M.step s a with
      | none => 0
      | some t => peak f t as)

variable {M}

theorem le_peak (f : σ → ℕ) (s : σ) : ∀ as : List α, f s ≤ M.peak f s as
  | [] => le_rfl
  | _ :: _ => le_max_left _ _

/-- What every step keeps of the state and the largest value so far. -/
theorem run_induction_peak {f : σ → ℕ} {I : ℕ → σ → Prop}
    (hstep : ∀ p s a t, I p s → M.step s a = some t → I (max p (f t)) t) :
    ∀ (as : List α) {p : ℕ} {s t : σ}, I p s → f s ≤ p → M.run s as = some t →
      I (max p (M.peak f s as)) t
  | [], p, s, t, hs, hp, h => by
      rw [run_nil, Option.some.injEq] at h
      subst h
      rwa [peak, max_eq_left hp]
  | a :: as, p, s, t, hs, hp, h => by
      obtain ⟨u, hu, hrest⟩ := M.run_cons_eq_some.mp h
      have htail := run_induction_peak hstep as (hstep p s a u hs hu) (le_max_right _ _) hrest
      -- the value in `s` is not larger than `p`, the one in `u` counts in the rest
      have hpeak : max p (M.peak f s (a :: as)) = max (max p (f u)) (M.peak f u as) := by
        rw [peak, hu, ← max_assoc, max_eq_left hp, max_assoc, max_eq_right (le_peak f u as)]
      exact hpeak ▸ htail

end Peak

section Termination

variable (M)

/-- Schedules of the actions `ok` come to an end: there is a bound on their length, and where none
of these actions is enabled any more, `Q` holds. -/
def Terminates (ok : α → Prop) (Q : σ → Prop) (s : σ) : Prop :=
  ∃ bound, ∀ as t, (∀ a ∈ as, ok a) → M.run s as = some t →
    as.length ≤ bound ∧ ((∀ a, ok a → M.step t a = none) → Q t)

variable {M} {ok : α → Prop} {P Q : σ → Prop} {f : σ → ℕ}

/-- A measure that every step decreases bounds the length of a run. -/
theorem length_run_le (hstep : ∀ s a t, ok a → P s → M.step s a = some t → P t ∧ f t < f s) :
    ∀ {as : List α} {s t : σ}, (∀ a ∈ as, ok a) → P s → M.run s as = some t →
      P t ∧ as.length + f t ≤ f s
  | [], s, t, _, hs, h => by
      obtain rfl := Option.some.inj h
      exact ⟨hs, by simp⟩
  | a :: as, s, t, hok, hs, h => by
      obtain ⟨u, hu, hrest⟩ := M.run_cons_eq_some.mp h
      obtain ⟨hPu, hlt⟩ := hstep s a u (hok a List.mem_cons_self) hs hu
      obtain ⟨hPt, hle⟩ := length_run_le hstep
        (fun b hb => hok b (List.mem_cons_of_mem a hb)) hPu hrest
      rw [List.length_cons]
      exact ⟨hPt, by omega⟩

/-- The rule of termination: an invariant, a measure, and what holds where a run is stuck. -/
theorem Terminates.of_measure
    (hstep : ∀ s a t, ok a → P s → M.step s a = some t → P t ∧ f t < f s)
    (hstuck : ∀ s, P s → (∀ a, ok a → M.step s a = none) → Q s) {s : σ} (hs : P s) :
    M.Terminates ok Q s := by
  refine ⟨f s, fun as t hok hrun => ?_⟩
  obtain ⟨ht, hle⟩ := length_run_le hstep hok hs hrun
  exact ⟨by omega, hstuck t ht⟩

/-- Where schedules are bounded, any schedule can be continued to one that is stuck. -/
theorem exists_stuck_run {s : σ} {bound : ℕ}
    (hbound : ∀ as t, (∀ a ∈ as, ok a) → M.run s as = some t → as.length ≤ bound) {as : List α}
    {t : σ} (hok : ∀ a ∈ as, ok a) (hrun : M.run s as = some t) :
    ∃ bs u, (∀ a ∈ bs, ok a) ∧ M.run s bs = some u ∧ ∀ a, ok a → M.step u a = none := by
  by_cases hstuck : ∀ a, ok a → M.step t a = none
  · exact ⟨as, t, hok, hrun, hstuck⟩
  · push Not at hstuck
    obtain ⟨a, ha, hne⟩ := hstuck
    obtain ⟨u, hu⟩ := Option.ne_none_iff_exists'.mp hne
    have hok' : ∀ b ∈ as ++ [a], ok b := by simpa [or_imp, forall_and] using ⟨hok, ha⟩
    have hrun' : M.run s (as ++ [a]) = some u := by
      rw [run_append, hrun, Option.bind_some]
      exact M.run_cons_eq_some.mpr ⟨u, hu, rfl⟩
    have hle := hbound _ u hok' hrun'
    exact exists_stuck_run hbound hok' hrun'
termination_by bound - as.length
decreasing_by
  rw [List.length_append, List.length_singleton] at hle ⊢
  omega

/-- So some schedule leads to where `Q` holds. -/
theorem Terminates.exists_run {s : σ} (h : M.Terminates ok Q s) :
    ∃ as t, (∀ a ∈ as, ok a) ∧ M.run s as = some t ∧ Q t := by
  obtain ⟨bound, hbound⟩ := h
  obtain ⟨as, t, hok, hrun, hstuck⟩ := exists_stuck_run (M := M) (s := s)
    (fun as t hok hrun => (hbound as t hok hrun).1) (List.forall_mem_nil ok) (M.run_nil s)
  exact ⟨as, t, hok, hrun, (hbound as t hok hrun).2 hstuck⟩

/-- Where some step that meets the guard always brings a measure down, some run of such steps leads
to where `Q` holds. -/
theorem StepsMeet.exists_run_of_measure {guard : σ → α → Prop}
    (hstep : ∀ s, P s → Q s ∨ ∃ a t, guard s a ∧ M.step s a = some t ∧ P t ∧ f t < f s) {s : σ}
    (hs : P s) : ∃ as t, M.StepsMeet guard s as ∧ M.run s as = some t ∧ P t ∧ Q t := by
  induction hk : f s using Nat.strong_induction_on generalizing s with
  | h k ih =>
      rcases hstep s hs with hQ | ⟨a, u, ha, hu, hPu, hlt⟩
      · exact ⟨[], s, trivial, M.run_nil s, hs, hQ⟩
      · obtain ⟨as, t, has, ht, hPt, hQt⟩ := ih (f u) (hk ▸ hlt) hPu rfl
        exact ⟨a :: as, t, .cons ha hu has, M.run_cons_eq_some.mpr ⟨u, hu, ht⟩, hPt, hQt⟩

/-- The same for a guard that does not depend on the state. -/
theorem exists_run_of_measure
    (hstep : ∀ s, P s → Q s ∨ ∃ a t, ok a ∧ M.step s a = some t ∧ P t ∧ f t < f s) {s : σ}
    (hs : P s) : ∃ as t, (∀ a ∈ as, ok a) ∧ M.run s as = some t ∧ P t ∧ Q t := by
  have hmeet : ∃ as t, M.StepsMeet (fun _ a => ok a) s as ∧ M.run s as = some t ∧ P t ∧ Q t :=
    StepsMeet.exists_run_of_measure hstep hs
  obtain ⟨as, t, hmeet, hrun, h⟩ := hmeet
  exact ⟨as, t, hmeet.forall_mem hrun, hrun, h⟩

end Termination

section Schedules

variable (M)

/-- `t` is a state after some schedule of the actions `ok` that starts in `s`. -/
def LaterBy (ok : α → Prop) (s t : σ) : Prop := ∃ as, (∀ a ∈ as, ok a) ∧ M.run s as = some t

variable {M} {ok : α → Prop} {s t u : σ}

theorem LaterBy.refl (s : σ) : M.LaterBy ok s s := ⟨[], List.forall_mem_nil ok, rfl⟩

theorem LaterBy.single {a : α} (ha : ok a) (hstep : M.step s a = some t) : M.LaterBy ok s t :=
  ⟨[a], List.forall_mem_singleton.mpr ha, M.run_cons_eq_some.mpr ⟨t, hstep, rfl⟩⟩

theorem LaterBy.trans (hst : M.LaterBy ok s t) (htu : M.LaterBy ok t u) : M.LaterBy ok s u := by
  obtain ⟨as, has, hrun⟩ := hst
  obtain ⟨bs, hbs, hrest⟩ := htu
  refine ⟨as ++ bs, List.forall_mem_append.mpr ⟨has, hbs⟩, ?_⟩
  rw [run_append, hrun, Option.bind_some, hrest]

theorem LaterBy.later (h : M.LaterBy ok s t) : M.Later s t := by
  obtain ⟨as, -, hrun⟩ := h
  exact ⟨as, hrun⟩

/-- What all these actions keep. -/
theorem LaterBy.stable {P : σ → Prop} (h : M.LaterBy ok s t) (hs : P s)
    (hstep : ∀ s a t, P s → ok a → M.step s a = some t → P t) : P t := by
  obtain ⟨as, has, hrun⟩ := h
  induction as generalizing s with
  | nil => exact Option.some.inj hrun ▸ hs
  | cons a as ih =>
      obtain ⟨ha, has⟩ := List.forall_mem_cons.mp has
      obtain ⟨u, hu, hrest⟩ := M.run_cons_eq_some.mp hrun
      exact ih (hstep s a u hs ha hu) has hrest

end Schedules

section Refinement

variable {τ β : Type*} {N : Machine τ β}

/-- A step if there is an action, no change otherwise. -/
def StepOrStay (N : Machine τ β) (s : τ) : Option β → τ → Prop
  | some b, t => N.step s b = some t
  | none, t => t = s

/-- If the steps of `M` from states with `P` are steps of `N`, so are the runs. -/
theorem run_map {f : σ → τ} {g : α → β} {ok : α → Prop} {P : σ → Prop}
    (hstep : ∀ s a t, P s → ok a → M.step s a = some t →
      P t ∧ N.step (f s) (g a) = some (f t)) :
    ∀ {as : List α} {s t : σ}, (∀ a ∈ as, ok a) → P s → M.run s as = some t →
      N.run (f s) (as.map g) = some (f t)
  | [], s, t, _, _, h => by
      obtain rfl := Option.some.inj h
      exact N.run_nil (f s)
  | a :: as, s, t, hok, hs, h => by
      obtain ⟨ha, has⟩ := List.forall_mem_cons.mp hok
      obtain ⟨u, hu, hrest⟩ := M.run_cons_eq_some.mp h
      obtain ⟨hPu, hNu⟩ := hstep s a u hs ha hu
      exact N.run_cons_eq_some.mpr ⟨f u, hNu, run_map hstep has hPu hrest⟩

/-- A machine that takes fewer steps meets the guard where the other one does. -/
theorem StepsMeet.of_step {N : Machine σ α} {guard : σ → α → Prop}
    (hstep : ∀ s a t, N.step s a = some t → M.step s a = some t) :
    ∀ {as : List α} {s : σ}, M.StepsMeet guard s as → N.StepsMeet guard s as
  | [], _, _ => trivial
  | a :: _, s, hmeet => ⟨hmeet.1, fun t ht => StepsMeet.of_step hstep (hmeet.2 t (hstep s a t ht))⟩

/-- If the steps of `M` that meet a guard are matched by steps of `N` that meet another one, so are
the runs of such steps. -/
theorem StepsMeet.lift {f : τ → σ} {g : α → β} {guard : σ → α → Prop} {guard' : τ → β → Prop}
    {P : τ → Prop}
    (hstep : ∀ u a t, P u → guard (f u) a → M.step (f u) a = some t →
      guard' u (g a) ∧ ∃ v, N.step u (g a) = some v ∧ f v = t ∧ P v) :
    ∀ {as : List α} {u : τ} {t : σ}, M.StepsMeet guard (f u) as → P u → M.run (f u) as = some t →
      ∃ v, N.StepsMeet guard' u (as.map g) ∧ N.run u (as.map g) = some v ∧ f v = t
  | [], u, t, _, _, h => ⟨u, trivial, N.run_nil u, Option.some.inj h⟩
  | a :: as, u, t, hmeet, hu, h => by
      obtain ⟨s, hs, hrest⟩ := M.run_cons_eq_some.mp h
      obtain ⟨hguard, v, huv, rfl, hv⟩ := hstep u a s hu hmeet.1 hs
      obtain ⟨x, hmeet', hvx, hx⟩ := StepsMeet.lift hstep (hmeet.2 _ hs) hv hrest
      exact ⟨x, .cons hguard huv hmeet', N.run_cons_eq_some.mpr ⟨v, huv, hvx⟩, hx⟩

/-- If every step of `M` is a step of `N` on the abstract states, or leaves the abstract state as
it is, reachable states are abstracted to reachable ones. -/
theorem Reachable.map {f : σ → τ} {s : σ} (h : M.Reachable s) (hinit : f M.init = N.init)
    (hstep : ∀ s a t, M.step s a = some t → ∃ b, N.StepOrStay (f s) b (f t)) :
    N.Reachable (f s) := by
  refine h.invariant (P := fun s => N.Reachable (f s)) (hinit ▸ Reachable.init) ?_
  intro s a t hs hst
  obtain ⟨b, hsim⟩ := hstep s a t hst
  cases b with
  | some b => exact hs.step hsim
  | none =>
      have hstay : f t = f s := hsim
      exact hstay ▸ hs

theorem Later.trans {s t u : σ} (hst : M.Later s t) (htu : M.Later t u) : M.Later s u := by
  obtain ⟨as, has⟩ := hst
  obtain ⟨bs, hbs⟩ := htu
  exact ⟨as ++ bs, by rw [run_append, has, Option.bind_some, hbs]⟩

/-- If every step of `M` is matched by a run of `N` that keeps a relation between the states, every
reachable state of `M` is related to one of `N`. -/
theorem Reachable.simulation {R : σ → τ → Prop} {s : σ} (h : M.Reachable s)
    (hinit : R M.init N.init)
    (hstep : ∀ s a s' t, M.Reachable s → N.Reachable t → R s t → M.step s a = some s' →
      ∃ t', N.Later t t' ∧ R s' t') :
    ∃ t, N.Reachable t ∧ R s t := by
  have hboth : M.Reachable s ∧ ∃ t, N.Reachable t ∧ R s t := by
    refine h.invariant (P := fun s => M.Reachable s ∧ ∃ t, N.Reachable t ∧ R s t)
      ⟨Reachable.init, N.init, Reachable.init, hinit⟩ ?_
    rintro s a s' ⟨hs, t, ht, hR⟩ hst
    obtain ⟨t', hlater, hR'⟩ := hstep s a s' t hs ht hR hst
    exact ⟨hs.step hst, t', ht.later hlater, hR'⟩
  exact hboth.2

end Refinement

end Machine
