import Hound.ToMathlib.Machine
import Hound.ToMathlib.Mutex
import Hound.ToMathlib.Pool

/-!
# The pool of models

`borrowModel` waits under the mutex until the queue of models is not empty, takes the first one and
returns it in a `ScopeGuard`; the destructor of the guard moves it into the argument of
`returnModel`, which pushes it under the mutex. There is one `call` for each `borrowModel` together
with the guard it returns; any number of them are under way.

* `ModelPoolState.place` : the places a model can be in.
* `ModelPoolState.abs` : the pool as one of exclusive resources.
* `models_conserved` : every model is in one place, and nothing else is anywhere.
-/

namespace Hound

/-- `ModelWrapper`. The module loaded for the device `d` is number `d`. -/
structure ModelWrapper where
  /-- `nullptr` once the wrapper has been moved from. -/
  model : Option ℕ
  device : ℕ
  deriving DecidableEq

/-- Where a call of `borrowModel` and its guard are. -/
inductive CallPc where
  | idle
  /-- Before the predicate of `cond.wait`, with the mutex. -/
  | borrowing
  /-- In `cond.wait`, without the mutex. -/
  | waiting
  /-- After the predicate has been true, with the mutex. -/
  | nonempty
  /-- The guard is alive. -/
  | guarding (modelWrapper : ModelWrapper)
  /-- The guard has moved its wrapper into the argument of `returnModel`. -/
  | returning (model : ModelWrapper)
  /-- `returnModel` has the mutex. -/
  | pushing (model : ModelWrapper)
  /-- The argument has been pushed, and `cond.notify_one()` is to be called. -/
  | pushed
  deriving DecidableEq

/-- The pool and the calls `γ`. -/
structure ModelPoolState (γ : Type) where
  models : List ModelWrapper
  /-- The call that has locked `mtx`. -/
  mtx : Option γ := none
  call : γ → CallPc := fun _ => .idle
  /-- `models.front()` has been called on an empty queue. -/
  frontOfEmpty : Bool := false

/-- The steps of a call. -/
inductive ModelPoolAction (γ : Type) where
  /-- `borrowModel` locks the mutex, also when it comes back from waiting. -/
  | lockBorrow (g : γ)
  /-- `!models.empty()`. -/
  | testEmpty (g : γ)
  /-- `std::move(models.front())` and `models.pop()`. -/
  | pop (g : γ)
  /-- `ScopeGuard::~ScopeGuard`. -/
  | destroy (g : γ)
  /-- `returnModel` locks the mutex. -/
  | lockReturn (g : γ)
  /-- `models.push({model.model, model.device})`. -/
  | push (g : γ)
  /-- `cond.notify_one()`. -/
  | notifyOne (g : γ)

/-- The constructor pushes one model for each of the `n` devices. -/
def ModelPool.construct (n : ℕ) : List ModelWrapper :=
  (List.range n).map fun device => ⟨some device, device⟩

variable {γ : Type} [DecidableEq γ]

/-- One step of a call. -/
def modelPoolStep (s : ModelPoolState γ) : ModelPoolAction γ → Option (ModelPoolState γ)
  | .lockBorrow g => match s.call g, s.mtx with
      | .idle, none | .waiting, none => some
          { s with mtx := some g, call := Function.update s.call g .borrowing }
      | _, _ => none
  | .testEmpty g => match s.call g with
      | .borrowing =>
          if s.models.isEmpty then
            some { s with mtx := none, call := Function.update s.call g .waiting }
          else some { s with call := Function.update s.call g .nonempty }
      | _ => none
  | .pop g => match s.call g with
      | .nonempty => match s.models with
          | [] => some { s with frontOfEmpty := true }
          | model :: models => some
              { s with
                models
                mtx := none
                call := Function.update s.call g (.guarding model) }
      | _ => none
  | .destroy g => match s.call g with
      | .guarding modelWrapper => some
          { s with call := Function.update s.call g (.returning modelWrapper) }
      | _ => none
  | .lockReturn g => match s.call g, s.mtx with
      | .returning model, none => some
          { s with mtx := some g, call := Function.update s.call g (.pushing model) }
      | _, _ => none
  | .push g => match s.call g with
      | .pushing model => some
          { s with
            models := s.models ++ [⟨model.model, model.device⟩]
            mtx := none
            call := Function.update s.call g .pushed }
      | _ => none
  | .notifyOne g => match s.call g with
      | .pushed => some { s with call := Function.update s.call g .idle }
      | _ => none

/-- A pool of `n` models from the end of its construction on. -/
def modelPoolMachine (γ : Type) [DecidableEq γ] (n : ℕ) :
    Machine (ModelPoolState γ) (ModelPoolAction γ) where
  init := { models := ModelPool.construct n }
  step := modelPoolStep

/-! ### What a step does -/

section Steps

variable {s t : ModelPoolState γ} {g : γ}

theorem modelPoolStep_lockBorrow : modelPoolStep s (.lockBorrow g) = some t ↔
    (s.call g = .idle ∨ s.call g = .waiting) ∧ s.mtx = none ∧
      t = { s with mtx := some g, call := Function.update s.call g .borrowing } := by
  cases hg : s.call g <;> cases hm : s.mtx <;> simp [modelPoolStep, hg, hm, eq_comm]

theorem modelPoolStep_testEmpty : modelPoolStep s (.testEmpty g) = some t ↔
    s.call g = .borrowing ∧
      (s.models = [] ∧ t = { s with mtx := none, call := Function.update s.call g .waiting } ∨
        s.models ≠ [] ∧ t = { s with call := Function.update s.call g .nonempty }) := by
  cases hg : s.call g with
  | borrowing =>
      simp only [modelPoolStep, hg, List.isEmpty_iff, true_and]
      by_cases hm : s.models = []
      · rw [if_pos hm, Option.some.injEq, eq_comm, and_iff_right hm]
        exact ⟨.inl, fun h => h.resolve_right fun hne => hne.1 hm⟩
      · rw [if_neg hm, Option.some.injEq, eq_comm, and_iff_right hm]
        exact ⟨.inr, fun h => h.resolve_left fun hnil => hm hnil.1⟩
  | _ => simp [modelPoolStep, hg]

theorem modelPoolStep_pop : modelPoolStep s (.pop g) = some t ↔ s.call g = .nonempty ∧
    (s.models = [] ∧ t = { s with frontOfEmpty := true } ∨
      ∃ model models, s.models = model :: models ∧ t = { s with
        models
        mtx := none
        call := Function.update s.call g (.guarding model) }) := by
  cases hg : s.call g <;> cases hm : s.models <;> simp [modelPoolStep, hg, hm, eq_comm]

theorem modelPoolStep_destroy : modelPoolStep s (.destroy g) = some t ↔ ∃ modelWrapper,
    s.call g = .guarding modelWrapper ∧
      t = { s with call := Function.update s.call g (.returning modelWrapper) } := by
  cases hg : s.call g <;> simp [modelPoolStep, hg, eq_comm]

theorem modelPoolStep_lockReturn : modelPoolStep s (.lockReturn g) = some t ↔ ∃ model,
    s.call g = .returning model ∧ s.mtx = none ∧
      t = { s with mtx := some g, call := Function.update s.call g (.pushing model) } := by
  cases hg : s.call g <;> cases hm : s.mtx <;> simp [modelPoolStep, hg, hm, eq_comm]

theorem modelPoolStep_push : modelPoolStep s (.push g) = some t ↔ ∃ model,
    s.call g = .pushing model ∧ t = { s with
      models := s.models ++ [⟨model.model, model.device⟩]
      mtx := none
      call := Function.update s.call g .pushed } := by
  cases hg : s.call g <;> simp [modelPoolStep, hg, eq_comm]

theorem modelPoolStep_notifyOne : modelPoolStep s (.notifyOne g) = some t ↔
    s.call g = .pushed ∧ t = { s with call := Function.update s.call g .idle } := by
  cases hg : s.call g <;> simp [modelPoolStep, hg, eq_comm]

end Steps

/-! ### The mutex -/

/-- The call has locked the mutex. -/
def CallPc.hasLock : CallPc → Bool
  | .borrowing | .nonempty | .pushing _ => true
  | _ => false

/-- The mutex excludes, so what the predicate has seen is still there. -/
structure ModelPoolState.Locked (s : ModelPoolState γ) : Prop where
  owned : Mutex.Owned s.mtx fun g => (s.call g).hasLock
  nonempty : ∀ g, s.call g = .nonempty → s.models ≠ []
  front : s.frontOfEmpty = false

/-- A step of one call, which does something to the mutex, and leaves models in the queue for those
that have seen them. -/
theorem locked_update {s : ModelPoolState γ} (hs : s.Locked) {g : γ} {models : List ModelWrapper}
    {mtx : Option γ} {pc : CallPc}
    (hmutex : Mutex.StepBy g s.mtx (s.call g).hasLock mtx pc.hasLock)
    (hothers : ∀ g' ≠ g, s.call g' = .nonempty → models ≠ [])
    (hmodels : pc = .nonempty → models ≠ []) :
    ModelPoolState.Locked { s with models, mtx, call := Function.update s.call g pc } := by
  refine ⟨?_, fun g' (hg' : Function.update s.call g pc g' = .nonempty) => ?_, hs.front⟩
  · refine hs.owned.step (w := g) ?_ fun g' hne => ?_
    · simp only [Function.update_self]
      exact hmutex
    · simp only [Function.update_of_ne hne]
  · by_cases hne : g' = g
    · subst hne
      rw [Function.update_self] at hg'
      exact hmodels hg'
    · rw [Function.update_of_ne hne] at hg'
      exact hothers g' hne hg'

theorem locked_step {s t : ModelPoolState γ} (hs : s.Locked) {a : ModelPoolAction γ}
    (hstep : modelPoolStep s a = some t) : t.Locked := by
  -- most steps leave the queue as it is
  have hqueue : ∀ g : γ, ∀ g' ≠ g, s.call g' = .nonempty → s.models ≠ [] := fun _ g' _ =>
    hs.nonempty g'
  cases a with
  | lockBorrow g =>
      obtain ⟨-, hfree, rfl⟩ := modelPoolStep_lockBorrow.mp hstep
      exact locked_update hs (.lock hfree) (hqueue g) fun h => by cases h
  | testEmpty g =>
      obtain ⟨hg, ⟨-, rfl⟩ | ⟨hne, rfl⟩⟩ := modelPoolStep_testEmpty.mp hstep
      · exact locked_update hs (.unlock (by rw [hg]; rfl)) (hqueue g) fun h => by cases h
      · refine locked_update hs ?_ (hqueue g) fun _ => hne
        rw [hg]
        exact .keep
  | pop g =>
      obtain ⟨hg, ⟨hnil, rfl⟩ | ⟨model, models, -, rfl⟩⟩ := modelPoolStep_pop.mp hstep
      · -- the queue has not been emptied since the predicate was true
        exact absurd hnil (hs.nonempty g hg)
      · -- nobody else has seen a model there
        have hlock : (s.call g).hasLock = true := by rw [hg]; rfl
        refine locked_update hs (.unlock hlock) (fun g' hne hg' => ?_) fun h => by cases h
        have hlock' : (s.call g').hasLock = true := by rw [hg']; rfl
        exact absurd (hs.owned.unique hlock' hlock) hne
  | destroy g =>
      obtain ⟨modelWrapper, hg, rfl⟩ := modelPoolStep_destroy.mp hstep
      refine locked_update hs ?_ (hqueue g) fun h => by cases h
      rw [hg]
      exact .keep
  | lockReturn g =>
      obtain ⟨model, -, hfree, rfl⟩ := modelPoolStep_lockReturn.mp hstep
      exact locked_update hs (.lock hfree) (hqueue g) fun h => by cases h
  | push g =>
      obtain ⟨model, hg, rfl⟩ := modelPoolStep_push.mp hstep
      refine locked_update hs (.unlock (by rw [hg]; rfl)) (fun _ _ _ => ?_) fun h => by cases h
      exact List.concat_ne_nil _ _
  | notifyOne g =>
      obtain ⟨hg, rfl⟩ := modelPoolStep_notifyOne.mp hstep
      refine locked_update hs ?_ (hqueue g) fun h => by cases h
      rw [hg]
      exact .keep

/-! ### The models as resources -/

/-- The wrapper in the guard of a call or in the argument of its `returnModel`. -/
def CallPc.wrapper : CallPc → Option ModelWrapper
  | .guarding modelWrapper => some modelWrapper
  | .returning model | .pushing model => some model
  | _ => none

/-- The models as exclusive resources. -/
def ModelPoolState.abs (s : ModelPoolState γ) : Pool γ ModelWrapper where
  idle := (s.models : Multiset ModelWrapper)
  held := CallPc.wrapper ∘ s.call

/-- A step that changes nothing about what is in the guards, the arguments and the queue. -/
theorem reuse_of_wrapper {s : ModelPoolState γ} {g : γ} {pc : CallPc}
    (h : pc.wrapper = (s.call g).wrapper) :
    s.abs.Reuse ⟨s.models, CallPc.wrapper ∘ Function.update s.call g pc⟩ := by
  rw [comp_update_of_eq h]
  exact .stay

/-- No step makes a new model. -/
theorem modelPool_abs_step {s t : ModelPoolState γ} {a : ModelPoolAction γ}
    (hstep : modelPoolStep s a = some t) : s.abs.Reuse t.abs := by
  cases a with
  | lockBorrow g =>
      obtain ⟨hg | hg, -, rfl⟩ := modelPoolStep_lockBorrow.mp hstep
      all_goals exact reuse_of_wrapper (by rw [hg]; rfl)
  | testEmpty g =>
      obtain ⟨hg, ⟨-, rfl⟩ | ⟨-, rfl⟩⟩ := modelPoolStep_testEmpty.mp hstep
      all_goals exact reuse_of_wrapper (by rw [hg]; rfl)
  | pop g =>
      obtain ⟨hg, ⟨-, rfl⟩ | ⟨model, models, hmodels, rfl⟩⟩ := modelPoolStep_pop.mp hstep
      · exact .stay
      · have hidle : s.abs.idle = model ::ₘ (models : Multiset ModelWrapper) :=
          congrArg _ hmodels
        have hheld : s.abs.held g = none := congrArg CallPc.wrapper hg
        convert Pool.Reuse.take hheld (r := model) (hidle ▸ Multiset.mem_cons_self _ _) using 1
        rw [Pool.take, hidle, Multiset.erase_cons_head, ModelPoolState.abs, Function.comp_update]
        rfl
  | destroy g =>
      obtain ⟨modelWrapper, hg, rfl⟩ := modelPoolStep_destroy.mp hstep
      exact reuse_of_wrapper (by rw [hg]; rfl)
  | lockReturn g =>
      obtain ⟨model, hg, -, rfl⟩ := modelPoolStep_lockReturn.mp hstep
      exact reuse_of_wrapper (by rw [hg]; rfl)
  | push g =>
      obtain ⟨model, hg, rfl⟩ := modelPoolStep_push.mp hstep
      have hheld : s.abs.held g = some model := congrArg CallPc.wrapper hg
      convert Pool.Reuse.give hheld using 1
      rw [Pool.give, ModelPoolState.abs, Function.comp_update]
      exact congrArg (Pool.mk · _) (Multiset.coe_eq_coe.mpr (List.perm_append_singleton _ _))
  | notifyOne g =>
      obtain ⟨hg, rfl⟩ := modelPoolStep_notifyOne.mp hstep
      exact reuse_of_wrapper (by rw [hg]; rfl)

/-! ### Conservation -/

/-- Where a model can be. -/
inductive ModelPlace (γ : Type) where
  /-- At a position of the queue. -/
  | queue (i : ℕ)
  /-- In a guard that is alive. -/
  | guard (g : γ)
  /-- In the argument of a `returnModel` under way. -/
  | argument (g : γ)

/-- What is in a place. -/
def ModelPoolState.place (s : ModelPoolState γ) : ModelPlace γ → Option ModelWrapper
  | .queue i => s.models[i]?
  | .guard g => match s.call g with
      | .guarding modelWrapper => some modelWrapper
      | _ => none
  | .argument g => match s.call g with
      | .returning model | .pushing model => some model
      | _ => none

section Places

variable {s : ModelPoolState γ} {g : γ} {w : ModelWrapper}

omit [DecidableEq γ]

theorem place_guard : s.place (.guard g) = some w ↔ s.call g = .guarding w := by
  cases hg : s.call g <;> simp [ModelPoolState.place, hg]

theorem place_argument : s.place (.argument g) = some w ↔
    s.call g = .returning w ∨ s.call g = .pushing w := by
  cases hg : s.call g <;> simp [ModelPoolState.place, hg]

theorem held_of_guard (h : s.place (.guard g) = some w) : s.abs.held g = some w :=
  congrArg CallPc.wrapper (place_guard.mp h)

theorem held_of_argument (h : s.place (.argument g) = some w) : s.abs.held g = some w :=
  (place_argument.mp h).elim (congrArg CallPc.wrapper) (congrArg CallPc.wrapper)

/-- A call has no live guard when its `returnModel` is under way. -/
theorem not_guard_and_argument {w' : ModelWrapper} (h : s.place (.guard g) = some w)
    (h' : s.place (.argument g) = some w') : False := by
  rw [place_guard] at h
  rcases place_argument.mp h' with hg | hg
  · cases h.symm.trans hg
  · cases h.symm.trans hg

/-- What is in some place is a resource of the pool, and conversely. -/
theorem exists_place_iff : (∃ p, s.place p = some w) ↔ s.abs.Has w := by
  constructor
  · rintro ⟨i | g | g, h⟩
    · exact .inl (Multiset.mem_coe.mpr (List.mem_of_getElem? h))
    · exact .inr ⟨g, held_of_guard h⟩
    · exact .inr ⟨g, held_of_argument h⟩
  · rintro (hmem | ⟨g, hg⟩)
    · obtain ⟨i, hi⟩ := List.mem_iff_getElem?.mp (Multiset.mem_coe.mp hmem)
      exact ⟨.queue i, hi⟩
    · have hwrapper : (s.call g).wrapper = some w := hg
      cases hcall : s.call g with
      | guarding w' =>
          rw [hcall] at hwrapper
          exact ⟨.guard g, place_guard.mpr (Option.some.inj hwrapper ▸ hcall)⟩
      | returning w' =>
          rw [hcall] at hwrapper
          exact ⟨.argument g, place_argument.mpr (.inl (Option.some.inj hwrapper ▸ hcall))⟩
      | pushing w' =>
          rw [hcall] at hwrapper
          exact ⟨.argument g, place_argument.mpr (.inr (Option.some.inj hwrapper ▸ hcall))⟩
      | idle | borrowing | waiting | nonempty | pushed =>
          rw [hcall] at hwrapper
          cases hwrapper

/-- Exclusive resources are in one place. -/
theorem place_unique (hs : s.abs.Exclusive) {p p' : ModelPlace γ} (h : s.place p = some w)
    (h' : s.place p' = some w) : p = p' := by
  -- nothing in the queue is held by a call
  have hqueue : ∀ i g, s.models[i]? = some w → s.abs.held g ≠ some w := fun i g hi hg =>
    hs.notMem_idle hg (Multiset.mem_coe.mpr (List.mem_of_getElem? hi))
  cases p with
  | queue i =>
      cases p' with
      | queue j =>
          obtain ⟨hi, -⟩ := List.getElem?_eq_some_iff.mp h
          have hnodup : s.models.Nodup := Multiset.coe_nodup.mp hs.nodup
          exact congrArg _ ((List.getElem?_inj hi hnodup).mp (h.trans h'.symm))
      | guard g => exact absurd (held_of_guard h') (hqueue i g h)
      | argument g => exact absurd (held_of_argument h') (hqueue i g h)
  | guard g =>
      cases p' with
      | queue j => exact absurd (held_of_guard h) (hqueue j g h')
      | guard g' => rw [hs.holder_unique (held_of_guard h) (held_of_guard h')]
      | argument g' =>
          obtain rfl := hs.holder_unique (held_of_guard h) (held_of_argument h')
          exact (not_guard_and_argument h h').elim
  | argument g =>
      cases p' with
      | queue j => exact absurd (held_of_argument h) (hqueue j g h')
      | guard g' =>
          obtain rfl := hs.holder_unique (held_of_argument h) (held_of_guard h')
          exact (not_guard_and_argument h' h).elim
      | argument g' => rw [hs.holder_unique (held_of_argument h) (held_of_argument h')]

end Places

theorem mem_construct {n : ℕ} {w : ModelWrapper} :
    w ∈ ModelPool.construct n ↔ ∃ d < n, w = ⟨some d, d⟩ := by
  simp [ModelPool.construct, eq_comm]

theorem nodup_construct (n : ℕ) : (ModelPool.construct n).Nodup :=
  List.nodup_range.map fun _ _ h => congrArg ModelWrapper.device h

/-- In every reachable state the resources are the models made by the constructor. -/
theorem abs_of_reachable {n : ℕ} {s : ModelPoolState γ}
    (hs : (modelPoolMachine γ n).Reachable s) :
    s.abs.Exclusive ∧ ∀ w, s.abs.Has w ↔ w ∈ ModelPool.construct n := by
  have hinit := Pool.exclusive_initial (κ := γ) (Multiset.coe_nodup.mpr (nodup_construct n))
  refine hs.invariant
    (P := fun s => s.abs.Exclusive ∧ ∀ w, s.abs.Has w ↔ w ∈ ModelPool.construct n)
    ⟨hinit, fun w => Pool.has_initial⟩ ?_
  intro s a t ⟨hexclusive, hhas⟩ hstep
  have hreuse := modelPool_abs_step hstep
  exact ⟨hreuse.exclusive hexclusive, fun w => hreuse.has_iff.trans (hhas w)⟩

theorem locked_of_reachable {n : ℕ} {s : ModelPoolState γ}
    (hs : (modelPoolMachine γ n).Reachable s) : s.Locked := by
  have hinit : ModelPoolState.Locked (γ := γ) { models := ModelPool.construct n } := by
    refine ⟨fun g => ?_, fun g hg => ?_, rfl⟩
    · simp [CallPc.hasLock]
    · cases hg
  exact hs.invariant hinit fun _ _ _ hlocked hstep => locked_step hlocked hstep

/-- In every reachable state each of the `n` models is in one place, with its device; there is
nothing else in the queue, a guard or an argument; at most `n` guards are alive; and no borrower has
taken from an empty queue. -/
theorem models_conserved {n : ℕ} {s : ModelPoolState γ}
    (hs : (modelPoolMachine γ n).Reachable s) :
    (∀ d < n, ∃! p, s.place p = some ⟨some d, d⟩) ∧
      (∀ p w, s.place p = some w → ∃ d < n, w = ⟨some d, d⟩) ∧
      (∀ K : Finset γ, (∀ g ∈ K, ∃ w, s.place (.guard g) = some w) → K.card ≤ n) ∧
      s.frontOfEmpty = false := by
  obtain ⟨hexclusive, hhas⟩ := abs_of_reachable hs
  have hconstructed : ∀ p w, s.place p = some w → w ∈ ModelPool.construct n := fun p w h =>
    (hhas w).mp (exists_place_iff.mp ⟨p, h⟩)
  refine ⟨fun d hd => ?_, fun p w h => mem_construct.mp (hconstructed p w h), fun K hK => ?_,
    (locked_of_reachable hs).front⟩
  · obtain ⟨p, hp⟩ := exists_place_iff.mpr ((hhas ⟨some d, d⟩).mpr (mem_construct.mpr ⟨d, hd, rfl⟩))
    exact ⟨p, hp, fun p' hp' => place_unique hexclusive hp' hp⟩
  · -- the guards hold different ones of the models
    have hcard := hexclusive.card_le (K := K) (R := (ModelPool.construct n).toFinset) fun g hg => by
      obtain ⟨w, hw⟩ := hK g hg
      exact ⟨w, List.mem_toFinset.mpr (hconstructed _ w hw), held_of_guard hw⟩
    rwa [List.toFinset_card_of_nodup (nodup_construct n), ModelPool.construct, List.length_map,
      List.length_range] at hcard

/-- Two borrowers of a pool of one model: the second one waits. -/
def contendedPool : List (ModelPoolAction Bool) :=
  [.lockBorrow false, .testEmpty false, .pop false, .lockBorrow true, .testEmpty true,
    .destroy false, .lockReturn false, .push false, .lockBorrow true, .testEmpty true, .pop true]

/-- It gets the model that the first one has returned, and nobody else has it. -/
theorem models_conserved_contendedPool :
    ∃ s, (modelPoolMachine Bool 1).run { models := ModelPool.construct 1 } contendedPool =
        some s ∧
      s.place (.guard true) = some ⟨some 0, 0⟩ ∧ ∃! p, s.place p = some ⟨some 0, 0⟩ := by
  have hrun : (modelPoolMachine Bool 1).run { models := ModelPool.construct 1 } contendedPool =
    some _ := rfl
  exact ⟨_, hrun, rfl, (models_conserved ⟨_, hrun⟩).1 0 Nat.zero_lt_one⟩

end Hound
