import Hound.Encode.ModelPool

/-!
# Waiting for a model

`ModelPool` lets a call that waits go on at any time. What takes it on is a notification, and there
is one for each model that is returned: `cond.notify_one()` wakes up one of the calls that are
blocked in `cond.wait`, whichever it is, and is lost when there are none. A call that was woken up
may find the queue empty again, because another one has been faster.

* `condPoolMachine` : the pool with the calls that are blocked.
* `CondPoolState.Awaited` : for each model in the queue some call is about to take it or to notify.
* `models_awaited` : so no call is left blocked while there is a model for it.
* `borrowers_served` : each call gets a model in the end.
-/

namespace Hound

/-! ### The machine -/

/-- A `ModelPool` with its condition variable. -/
structure CondPoolState (γ : Type) extends ModelPoolState γ where
  /-- The calls that are blocked in `cond.wait`. -/
  cond : List γ := []

/-- The steps of a call. -/
inductive CondPoolAction (γ : Type) where
  /-- `borrowModel` is called and locks the mutex. -/
  | borrow (g : γ)
  /-- `cond.wait` locks the mutex again. -/
  | relock (g : γ)
  /-- `!models.empty()`, and if this is false the call is blocked. -/
  | testEmpty (g : γ)
  | pop (g : γ)
  /-- `ScopeGuard::~ScopeGuard`. -/
  | destroy (g : γ)
  | lockReturn (g : γ)
  | push (g : γ)
  /-- `cond.notify_one()`, which wakes up the blocked call at place `i`. -/
  | notifyOne (g : γ) (i : ℕ)
  /-- `cond.wait` wakes up without a notification. -/
  | spuriousWakeup (g : γ)

variable {γ : Type} [DecidableEq γ]

/-- A step that leaves the blocked calls alone. -/
def CondPoolState.poolStep (s : CondPoolState γ) (a : ModelPoolAction γ) :
    Option (CondPoolState γ) :=
  (modelPoolStep s.toModelPoolState a).map fun pool => { s with toModelPoolState := pool }

/-- One step of a call. -/
def condPoolStep (s : CondPoolState γ) : CondPoolAction γ → Option (CondPoolState γ)
  | .borrow g => match s.call g with
      | .idle => s.poolStep (.lockBorrow g)
      | _ => none
  | .relock g => match s.call g with
      | .waiting => if g ∈ s.cond then none else s.poolStep (.lockBorrow g)
      | _ => none
  | .testEmpty g =>
      if s.models.isEmpty then { s with cond := s.cond ++ [g] }.poolStep (.testEmpty g)
      else s.poolStep (.testEmpty g)
  | .pop g => s.poolStep (.pop g)
  | .destroy g => s.poolStep (.destroy g)
  | .lockReturn g => s.poolStep (.lockReturn g)
  | .push g => s.poolStep (.push g)
  | .notifyOne g i =>
      -- someone is woken up if anyone is blocked
      if i < s.cond.length ∨ s.cond.isEmpty then
        { s with cond := s.cond.eraseIdx i }.poolStep (.notifyOne g)
      else none
  | .spuriousWakeup g => if g ∈ s.cond then some { s with cond := s.cond.erase g } else none

/-- A pool of `n` models from the end of its construction on. -/
def condPoolMachine (γ : Type) [DecidableEq γ] (n : ℕ) :
    Machine (CondPoolState γ) (CondPoolAction γ) where
  init := { models := ModelPool.construct n }
  step := condPoolStep

/-! ### What a step does -/

section Steps

variable {s t : CondPoolState γ}

/-- What a step can do. -/
inductive CondPoolEffect (s : CondPoolState γ) : CondPoolAction γ → CondPoolState γ → Prop
  | borrow (g : γ) (hg : s.call g = .idle) (hfree : s.mtx = none) :
      CondPoolEffect s (.borrow g)
        { s with mtx := some g, call := Function.update s.call g .borrowing }
  | relock (g : γ) (hg : s.call g = .waiting) (hwoken : g ∉ s.cond) (hfree : s.mtx = none) :
      CondPoolEffect s (.relock g)
        { s with mtx := some g, call := Function.update s.call g .borrowing }
  | block (g : γ) (hg : s.call g = .borrowing) (hempty : s.models = []) :
      CondPoolEffect s (.testEmpty g)
        { s with
          mtx := none
          call := Function.update s.call g .waiting
          cond := s.cond ++ [g] }
  | pass (g : γ) (hg : s.call g = .borrowing) (hne : s.models ≠ []) :
      CondPoolEffect s (.testEmpty g) { s with call := Function.update s.call g .nonempty }
  | popEmpty (g : γ) (hg : s.call g = .nonempty) (hempty : s.models = []) :
      CondPoolEffect s (.pop g) { s with frontOfEmpty := true }
  | pop (g : γ) (model : ModelWrapper) (models : List ModelWrapper) (hg : s.call g = .nonempty)
      (hmodels : s.models = model :: models) :
      CondPoolEffect s (.pop g)
        { s with models, mtx := none, call := Function.update s.call g (.guarding model) }
  | destroy (g : γ) (model : ModelWrapper) (hg : s.call g = .guarding model) :
      CondPoolEffect s (.destroy g)
        { s with call := Function.update s.call g (.returning model) }
  | lockReturn (g : γ) (model : ModelWrapper) (hg : s.call g = .returning model)
      (hfree : s.mtx = none) :
      CondPoolEffect s (.lockReturn g)
        { s with mtx := some g, call := Function.update s.call g (.pushing model) }
  | push (g : γ) (model : ModelWrapper) (hg : s.call g = .pushing model) :
      CondPoolEffect s (.push g)
        { s with
          models := s.models ++ [⟨model.model, model.device⟩]
          mtx := none
          call := Function.update s.call g .pushed }
  | notifyOne (g : γ) (i : ℕ) (hg : s.call g = .pushed)
      (hi : i < s.cond.length ∨ s.cond = []) :
      CondPoolEffect s (.notifyOne g i)
        { s with call := Function.update s.call g .idle, cond := s.cond.eraseIdx i }
  | spuriousWakeup (g : γ) (hg : g ∈ s.cond) :
      CondPoolEffect s (.spuriousWakeup g) { s with cond := s.cond.erase g }

theorem CondPoolState.poolStep_eq {a : ModelPoolAction γ} (h : s.poolStep a = some t) :
    ∃ pool, modelPoolStep s.toModelPoolState a = some pool ∧
      { s with toModelPoolState := pool } = t :=
  Option.map_eq_some_iff.mp h

theorem condPoolStep_effect {a : CondPoolAction γ} (hstep : condPoolStep s a = some t) :
    CondPoolEffect s a t := by
  cases a with
  | borrow g =>
      simp only [condPoolStep] at hstep
      split at hstep
      · next hg =>
          obtain ⟨pool, hpool, rfl⟩ := CondPoolState.poolStep_eq hstep
          obtain ⟨-, hfree, rfl⟩ := modelPoolStep_lockBorrow.mp hpool
          exact .borrow g hg hfree
      · contradiction
  | relock g =>
      simp only [condPoolStep] at hstep
      split at hstep
      · next hg =>
          split at hstep
          · contradiction
          · next hwoken =>
              obtain ⟨pool, hpool, rfl⟩ := CondPoolState.poolStep_eq hstep
              obtain ⟨-, hfree, rfl⟩ := modelPoolStep_lockBorrow.mp hpool
              exact .relock g hg hwoken hfree
      · contradiction
  | testEmpty g =>
      simp only [condPoolStep, List.isEmpty_iff] at hstep
      split at hstep
      · next hempty =>
          obtain ⟨pool, hpool, rfl⟩ := CondPoolState.poolStep_eq hstep
          obtain ⟨hg, ⟨-, rfl⟩ | ⟨hne, rfl⟩⟩ := modelPoolStep_testEmpty.mp hpool
          · exact .block g hg hempty
          · exact absurd hempty hne
      · next hne =>
          obtain ⟨pool, hpool, rfl⟩ := CondPoolState.poolStep_eq hstep
          obtain ⟨hg, ⟨hempty, rfl⟩ | ⟨-, rfl⟩⟩ := modelPoolStep_testEmpty.mp hpool
          · exact absurd hempty hne
          · exact .pass g hg hne
  | pop g =>
      obtain ⟨pool, hpool, rfl⟩ := CondPoolState.poolStep_eq hstep
      obtain ⟨hg, ⟨hempty, rfl⟩ | ⟨model, models, hmodels, rfl⟩⟩ := modelPoolStep_pop.mp hpool
      · exact .popEmpty g hg hempty
      · exact .pop g model models hg hmodels
  | destroy g =>
      obtain ⟨pool, hpool, rfl⟩ := CondPoolState.poolStep_eq hstep
      obtain ⟨model, hg, rfl⟩ := modelPoolStep_destroy.mp hpool
      exact .destroy g model hg
  | lockReturn g =>
      obtain ⟨pool, hpool, rfl⟩ := CondPoolState.poolStep_eq hstep
      obtain ⟨model, hg, hfree, rfl⟩ := modelPoolStep_lockReturn.mp hpool
      exact .lockReturn g model hg hfree
  | push g =>
      obtain ⟨pool, hpool, rfl⟩ := CondPoolState.poolStep_eq hstep
      obtain ⟨model, hg, rfl⟩ := modelPoolStep_push.mp hpool
      exact .push g model hg
  | notifyOne g i =>
      simp only [condPoolStep, List.isEmpty_iff] at hstep
      split at hstep
      · next hi =>
          obtain ⟨pool, hpool, rfl⟩ := CondPoolState.poolStep_eq hstep
          obtain ⟨hg, rfl⟩ := modelPoolStep_notifyOne.mp hpool
          exact .notifyOne g i hg hi
      · contradiction
  | spuriousWakeup g =>
      simp only [condPoolStep] at hstep
      split at hstep
      · next hg =>
          obtain rfl := Option.some.inj hstep
          exact .spuriousWakeup g hg
      · contradiction

/-- The blocked calls aside, the pool is a `ModelPool` as before. -/
theorem pool_reachable {n : ℕ} (hs : (condPoolMachine γ n).Reachable s) :
    (modelPoolMachine γ n).Reachable s.toModelPoolState := by
  refine hs.map (f := CondPoolState.toModelPoolState) rfl fun s a t hstep => ?_
  cases condPoolStep_effect hstep with
  | borrow g hg hfree =>
      exact ⟨some (.lockBorrow g), modelPoolStep_lockBorrow.mpr ⟨.inl hg, hfree, rfl⟩⟩
  | relock g hg _ hfree =>
      exact ⟨some (.lockBorrow g), modelPoolStep_lockBorrow.mpr ⟨.inr hg, hfree, rfl⟩⟩
  | block g hg hempty =>
      exact ⟨some (.testEmpty g), modelPoolStep_testEmpty.mpr ⟨hg, .inl ⟨hempty, rfl⟩⟩⟩
  | pass g hg hne => exact ⟨some (.testEmpty g), modelPoolStep_testEmpty.mpr ⟨hg, .inr ⟨hne, rfl⟩⟩⟩
  | popEmpty g hg hempty =>
      exact ⟨some (.pop g), modelPoolStep_pop.mpr ⟨hg, .inl ⟨hempty, rfl⟩⟩⟩
  | pop g model models hg hmodels =>
      exact ⟨some (.pop g), modelPoolStep_pop.mpr ⟨hg, .inr ⟨model, models, hmodels, rfl⟩⟩⟩
  | destroy g model hg => exact ⟨some (.destroy g), modelPoolStep_destroy.mpr ⟨model, hg, rfl⟩⟩
  | lockReturn g model hg hfree =>
      exact ⟨some (.lockReturn g), modelPoolStep_lockReturn.mpr ⟨model, hg, hfree, rfl⟩⟩
  | push g model hg => exact ⟨some (.push g), modelPoolStep_push.mpr ⟨model, hg, rfl⟩⟩
  | notifyOne g i hg => exact ⟨some (.notifyOne g), modelPoolStep_notifyOne.mpr ⟨hg, rfl⟩⟩
  | spuriousWakeup => exact ⟨none, rfl⟩

end Steps

/-! ### No model is left behind -/

/-- The call is about to take a model or to notify: it looks at the queue, has been woken up to do
so, or has pushed. -/
def CondPoolState.isActive (s : CondPoolState γ) (g : γ) : Bool :=
  match s.call g with
  | .borrowing | .nonempty | .pushed => true
  | .waiting => decide (g ∉ s.cond)
  | _ => false

/-- For each model in the queue, and `k` more, there is a call that is active. -/
def CondPoolState.Covered (s : CondPoolState γ) (k : ℕ) : Prop :=
  ∃ K : Finset γ, s.models.length + k ≤ K.card ∧ ∀ g ∈ K, s.isActive g = true

section Covered

variable {s t : CondPoolState γ}

/-- One call becomes active or ceases to be. -/
theorem CondPoolState.Covered.step {k k' : ℕ} (hs : s.Covered k) (g : γ)
    (hsame : ∀ g', g' ≠ g → t.isActive g' = s.isActive g')
    (hcount : t.models.length + k' + (s.isActive g).toNat ≤
      s.models.length + k + (t.isActive g).toNat) : t.Covered k' := by
  obtain ⟨K, hle, hK⟩ := hs
  cases ht : t.isActive g with
  | true =>
      -- `g` may be counted
      refine ⟨insert g K, ?_, fun g' hg' => ?_⟩
      · by_cases hmem : g ∈ K
        · rw [hK g hmem, ht] at hcount
          rw [Finset.insert_eq_of_mem hmem]
          omega
        · rw [ht] at hcount
          rw [Finset.card_insert_of_notMem hmem]
          simp only [Bool.toNat_true] at hcount
          omega
      · rcases eq_or_ne g' g with rfl | hne
        · exact ht
        · exact (hsame g' hne).trans (hK g' (Finset.mem_of_mem_insert_of_ne hg' hne))
  | false =>
      refine ⟨K.erase g, ?_, fun g' hg' => ?_⟩
      · by_cases hmem : g ∈ K
        · rw [hK g hmem, ht] at hcount
          rw [Finset.card_erase_of_mem hmem]
          simp only [Bool.toNat_true, Bool.toNat_false] at hcount
          omega
        · rw [ht] at hcount
          rw [Finset.erase_eq_of_notMem hmem]
          simp only [Bool.toNat_false] at hcount
          omega
      · obtain ⟨hne, hmem⟩ := Finset.mem_erase.mp hg'
        exact (hsame g' hne).trans (hK g' hmem)

end Covered

/-- The blocked calls wait, and as long as there are any the models in the queue are taken care
of. -/
structure CondPoolState.Awaited (s : CondPoolState γ) : Prop where
  nodup : s.cond.Nodup
  waiting : ∀ g ∈ s.cond, s.call g = .waiting
  covered : s.cond ≠ [] → s.Covered 0

section Awaited

variable {s t : CondPoolState γ}

/-- A call that is not blocked takes a step. -/
theorem CondPoolState.Awaited.step (hs : s.Awaited) {g : γ} {pc : CallPc}
    (hcall : t.call = Function.update s.call g pc) (hcond : t.cond = s.cond) (hg : g ∉ s.cond)
    (hcount : t.models.length + (s.isActive g).toNat ≤
      s.models.length + (t.isActive g).toNat) : t.Awaited := by
  refine ⟨hcond ▸ hs.nodup, fun g' hg' => ?_, fun hne => ?_⟩
  · rw [hcond] at hg'
    rw [hcall, Function.update_of_ne (by rintro rfl; exact hg hg')]
    exact hs.waiting g' hg'
  · refine (hs.covered (hcond ▸ hne)).step g (fun g' hne => ?_) (by omega)
    rw [CondPoolState.isActive, CondPoolState.isActive, hcall, hcond, Function.update_of_ne hne]

/-- A call that is not waiting is not blocked. -/
theorem CondPoolState.Awaited.notMem (hs : s.Awaited) {g : γ} (hg : s.call g ≠ .waiting) :
    g ∉ s.cond := fun hmem => hg (hs.waiting g hmem)

/-- A blocked call is woken up, and one more is active. -/
theorem CondPoolState.Covered.wake (hs : s.Awaited) {g : γ} (hg : g ∈ s.cond) {k : ℕ}
    (hcovered : s.Covered k) : { s with cond := s.cond.erase g }.Covered (k + 1) := by
  have hwaiting := hs.waiting g hg
  refine hcovered.step g (fun g' hne => ?_) ?_
  · simp only [CondPoolState.isActive, List.mem_erase_of_ne hne]
  · have hnot : g ∉ s.cond.erase g := hs.nodup.not_mem_erase
    simp [CondPoolState.isActive, hwaiting, hg, hnot, Nat.add_assoc]

theorem awaited_condPool_step {a : CondPoolAction γ} (hs : s.Awaited)
    (hlocked : s.toModelPoolState.Locked) (hstep : condPoolStep s a = some t) : t.Awaited := by
  cases condPoolStep_effect hstep with
  | borrow g hg =>
      refine hs.step rfl rfl (hs.notMem (by simp [hg])) ?_
      simp [CondPoolState.isActive, hg]
  | relock g hg hwoken =>
      refine hs.step rfl rfl hwoken ?_
      simp [CondPoolState.isActive, hg, hwoken]
  | block g hg hempty =>
      have hnot := hs.notMem (g := g) (by simp [hg])
      refine ⟨hs.nodup.append (List.nodup_singleton g) (List.disjoint_singleton.mpr hnot),
        fun g' hg' => ?_, fun _ => ⟨∅, by simp [hempty], by simp⟩⟩
      rcases eq_or_ne g' g with rfl | hne
      · exact Function.update_self ..
      · have hmem : g' ∈ s.cond := by simpa [hne] using hg'
        exact (Function.update_of_ne hne ..).trans (hs.waiting g' hmem)
  | pass g hg hne =>
      refine hs.step rfl rfl (hs.notMem (by simp [hg])) ?_
      simp [CondPoolState.isActive, hg]
  | popEmpty g hg hempty => exact absurd hempty (hlocked.nonempty g hg)
  | pop g model models hg hmodels =>
      refine hs.step rfl rfl (hs.notMem (by simp [hg])) ?_
      simp [CondPoolState.isActive, hg, hmodels]
  | destroy g model hg | lockReturn g model hg | push g model hg =>
      refine hs.step rfl rfl (hs.notMem (by simp [hg])) ?_
      simp [CondPoolState.isActive, hg]
  | notifyOne g i hg hi =>
      have hnot := hs.notMem (g := g) (by simp [hg])
      refine ⟨hs.nodup.sublist (List.eraseIdx_sublist ..), fun g' hg' => ?_, fun hne => ?_⟩
      · have hmem : g' ∈ s.cond := List.mem_of_mem_eraseIdx hg'
        exact (Function.update_of_ne (by rintro rfl; exact hnot hmem) ..).trans
          (hs.waiting g' hmem)
      · have hblocked : s.cond ≠ [] := by
          rintro hnil
          simp [hnil] at hne
        have hlt : i < s.cond.length := hi.resolve_right hblocked
        -- the call that has pushed is no longer active, but the one it wakes up is
        have hwake := (hs.covered hblocked).wake hs (List.getElem_mem hlt)
        rw [hs.nodup.erase_getElem i hlt] at hwake
        refine hwake.step g (fun g' hne => ?_) ?_
        · simp only [CondPoolState.isActive, Function.update_of_ne hne]
        · simp [CondPoolState.isActive, hg]
  | spuriousWakeup g hg =>
      refine ⟨hs.nodup.erase g, fun g' hg' => hs.waiting g' (List.mem_of_mem_erase hg'), ?_⟩
      intro _
      obtain ⟨K, hle, hK⟩ := (hs.covered (List.ne_nil_of_mem hg)).wake hs hg
      exact ⟨K, by omega, hK⟩

theorem awaited_of_condPool {n : ℕ} (hs : (condPoolMachine γ n).Reachable s) : s.Awaited := by
  have hinit : CondPoolState.Awaited (γ := γ) { models := ModelPool.construct n } :=
    ⟨List.nodup_nil, fun _ hg => absurd hg List.not_mem_nil, fun hne => absurd rfl hne⟩
  exact hs.invariant_of (fun _ hs => locked_of_reachable (pool_reachable hs)) hinit
    fun _ _ _ hlocked hs hstep => awaited_condPool_step hs hlocked hstep

end Awaited

section Reachable

variable {n : ℕ} {s t : CondPoolState γ}

/-- `cond.notify_one()` is enough, although it wakes up one call only and is lost when none is
blocked: while a call is blocked there are, for the models in the queue, as many calls that will
each take a model or notify, because they look at the queue, have been woken up or have just pushed.
So no call is ever left blocked next to a model that nobody is about to take. -/
theorem models_awaited (hs : (condPoolMachine γ n).Reachable s) (hblocked : s.cond ≠ []) :
    ∃ K : Finset γ, s.models.length ≤ K.card ∧ ∀ g ∈ K,
      s.call g = .borrowing ∨ s.call g = .nonempty ∨ s.call g = .pushed ∨
        s.call g = .waiting ∧ g ∉ s.cond := by
  obtain ⟨K, hle, hK⟩ := (awaited_of_condPool hs).covered hblocked
  refine ⟨K, hle, fun g hg => ?_⟩
  have hactive := hK g hg
  unfold CondPoolState.isActive at hactive
  cases hcall : s.call g with
  | borrowing => exact .inl rfl
  | nonempty => exact .inr (.inl rfl)
  | pushed => exact .inr (.inr (.inl rfl))
  | waiting =>
      rw [hcall] at hactive
      exact .inr (.inr (.inr ⟨rfl, of_decide_eq_true hactive⟩))
  | _ =>
      rw [hcall] at hactive
      contradiction

/-- A call waits for the only model, which is returned. -/
def returnedModel : List (CondPoolAction Bool) :=
  [.borrow false, .testEmpty false, .pop false, .borrow true, .testEmpty true, .destroy false,
    .lockReturn false, .push false]

/-- The one that has returned it is about to notify. -/
theorem models_awaited_returnedModel :
    ∃ s, (condPoolMachine Bool 1).run { models := ModelPool.construct 1 } returnedModel = some s ∧
      s.cond = [true] ∧ s.models.length = 1 ∧ ∃ K : Finset Bool, 1 ≤ K.card ∧ ∀ g ∈ K,
        s.call g = .borrowing ∨ s.call g = .nonempty ∨ s.call g = .pushed ∨
          s.call g = .waiting ∧ g ∉ s.cond := by
  have hrun : (condPoolMachine Bool 1).run { models := ModelPool.construct 1 } returnedModel =
    some _ := rfl
  exact ⟨_, hrun, rfl, rfl, models_awaited ⟨_, hrun⟩ (List.cons_ne_nil true [])⟩

/-! ### Every call is served -/

/-- How many steps a call is from its end. A call that is woken up has two steps more to take, which
the notification makes up for. -/
def CondPoolState.rank (s : CondPoolState γ) (g : γ) : ℕ :=
  match s.call g with
  | .idle => 0
  | .pushed => 3
  | .pushing _ => 4
  | .returning _ => 5
  | .guarding _ => 6
  | .nonempty => 7
  | .borrowing => 9
  | .waiting => if g ∈ s.cond then 8 else 10

/-- The steps of calls that are under way. -/
def CondPoolAction.isOwn : CondPoolAction γ → Bool
  | .borrow _ | .spuriousWakeup _ => false
  | _ => true

/-- When one call gets closer to its end, so do all together. -/
theorem sum_rank_lt {F : Finset γ} {g : γ} (hg : g ∈ F) (hlt : t.rank g < s.rank g)
    (hsame : ∀ g', g' ≠ g → t.rank g' = s.rank g') : ∑ g ∈ F, t.rank g < ∑ g ∈ F, s.rank g :=
  sum_add_le_sum_of_forall_ne (d := 1) hg hlt hsame

theorem rank_of_update {g g' : γ} {pc : CallPc} (hcall : t.call = Function.update s.call g pc)
    (hne : g' ≠ g) (hcond : g' ∈ t.cond ↔ g' ∈ s.cond) : t.rank g' = s.rank g' := by
  simp only [CondPoolState.rank, hcall, Function.update_of_ne hne, hcond]

/-- A call that is woken up has to lock the mutex and to look at the queue again. -/
theorem sum_rank_wake {F : Finset γ} {g : γ} (hs : s.Awaited) (hg : g ∈ s.cond) (hF : g ∈ F) :
    ∑ g' ∈ F, { s with cond := s.cond.erase g }.rank g' = ∑ g' ∈ F, s.rank g' + 2 := by
  have hsum := sum_add_eq_sum_add_of_forall_ne hF (f := { s with cond := s.cond.erase g }.rank)
    (g := s.rank) fun g' hne => by simp only [CondPoolState.rank, List.mem_erase_of_ne hne]
  have hwaiting := hs.waiting g hg
  have hnot : g ∉ s.cond.erase g := hs.nodup.not_mem_erase
  have hbefore : s.rank g = 8 := by simp [CondPoolState.rank, hwaiting, hg]
  have hafter : { s with cond := s.cond.erase g }.rank g = 10 := by
    simp [CondPoolState.rank, hwaiting, hnot]
  omega

theorem sum_rank_step {F : Finset γ} {a : CondPoolAction γ} (hs : s.Awaited)
    (hlocked : s.toModelPoolState.Locked) (hF : ∀ g, s.call g ≠ .idle → g ∈ F)
    (ha : a.isOwn = true) (hstep : condPoolStep s a = some t) :
    ∑ g ∈ F, t.rank g < ∑ g ∈ F, s.rank g := by
  cases condPoolStep_effect hstep with
  | borrow | spuriousWakeup => contradiction
  | relock g hg hwoken =>
      refine sum_rank_lt (hF g (by simp [hg])) ?_ fun g' hne => rank_of_update rfl hne Iff.rfl
      simp [CondPoolState.rank, hg, hwoken]
  | block g hg hempty =>
      refine sum_rank_lt (hF g (by simp [hg])) ?_ fun g' hne => rank_of_update rfl hne ?_
      · simp [CondPoolState.rank, hg]
      · simp [hne]
  | popEmpty g hg hempty => exact absurd hempty (hlocked.nonempty g hg)
  | pass g hg | pop g _ _ hg | destroy g _ hg | lockReturn g _ hg | push g _ hg =>
      refine sum_rank_lt (hF g (by simp [hg])) ?_ fun g' hne => rank_of_update rfl hne Iff.rfl
      simp [CondPoolState.rank, hg]
  | notifyOne g i hg hi =>
      have hmem : g ∈ F := hF g (by simp [hg])
      rcases hi with hlt | hnil
      · have hblocked : s.cond[i] ∈ s.cond := List.getElem_mem hlt
        have hwaiting := hs.waiting _ hblocked
        have hwake := sum_rank_wake hs hblocked (hF _ (by rw [hwaiting]; simp))
        rw [hs.nodup.erase_getElem i hlt] at hwake
        have hdone := sum_add_le_sum_of_forall_ne hmem (d := 3)
          (f := { s with call := Function.update s.call g .idle, cond := s.cond.eraseIdx i }.rank)
          (g := { s with cond := s.cond.eraseIdx i }.rank)
          (by simp [CondPoolState.rank, hg]) fun g' hne => by
            simp only [CondPoolState.rank, Function.update_of_ne hne]
        omega
      · refine sum_rank_lt hmem ?_ fun g' hne => rank_of_update rfl hne (by simp [hnil])
        simp [CondPoolState.rank, hg]

/-- The calls that are under way are finitely many. -/
theorem exists_underWay {n : ℕ} (hs : (condPoolMachine γ n).Reachable s) :
    ∃ F : Finset γ, ∀ g, s.call g ≠ .idle → g ∈ F := by
  refine hs.invariant (P := fun s => ∃ F : Finset γ, ∀ g, s.call g ≠ .idle → g ∈ F)
    ⟨∅, fun g hg => absurd rfl hg⟩ fun s a t ⟨F, hF⟩ hstep => ?_
  have hinsert : ∀ g pc, ∀ g', Function.update s.call g pc g' ≠ .idle → g' ∈ insert g F := by
    intro g pc g' hg'
    rcases eq_or_ne g' g with rfl | hne
    · exact Finset.mem_insert_self g' F
    · rw [Function.update_of_ne hne] at hg'
      exact Finset.mem_insert_of_mem (hF g' hg')
  cases condPoolStep_effect hstep with
  | borrow g | relock g | block g | pass g | pop g | destroy g | lockReturn g | push g
  | notifyOne g => exact ⟨insert g F, hinsert g _⟩
  | popEmpty | spuriousWakeup => exact ⟨F, hF⟩

/-- A call that is under way does not become one that was not. -/
theorem underWay_of_own {F : Finset γ} {a : CondPoolAction γ} (hF : ∀ g, s.call g ≠ .idle → g ∈ F)
    (ha : a.isOwn = true) (hstep : condPoolStep s a = some t) (g : γ) (hg : t.call g ≠ .idle) :
    g ∈ F := by
  have hsame : ∀ {g' pc}, s.call g' ≠ .idle → Function.update s.call g' pc g ≠ .idle → g ∈ F := by
    intro g' pc hg' hg
    rcases eq_or_ne g g' with rfl | hne
    · exact hF g hg'
    · exact hF g (by rwa [Function.update_of_ne hne] at hg)
  cases condPoolStep_effect hstep with
  | borrow | spuriousWakeup => contradiction
  | popEmpty => exact hF g hg
  | relock g' h | block g' h | pass g' h | pop g' _ _ h | destroy g' _ h | lockReturn g' _ h
  | push g' _ h | notifyOne g' _ h => exact hsame (by simp [h]) hg

/-- A call with the mutex goes on. -/
theorem own_step_of_hasLock {g : γ} (hg : (s.call g).hasLock = true) :
    ∃ a, a.isOwn = true ∧ condPoolStep s a ≠ none := by
  cases hcall : s.call g with
  | borrowing =>
      refine ⟨.testEmpty g, rfl, ?_⟩
      by_cases hempty : s.models = []
      · simp [condPoolStep, CondPoolState.poolStep, modelPoolStep, hcall, hempty]
      · simp [condPoolStep, CondPoolState.poolStep, modelPoolStep, hcall, hempty]
  | nonempty =>
      refine ⟨.pop g, rfl, ?_⟩
      cases hmodels : s.models with
      | nil => simp [condPoolStep, CondPoolState.poolStep, modelPoolStep, hcall, hmodels]
      | cons => simp [condPoolStep, CondPoolState.poolStep, modelPoolStep, hcall, hmodels]
  | pushing model =>
      refine ⟨.push g, rfl, ?_⟩
      simp [condPoolStep, CondPoolState.poolStep, modelPoolStep, hcall]
  | _ =>
      rw [hcall] at hg
      contradiction

/-- With the mutex free, so does every call that has a model to return or something to do for
others. -/
theorem own_step_of_free {g : γ} (hfree : s.mtx = none) (hg : s.call g ≠ .idle)
    (hblocked : ¬(s.call g = .waiting ∧ g ∈ s.cond)) :
    ∃ a, a.isOwn = true ∧ condPoolStep s a ≠ none := by
  by_cases hlock : (s.call g).hasLock = true
  · exact own_step_of_hasLock hlock
  cases hcall : s.call g with
  | idle => exact absurd hcall hg
  | waiting =>
      have hwoken : g ∉ s.cond := fun hmem => hblocked ⟨hcall, hmem⟩
      refine ⟨.relock g, rfl, ?_⟩
      simp [condPoolStep, CondPoolState.poolStep, modelPoolStep, hcall, hwoken, hfree]
  | guarding model =>
      refine ⟨.destroy g, rfl, ?_⟩
      simp [condPoolStep, CondPoolState.poolStep, modelPoolStep, hcall]
  | returning model =>
      refine ⟨.lockReturn g, rfl, ?_⟩
      simp [condPoolStep, CondPoolState.poolStep, modelPoolStep, hcall, hfree]
  | pushed =>
      refine ⟨.notifyOne g 0, rfl, ?_⟩
      have hfirst : 0 < s.cond.length ∨ s.cond = [] := by
        rw [List.length_pos_iff]
        exact ne_or_eq s.cond []
      simp [condPoolStep, CondPoolState.poolStep, modelPoolStep, hcall, hfirst]
  | borrowing | nonempty | pushing =>
      rw [hcall] at hlock
      exact absurd rfl hlock

/-- Not all calls under way are blocked when there is a model at all: the models would all be in the
queue, and each one is awaited. -/
theorem exists_not_blocked {n : ℕ} (hn : 0 < n) (hs : (condPoolMachine γ n).Reachable s) {g : γ}
    (hg : s.call g ≠ .idle) :
    ∃ g, s.call g ≠ .idle ∧ ¬(s.call g = .waiting ∧ g ∈ s.cond) := by
  by_contra hall
  push Not at hall
  have hactive : ∀ g, s.isActive g = false := by
    intro g
    by_cases hidle : s.call g = .idle
    · simp [CondPoolState.isActive, hidle]
    · obtain ⟨hwaiting, hmem⟩ := hall g hidle
      simp [CondPoolState.isActive, hwaiting, hmem]
  obtain ⟨K, hle, hK⟩ := (awaited_of_condPool hs).covered (List.ne_nil_of_mem (hall g hg).2)
  have hnone : K = ∅ := Finset.eq_empty_of_forall_notMem fun g' hg' => by
    simpa [hactive g'] using hK g' hg'
  have hempty : s.models = [] := List.eq_nil_of_length_eq_zero (by simpa [hnone] using hle)
  obtain ⟨-, hhas⟩ := abs_of_reachable (pool_reachable hs)
  rcases (hhas ⟨some 0, 0⟩).mpr (mem_construct.mpr ⟨0, hn, rfl⟩) with hmem | ⟨g', hg'⟩
  · have hmem' : (⟨some 0, 0⟩ : ModelWrapper) ∈ s.models := Multiset.mem_coe.mp hmem
    simp [hempty] at hmem'
  · have hwrapper : (s.call g').wrapper = some ⟨some 0, 0⟩ := hg'
    by_cases hidle : s.call g' = .idle
    · simp [hidle, CallPc.wrapper] at hwrapper
    · simp [(hall g' hidle).1, CallPc.wrapper] at hwrapper

/-- Every borrower is served. From any reachable state on, if no new calls are made and the guards
that are alive are destroyed at some time, the calls can take a bounded number of steps only,
whoever the notifications wake up and in whatever order the calls lock the mutex; and they get stuck
only when each has taken a model and returned it. -/
theorem borrowers_served {n : ℕ} (hn : 0 < n) (hs : (condPoolMachine γ n).Reachable s) :
    (condPoolMachine γ n).Terminates (fun a => a.isOwn = true) (fun t => ∀ g, t.call g = .idle)
      s := by
  obtain ⟨F, hF⟩ := exists_underWay hs
  refine Machine.Terminates.of_measure (f := fun s => ∑ g ∈ F, s.rank g)
    (P := fun s => (condPoolMachine γ n).Reachable s ∧ ∀ g, s.call g ≠ .idle → g ∈ F)
    (fun s a t ha ⟨hs, hF⟩ hstep => ?_) (fun s ⟨hs, _⟩ hstuck g => ?_) ⟨hs, hF⟩
  · have hlocked := locked_of_reachable (pool_reachable hs)
    exact ⟨⟨hs.step hstep, underWay_of_own hF ha hstep⟩,
      sum_rank_step (awaited_of_condPool hs) hlocked hF ha hstep⟩
  · by_contra hg
    have hown : ¬∃ a : CondPoolAction γ, a.isOwn = true ∧ condPoolStep s a ≠ none :=
      fun ⟨a, ha, hne⟩ => hne (hstuck a ha)
    have hunlocked : ∀ g, (s.call g).hasLock = false := fun g =>
      Bool.eq_false_iff.mpr fun hlock => hown (own_step_of_hasLock hlock)
    have hfree : s.mtx = none := by
      cases hm : s.mtx with
      | none => rfl
      | some g =>
          have hlock : (s.call g).hasLock = true :=
            ((locked_of_reachable (pool_reachable hs)).owned g).mpr hm
          rw [hunlocked g] at hlock
          contradiction
    obtain ⟨g', hg', hblocked⟩ := exists_not_blocked hn hs hg
    exact hown (own_step_of_free hfree hg' hblocked)

/-- The call that waits for the only model gets and returns it. -/
theorem borrowers_served_returnedModel :
    ∃ s as t, (condPoolMachine Bool 1).run { models := ModelPool.construct 1 } returnedModel =
        some s ∧ s.call true = .waiting ∧ (condPoolMachine Bool 1).run s as = some t ∧
      ∀ g, t.call g = .idle := by
  have hrun : (condPoolMachine Bool 1).run { models := ModelPool.construct 1 } returnedModel =
    some _ := rfl
  obtain ⟨as, t, -, ht, hidle⟩ := (borrowers_served Nat.zero_lt_one ⟨_, hrun⟩).exists_run
  exact ⟨_, as, t, hrun, rfl, ht, hidle⟩

end Reachable

end Hound
