import Hound.Executor.Accounting

/-!
# The construction of the executor

The constructor initialises the members in the order of their declaration, whatever the order of
the initialiser list. `mThread` is the first, so the thread of `Run` starts while the members it
uses are still uninitialised memory. The constructor's body starts the thread of `CleanFutures`;
calls of `AddTask` and the destructor come after it.

* `ConstructionState.executor_reachable` : a run that touches no uninitialised member takes the
  executor to a state that it also reaches when it starts fully constructed.
* `untouched_iff` : these are the runs in which `Run` tests `mIsRunning` and its predicate only
  after `mIsRunning` and `mTasks` have been initialised.
-/

namespace Hound

/-- The members of `TaskExecutor`. -/
inductive Member where
  | mThread
  | mCleanFutureThread
  | mtxTaskQue
  | mtxFutureQue
  | mSleeper
  | mCondition
  | mIsRunning
  | mTasks
  | mFutures
  | nextCpuId
  deriving DecidableEq, Repr

/-- The members in the order of their declaration. -/
def Member.declared : List Member :=
  [.mThread, .mCleanFutureThread, .mtxTaskQue, .mtxFutureQue, .mSleeper, .mCondition, .mIsRunning,
    .mTasks, .mFutures, .nextCpuId]

/-- The place of a member in that order. -/
def Member.place : Member → ℕ
  | .mThread => 0
  | .mCleanFutureThread => 1
  | .mtxTaskQue => 2
  | .mtxFutureQue => 3
  | .mSleeper => 4
  | .mCondition => 5
  | .mIsRunning => 6
  | .mTasks => 7
  | .mFutures => 8
  | .nextCpuId => 9

/-- The initialisation of a member. -/
def Member.initialise {τ : Type} (s : ExecutorState τ) : Member → ExecutorState τ
  -- a thread that has just been started is at the beginning of its function
  | .mThread => s
  | .mCleanFutureThread => s
  | .mtxTaskQue => { s with mtxTaskQue := none }
  | .mtxFutureQue => { s with mtxFutureQue := none }
  -- neither has a state that a step depends on
  | .mSleeper => s
  | .mCondition => s
  | .mIsRunning => { s with mIsRunning := true }
  | .mTasks => { s with mTasks := [] }
  | .mFutures => { s with mFutures := [] }
  | .nextCpuId => { s with nextCpuId := 8 }

/-- The members that the next step of `Run` reads, writes, locks, unlocks or waits on. -/
def RunPc.touches {τ : Type} : RunPc τ → List Member
  | .loop => [.mIsRunning]
  | .lock => [.mtxTaskQue]
  | .predicate => [.mTasks, .mIsRunning]
  | .release => [.mCondition, .mtxTaskQue]
  | .blocked => [.mCondition]
  | .woken => [.mCondition, .mtxTaskQue]
  | .test => [.mIsRunning, .mTasks]
  | .breakUnlock => [.mtxTaskQue]
  | .unlock _ => [.mtxTaskQue]
  | .launch _ => []
  | .lockFutures _ => [.mtxFutureQue]
  | .store _ => [.mFutures]
  | .unlockFutures => [.mtxFutureQue]
  | .finished => []

/-- A `TaskExecutor` under construction. -/
structure ConstructionState (τ : Type) where
  /-- How many members have been initialised. -/
  initialised : ℕ := 0
  /-- The constructor has returned. -/
  constructed : Bool := false
  executor : ExecutorState τ
  /-- The members that `Run` has touched before they were initialised. -/
  touched : List Member := []

/-- The steps of the constructor, and of the threads and callers of the executor. -/
inductive ConstructionAction (τ : Type) where
  | construct
  | executor (a : ExecutorAction τ)

variable {τ : Type}

/-- The members the next step of `Run` touches although they are not initialised. -/
def ConstructionState.premature (s : ConstructionState τ) : List Member :=
  s.executor.run.touches.filter fun m => s.initialised ≤ m.place

/-- The next step of the constructor. -/
def constructStep (s : ConstructionState τ) : Option (ConstructionState τ) :=
  match Member.declared[s.initialised]? with
  | some m => some
      { s with initialised := s.initialised + 1, executor := m.initialise s.executor }
  -- the body: `mCleanFutureThread` is started
  | none => if s.constructed then none else some { s with constructed := true }

/-- Whether the thread or the caller that takes the step exists already. -/
def ConstructionState.started (s : ConstructionState τ) : ExecutorAction τ → Bool
  | .run => Member.mThread.place < s.initialised
  | .spuriousWakeup => Member.mThread.place < s.initialised
  | .clean => s.constructed
  | .addTask _ => s.constructed
  | .destructor => s.constructed
  -- launched by `Run`
  | .async _ => true

/-- The members a step touches too early: only `Run` can. -/
def ConstructionState.prematureBy (s : ConstructionState τ) : ExecutorAction τ → List Member
  | .run => s.premature
  | .spuriousWakeup => s.premature
  | _ => []

/-- A `TaskExecutor` from the beginning of its construction on, in memory that holds anything. -/
def constructionMachine (opt : CaptureOption) (τ : Type) [DecidableEq τ]
    (memory : ExecutorState τ) : Machine (ConstructionState τ) (ConstructionAction τ) where
  init :=
    -- the threads and the calls of `AddTask` are no members
    { executor := { memory with
        addTask := fun _ => .start
        run := .loop
        clean := .loop
        destructor := .start
        async := fun _ => .notLaunched
        invocations := fun _ => 0 } }
  step s
    | .construct => constructStep s
    | .executor a =>
        if s.started a then
          ((executorMachine opt τ).step s.executor a).map fun executor =>
            { s with executor, touched := s.touched ++ s.prematureBy a }
        else none

/-! ### The executor once everything is initialised -/

/-- The executor with all the members that are still to be initialised. -/
def ConstructionState.completed (s : ConstructionState τ) : ExecutorState τ :=
  (Member.declared.drop s.initialised).foldl Member.initialise s.executor

theorem Member.place_declared : ∀ (i : ℕ) (h : i < declared.length), declared[i].place = i := by
  decide

/-- What is still to be initialised comes behind what has been. -/
theorem Member.le_place {m : Member} {k : ℕ} (hm : m ∈ declared.drop k) : k ≤ m.place := by
  obtain ⟨i, hi, rfl⟩ := List.mem_iff_getElem.mp hm
  rw [List.getElem_drop, place_declared]
  exact Nat.le_add_right k i

@[simp]
theorem Member.run_initialise (s : ExecutorState τ) (m : Member) :
    (m.initialise s).run = s.run := by
  cases m <;> rfl

/-- The program points are no members. -/
theorem Member.foldl_initialise_frame (ms : List Member) (s : ExecutorState τ) :
    (ms.foldl Member.initialise s).run = s.run ∧
      (ms.foldl Member.initialise s).addTask = s.addTask ∧
      (ms.foldl Member.initialise s).destructor = s.destructor := by
  induction ms generalizing s with
  | nil => exact ⟨rfl, rfl, rfl⟩
  | cons m ms ih =>
      obtain ⟨hrun, haddTask, hdestructor⟩ := ih (m.initialise s)
      rw [List.foldl_cons, hrun, haddTask, hdestructor]
      cases m <;> exact ⟨rfl, rfl, rfl⟩

section Steps

variable [DecidableEq τ] {opt : CaptureOption} {ex ex' : ExecutorState τ} {m : Member}

/-- A step of `Run` commutes with the initialisation of a member it does not touch. -/
theorem runStep_initialise (hm : m ∉ ex.run.touches) (hstep : runStep ex = some ex') :
    runStep (m.initialise ex) = some (m.initialise ex') := by
  cases hrun : ex.run with
  | loop =>
      have hne : m ≠ .mIsRunning := by simpa [hrun, RunPc.touches] using hm
      cases hrunning : ex.mIsRunning with
      | false | true =>
          obtain rfl : _ = ex' := by simpa [runStep, hrun, hrunning] using hstep
          cases m <;> simp_all [runStep, Member.initialise]
  | lock | woken =>
      simp only [runStep, hrun] at hstep
      split at hstep
      · obtain rfl := Option.some.inj hstep
        cases m <;> simp_all [runStep, Member.initialise, RunPc.touches]
      · contradiction
  | predicate =>
      cases htest : (!ex.mTasks.isEmpty || !ex.mIsRunning) with
      | false | true =>
          simp only [runStep, hrun, htest] at hstep
          obtain rfl := Option.some.inj hstep
          cases m <;> simp_all [runStep, Member.initialise, RunPc.touches]
  | test =>
      simp only [runStep, hrun] at hstep
      split at hstep
      · split at hstep
        · contradiction
        · obtain rfl := Option.some.inj hstep
          cases m <;> simp_all [runStep, Member.initialise, RunPc.touches]
      · obtain rfl := Option.some.inj hstep
        cases m <;> simp_all [runStep, Member.initialise, RunPc.touches]
  | lockFutures c =>
      simp only [runStep, hrun] at hstep
      split at hstep
      · obtain rfl := Option.some.inj hstep
        cases m <;> simp_all [runStep, Member.initialise, RunPc.touches]
      · contradiction
  | release | breakUnlock | unlock job | unlockFutures | launch job | store c =>
      obtain rfl : _ = ex' := by simpa [runStep, hrun] using hstep
      cases m <;> simp_all [runStep, Member.initialise, RunPc.touches]
  | blocked | finished => simp [runStep, hrun] at hstep

/-- So it commutes with the initialisation of several. -/
theorem runStep_foldl_initialise (ms : List Member) (hms : ∀ m ∈ ms, m ∉ ex.run.touches)
    (hstep : runStep ex = some ex') :
    runStep (ms.foldl Member.initialise ex) = some (ms.foldl Member.initialise ex') := by
  induction ms generalizing ex ex' with
  | nil => exact hstep
  | cons m ms ih =>
      refine ih ?_ (runStep_initialise (hms m List.mem_cons_self) hstep)
      intro m' hm'
      rw [Member.run_initialise]
      exact hms m' (List.mem_cons_of_mem m hm')

omit [DecidableEq τ] in
/-- A spurious wakeup commutes with the initialisation of any member. -/
theorem spuriousWakeupStep_foldl_initialise (ms : List Member)
    (hstep : spuriousWakeupStep ex = some ex') :
    spuriousWakeupStep (ms.foldl Member.initialise ex) =
      some (ms.foldl Member.initialise ex') := by
  induction ms generalizing ex ex' with
  | nil => exact hstep
  | cons m ms ih =>
      refine ih ?_
      cases hrun : ex.run with
      | blocked =>
          obtain rfl : _ = ex' := by simpa [spuriousWakeupStep, hrun] using hstep
          cases m <;> simp [spuriousWakeupStep, Member.initialise, hrun]
      | _ => simp [spuriousWakeupStep, hrun] at hstep

/-- So does a step of a task. -/
theorem asyncStep_foldl_initialise (ms : List Member) {c : τ} (hstep : asyncStep ex c = some ex') :
    asyncStep (ms.foldl Member.initialise ex) c = some (ms.foldl Member.initialise ex') := by
  induction ms generalizing ex ex' with
  | nil => exact hstep
  | cons m ms ih =>
      refine ih ?_
      cases hasync : ex.async c with
      | notLaunched | finished => simp [asyncStep, hasync] at hstep
      | launched cpuId | running =>
          obtain rfl : _ = ex' := by simpa [asyncStep, hasync] using hstep
          cases m <;> simp [asyncStep, Member.initialise, hasync]

variable {memory : ExecutorState τ} {s t : ConstructionState τ}

omit [DecidableEq τ] in
/-- What a step of the constructor does. -/
theorem constructStep_cases (hstep : constructStep s = some t) :
    (∃ h : s.initialised < Member.declared.length,
      t = { s with
            initialised := s.initialised + 1
            executor := Member.declared[s.initialised].initialise s.executor }) ∨
      Member.declared.length ≤ s.initialised ∧ t = { s with constructed := true } := by
  unfold constructStep at hstep
  split at hstep
  · next m hm =>
      obtain ⟨hlt, rfl⟩ := List.getElem?_eq_some_iff.mp hm
      exact .inl ⟨hlt, (Option.some.inj hstep).symm⟩
  · next hnone =>
      split at hstep
      · nomatch hstep
      · exact .inr ⟨List.getElem?_eq_none_iff.mp hnone, (Option.some.inj hstep).symm⟩

/-- What a step of the executor under construction does. -/
theorem executorStep_cases {a : ExecutorAction τ}
    (hstep : (constructionMachine opt τ memory).step s (.executor a) = some t) :
    s.started a = true ∧ ∃ ex', (executorMachine opt τ).step s.executor a = some ex' ∧
      t = { s with executor := ex', touched := s.touched ++ s.prematureBy a } := by
  simp only [constructionMachine] at hstep
  split at hstep
  · next hstarted =>
      obtain ⟨ex', hex', rfl⟩ := Option.map_eq_some_iff.mp hstep
      exact ⟨hstarted, ex', hex', rfl⟩
  · nomatch hstep

omit [DecidableEq τ] in
/-- The constructor initialises what is still to be initialised. -/
theorem completed_construct (hstep : constructStep s = some t) : t.completed = s.completed := by
  rcases constructStep_cases hstep with ⟨hlt, rfl⟩ | ⟨-, rfl⟩
  · simp only [ConstructionState.completed]
    rw [List.drop_eq_getElem_cons hlt, List.foldl_cons]
  · rfl

/-- The constructor has returned only if it has initialised everything. -/
theorem initialised_of_constructed (hs : (constructionMachine opt τ memory).Reachable s)
    (hdone : s.constructed = true) : Member.declared.length ≤ s.initialised := by
  refine hs.invariant (P := fun s => s.constructed = true →
    Member.declared.length ≤ s.initialised) nofun ?_ hdone
  intro s a t hinv hstep hconstructed
  cases a with
  | construct =>
      rcases constructStep_cases hstep with ⟨hlt, rfl⟩ | ⟨hle, rfl⟩
      · exact Nat.le_succ_of_le (hinv hconstructed)
      · exact hle
  | executor a =>
      obtain ⟨-, ex', -, rfl⟩ := executorStep_cases hstep
      exact hinv hconstructed

/-- As long as `Run` touches nothing too early, the executor does what it does when it starts
fully constructed. -/
theorem ConstructionState.executor_reachable
    (hs : (constructionMachine opt τ memory).Reachable s) (huntouched : s.touched = []) :
    (executorMachine opt τ).Reachable s.completed := by
  refine hs.invariant_of (P := fun s => s.touched = [] →
    (executorMachine opt τ).Reachable s.completed) (fun _ h => initialised_of_constructed h)
    (fun _ => Machine.Reachable.init) ?_ huntouched
  intro s a t hdone hinv hstep hempty
  cases a with
  | construct =>
      have htouched : t.touched = s.touched := by
        rcases constructStep_cases hstep with ⟨-, rfl⟩ | ⟨-, rfl⟩ <;> rfl
      rw [completed_construct hstep]
      exact hinv (htouched ▸ hempty)
  | executor a =>
      obtain ⟨hstarted, ex', hex', rfl⟩ := executorStep_cases hstep
      obtain ⟨hbefore, hnow⟩ := List.append_eq_nil_iff.mp hempty
      refine (hinv hbefore).step (a := a) ?_
      -- what exists only after the constructor finds nothing left to initialise
      have hcompleted : s.constructed = true →
          (executorMachine opt τ).step s.completed a = some
            ((Member.declared.drop s.initialised).foldl Member.initialise ex') := by
        intro hc
        rw [ConstructionState.completed, List.drop_eq_nil_of_le (hdone hc)]
        exact hex'
      cases a with
      | run =>
          refine runStep_foldl_initialise _ (fun m hm hmem => ?_) hex'
          have hpremature : m ∈ s.premature :=
            List.mem_filter.mpr ⟨hmem, by simpa using Member.le_place hm⟩
          rw [show s.premature = [] from hnow] at hpremature
          nomatch hpremature
      | spuriousWakeup => exact spuriousWakeupStep_foldl_initialise _ hex'
      | async c => exact asyncStep_foldl_initialise _ hex'
      | addTask c | clean | destructor => exact hcompleted hstarted

/-! ### An executor that has nothing to do -/

/-- `Run` goes round its wait. -/
def RunPc.isWaiting {τ : Type} : RunPc τ → Bool
  | .loop | .lock | .predicate | .release | .blocked | .woken => true
  | _ => false

omit [DecidableEq τ] in
theorem RunPc.isWaiting_notified {pc : RunPc τ} (h : pc.isWaiting = true) :
    pc.notified.isWaiting = true := by
  cases pc <;> first | rfl | nomatch h

theorem waiting_run (hrunning : ex.mIsRunning = true) (htasks : ex.mTasks = [])
    (hwaiting : ex.run.isWaiting = true) (hstep : runStep ex = some ex') :
    ex'.mIsRunning = true ∧ ex'.mTasks = [] ∧ ex'.run.isWaiting = true := by
  cases hrun : ex.run with
  | loop =>
      obtain rfl : _ = ex' := by simpa [runStep, hrun, hrunning] using hstep
      exact ⟨rfl, htasks, rfl⟩
  | lock | woken =>
      simp only [runStep, hrun] at hstep
      split at hstep
      · obtain rfl := Option.some.inj hstep
        exact ⟨hrunning, htasks, rfl⟩
      · contradiction
  | predicate =>
      obtain rfl : _ = ex' := by simpa [runStep, hrun, hrunning, htasks] using hstep
      exact ⟨rfl, rfl, rfl⟩
  | release =>
      obtain rfl : _ = ex' := by simpa [runStep, hrun] using hstep
      exact ⟨hrunning, htasks, rfl⟩
  | blocked => simp [runStep, hrun] at hstep
  | _ => simp [hrun, RunPc.isWaiting] at hwaiting

/-- A call that has taken a step has begun. -/
theorem addTaskStep_begun {c : τ} (hstep : addTaskStep opt ex c = some ex') :
    ex'.addTask c ≠ .start := by
  cases hpc : ex.addTask c with
  | start =>
      obtain ⟨-, rfl⟩ : opt.numCpus ≠ 0 ∧ _ = ex' := by simpa [addTaskStep, hpc] using hstep
      simp
  | lock cpuId =>
      simp only [addTaskStep, hpc] at hstep
      split at hstep
      · obtain rfl := Option.some.inj hstep
        simp
      · contradiction
  | emplace cpuId | unlock | notify =>
      obtain rfl : _ = ex' := by simpa [addTaskStep, hpc] using hstep
      simp
  | returned => simp [addTaskStep, hpc] at hstep

/-- Before the first call and before the destructor, `Run` waits. -/
theorem waiting_of_reachable (hex : (executorMachine opt τ).Reachable ex)
    (hcalls : ∀ c, ex.addTask c = .start) (hstart : ex.destructor = .start) :
    ex.mIsRunning = true ∧ ex.mTasks = [] ∧ ex.run.isWaiting = true := by
  refine hex.invariant (P := fun ex => (∀ c, ex.addTask c = .start) → ex.destructor = .start →
    ex.mIsRunning = true ∧ ex.mTasks = [] ∧ ex.run.isWaiting = true)
    (fun _ _ => ⟨rfl, rfl, rfl⟩) ?_ hcalls hstart
  intro ex a ex' hinv hstep hcalls hstart
  cases a with
  | addTask c => exact absurd (hcalls c) (addTaskStep_begun hstep)
  | run =>
      have hsame : ex'.addTask = ex.addTask ∧ ex'.destructor = ex.destructor := by
        cases runStep_effect hstep <;> exact ⟨rfl, rfl⟩
      obtain ⟨hrunning, htasks, hwaiting⟩ := hinv (hsame.1 ▸ hcalls) (hsame.2 ▸ hstart)
      exact waiting_run hrunning htasks hwaiting hstep
  | spuriousWakeup =>
      obtain rfl := spuriousWakeupStep_eq hstep
      obtain ⟨hrunning, htasks, hwaiting⟩ := hinv hcalls hstart
      exact ⟨hrunning, htasks, RunPc.isWaiting_notified hwaiting⟩
  | clean => cases cleanStep_effect hstep <;> exact hinv hcalls hstart
  | destructor => cases destructorStep_effect hstep <;> simp_all
  | async c => cases asyncStep_effect hstep <;> exact hinv hcalls hstart

/-! ### When nothing is touched too early -/

/-- `Run` tests `mIsRunning` only after its initialisation, and the predicate of its wait only
after that of `mTasks`. -/
def ConstructionState.RunsInitialised (s : ConstructionState τ) : ConstructionAction τ → Prop
  | .executor .run =>
      (s.executor.run = .loop → Member.mIsRunning.place < s.initialised) ∧
        (s.executor.run = .predicate → Member.mTasks.place < s.initialised)
  | _ => True

/-- What is known about the executor under construction. -/
structure ConstructionState.Sound (s : ConstructionState τ) : Prop where
  untouched : s.touched = []
  /-- Nobody uses the executor before the constructor has returned. -/
  unused : s.constructed = false →
    (∀ c, s.executor.addTask c = .start) ∧ s.executor.destructor = .start
  /-- `Run` has entered its loop only after the initialisation of `mIsRunning`. -/
  entered : s.executor.run ≠ .loop → Member.mIsRunning.place < s.initialised

/-- While the constructor runs, `Run` waits. -/
theorem ConstructionState.Sound.waiting (hs : (constructionMachine opt τ memory).Reachable s)
    (hsound : s.Sound) (hbusy : s.constructed = false) : s.executor.run.isWaiting = true := by
  obtain ⟨hrun, haddTask, hdestructor⟩ :=
    Member.foldl_initialise_frame (Member.declared.drop s.initialised) s.executor
  obtain ⟨hcalls, hstart⟩ := hsound.unused hbusy
  obtain ⟨-, -, hwaiting⟩ :=
    waiting_of_reachable (ConstructionState.executor_reachable hs hsound.untouched)
      (fun c => by rw [completed, haddTask, hcalls]) (by rw [completed, hdestructor, hstart])
  rwa [completed, hrun] at hwaiting

omit [DecidableEq τ] in
theorem premature_eq_nil_iff : s.premature = [] ↔
    ∀ m ∈ s.executor.run.touches, m.place < s.initialised := by
  simp [ConstructionState.premature]

/-- What `Run` touches apart from its two tests has been initialised by then. -/
theorem premature_eq_nil (hs : (constructionMachine opt τ memory).Reachable s) (hsound : s.Sound)
    (hloop : s.executor.run = .loop → Member.mIsRunning.place < s.initialised)
    (hpredicate : s.executor.run = .predicate → Member.mTasks.place < s.initialised) :
    s.premature = [] := by
  rw [premature_eq_nil_iff]
  intro m hm
  cases hbusy : s.constructed with
  | true =>
      have hplace : m.place < Member.declared.length := by cases m <;> decide
      exact lt_of_lt_of_le hplace (initialised_of_constructed hs hbusy)
  | false =>
      have hwaiting := hsound.waiting hs hbusy
      have hentered := hsound.entered
      -- the mutex and the condition variable are declared before `mIsRunning`
      cases hrun : s.executor.run with
      | loop =>
          obtain rfl : m = .mIsRunning := by simpa [hrun, RunPc.touches] using hm
          exact hloop hrun
      | predicate =>
          have htasks := hpredicate hrun
          simp only [hrun, RunPc.touches, List.mem_cons, List.not_mem_nil, or_false] at hm
          rcases hm with rfl | rfl
          · exact htasks
          · exact lt_trans (by decide) htasks
      | lock | release | blocked | woken =>
          have hrunning := hentered (by rw [hrun]; nofun)
          simp only [hrun, RunPc.touches, List.mem_cons, List.not_mem_nil, or_false] at hm
          refine lt_trans ?_ hrunning
          revert hm
          cases m <;> decide
      | _ => simp [hrun, RunPc.isWaiting] at hwaiting

omit [DecidableEq τ] in
/-- A spurious wakeup finds `Run` blocked. -/
theorem blocked_of_spuriousWakeup (hstep : spuriousWakeupStep ex = some ex') :
    ex.run = .blocked := by
  cases hrun : ex.run <;> simp [spuriousWakeupStep, hrun] at hstep ⊢

/-- Only `Run` itself leaves the head of its loop. -/
theorem loop_of_ne_run {a : ExecutorAction τ} (ha : a ≠ .run)
    (hstep : (executorMachine opt τ).step ex a = some ex') (hloop : ex.run = .loop) :
    ex'.run = .loop := by
  have hnotified : ex.run.notified = .loop := by rw [hloop]; rfl
  cases a with
  | addTask c =>
      cases addTaskStep_effect hstep with
      | notify => exact hnotified
      | _ => exact hloop
  | run => exact absurd rfl ha
  | spuriousWakeup =>
      obtain rfl := spuriousWakeupStep_eq hstep
      exact hnotified
  | clean => cases cleanStep_effect hstep <;> exact hloop
  | destructor =>
      cases destructorStep_effect hstep with
      | notify => exact hnotified
      | _ => exact hloop
  | async c => cases asyncStep_effect hstep <;> exact hloop

/-- Only callers change the state of a call and the destructor that of the destructor. -/
theorem unused_step {a : ExecutorAction τ} (hcaller : ∀ c, a ≠ .addTask c)
    (hdestructor : a ≠ .destructor) (hstep : (executorMachine opt τ).step ex a = some ex') :
    ex'.addTask = ex.addTask ∧ ex'.destructor = ex.destructor := by
  cases a with
  | addTask c => exact absurd rfl (hcaller c)
  | run => cases runStep_effect hstep <;> exact ⟨rfl, rfl⟩
  | spuriousWakeup =>
      obtain rfl := spuriousWakeupStep_eq hstep
      exact ⟨rfl, rfl⟩
  | clean => cases cleanStep_effect hstep <;> exact ⟨rfl, rfl⟩
  | destructor => exact absurd rfl hdestructor
  | async c => cases asyncStep_effect hstep <;> exact ⟨rfl, rfl⟩

omit [DecidableEq τ] in
theorem sound_construct (hsound : s.Sound) (hstep : constructStep s = some t) : t.Sound := by
  rcases constructStep_cases hstep with ⟨hlt, rfl⟩ | ⟨-, rfl⟩
  · obtain ⟨hrun, haddTask, hdestructor⟩ :=
      Member.foldl_initialise_frame [Member.declared[s.initialised]] s.executor
    refine ⟨hsound.untouched, fun hbusy => ?_, fun hne => ?_⟩
    · obtain ⟨hcalls, hstart⟩ := hsound.unused hbusy
      exact ⟨fun c => (congrFun haddTask c).trans (hcalls c), hdestructor.trans hstart⟩
    · exact Nat.lt_succ_of_lt (hsound.entered (hrun ▸ hne))
  · exact ⟨hsound.untouched, nofun, hsound.entered⟩

theorem sound_executor (hs : (constructionMachine opt τ memory).Reachable s) (hsound : s.Sound)
    {a : ExecutorAction τ} (hready : s.RunsInitialised (.executor a))
    (hstep : (constructionMachine opt τ memory).step s (.executor a) = some t) : t.Sound := by
  obtain ⟨hstarted, ex', hex', rfl⟩ := executorStep_cases hstep
  refine ⟨?_, fun hbusy => ?_, fun hne => ?_⟩
  · have hpremature : s.prematureBy a = [] := by
      cases a with
      | run => exact premature_eq_nil hs hsound hready.1 hready.2
      | spuriousWakeup =>
          have hrun := blocked_of_spuriousWakeup hex'
          exact premature_eq_nil hs hsound (fun h => by simp [hrun] at h)
            (fun h => by simp [hrun] at h)
      | _ => rfl
    exact List.append_eq_nil_iff.mpr ⟨hsound.untouched, hpremature⟩
  · -- the constructor has not returned, so this is neither a caller nor the destructor
    have hcaller : ∀ c, a ≠ .addTask c := by
      rintro c rfl
      exact absurd (hstarted.symm.trans hbusy) nofun
    have hdestructor : a ≠ .destructor := by
      rintro rfl
      exact absurd (hstarted.symm.trans hbusy) nofun
    obtain ⟨haddTask, hsame⟩ := unused_step hcaller hdestructor hex'
    obtain ⟨hcalls, hstart⟩ := hsound.unused hbusy
    exact ⟨fun c => (congrFun haddTask c).trans (hcalls c), hsame.trans hstart⟩
  · by_cases hloop : s.executor.run = .loop
    · by_cases ha : a = .run
      · subst ha
        exact hready.1 hloop
      · exact absurd (loop_of_ne_run ha hex' hloop) hne
    · exact hsound.entered hloop

/-- While `mIsRunning` is set, `Run` does not get out of its loop. -/
theorem loop_not_left_run (hrunning : ex.mIsRunning = true) (hbreak : ex.run ≠ .breakUnlock)
    (hstep : runStep ex = some ex') :
    ex'.mIsRunning = true ∧ ex'.run ≠ .breakUnlock ∧ ex'.run ≠ .finished := by
  have hsame : ex'.mIsRunning = true := by
    cases runStep_effect hstep <;> exact hrunning
  refine ⟨hsame, ?_⟩
  cases hrun : ex.run with
  | breakUnlock => exact absurd hrun hbreak
  | test =>
      cases htasks : ex.mTasks with
      | nil => simp [runStep, hrun, htasks, hrunning] at hstep
      | cons job rest =>
          obtain rfl : _ = ex' := by simpa [runStep, hrun, htasks] using hstep
          simp
  | loop =>
      obtain rfl : _ = ex' := by simpa [runStep, hrun, hrunning] using hstep
      simp
  | lock | woken | lockFutures c =>
      simp only [runStep, hrun] at hstep
      split at hstep
      · obtain rfl := Option.some.inj hstep
        simp
      · contradiction
  | predicate =>
      obtain rfl : _ = ex' := by simpa [runStep, hrun] using hstep
      constructor <;> split <;> simp
  | release | unlock job | launch job | store c | unlockFutures =>
      obtain rfl : _ = ex' := by simpa [runStep, hrun] using hstep
      simp
  | blocked | finished => simp [runStep, hrun] at hstep

/-- A fully constructed executor leaves its loop only after the destructor has started. -/
theorem loop_not_left (hex : (executorMachine opt τ).Reachable ex)
    (hstart : ex.destructor = .start) :
    ex.mIsRunning = true ∧ ex.run ≠ .breakUnlock ∧ ex.run ≠ .finished := by
  refine hex.invariant (P := fun ex => ex.destructor = .start →
    ex.mIsRunning = true ∧ ex.run ≠ .breakUnlock ∧ ex.run ≠ .finished)
    (fun _ => ⟨rfl, nofun, nofun⟩) ?_ hstart
  intro ex a ex' hinv hstep hstart
  -- a notification does not take `Run` out of its loop
  have hnotified : ex.mIsRunning = true ∧ ex.run ≠ .breakUnlock ∧ ex.run ≠ .finished →
      ex.mIsRunning = true ∧ ex.run.notified ≠ .breakUnlock ∧ ex.run.notified ≠ .finished := by
    rintro ⟨hrunning, hbreak, hfinished⟩
    refine ⟨hrunning, ?_⟩
    cases hrun : ex.run <;> simp_all [RunPc.notified]
  cases a with
  | addTask c =>
      cases addTaskStep_effect hstep with
      | notify => exact hnotified (hinv hstart)
      | _ => exact hinv hstart
  | run =>
      have hsame : ex'.destructor = ex.destructor := by cases runStep_effect hstep <;> rfl
      obtain ⟨hrunning, hbreak, -⟩ := hinv (hsame ▸ hstart)
      exact loop_not_left_run hrunning hbreak hstep
  | spuriousWakeup =>
      obtain rfl := spuriousWakeupStep_eq hstep
      exact hnotified (hinv hstart)
  | clean => cases cleanStep_effect hstep <;> exact hinv hstart
  | destructor => cases destructorStep_effect hstep <;> simp_all
  | async c => cases asyncStep_effect hstep <;> exact hinv hstart

/-- Every run whose steps meet the condition is sound. -/
theorem sound_of_stepsMeet {as : List (ConstructionAction τ)}
    (hmeet : (constructionMachine opt τ memory).StepsMeet ConstructionState.RunsInitialised
      (constructionMachine opt τ memory).init as)
    (hrun : (constructionMachine opt τ memory).run (constructionMachine opt τ memory).init as =
      some t) : t.Sound := by
  refine Machine.StepsMeet.run_induction ?_ as Machine.Reachable.init hmeet ?_ hrun
  · intro s a t hs hsound hguard hstep
    cases a with
    | construct => exact sound_construct hsound hstep
    | executor a => exact sound_executor hs hsound hguard hstep
  · exact ⟨rfl, fun _ => ⟨fun _ => rfl, rfl⟩, fun h => absurd rfl h⟩

/-- `Run` touches no member before its initialisation, and does not leave its loop before the
destructor has started, exactly in the runs in which it tests `mIsRunning` and the predicate of
its wait only after `mIsRunning` and `mTasks` have been initialised. -/
theorem untouched_iff (opt : CaptureOption) (memory : ExecutorState τ)
    {as : List (ConstructionAction τ)}
    (hrun : (constructionMachine opt τ memory).run (constructionMachine opt τ memory).init as =
      some t) :
    (t.touched = [] ∧ (t.executor.run = .finished → t.executor.destructor ≠ .start)) ↔
      (constructionMachine opt τ memory).StepsMeet ConstructionState.RunsInitialised
        (constructionMachine opt τ memory).init as := by
  constructor
  · rintro ⟨huntouched, -⟩
    refine Machine.StepsMeet.of_not (B := fun s => s.touched ≠ []) ?_ ?_ as
      Machine.Reachable.init hrun (not_not_intro huntouched)
    · -- what has been touched has been touched
      intro s a t _ hbad hstep
      cases a with
      | construct => rcases constructStep_cases hstep with ⟨-, rfl⟩ | ⟨-, rfl⟩ <;> exact hbad
      | executor a =>
          obtain ⟨-, ex', -, rfl⟩ := executorStep_cases hstep
          exact List.append_ne_nil_of_left_ne_nil hbad _
    · intro s a t _ hguard hstep
      cases a with
      | construct => exact absurd trivial hguard
      | executor a =>
          obtain ⟨-, ex', -, rfl⟩ := executorStep_cases hstep
          cases a with
          | run =>
              refine List.append_ne_nil_of_right_ne_nil _ fun hempty => hguard ⟨?_, ?_⟩
              · intro hloop
                exact premature_eq_nil_iff.mp hempty _ (by simp [hloop, RunPc.touches])
              · intro hpredicate
                exact premature_eq_nil_iff.mp hempty _ (by simp [hpredicate, RunPc.touches])
          | _ => exact absurd trivial hguard
  · intro hmeet
    have hsound := sound_of_stepsMeet hmeet hrun
    refine ⟨hsound.untouched, fun hfinished hstart => ?_⟩
    obtain ⟨hrunpc, -, hdestructor⟩ :=
      Member.foldl_initialise_frame (Member.declared.drop t.initialised) t.executor
    have hreachable := ConstructionState.executor_reachable ⟨as, hrun⟩ hsound.untouched
    exact (loop_not_left hreachable (hdestructor.trans hstart)).2.2 (hrunpc.trans hfinished)

/-- The constructor initialises everything before `Run` takes a step. -/
def constructedFirst : List (ConstructionAction Unit) :=
  List.replicate 11 .construct ++ List.replicate 4 (.executor .run)

/-- Its tests then meet the condition. -/
theorem untouched_constructedFirst :
    ∃ t, (constructionMachine {} Unit {}).run (constructionMachine {} Unit {}).init
        constructedFirst = some t ∧ t.executor.run = .blocked ∧
      (constructionMachine {} Unit {}).StepsMeet ConstructionState.RunsInitialised
        (constructionMachine {} Unit {}).init constructedFirst := by
  have hrun : (constructionMachine {} Unit {}).run (constructionMachine {} Unit {}).init
    constructedFirst = some _ := rfl
  exact ⟨_, hrun, rfl, (untouched_iff {} {} hrun).mp ⟨rfl, nofun⟩⟩

/-- `Run` tests `mIsRunning` as soon as its thread exists. -/
def runFirst : List (ConstructionAction Unit) := [.construct, .executor .run]

/-- In memory where `mIsRunning` is not set, `Run` is then over before the executor is there. -/
theorem touched_runFirst :
    ¬∀ (memory : ExecutorState Unit) (as : List (ConstructionAction Unit))
      (t : ConstructionState Unit),
      (constructionMachine {} Unit memory).run (constructionMachine {} Unit memory).init as =
          some t →
        t.touched = [] ∧ (t.executor.run = .finished → t.executor.destructor ≠ .start) := by
  intro h
  obtain ⟨-, hleft⟩ := h { mIsRunning := false } runFirst _ rfl
  exact hleft rfl rfl

end Steps

end Hound
