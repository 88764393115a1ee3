import Hound.Capture.Option
import Hound.ToMathlib.Machine
import Mathlib.Data.List.Count
import Mathlib.Logic.Function.Basic

/-!
# The task executor

`TaskExecutor` runs each task it is given in a thread of its own. `AddTask` puts a task in
`mTasks`; the thread of `Run` takes it out, launches it with `std::async` and keeps its future in
`mFutures`; a second thread removes the futures of finished tasks now and then; the destructor
stops and joins both.

Every thread is a program point that says what it does next: locking, unlocking, loading and
storing `mIsRunning`, notifying, and releasing the mutex in a wait are one step each. The threads
take their steps in any order. A call of `AddTask` and the task it adds have the same name, an
element of `τ`, so there may be any number of calls.

* `executorMachine` : the executor from the end of its construction on.
* `runStep_effect`, `addTaskStep_effect`, … : what a step of each thread can do.
* `task_step` : what a step can do to one task.
-/

namespace Hound

/-- An element of `mTasks`: the task and the CPU it is to run on. -/
structure Job (τ : Type) where
  task : τ
  cpuId : Int32

/-- What a call of `AddTask` does next. -/
inductive AddTaskPc where
  /-- `next_cpu_id.fetch_add(1)`. -/
  | start
  | lock (cpuId : Int32)
  /-- `mTasks.emplace(task, cpu_id)`, with `mtxTaskQue` locked. -/
  | emplace (cpuId : Int32)
  | unlock
  /-- `mCondition.notify_one()`. -/
  | notify
  | returned

/-- What `Run` does next. -/
inductive RunPc (τ : Type) where
  /-- `while (mIsRunning)`. -/
  | loop
  | lock
  /-- The predicate of `mCondition.wait`, with `mtxTaskQue` locked. -/
  | predicate
  /-- The predicate was false: unlock and block. -/
  | release
  | blocked
  /-- Notified, or woken up for no reason: lock again. -/
  | woken
  /-- `if (!mIsRunning && mTasks.empty())`, and the pop if it does not hold. -/
  | test
  | breakUnlock
  | unlock (job : Job τ)
  /-- `std::async`. -/
  | launch (job : Job τ)
  /-- Lock `mtxFutureQue` with the future in `task_future`. -/
  | lockFutures (task : τ)
  /-- `mFutures.emplace_back(std::move(task_future))`. -/
  | store (task : τ)
  | unlockFutures
  | finished

/-- What the thread of `CleanFutures` does next. -/
inductive CleanPc where
  /-- `while (mIsRunning)`. -/
  | loop
  /-- `mSleeper.sleep_for`. How long it takes is left open, so `mSleeper.wakeup()` is, too. -/
  | sleep
  | lock
  /-- `std::ranges::remove_if` tests the future at `first`; those it keeps end at `result`. -/
  | remove (result first : ℕ)
  /-- `mFutures.erase`. -/
  | erase (result : ℕ)
  | unlock
  | finished

/-- What `~TaskExecutor` does next. -/
inductive DestructorPc where
  /-- `mIsRunning = false`. -/
  | start
  | lock
  /-- `mCondition.notify_all()`. -/
  | notify
  | unlock
  /-- `mThread.join()`. -/
  | join
  /-- `mCleanFutureThread.join()`. -/
  | joinClean
  /-- The destructor of `mFutures`. -/
  | destroyFutures
  | returned

/-- The thread of a task. -/
inductive AsyncPc where
  | notLaunched
  /-- `SetThreadAffinity(cpu_id)`, then `task_()`. -/
  | launched (cpuId : Int32)
  | running
  /-- The future is ready. -/
  | finished

/-- Who may hold `mtxTaskQue`. -/
inductive TaskQueOwner (τ : Type) where
  | addTask (c : τ)
  | run
  | destructor

/-- Who may hold `mtxFutureQue`. -/
inductive FutureQueOwner where
  | run
  | clean

/-- A `TaskExecutor` with its threads. -/
structure ExecutorState (τ : Type) where
  mIsRunning : Bool := true
  mTasks : List (Job τ) := []
  nextCpuId : Int32 := 8
  /-- The future of each launched task; `none` is one that has been moved from. -/
  mFutures : List (Option τ) := []
  mtxTaskQue : Option (TaskQueOwner τ) := none
  mtxFutureQue : Option FutureQueOwner := none
  addTask : τ → AddTaskPc := fun _ => .start
  run : RunPc τ := .loop
  clean : CleanPc := .loop
  destructor : DestructorPc := .start
  async : τ → AsyncPc := fun _ => .notLaunched
  /-- How often each task has been invoked. -/
  invocations : τ → ℕ := fun _ => 0

/-- Which thread takes a step. -/
inductive ExecutorAction (τ : Type) where
  | addTask (c : τ)
  | run
  /-- `mCondition.wait` wakes up without a notification. -/
  | spuriousWakeup
  | clean
  | destructor
  | async (c : τ)

variable {τ : Type}

/-- A notification of `mCondition` wakes `Run` up if it is blocked and is lost otherwise. -/
def RunPc.notified : RunPc τ → RunPc τ
  | .blocked => .woken
  | pc => pc

/-- A future that can be overwritten or destroyed without waiting for its task. -/
def ExecutorState.isReady (s : ExecutorState τ) : Option τ → Bool
  | none => true
  | some c => match s.async c with
      | .finished => true
      | _ => false

/-- `Run`. -/
def runStep [DecidableEq τ] (s : ExecutorState τ) : Option (ExecutorState τ) :=
  match s.run with
  | .loop => some { s with run := if s.mIsRunning then .lock else .finished }
  | .lock => match s.mtxTaskQue with
      | none => some { s with mtxTaskQue := some .run, run := .predicate }
      | some _ => none
  | .predicate => some
      { s with run := if !s.mTasks.isEmpty || !s.mIsRunning then .test else .release }
  | .release => some { s with mtxTaskQue := none, run := .blocked }
  -- only a notification or a spurious wakeup takes `Run` on
  | .blocked => none
  | .woken => match s.mtxTaskQue with
      | none => some { s with mtxTaskQue := some .run, run := .predicate }
      | some _ => none
  | .test => match s.mTasks with
      -- the front of an empty queue is undefined
      | [] => if s.mIsRunning then none else some { s with run := .breakUnlock }
      | job :: rest => some { s with mTasks := rest, run := .unlock job }
  | .breakUnlock => some { s with mtxTaskQue := none, run := .finished }
  | .unlock job => some { s with mtxTaskQue := none, run := .launch job }
  | .launch job => some
      { s with
        async := Function.update s.async job.task (.launched job.cpuId)
        run := .lockFutures job.task }
  -- the mutex of the queue has been released, so tasks can be added meanwhile
  | .lockFutures c => match s.mtxFutureQue with
      | none => some { s with mtxFutureQue := some .run, run := .store c }
      | some _ => none
  | .store c => some { s with mFutures := s.mFutures ++ [some c], run := .unlockFutures }
  | .unlockFutures => some { s with mtxFutureQue := none, run := .loop }
  | .finished => none

/-- `AddTask`, call `c`. -/
def addTaskStep [DecidableEq τ] (opt : CaptureOption) (s : ExecutorState τ) (c : τ) :
    Option (ExecutorState τ) :=
  match s.addTask c with
  | .start =>
      -- a division by zero is undefined
      if opt.numCpus = 0 then none else
        let cpuId := (s.nextCpuId.toUInt32 % opt.numCpus).toInt32
        some
          { s with
            nextCpuId := s.nextCpuId + 1
            addTask := Function.update s.addTask c (.lock cpuId) }
  | .lock cpuId => match s.mtxTaskQue with
      | none => some
          { s with
            mtxTaskQue := some (.addTask c)
            addTask := Function.update s.addTask c (.emplace cpuId) }
      | some _ => none
  | .emplace cpuId => some
      { s with
        mTasks := s.mTasks ++ [{ task := c, cpuId }]
        addTask := Function.update s.addTask c .unlock }
  | .unlock => some
      { s with mtxTaskQue := none, addTask := Function.update s.addTask c .notify }
  | .notify => some
      { s with run := s.run.notified, addTask := Function.update s.addTask c .returned }
  | .returned => none

/-- The thread of `CleanFutures`. Overwriting or destroying a future waits for its task. -/
def cleanStep (s : ExecutorState τ) : Option (ExecutorState τ) :=
  match s.clean with
  | .loop => some { s with clean := if s.mIsRunning then .sleep else .finished }
  | .sleep => some { s with clean := .lock }
  | .lock => match s.mtxFutureQue with
      | none => some { s with mtxFutureQue := some .clean, clean := .remove 0 0 }
      | some _ => none
  | .remove result first => match s.mFutures[first]? with
      | none => some { s with clean := .erase result }
      -- `wait_for` on a future that has been moved from is undefined
      | some none => none
      | some (some c) =>
          if s.isReady (some c) then some { s with clean := .remove result (first + 1) } else
            -- the future is moved out of `first`, then into `result`; as long as nothing has been
            -- removed they are the same place
            match (s.mFutures.set first none)[result]? with
            | none => none
            | some f =>
                if s.isReady f then some
                  { s with
                    mFutures := (s.mFutures.set first none).set result (some c)
                    clean := .remove (result + 1) (first + 1) }
                else none
  | .erase result =>
      if (s.mFutures.drop result).all s.isReady then
        some { s with mFutures := s.mFutures.take result, clean := .unlock }
      else none
  | .unlock => some { s with mtxFutureQue := none, clean := .loop }
  | .finished => none

/-- `~TaskExecutor`. -/
def destructorStep (s : ExecutorState τ) : Option (ExecutorState τ) :=
  match s.destructor with
  -- the flag is cleared before the mutex is locked
  | .start => some { s with mIsRunning := false, destructor := .lock }
  | .lock => match s.mtxTaskQue with
      | none => some { s with mtxTaskQue := some .destructor, destructor := .notify }
      | some _ => none
  | .notify => some { s with run := s.run.notified, destructor := .unlock }
  | .unlock => some { s with mtxTaskQue := none, destructor := .join }
  | .join => match s.run with
      | .finished => some { s with destructor := .joinClean }
      | _ => none
  | .joinClean => match s.clean with
      | .finished => some { s with destructor := .destroyFutures }
      | _ => none
  | .destroyFutures => match s.mFutures with
      | [] => some { s with destructor := .returned }
      | f :: rest => if s.isReady f then some { s with mFutures := rest } else none
  | .returned => none

/-- The thread of task `c`. -/
def asyncStep [DecidableEq τ] (s : ExecutorState τ) (c : τ) : Option (ExecutorState τ) :=
  match s.async c with
  | .notLaunched => none
  | .launched _ => some
      { s with
        async := Function.update s.async c .running
        invocations := Function.update s.invocations c (s.invocations c + 1) }
  | .running => some { s with async := Function.update s.async c .finished }
  | .finished => none

/-- `mCondition.wait` may wake up at any time. -/
def spuriousWakeupStep (s : ExecutorState τ) : Option (ExecutorState τ) :=
  match s.run with
  | .blocked => some { s with run := .woken }
  | _ => none

/-- A fully constructed `TaskExecutor` with `τ` calls of `AddTask` to come. -/
def executorMachine (opt : CaptureOption) (τ : Type) [DecidableEq τ] :
    Machine (ExecutorState τ) (ExecutorAction τ) where
  init := {}
  step s
    | .addTask c => addTaskStep opt s c
    | .run => runStep s
    | .spuriousWakeup => spuriousWakeupStep s
    | .clean => cleanStep s
    | .destructor => destructorStep s
    | .async c => asyncStep s c

/-! ### What a step does

A step that changes nothing but program points and mutexes is called silent.
-/

/-- The task `Run` has taken out of the queue and not launched yet. -/
def RunPc.popped : RunPc τ → List τ
  | .unlock job => [job.task]
  | .launch job => [job.task]
  | _ => []

/-- The content of `task_future`. -/
def RunPc.taskFuture : RunPc τ → List (Option τ)
  | .lockFutures c => [some c]
  | .store c => [some c]
  | _ => []

/-- `Run` has passed the head of its loop and not yet decided whether to pop or to leave. -/
def RunPc.beforePop : RunPc τ → Bool
  | .lock | .predicate | .release | .blocked | .woken | .test => true
  | _ => false

/-- The call has put its task in the queue. -/
def AddTaskPc.emplaced : AddTaskPc → Bool
  | .unlock | .notify | .returned => true
  | _ => false

@[simp]
theorem RunPc.popped_notified (pc : RunPc τ) : pc.notified.popped = pc.popped := by
  cases pc <;> rfl

@[simp]
theorem RunPc.taskFuture_notified (pc : RunPc τ) : pc.notified.taskFuture = pc.taskFuture := by
  cases pc <;> rfl

@[simp]
theorem RunPc.beforePop_notified (pc : RunPc τ) : pc.notified.beforePop = pc.beforePop := by
  cases pc <;> rfl

section Effects

variable [DecidableEq τ] {opt : CaptureOption} {s t : ExecutorState τ} {c : τ}

/-- What a step of `Run` can do. -/
inductive RunEffect (s : ExecutorState τ) : ExecutorState τ → Prop
  | silent (pc : RunPc τ) (queLock : Option (TaskQueOwner τ)) (futureLock : Option FutureQueOwner)
      (hrun : s.run ≠ .finished) (hpopped : pc.popped = s.run.popped)
      (hfuture : pc.taskFuture = s.run.taskFuture)
      -- a pass of the loop begins only while `mIsRunning` holds, and is left only when nothing
      -- is queued
      (hbefore : pc.beforePop = s.run.beforePop ∨ s.mIsRunning = true ∨ s.mTasks = [])
      (htest : pc = .test → s.mTasks ≠ [] ∨ s.mIsRunning = false) :
      RunEffect s { s with run := pc, mtxTaskQue := queLock, mtxFutureQue := futureLock }
  | pop (job : Job τ) (rest : List (Job τ)) (hrun : s.run = .test)
      (htasks : s.mTasks = job :: rest) :
      RunEffect s { s with mTasks := rest, run := .unlock job }
  | launch (job : Job τ) (hrun : s.run = .launch job) :
      RunEffect s
        { s with
          async := Function.update s.async job.task (.launched job.cpuId)
          run := .lockFutures job.task }
  | store (c : τ) (hrun : s.run = .store c) :
      RunEffect s { s with mFutures := s.mFutures ++ [some c], run := .unlockFutures }

theorem runStep_effect (hstep : runStep s = some t) : RunEffect s t := by
  cases hrun : s.run with
  | test =>
      cases htasks : s.mTasks with
      | nil =>
          obtain ⟨-, rfl⟩ : ¬s.mIsRunning = true ∧ { s with run := .breakUnlock } = t := by
            simpa [runStep, hrun, htasks] using hstep
          exact .silent _ _ _ (by rw [hrun]; nofun) (by rw [hrun]; rfl) (by rw [hrun]; rfl)
              (.inr (.inr htasks)) nofun
      | cons job rest =>
          obtain rfl : _ = t := by simpa [runStep, hrun, htasks] using hstep
          exact .pop job rest hrun htasks
  | launch job =>
      obtain rfl : _ = t := by simpa [runStep, hrun] using hstep
      exact .launch job hrun
  | store c =>
      obtain rfl : _ = t := by simpa [runStep, hrun] using hstep
      exact .store c hrun
  | blocked | finished => simp [runStep, hrun] at hstep
  | lock | woken =>
      cases hlock : s.mtxTaskQue with
      | some _ => simp [runStep, hrun, hlock] at hstep
      | none =>
          obtain rfl : _ = t := by simpa [runStep, hrun, hlock] using hstep
          exact .silent _ _ _ (by rw [hrun]; nofun) (by rw [hrun]; rfl) (by rw [hrun]; rfl)
            (.inl (by rw [hrun]; rfl)) nofun
  | lockFutures c =>
      cases hlock : s.mtxFutureQue with
      | some _ => simp [runStep, hrun, hlock] at hstep
      | none =>
          obtain rfl : _ = t := by simpa [runStep, hrun, hlock] using hstep
          exact .silent _ _ _ (by rw [hrun]; nofun) (by rw [hrun]; rfl) (by rw [hrun]; rfl)
            (.inl (by rw [hrun]; rfl)) nofun
  | loop | predicate =>
      obtain rfl : _ = t := by simpa [runStep, hrun] using hstep
      refine .silent _ _ _ (by rw [hrun]; nofun) ?_ ?_ ?_ ?_ <;> split <;>
        simp_all [RunPc.popped, RunPc.taskFuture, RunPc.beforePop]
  | release | breakUnlock | unlock job | unlockFutures =>
      obtain rfl : _ = t := by simpa [runStep, hrun] using hstep
      exact .silent _ _ _ (by rw [hrun]; nofun) (by rw [hrun]; rfl) (by rw [hrun]; rfl)
        (.inl (by rw [hrun]; rfl)) nofun

/-- What a step of a call of `AddTask` can do. -/
inductive AddTaskEffect (s : ExecutorState τ) (c : τ) : ExecutorState τ → Prop
  | silent (pc : AddTaskPc) (nextCpuId : Int32) (queLock : Option (TaskQueOwner τ))
      (hcall : (s.addTask c).emplaced = pc.emplaced) (hreturned : s.addTask c ≠ .returned) :
      AddTaskEffect s c
        { s with nextCpuId, mtxTaskQue := queLock, addTask := Function.update s.addTask c pc }
  | emplace (cpuId : Int32) (hcall : s.addTask c = .emplace cpuId) :
      AddTaskEffect s c
        { s with
          mTasks := s.mTasks ++ [{ task := c, cpuId }]
          addTask := Function.update s.addTask c .unlock }
  | notify (hcall : s.addTask c = .notify) :
      AddTaskEffect s c
        { s with run := s.run.notified, addTask := Function.update s.addTask c .returned }

theorem addTaskStep_effect (hstep : addTaskStep opt s c = some t) : AddTaskEffect s c t := by
  cases hcall : s.addTask c with
  | start =>
      obtain ⟨-, rfl⟩ : opt.numCpus ≠ 0 ∧ _ = t := by simpa [addTaskStep, hcall] using hstep
      exact .silent _ _ _ (by rw [hcall]; rfl) (by rw [hcall]; nofun)
  | lock cpuId =>
      cases hlock : s.mtxTaskQue with
      | some _ => simp [addTaskStep, hcall, hlock] at hstep
      | none =>
          obtain rfl : _ = t := by simpa [addTaskStep, hcall, hlock] using hstep
          exact .silent _ _ _ (by rw [hcall]; rfl) (by rw [hcall]; nofun)
  | emplace cpuId =>
      obtain rfl : _ = t := by simpa [addTaskStep, hcall] using hstep
      exact .emplace cpuId hcall
  | unlock =>
      obtain rfl : _ = t := by simpa [addTaskStep, hcall] using hstep
      exact .silent _ _ _ (by rw [hcall]; rfl) (by rw [hcall]; nofun)
  | notify =>
      obtain rfl : _ = t := by simpa [addTaskStep, hcall] using hstep
      exact .notify hcall
  | returned => simp [addTaskStep, hcall] at hstep

/-- What a step of the thread of `CleanFutures` can do. -/
inductive CleanEffect (s : ExecutorState τ) : ExecutorState τ → Prop
  | silent (pc : CleanPc) (futureLock : Option FutureQueOwner) (hclean : s.clean ≠ .finished) :
      CleanEffect s { s with clean := pc, mtxFutureQue := futureLock }
  | keep (result first : ℕ) (c : τ) (f : Option τ) (hclean : s.clean = .remove result first)
      (hfirst : s.mFutures[first]? = some (some c))
      (hresult : (s.mFutures.set first none)[result]? = some f) (hready : s.isReady f = true) :
      CleanEffect s
        { s with
          mFutures := (s.mFutures.set first none).set result (some c)
          clean := .remove (result + 1) (first + 1) }
  | erase (result : ℕ) (hclean : s.clean = .erase result)
      (hready : ∀ f ∈ s.mFutures.drop result, s.isReady f = true) :
      CleanEffect s { s with mFutures := s.mFutures.take result, clean := .unlock }

omit [DecidableEq τ] in
theorem cleanStep_effect (hstep : cleanStep s = some t) : CleanEffect s t := by
  cases hclean : s.clean with
  | loop | sleep | unlock =>
      obtain rfl : _ = t := by simpa [cleanStep, hclean] using hstep
      exact .silent _ _ (by rw [hclean]; nofun)
  | lock =>
      cases hlock : s.mtxFutureQue with
      | some _ => simp [cleanStep, hclean, hlock] at hstep
      | none =>
          obtain rfl : _ = t := by simpa [cleanStep, hclean, hlock] using hstep
          exact .silent _ _ (by rw [hclean]; nofun)
  | remove result first =>
      cases hfirst : s.mFutures[first]? with
      | none =>
          obtain rfl : _ = t := by
            simpa only [cleanStep, hclean, hfirst, Option.some.injEq] using hstep
          exact .silent _ _ (by rw [hclean]; nofun)
      | some moved =>
          cases moved with
          | none => simp only [cleanStep, hclean, hfirst, reduceCtorEq] at hstep
          | some c =>
              simp only [cleanStep, hclean, hfirst] at hstep
              split at hstep
              · obtain rfl := Option.some.inj hstep
                exact .silent _ _ (by rw [hclean]; nofun)
              · split at hstep
                · nomatch hstep
                · next f hresult =>
                    split at hstep
                    · next hready =>
                        obtain rfl := Option.some.inj hstep
                        exact .keep result first c f hclean hfirst hresult hready
                    · nomatch hstep
  | erase result =>
      simp only [cleanStep, hclean, List.all_eq_true] at hstep
      split at hstep
      · next hready =>
          obtain rfl := Option.some.inj hstep
          exact .erase result hclean hready
      · nomatch hstep
  | finished => simp [cleanStep, hclean] at hstep

/-- What a step of `~TaskExecutor` can do. -/
inductive DestructorEffect (s : ExecutorState τ) : ExecutorState τ → Prop
  | stop (hpc : s.destructor = .start) :
      DestructorEffect s { s with mIsRunning := false, destructor := .lock }
  | lock (hpc : s.destructor = .lock) :
      DestructorEffect s { s with mtxTaskQue := some .destructor, destructor := .notify }
  | notify (hpc : s.destructor = .notify) :
      DestructorEffect s { s with run := s.run.notified, destructor := .unlock }
  | unlock (hpc : s.destructor = .unlock) :
      DestructorEffect s { s with mtxTaskQue := none, destructor := .join }
  | join (hpc : s.destructor = .join) (hrun : s.run = .finished) :
      DestructorEffect s { s with destructor := .joinClean }
  | joinClean (hpc : s.destructor = .joinClean) (hclean : s.clean = .finished) :
      DestructorEffect s { s with destructor := .destroyFutures }
  | destroyFuture (f : Option τ) (rest : List (Option τ)) (hpc : s.destructor = .destroyFutures)
      (hfutures : s.mFutures = f :: rest) (hready : s.isReady f = true) :
      DestructorEffect s { s with mFutures := rest, destructor := .destroyFutures }
  | finish (hpc : s.destructor = .destroyFutures) (hfutures : s.mFutures = []) :
      DestructorEffect s { s with destructor := .returned }

omit [DecidableEq τ] in
theorem destructorStep_effect (hstep : destructorStep s = some t) : DestructorEffect s t := by
  cases hpc : s.destructor with
  | start =>
      obtain rfl : _ = t := by simpa [destructorStep, hpc] using hstep
      exact .stop hpc
  | lock =>
      cases hlock : s.mtxTaskQue with
      | some _ => simp [destructorStep, hpc, hlock] at hstep
      | none =>
          obtain rfl : _ = t := by simpa [destructorStep, hpc, hlock] using hstep
          exact .lock hpc
  | notify =>
      obtain rfl : _ = t := by simpa [destructorStep, hpc] using hstep
      exact .notify hpc
  | unlock =>
      obtain rfl : _ = t := by simpa [destructorStep, hpc] using hstep
      exact .unlock hpc
  | join =>
      simp only [destructorStep, hpc] at hstep
      split at hstep
      · next hrun =>
          obtain rfl := Option.some.inj hstep
          exact .join hpc hrun
      · nomatch hstep
  | joinClean =>
      simp only [destructorStep, hpc] at hstep
      split at hstep
      · next hclean =>
          obtain rfl := Option.some.inj hstep
          exact .joinClean hpc hclean
      · nomatch hstep
  | destroyFutures =>
      simp only [destructorStep, hpc] at hstep
      split at hstep
      · next hfutures =>
          obtain rfl := Option.some.inj hstep
          exact .finish hpc hfutures
      · next f rest hfutures =>
          split at hstep
          · next hready =>
              obtain rfl := Option.some.inj hstep
              exact .destroyFuture f rest hpc hfutures hready
          · nomatch hstep
  | returned => simp [destructorStep, hpc] at hstep

/-- What a step of a task's thread can do. -/
inductive AsyncEffect (s : ExecutorState τ) (c : τ) : ExecutorState τ → Prop
  | invoke (cpuId : Int32) (hasync : s.async c = .launched cpuId) :
      AsyncEffect s c
        { s with
          async := Function.update s.async c .running
          invocations := Function.update s.invocations c (s.invocations c + 1) }
  | finish (hasync : s.async c = .running) :
      AsyncEffect s c { s with async := Function.update s.async c .finished }

theorem asyncStep_effect (hstep : asyncStep s c = some t) : AsyncEffect s c t := by
  cases hasync : s.async c with
  | launched cpuId =>
      obtain rfl : _ = t := by simpa [asyncStep, hasync] using hstep
      exact .invoke cpuId hasync
  | running =>
      obtain rfl : _ = t := by simpa [asyncStep, hasync] using hstep
      exact .finish hasync
  | notLaunched | finished => simp [asyncStep, hasync] at hstep

omit [DecidableEq τ] in
/-- A spurious wakeup acts like a notification. -/
theorem spuriousWakeupStep_eq (hstep : spuriousWakeupStep s = some t) :
    t = { s with run := s.run.notified } := by
  cases hrun : s.run with
  | blocked =>
      obtain rfl : _ = t := by simpa [spuriousWakeupStep, hrun] using hstep
      rfl
  | _ => simp [spuriousWakeupStep, hrun] at hstep

/-- What a step can do to task `c`. -/
inductive TaskEffect (s : ExecutorState τ) (a : ExecutorAction τ) (t : ExecutorState τ) (c : τ) :
    Prop
  | same (hasync : t.async c = s.async c) (hinvocations : t.invocations c = s.invocations c)
  | launch (job : Job τ) (hrun : s.run = .launch job) (hc : c = job.task)
      (hasync : t.async c = .launched job.cpuId) (hinvocations : t.invocations c = s.invocations c)
  | invoke (cpuId : Int32) (ha : a = .async c) (hbefore : s.async c = .launched cpuId)
      (hasync : t.async c = .running) (hinvocations : t.invocations c = s.invocations c + 1)
  | finish (ha : a = .async c) (hbefore : s.async c = .running) (hasync : t.async c = .finished)
      (hinvocations : t.invocations c = s.invocations c)

theorem task_step {opt : CaptureOption} {a : ExecutorAction τ}
    (hstep : (executorMachine opt τ).step s a = some t) (c : τ) : TaskEffect s a t c := by
  cases a with
  | addTask c' => cases addTaskStep_effect hstep <;> exact .same rfl rfl
  | run =>
      cases runStep_effect hstep with
      | launch job hrun =>
          rcases eq_or_ne c job.task with rfl | hne
          · exact .launch job hrun rfl (Function.update_self ..) rfl
          · exact .same (Function.update_of_ne hne ..) rfl
      | _ => exact .same rfl rfl
  | spuriousWakeup =>
      obtain rfl := spuriousWakeupStep_eq hstep
      exact .same rfl rfl
  | clean => cases cleanStep_effect hstep <;> exact .same rfl rfl
  | destructor => cases destructorStep_effect hstep <;> exact .same rfl rfl
  | async c' =>
      -- a task's thread does nothing to another task
      rcases eq_or_ne c c' with rfl | hne
      · cases asyncStep_effect hstep with
        | invoke cpuId hbefore =>
            exact .invoke cpuId rfl hbefore (Function.update_self ..) (Function.update_self ..)
        | finish hbefore => exact .finish rfl hbefore (Function.update_self ..) rfl
      · cases asyncStep_effect hstep with
        | invoke => exact .same (Function.update_of_ne hne ..) (Function.update_of_ne hne ..)
        | finish => exact .same (Function.update_of_ne hne ..) rfl

end Effects

end Hound
