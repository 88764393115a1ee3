import Hound.Executor.TaskExecutor
import Hound.ToMathlib.Mutex

/-!
# No wakeup is lost

The destructor clears `mIsRunning` without `mtxTaskQue`, and `AddTask` notifies after unlocking
it. `Run` blocks only after it has tested both conditions under the mutex, and each of them is
followed by a notification that cannot overtake `Run` on its way from the test to the wait.

* `taskQueOwned_of_reachable` : which program points own `mtxTaskQue`.
* `ExecutorState.Awaited` : who is still to notify a blocked `Run`.
* `no_lost_wakeup` : `Run` is never blocked with nobody left to notify it.
-/

namespace Hound

/-! ### Who owns the mutex of the queue -/

/-- `Run` is between locking and unlocking `mtxTaskQue`. -/
def RunPc.holdsTaskQue {τ : Type} : RunPc τ → Bool
  | .predicate | .release | .test | .breakUnlock | .unlock _ => true
  | _ => false

/-- So is a call of `AddTask`. -/
def AddTaskPc.holdsTaskQue : AddTaskPc → Bool
  | .emplace _ | .unlock => true
  | _ => false

/-- So is the destructor. -/
def DestructorPc.holdsTaskQue : DestructorPc → Bool
  | .notify | .unlock => true
  | _ => false

/-- The thread is between locking and unlocking `mtxTaskQue`. -/
def ExecutorState.holdsTaskQue {τ : Type} (s : ExecutorState τ) : TaskQueOwner τ → Bool
  | .addTask c => (s.addTask c).holdsTaskQue
  | .run => s.run.holdsTaskQue
  | .destructor => s.destructor.holdsTaskQue

/-- `mtxTaskQue` is owned by the thread that is between locking and unlocking it. -/
def ExecutorState.TaskQueOwned {τ : Type} (s : ExecutorState τ) : Prop :=
  Mutex.Owned s.mtxTaskQue s.holdsTaskQue

variable {τ : Type} {opt : CaptureOption} {s t : ExecutorState τ}

@[simp]
theorem RunPc.holdsTaskQue_notified (pc : RunPc τ) :
    pc.notified.holdsTaskQue = pc.holdsTaskQue := by
  cases pc <;> rfl

/-- A notification or a spurious wakeup changes no claim to the mutex. -/
theorem TaskQueOwned.notified (hs : s.TaskQueOwned) :
    { s with run := s.run.notified }.TaskQueOwned := by
  refine Mutex.Owned.step hs (w := .run) ?_ ?_
  · simp only [ExecutorState.holdsTaskQue, RunPc.holdsTaskQue_notified]
    exact .keep
  · rintro (_ | _ | _) hne
    · rfl
    · exact absurd rfl hne
    · rfl

section Steps

variable [DecidableEq τ]

theorem taskQue_run (hstep : runStep s = some t) :
    Mutex.StepBy .run s.mtxTaskQue s.run.holdsTaskQue t.mtxTaskQue t.run.holdsTaskQue := by
  cases hrun : s.run with
  | lock | woken =>
      cases hlock : s.mtxTaskQue with
      | some _ => simp [runStep, hrun, hlock] at hstep
      | none =>
          obtain rfl : _ = t := by simpa [runStep, hrun, hlock] using hstep
          exact .lock rfl
  | release | breakUnlock | unlock job =>
      obtain rfl : _ = t := by simpa [runStep, hrun] using hstep
      exact .unlock rfl
  | test =>
      cases htasks : s.mTasks with
      | nil =>
          obtain ⟨-, rfl⟩ : ¬s.mIsRunning = true ∧ { s with run := .breakUnlock } = t := by
            simpa [runStep, hrun, htasks] using hstep
          exact .keep
      | cons job rest =>
          obtain rfl : _ = t := by simpa [runStep, hrun, htasks] using hstep
          exact .keep
  | lockFutures c =>
      cases hlock : s.mtxFutureQue with
      | some _ => simp [runStep, hrun, hlock] at hstep
      | none =>
          obtain rfl : _ = t := by simpa [runStep, hrun, hlock] using hstep
          exact .keep
  | loop | predicate =>
      obtain rfl : _ = t := by simpa [runStep, hrun] using hstep
      -- either outcome of the test keeps the claim
      split <;> exact .keep
  | launch job | store c | unlockFutures =>
      obtain rfl : _ = t := by simpa [runStep, hrun] using hstep
      exact .keep
  | blocked | finished => simp [runStep, hrun] at hstep

theorem taskQueOwned_run (hs : s.TaskQueOwned) (hstep : runStep s = some t) :
    t.TaskQueOwned := by
  refine Mutex.Owned.step hs (w := .run) (taskQue_run hstep) ?_
  rintro (c | _ | _) hne
  · cases runStep_effect hstep <;> rfl
  · exact absurd rfl hne
  · cases runStep_effect hstep <;> rfl

theorem taskQueOwned_addTask {c : τ} (hs : s.TaskQueOwned)
    (hstep : addTaskStep opt s c = some t) : t.TaskQueOwned := by
  refine Mutex.Owned.step hs (w := .addTask c) ?_ ?_
  · show Mutex.StepBy _ _ (s.addTask c).holdsTaskQue _ (t.addTask c).holdsTaskQue
    cases hcall : s.addTask c with
    | start =>
        obtain ⟨-, rfl⟩ : opt.numCpus ≠ 0 ∧ _ = t := by simpa [addTaskStep, hcall] using hstep
        simp only [Function.update_self]
        exact .keep
    | lock cpuId =>
        cases hlock : s.mtxTaskQue with
        | some _ => simp [addTaskStep, hcall, hlock] at hstep
        | none =>
            obtain rfl : _ = t := by simpa [addTaskStep, hcall, hlock] using hstep
            simp only [Function.update_self]
            exact .lock rfl
    | emplace cpuId =>
        obtain rfl : _ = t := by simpa [addTaskStep, hcall] using hstep
        simp only [Function.update_self]
        exact .keep
    | unlock =>
        obtain rfl : _ = t := by simpa [addTaskStep, hcall] using hstep
        simp only [Function.update_self]
        exact .unlock rfl
    | notify =>
        obtain rfl : _ = t := by simpa [addTaskStep, hcall] using hstep
        simp only [Function.update_self]
        exact .keep
    | returned => simp [addTaskStep, hcall] at hstep
  · rintro (c' | _ | _) hne
    · have hne' : c' ≠ c := fun h => hne (congrArg _ h)
      cases addTaskStep_effect hstep <;> simp [ExecutorState.holdsTaskQue, hne']
    · cases addTaskStep_effect hstep <;> simp [ExecutorState.holdsTaskQue]
    · cases addTaskStep_effect hstep <;> rfl

omit [DecidableEq τ] in
theorem taskQueOwned_destructor (hs : s.TaskQueOwned) (hstep : destructorStep s = some t) :
    t.TaskQueOwned := by
  refine Mutex.Owned.step hs (w := .destructor) ?_ ?_
  · show Mutex.StepBy _ _ s.destructor.holdsTaskQue _ t.destructor.holdsTaskQue
    cases hpc : s.destructor with
    | lock =>
        cases hlock : s.mtxTaskQue with
        | some _ => simp [destructorStep, hpc, hlock] at hstep
        | none =>
            obtain rfl : _ = t := by simpa [destructorStep, hpc, hlock] using hstep
            exact .lock rfl
    | unlock =>
        obtain rfl : _ = t := by simpa [destructorStep, hpc] using hstep
        exact .unlock rfl
    | _ => cases destructorStep_effect hstep <;> simp_all <;> exact .keep
  · rintro (c | _ | _) hne
    · cases destructorStep_effect hstep <;> rfl
    · cases destructorStep_effect hstep <;> simp [ExecutorState.holdsTaskQue]
    · exact absurd rfl hne

theorem taskQueOwned_step (hs : s.TaskQueOwned) {a : ExecutorAction τ}
    (hstep : (executorMachine opt τ).step s a = some t) : t.TaskQueOwned := by
  cases a with
  | addTask c => exact taskQueOwned_addTask hs hstep
  | run => exact taskQueOwned_run hs hstep
  | spuriousWakeup =>
      obtain rfl := spuriousWakeupStep_eq hstep
      exact TaskQueOwned.notified hs
  | clean => cases cleanStep_effect hstep <;> exact hs
  | destructor => exact taskQueOwned_destructor hs hstep
  | async c => cases asyncStep_effect hstep <;> exact hs

theorem taskQueOwned_of_reachable (hs : (executorMachine opt τ).Reachable s) : s.TaskQueOwned := by
  refine hs.invariant (fun w => ?_) fun _ _ _ howned hstep => taskQueOwned_step howned hstep
  cases w <;> simp [executorMachine, ExecutorState.holdsTaskQue, AddTaskPc.holdsTaskQue,
    RunPc.holdsTaskQue, DestructorPc.holdsTaskQue]

end Steps

/-! ### Who is still to notify -/

/-- `Run` gives up the mutex only after it has seen an empty queue and `mIsRunning` set. As long
as it is blocked, the call that has filled the queue since then, or the destructor that has
cleared the flag, has its notification still ahead. -/
structure ExecutorState.Awaited (s : ExecutorState τ) : Prop where
  releaseTasks : s.run = .release → s.mTasks = []
  releaseStop : s.run = .release → s.mIsRunning = false → s.destructor = .lock
  blockedTasks : s.run = .blocked → s.mTasks ≠ [] →
    ∃ c, s.addTask c = .unlock ∨ s.addTask c = .notify
  blockedStop : s.run = .blocked → s.mIsRunning = false →
    s.destructor = .lock ∨ s.destructor = .notify

/-- A notified `Run` is not blocked. -/
theorem RunPc.notified_ne_blocked (pc : RunPc τ) : pc.notified ≠ .blocked := by
  cases pc <;> nofun

/-- A notification does not reach `Run` on its way to the wait. -/
theorem RunPc.notified_eq_release {pc : RunPc τ} (h : pc.notified = .release) : pc = .release := by
  cases pc <;> simp [RunPc.notified] at h ⊢

/-- A notification, or a spurious wakeup. -/
theorem Awaited.notified (hs : s.Awaited) : { s with run := s.run.notified }.Awaited where
  releaseTasks h := hs.releaseTasks (RunPc.notified_eq_release h)
  releaseStop h := hs.releaseStop (RunPc.notified_eq_release h)
  blockedTasks h := absurd h (RunPc.notified_ne_blocked _)
  blockedStop h := absurd h (RunPc.notified_ne_blocked _)

/-- The destructor has finished its `notify_all`. -/
def DestructorPc.hasNotified : DestructorPc → Bool
  | .start | .lock | .notify => false
  | .unlock | .join | .joinClean | .destroyFutures | .returned => true

section Steps

variable [DecidableEq τ]

/-- `Run` comes to the wait from the predicate, which was false, and blocks from there. -/
theorem runStep_waits (hstep : runStep s = some t) :
    t.run ≠ .release ∧ t.run ≠ .blocked ∨
      s.mTasks = [] ∧ s.mIsRunning = true ∧ t = { s with run := .release } ∨
      s.run = .release ∧ t = { s with mtxTaskQue := none, run := .blocked } := by
  cases hrun : s.run with
  | predicate =>
      simp only [runStep, hrun] at hstep
      obtain rfl := Option.some.inj hstep
      by_cases htest : (!s.mTasks.isEmpty || !s.mIsRunning) = true
      · exact .inl (by simp [htest])
      · obtain ⟨htasks, hrunning⟩ : s.mTasks = [] ∧ s.mIsRunning = true := by simpa using htest
        exact .inr (.inl ⟨htasks, hrunning, by simp [htasks, hrunning]⟩)
  | release =>
      simp only [runStep, hrun] at hstep
      exact .inr (.inr ⟨rfl, (Option.some.inj hstep).symm⟩)
  | blocked | finished => simp [runStep, hrun] at hstep
  | loop =>
      simp only [runStep, hrun] at hstep
      obtain rfl := Option.some.inj hstep
      exact .inl (by split <;> simp)
  | test =>
      simp only [runStep, hrun] at hstep
      split at hstep
      · split at hstep
        · contradiction
        · obtain rfl := Option.some.inj hstep
          exact .inl (by simp)
      · obtain rfl := Option.some.inj hstep
        exact .inl (by simp)
  | lock | woken | lockFutures c =>
      simp only [runStep, hrun] at hstep
      split at hstep
      · obtain rfl := Option.some.inj hstep
        exact .inl (by simp)
      · contradiction
  | breakUnlock | unlock job | launch job | store c | unlockFutures =>
      simp only [runStep, hrun] at hstep
      obtain rfl := Option.some.inj hstep
      exact .inl (by simp)

theorem awaited_run (hs : s.Awaited) (hstep : runStep s = some t) : t.Awaited := by
  rcases runStep_waits hstep with ⟨hrelease, hblocked⟩ | ⟨htasks, hrunning, rfl⟩ | ⟨hrun, rfl⟩
  · exact ⟨fun h => absurd h hrelease, fun h => absurd h hrelease, fun h => absurd h hblocked,
      fun h => absurd h hblocked⟩
  · exact ⟨fun _ => htasks, fun _ h => absurd (hrunning.symm.trans h) nofun, nofun, nofun⟩
  · -- nothing has happened since the test
    exact ⟨nofun, nofun, fun _ h => absurd (hs.releaseTasks hrun) h,
      fun _ h => .inl (hs.releaseStop hrun h)⟩

theorem awaited_addTask {c : τ} (howned : s.TaskQueOwned) (hs : s.Awaited)
    (hstep : addTaskStep opt s c = some t) : t.Awaited := by
  -- a call that is still to notify stays so, except in the step in which it does
  have hawait : ∀ c', s.addTask c' = .unlock ∨ s.addTask c' = .notify → t.run ≠ .blocked ∨
      t.addTask c' = .unlock ∨ t.addTask c' = .notify := by
    intro c' hc'
    rcases eq_or_ne c' c with rfl | hne
    · rcases hc' with hcall | hcall
      · obtain rfl : _ = t := by simpa [addTaskStep, hcall] using hstep
        exact .inr (.inr (Function.update_self ..))
      · obtain rfl : _ = t := by simpa [addTaskStep, hcall] using hstep
        exact .inl (RunPc.notified_ne_blocked _)
    · right
      cases addTaskStep_effect hstep <;> simpa [hne] using hc'
  cases addTaskStep_effect hstep with
  | silent pc nextCpuId queLock hcall hreturned =>
      refine ⟨hs.releaseTasks, hs.releaseStop, fun hrun htasks => ?_, hs.blockedStop⟩
      obtain ⟨c', hc'⟩ := hs.blockedTasks hrun htasks
      exact ⟨c', (hawait c' hc').resolve_left (not_not_intro hrun)⟩
  | emplace cpuId hcall =>
      refine ⟨fun hrun => ?_, hs.releaseStop, fun _ _ => ⟨c, .inl (Function.update_self ..)⟩,
        hs.blockedStop⟩
      -- the call and `Run` would both own the mutex
      have hheld : s.holdsTaskQue (.addTask c) = true := by
        simp [ExecutorState.holdsTaskQue, hcall, AddTaskPc.holdsTaskQue]
      have hheldRun : s.holdsTaskQue .run = true := by
        rw [ExecutorState.holdsTaskQue, show s.run = .release from hrun]
        rfl
      have howner := howned.unique hheld hheldRun
      contradiction
  | notify hcall =>
      have hnotified := Awaited.notified hs
      exact ⟨hnotified.releaseTasks, hnotified.releaseStop,
        fun h => absurd h (RunPc.notified_ne_blocked _), hnotified.blockedStop⟩

omit [DecidableEq τ] in
theorem awaited_destructor (howned : s.TaskQueOwned) (hs : s.Awaited)
    (hstep : destructorStep s = some t) : t.Awaited := by
  -- while `Run` is about to block, the mutex is neither free nor owned by the destructor
  have hheldRun : s.run = .release → s.holdsTaskQue .run = true := by
    intro hrun
    rw [ExecutorState.holdsTaskQue, hrun]
    rfl
  cases destructorStep_effect hstep with
  | stop hpc => exact ⟨hs.releaseTasks, fun _ _ => rfl, hs.blockedTasks, fun _ _ => .inl rfl⟩
  | lock hpc =>
      refine ⟨hs.releaseTasks, fun hrun => ?_, hs.blockedTasks, fun _ _ => .inr rfl⟩
      have howner := (howned .run).mp (hheldRun hrun)
      simp [destructorStep, hpc, howner] at hstep
  | notify hpc =>
      have hnotified := Awaited.notified hs
      refine ⟨hnotified.releaseTasks, fun hrun => ?_, hnotified.blockedTasks,
        fun h => absurd h (RunPc.notified_ne_blocked _)⟩
      have hheld : s.holdsTaskQue .destructor = true := by
        rw [ExecutorState.holdsTaskQue, hpc]
        rfl
      have howner := howned.unique hheld (hheldRun (RunPc.notified_eq_release hrun))
      contradiction
  | unlock hpc | join hpc | joinClean hpc | destroyFuture f rest hpc | finish hpc =>
      -- the destructor has notified; `Run` has not been on its way to the wait then
      refine ⟨hs.releaseTasks, fun hrun hstop => ?_, hs.blockedTasks, fun hrun hstop => ?_⟩
      · have hpoint := hs.releaseStop hrun hstop
        rw [hpc] at hpoint
        contradiction
      · have hpoint := hs.blockedStop hrun hstop
        rw [hpc] at hpoint
        rcases hpoint with hpoint | hpoint <;> contradiction

theorem awaited_step (howned : s.TaskQueOwned) (hs : s.Awaited) {a : ExecutorAction τ}
    (hstep : (executorMachine opt τ).step s a = some t) : t.Awaited := by
  cases a with
  | addTask c => exact awaited_addTask howned hs hstep
  | run => exact awaited_run hs hstep
  | spuriousWakeup =>
      obtain rfl := spuriousWakeupStep_eq hstep
      exact Awaited.notified hs
  | clean =>
      cases cleanStep_effect hstep <;>
        exact ⟨hs.releaseTasks, hs.releaseStop, hs.blockedTasks, hs.blockedStop⟩
  | destructor => exact awaited_destructor howned hs hstep
  | async c =>
      cases asyncStep_effect hstep <;>
        exact ⟨hs.releaseTasks, hs.releaseStop, hs.blockedTasks, hs.blockedStop⟩

theorem awaited_of_reachable (hs : (executorMachine opt τ).Reachable s) : s.Awaited :=
  hs.invariant_of (fun _ => taskQueOwned_of_reachable) ⟨nofun, nofun, nofun, nofun⟩
    fun _ _ _ howned hawaited hstep => awaited_step howned hawaited hstep

/-- While `Run` is blocked, a call of `AddTask` that has filled the queue has not notified yet,
and the destructor that has cleared `mIsRunning` has not either. -/
theorem no_lost_wakeup (hs : (executorMachine opt τ).Reachable s) (hblocked : s.run = .blocked) :
    ¬(s.mTasks ≠ [] ∧ ∀ c, (s.addTask c).emplaced = true → s.addTask c = .returned) ∧
      ¬(s.mIsRunning = false ∧ s.destructor.hasNotified = true) := by
  have hawaited := awaited_of_reachable hs
  constructor
  · rintro ⟨htasks, hreturned⟩
    obtain ⟨c, hcall | hcall⟩ := hawaited.blockedTasks hblocked htasks
    · have hdone := hreturned c (by rw [hcall]; rfl)
      rw [hcall] at hdone
      nomatch hdone
    · have hdone := hreturned c (by rw [hcall]; rfl)
      rw [hcall] at hdone
      nomatch hdone
  · rintro ⟨hstop, hnotified⟩
    rcases hawaited.blockedStop hblocked hstop with hpc | hpc <;>
      simp [hpc, DestructorPc.hasNotified] at hnotified

/-- `Run` blocks, a task is added and the flag is cleared, and neither has notified yet. -/
def blockedTwice : List (ExecutorAction Unit) :=
  List.flatten [List.replicate 4 .run, List.replicate 4 (.addTask ()), [.destructor]]

/-- The two notifications are still to come. -/
theorem no_lost_wakeup_blockedTwice :
    ∃ s, (executorMachine {} Unit).run {} blockedTwice = some s ∧ s.mTasks ≠ [] ∧
      s.mIsRunning = false ∧
      ¬(s.mTasks ≠ [] ∧ ∀ c, (s.addTask c).emplaced = true → s.addTask c = .returned) ∧
      ¬(s.mIsRunning = false ∧ s.destructor.hasNotified = true) := by
  have hrun : (executorMachine {} Unit).run {} blockedTwice = some _ := rfl
  exact ⟨_, hrun, nofun, rfl, no_lost_wakeup ⟨_, hrun⟩ rfl⟩

end Steps

end Hound
