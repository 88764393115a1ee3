import Hound.Executor.Construction
import Hound.Pipeline.Joining

/-!
# Closing in order

A task uses the object of the thread that has added it, and nothing makes the thread wait for its
tasks before it destroys the object. It is possible all the same to close the pipeline without a
task losing its object, from every state in which none has lost it yet: the threads leave their
loops, `Run` launches what has been added, the tasks finish, and then the objects are destroyed.

* `exists_workStep` : `Run` gets to launch all tasks, and they finish.
* `ClosesInOrder` : the steps of such a schedule.
* `exists_ordered_run` : there is one.
* `pipeline_closesInOrder` : of a `LiveParser` and of a `KafkaSink`.
-/

namespace Hound

/-! ### The tasks that have been added -/

section Executor

variable {τ : Type} [DecidableEq τ] {opt : CaptureOption} {e f : ExecutorState τ} {F : Finset τ}

/-- How far `Run` is from the next time it blocks, while `mIsRunning` is set. A task that it takes
out of the queue makes up for another pass of its loop. -/
def RunPc.passRank {τ : Type} : RunPc τ → ℕ
  | .blocked | .finished => 0
  | .release | .breakUnlock => 1
  | .test => 3
  | .predicate => 4
  | .lock | .woken => 5
  | .loop => 6
  | .unlockFutures => 7
  | .store _ => 8
  | .lockFutures _ => 9
  | .launch _ => 10
  | .unlock _ => 11

/-- How much is to be done until the tasks have finished, when all that are busy are in `F`. -/
def ExecutorState.work (F : Finset τ) (e : ExecutorState τ) : ℕ :=
  9 * e.mTasks.length + e.run.passRank + e.clean.rank e.futures.length + ∑ c ∈ F, (e.async c).rank

omit [DecidableEq τ] in
/-- `Run` goes on, and nothing else changes that counts. -/
theorem work_goto {pc pc' : RunPc τ} (hrun : e.run = pc) (hrun' : f.run = pc')
    (hrank : pc'.passRank < pc.passRank) (hfuture : pc'.taskFuture = pc.taskFuture)
    (hsame : f.mTasks = e.mTasks ∧ f.mFutures = e.mFutures ∧ f.clean = e.clean ∧
      f.async = e.async) : f.work F < e.work F := by
  obtain ⟨htasks, hfutures, hclean, hasync⟩ := hsame
  unfold ExecutorState.work ExecutorState.futures
  rw [hrun, hrun', hfuture, htasks, hfutures, hclean, hasync]
  omega

theorem work_run (hrunning : e.mIsRunning = true) (hplaced : e.Placed)
    (hF : ∀ c, e.Busy c → c ∈ F) (hstep : runStep e = some f) : f.work F < e.work F := by
  cases hrun : e.run with
  | loop =>
      obtain rfl : _ = f := by simpa [runStep, hrun, hrunning] using hstep
      exact work_goto hrun rfl (by simp [RunPc.passRank]) rfl ⟨rfl, rfl, rfl, rfl⟩
  | predicate =>
      -- `wait` blocks if the queue is empty, and the pass ends there
      obtain rfl : _ = f := by simpa [runStep, hrun] using hstep
      refine work_goto hrun rfl ?_ ?_ ⟨rfl, rfl, rfl, rfl⟩
      · split <;> simp [RunPc.passRank]
      · split <;> rfl
  | lock | woken =>
      cases hlock : e.mtxTaskQue with
      | some _ => simp [runStep, hrun, hlock] at hstep
      | none =>
          obtain rfl : _ = f := by simpa [runStep, hrun, hlock] using hstep
          exact work_goto hrun rfl (by simp [RunPc.passRank]) rfl ⟨rfl, rfl, rfl, rfl⟩
  | lockFutures c =>
      cases hlock : e.mtxFutureQue with
      | some _ => simp [runStep, hrun, hlock] at hstep
      | none =>
          obtain rfl : _ = f := by simpa [runStep, hrun, hlock] using hstep
          exact work_goto hrun rfl (by simp [RunPc.passRank]) rfl ⟨rfl, rfl, rfl, rfl⟩
  | release | breakUnlock | unlock | unlockFutures =>
      obtain rfl : _ = f := by simpa [runStep, hrun] using hstep
      exact work_goto hrun rfl (by simp [RunPc.passRank]) rfl ⟨rfl, rfl, rfl, rfl⟩
  | test =>
      cases htasks : e.mTasks with
      | nil => simp [runStep, hrun, htasks, hrunning] at hstep
      | cons job rest =>
          obtain rfl : _ = f := by simpa [runStep, hrun, htasks] using hstep
          -- one task fewer in the queue
          simp only [ExecutorState.work, ExecutorState.futures, hrun, htasks, RunPc.passRank,
            RunPc.taskFuture, List.length_cons]
          omega
  | launch job =>
      obtain rfl : _ = f := by simpa [runStep, hrun] using hstep
      have hpending : job.task ∈ e.pending := by simp [ExecutorState.pending, RunPc.popped, hrun]
      have hsum := sum_rank_update e.async (hF _ (.inl hpending)) (.launched job.cpuId)
        (by rw [hplaced.notLaunched hpending]; exact Nat.le_refl _)
      -- the future is one more to test
      have hclean := e.clean.rank_succ_le e.mFutures.length
      simp only [ExecutorState.work, ExecutorState.futures, hrun, RunPc.passRank, RunPc.taskFuture,
        List.nil_append, List.singleton_append, List.length_cons] at hsum ⊢
      omega
  | store c =>
      -- the future is counted already, since `Run` has had it in its hands
      obtain rfl : _ = f := by simpa [runStep, hrun] using hstep
      simp [ExecutorState.work, ExecutorState.futures, hrun, RunPc.passRank, RunPc.taskFuture]
  | blocked | finished => simp [runStep, hrun] at hstep

omit [DecidableEq τ] in
theorem work_clean (hpass : e.clean ≠ .loop) (hstep : cleanStep e = some f) :
    f.work F < e.work F := by
  have hcloser := closer_clean (.inr hpass) hstep
  have hrank := hcloser.rank
  have hclean := f.clean.rank_mono hcloser.futures
  unfold ExecutorState.work
  rw [hcloser.run, hcloser.mTasks, hcloser.async]
  omega

/-- Only a busy task goes on. -/
theorem busy_of_asyncStep {c : τ} (hstep : asyncStep e c = some f) : e.Busy c := by
  refine .inr ?_
  cases asyncStep_effect hstep with
  | invoke cpuId hasync | finish hasync =>
      rw [hasync]
      rfl

theorem work_async {c : τ} (hF : ∀ c, e.Busy c → c ∈ F) (hstep : asyncStep e c = some f) :
    f.work F < e.work F := by
  have hc := hF c (busy_of_asyncStep hstep)
  cases asyncStep_effect hstep with
  | invoke cpuId hasync =>
      have hsum := sum_rank_update e.async hc .running (by rw [hasync]; exact Nat.le_refl _)
      simp only [ExecutorState.work, ExecutorState.futures] at hsum ⊢
      omega
  | finish hasync =>
      have hsum := sum_rank_update e.async hc .finished (by rw [hasync]; exact Nat.le_refl _)
      simp only [ExecutorState.work, ExecutorState.futures] at hsum ⊢
      omega

/-- As long as tasks wait to be launched, `Run` or the thread it waits for can go on. -/
theorem exists_launchingStep (he : (executorMachine opt τ).Reachable e) (hcalls : e.NoCall)
    (hstart : e.destructor = .start) (hpending : e.pending ≠ []) :
    (∃ f, runStep e = some f) ∨ ∃ f, cleanStep e = some f ∧ e.clean ≠ .loop := by
  obtain ⟨hrunning, hbreak, hfinished⟩ := loop_not_left he hstart
  have hfree := free_or_runHolds (taskQueOwned_of_reachable he) hcalls (by rw [hstart]; rfl)
  by_cases hheld : e.run.holdsTaskQue = true
  · exact .inl (exists_runStep_of_holds he hheld)
  have hlock : e.mtxTaskQue = none := hfree.resolve_right hheld
  cases hrun : e.run with
  | predicate | release | test | unlock =>
      rw [hrun] at hheld
      exact absurd rfl hheld
  | loop | launch | store | unlockFutures => exact .inl ⟨_, by rw [runStep, hrun]⟩
  | lock | woken => exact .inl (Option.isSome_iff_exists.mp (by simp [runStep, hrun, hlock]))
  | blocked =>
      -- whoever has filled the queue has notified it
      have htasks : e.mTasks ≠ [] := by
        simpa [ExecutorState.pending, RunPc.popped, hrun] using hpending
      obtain ⟨c, hc⟩ := (awaited_of_reachable he).blockedTasks hrun htasks
      rcases hcalls c with h | h <;> simp [h] at hc
  | lockFutures c =>
      cases hfutures : e.mtxFutureQue with
      | none => exact .inl (Option.isSome_iff_exists.mp (by simp [runStep, hrun, hfutures]))
      | some u =>
          have hu := (futureQueOwned_of_reachable he u).mpr hfutures
          cases u with
          | run =>
              rw [ExecutorState.holdsFutureQue, hrun] at hu
              contradiction
          | clean =>
              obtain ⟨f, hf, -⟩ := cleanStep_defined (cleaning_of_reachable he) hu
              refine .inr ⟨f, hf, fun hloop => ?_⟩
              rw [ExecutorState.holdsFutureQue, hloop] at hu
              contradiction
  | breakUnlock => exact absurd hrun hbreak
  | finished => exact absurd hrun hfinished

/-- The threads that launch the tasks and those of the tasks. -/
def ExecutorAction.works : ExecutorAction τ → Bool
  | .run | .clean | .async _ => true
  | .addTask _ | .spuriousWakeup | .destructor => false

/-- As long as a task is busy, there is a step after which less is to be done. -/
theorem exists_workStep (he : (executorMachine opt τ).Reachable e) (hcalls : e.NoCall)
    (hstart : e.destructor = .start) (hF : ∀ c, e.Busy c → c ∈ F) {c : τ} (hc : e.Busy c) :
    ∃ a f, ExecutorAction.works a = true ∧ (executorMachine opt τ).step e a = some f ∧
      f.work F < e.work F := by
  by_cases hpending : e.pending = []
  · -- all tasks have been launched
    have hunfinished : (e.async c).isUnfinished = true := hc.resolve_left (by simp [hpending])
    obtain ⟨f, hf⟩ : ∃ f, asyncStep e c = some f := by
      cases hasync : e.async c with
      | launched | running => exact ⟨_, by rw [asyncStep, hasync]⟩
      | notLaunched | finished =>
          rw [hasync] at hunfinished
          contradiction
    exact ⟨.async c, f, rfl, hf, work_async hF hf⟩
  · have hrunning := (loop_not_left he hstart).1
    rcases exists_launchingStep he hcalls hstart hpending with ⟨f, hf⟩ | ⟨f, hf, hpass⟩
    · exact ⟨.run, f, rfl, hf, work_run hrunning (placed_of_reachable he) hF hf⟩
    · exact ⟨.clean, f, rfl, hf, work_clean hpass hf⟩

end Executor

/-! ### Threads that leave their loops -/

variable {π : Type} [DecidableEq π] {n : ℕ} {opt : CaptureOption} {sleepsFirst : Bool}
  {s t : DrainState π n}

/-- A step that closes the pipeline in order: a task goes on only while its object is alive, and a
thread destroys its object only when no task is busy any more. -/
structure ClosesInOrder (s : DrainState π n) (a : DrainAction π n) : Prop where
  closing : a.isClosing = true
  alive : ∀ c, a = .executor (.async c) → s.alive c.1 = true
  unused : ∀ w, a = .thread w → (s.thread w).left = true → ∀ c, ¬s.mTaskExecutor.Busy c

omit [DecidableEq π] in
theorem ClosesInOrder.destroysUnused {a : DrainAction π n} (h : ClosesInOrder s a) :
    DestroysUnused s a := by
  rintro w rfl hpc k
  exact h.unused w rfl (by rw [hpc]; rfl) (w, k)

/-- What stays true while the pipeline is closed in order. -/
structure DrainState.Closing (opt : CaptureOption) (sleepsFirst : Bool) (s : DrainState π n) :
    Prop where
  reachable : (drainMachine opt sleepsFirst π n).Reachable s
  guarded : s.Guarded
  started : s.owner ≠ .start

theorem DrainState.Closing.step {a : DrainAction π n} (hs : s.Closing opt sleepsFirst)
    (ha : ClosesInOrder s a) (hstep : drainStep opt sleepsFirst s a = some t) :
    t.Closing opt sleepsFirst where
  reachable := hs.reachable.step hstep
  guarded := guarded_step hs.guarded ha.destroysUnused hstep
  started := owner_ne_start_step hs.started hstep

omit [DecidableEq π] in
/-- A step that is neither one of a task nor one of a thread that has left its loop. -/
theorem closesInOrder_of_ne {a : DrainAction π n} (ha : a.isClosing = true)
    (hasync : ∀ c, a ≠ .executor (.async c))
    (hleft : ∀ w, a = .thread w → (s.thread w).left = false) : ClosesInOrder s a := by
  refine ⟨ha, fun c hc => absurd hc (hasync c), fun w hw h => ?_⟩
  rw [hleft w hw] at h
  contradiction

/-- As long as a thread has not left its loop, there is a step that brings the threads closer to
that. -/
theorem exists_leavingStep (hcpus : opt.numCpus ≠ 0) (hs : s.Closing opt sleepsFirst) {w : Fin n}
    (hw : (s.thread w).left = false) : ∃ a t, ClosesInOrder s a ∧
      drainStep opt sleepsFirst s a = some t ∧ t.measure < s.measure := by
  have hjoined := joined_of_reachable hs.reachable
  have hstop := hjoined.stopped hs.started
  have hthread {w : Fin n} {t : DrainState π n} (hw : (s.thread w).left = false)
      (ht : drainThreadStep opt sleepsFirst s w = some t) : ∃ a t, ClosesInOrder s a ∧
      drainStep opt sleepsFirst s a = some t ∧ t.measure < s.measure := by
    refine ⟨.thread w, t, closesInOrder_of_ne rfl (by simp) ?_, ht,
      (measure_thread (called_of_reachable hs.reachable) hstop ht).1⟩
    rintro w' h
    exact DrainAction.thread.inj h ▸ hw
  have hfinished : s.thread w ≠ .finished := by
    intro h
    rw [h] at hw
    contradiction
  -- as long as its call of `AddTask` does not wait, the thread itself goes on
  rcases exists_threadStep hcpus hfinished with ⟨t, ht⟩ | ⟨-, -, u, -, -, hlock⟩
  · exact hthread hw ht
  -- the thread waits, and whoever holds the mutex goes on
  have howner : s.owner.destroys = false := by
    cases hpc : s.owner with
    | start | join => rfl
    | destroyExecutor | returned => exact absurd (hjoined.finished w (by rw [hpc]; rfl)) hfinished
  rcases exists_holderStep hcpus hs.reachable howner hlock with ⟨w', t, hw', ht⟩ | ⟨e, he, hheld⟩
  · exact hthread hw' ht
  · refine ⟨.executor .run, { s with mTaskExecutor := e },
      closesInOrder_of_ne rfl (by simp) (by simp), ?_, measure_runHolder hheld he⟩
    simp [drainStep, DrainState.executorStep, executorMachine, he]

/-- All threads leave their loops. -/
theorem exists_leaving_run (hcpus : opt.numCpus ≠ 0) (hs : s.Closing opt sleepsFirst) :
    ∃ as t, (drainMachine opt sleepsFirst π n).StepsMeet ClosesInOrder s as ∧
      (drainMachine opt sleepsFirst π n).run s as = some t ∧ t.Closing opt sleepsFirst ∧
      ∀ w, (t.thread w).left = true := by
  refine Machine.StepsMeet.exists_run_of_measure (M := drainMachine opt sleepsFirst π n)
    (P := DrainState.Closing opt sleepsFirst) (f := DrainState.measure) (fun s hs => ?_) hs
  by_cases hleft : ∀ w, (s.thread w).left = true
  · exact .inl hleft
  · push Not at hleft
    obtain ⟨w, hw⟩ := hleft
    obtain ⟨a, t, ha, hstep, hlt⟩ := exists_leavingStep hcpus hs (Bool.eq_false_of_not_eq_true hw)
    exact .inr ⟨a, t, ha, hstep, hs.step ha hstep, hlt⟩

/-! ### Tasks that finish -/

/-- A thread that has left its loop does not return to it. -/
theorem left_drainStep {a : DrainAction π n} {w : Fin n} (hw : (s.thread w).left = true)
    (hstep : drainStep opt sleepsFirst s a = some t) : (t.thread w).left = true := by
  have hupdate {w' : Fin n} {pc : DrainPc} (h : w = w' → pc.left = true) :
      (Function.update s.thread w' pc w).left = true := by
    rcases eq_or_ne w w' with rfl | hne
    · rw [Function.update_self]
      exact h rfl
    · rwa [Function.update_of_ne hne]
  cases drainStep_effect hstep with
  | construct w' hpc | swap w' _ _ hpc | call w' _ hpc | destroy w' hpc =>
      refine hupdate fun h => ?_
      subst h
      simp [hpc, DrainPc.left] at hw ⊢
  | goto w' pc _ _ _ _ _ hleft =>
      refine hupdate fun h => ?_
      subst h
      rcases hleft with ⟨hsame, -⟩ | ⟨hpc, -⟩
      · rw [hsame, hw]
      · exact hpc
  | _ => exact hw

/-- When all threads have left their loops, no task gets busy any more. -/
theorem busy_drainStep {a : DrainAction π n} {c : Fin n × ℕ}
    (hleft : ∀ w, (s.thread w).left = true) (hstep : drainStep opt sleepsFirst s a = some t)
    (hc : t.mTaskExecutor.Busy c) : s.mTaskExecutor.Busy c := by
  cases drainStep_effect hstep with
  | executor act b e he hact =>
      refine (busy_step he hc).resolve_right ?_
      rintro rfl
      rcases hact with rfl | ⟨w, k, -, -, hpc⟩ | ⟨h, -⟩
      · nomatch hstep
      · have hw := hleft w
        rw [hpc] at hw
        contradiction
      · contradiction
  | _ => exact hc

theorem noCall_of_left (hs : s.Closing opt sleepsFirst) (hleft : ∀ w, (s.thread w).left = true) :
    s.mTaskExecutor.NoCall := by
  refine (called_of_reachable hs.reachable).noCall fun w k hpc => ?_
  have hw := hleft w
  rw [hpc] at hw
  contradiction

/-- When all threads have left their loops and a task is busy, there is a step that brings the tasks
closer to their ends. -/
theorem exists_workingStep (hs : s.Closing opt sleepsFirst)
    (hleft : ∀ w, (s.thread w).left = true) {F : Finset (Fin n × ℕ)}
    (hF : ∀ c, s.mTaskExecutor.Busy c → c ∈ F) {c : Fin n × ℕ} (hc : s.mTaskExecutor.Busy c) :
    ∃ a t, ClosesInOrder s a ∧ drainStep opt sleepsFirst s a = some t ∧
      t.mTaskExecutor.work F < s.mTaskExecutor.work F := by
  -- the thread of the task has not been joined, since its object is alive
  have howner : s.owner.destroys = false := by
    by_contra hdestroys
    have hfinished : s.thread c.1 = .finished := by
      refine (joined_of_reachable hs.reachable).finished c.1 ?_
      cases hpc : s.owner with
      | start | join => simp [hpc, OwnerPc.destroys] at hdestroys
      | destroyExecutor | returned => rfl
    have halive := hs.guarded.busy c hc
    rw [hs.guarded.alive_eq, hfinished] at halive
    contradiction
  have hstart := (joined_of_reachable hs.reachable).destructor_eq_start howner
  obtain ⟨a, e, ha, he, hlt⟩ :=
    exists_workStep (executor_reachable hs.reachable) (noCall_of_left hs hleft) hstart hF hc
  refine ⟨.executor a, { s with mTaskExecutor := e }, ⟨rfl, fun c' hc' => ?_, by simp⟩, ?_, hlt⟩
  · obtain rfl := DrainAction.executor.inj hc'
    exact hs.guarded.busy c' (busy_of_asyncStep he)
  · cases a with
    | addTask | destructor | spuriousWakeup => contradiction
    | run | clean | async => simp [drainStep, DrainState.executorStep, he]

/-- All tasks that have been added are launched, and they finish. -/
theorem exists_working_run (hs : s.Closing opt sleepsFirst)
    (hleft : ∀ w, (s.thread w).left = true) :
    ∃ as t, (drainMachine opt sleepsFirst π n).StepsMeet ClosesInOrder s as ∧
      (drainMachine opt sleepsFirst π n).run s as = some t ∧
      (t.Closing opt sleepsFirst ∧ ∀ w, (t.thread w).left = true) ∧
      ∀ c, ¬t.mTaskExecutor.Busy c := by
  obtain ⟨F, hF⟩ := exists_busy_finset (executor_reachable hs.reachable)
  have hrun : ∃ as t, (drainMachine opt sleepsFirst π n).StepsMeet ClosesInOrder s as ∧
      (drainMachine opt sleepsFirst π n).run s as = some t ∧
      (t.Closing opt sleepsFirst ∧ (∀ w, (t.thread w).left = true) ∧
        ∀ c, t.mTaskExecutor.Busy c → c ∈ F) ∧ ∀ c, ¬t.mTaskExecutor.Busy c := by
    refine Machine.StepsMeet.exists_run_of_measure (M := drainMachine opt sleepsFirst π n)
      (f := fun s => s.mTaskExecutor.work F)
      (P := fun s => s.Closing opt sleepsFirst ∧ (∀ w, (s.thread w).left = true) ∧
        ∀ c, s.mTaskExecutor.Busy c → c ∈ F) ?_ ⟨hs, hleft, hF⟩
    rintro s ⟨hs, hleft, hF⟩
    by_cases hidle : ∀ c, ¬s.mTaskExecutor.Busy c
    · exact .inl hidle
    · push Not at hidle
      obtain ⟨c, hc⟩ := hidle
      obtain ⟨a, t, ha, hstep, hlt⟩ := exists_workingStep hs hleft hF hc
      exact .inr ⟨a, t, ha, hstep, ⟨hs.step ha hstep, fun w => left_drainStep (hleft w) hstep,
        fun c hc => hF c (busy_drainStep hleft hstep hc)⟩, hlt⟩
  obtain ⟨as, t, hmeet, hrun, ⟨ht, hleft', -⟩, hidle⟩ := hrun
  exact ⟨as, t, hmeet, hrun, ⟨ht, hleft'⟩, hidle⟩

/-! ### The whole schedule -/

/-- When no task is busy, every step that closes the pipeline does so in order. -/
theorem closesInOrder_of_idle {a : DrainAction π n} (hidle : ∀ c, ¬s.mTaskExecutor.Busy c)
    (ha : a.isClosing = true) (hstep : drainStep opt sleepsFirst s a = some t) :
    ClosesInOrder s a := by
  refine ⟨ha, fun c hc => ?_, fun _ _ _ => hidle⟩
  subst hc
  obtain ⟨e, he, -⟩ := executorStep_eq hstep
  exact absurd (busy_of_asyncStep he) (hidle c)

/-- From every state in which no task has lost its object, the destructor can return without a task
losing it. -/
theorem exists_ordered_run (hcpus : opt.numCpus ≠ 0) (hs : s.Closing opt sleepsFirst) :
    ∃ as t, (drainMachine opt sleepsFirst π n).StepsMeet ClosesInOrder s as ∧
      (drainMachine opt sleepsFirst π n).run s as = some t ∧ t.Closing opt sleepsFirst ∧
      t.owner = .returned := by
  obtain ⟨as, u, has, hu, hclosing, hleft⟩ := exists_leaving_run hcpus hs
  obtain ⟨bs, v, hbs, hv, ⟨hclosing', hleft'⟩, hidle⟩ := exists_working_run hclosing hleft
  obtain ⟨cs, t, hcs, ht, hreturned⟩ :=
    exists_closing_run hcpus hclosing'.reachable hclosing'.started
  -- the threads have left their loops, so no task gets busy again
  have hmeet : (drainMachine opt sleepsFirst π n).StepsMeet ClosesInOrder v cs := by
    refine Machine.StepsMeet.of_run
      (P := fun s => (∀ w, (s.thread w).left = true) ∧ ∀ c, ¬s.mTaskExecutor.Busy c) ?_ hcs
      ⟨hleft', hidle⟩ ht
    rintro s a t ⟨hleft, hidle⟩ ha hstep
    exact ⟨closesInOrder_of_idle hidle ha hstep, fun w => left_drainStep (hleft w) hstep,
      fun c hc => hidle c (busy_drainStep hleft hstep hc)⟩
  refine ⟨as ++ (bs ++ cs), t, has.append hu (hbs.append hv hmeet), ?_, ?_, hreturned⟩
  · rw [Machine.run_append, hu, Option.bind_some, Machine.run_append, hv, Option.bind_some, ht]
  · exact Machine.StepsMeet.run_induction (fun s a t _ hs ha hstep => hs.step ha hstep) cs
      hclosing'.reachable hmeet hclosing' ht

/-- So it can if the pipeline is part of a machine that takes all the steps of such a schedule. -/
theorem exists_guarded_run (hcpus : opt.numCpus ≠ 0)
    {M : Machine (DrainState π n) (DrainAction π n)} (hinit : M.init = {})
    (hstep : ∀ s a t, M.step s a = some t → drainStep opt sleepsFirst s a = some t)
    (hstart : ∀ s, ∃ t, M.LaterBy (fun a => ∀ w, a ≠ .thread w) s t ∧ t.owner ≠ .start)
    (hclose : ∀ as s t, s.owner ≠ .start → (∀ a ∈ as, a.isClosing = true) →
      (drainMachine opt sleepsFirst π n).run s as = some t → M.run s as = some t)
    (hs : M.Reachable s) (halive : ∀ c, s.mTaskExecutor.Busy c → s.alive c.1 = true) :
    ∃ as t, M.run s as = some t ∧ M.Throughout DrainState.Guarded s as ∧ t.owner = .returned := by
  have hreach {s : DrainState π n} (hs : M.Reachable s) :
      (drainMachine opt sleepsFirst π n).Reachable s :=
    hs.map (f := id) hinit fun _ a _ h => ⟨some a, hstep _ _ _ h⟩
  have hkeep (s t : DrainState π n) (a : DrainAction π n) (hs : s.Guarded)
      (hguard : DestroysUnused s a) (h : M.step s a = some t) : t.Guarded :=
    guarded_step hs hguard (hstep s a t h)
  -- before the destructor starts, no thread goes on, and so no object is destroyed
  have hunused (s : DrainState π n) (a : DrainAction π n) (ha : ∀ w, a ≠ .thread w) :
      DestroysUnused s a := fun w hw => absurd hw (ha w)
  have hguarded : s.Guarded := ⟨alive_eq_of_reachable (hreach hs), halive⟩
  obtain ⟨u, hsu, howner⟩ := hstart s
  have hguardedu : u.Guarded :=
    hsu.stable hguarded fun s a t hs ha h => hkeep s t a hs (hunused s a ha) h
  obtain ⟨bs, t, hbs, hrun, -, hreturned⟩ :=
    exists_ordered_run hcpus ⟨hreach (hs.later hsu.later), hguardedu, howner⟩
  -- then it closes the pipeline in order
  have hclosing : ∀ a ∈ bs, a.isClosing = true :=
    (Machine.StepsMeet.imp (fun _ _ h => h.closing) bs hbs).forall_mem hrun
  have hmeet' : M.StepsMeet DestroysUnused u bs :=
    Machine.StepsMeet.of_step hstep (Machine.StepsMeet.imp (fun _ _ h => h.destroysUnused) bs hbs)
  obtain ⟨as, has, hu⟩ := hsu
  have hmeet : M.StepsMeet DestroysUnused s as := Machine.StepsMeet.of_forall_mem hunused has
  refine ⟨as ++ bs, t, ?_, ?_, hreturned⟩
  · rw [Machine.run_append, hu, Option.bind_some, hclose bs u t howner hclosing hrun]
  · exact Machine.StepsMeet.throughout (I := DrainState.Guarded)
      (fun s a t _ hs hguard h => hkeep s t a hs hguard h) (fun _ hs => hs) _ hs
      (hmeet.append hu hmeet') hguarded

/-- As long as no task that is queued, popped, launched or running has lost its sink, `~LiveParser`
can return without a task ever losing it, and as long as none has lost its model, `~KafkaSink`
can. -/
theorem pipeline_closesInOrder (hcpus : opt.numCpus ≠ 0) :
    (∀ s, (liveParserMachine opt n).Reachable s →
      (∀ c, s.mTaskExecutor.Busy c → s.alive c.1 = true) →
      ∃ as t, (liveParserMachine opt n).run s as = some t ∧
        (liveParserMachine opt n).Throughout DrainState.Guarded s as ∧ t.owner = .returned) ∧
    (∀ s, (kafkaSinkMachine opt π n).Reachable s →
      (∀ c, s.mTaskExecutor.Busy c → s.alive c.1 = true) →
      ∃ as t, (kafkaSinkMachine opt π n).run s as = some t ∧
        (kafkaSinkMachine opt π n).Throughout DrainState.Guarded s as ∧ t.owner = .returned) := by
  constructor
  · intro s hs
    exact exists_guarded_run hcpus rfl (fun _ _ _ => drainStep_of_liveParserStep)
      (exists_liveParser_start opt) (fun _ _ _ => liveParser_run) hs
  · intro s hs
    exact exists_guarded_run hcpus rfl (fun _ _ _ => drainStep_of_kafkaSinkStep)
      (exists_kafkaSink_start opt) (fun _ _ _ _ => kafkaSink_run) hs

/-- The capture has stopped while a task is still queued, and the thread of the task is next to
destroy the sink. -/
def leavingTask (w : Fin n) : List (DrainAction Unit n) :=
  List.flatten [oneTaskAdded w, [.stop, .thread w]]

/-- The sink is destroyed later. -/
theorem pipeline_closesInOrder_leavingTask :
    ∃ s as t, (liveParserMachine {} 1).run {} (leavingTask 0) = some s ∧
      s.thread 0 = .destroy ∧ s.mTaskExecutor.Busy (0, 0) ∧
      (liveParserMachine {} 1).run s as = some t ∧
      (liveParserMachine {} 1).Throughout DrainState.Guarded s as ∧ t.owner = .returned := by
  obtain ⟨s, hleaving, hdestroy, hbusy, halive⟩ :
      ∃ s, (liveParserMachine {} 1).run {} (leavingTask 0) = some s ∧ s.thread 0 = .destroy ∧
        s.mTaskExecutor.Busy (0, 0) ∧ s.alive 0 = true :=
    ⟨_, rfl, rfl, .inl List.mem_cons_self, rfl⟩
  obtain ⟨as, t, hrun, hguarded, hreturned⟩ :=
    (pipeline_closesInOrder (π := Unit) (by decide)).1 s ⟨leavingTask 0, hleaving⟩ fun c _ => by
      rw [Subsingleton.elim c.1 0, halive]
  exact ⟨s, as, t, hleaving, hdestroy, hbusy, hrun, hguarded, hreturned⟩

end Hound
