import Hound.Pipeline.Completion
import Hound.Pipeline.KafkaSink

/-!
# The pipeline can always be closed

The destructors of a `LiveParser` and of a `KafkaSink` clear the flag, join the threads and destroy
the executor. Nothing the threads, the queue and the executor have done before keeps them from
that: from every state there is a schedule on which the destructor returns. A thread may have to
wait for the mutex of the executor's queue, and then whoever holds it can go on.

* `DrainState.measure` : how far the threads are from having been joined.
* `exists_joiningStep` : some step brings them closer.
* `exists_closing_run` : so the destructor can return.
* `pipeline_closes` : of a `LiveParser` and of a `KafkaSink`.
-/

namespace Hound

variable {π : Type} [DecidableEq π] {n : ℕ} {opt : CaptureOption} {sleepsFirst : Bool}
  {s t : DrainState π n}

/-! ### The steps to the joins -/

/-- How many steps a call of `AddTask` is from its end. -/
def AddTaskPc.rank : AddTaskPc → ℕ
  | .returned => 0
  | .notify => 1
  | .unlock => 2
  | .emplace _ => 3
  | .lock _ => 4
  | .start => 5

/-- So for a read. -/
def ReaderPc.rank : ReaderPc → ℕ
  | .stored _ => 0
  | .loaded _ => 1
  | .idle => 2

/-- So for a thread, once the flag has been cleared. -/
def DrainState.threadRank (s : DrainState π n) (w : Fin n) : ℕ :=
  match s.thread w with
  | .finished => 0
  | .destroying => 1
  | .destroy => 2
  | .loop => 3
  | .construct | .sleepEmpty => 4
  | .addTask k => 4 + (s.mTaskExecutor.addTask (w, k)).rank
  | .test _ => 10
  | .read => 11 + (s.doubleBufferQueue.reader w).rank
  | .sleep => 14

/-- And for `Run`, until it has unlocked the mutex of the queue. -/
def RunPc.lockRank {τ : Type} : RunPc τ → ℕ
  | .predicate => 3
  | .test => 2
  | .release | .breakUnlock | .unlock _ => 1
  | _ => 0

/-- How many threads are still to be joined. -/
def OwnerPc.rank (n : ℕ) : OwnerPc → ℕ
  | .start => n + 2
  | .join i => n - i + 1
  | .destroyExecutor | .returned => 0

/-- How far the destructor is from the executor. -/
def DrainState.measure (s : DrainState π n) : ℕ :=
  s.owner.rank n + ∑ w, s.threadRank w + s.mTaskExecutor.run.lockRank

@[simp]
theorem RunPc.lockRank_notified {τ : Type} (pc : RunPc τ) : pc.notified.lockRank = pc.lockRank := by
  cases pc <;> rfl

/-- A call of `AddTask` comes closer to its end with each step, and `Run` does not lock the mutex
meanwhile. -/
theorem rank_addTask {τ : Type} [DecidableEq τ] {e f : ExecutorState τ} {c : τ}
    (hstep : addTaskStep opt e c = some f) :
    (f.addTask c).rank < (e.addTask c).rank ∧ f.run.lockRank = e.run.lockRank := by
  cases hc : e.addTask c with
  | start =>
      obtain ⟨-, rfl⟩ : opt.numCpus ≠ 0 ∧ _ = f := by simpa [addTaskStep, hc] using hstep
      simp [AddTaskPc.rank]
  | lock cpuId =>
      cases hlock : e.mtxTaskQue with
      | none =>
          obtain rfl : _ = f := by simpa [addTaskStep, hc, hlock] using hstep
          simp [AddTaskPc.rank]
      | some _ => simp [addTaskStep, hc, hlock] at hstep
  | emplace | unlock | notify =>
      obtain rfl : _ = f := by simpa [addTaskStep, hc] using hstep
      simp [AddTaskPc.rank]
  | returned => simp [addTaskStep, hc] at hstep

omit [DecidableEq π] in
/-- When one thread gets closer to its end, so does the whole. -/
theorem measure_of_thread {w : Fin n} (hlt : t.threadRank w < s.threadRank w)
    (hsame : ∀ w', w' ≠ w → t.threadRank w' = s.threadRank w') (howner : t.owner = s.owner)
    (hrun : t.mTaskExecutor.run.lockRank = s.mTaskExecutor.run.lockRank) :
    t.measure < s.measure := by
  have hsum := sum_add_le_sum_of_forall_ne (Finset.mem_univ w) (d := 1) hlt hsame
  unfold DrainState.measure
  rw [howner, hrun]
  omega

omit [DecidableEq π] in
/-- A thread goes on to `pc`. -/
theorem measure_threadTo {w : Fin n} {pc : DrainPc}
    (hthread : t.thread = Function.update s.thread w pc) (hlt : t.threadRank w < s.threadRank w)
    (hreader : ∀ w', w' ≠ w → t.doubleBufferQueue.reader w' = s.doubleBufferQueue.reader w')
    (hexecutor : t.mTaskExecutor = s.mTaskExecutor) (howner : t.owner = s.owner) :
    t.measure < s.measure := by
  refine measure_of_thread hlt (fun w' hne => ?_) howner (by rw [hexecutor])
  rw [DrainState.threadRank, DrainState.threadRank, hthread, Function.update_of_ne hne,
    hreader w' hne, hexecutor]

omit [DecidableEq π] in
/-- The destructor goes on. -/
theorem measure_owner {pc : OwnerPc} (hlt : pc.rank n < s.owner.rank n) :
    { s with owner := pc }.measure < s.measure :=
  Nat.add_lt_add_right (Nat.add_lt_add_right hlt _) _

theorem ReaderPc.rank_le (pc : ReaderPc) : pc.rank ≤ 2 := by
  cases pc <;> simp [ReaderPc.rank]

/-- When the flag has been cleared, each step of a thread brings it closer to its end. -/
theorem measure_thread {w : Fin n} (hcalled : s.Called) (hstop : s.isRunning = false)
    (hstep : drainThreadStep opt sleepsFirst s w = some t) :
    t.measure < s.measure ∧ t.owner = s.owner := by
  cases hpc : s.thread w with
  | construct | loop | sleepEmpty | destroy | destroying =>
      obtain rfl : _ = t := by simpa [drainThreadStep, hpc, hstop] using hstep
      refine ⟨measure_threadTo rfl ?_ (fun _ _ => rfl) rfl rfl, rfl⟩
      simp [DrainState.threadRank, DrainState.goto, hpc]
  | sleep =>
      obtain rfl : _ = t := by simpa [drainThreadStep, hpc] using hstep
      refine ⟨measure_threadTo rfl ?_ (fun _ _ => rfl) rfl rfl, rfl⟩
      have hle := (s.doubleBufferQueue.reader w).rank_le
      simp only [DrainState.threadRank, DrainState.goto, hpc, Function.update_self]
      omega
  | read =>
      cases hreader : s.doubleBufferQueue.reader w with
      | idle | loaded =>
          simp only [drainThreadStep, hpc, hreader] at hstep
          obtain ⟨q, hq, rfl⟩ := queueStep_eq hstep
          obtain rfl : _ = q := by simpa [queueStep, hreader] using hq
          refine ⟨measure_of_thread (w := w) ?_ (fun w' hne => ?_) rfl rfl, rfl⟩
          · simp [DrainState.threadRank, hpc, hreader, ReaderPc.rank]
          · simp [DrainState.threadRank, hne]
      | stored k =>
          simp only [drainThreadStep, hpc, hreader] at hstep
          obtain ⟨q, hq, rfl⟩ := queueStep_eq hstep
          obtain rfl : _ = q := by simpa [queueStep, DrainState.goto, hreader] using hq
          refine ⟨measure_threadTo rfl ?_ (fun w' hne => ?_) rfl rfl, rfl⟩
          · simp [DrainState.threadRank, DrainState.goto, hpc, hreader, ReaderPc.rank]
          · exact Function.update_of_ne hne _ _
  | test currentQueue =>
      cases currentQueue with
      | nil =>
          obtain rfl : _ = t := by simpa [drainThreadStep, hpc] using hstep
          refine ⟨measure_threadTo rfl ?_ (fun _ _ => rfl) rfl rfl, rfl⟩
          simp [DrainState.threadRank, DrainState.goto, hpc]
      | cons i items =>
          obtain rfl : _ = t := by simpa [drainThreadStep, hpc] using hstep
          refine ⟨measure_threadTo rfl ?_ (fun _ _ => rfl) rfl rfl, rfl⟩
          -- the call is a new one
          have hstart := hcalled.notStarted w (s.calls w) (Nat.le_refl _)
          simp [DrainState.threadRank, DrainState.goto, hpc, hstart, AddTaskPc.rank]
  | addTask k =>
      cases hcall : s.mTaskExecutor.addTask (w, k) with
      | returned =>
          obtain rfl : _ = t := by simpa [drainThreadStep, hpc, hcall] using hstep
          refine ⟨measure_threadTo rfl ?_ (fun _ _ => rfl) rfl rfl, rfl⟩
          simp [DrainState.threadRank, DrainState.goto, hpc, hcall, AddTaskPc.rank]
      | _ =>
          simp only [drainThreadStep, hpc, hcall] at hstep
          obtain ⟨e, he, rfl⟩ := executorStep_eq hstep
          obtain ⟨hlt, hrun⟩ := rank_addTask he
          refine ⟨measure_of_thread (w := w) ?_ (fun w' hne => ?_) rfl hrun, rfl⟩
          · simpa [DrainState.threadRank, hpc] using hlt
          · have hsame (k' : ℕ) : e.addTask (w', k') = s.mTaskExecutor.addTask (w', k') :=
              addTask_step he fun h => hne (congrArg Prod.fst (ExecutorAction.addTask.inj h)).symm
            simp only [DrainState.threadRank, hsame]
  | finished => simp [drainThreadStep, hpc] at hstep

/-- While `Run` holds the mutex of the queue, each of its steps brings it closer to unlocking. -/
theorem lockRank_run {τ : Type} [DecidableEq τ] {e f : ExecutorState τ}
    (hheld : e.run.holdsTaskQue = true) (hstep : runStep e = some f) :
    f.run.lockRank < e.run.lockRank ∧ f.addTask = e.addTask := by
  cases hrun : e.run with
  | predicate =>
      obtain rfl : _ = f := by simpa [runStep, hrun] using hstep
      refine ⟨?_, rfl⟩
      show RunPc.lockRank (if _ then _ else _) < _
      split <;> simp [RunPc.lockRank]
  | test =>
      cases htasks : e.mTasks with
      | nil =>
          obtain ⟨-, rfl⟩ : ¬e.mIsRunning = true ∧ _ = f := by
            simpa [runStep, hrun, htasks] using hstep
          simp [RunPc.lockRank]
      | cons job rest =>
          obtain rfl : _ = f := by simpa [runStep, hrun, htasks] using hstep
          simp [RunPc.lockRank]
  | release | breakUnlock | unlock =>
      obtain rfl : _ = f := by simpa [runStep, hrun] using hstep
      simp [RunPc.lockRank]
  | _ =>
      rw [hrun] at hheld
      contradiction

omit [DecidableEq π] in
/-- So the whole does. -/
theorem measure_runHolder {e : ExecutorState (Fin n × ℕ)}
    (hheld : s.mTaskExecutor.run.holdsTaskQue = true) (he : runStep s.mTaskExecutor = some e) :
    { s with mTaskExecutor := e }.measure < s.measure := by
  obtain ⟨hlt, haddTask⟩ := lockRank_run hheld he
  have hranks (w : Fin n) : { s with mTaskExecutor := e }.threadRank w = s.threadRank w := by
    rw [DrainState.threadRank, DrainState.threadRank, haddTask]
  simp only [DrainState.measure, hranks]
  omega

/-! ### No deadlock -/

/-- A thread that has not finished can go on, unless it waits for the mutex of the executor's
queue. -/
theorem exists_threadStep (hcpus : opt.numCpus ≠ 0) {w : Fin n} (hpc : s.thread w ≠ .finished) :
    (∃ t, drainThreadStep opt sleepsFirst s w = some t) ∨
      ∃ k cpuId u, s.thread w = .addTask k ∧ s.mTaskExecutor.addTask (w, k) = .lock cpuId ∧
        s.mTaskExecutor.mtxTaskQue = some u := by
  cases hthread : s.thread w with
  | construct | loop | sleep | sleepEmpty | destroy | destroying =>
      exact .inl ⟨_, by rw [drainThreadStep, hthread]⟩
  | read =>
      refine .inl (Option.isSome_iff_exists.mp ?_)
      cases hreader : s.doubleBufferQueue.reader w <;>
        simp [drainThreadStep, hthread, hreader, DrainState.queueStep, queueStep, DrainState.goto]
  | test currentQueue =>
      refine .inl (Option.isSome_iff_exists.mp ?_)
      cases currentQueue <;> simp [drainThreadStep, hthread]
  | addTask k =>
      cases hcall : s.mTaskExecutor.addTask (w, k) with
      | lock cpuId =>
          cases hlock : s.mTaskExecutor.mtxTaskQue with
          | none =>
              refine .inl (Option.isSome_iff_exists.mp ?_)
              simp [drainThreadStep, hthread, hcall, DrainState.executorStep, executorMachine,
                addTaskStep, hlock]
          | some u => exact .inr ⟨k, cpuId, u, rfl, hcall, rfl⟩
      | _ =>
          refine .inl (Option.isSome_iff_exists.mp ?_)
          simp [drainThreadStep, hthread, hcall, DrainState.executorStep, executorMachine,
            addTaskStep, hcpus]
  | finished => exact absurd hthread hpc

/-- Whoever holds the mutex of the executor's queue before the executor is destroyed can go on. -/
theorem exists_holderStep (hcpus : opt.numCpus ≠ 0)
    (hs : (drainMachine opt sleepsFirst π n).Reachable s) (howner : s.owner.destroys = false)
    {u : TaskQueOwner (Fin n × ℕ)} (hlock : s.mTaskExecutor.mtxTaskQue = some u) :
    (∃ w t, (s.thread w).left = false ∧ drainThreadStep opt sleepsFirst s w = some t) ∨
      ∃ e, runStep s.mTaskExecutor = some e ∧ s.mTaskExecutor.run.holdsTaskQue = true := by
  have hcalled := called_of_reachable hs
  have hexecutor := executor_reachable hs
  have hheld := (taskQueOwned_of_reachable hexecutor u).mpr hlock
  cases u with
  | addTask c =>
      obtain ⟨w, k⟩ := c
      have hcall : (s.mTaskExecutor.addTask (w, k)).holdsTaskQue = true := hheld
      -- the call is the one its thread is in
      have hthread : s.thread w = .addTask k := by
        by_contra hne
        rcases Nat.lt_or_ge k (s.calls w) with hlt | hle
        · rw [hcalled.returned w k hlt hne] at hcall
          contradiction
        · rw [hcalled.notStarted w k hle] at hcall
          contradiction
      have hnext : (∃ t, drainThreadStep opt sleepsFirst s w = some t) ∨ _ :=
        exists_threadStep hcpus (by simp [hthread])
      rcases hnext with ⟨t, ht⟩ | ⟨k', cpuId, -, hk', hlocking, -⟩
      · exact .inl ⟨w, t, by rw [hthread]; rfl, ht⟩
      · obtain rfl : k = k' := DrainPc.addTask.inj (hthread.symm.trans hk')
        rw [hlocking] at hcall
        contradiction
  | run =>
      obtain ⟨e, he⟩ := exists_runStep_of_holds hexecutor hheld
      exact .inr ⟨e, he, hheld⟩
  | destructor =>
      have hstart := (joined_of_reachable hs).destructor_eq_start howner
      rw [ExecutorState.holdsTaskQue, hstart] at hheld
      contradiction

/-- The steps that are taken to close the pipeline: nothing is enqueued. -/
def DrainAction.isClosing : DrainAction π n → Bool
  | .thread _ | .owner | .executor _ => true
  | _ => false

/-- Until the threads have been joined, some step of theirs, of `Run` or of the destructor brings
them closer to it. -/
theorem exists_joiningStep (hcpus : opt.numCpus ≠ 0)
    (hs : (drainMachine opt sleepsFirst π n).Reachable s) {i : ℕ} (hpc : s.owner = .join i) :
    ∃ a t, a.isClosing = true ∧ drainStep opt sleepsFirst s a = some t ∧ t.owner ≠ .start ∧
      t.measure < s.measure := by
  have hstop := (joined_of_reachable hs).stopped (by simp [hpc])
  have hthread {w : Fin n} {t : DrainState π n}
      (ht : drainThreadStep opt sleepsFirst s w = some t) :
      ∃ a t, a.isClosing = true ∧ drainStep opt sleepsFirst s a = some t ∧ t.owner ≠ .start ∧
        t.measure < s.measure := by
    obtain ⟨hlt, howner⟩ := measure_thread (called_of_reachable hs) hstop ht
    exact ⟨.thread w, t, rfl, ht, by simp [howner, hpc], hlt⟩
  by_cases hi : i < n
  · by_cases hfinished : s.thread ⟨i, hi⟩ = .finished
    · refine ⟨.owner, { s with owner := .join (i + 1) }, rfl, ?_, by simp, measure_owner ?_⟩
      · simp [drainStep, ownerStep, hpc, hi, hfinished]
      · rw [hpc, OwnerPc.rank, OwnerPc.rank]
        omega
    · rcases exists_threadStep hcpus hfinished with ⟨t, ht⟩ | ⟨-, -, u, -, -, hlock⟩
      · exact hthread ht
      -- the thread waits, and whoever holds the mutex goes on
      rcases exists_holderStep hcpus hs (by rw [hpc]; rfl) hlock with ⟨w, t, -, ht⟩ |
        ⟨e, he, hheld⟩
      · exact hthread ht
      · refine ⟨.executor .run, { s with mTaskExecutor := e }, rfl, ?_, by simp [hpc],
          measure_runHolder hheld he⟩
        simp [drainStep, DrainState.executorStep, executorMachine, he]
  · refine ⟨.owner, { s with owner := .destroyExecutor }, rfl, ?_, by simp, measure_owner ?_⟩
    · simp [drainStep, ownerStep, hpc, hi]
    · rw [hpc, OwnerPc.rank, OwnerPc.rank]
      omega

/-! ### The end of the executor -/

/-- The step of the owner of an executor with which the executor takes its step. -/
def ExecutorAction.owned (π : Type) : ExecutorAction (Fin n × ℕ) → DrainAction π n
  | .destructor => .owner
  | a => .executor a

omit [DecidableEq π] in
theorem isClosing_owned (a : ExecutorAction (Fin n × ℕ)) : (a.owned π).isClosing = true := by
  cases a <;> rfl

/-- While the destructor is in that of the executor, the executor takes its steps. -/
theorem drainStep_owned {e e' : ExecutorState (Fin n × ℕ)} {a : ExecutorAction (Fin n × ℕ)}
    (hpc : s.owner = .destroyExecutor) (hadd : ∀ c, a ≠ .addTask c)
    (he : (executorMachine opt (Fin n × ℕ)).step e a = some e') :
    drainStep opt sleepsFirst { s with mTaskExecutor := e } (a.owned π) =
      some { s with mTaskExecutor := e' } := by
  cases a with
  | addTask c => exact absurd rfl (hadd c)
  | destructor =>
      cases hdestructor : e.destructor with
      | returned => simp [executorMachine, destructorStep, hdestructor] at he
      | _ =>
          simp [drainStep, ownerStep, ExecutorAction.owned, hpc, hdestructor,
            DrainState.executorStep, he]
  | _ => simp [drainStep, ExecutorAction.owned, DrainState.executorStep, he]

omit [DecidableEq π] in
/-- When no thread is in a call of `AddTask`, no call is going on. -/
theorem DrainState.Called.noCall (hcalled : s.Called) (hthread : ∀ w k, s.thread w ≠ .addTask k) :
    s.mTaskExecutor.NoCall := by
  rintro ⟨w, k⟩
  rcases Nat.lt_or_ge k (s.calls w) with hlt | hle
  · exact .inr (hcalled.returned w k hlt (hthread w k))
  · exact .inl (hcalled.notStarted w k hle)

omit [DecidableEq π] in
/-- When they have been joined, no thread is. -/
theorem noCall_of_destroys (hcalled : s.Called) (hjoined : s.Joined)
    (howner : s.owner.destroys = true) : s.mTaskExecutor.NoCall := by
  refine hcalled.noCall fun w k => ?_
  have hfinished : s.thread w = .finished := by
    refine hjoined.finished w ?_
    cases hpc : s.owner with
    | start | join =>
        rw [hpc] at howner
        contradiction
    | destroyExecutor | returned => rfl
  simp [hfinished]

/-- The destructor of the executor can return, and then the other destructor returns. -/
theorem exists_run_of_started (hs : (drainMachine opt sleepsFirst π n).Reachable s)
    (hpc : s.owner = .destroyExecutor) (hstarted : s.mTaskExecutor.destructor ≠ .start) :
    ∃ as t, (∀ a ∈ as, a.isClosing = true) ∧
      (drainMachine opt sleepsFirst π n).run s as = some t ∧ t.owner = .returned := by
  have hexecutor := executor_reachable hs
  have hcalls := noCall_of_destroys (called_of_reachable hs) (joined_of_reachable hs)
    (by rw [hpc]; rfl)
  obtain ⟨F, hF⟩ := exists_busy_finset hexecutor
  obtain ⟨as, e, hadd, he, hreturned⟩ :=
    (ExecutorState.Ending.terminates ⟨hexecutor, hstarted, hcalls, hF⟩).exists_run
  have hrun : (drainMachine opt sleepsFirst π n).run s (as.map (ExecutorAction.owned π)) =
      some { s with mTaskExecutor := e } :=
    Machine.run_map (M := executorMachine opt (Fin n × ℕ))
      (f := fun e => { s with mTaskExecutor := e }) (P := fun _ => True)
      (fun _ _ _ _ hadd hstep => ⟨trivial, drainStep_owned hpc hadd hstep⟩) hadd trivial he
  refine ⟨as.map (ExecutorAction.owned π) ++ [.owner],
    { s with mTaskExecutor := e, owner := .returned }, ?_, ?_, rfl⟩
  · simp only [List.mem_append, List.mem_map, List.mem_singleton]
    rintro a (⟨b, -, rfl⟩ | rfl)
    · exact isClosing_owned b
    · rfl
  · rw [Machine.run_append, hrun, Option.bind_some, Machine.run_cons]
    simp [drainMachine, drainStep, ownerStep, hpc, hreturned]

theorem exists_run_of_destroys (hs : (drainMachine opt sleepsFirst π n).Reachable s)
    (howner : s.owner.destroys = true) :
    ∃ as t, (∀ a ∈ as, a.isClosing = true) ∧
      (drainMachine opt sleepsFirst π n).run s as = some t ∧ t.owner = .returned := by
  cases hpc : s.owner with
  | start | join =>
      rw [hpc] at howner
      contradiction
  | returned => exact ⟨[], s, List.forall_mem_nil _, Machine.run_nil _ s, hpc⟩
  | destroyExecutor =>
      by_cases hstart : s.mTaskExecutor.destructor = .start
      · -- the destructor of the executor clears its flag first
        have hstep : (drainMachine opt sleepsFirst π n).step s .owner = some
            { s with mTaskExecutor :=
                { s.mTaskExecutor with mIsRunning := false, destructor := .lock } } := by
          simp [drainMachine, drainStep, ownerStep, hpc, hstart, DrainState.executorStep,
            executorMachine, destructorStep]
        obtain ⟨as, t, has, hrun, ht⟩ := exists_run_of_started (hs.step hstep) hpc (by simp)
        refine ⟨.owner :: as, t, List.forall_mem_cons.mpr ⟨rfl, has⟩, ?_, ht⟩
        exact (drainMachine opt sleepsFirst π n).run_cons_eq_some.mpr ⟨_, hstep, hrun⟩
      · exact exists_run_of_started hs hpc hstart

/-! ### The whole pipeline -/

/-- Once the destructor has started, it can return. -/
theorem exists_closing_run (hcpus : opt.numCpus ≠ 0)
    (hs : (drainMachine opt sleepsFirst π n).Reachable s) (howner : s.owner ≠ .start) :
    ∃ as t, (∀ a ∈ as, a.isClosing = true) ∧
      (drainMachine opt sleepsFirst π n).run s as = some t ∧ t.owner = .returned := by
  -- the threads are joined
  obtain ⟨as, u, has, hu, ⟨hreach, -⟩, hjoined⟩ := Machine.exists_run_of_measure
    (M := drainMachine opt sleepsFirst π n) (f := DrainState.measure)
    (P := fun s => (drainMachine opt sleepsFirst π n).Reachable s ∧ s.owner ≠ .start)
    (Q := fun s => s.owner.destroys = true) (by
      rintro s ⟨hs, howner⟩
      cases hpc : s.owner with
      | start => exact absurd hpc howner
      | join i =>
          obtain ⟨a, t, ha, ht, hstart, hlt⟩ := exists_joiningStep hcpus hs hpc
          exact .inr ⟨a, t, ha, ht, ⟨hs.step ht, hstart⟩, hlt⟩
      | destroyExecutor | returned => exact .inl rfl) ⟨hs, howner⟩
  -- and the executor is destroyed
  obtain ⟨bs, t, hbs, hrun, ht⟩ := exists_run_of_destroys hreach hjoined
  refine ⟨as ++ bs, t, List.forall_mem_append.mpr ⟨has, hbs⟩, ?_, ht⟩
  rw [Machine.run_append, hu, Option.bind_some, hrun]

/-- A `LiveParser` takes all these steps. -/
theorem liveParserStep_of_drainStep {s t : DrainState Unit n} {a : DrainAction Unit n}
    (howner : s.owner ≠ .start) (ha : a.isClosing = true)
    (hstep : drainStep opt true s a = some t) : liveParserStep opt s a = some t := by
  cases a with
  | load | append | stop => contradiction
  | owner =>
      simp only [liveParserStep]
      split
      · next hstart _ => exact absurd hstart howner
      · exact hstep
  | thread | executor => exact hstep

theorem owner_ne_start_step {a : DrainAction π n} (howner : s.owner ≠ .start)
    (hstep : drainStep opt sleepsFirst s a = some t) : t.owner ≠ .start := by
  cases drainStep_effect hstep with
  | ownerStop | join | joined | «return» => simp
  | _ => exact howner

/-- The destructor of a `LiveParser` can start, if need be after a packet has been enqueued. No
thread has to go on for that. -/
theorem exists_liveParser_start (opt : CaptureOption) (s : DrainState Unit n) :
    ∃ t, (liveParserMachine opt n).LaterBy (fun a => ∀ w, a ≠ .thread w) s t ∧
      t.owner ≠ .start := by
  by_cases howner : s.owner = .start
  · have hstart {s : DrainState Unit n} (howner : s.owner = .start)
        (hidle : s.doubleBufferQueue.producer () = .idle) :
        ∃ t, (liveParserMachine opt n).LaterBy (fun a => ∀ w, a ≠ .thread w) s t ∧
          t.owner ≠ .start := by
      refine ⟨{ s with isRunning := false, owner := .join 0 },
        .single (a := .owner) (by simp) ?_, by simp⟩
      simp [liveParserMachine, liveParserStep, liveParserDestructorStep, ownerStep, howner, hidle]
    cases hproducer : s.doubleBufferQueue.producer () with
    | idle => exact hstart howner hproducer
    | loaded k i =>
        -- the capture is in `enqueue`, which it leaves first
        obtain ⟨q, hq, hidle⟩ : ∃ q, queueStep s.doubleBufferQueue (.append ()) = some q ∧
            q.producer () = .idle := by
          simp [queueStep, hproducer]
        have happend : (liveParserMachine opt n).step s (.append ()) =
            some { s with doubleBufferQueue := q } := by
          simp [liveParserMachine, liveParserStep, drainStep, DrainState.queueStep, hq]
        obtain ⟨t, hlater, ht⟩ := hstart (s := { s with doubleBufferQueue := q }) howner hidle
        exact ⟨t, (Machine.LaterBy.single (by simp) happend).trans hlater, ht⟩
  · exact ⟨s, .refl s, howner⟩

/-- So can that of a `KafkaSink`. -/
theorem exists_kafkaSink_start (opt : CaptureOption) (s : DrainState π n) :
    ∃ t, (kafkaSinkMachine opt π n).LaterBy (fun a => ∀ w, a ≠ .thread w) s t ∧
      t.owner ≠ .start := by
  by_cases howner : s.owner = .start
  · refine ⟨{ s with isRunning := false, owner := .join 0 },
      .single (a := .owner) (by simp) ?_, by simp⟩
    simp [kafkaSinkMachine, kafkaSinkStep, kafkaSinkDestructorStep, ownerStep, howner]
  · exact ⟨s, .refl s, howner⟩

/-- A `KafkaSink` takes all the steps that close it. -/
theorem kafkaSinkStep_of_drainStep {a : DrainAction π n} (ha : a.isClosing = true)
    (hstep : drainStep opt false s a = some t) : kafkaSinkStep opt s a = some t := by
  cases a with
  | load | append | stop => contradiction
  | owner | thread | executor => exact hstep

/-- A run that closes the pipeline is one of the `LiveParser`. -/
theorem liveParser_run {s t : DrainState Unit n} {as : List (DrainAction Unit n)}
    (howner : s.owner ≠ .start) (has : ∀ a ∈ as, a.isClosing = true)
    (hrun : (drainMachine opt true Unit n).run s as = some t) :
    (liveParserMachine opt n).run s as = some t := by
  have hmap := Machine.run_map (f := id) (g := id) (N := liveParserMachine opt n)
    (P := fun s => s.owner ≠ .start)
    (fun s a t howner ha hstep => ⟨owner_ne_start_step howner hstep,
      liveParserStep_of_drainStep howner ha hstep⟩) has howner hrun
  rwa [List.map_id] at hmap

/-- So is it of the `KafkaSink`. -/
theorem kafkaSink_run {as : List (DrainAction π n)} (has : ∀ a ∈ as, a.isClosing = true)
    (hrun : (drainMachine opt false π n).run s as = some t) :
    (kafkaSinkMachine opt π n).run s as = some t := by
  have hmap := Machine.run_map (f := id) (g := id) (N := kafkaSinkMachine opt π n)
    (P := fun _ => True)
    (fun s a t _ ha hstep => ⟨trivial, kafkaSinkStep_of_drainStep ha hstep⟩) has trivial hrun
  rwa [List.map_id] at hmap

theorem drain_of_kafkaSink (hs : (kafkaSinkMachine opt π n).Reachable s) :
    (drainMachine opt false π n).Reachable s :=
  hs.map (f := id) rfl fun _ a _ hstep => ⟨some a, drainStep_of_kafkaSinkStep hstep⟩

/-- Whatever has happened so far, `~LiveParser` can return, and so can `~KafkaSink`: their threads
never get into a deadlock, neither with each other nor with the executor. -/
theorem pipeline_closes (hcpus : opt.numCpus ≠ 0) :
    (∀ s, (liveParserMachine opt n).Reachable s →
      ∃ t, (liveParserMachine opt n).Later s t ∧ t.owner = .returned) ∧
    (∀ s, (kafkaSinkMachine opt π n).Reachable s →
      ∃ t, (kafkaSinkMachine opt π n).Later s t ∧ t.owner = .returned) := by
  constructor
  · intro s hs
    obtain ⟨u, hsu, howner⟩ := exists_liveParser_start opt s
    obtain ⟨as, t, has, hrun, ht⟩ :=
      exists_closing_run hcpus (drain_reachable (hs.later hsu.later)) howner
    exact ⟨t, hsu.later.trans ⟨as, liveParser_run howner has hrun⟩, ht⟩
  · intro s hs
    obtain ⟨u, hsu, howner⟩ := exists_kafkaSink_start opt s
    obtain ⟨as, t, has, hrun, ht⟩ :=
      exists_closing_run hcpus (drain_of_kafkaSink (hs.later hsu.later)) howner
    exact ⟨t, hsu.later.trans ⟨as, kafkaSink_run has hrun⟩, ht⟩

/-- A batch has been read and its call of `AddTask` waits for the mutex, which `Run` holds. -/
def waitingForRun (w : Fin n) : List (DrainAction Unit n) :=
  .thread w :: .load () :: .append () :: List.replicate 6 (.thread w) ++
    List.replicate 2 (.executor .run)

/-- From there, too. -/
theorem pipeline_closes_waitingForRun :
    ∃ s t, (kafkaSinkMachine {} Unit 1).run {} (waitingForRun 0) = some s ∧
      s.mTaskExecutor.mtxTaskQue.isSome = true ∧ (kafkaSinkMachine {} Unit 1).Later s t ∧
      t.owner = .returned := by
  have hwaiting : (kafkaSinkMachine {} Unit 1).run {} (waitingForRun 0) = some _ := rfl
  obtain ⟨t, hlater, hreturned⟩ :=
    (pipeline_closes (π := Unit) (n := 1) (by decide)).2 _ ⟨_, hwaiting⟩
  exact ⟨_, t, hwaiting, rfl, hlater, hreturned⟩

end Hound
