import Hound.Executor.TaskExecutor

/-!
# What becomes of a task

A task whose call of `AddTask` has emplaced it is in the queue, taken out of it, or launched, and
in one of these places only. The future of a launched task stays in `task_future` or in
`mFutures` until the task has finished.

* `ExecutorState.Placed` : where the tasks are.
* `ExecutorState.Held` : where the futures are.
* `ExecutorState.Invoked` : how often tasks have been invoked.
* `ExecutorState.Stopping` : what the destructor has waited for.
-/

namespace Hound

variable {τ : Type} [DecidableEq τ] {opt : CaptureOption} {s t : ExecutorState τ}

/-! ### The queue -/

/-- The tasks that wait to be launched, in order. -/
def ExecutorState.pending (s : ExecutorState τ) : List τ :=
  s.run.popped ++ s.mTasks.map Job.task

/-- The task's thread has been launched. -/
def AsyncPc.isLaunched : AsyncPc → Bool
  | .notLaunched => false
  | _ => true

/-- An emplaced task is pending once, or launched. -/
def ExecutorState.Placed (s : ExecutorState τ) : Prop :=
  ∀ c, s.pending.count c + (s.async c).isLaunched.toNat = (s.addTask c).emplaced.toNat

/-- A pending task is not launched. -/
theorem ExecutorState.Placed.notLaunched (hs : s.Placed) {c : τ} (hc : c ∈ s.pending) :
    s.async c = .notLaunched := by
  have hplaced := hs c
  have hpos : 0 < s.pending.count c := List.count_pos_iff.mpr hc
  have hle := Bool.toNat_le (s.addTask c).emplaced
  cases hasync : s.async c with
  | notLaunched => rfl
  | _ =>
      simp only [hasync, AsyncPc.isLaunched, Bool.toNat_true] at hplaced
      omega

/-- It has been emplaced. -/
theorem ExecutorState.Placed.emplaced (hs : s.Placed) {c : τ} (hc : c ∈ s.pending) :
    (s.addTask c).emplaced = true := by
  have hplaced := hs c
  have hpos : 0 < s.pending.count c := List.count_pos_iff.mpr hc
  by_contra hnot
  rw [Bool.not_eq_true] at hnot
  rw [hnot, Bool.toNat_false] at hplaced
  omega

theorem placed_run (hs : s.Placed) (hstep : runStep s = some t) : t.Placed := by
  intro c
  have hc := hs c
  cases runStep_effect hstep with
  | silent pc queLock futureLock _ hpopped =>
      simpa only [ExecutorState.pending, hpopped] using hc
  | pop job rest hrun htasks =>
      simpa [ExecutorState.pending, RunPc.popped, hrun, htasks] using hc
  | launch job hrun =>
      -- the task leaves the pending ones and, not being launched before, is launched now
      have hnot : s.async job.task = .notLaunched :=
        hs.notLaunched (by simp [ExecutorState.pending, RunPc.popped, hrun])
      rcases eq_or_ne c job.task with rfl | hne
      · simp [ExecutorState.pending, RunPc.popped, hrun, hnot, AsyncPc.isLaunched] at hc ⊢
        omega
      · simpa [ExecutorState.pending, RunPc.popped, hrun, hne, hne.symm] using hc
  | store c' hrun =>
      simpa [ExecutorState.pending, RunPc.popped, hrun] using hc

theorem placed_addTask {c : τ} (hs : s.Placed) (hstep : addTaskStep opt s c = some t) :
    t.Placed := by
  intro c'
  have hc := hs c'
  cases addTaskStep_effect hstep with
  | silent pc nextCpuId queLock hcall =>
      rcases eq_or_ne c' c with rfl | hne
      · simpa [ExecutorState.pending, hcall] using hc
      · simpa [ExecutorState.pending, hne] using hc
  | emplace cpuId hcall =>
      rcases eq_or_ne c' c with rfl | hne
      · simp only [ExecutorState.pending, hcall, AddTaskPc.emplaced, Function.update_self,
          List.map_append, List.map_cons, List.map_nil, List.count_append,
          List.count_singleton_self, Bool.toNat_true, Bool.toNat_false] at hc ⊢
        omega
      · simpa [ExecutorState.pending, hne, hne.symm] using hc
  | notify hcall =>
      rcases eq_or_ne c' c with rfl | hne
      · simpa [ExecutorState.pending, AddTaskPc.emplaced, hcall] using hc
      · simpa [ExecutorState.pending, hne] using hc

theorem placed_async {c : τ} (hs : s.Placed) (hstep : asyncStep s c = some t) : t.Placed := by
  intro c'
  have hc := hs c'
  cases asyncStep_effect hstep with
  | invoke cpuId hasync =>
      rcases eq_or_ne c' c with rfl | hne
      · simpa [ExecutorState.pending, hasync, AsyncPc.isLaunched] using hc
      · simpa [ExecutorState.pending, hne] using hc
  | finish hasync =>
      rcases eq_or_ne c' c with rfl | hne
      · simpa [ExecutorState.pending, hasync, AsyncPc.isLaunched] using hc
      · simpa [ExecutorState.pending, hne] using hc

theorem placed_step (hs : s.Placed) {a : ExecutorAction τ}
    (hstep : (executorMachine opt τ).step s a = some t) : t.Placed := by
  cases a with
  | addTask c => exact placed_addTask hs hstep
  | run => exact placed_run hs hstep
  | spuriousWakeup =>
      obtain rfl := spuriousWakeupStep_eq hstep
      simpa [ExecutorState.Placed, ExecutorState.pending] using hs
  | clean => cases cleanStep_effect hstep <;> exact hs
  | destructor =>
      cases destructorStep_effect hstep with
      | notify => simpa [ExecutorState.Placed, ExecutorState.pending] using hs
      | _ => exact hs
  | async c => exact placed_async hs hstep

theorem placed_of_reachable (hs : (executorMachine opt τ).Reachable s) : s.Placed :=
  hs.invariant (fun _ => rfl) fun _ _ _ hplaced hstep => placed_step hplaced hstep

/-- `Run` takes the front of the queue only if there is one, or if it has been told to stop. -/
theorem front_defined (hs : (executorMachine opt τ).Reachable s) (htest : s.run = .test) :
    s.mTasks ≠ [] ∨ s.mIsRunning = false := by
  refine hs.invariant (P := fun s => s.run = .test → s.mTasks ≠ [] ∨ s.mIsRunning = false) nofun ?_
    htest
  intro s a t hdefined hstep hrun
  -- a notification does not take `Run` to the test
  have hnotified : s.run.notified = .test → s.run = .test := by
    cases s.run <;> simp [RunPc.notified]
  cases a with
  | addTask c =>
      cases addTaskStep_effect hstep with
      | silent => exact hdefined hrun
      | emplace => exact .inl (List.append_ne_nil_of_right_ne_nil _ nofun)
      | notify => exact hdefined (hnotified hrun)
  | run =>
      cases runStep_effect hstep with
      | silent pc queLock futureLock _ _ _ _ hpc => exact hpc hrun
      | pop | launch | store => nomatch hrun
  | spuriousWakeup =>
      obtain rfl := spuriousWakeupStep_eq hstep
      exact hdefined (hnotified hrun)
  | clean => cases cleanStep_effect hstep <;> exact hdefined hrun
  | destructor =>
      cases destructorStep_effect hstep with
      | stop => exact .inr rfl
      | notify => exact hdefined (hnotified hrun)
      | _ => exact hdefined hrun
  | async c => cases asyncStep_effect hstep <;> exact hdefined hrun

/-! ### The futures -/

/-- The task's future is not ready yet. -/
def AsyncPc.isUnfinished : AsyncPc → Bool
  | .launched _ | .running => true
  | _ => false

/-- The futures in `task_future` and in `mFutures`. -/
def ExecutorState.futures (s : ExecutorState τ) : List (Option τ) :=
  s.run.taskFuture ++ s.mFutures

/-- The future of a task that has been launched and has not finished is in one place; a task that
has not been launched has none. -/
def ExecutorState.Held (s : ExecutorState τ) : Prop :=
  ∀ c, ((s.async c).isUnfinished = true → s.futures.count (some c) = 1) ∧
    (s.async c = .notLaunched → s.futures.count (some c) = 0)

omit [DecidableEq τ] in
/-- A future that is ready is not that of an unfinished task. -/
theorem ExecutorState.ne_some_of_isReady {f : Option τ} {c : τ} (hf : s.isReady f = true)
    (hc : (s.async c).isUnfinished = true ∨ s.async c = .notLaunched) : f ≠ some c := by
  rintro rfl
  rcases hc with hc | hc
  · cases hasync : s.async c <;> simp [ExecutorState.isReady, AsyncPc.isUnfinished, hasync] at hf hc
  · simp [ExecutorState.isReady, hc] at hf

/-- Moving `x` from place `i` to place `j` changes only the number of what it leaves behind and of
what it overwrites. -/
theorem count_move {α : Type} [BEq α] [LawfulBEq α] {l : List α} {i j : ℕ} {x y z a : α}
    (hi : l[i]? = some x) (hj : (l.set i y)[j]? = some z) (hy : y ≠ a) (hz : z ≠ a) :
    ((l.set i y).set j x).count a = l.count a := by
  obtain ⟨hlt, rfl⟩ := List.getElem?_eq_some_iff.mp hi
  obtain ⟨hlt', rfl⟩ := List.getElem?_eq_some_iff.mp hj
  rw [List.count_set hlt', List.count_set hlt]
  rcases eq_or_ne l[i] a with rfl | hne
  · have hpos : 0 < l.count l[i] := List.count_pos_iff.mpr (List.getElem_mem hlt)
    simp only [beq_iff_eq, hy, hz, if_true, if_false]
    omega
  · simp [hy, hz, hne]

theorem held_run (hplaced : s.Placed) (hs : s.Held) (hstep : runStep s = some t) : t.Held := by
  intro c
  have hc := hs c
  cases runStep_effect hstep with
  | silent pc queLock futureLock _ _ hfuture =>
      simpa only [ExecutorState.futures, hfuture] using hc
  | pop job rest hrun htasks =>
      simpa [ExecutorState.futures, RunPc.taskFuture, hrun] using hc
  | launch job hrun =>
      have hnot : s.async job.task = .notLaunched :=
        hplaced.notLaunched (by simp [ExecutorState.pending, RunPc.popped, hrun])
      rcases eq_or_ne c job.task with rfl | hne
      · have hzero := hc.2 hnot
        simp_all [ExecutorState.futures, RunPc.taskFuture]
      · simpa [ExecutorState.futures, RunPc.taskFuture, hrun, hne, hne.symm] using hc
  | store c' hrun =>
      -- the future moves from the local variable to the end of the vector
      have hperm : (s.mFutures ++ [some c']).count (some c) = s.futures.count (some c) := by
        rw [ExecutorState.futures, hrun, List.count_append, List.count_append, Nat.add_comm]
        rfl
      simpa only [ExecutorState.futures, RunPc.taskFuture, List.nil_append, hperm] using hc

theorem held_clean (hs : s.Held) (hstep : cleanStep s = some t) : t.Held := by
  intro c
  -- removing and overwriting ready futures leaves the others alone
  suffices hsame : (s.async c).isUnfinished = true ∨ s.async c = .notLaunched →
      t.futures.count (some c) = s.futures.count (some c) by
    have hasync : t.async = s.async := by cases cleanStep_effect hstep <;> rfl
    rw [hasync]
    exact ⟨fun h => (hsame (.inl h)).trans ((hs c).1 h),
      fun h => (hsame (.inr h)).trans ((hs c).2 h)⟩
  intro hunready
  cases cleanStep_effect hstep with
  | silent pc futureLock hclean => rfl
  | keep result first c' f hclean hfirst hresult hready =>
      -- the future moves towards the front, over one that has been moved from or is ready
      have hcount := count_move hfirst hresult (a := some c) nofun
        (s.ne_some_of_isReady hready hunready)
      simp only [ExecutorState.futures, List.count_append, hcount]
  | erase result hclean hready =>
      -- what is erased is ready
      have hdrop : (s.mFutures.drop result).count (some c) = 0 := by
        rw [List.count_eq_zero]
        exact fun hmem => s.ne_some_of_isReady (hready _ hmem) hunready rfl
      have hsplit : s.mFutures.count (some c) =
          (s.mFutures.take result).count (some c) + (s.mFutures.drop result).count (some c) := by
        rw [← List.count_append, List.take_append_drop]
      simp only [ExecutorState.futures, List.count_append, hsplit, hdrop, Nat.add_zero]

theorem held_destructor (hs : s.Held) (hstep : destructorStep s = some t) : t.Held := by
  intro c
  have hc := hs c
  cases destructorStep_effect hstep with
  | notify => simpa [ExecutorState.futures] using hc
  | destroyFuture f rest hpc hfutures hready =>
      -- the destructor of a future has waited for its task
      have hrest : (s.async c).isUnfinished = true ∨ s.async c = .notLaunched →
          (f :: rest).count (some c) = rest.count (some c) := fun h =>
        List.count_cons_of_ne (s.ne_some_of_isReady hready h)
      simp only [ExecutorState.futures, List.count_append, hfutures] at hc ⊢
      exact ⟨fun h => hrest (.inl h) ▸ hc.1 h, fun h => hrest (.inr h) ▸ hc.2 h⟩
  | _ => exact hc

theorem held_async {c : τ} (hs : s.Held) (hstep : asyncStep s c = some t) : t.Held := by
  intro c'
  have hc := hs c'
  cases asyncStep_effect hstep with
  | invoke cpuId hasync =>
      rcases eq_or_ne c' c with rfl | hne
      · simpa [ExecutorState.futures, AsyncPc.isUnfinished, hasync] using hc
      · simpa [ExecutorState.futures, hne] using hc
  | finish hasync =>
      rcases eq_or_ne c' c with rfl | hne
      · simp [AsyncPc.isUnfinished]
      · simpa [ExecutorState.futures, hne] using hc

theorem held_step (hplaced : s.Placed) (hs : s.Held) {a : ExecutorAction τ}
    (hstep : (executorMachine opt τ).step s a = some t) : t.Held := by
  cases a with
  | addTask c =>
      cases addTaskStep_effect hstep with
      | notify => simpa [ExecutorState.Held, ExecutorState.futures] using hs
      | _ => exact hs
  | run => exact held_run hplaced hs hstep
  | spuriousWakeup =>
      obtain rfl := spuriousWakeupStep_eq hstep
      simpa [ExecutorState.Held, ExecutorState.futures] using hs
  | clean => exact held_clean hs hstep
  | destructor => exact held_destructor hs hstep
  | async c => exact held_async hs hstep

theorem held_of_reachable (hs : (executorMachine opt τ).Reachable s) : s.Held :=
  hs.invariant_of (fun _ => placed_of_reachable) (fun _ => ⟨nofun, fun _ => rfl⟩)
    fun _ _ _ hplaced hheld hstep => held_step hplaced hheld hstep

/-! ### The invocations -/

/-- The task has been invoked. -/
def AsyncPc.isInvoked : AsyncPc → Bool
  | .running | .finished => true
  | _ => false

/-- A task is invoked once, by its own thread. -/
def ExecutorState.Invoked (s : ExecutorState τ) : Prop :=
  ∀ c, s.invocations c = (s.async c).isInvoked.toNat

theorem invoked_step (hplaced : s.Placed) (hs : s.Invoked) {a : ExecutorAction τ}
    (hstep : (executorMachine opt τ).step s a = some t) : t.Invoked := by
  intro c
  have hc := hs c
  cases task_step hstep c with
  | same hasync hinvocations => rw [hasync, hinvocations, hc]
  | launch job hrun hjob hasync hinvocations =>
      have hnot : s.async c = .notLaunched :=
        hplaced.notLaunched (by simp [ExecutorState.pending, RunPc.popped, hrun, hjob])
      rw [hasync, hinvocations, hc, hnot]
      rfl
  | invoke cpuId _ hbefore hasync hinvocations =>
      rw [hasync, hinvocations, hc, hbefore]
      rfl
  | finish _ hbefore hasync hinvocations =>
      rw [hasync, hinvocations, hc, hbefore]
      rfl

theorem invoked_of_reachable (hs : (executorMachine opt τ).Reachable s) : s.Invoked :=
  hs.invariant_of (fun _ => placed_of_reachable) (fun _ => rfl)
    fun _ _ _ hplaced hinvoked hstep => invoked_step hplaced hinvoked hstep

end Hound
