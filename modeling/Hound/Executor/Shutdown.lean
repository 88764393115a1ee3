import Hound.Executor.Accounting

/-!
# Which tasks a stopped executor has run

`Run` asks for an empty queue before it leaves the loop's body, but its `while (mIsRunning)` is
left as soon as the flag is cleared. So after `mIsRunning = false` at most one more task is popped.

* `ExecutorState.Stopping` : what the destructor has waited for.
* `ExecutorState.remaining` : the tasks that stay in the queue if the executor is stopped now.
* `mem_remaining_step` : once the flag is cleared they do stay there.
* `accepted_invoked_iff` : every task accepted before the destructor is invoked by the time it
  returns if and only if none of them remains when the flag is cleared.
-/

namespace Hound

variable {τ : Type} [DecidableEq τ] {opt : CaptureOption} {s t : ExecutorState τ}

/-! ### The destructor -/

/-- `mThread` has been joined. -/
def DestructorPc.joined : DestructorPc → Bool
  | .joinClean | .destroyFutures | .returned => true
  | _ => false

/-- `mCleanFutureThread` has been joined. -/
def DestructorPc.joinedClean : DestructorPc → Bool
  | .destroyFutures | .returned => true
  | _ => false

/-- What the destructor has done and waited for. -/
structure ExecutorState.Stopping (s : ExecutorState τ) : Prop where
  stopped : s.destructor ≠ .start → s.mIsRunning = false
  joined : s.destructor.joined = true → s.run = .finished
  joinedClean : s.destructor.joinedClean = true → s.clean = .finished
  emptied : s.destructor = .returned → s.mFutures = []

theorem stopping_run (hs : s.Stopping) (hstep : runStep s = some t) : t.Stopping := by
  -- `Run` takes no step after it has been joined
  have hjoined : s.destructor.joined = false := by
    by_contra h
    have hrun := hs.joined (by simpa using h)
    cases runStep_effect hstep <;> simp_all
  have hreturned : s.destructor ≠ .returned := by
    intro h
    rw [h] at hjoined
    nomatch hjoined
  cases runStep_effect hstep <;>
    exact ⟨hs.stopped, fun h => absurd (hjoined.symm.trans h) nofun, hs.joinedClean,
      fun h => absurd h hreturned⟩

omit [DecidableEq τ] in
theorem stopping_clean (hs : s.Stopping) (hstep : cleanStep s = some t) : t.Stopping := by
  -- the thread of `CleanFutures` takes no step after it has been joined
  have hjoined : s.destructor.joinedClean = false := by
    by_contra h
    have hclean := hs.joinedClean (by simpa using h)
    cases cleanStep_effect hstep <;> simp_all
  have hreturned : s.destructor ≠ .returned := by
    intro h
    rw [h] at hjoined
    nomatch hjoined
  cases cleanStep_effect hstep <;>
    exact ⟨hs.stopped, hs.joined, fun h => absurd (hjoined.symm.trans h) nofun,
      fun h => absurd h hreturned⟩

omit [DecidableEq τ] in
/-- A finished `Run` cannot be notified. -/
theorem Stopping.notified (hs : s.Stopping) : { s with run := s.run.notified }.Stopping := by
  refine ⟨hs.stopped, fun h => ?_, hs.joinedClean, hs.emptied⟩
  show s.run.notified = .finished
  rw [hs.joined h]
  rfl

omit [DecidableEq τ] in
/-- Every step of the destructor behind the first leaves the flag as it is. -/
theorem stopping_destructor (hs : s.Stopping) (hstep : destructorStep s = some t) :
    t.Stopping := by
  have hstopped : s.destructor ≠ .start → t.mIsRunning = false := by
    intro hne
    cases destructorStep_effect hstep with
    | stop => rfl
    | _ => exact hs.stopped hne
  cases destructorStep_effect hstep with
  | stop => exact ⟨fun _ => rfl, nofun, nofun, nofun⟩
  | lock hpc | notify hpc | unlock hpc =>
      exact ⟨fun _ => hstopped (by rw [hpc]; nofun), nofun, nofun, nofun⟩
  | join hpc hrun =>
      exact ⟨fun _ => hstopped (by rw [hpc]; nofun), fun _ => hrun, nofun, nofun⟩
  | joinClean hpc hclean =>
      exact ⟨fun _ => hstopped (by rw [hpc]; nofun), fun _ => hs.joined (by rw [hpc]; rfl),
        fun _ => hclean, nofun⟩
  | destroyFuture f rest hpc =>
      exact ⟨fun _ => hstopped (by rw [hpc]; nofun), fun _ => hs.joined (by rw [hpc]; rfl),
        fun _ => hs.joinedClean (by rw [hpc]; rfl), nofun⟩
  | finish hpc hfutures =>
      exact ⟨fun _ => hstopped (by rw [hpc]; nofun), fun _ => hs.joined (by rw [hpc]; rfl),
        fun _ => hs.joinedClean (by rw [hpc]; rfl), fun _ => hfutures⟩

theorem stopping_step (hs : s.Stopping) {a : ExecutorAction τ}
    (hstep : (executorMachine opt τ).step s a = some t) : t.Stopping := by
  cases a with
  | addTask c =>
      cases addTaskStep_effect hstep with
      | notify => exact ⟨hs.stopped, (Stopping.notified hs).joined, hs.joinedClean, hs.emptied⟩
      | _ => exact ⟨hs.stopped, hs.joined, hs.joinedClean, hs.emptied⟩
  | run => exact stopping_run hs hstep
  | spuriousWakeup =>
      obtain rfl := spuriousWakeupStep_eq hstep
      exact Stopping.notified hs
  | clean => exact stopping_clean hs hstep
  | destructor => exact stopping_destructor hs hstep
  | async c =>
      cases asyncStep_effect hstep <;>
        exact ⟨hs.stopped, hs.joined, hs.joinedClean, hs.emptied⟩

theorem stopping_of_reachable (hs : (executorMachine opt τ).Reachable s) : s.Stopping :=
  hs.invariant ⟨nofun, nofun, nofun, nofun⟩ fun _ _ _ hstopping hstep =>
    stopping_step hstopping hstep

/-! ### The tasks left behind -/

/-- The tasks that stay in the queue if the executor is stopped now: all, but for the front if
`Run` is on its way to pop it. -/
def ExecutorState.remaining (s : ExecutorState τ) : List τ :=
  (if s.run.beforePop then s.mTasks.tail else s.mTasks).map Job.task

omit [DecidableEq τ] in
/-- A task that remains is pending. -/
theorem mem_pending_of_mem_remaining {c : τ} (hc : c ∈ s.remaining) : c ∈ s.pending := by
  refine List.mem_append_right _ (List.map_subset _ ?_ hc)
  split
  · exact fun _ => List.mem_of_mem_tail
  · exact List.Subset.refl _

theorem mem_remaining_run (hstop : s.mIsRunning = false) (hstep : runStep s = some t) {c : τ} :
    c ∈ t.remaining ↔ c ∈ s.remaining := by
  cases runStep_effect hstep with
  | silent pc queLock futureLock _ _ _ hbefore =>
      rcases hbefore with hbefore | hrunning | htasks
      · simp only [ExecutorState.remaining, hbefore]
      · -- `Run` enters its loop only while the flag is set
        rw [hstop] at hrunning
        nomatch hrunning
      · simp [ExecutorState.remaining, htasks]
  | pop job rest hrun htasks => simp [ExecutorState.remaining, RunPc.beforePop, hrun, htasks]
  | launch job hrun => simp [ExecutorState.remaining, RunPc.beforePop, hrun]
  | store c' hrun => simp [ExecutorState.remaining, RunPc.beforePop, hrun]

/-- A call that has returned does not put its task in the queue again. -/
theorem mem_remaining_addTask {c c' : τ} (hcall : s.addTask c = .returned)
    (hstep : addTaskStep opt s c' = some t) : c ∈ t.remaining ↔ c ∈ s.remaining := by
  cases addTaskStep_effect hstep with
  | silent => rfl
  | emplace cpuId hcall' =>
      have hne : c ≠ c' := by
        rintro rfl
        rw [hcall] at hcall'
        nomatch hcall'
      cases hbefore : s.run.beforePop with
      | false => simp [ExecutorState.remaining, hbefore, hne]
      | true =>
          -- a task added to an empty queue is the one that will be popped
          cases htasks : s.mTasks <;> simp [ExecutorState.remaining, hbefore, htasks, hne]
  | notify => simp [ExecutorState.remaining]

/-- A call that has returned stays so. -/
theorem returned_step {c : τ} {a : ExecutorAction τ} (hcall : s.addTask c = .returned)
    (hstep : (executorMachine opt τ).step s a = some t) : t.addTask c = .returned := by
  cases a with
  | addTask c' =>
      rcases eq_or_ne c c' with rfl | hne
      · simp [executorMachine, addTaskStep, hcall] at hstep
      · cases addTaskStep_effect hstep <;> simpa [hne] using hcall
  | run => cases runStep_effect hstep <;> exact hcall
  | spuriousWakeup =>
      obtain rfl := spuriousWakeupStep_eq hstep
      exact hcall
  | clean => cases cleanStep_effect hstep <;> exact hcall
  | destructor => cases destructorStep_effect hstep <;> exact hcall
  | async c' => cases asyncStep_effect hstep <;> exact hcall

/-- The flag is never set again. -/
theorem stopped_step {a : ExecutorAction τ} (hstop : s.mIsRunning = false)
    (hstep : (executorMachine opt τ).step s a = some t) : t.mIsRunning = false := by
  cases a with
  | addTask c' => cases addTaskStep_effect hstep <;> exact hstop
  | run => cases runStep_effect hstep <;> exact hstop
  | spuriousWakeup =>
      obtain rfl := spuriousWakeupStep_eq hstep
      exact hstop
  | clean => cases cleanStep_effect hstep <;> exact hstop
  | destructor =>
      cases destructorStep_effect hstep with
      | stop => rfl
      | _ => exact hstop
  | async c' => cases asyncStep_effect hstep <;> exact hstop

/-- What remains does not change any more, as long as nothing is added. -/
theorem mem_remaining_of_ne {c : τ} {a : ExecutorAction τ} (hstop : s.mIsRunning = false)
    (hstep : (executorMachine opt τ).step s a = some t) (hne : ∀ c', a ≠ .addTask c') :
    c ∈ t.remaining ↔ c ∈ s.remaining := by
  cases a with
  | addTask c' => exact absurd rfl (hne c')
  | run => exact mem_remaining_run hstop hstep
  | spuriousWakeup =>
      obtain rfl := spuriousWakeupStep_eq hstep
      simp [ExecutorState.remaining]
  | clean => cases cleanStep_effect hstep <;> rfl
  | destructor =>
      cases destructorStep_effect hstep with
      | notify => simp [ExecutorState.remaining]
      | _ => rfl
  | async c' => cases asyncStep_effect hstep <;> rfl

/-- What remains of the accepted tasks does not change even then. -/
theorem mem_remaining_step {c : τ} {a : ExecutorAction τ} (hstop : s.mIsRunning = false)
    (hcall : s.addTask c = .returned) (hstep : (executorMachine opt τ).step s a = some t) :
    c ∈ t.remaining ↔ c ∈ s.remaining := by
  cases a with
  | addTask c' => exact mem_remaining_addTask hcall hstep
  | _ => exact mem_remaining_of_ne hstop hstep nofun

/-- What remains when the flag has been cleared remains for good. -/
theorem mem_remaining_of_later {c : τ} (hlater : (executorMachine opt τ).Later s t)
    (hstop : s.mIsRunning = false) (hcall : s.addTask c = .returned) :
    c ∈ t.remaining ↔ c ∈ s.remaining := by
  have hall : t.mIsRunning = false ∧ t.addTask c = .returned ∧
      (c ∈ t.remaining ↔ c ∈ s.remaining) := by
    refine hlater.stable (P := fun u => u.mIsRunning = false ∧ u.addTask c = .returned ∧
      (c ∈ u.remaining ↔ c ∈ s.remaining)) ⟨hstop, hcall, Iff.rfl⟩ ?_
    rintro u a v ⟨hustop, hucall, hiff⟩ hstep
    exact ⟨stopped_step hustop hstep, returned_step hucall hstep,
      (mem_remaining_step hustop hucall hstep).trans hiff⟩
  exact hall.2.2

/-- When the destructor has returned, an accepted task has been invoked once unless it remains. -/
theorem invocations_eq_one_iff {c : τ} (ht : (executorMachine opt τ).Reachable t)
    (hreturned : t.destructor = .returned) (hcall : t.addTask c = .returned) :
    t.invocations c = 1 ↔ c ∉ t.remaining := by
  have hstopping := stopping_of_reachable ht
  have hrun : t.run = .finished := hstopping.joined (by rw [hreturned]; rfl)
  have hremaining : t.remaining = t.pending := by
    rw [ExecutorState.remaining, ExecutorState.pending, hrun]
    rfl
  -- no future is left, so every task launched has finished
  have hfutures : t.futures = [] := by
    rw [ExecutorState.futures, hrun, hstopping.emptied hreturned]
    rfl
  have hfinished : (t.async c).isUnfinished = false := by
    by_contra h
    have hone := ((held_of_reachable ht) c).1 (by simpa using h)
    rw [hfutures] at hone
    exact absurd hone (by simp)
  have hinvoked : (t.async c).isInvoked = (t.async c).isLaunched := by
    cases hasync : t.async c <;>
      simp [hasync, AsyncPc.isUnfinished, AsyncPc.isInvoked, AsyncPc.isLaunched] at hfinished ⊢
  -- the call had put its task in the queue, where it is still pending unless it was launched
  have hplaced : t.pending.count c + (t.async c).isLaunched.toNat = 1 := by
    rw [placed_of_reachable ht c, hcall]
    rfl
  rw [invoked_of_reachable ht c, hinvoked, hremaining, ← List.count_eq_zero]
  omega

/-- Let the destructor start in `s`, clear the flag in `s₀` and return in `t`. Every task whose
`AddTask` call had returned in `s` is invoked exactly once by then if and only if none of them
remains in the queue in `s₀`. -/
theorem accepted_invoked_iff {s₀ s₁ : ExecutorState τ} (hs : (executorMachine opt τ).Reachable s)
    (hbegin : (executorMachine opt τ).Later s s₀) (hstart : s₀.destructor = .start)
    (hstop : (executorMachine opt τ).step s₀ .destructor = some s₁)
    (hend : (executorMachine opt τ).Later s₁ t) (hreturned : t.destructor = .returned) :
    (∀ c, s.addTask c = .returned → t.invocations c = 1) ↔
      ∀ c, s.addTask c = .returned → c ∉ s₀.remaining := by
  have hs₀ := hs.later hbegin
  have ht := (hs₀.step hstop).later hend
  have hcleared : s₁ = { s₀ with mIsRunning := false, destructor := .lock } := by
    cases destructorStep_effect hstop <;> simp_all
  -- task by task: what it has become at the end is decided when the flag is cleared
  refine forall₂_congr fun c hcall => ?_
  have hcall₀ : s₀.addTask c = .returned :=
    hbegin.stable (P := fun u => u.addTask c = .returned) hcall fun _ _ _ => returned_step
  have hcall₁ : s₁.addTask c = .returned := hcleared ▸ hcall₀
  have hcallt : t.addTask c = .returned :=
    hend.stable (P := fun u => u.addTask c = .returned) hcall₁ fun _ _ _ => returned_step
  have hsame : c ∈ t.remaining ↔ c ∈ s₁.remaining :=
    mem_remaining_of_later hend (by rw [hcleared]) hcall₁
  rw [invocations_eq_one_iff ht hreturned hcallt, hsame, hcleared]
  rfl

/-- `Run` has passed the head of its loop when a task is added. -/
def enteredThenAdded : List (ExecutorAction Unit) :=
  .run :: List.replicate 5 (.addTask ())

/-- `Run` pops and launches the task and leaves its loop, the task runs, and the destructor
returns. -/
def lastTaskRuns : List (ExecutorAction Unit) :=
  List.replicate 9 .run ++ List.replicate 2 (.async ()) ++ List.replicate 4 .destructor ++
    [.clean] ++ List.replicate 3 .destructor

/-- The task that is at the front when the flag is cleared is invoked. -/
theorem accepted_invoked_lastTaskRuns :
    ∃ s s₁ t, (executorMachine {} Unit).run {} enteredThenAdded = some s ∧
      (executorMachine {} Unit).step s .destructor = some s₁ ∧
      (executorMachine {} Unit).run s₁ lastTaskRuns = some t ∧ t.invocations () = 1 := by
  have hadded : (executorMachine {} Unit).run {} enteredThenAdded = some _ := rfl
  refine ⟨_, _, _, hadded, rfl, rfl, ?_⟩
  exact (accepted_invoked_iff ⟨_, hadded⟩ (Machine.Later.refl _) rfl rfl ⟨lastTaskRuns, rfl⟩
    rfl).mpr (fun _ _ => List.not_mem_nil) () rfl

/-- A task is added while `Run` is at the head of its loop; the flag is cleared before `Run` looks
at it, and the destructor returns. -/
def taskLeftBehind : List (ExecutorAction Unit) :=
  [.destructor, .run] ++ List.replicate 4 .destructor ++ [.clean] ++ List.replicate 2 .destructor

/-- Not every task accepted before the destructor has been invoked when it returns. -/
theorem accepted_not_invoked_taskLeftBehind :
    ¬∀ s t : ExecutorState Unit, (executorMachine {} Unit).Reachable s →
      s.destructor = .start → (executorMachine {} Unit).Later s t → t.destructor = .returned →
        ∀ c, s.addTask c = .returned → t.invocations c = 1 := by
  intro h
  have hadded : (executorMachine {} Unit).run {} (List.replicate 5 (.addTask ())) = some _ := rfl
  have hinvoked := h _ _ ⟨_, hadded⟩ rfl ⟨taskLeftBehind, rfl⟩ rfl () rfl
  nomatch hinvoked

end Hound
