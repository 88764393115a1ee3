import Hound.Executor.Futures
import Hound.Executor.Wakeup
import Hound.Pipeline.Accounting
import Mathlib

/-!
# Destructors return

Once `mIsRunning` has been cleared, every thread of a `TaskExecutor` is on its way out. `Run` pops
one more task at most and blocks no more, a pass of `CleanFutures` tests each future once, and each
task runs once. So no thread can go on forever, whatever the schedule, and a state in which no
thread can go on at all is one in which `~TaskExecutor` has returned.

* `ExecutorState.measure` : how many steps are left.
* `measure_step` : it decreases in each step.
* `exists_step` : as long as the destructor has not returned, some thread can take one.
* `destructor_returns` : so it returns.
-/

namespace Hound

/-! ### The steps that are left -/

/-- How many steps `Run` can take once `mIsRunning` is false. A launch makes up for the future that
is added. -/
def RunPc.rank {τ : Type} : RunPc τ → ℕ
  | .finished => 0
  | .loop | .breakUnlock => 1
  | .unlockFutures => 2
  | .store _ => 3
  | .lockFutures _ => 4
  | .launch _ => 6
  | .unlock _ => 7
  | .test => 8
  | .predicate => 9
  | .lock | .woken => 10
  | .blocked => 11
  | .release => 12

/-- So for the thread of `CleanFutures`, with `len` futures. -/
def CleanPc.rank (len : ℕ) : CleanPc → ℕ
  | .finished => 0
  | .loop => 1
  | .unlock => 2
  | .erase _ => 3
  | .remove _ first => 4 + (len - first)
  | .lock => 5 + len
  | .sleep => 6 + len

/-- So for the destructor. -/
def DestructorPc.rank (len : ℕ) : DestructorPc → ℕ
  | .returned => 0
  | .destroyFutures => 1 + len
  | .joinClean => 2 + len
  | .join => 3 + len
  | .unlock => 4 + len
  | .notify => 5 + len
  | .lock => 6 + len
  | .start => 7 + len

/-- So for the thread of a task. -/
def AsyncPc.rank : AsyncPc → ℕ
  | .finished => 0
  | .running => 1
  | .launched _ => 2
  | .notLaunched => 3

theorem CleanPc.rank_mono (pc : CleanPc) {k l : ℕ} (h : k ≤ l) : pc.rank k ≤ pc.rank l := by
  cases pc <;> simp only [CleanPc.rank] <;> omega

theorem CleanPc.rank_succ_le (pc : CleanPc) (k : ℕ) : pc.rank (k + 1) ≤ pc.rank k + 1 := by
  cases pc <;> simp only [CleanPc.rank] <;> omega

theorem DestructorPc.rank_mono (pc : DestructorPc) {k l : ℕ} (h : k ≤ l) :
    pc.rank k ≤ pc.rank l := by
  cases pc <;> simp only [DestructorPc.rank] <;> omega

theorem DestructorPc.rank_succ_le (pc : DestructorPc) (k : ℕ) :
    pc.rank (k + 1) ≤ pc.rank k + 1 := by
  cases pc <;> simp only [DestructorPc.rank] <;> omega

/-- A notification brings `Run` closer to the end. -/
theorem RunPc.rank_notified_le {τ : Type} (pc : RunPc τ) : pc.notified.rank ≤ pc.rank := by
  cases pc <;> simp [RunPc.notified, RunPc.rank]

variable {τ : Type} [DecidableEq τ] {opt : CaptureOption} {s t : ExecutorState τ} {F : Finset τ}

/-- How many steps the executor can take, when all busy tasks are in `F`. -/
def ExecutorState.measure (F : Finset τ) (s : ExecutorState τ) : ℕ :=
  s.run.rank + s.clean.rank s.futures.length + s.destructor.rank s.futures.length +
    ∑ c ∈ F, (s.async c).rank

/-- A task takes a step. -/
theorem sum_rank_update (async : τ → AsyncPc) {c : τ} (hc : c ∈ F) (pc : AsyncPc)
    (hrank : pc.rank + 1 ≤ (async c).rank) :
    ∑ c' ∈ F, (Function.update async c pc c').rank + 1 ≤ ∑ c' ∈ F, (async c').rank := by
  refine sum_add_le_sum_of_forall_ne hc ?_ fun c' hne => ?_
  · rwa [Function.update_self]
  · rw [Function.update_of_ne hne]

omit [DecidableEq τ] in
/-- `Run` goes on, and nothing else changes that counts. -/
theorem measure_goto {pc pc' : RunPc τ} (hrun : s.run = pc) (hrun' : t.run = pc')
    (hrank : pc'.rank < pc.rank) (hfuture : pc'.taskFuture = pc.taskFuture)
    (hsame : t.mFutures = s.mFutures ∧ t.clean = s.clean ∧ t.destructor = s.destructor ∧
      t.async = s.async) : t.measure F < s.measure F := by
  obtain ⟨hfutures, hclean, hdestructor, hasync⟩ := hsame
  unfold ExecutorState.measure ExecutorState.futures
  rw [hrun, hrun', hfuture, hfutures, hclean, hdestructor, hasync]
  omega

theorem measure_run (hstop : s.mIsRunning = false) (hplaced : s.Placed)
    (hF : ∀ c, s.Busy c → c ∈ F) (hstep : runStep s = some t) : t.measure F < s.measure F := by
  cases hrun : s.run with
  | loop =>
      -- the flag has been cleared
      obtain rfl : _ = t := by simpa [runStep, hrun, hstop] using hstep
      exact measure_goto hrun rfl (by simp [RunPc.rank]) rfl ⟨rfl, rfl, rfl, rfl⟩
  | predicate =>
      -- so the predicate is true
      obtain rfl : _ = t := by simpa [runStep, hrun, hstop] using hstep
      exact measure_goto hrun rfl (by simp [RunPc.rank]) rfl ⟨rfl, rfl, rfl, rfl⟩
  | lock | woken =>
      cases hlock : s.mtxTaskQue with
      | some _ => simp [runStep, hrun, hlock] at hstep
      | none =>
          obtain rfl : _ = t := by simpa [runStep, hrun, hlock] using hstep
          exact measure_goto hrun rfl (by simp [RunPc.rank]) rfl ⟨rfl, rfl, rfl, rfl⟩
  | lockFutures c =>
      cases hlock : s.mtxFutureQue with
      | some _ => simp [runStep, hrun, hlock] at hstep
      | none =>
          obtain rfl : _ = t := by simpa [runStep, hrun, hlock] using hstep
          exact measure_goto hrun rfl (by simp [RunPc.rank]) rfl ⟨rfl, rfl, rfl, rfl⟩
  | release | breakUnlock | unlock | unlockFutures =>
      obtain rfl : _ = t := by simpa [runStep, hrun] using hstep
      exact measure_goto hrun rfl (by simp [RunPc.rank]) rfl ⟨rfl, rfl, rfl, rfl⟩
  | test =>
      cases htasks : s.mTasks with
      | nil =>
          obtain ⟨-, rfl⟩ : ¬s.mIsRunning = true ∧ { s with run := .breakUnlock } = t := by
            simpa [runStep, hrun, htasks] using hstep
          exact measure_goto hrun rfl (by simp [RunPc.rank]) rfl ⟨rfl, rfl, rfl, rfl⟩
      | cons job rest =>
          obtain rfl : _ = t := by simpa [runStep, hrun, htasks] using hstep
          exact measure_goto hrun rfl (by simp [RunPc.rank]) rfl ⟨rfl, rfl, rfl, rfl⟩
  | launch job =>
      obtain rfl : _ = t := by simpa [runStep, hrun] using hstep
      have hpending : job.task ∈ s.pending := by simp [ExecutorState.pending, RunPc.popped, hrun]
      have hsum := sum_rank_update s.async (hF _ (.inl hpending)) (.launched job.cpuId)
        (by rw [hplaced.notLaunched hpending]; exact Nat.le_refl _)
      -- the future is one more, for the thread of `CleanFutures` and for the destructor
      have hclean := s.clean.rank_succ_le s.mFutures.length
      have hdestructor := s.destructor.rank_succ_le s.mFutures.length
      simp only [ExecutorState.measure, ExecutorState.futures, hrun, RunPc.rank, RunPc.taskFuture,
        List.nil_append, List.singleton_append, List.length_cons] at hsum ⊢
      omega
  | store c =>
      obtain rfl : _ = t := by simpa [runStep, hrun] using hstep
      -- the future moves into the vector
      simp [ExecutorState.measure, ExecutorState.futures, hrun, RunPc.rank, RunPc.taskFuture]
  | blocked | finished => simp [runStep, hrun] at hstep

/-- The thread of `CleanFutures` comes closer to the end of its pass, with no more futures than
before. -/
structure CleanEffect.Closer (s t : ExecutorState τ) : Prop where
  rank : t.clean.rank s.futures.length < s.clean.rank s.futures.length
  futures : t.futures.length ≤ s.futures.length
  run : t.run = s.run
  mTasks : t.mTasks = s.mTasks
  destructor : t.destructor = s.destructor
  async : t.async = s.async

omit [DecidableEq τ] in
/-- The thread goes on to `pc'`. -/
theorem CleanEffect.Closer.of_rank {pc pc' : CleanPc} (hclean : s.clean = pc)
    (hclean' : t.clean = pc') (hrank : pc'.rank s.futures.length < pc.rank s.futures.length)
    (hlen : t.mFutures.length ≤ s.mFutures.length)
    (hsame : t.run = s.run ∧ t.mTasks = s.mTasks ∧ t.destructor = s.destructor ∧
      t.async = s.async) : CleanEffect.Closer s t := by
  obtain ⟨hrun, htasks, hdestructor, hasync⟩ := hsame
  refine ⟨hclean ▸ hclean' ▸ hrank, ?_, hrun, htasks, hdestructor, hasync⟩
  rw [ExecutorState.futures, ExecutorState.futures, hrun, List.length_append, List.length_append]
  omega

omit [DecidableEq τ] in
/-- Every step of the thread is one of a pass, unless it begins another one. -/
theorem closer_clean (hpass : s.mIsRunning = false ∨ s.clean ≠ .loop)
    (hstep : cleanStep s = some t) : CleanEffect.Closer s t := by
  have hlen : s.mFutures.length ≤ s.futures.length := by
    rw [ExecutorState.futures, List.length_append]
    omega
  cases hclean : s.clean with
  | loop =>
      -- there is no further pass
      have hstop := hpass.resolve_right (not_not_intro hclean)
      obtain rfl : _ = t := by simpa [cleanStep, hclean, hstop] using hstep
      exact .of_rank hclean rfl (by simp [CleanPc.rank]) (Nat.le_refl _) ⟨rfl, rfl, rfl, rfl⟩
  | sleep | unlock =>
      obtain rfl : _ = t := by simpa [cleanStep, hclean] using hstep
      exact .of_rank hclean rfl (by simp [CleanPc.rank]) (Nat.le_refl _) ⟨rfl, rfl, rfl, rfl⟩
  | lock =>
      cases hlock : s.mtxFutureQue with
      | some _ => simp [cleanStep, hclean, hlock] at hstep
      | none =>
          obtain rfl : _ = t := by simpa [cleanStep, hclean, hlock] using hstep
          refine .of_rank hclean rfl ?_ (Nat.le_refl _) ⟨rfl, rfl, rfl, rfl⟩
          rw [CleanPc.rank, CleanPc.rank]
          omega
  | remove result first =>
      cases hfirst : s.mFutures[first]? with
      | none =>
          obtain rfl : _ = t := by
            simpa only [cleanStep, hclean, hfirst, Option.some.injEq] using hstep
          refine .of_rank hclean rfl ?_ (Nat.le_refl _) ⟨rfl, rfl, rfl, rfl⟩
          rw [CleanPc.rank, CleanPc.rank]
          omega
      | some moved =>
          have hlt := (List.getElem?_eq_some_iff.mp hfirst).1
          -- one future fewer to test
          have hrank (result' : ℕ) : (CleanPc.remove result' (first + 1)).rank s.futures.length <
              (CleanPc.remove result first).rank s.futures.length := by
            rw [CleanPc.rank, CleanPc.rank]
            omega
          cases moved with
          | none => simp only [cleanStep, hclean, hfirst, reduceCtorEq] at hstep
          | some c =>
              simp only [cleanStep, hclean, hfirst] at hstep
              split at hstep
              · obtain rfl := Option.some.inj hstep
                exact .of_rank hclean rfl (hrank _) (Nat.le_refl _) ⟨rfl, rfl, rfl, rfl⟩
              · split at hstep
                · contradiction
                · split at hstep
                  · obtain rfl := Option.some.inj hstep
                    exact .of_rank hclean rfl (hrank _) (by simp) ⟨rfl, rfl, rfl, rfl⟩
                  · contradiction
  | erase result =>
      simp only [cleanStep, hclean] at hstep
      split at hstep
      · obtain rfl := Option.some.inj hstep
        exact .of_rank hclean rfl (by simp [CleanPc.rank]) (by simp) ⟨rfl, rfl, rfl, rfl⟩
      · contradiction
  | finished => simp [cleanStep, hclean] at hstep

omit [DecidableEq τ] in
theorem measure_clean (hstop : s.mIsRunning = false) (hstep : cleanStep s = some t) :
    t.measure F < s.measure F := by
  have hcloser := closer_clean (.inl hstop) hstep
  have hrank := hcloser.rank
  have hclean := t.clean.rank_mono hcloser.futures
  have hdestructor := s.destructor.rank_mono hcloser.futures
  unfold ExecutorState.measure
  rw [hcloser.run, hcloser.destructor, hcloser.async]
  omega

omit [DecidableEq τ] in
/-- The destructor goes on, with no more futures than before. -/
theorem measure_destructorTo {pc pc' : DestructorPc} (hpc : s.destructor = pc)
    (hpc' : t.destructor = pc') (hrun : t.run.rank ≤ s.run.rank)
    (hlen : t.futures.length ≤ s.futures.length)
    (hrank : pc'.rank t.futures.length < pc.rank s.futures.length)
    (hsame : t.clean = s.clean ∧ t.async = s.async) : t.measure F < s.measure F := by
  obtain ⟨hclean, hasync⟩ := hsame
  have hmono := s.clean.rank_mono hlen
  unfold ExecutorState.measure
  rw [hpc, hpc', hclean, hasync]
  omega

omit [DecidableEq τ] in
theorem measure_destructor (hstep : destructorStep s = some t) : t.measure F < s.measure F := by
  cases destructorStep_effect hstep with
  | stop hpc | lock hpc | unlock hpc | join hpc | joinClean hpc =>
      exact measure_destructorTo hpc rfl (Nat.le_refl _) (Nat.le_refl _)
        (by simp [DestructorPc.rank, ExecutorState.futures]) ⟨rfl, rfl⟩
  | finish hpc =>
      exact measure_destructorTo hpc rfl (Nat.le_refl _) (Nat.le_refl _)
        (by simp [DestructorPc.rank]) ⟨rfl, rfl⟩
  | notify hpc =>
      exact measure_destructorTo hpc rfl s.run.rank_notified_le
        (by simp [ExecutorState.futures]) (by simp [DestructorPc.rank, ExecutorState.futures])
        ⟨rfl, rfl⟩
  | destroyFuture f rest hpc hfutures =>
      exact measure_destructorTo hpc rfl (Nat.le_refl _) (by simp [ExecutorState.futures, hfutures])
        (by simp [DestructorPc.rank, ExecutorState.futures, hfutures]) ⟨rfl, rfl⟩

theorem measure_async {c : τ} (hF : ∀ c, s.Busy c → c ∈ F) (hstep : asyncStep s c = some t) :
    t.measure F < s.measure F := by
  cases asyncStep_effect hstep with
  | invoke cpuId hasync =>
      have hsum := sum_rank_update s.async (hF c (.inr (by rw [hasync]; rfl))) .running
        (by rw [hasync]; exact Nat.le_refl _)
      simp only [ExecutorState.measure, ExecutorState.futures] at hsum ⊢
      omega
  | finish hasync =>
      have hsum := sum_rank_update s.async (hF c (.inr (by rw [hasync]; rfl))) .finished
        (by rw [hasync]; exact Nat.le_refl _)
      simp only [ExecutorState.measure, ExecutorState.futures] at hsum ⊢
      omega

/-- When `mIsRunning` has been cleared, each step brings the threads closer to their ends. -/
theorem measure_step {a : ExecutorAction τ} (hstop : s.mIsRunning = false) (hplaced : s.Placed)
    (hF : ∀ c, s.Busy c → c ∈ F) (hstep : (executorMachine opt τ).step s a = some t)
    (hadd : ∀ c, a ≠ .addTask c) : t.measure F < s.measure F := by
  cases a with
  | addTask c => exact absurd rfl (hadd c)
  | run => exact measure_run hstop hplaced hF hstep
  | spuriousWakeup =>
      cases hrun : s.run with
      | blocked =>
          obtain rfl : _ = t := by simpa [executorMachine, spuriousWakeupStep, hrun] using hstep
          exact measure_goto hrun rfl (by simp [RunPc.rank]) rfl ⟨rfl, rfl, rfl, rfl⟩
      | _ => simp [executorMachine, spuriousWakeupStep, hrun] at hstep
  | clean => exact measure_clean hstop hstep
  | destructor => exact measure_destructor hstep
  | async c => exact measure_async hF hstep

/-! ### No deadlock -/

section Progress

/-- No call of `AddTask` is going on. -/
def ExecutorState.NoCall (s : ExecutorState τ) : Prop :=
  ∀ c, s.addTask c = .start ∨ s.addTask c = .returned

omit [DecidableEq τ] in
/-- So no call holds the mutex of the queue. -/
theorem ExecutorState.NoCall.holdsTaskQue (h : s.NoCall) (c : τ) :
    s.holdsTaskQue (.addTask c) = false := by
  rcases h c with hc | hc <;> rw [ExecutorState.holdsTaskQue, hc] <;> rfl

/-- While `Run` holds the mutex of the queue, it can go on. -/
theorem exists_runStep_of_holds (hs : (executorMachine opt τ).Reachable s)
    (hheld : s.run.holdsTaskQue = true) : ∃ t, runStep s = some t := by
  cases hrun : s.run with
  | predicate | release | breakUnlock | unlock => exact ⟨_, by rw [runStep, hrun]⟩
  | test =>
      cases htasks : s.mTasks with
      | nil =>
          -- an empty queue is looked at only when there will be no more tasks
          have hstop := (front_defined hs hrun).resolve_left (not_not_intro htasks)
          exact Option.isSome_iff_exists.mp (by simp [runStep, hrun, htasks, hstop])
      | cons job rest => exact Option.isSome_iff_exists.mp (by simp [runStep, hrun, htasks])
  | _ =>
      rw [hrun] at hheld
      contradiction

omit [DecidableEq τ] in
/-- If neither a call nor the destructor holds the mutex, `Run` does or it is free. -/
theorem free_or_runHolds (howned : s.TaskQueOwned) (hcalls : s.NoCall)
    (hdestructor : s.destructor.holdsTaskQue = false) :
    s.mtxTaskQue = none ∨ s.run.holdsTaskQue = true := by
  cases hlock : s.mtxTaskQue with
  | none => exact .inl rfl
  | some u =>
      have hheld := (howned u).mpr hlock
      cases u with
      | addTask c =>
          rw [hcalls.holdsTaskQue c] at hheld
          contradiction
      | run => exact .inr hheld
      | destructor =>
          rw [ExecutorState.holdsTaskQue, hdestructor] at hheld
          contradiction

/-- Until it has finished, `Run` or the thread it waits for can go on. -/
theorem exists_step_of_run (hs : (executorMachine opt τ).Reachable s) (hcalls : s.NoCall)
    (hpc : s.destructor = .join) (hrun : s.run ≠ .finished) :
    (∃ t, runStep s = some t) ∨ ∃ t, cleanStep s = some t := by
  have hstop := (stopping_of_reachable hs).stopped (by simp [hpc])
  have hfree := free_or_runHolds (taskQueOwned_of_reachable hs) hcalls (by rw [hpc]; rfl)
  by_cases hheld : s.run.holdsTaskQue = true
  · exact .inl (exists_runStep_of_holds hs hheld)
  have hlock : s.mtxTaskQue = none := hfree.resolve_right hheld
  cases hr : s.run with
  | predicate | release | test | breakUnlock | unlock =>
      rw [hr] at hheld
      exact absurd rfl hheld
  | loop | launch | store | unlockFutures => exact .inl ⟨_, by rw [runStep, hr]⟩
  | lock | woken => exact .inl (Option.isSome_iff_exists.mp (by simp [runStep, hr, hlock]))
  | blocked =>
      -- the destructor has notified it
      have hwaits := (awaited_of_reachable hs).blockedStop hr hstop
      rw [hpc] at hwaits
      simp at hwaits
  | lockFutures c =>
      cases hfutures : s.mtxFutureQue with
      | none => exact .inl (Option.isSome_iff_exists.mp (by simp [runStep, hr, hfutures]))
      | some u =>
          have hu := (futureQueOwned_of_reachable hs u).mpr hfutures
          cases u with
          | run =>
              rw [ExecutorState.holdsFutureQue, hr] at hu
              contradiction
          | clean =>
              obtain ⟨t, ht, -⟩ := cleanStep_defined (cleaning_of_reachable hs) hu
              exact .inr ⟨t, ht⟩
  | finished => exact absurd hr hrun

/-- When `Run` has finished, nothing keeps the thread of `CleanFutures` from going on. -/
theorem exists_cleanStep (hs : (executorMachine opt τ).Reachable s) (hrun : s.run = .finished)
    (hclean : s.clean ≠ .finished) : ∃ t, cleanStep s = some t := by
  by_cases hheld : s.clean.holdsFutureQue = true
  · obtain ⟨t, ht, -⟩ := cleanStep_defined (cleaning_of_reachable hs) hheld
    exact ⟨t, ht⟩
  cases hc : s.clean with
  | loop | sleep => exact ⟨_, by rw [cleanStep, hc]⟩
  | lock =>
      cases hfutures : s.mtxFutureQue with
      | none => exact Option.isSome_iff_exists.mp (by simp [cleanStep, hc, hfutures])
      | some u =>
          have hu := (futureQueOwned_of_reachable hs u).mpr hfutures
          cases u with
          | run =>
              rw [ExecutorState.holdsFutureQue, hrun] at hu
              contradiction
          | clean => exact absurd hu hheld
  | remove | erase | unlock =>
      rw [hc] at hheld
      exact absurd rfl hheld
  | finished => exact absurd hc hclean

/-- A future that is not ready is that of a task that can go on. -/
theorem exists_asyncStep (hheld : s.Held) {f : Option τ} (hf : f ∈ s.futures)
    (hready : ¬s.isReady f = true) : ∃ c t, asyncStep s c = some t := by
  cases f with
  | none => exact absurd rfl hready
  | some c =>
      refine ⟨c, ?_⟩
      cases hasync : s.async c with
      | launched | running => exact ⟨_, by rw [asyncStep, hasync]⟩
      | notLaunched =>
          have hpos := List.count_pos_iff.mpr hf
          rw [(hheld c).2 hasync] at hpos
          exact absurd hpos (Nat.lt_irrefl 0)
      | finished => simp [ExecutorState.isReady, hasync] at hready

/-- As long as the destructor has not returned, some thread can go on. -/
theorem exists_step (hs : (executorMachine opt τ).Reachable s) (hcalls : s.NoCall)
    (hreturned : s.destructor ≠ .returned) :
    ∃ a, (∀ c, a ≠ .addTask c) ∧ (executorMachine opt τ).step s a ≠ none := by
  have hdestructor (h : (destructorStep s).isSome = true) :
      ∃ a, (∀ c, a ≠ .addTask c) ∧ (executorMachine opt τ).step s a ≠ none :=
    ⟨.destructor, by simp, Option.isSome_iff_ne_none.mp h⟩
  cases hpc : s.destructor with
  | start | notify | unlock => exact hdestructor (by simp [destructorStep, hpc])
  | lock =>
      have hfree := free_or_runHolds (taskQueOwned_of_reachable hs) hcalls (by rw [hpc]; rfl)
      rcases hfree with hlock | hheld
      · exact hdestructor (by simp [destructorStep, hpc, hlock])
      · obtain ⟨t, ht⟩ := exists_runStep_of_holds hs hheld
        exact ⟨.run, by simp, Option.ne_none_iff_exists'.mpr ⟨t, ht⟩⟩
  | join =>
      by_cases hrun : s.run = .finished
      · exact hdestructor (by simp [destructorStep, hpc, hrun])
      · rcases exists_step_of_run hs hcalls hpc hrun with ⟨t, ht⟩ | ⟨t, ht⟩
        · exact ⟨.run, by simp, Option.ne_none_iff_exists'.mpr ⟨t, ht⟩⟩
        · exact ⟨.clean, by simp, Option.ne_none_iff_exists'.mpr ⟨t, ht⟩⟩
  | joinClean =>
      by_cases hclean : s.clean = .finished
      · exact hdestructor (by simp [destructorStep, hpc, hclean])
      · have hrun := (stopping_of_reachable hs).joined (by rw [hpc]; rfl)
        obtain ⟨t, ht⟩ := exists_cleanStep hs hrun hclean
        exact ⟨.clean, by simp, Option.ne_none_iff_exists'.mpr ⟨t, ht⟩⟩
  | destroyFutures =>
      cases hfutures : s.mFutures with
      | nil => exact hdestructor (by simp [destructorStep, hpc, hfutures])
      | cons f rest =>
          by_cases hready : s.isReady f = true
          · exact hdestructor (by simp [destructorStep, hpc, hfutures, hready])
          · -- the destructor of the future waits for its task
            have hf : f ∈ s.futures := by simp [ExecutorState.futures, hfutures]
            obtain ⟨c, t, ht⟩ := exists_asyncStep (held_of_reachable hs) hf hready
            exact ⟨.async c, by simp, Option.ne_none_iff_exists'.mpr ⟨t, ht⟩⟩
  | returned => exact absurd hpc hreturned

end Progress

/-! ### Termination -/

/-- What stays true while the destructor runs. -/
structure ExecutorState.Ending (opt : CaptureOption) (F : Finset τ) (s : ExecutorState τ) :
    Prop where
  reachable : (executorMachine opt τ).Reachable s
  started : s.destructor ≠ .start
  noCall : s.NoCall
  busy : ∀ c, s.Busy c → c ∈ F

theorem started_step {a : ExecutorAction τ} (hs : s.destructor ≠ .start)
    (hstep : (executorMachine opt τ).step s a = some t) : t.destructor ≠ .start := by
  cases a with
  | addTask c => cases addTaskStep_effect hstep <;> exact hs
  | run => cases runStep_effect hstep <;> exact hs
  | spuriousWakeup =>
      obtain rfl := spuriousWakeupStep_eq hstep
      exact hs
  | clean => cases cleanStep_effect hstep <;> exact hs
  | destructor => cases destructorStep_effect hstep <;> simp
  | async c => cases asyncStep_effect hstep <;> exact hs

theorem ending_step {a : ExecutorAction τ} (hs : s.Ending opt F)
    (hadd : ∀ c, a ≠ .addTask c) (hstep : (executorMachine opt τ).step s a = some t) :
    t.Ending opt F where
  reachable := hs.reachable.step hstep
  started := started_step hs.started hstep
  noCall c := by
    rw [addTask_step hstep (hadd c)]
    exact hs.noCall c
  busy c hc := hs.busy c ((busy_step hstep hc).resolve_right (hadd c))

/-- Only finitely many tasks are busy. -/
theorem exists_busy_finset (hs : (executorMachine opt τ).Reachable s) :
    ∃ F : Finset τ, ∀ c, s.Busy c → c ∈ F := by
  refine ⟨s.pending.toFinset ∪ (s.futures.filterMap id).toFinset, fun c hc => ?_⟩
  rw [Finset.mem_union, List.mem_toFinset, List.mem_toFinset]
  refine hc.imp_right fun hunfinished => ?_
  -- the future of an unfinished task is held
  have hone := (held_of_reachable hs c).1 hunfinished
  exact List.mem_filterMap.mpr ⟨some c, List.count_pos_iff.mp (by omega), rfl⟩

theorem ExecutorState.Ending.terminates (hs : s.Ending opt F) :
    (executorMachine opt τ).Terminates (fun a => ∀ c, a ≠ .addTask c)
      (fun t => t.destructor = .returned) s := by
  refine Machine.Terminates.of_measure (P := ExecutorState.Ending opt F)
    (f := ExecutorState.measure F) ?_ ?_ hs
  · intro s a t hadd hs hstep
    have hstop := (stopping_of_reachable hs.reachable).stopped hs.started
    exact ⟨ending_step hs hadd hstep,
      measure_step hstop (placed_of_reachable hs.reachable) hs.busy hstep hadd⟩
  · intro s hs hstuck
    by_contra hreturned
    obtain ⟨a, hadd, hne⟩ := exists_step hs.reachable hs.noCall hreturned
    exact hne (hstuck a hadd)

/-- `~TaskExecutor` always returns. Once it has cleared `mIsRunning`, and if no call of `AddTask` is
going on then, the steps that its threads can still take are bounded, whatever the schedule and
however often the wait wakes up for no reason; and the threads are stuck only when the destructor
has returned. -/
theorem destructor_returns (hs : (executorMachine opt τ).Reachable s)
    (hstarted : s.destructor ≠ .start)
    (hcalls : ∀ c, s.addTask c = .start ∨ s.addTask c = .returned) :
    (executorMachine opt τ).Terminates (fun a => ∀ c, a ≠ .addTask c)
      (fun t => t.destructor = .returned) s := by
  obtain ⟨F, hF⟩ := exists_busy_finset hs
  exact ExecutorState.Ending.terminates ⟨hs, hstarted, hcalls, hF⟩

/-- `Run` blocks, and the flag is cleared. -/
def blockedThenStopped : List (ExecutorAction Unit) :=
  List.replicate 4 .run ++ [.destructor]

/-- Some schedule takes the destructor to its end. -/
theorem destructor_returns_blockedThenStopped :
    ∃ s t, (executorMachine {} Unit).run {} blockedThenStopped = some s ∧ s.run = .blocked ∧
      (executorMachine {} Unit).Later s t ∧ t.destructor = .returned := by
  have hstopped : (executorMachine {} Unit).run {} blockedThenStopped = some _ := rfl
  obtain ⟨as, t, -, hrun, hreturned⟩ :=
    (destructor_returns ⟨_, hstopped⟩ (by simp) fun _ => .inl rfl).exists_run
  exact ⟨_, t, hstopped, rfl, ⟨as, hrun⟩, hreturned⟩

end Hound
