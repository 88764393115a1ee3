import Hound.Executor.Shutdown
import Hound.ToMathlib.Mutex

/-!
# What `CleanFutures` removes

`std::ranges::remove_if` shifts the futures it keeps towards the front, one by one, while tasks
finish. Behind the futures kept so far there is a gap of futures whose tasks have finished and of
futures that have been moved from; behind the gap are the futures still to be tested.

* `ExecutorState.Scanned` : the vector in the middle of a pass.
* `cleanStep_defined` : no step of a pass waits for a task or tests a future that was moved from.
* `launched_held` : no launched task outlives its executor.
-/

namespace Hound

/-! ### Who owns the mutex of the futures -/

/-- `Run` is between locking and unlocking `mtxFutureQue`. -/
def RunPc.holdsFutureQue {τ : Type} : RunPc τ → Bool
  | .store _ | .unlockFutures => true
  | _ => false

/-- So is a pass of `CleanFutures`. -/
def CleanPc.holdsFutureQue : CleanPc → Bool
  | .remove _ _ | .erase _ | .unlock => true
  | _ => false

/-- The thread is between locking and unlocking `mtxFutureQue`. -/
def ExecutorState.holdsFutureQue {τ : Type} (s : ExecutorState τ) : FutureQueOwner → Bool
  | .run => s.run.holdsFutureQue
  | .clean => s.clean.holdsFutureQue

/-- `mtxFutureQue` is owned by the thread that is between locking and unlocking it. -/
def ExecutorState.FutureQueOwned {τ : Type} (s : ExecutorState τ) : Prop :=
  Mutex.Owned s.mtxFutureQue s.holdsFutureQue

variable {τ : Type} {opt : CaptureOption} {s t : ExecutorState τ}

@[simp]
theorem RunPc.holdsFutureQue_notified (pc : RunPc τ) :
    pc.notified.holdsFutureQue = pc.holdsFutureQue := by
  cases pc <;> rfl

/-- What neither `Run` nor `CleanFutures` does leaves alone who is in the critical section. -/
theorem FutureQueOwned.congr (hs : s.FutureQueOwned)
    (hrun : t.run.holdsFutureQue = s.run.holdsFutureQue) (hclean : t.clean = s.clean)
    (hlock : t.mtxFutureQue = s.mtxFutureQue) : t.FutureQueOwned := by
  intro w
  rw [hlock, ← hs w]
  cases w with
  | run => rw [ExecutorState.holdsFutureQue, ExecutorState.holdsFutureQue, hrun]
  | clean => rw [ExecutorState.holdsFutureQue, ExecutorState.holdsFutureQue, hclean]

section Steps

variable [DecidableEq τ]

theorem futureQue_run (hstep : runStep s = some t) :
    Mutex.StepBy .run s.mtxFutureQue s.run.holdsFutureQue t.mtxFutureQue t.run.holdsFutureQue := by
  cases hrun : s.run with
  | lockFutures c =>
      simp only [runStep, hrun] at hstep
      split at hstep
      · next hlock =>
          obtain rfl := Option.some.inj hstep
          exact .lock hlock
      · contradiction
  | unlockFutures =>
      obtain rfl : _ = t := by simpa [runStep, hrun] using hstep
      exact .unlock rfl
  | lock | woken =>
      simp only [runStep, hrun] at hstep
      split at hstep
      · obtain rfl := Option.some.inj hstep
        exact .keep
      · contradiction
  | test =>
      simp only [runStep, hrun] at hstep
      split at hstep
      · split at hstep
        · contradiction
        · obtain rfl := Option.some.inj hstep
          exact .keep
      · obtain rfl := Option.some.inj hstep
        exact .keep
  | loop | predicate =>
      obtain rfl : _ = t := by simpa [runStep, hrun] using hstep
      split <;> exact .keep
  | release | breakUnlock | unlock job | launch job | store c =>
      obtain rfl : _ = t := by simpa [runStep, hrun] using hstep
      exact .keep
  | blocked | finished => simp [runStep, hrun] at hstep

theorem futureQueOwned_run (hs : s.FutureQueOwned) (hstep : runStep s = some t) :
    t.FutureQueOwned := by
  refine Mutex.Owned.step hs (w := .run) (futureQue_run hstep) ?_
  rintro (_ | _) hne
  · exact absurd rfl hne
  · cases runStep_effect hstep <;> rfl

omit [DecidableEq τ] in
theorem futureQue_clean (hstep : cleanStep s = some t) :
    Mutex.StepBy .clean s.mtxFutureQue s.clean.holdsFutureQue t.mtxFutureQue
      t.clean.holdsFutureQue := by
  cases hclean : s.clean with
  | loop =>
      obtain rfl : _ = t := by simpa [cleanStep, hclean] using hstep
      simp only
      split <;> exact .keep
  | sleep =>
      obtain rfl : _ = t := by simpa [cleanStep, hclean] using hstep
      exact .keep
  | lock =>
      simp only [cleanStep, hclean] at hstep
      split at hstep
      · next hlock =>
          obtain rfl := Option.some.inj hstep
          exact .lock hlock
      · contradiction
  | remove result first =>
      simp only [cleanStep, hclean] at hstep
      split at hstep
      · obtain rfl := Option.some.inj hstep
        exact .keep
      · contradiction
      · split at hstep
        · obtain rfl := Option.some.inj hstep
          exact .keep
        · split at hstep
          · contradiction
          · split at hstep
            · obtain rfl := Option.some.inj hstep
              exact .keep
            · contradiction
  | erase result =>
      simp only [cleanStep, hclean] at hstep
      split at hstep
      · obtain rfl := Option.some.inj hstep
        exact .keep
      · contradiction
  | unlock =>
      obtain rfl : _ = t := by simpa [cleanStep, hclean] using hstep
      exact .unlock rfl
  | finished => simp [cleanStep, hclean] at hstep

theorem futureQueOwned_step (hs : s.FutureQueOwned) {a : ExecutorAction τ}
    (hstep : (executorMachine opt τ).step s a = some t) : t.FutureQueOwned := by
  cases a with
  | addTask c =>
      cases addTaskStep_effect hstep <;> exact FutureQueOwned.congr hs (by simp) rfl rfl
  | run => exact futureQueOwned_run hs hstep
  | spuriousWakeup =>
      obtain rfl := spuriousWakeupStep_eq hstep
      exact FutureQueOwned.congr hs (by simp) rfl rfl
  | clean =>
      refine Mutex.Owned.step hs (w := .clean) (futureQue_clean hstep) ?_
      rintro (_ | _) hne
      · cases cleanStep_effect hstep <;> rfl
      · exact absurd rfl hne
  | destructor =>
      cases destructorStep_effect hstep <;> exact FutureQueOwned.congr hs (by simp) rfl rfl
  | async c => cases asyncStep_effect hstep <;> exact hs

theorem futureQueOwned_of_reachable (hs : (executorMachine opt τ).Reachable s) :
    s.FutureQueOwned := by
  refine hs.invariant (fun w => ?_) fun _ _ _ howned hstep => futureQueOwned_step howned hstep
  cases w <;> simp [executorMachine, ExecutorState.holdsFutureQue, RunPc.holdsFutureQue,
    CleanPc.holdsFutureQue]

end Steps

/-! ### A pass -/

/-- The element behind a gap moves to the front of the gap and leaves `y` behind. -/
theorem set_set_gap {α : Type} (kept rest : List α) (x : α) {gap tail : List α} {y z : α}
    (hgap : gap ++ [y] = z :: tail) :
    ((kept ++ gap ++ x :: rest).set (kept.length + gap.length) y)[kept.length]? = some z ∧
      ((kept ++ gap ++ x :: rest).set (kept.length + gap.length) y).set kept.length x =
        kept ++ [x] ++ tail ++ rest := by
  have hleft : (kept ++ gap ++ x :: rest).set (kept.length + gap.length) y =
      kept ++ z :: (tail ++ rest) := by
    calc (kept ++ gap ++ x :: rest).set (kept.length + gap.length) y
        = kept ++ gap ++ y :: rest := by simp [List.set_append_right]
      _ = kept ++ (gap ++ [y]) ++ rest := by simp
      _ = kept ++ z :: (tail ++ rest) := by simp [hgap]
  rw [hleft]
  constructor
  · simp
  · simp [List.set_append_right]

/-- `mFutures` in the middle of `remove_if`: the futures kept so far, the gap, and the futures to
be tested. -/
structure ExecutorState.Scanned (s : ExecutorState τ) (kept gap rest : List (Option τ)) :
    Prop where
  split : s.mFutures = kept ++ gap ++ rest
  kept_valid : none ∉ kept
  gap_ready : ∀ f ∈ gap, s.isReady f = true
  rest_valid : none ∉ rest

/-- Outside a pass no future in `mFutures` has been moved from. -/
def ExecutorState.Cleaning (s : ExecutorState τ) : Prop :=
  match s.clean with
  | .remove result first => ∃ kept gap rest, s.Scanned kept gap rest ∧
      result = kept.length ∧ first = kept.length + gap.length
  | .erase result => ∃ kept gap, s.Scanned kept gap [] ∧ result = kept.length
  | _ => none ∉ s.mFutures

/-- A test of `remove_if` finds a future, and the place it may move it to can be overwritten. -/
theorem cleanStep_remove {kept gap rest : List (Option τ)} (hs : s.Scanned kept gap rest)
    (hclean : s.clean = .remove kept.length (kept.length + gap.length)) :
    ∃ t, cleanStep s = some t ∧ t.Cleaning := by
  cases rest with
  | nil =>
      -- everything has been tested
      have hfirst : s.mFutures[kept.length + gap.length]? = none := by simp [hs.split]
      refine ⟨{ s with clean := .erase kept.length }, ?_, kept, gap, ?_, rfl⟩
      · simp [cleanStep, hclean, hfirst]
      · exact ⟨hs.split, hs.kept_valid, hs.gap_ready, hs.rest_valid⟩
  | cons f rest =>
      have hfirst : s.mFutures[kept.length + gap.length]? = some f := by
        rw [hs.split, ← List.length_append, List.getElem?_append_right (Nat.le_refl _)]
        simp
      have hrest : none ∉ rest := fun h => hs.rest_valid (List.mem_cons_of_mem _ h)
      obtain ⟨c, rfl⟩ : ∃ c, f = some c := by
        cases f with
        | none => exact absurd List.mem_cons_self hs.rest_valid
        | some c => exact ⟨c, rfl⟩
      by_cases hready : s.isReady (some c) = true
      · -- the task has finished, so its future joins the gap
        refine ⟨{ s with clean := .remove kept.length (kept.length + gap.length + 1) }, ?_,
          kept, gap ++ [some c], rest, ⟨?_, hs.kept_valid, ?_, hrest⟩, rfl, ?_⟩
        · simp only [cleanStep, hclean, hfirst, hready, if_true]
        · show s.mFutures = _
          rw [hs.split]
          simp
        · intro f hf
          rcases List.mem_append.mp hf with hf | hf
          · exact hs.gap_ready f hf
          · exact List.mem_singleton.mp hf ▸ hready
        · simp [Nat.add_assoc]
      · -- the future goes to the front of the gap, which is ready or is where it came from
        obtain ⟨z, tail, hgap⟩ : ∃ z tail, gap ++ [none] = z :: tail :=
          List.exists_cons_of_ne_nil (by simp)
        obtain ⟨hresult, hmove⟩ := set_set_gap kept rest (some c) hgap
        rw [← hs.split] at hresult hmove
        have hmem : ∀ f ∈ z :: tail, s.isReady f = true := by
          intro f hf
          rw [← hgap] at hf
          rcases List.mem_append.mp hf with hf | hf
          · exact hs.gap_ready f hf
          · rw [List.mem_singleton.mp hf]
            rfl
        have hlength : (gap ++ [none]).length = (z :: tail).length := congrArg _ hgap
        refine ⟨{ s with
            mFutures := kept ++ [some c] ++ tail ++ rest
            clean := .remove (kept.length + 1) (kept.length + gap.length + 1) }, ?_,
          kept ++ [some c], tail, rest, ⟨rfl, ?_, ?_, hrest⟩, ?_, ?_⟩
        · simp [cleanStep, hclean, hfirst, hready, hresult, hmove, hmem z List.mem_cons_self]
        · simpa using hs.kept_valid
        · exact fun f hf => hmem f (List.mem_cons_of_mem _ hf)
        · simp
        · simp only [List.length_append, List.length_cons, List.length_nil] at hlength ⊢
          omega

/-- `mFutures.erase` destroys the gap, which is ready. -/
theorem cleanStep_erase {kept gap : List (Option τ)} (hs : s.Scanned kept gap [])
    (hclean : s.clean = .erase kept.length) :
    ∃ t, cleanStep s = some t ∧ t.Cleaning := by
  have hdrop : s.mFutures.drop kept.length = gap := by simp [hs.split]
  have htake : s.mFutures.take kept.length = kept := by simp [hs.split]
  refine ⟨{ s with mFutures := kept, clean := .unlock }, ?_, hs.kept_valid⟩
  simp only [cleanStep, hclean, hdrop, htake, List.all_eq_true]
  rw [if_pos hs.gap_ready]

/-- While `CleanFutures` owns its mutex, it does not wait for anything: every future it is going
to overwrite or to destroy is ready, and none it tests has been moved from. -/
theorem cleanStep_defined (hs : s.Cleaning) (hheld : s.clean.holdsFutureQue = true) :
    ∃ t, cleanStep s = some t ∧ t.Cleaning := by
  cases hclean : s.clean with
  | loop | sleep | lock | finished => simp [hclean, CleanPc.holdsFutureQue] at hheld
  | remove result first =>
      simp only [ExecutorState.Cleaning, hclean] at hs
      obtain ⟨kept, gap, rest, hscan, rfl, rfl⟩ := hs
      exact cleanStep_remove hscan hclean
  | erase result =>
      simp only [ExecutorState.Cleaning, hclean] at hs
      obtain ⟨kept, gap, hscan, rfl⟩ := hs
      exact cleanStep_erase hscan hclean
  | unlock =>
      simp only [ExecutorState.Cleaning, hclean] at hs
      exact ⟨{ s with mtxFutureQue := none, clean := .loop }, by simp [cleanStep, hclean], hs⟩

theorem cleaning_clean (hs : s.Cleaning) (hstep : cleanStep s = some t) : t.Cleaning := by
  by_cases hheld : s.clean.holdsFutureQue = true
  · obtain ⟨t', hstep', ht'⟩ := cleanStep_defined hs hheld
    rw [hstep, Option.some.injEq] at hstep'
    exact hstep' ▸ ht'
  · cases hclean : s.clean with
    | remove | erase | unlock => simp [hclean, CleanPc.holdsFutureQue] at hheld
    | loop =>
        simp only [ExecutorState.Cleaning, hclean] at hs
        cases hrunning : s.mIsRunning with
        | false | true =>
            obtain rfl : _ = t := by simpa [cleanStep, hclean, hrunning] using hstep
            exact hs
    | sleep =>
        simp only [ExecutorState.Cleaning, hclean] at hs
        obtain rfl : _ = t := by simpa [cleanStep, hclean] using hstep
        exact hs
    | lock =>
        -- a pass begins with everything still to be tested
        simp only [ExecutorState.Cleaning, hclean] at hs
        simp only [cleanStep, hclean] at hstep
        split at hstep
        · obtain rfl := Option.some.inj hstep
          exact ⟨[], [], s.mFutures, ⟨rfl, by simp, by simp, hs⟩, rfl, rfl⟩
        · contradiction
    | finished => simp [cleanStep, hclean] at hstep

/-- Outside a pass, or with the mutex locked by `Run`, the whole vector is valid. -/
theorem Cleaning.valid (hs : s.Cleaning) (hpass : s.clean.holdsFutureQue = false) :
    none ∉ s.mFutures := by
  unfold ExecutorState.Cleaning at hs
  split at hs
  · simp_all [CleanPc.holdsFutureQue]
  · simp_all [CleanPc.holdsFutureQue]
  · exact hs

/-- So a vector that is valid outside a pass is as it should be. -/
theorem Cleaning.of_valid (hvalid : none ∉ s.mFutures) (hpass : s.clean.holdsFutureQue = false) :
    s.Cleaning := by
  unfold ExecutorState.Cleaning
  split
  · simp_all [CleanPc.holdsFutureQue]
  · simp_all [CleanPc.holdsFutureQue]
  · exact hvalid

/-! ### What the other threads do to a pass -/

/-- As long as `mFutures` stays as it is and no finished task is forgotten, a pass goes on. -/
theorem Cleaning.congr (hs : s.Cleaning) (hfutures : t.mFutures = s.mFutures)
    (hclean : t.clean = s.clean) (hready : ∀ f, s.isReady f = true → t.isReady f = true) :
    t.Cleaning := by
  have hscan : ∀ kept gap rest, s.Scanned kept gap rest → t.Scanned kept gap rest :=
    fun kept gap rest h =>
      ⟨hfutures.trans h.split, h.kept_valid, fun f hf => hready f (h.gap_ready f hf), h.rest_valid⟩
  unfold ExecutorState.Cleaning at hs ⊢
  rw [hclean]
  split
  · next result first hpc =>
      rw [hpc] at hs
      obtain ⟨kept, gap, rest, h, hplace⟩ := hs
      exact ⟨kept, gap, rest, hscan _ _ _ h, hplace⟩
  · next result hpc =>
      rw [hpc] at hs
      obtain ⟨kept, gap, h, hplace⟩ := hs
      exact ⟨kept, gap, hscan _ _ _ h, hplace⟩
  · rw [hfutures]
    split at hs
    · exact absurd ‹_› (by simp_all)
    · exact absurd ‹_› (by simp_all)
    · exact hs

section Steps

variable [DecidableEq τ]

/-- A task that has finished stays so. -/
theorem finished_step (hplaced : s.Placed) {a : ExecutorAction τ}
    (hstep : (executorMachine opt τ).step s a = some t) {c : τ} (hc : s.async c = .finished) :
    t.async c = .finished := by
  cases task_step hstep c with
  | same hasync => exact hasync.trans hc
  | launch job hrun hjob =>
      -- the task launched is another one
      have hnot : s.async c = .notLaunched :=
        hplaced.notLaunched (by simp [ExecutorState.pending, RunPc.popped, hrun, hjob])
      rw [hc] at hnot
      contradiction
  | invoke cpuId _ hbefore =>
      rw [hc] at hbefore
      contradiction
  | finish _ _ hasync => exact hasync

/-- A future that is ready stays so. -/
theorem ready_step (hplaced : s.Placed) {a : ExecutorAction τ}
    (hstep : (executorMachine opt τ).step s a = some t) {f : Option τ} (hf : s.isReady f = true) :
    t.isReady f = true := by
  cases f with
  | none => rfl
  | some c =>
      have hc : s.async c = .finished := by
        cases hasync : s.async c <;> simp [ExecutorState.isReady, hasync] at hf ⊢
      simp only [ExecutorState.isReady, finished_step hplaced hstep hc]

theorem cleaning_step (hplaced : s.Placed) (hstopping : s.Stopping) (howned : s.FutureQueOwned)
    (hs : s.Cleaning) {a : ExecutorAction τ}
    (hstep : (executorMachine opt τ).step s a = some t) : t.Cleaning := by
  have hready : ∀ f, s.isReady f = true → t.isReady f = true := fun f => ready_step hplaced hstep
  cases a with
  | addTask c => cases addTaskStep_effect hstep <;> exact Cleaning.congr hs rfl rfl hready
  | run =>
      cases runStep_effect hstep with
      | silent | pop | launch => exact Cleaning.congr hs rfl rfl hready
      | store c hrun =>
          -- `Run` owns the mutex, so there is no pass
          have hheld : s.holdsFutureQue .run = true := by
            rw [ExecutorState.holdsFutureQue, hrun]
            rfl
          have hpass : s.clean.holdsFutureQue = false := by
            by_contra h
            have hheldClean : s.holdsFutureQue .clean = true := by
              simpa [ExecutorState.holdsFutureQue] using h
            nomatch howned.unique hheld hheldClean
          exact Cleaning.of_valid (by simpa using Cleaning.valid hs hpass) hpass
  | spuriousWakeup =>
      obtain rfl := spuriousWakeupStep_eq hstep
      exact Cleaning.congr hs rfl rfl hready
  | clean => exact cleaning_clean hs hstep
  | destructor =>
      cases destructorStep_effect hstep with
      | destroyFuture f rest hpc hfutures =>
          -- the thread of `CleanFutures` has been joined
          have hclean : s.clean = .finished := hstopping.joinedClean (by rw [hpc]; rfl)
          have hpass : s.clean.holdsFutureQue = false := by rw [hclean]; rfl
          have hvalid := Cleaning.valid hs hpass
          rw [hfutures] at hvalid
          exact Cleaning.of_valid (fun h => hvalid (List.mem_cons_of_mem _ h)) hpass
      | _ => exact Cleaning.congr hs rfl rfl hready
  | async c => cases asyncStep_effect hstep <;> exact Cleaning.congr hs rfl rfl hready

theorem cleaning_of_reachable (hs : (executorMachine opt τ).Reachable s) : s.Cleaning :=
  hs.invariant_of (fun _ hu => hu) (show none ∉ [] by nofun)
    fun _ _ _ hu hcleaning hstep => cleaning_step (placed_of_reachable hu)
      (stopping_of_reachable hu) (futureQueOwned_of_reachable hu) hcleaning hstep

/-! ### No task outlives the executor -/

/-- A future that is in the vector leaves it only after its task has finished. -/
theorem stored_step (hplaced : s.Placed) {a : ExecutorAction τ}
    (hstep : (executorMachine opt τ).step s a = some t) {c : τ}
    (hc : some c ∈ s.mFutures ∨ s.async c = .finished) :
    some c ∈ t.mFutures ∨ t.async c = .finished := by
  rcases hc with hmem | hfinished
  · by_cases hready : s.isReady (some c) = true
    · have hfinished : s.async c = .finished := by
        cases hasync : s.async c <;> simp [ExecutorState.isReady, hasync] at hready ⊢
      exact .inr (finished_step hplaced hstep hfinished)
    · left
      have hne : ∀ f, s.isReady f = true → f ≠ some c := fun f hf h => hready (h ▸ hf)
      cases a with
      | addTask c' => cases addTaskStep_effect hstep <;> exact hmem
      | run =>
          cases runStep_effect hstep with
          | store => exact List.mem_append_left _ hmem
          | _ => exact hmem
      | spuriousWakeup =>
          obtain rfl := spuriousWakeupStep_eq hstep
          exact hmem
      | clean =>
          cases cleanStep_effect hstep with
          | silent => exact hmem
          | keep result first c' f hclean hfirst hresult hf =>
              have hcount := count_move hfirst hresult (a := some c) (by simp) (hne f hf)
              exact List.count_pos_iff.mp (hcount ▸ List.count_pos_iff.mpr hmem)
          | erase result hclean hdrop =>
              rw [← List.take_append_drop result s.mFutures] at hmem
              exact (List.mem_append.mp hmem).resolve_right fun h => hready (hdrop _ h)
      | destructor =>
          cases destructorStep_effect hstep with
          | destroyFuture f rest hpc hfutures hf =>
              rw [hfutures] at hmem
              exact (List.mem_cons.mp hmem).resolve_left fun h => hne f hf h.symm
          | _ => exact hmem
      | async c' => cases asyncStep_effect hstep <;> exact hmem
  · exact .inr (finished_step hplaced hstep hfinished)

/-- The future of a launched and unfinished task is in `task_future` or is exactly one element of
`mFutures`. What leaves `mFutures` belongs to a finished task, and a pass of `CleanFutures` never
waits for that. When the destructor has returned, every launched task has finished. -/
theorem launched_held (hs : (executorMachine opt τ).Reachable s) :
    (∀ c, (s.async c).isUnfinished = true →
      some c ∈ s.run.taskFuture ∧ some c ∉ s.mFutures ∨
        some c ∉ s.run.taskFuture ∧ s.mFutures.count (some c) = 1) ∧
    (∀ t, (executorMachine opt τ).Later s t →
      ∀ c, some c ∈ s.mFutures → some c ∉ t.mFutures → t.async c = .finished) ∧
    (s.mtxFutureQue = some .clean → ∃ t, cleanStep s = some t) ∧
    (s.destructor = .returned → ∀ c, (s.async c).isUnfinished = false) := by
  refine ⟨fun c hc => ?_, fun t hlater c hmem hgone => ?_, fun howner => ?_, fun hreturned c => ?_⟩
  · have hone : (s.run.taskFuture ++ s.mFutures).count (some c) = 1 := (held_of_reachable hs c).1 hc
    rw [List.count_append] at hone
    by_cases hlocal : some c ∈ s.run.taskFuture
    · have hpos := List.count_pos_iff.mpr hlocal
      exact .inl ⟨hlocal, List.count_eq_zero.mp (by omega)⟩
    · have hzero := List.count_eq_zero.mpr hlocal
      exact .inr ⟨hlocal, by omega⟩
  · obtain ⟨as, has⟩ := hlater
    have hboth : (executorMachine opt τ).Reachable t ∧
        (some c ∈ t.mFutures ∨ t.async c = .finished) := by
      refine Machine.run_induction (P := fun u => (executorMachine opt τ).Reachable u ∧
        (some c ∈ u.mFutures ∨ u.async c = .finished)) ?_ as s t ⟨hs, .inl hmem⟩ has
      rintro u a v ⟨hu, hc⟩ hstep
      exact ⟨hu.step hstep, stored_step (placed_of_reachable hu) hstep hc⟩
    exact hboth.2.resolve_left hgone
  · have hheld := ((futureQueOwned_of_reachable hs) .clean).mpr howner
    obtain ⟨t, hstep, -⟩ := cleanStep_defined (cleaning_of_reachable hs) hheld
    exact ⟨t, hstep⟩
  · have hstopping := stopping_of_reachable hs
    have hrun : s.run = .finished := hstopping.joined (by rw [hreturned]; rfl)
    by_contra h
    -- the future would still be somewhere
    have hone := ((held_of_reachable hs) c).1 (by simpa using h)
    rw [ExecutorState.futures, hrun, hstopping.emptied hreturned] at hone
    exact absurd hone (by simp [RunPc.taskFuture])

/-- A task is launched, and its future is stored while it runs. -/
def futureStored : List (ExecutorAction Unit) :=
  .run :: List.flatten [List.replicate 5 (.addTask ()), List.replicate 7 .run, [.async ()]]

/-- The future of the running task is in the vector. -/
theorem launched_held_futureStored :
    ∃ s, (executorMachine {} Unit).run {} futureStored = some s ∧
      (s.async ()).isUnfinished = true ∧
        (some () ∈ s.run.taskFuture ∧ some () ∉ s.mFutures ∨
          some () ∉ s.run.taskFuture ∧ s.mFutures.count (some ()) = 1) := by
  have hrun : (executorMachine {} Unit).run {} futureStored = some _ := rfl
  exact ⟨_, hrun, rfl, (launched_held ⟨_, hrun⟩).1 () rfl⟩

end Steps

end Hound
