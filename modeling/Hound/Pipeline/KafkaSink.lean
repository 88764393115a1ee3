import Hound.Pipeline.Drain

/-!
# The encoder threads

A `KafkaSink` starts a thread for each GPU. The thread loads a model, drains the queue of flows
into tasks that encode with the model, and deletes it. The tasks copy the pointer to the model and
capture the thread's `torch::Device` by reference; nothing makes the thread wait for them.

Flows are enqueued by `MakeFlow` and by the clean thread. These are the producers of the queue,
any number of them; all they do here is to enqueue.

* `kafkaSinkMachine` : the encoder threads.
* `model_alive_iff` : under which condition no task outlives its model.
-/

namespace Hound

variable {π : Type} [DecidableEq π] {n : ℕ} {opt : CaptureOption}

/-- The thread of a GPU: `LoopTask` between loading and deleting its object, `model`. -/
def loopTaskStep (opt : CaptureOption) (s : DrainState π n) (w : Fin n) :
    Option (DrainState π n) :=
  drainThreadStep opt false s w

/-- `~KafkaSink`, followed by the destructor of `mTaskExecutor`. Joining the clean thread only
delays it. -/
def kafkaSinkDestructorStep (opt : CaptureOption) (s : DrainState π n) :
    Option (DrainState π n) :=
  ownerStep opt s

/-- One step of a `KafkaSink`. -/
def kafkaSinkStep (opt : CaptureOption) (s : DrainState π n) :
    DrainAction π n → Option (DrainState π n)
  | .thread w => loopTaskStep opt s w
  | .owner => kafkaSinkDestructorStep opt s
  -- only the destructor clears `mIsRunning`
  | .stop => none
  | a => drainStep opt false s a

/-- A `KafkaSink` with `n` GPUs and producers `π`, from the end of its constructor on. -/
def kafkaSinkMachine (opt : CaptureOption) (π : Type) [DecidableEq π] (n : ℕ) :
    Machine (DrainState π n) (DrainAction π n) where
  init := {}
  step := kafkaSinkStep opt

theorem drainStep_of_kafkaSinkStep {s t : DrainState π n} {a : DrainAction π n}
    (hstep : kafkaSinkStep opt s a = some t) : drainStep opt false s a = some t := by
  cases a with
  | stop => nomatch hstep
  | _ => exact hstep

/-- No task that is queued, popped, launched or running refers to a model that has been
deleted. -/
def ModelsAlive (s : DrainState π n) : Prop :=
  ∀ c, s.mTaskExecutor.Busy c → s.alive c.1 = true

/-- Deleting a model that a task refers to violates this at once. -/
theorem not_modelsAlive_of_delete {s t : DrainState π n} {a : DrainAction π n}
    (hguard : ¬DestroysUnused s a) (hstep : kafkaSinkStep opt s a = some t) : ¬ModelsAlive t := by
  intro hmodels
  refine hguard fun w ha hpc k hbusy => ?_
  -- the task that misses the guard is still busy after the step
  subst ha
  obtain rfl : _ = t := by simpa [kafkaSinkStep, loopTaskStep, drainThreadStep, hpc] using hstep
  have halive := hmodels (w, k) hbusy
  simp at halive

/-- Throughout a run no task that is queued, popped, launched or running refers to a deleted model
if and only if each thread deletes its model only when none of its tasks is queued, popped,
launched or running. -/
theorem model_alive_iff (opt : CaptureOption) (π : Type) [DecidableEq π] (n : ℕ)
    (actions : List (DrainAction π n)) {s : DrainState π n}
    (hrun : (kafkaSinkMachine opt π n).run {} actions = some s) :
    (kafkaSinkMachine opt π n).Throughout ModelsAlive {} actions ↔
      (kafkaSinkMachine opt π n).StepsMeet DestroysUnused {} actions := by
  constructor
  · exact Machine.Throughout.stepsMeet (fun _ _ _ => not_modelsAlive_of_delete) actions hrun
  · intro hmeet
    refine Machine.StepsMeet.throughout (I := DrainState.Guarded) ?_ ?_ actions
      Machine.Reachable.init hmeet guarded_init
    · exact fun s a t _ hs hguard hstep => guarded_step hs hguard (drainStep_of_kafkaSinkStep hstep)
    · exact fun s hs => hs.busy

/-- A flow is enqueued, and thread `w` adds a task for it. -/
def oneBatchAdded (w : Fin n) : List (DrainAction Unit n) :=
  .thread w :: .load () :: .append () :: List.replicate 11 (.thread w)

/-- As long as the thread is in its loop its model is not deleted. -/
theorem model_alive_oneBatchAdded :
    (kafkaSinkMachine {} Unit 1).Throughout ModelsAlive {} (oneBatchAdded 0) :=
  (model_alive_iff {} Unit 1 (oneBatchAdded 0) (s := _) rfl).mpr
    (Machine.StepsMeet.of_check (fun s a _ => destroysUnused_of_destroysNone s a) (oneBatchAdded 0)
      Machine.Reachable.init rfl)

/-- The sink is destroyed while the task is still queued, and the model is deleted. -/
theorem model_not_alive : ¬∀ opt n, ∀ s : DrainState Unit n,
    (kafkaSinkMachine opt Unit n).Reachable s → ModelsAlive s := by
  intro h
  have hrun : (kafkaSinkMachine {} Unit 1).run {}
    (oneBatchAdded 0 ++ [.owner, .thread 0, .thread 0]) = some _ := rfl
  have halive := h {} 1 _ ⟨_, hrun⟩ (0, 0) (.inl List.mem_cons_self)
  exact absurd halive (by decide)

end Hound
