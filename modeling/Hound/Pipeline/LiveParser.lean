import Hound.Pipeline.Drain

/-!
# The capture

The main thread builds a `LiveParser`, captures in `pcap_loop` until the loop is broken or ends,
and deletes the `LiveParser`. Meanwhile each `consumer_job` drains the queue of raw packets into
tasks that call `MakeFlow` of the `KafkaSink` in its scope. The tasks capture the sink by
reference, and nothing makes a `consumer_job` wait for them before it leaves its scope.

* `liveParserMachine` : the capture.
* `makeFlow_alive` : under which condition no task outlives its sink.
-/

namespace Hound

variable {n : ℕ} {opt : CaptureOption}

/-- `consumer_job`, whose object is `sink`. -/
def consumerJobStep (opt : CaptureOption) (s : DrainState Unit n) (w : Fin n) :
    Option (DrainState Unit n) :=
  drainThreadStep opt true s w

/-- `stopCapture`. -/
def stopCapture (s : DrainState Unit n) : DrainState Unit n := { s with isRunning := false }

/-- `~LiveParser`, followed by the destructors of the members. Of these only that of
`mTaskExecutor` does something that the others or the tasks can see. -/
def liveParserDestructorStep (opt : CaptureOption) (s : DrainState Unit n) :
    Option (DrainState Unit n) :=
  ownerStep opt s

/-- One step of a `LiveParser`. -/
def liveParserStep (opt : CaptureOption) (s : DrainState Unit n) :
    DrainAction Unit n → Option (DrainState Unit n)
  -- `liveHandler` is called inside `pcap_loop`, which has returned before the destructor starts
  | .load p => match s.owner with
      | .start => drainStep opt true s (.load p)
      | _ => none
  | .owner => match s.owner, s.doubleBufferQueue.producer () with
      | .start, .loaded _ _ => none
      | _, _ => liveParserDestructorStep opt s
  | .thread w => consumerJobStep opt s w
  | .stop => some (stopCapture s)
  | a => drainStep opt true s a

/-- A `LiveParser` with `n` workers, from the end of its constructor on. -/
def liveParserMachine (opt : CaptureOption) (n : ℕ) :
    Machine (DrainState Unit n) (DrainAction Unit n) where
  init := {}
  step := liveParserStep opt

theorem drainStep_of_liveParserStep {s t : DrainState Unit n} {a : DrainAction Unit n}
    (hstep : liveParserStep opt s a = some t) : drainStep opt true s a = some t := by
  cases a with
  | load p =>
      simp only [liveParserStep] at hstep
      split at hstep
      · exact hstep
      · nomatch hstep
  | owner =>
      simp only [liveParserStep] at hstep
      split at hstep
      · nomatch hstep
      · exact hstep
  | _ => exact hstep

/-- Nothing is enqueued any more once the destructor has started. -/
theorem liveParserStep_load {s t : DrainState Unit n} {p : Unit}
    (hstep : liveParserStep opt s (.load p) = some t) : s.owner = .start := by
  simp only [liveParserStep] at hstep
  split at hstep
  · assumption
  · nomatch hstep

/-- The capture thread has nothing in its hands when the destructor starts. -/
theorem liveParserStep_owner {s t : DrainState Unit n}
    (hstep : liveParserStep opt s .owner = some t) (hstart : s.owner = .start) :
    s.doubleBufferQueue.producer () = .idle := by
  simp only [liveParserStep, hstart] at hstep
  split at hstep
  · nomatch hstep
  · next hloaded =>
      cases hproducer : s.doubleBufferQueue.producer () with
      | idle => rfl
      | loaded k i => exact absurd hproducer (hloaded k i rfl)

/-! ### Sinks and their tasks -/

/-- No `MakeFlow` runs on a sink whose destructor has begun. -/
def SinksAlive (s : DrainState Unit n) : Prop :=
  ∀ c, s.mTaskExecutor.async c = .running → s.alive c.1 = true

/-- If each `consumer_job` leaves its scope only when none of its tasks is queued, popped, launched
or running, then throughout the run no task calls `MakeFlow` of a sink whose destructor has
begun. -/
theorem makeFlow_alive (opt : CaptureOption) (n : ℕ) (actions : List (DrainAction Unit n))
    (hmeet : (liveParserMachine opt n).StepsMeet DestroysUnused {} actions) :
    (liveParserMachine opt n).Throughout SinksAlive {} actions := by
  refine Machine.StepsMeet.throughout (I := DrainState.Guarded) ?_ ?_ actions
    Machine.Reachable.init hmeet guarded_init
  · exact fun s a t _ hs hguard hstep => guarded_step hs hguard (drainStep_of_liveParserStep hstep)
  · exact fun s hs c hc => hs.busy c (.inr (by rw [hc]; rfl))

/-- A packet is captured, and worker `w` adds a task for it. -/
def oneTaskAdded (w : Fin n) : List (DrainAction Unit n) :=
  .thread w :: .load () :: .append () :: List.replicate 12 (.thread w)

/-- The task is popped, launched and invoked. -/
def taskInvoked (w : Fin n) : List (DrainAction Unit n) :=
  List.flatten [List.replicate 6 (.executor .run), [.executor (.async (w, 0))]]

/-- The task finishes, the capture stops, and the worker leaves its loop. -/
def finishedThenLeft (w : Fin n) : List (DrainAction Unit n) :=
  List.flatten [oneTaskAdded w, taskInvoked w, [.executor (.async (w, 0)), .stop, .thread w]]

/-- No task uses the sink when it is destroyed then. -/
theorem makeFlow_alive_finishedThenLeft : (liveParserMachine {} 1).Throughout SinksAlive {}
    (finishedThenLeft 0 ++ [.thread 0]) := by
  refine makeFlow_alive {} 1 _ (Machine.StepsMeet.append
    (Machine.StepsMeet.of_check (fun s a _ => destroysUnused_of_destroysNone s a) _
      Machine.Reachable.init rfl) (t := _) rfl ⟨?_, fun _ _ => trivial⟩)
  rintro w - - k (hpending | hbusy)
  · exact absurd hpending List.not_mem_nil
  · obtain rfl : w = 0 := Subsingleton.elim _ _
    cases k with
    | zero => exact absurd hbusy Bool.false_ne_true
    | succ k => exact absurd hbusy Bool.false_ne_true

/-- The capture stops while the task is still queued, and the sink is destroyed before the task
is started. -/
theorem makeFlow_not_alive : ¬∀ opt n, ∀ s : DrainState Unit n,
    (liveParserMachine opt n).Reachable s → SinksAlive s := by
  intro h
  have hrun : (liveParserMachine {} 1).run {}
    (oneTaskAdded 0 ++ [.stop, .thread 0, .thread 0] ++ taskInvoked 0) = some _ := rfl
  exact absurd (h {} 1 _ ⟨_, hrun⟩ (0, 0) rfl) (by decide)

end Hound
