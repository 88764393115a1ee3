import Hound.Executor.Shutdown
import Hound.Queue.DoubleBuffer

/-!
# Threads that drain a queue

`LiveParser::consumer_job` and `KafkaSink::LoopTask` do the same thing. Each thread has an object
of its own, a `KafkaSink` or a model, and as long as a flag is set it reads a batch from the
`DoubleBufferQueue` of the class and adds a task that uses the batch and the object to the
`TaskExecutor` of the class. When it leaves its loop it destroys the object. The destructor of the
class clears the flag, joins the threads and then destroys the executor.

The items of the queue are named by the order of the calls of `enqueue`, the tasks by the thread
and the number of its call of `AddTask`.

* `drainMachine` : the threads, the queue and the executor.
* `drainStep_effect` : what a step can do.
* `DrainState.Guarded` : objects that no task uses when they are destroyed are not used later.
-/

namespace Hound

/-- What a thread that drains the queue does next. -/
inductive DrainPc where
  /-- The thread builds its object. -/
  | construct
  /-- The test of the flag. -/
  | loop
  /-- The sleep before a read. -/
  | sleep
  /-- `doubleBufferQueue.read()`; its steps are those of `QueueState.reader`. -/
  | read
  /-- Whether the batch is empty. -/
  | test (currentQueue : List ℕ)
  /-- The sleep after an empty batch. -/
  | sleepEmpty
  /-- `mTaskExecutor.AddTask`, call `k`; its steps are those of `ExecutorState.addTask`. -/
  | addTask (k : ℕ)
  /-- The loop is over, and the object will be destroyed. -/
  | destroy
  /-- The destructor of the object has begun. -/
  | destroying
  | finished

/-- What the destructor of the class does next. -/
inductive OwnerPc where
  /-- The flag is cleared. -/
  | start
  /-- Thread `i` is joined. -/
  | join (i : ℕ)
  /-- The destructor of `mTaskExecutor`; its steps are those of `ExecutorState.destructor`. -/
  | destroyExecutor
  | returned

/-- A `DoubleBufferQueue` that is filled by producers `π` and drained by `n` threads. -/
structure DrainState (π : Type) (n : ℕ) where
  isRunning : Bool := true
  doubleBufferQueue : QueueState π (Fin n) ℕ := {}
  mTaskExecutor : ExecutorState (Fin n × ℕ) := {}
  thread : Fin n → DrainPc := fun _ => .construct
  /-- Whether the object of a thread exists and its destructor has not begun. -/
  alive : Fin n → Bool := fun _ => false
  /-- How often a thread has called `AddTask`. -/
  calls : Fin n → ℕ := fun _ => 0
  /-- The `current_queue` that a task has captured. -/
  batch : Fin n × ℕ → List ℕ := fun _ => []
  /-- How often `enqueue` has been called. -/
  enqueued : ℕ := 0
  owner : OwnerPc := .start

/-- Who takes a step. -/
inductive DrainAction (π : Type) (n : ℕ) where
  /-- `enqueue` loads the index of the container. -/
  | load (p : π)
  /-- `enqueue` appends to the container. -/
  | append (p : π)
  | thread (w : Fin n)
  /-- Someone clears the flag. -/
  | stop
  | owner
  /-- A thread of the executor. -/
  | executor (a : ExecutorAction (Fin n × ℕ))

variable {π : Type} [DecidableEq π] {n : ℕ} {opt : CaptureOption} {sleepsFirst : Bool}

/-- The thread goes on at `pc`. -/
def DrainState.goto (s : DrainState π n) (w : Fin n) (pc : DrainPc) : DrainState π n :=
  { s with thread := Function.update s.thread w pc }

/-- The queue takes a step. -/
def DrainState.queueStep (s : DrainState π n) (a : QueueAction π (Fin n) ℕ) :
    Option (DrainState π n) :=
  (Hound.queueStep s.doubleBufferQueue a).map fun q => { s with doubleBufferQueue := q }

/-- The executor takes a step. -/
def DrainState.executorStep (opt : CaptureOption) (s : DrainState π n)
    (a : ExecutorAction (Fin n × ℕ)) : Option (DrainState π n) :=
  ((executorMachine opt (Fin n × ℕ)).step s.mTaskExecutor a).map fun e =>
    { s with mTaskExecutor := e }

/-- A thread that drains the queue; `sleepsFirst` says whether it sleeps before each read. How long
it sleeps is left open. -/
def drainThreadStep (opt : CaptureOption) (sleepsFirst : Bool) (s : DrainState π n) (w : Fin n) :
    Option (DrainState π n) :=
  match s.thread w with
  | .construct => some { s.goto w .loop with alive := Function.update s.alive w true }
  | .loop => some (s.goto w
      -- `sleep_for(wait1)` in `consumer_job`; `LoopTask` reads at once
      (if s.isRunning then if sleepsFirst then .sleep else .read else .destroy))
  | .sleep => some (s.goto w .read)
  | .read => match s.doubleBufferQueue.reader w with
      | .idle => s.queueStep (.readLoad w)
      | .loaded _ => s.queueStep (.readStore w)
      -- the swap leaves the half empty, and its items are the thread's from now on
      | .stored k =>
          (s.goto w (.test (s.doubleBufferQueue.queues k))).queueStep (.readSwap w)
  | .test currentQueue =>
      -- an empty batch is not handed over
      if currentQueue.isEmpty then some (s.goto w .sleepEmpty) else some
        { s.goto w (.addTask (s.calls w)) with
          calls := Function.update s.calls w (s.calls w + 1)
          batch := Function.update s.batch (w, s.calls w) currentQueue }
  | .sleepEmpty => some (s.goto w .loop)
  | .addTask k => match s.mTaskExecutor.addTask (w, k) with
      | .returned => some (s.goto w .loop)
      | _ => s.executorStep opt (.addTask (w, k))
  | .destroy => some
      { s.goto w .destroying with alive := Function.update s.alive w false }
  | .destroying => some (s.goto w .finished)
  | .finished => none

/-- The destructor of the class. -/
def ownerStep (opt : CaptureOption) (s : DrainState π n) : Option (DrainState π n) :=
  match s.owner with
  | .start => some { s with isRunning := false, owner := .join 0 }
  | .join i =>
      -- a join is enabled only when the thread has finished
      if h : i < n then match s.thread ⟨i, h⟩ with
        | .finished => some { s with owner := .join (i + 1) }
        | _ => none
      else some { s with owner := .destroyExecutor }
  | .destroyExecutor => match s.mTaskExecutor.destructor with
      | .returned => some { s with owner := .returned }
      | _ => s.executorStep opt .destructor
  | .returned => none

/-- One step. -/
def drainStep (opt : CaptureOption) (sleepsFirst : Bool) (s : DrainState π n) :
    DrainAction π n → Option (DrainState π n)
  | .load p => ({ s with enqueued := s.enqueued + 1 } : DrainState π n).queueStep
      (.load p s.enqueued)
  | .append p => s.queueStep (.append p)
  | .thread w => drainThreadStep opt sleepsFirst s w
  | .stop => some { s with isRunning := false }
  | .owner => ownerStep opt s
  -- calls of `AddTask` and the destructor are steps of the threads that make them
  | .executor (.addTask _) | .executor .destructor => none
  | .executor a => s.executorStep opt a

/-- The threads from the end of the constructor of the class on. -/
def drainMachine (opt : CaptureOption) (sleepsFirst : Bool) (π : Type) [DecidableEq π] (n : ℕ) :
    Machine (DrainState π n) (DrainAction π n) where
  init := {}
  step := drainStep opt sleepsFirst

/-! ### What a step does -/

/-- The batch the thread has read and not yet handed over. -/
def DrainPc.held : DrainPc → List ℕ
  | .test currentQueue => currentQueue
  | _ => []

/-- The object of the thread exists and its destructor has not begun. -/
def DrainPc.owns : DrainPc → Bool
  | .construct | .destroying | .finished => false
  | _ => true

/-- The thread has left its loop. -/
def DrainPc.left : DrainPc → Bool
  | .destroy | .destroying | .finished => true
  | _ => false

/-- What a step can do. -/
inductive DrainEffect (opt : CaptureOption) (s : DrainState π n) :
    DrainAction π n → DrainState π n → Prop
  | load (p : π) (q : QueueState π (Fin n) ℕ)
      (hq : queueStep s.doubleBufferQueue (.load p s.enqueued) = some q) :
      DrainEffect opt s (.load p) { s with doubleBufferQueue := q, enqueued := s.enqueued + 1 }
  | append (p : π) (q : QueueState π (Fin n) ℕ)
      (hq : queueStep s.doubleBufferQueue (.append p) = some q) :
      DrainEffect opt s (.append p) { s with doubleBufferQueue := q }
  | construct (w : Fin n) (hpc : s.thread w = .construct) :
      DrainEffect opt s (.thread w)
        { s.goto w .loop with alive := Function.update s.alive w true }
  /-- Nothing but the program point changes. -/
  | goto (w : Fin n) (pc : DrainPc) (hread : s.thread w ≠ .read)
      (hfinished : s.thread w ≠ .finished)
      (hheld : (s.thread w).held = []) (hheld' : pc.held = [])
      (howns : pc.owns = (s.thread w).owns)
      (hleft : pc.left = (s.thread w).left ∧ (s.thread w = .loop → s.isRunning = true) ∨
        pc.left = true ∧ s.thread w = .loop ∧ s.isRunning = false)
      (hcall : ∀ k, s.thread w = .addTask k → s.mTaskExecutor.addTask (w, k) = .returned)
      (hcall' : ∀ k, pc ≠ .addTask k) :
      DrainEffect opt s (.thread w) (s.goto w pc)
  /-- The first two steps of a read. -/
  | read (w : Fin n) (a : QueueAction π (Fin n) ℕ) (q : QueueState π (Fin n) ℕ)
      (hpc : s.thread w = .read) (ha : a = .readLoad w ∨ a = .readStore w)
      (hq : queueStep s.doubleBufferQueue a = some q) :
      DrainEffect opt s (.thread w) { s with doubleBufferQueue := q }
  /-- The third step of a read. -/
  | swap (w : Fin n) (k : QueueIndex) (q : QueueState π (Fin n) ℕ) (hpc : s.thread w = .read)
      (hreader : s.doubleBufferQueue.reader w = .stored k)
      (hq : queueStep s.doubleBufferQueue (.readSwap w) = some q) :
      DrainEffect opt s (.thread w)
        { s.goto w (.test (s.doubleBufferQueue.queues k)) with doubleBufferQueue := q }
  /-- A batch becomes the batch of a task. -/
  | call (w : Fin n) (currentQueue : List ℕ) (hpc : s.thread w = .test currentQueue)
      (hne : currentQueue ≠ []) :
      DrainEffect opt s (.thread w)
        { s.goto w (.addTask (s.calls w)) with
          calls := Function.update s.calls w (s.calls w + 1)
          batch := Function.update s.batch (w, s.calls w) currentQueue }
  | destroy (w : Fin n) (hpc : s.thread w = .destroy) :
      DrainEffect opt s (.thread w)
        { s.goto w .destroying with alive := Function.update s.alive w false }
  | stop : DrainEffect opt s .stop { s with isRunning := false }
  | ownerStop (hpc : s.owner = .start) :
      DrainEffect opt s .owner { s with isRunning := false, owner := .join 0 }
  | join (i : ℕ) (hi : i < n) (hpc : s.owner = .join i) (hthread : s.thread ⟨i, hi⟩ = .finished) :
      DrainEffect opt s .owner { s with owner := .join (i + 1) }
  | joined (i : ℕ) (hi : n ≤ i) (hpc : s.owner = .join i) :
      DrainEffect opt s .owner { s with owner := .destroyExecutor }
  | return (hpc : s.owner = .destroyExecutor) (hreturned : s.mTaskExecutor.destructor = .returned) :
      DrainEffect opt s .owner { s with owner := .returned }
  /-- A step of the executor, also one that a thread or the destructor takes in it. -/
  | executor (act : DrainAction π n) (a : ExecutorAction (Fin n × ℕ))
      (e : ExecutorState (Fin n × ℕ))
      (he : (executorMachine opt (Fin n × ℕ)).step s.mTaskExecutor a = some e)
      (hact : act = .executor a ∨ (∃ w k, a = .addTask (w, k) ∧ act = .thread w ∧
        s.thread w = .addTask k) ∨ a = .destructor ∧ act = .owner ∧ s.owner = .destroyExecutor)
      (hadd : ∀ c, act ≠ .executor (.addTask c)) (hdestructor : act ≠ .executor .destructor) :
      DrainEffect opt s act { s with mTaskExecutor := e }

theorem queueStep_eq {s t : DrainState π n} {a : QueueAction π (Fin n) ℕ}
    (h : s.queueStep a = some t) :
    ∃ q, queueStep s.doubleBufferQueue a = some q ∧ { s with doubleBufferQueue := q } = t :=
  Option.map_eq_some_iff.mp h

omit [DecidableEq π] in
theorem executorStep_eq {s t : DrainState π n} {a : ExecutorAction (Fin n × ℕ)}
    (h : s.executorStep opt a = some t) :
    ∃ e, (executorMachine opt (Fin n × ℕ)).step s.mTaskExecutor a = some e ∧
      { s with mTaskExecutor := e } = t :=
  Option.map_eq_some_iff.mp h

/-- A thread at `pc` that only goes on. -/
theorem DrainEffect.of_goto {s : DrainState π n} {w : Fin n} {pc pc' : DrainPc}
    (hpc : s.thread w = pc) (hread : pc ≠ .read) (hfinished : pc ≠ .finished)
    (hheld : pc.held = []) (hheld' : pc'.held = []) (howns : pc'.owns = pc.owns)
    (hleft : pc'.left = pc.left ∧ (pc = .loop → s.isRunning = true) ∨
      pc'.left = true ∧ pc = .loop ∧ s.isRunning = false)
    (hcall : ∀ k, pc = .addTask k → s.mTaskExecutor.addTask (w, k) = .returned)
    (hcall' : ∀ k, pc' ≠ .addTask k) : DrainEffect opt s (.thread w) (s.goto w pc') := by
  subst hpc
  exact .goto w pc' hread hfinished hheld hheld' howns hleft hcall hcall'

theorem drainThreadStep_effect {s t : DrainState π n} {w : Fin n}
    (hstep : drainThreadStep opt sleepsFirst s w = some t) : DrainEffect opt s (.thread w) t := by
  unfold drainThreadStep at hstep
  cases hpc : s.thread w with
  | construct =>
      obtain rfl : _ = t := by simpa [hpc] using hstep
      exact .construct w hpc
  | loop =>
      obtain rfl : _ = t := by simpa [hpc] using hstep
      -- the flag decides whether there is another pass
      cases hrunning : s.isRunning with
      | true =>
          refine .of_goto hpc nofun nofun rfl ?_ ?_ (.inl ⟨?_, fun _ => hrunning⟩) nofun ?_
          all_goals cases sleepsFirst
          all_goals first | rfl | nofun
      | false =>
          exact .of_goto hpc nofun nofun rfl rfl rfl (.inr ⟨rfl, rfl, hrunning⟩) nofun nofun
  | sleep =>
      obtain rfl : _ = t := by simpa [hpc] using hstep
      exact .of_goto hpc nofun nofun rfl rfl rfl (.inl ⟨rfl, nofun⟩) nofun nofun
  | read =>
      simp only [hpc] at hstep
      split at hstep
      · obtain ⟨q, hq, rfl⟩ := queueStep_eq hstep
        exact .read w _ q hpc (.inl rfl) hq
      · obtain ⟨q, hq, rfl⟩ := queueStep_eq hstep
        exact .read w _ q hpc (.inr rfl) hq
      · next k hreader =>
          obtain ⟨q, hq, rfl⟩ := queueStep_eq hstep
          exact .swap w k q hpc hreader hq
  | test currentQueue =>
      simp only [hpc] at hstep
      split at hstep
      · next hempty =>
          obtain rfl := Option.some.inj hstep
          obtain rfl := List.isEmpty_iff.mp hempty
          exact .of_goto hpc nofun nofun rfl rfl rfl (.inl ⟨rfl, nofun⟩) nofun nofun
      · next hne =>
          obtain rfl := Option.some.inj hstep
          exact .call w currentQueue hpc (by simpa using hne)
  | sleepEmpty =>
      obtain rfl : _ = t := by simpa [hpc] using hstep
      exact .of_goto hpc nofun nofun rfl rfl rfl (.inl ⟨rfl, nofun⟩) nofun nofun
  | addTask k =>
      simp only [hpc] at hstep
      split at hstep
      · next hreturned =>
          obtain rfl := Option.some.inj hstep
          exact .of_goto hpc nofun nofun rfl rfl rfl (.inl ⟨rfl, nofun⟩)
            (fun k' hk' => DrainPc.addTask.inj hk' ▸ hreturned) nofun
      · obtain ⟨e, he, rfl⟩ := executorStep_eq hstep
        exact .executor _ _ e he (.inr (.inl ⟨w, k, rfl, rfl, hpc⟩)) nofun nofun
  | destroy =>
      obtain rfl : _ = t := by simpa [hpc] using hstep
      exact .destroy w hpc
  | destroying =>
      obtain rfl : _ = t := by simpa [hpc] using hstep
      exact .of_goto hpc nofun nofun rfl rfl rfl (.inl ⟨rfl, nofun⟩) nofun nofun
  | finished => simp [hpc] at hstep

theorem ownerStep_effect {s t : DrainState π n} (hstep : ownerStep opt s = some t) :
    DrainEffect opt s .owner t := by
  unfold ownerStep at hstep
  split at hstep
  · next hpc =>
      obtain rfl := Option.some.inj hstep
      exact .ownerStop hpc
  · next i hpc =>
      split at hstep
      · next hi =>
          split at hstep
          · next hthread =>
              obtain rfl := Option.some.inj hstep
              exact .join i hi hpc hthread
          · nomatch hstep
      · next hi =>
          obtain rfl := Option.some.inj hstep
          exact .joined i (by omega) hpc
  · next hpc =>
      split at hstep
      · next hreturned =>
          obtain rfl := Option.some.inj hstep
          exact .return hpc hreturned
      · obtain ⟨e, he, rfl⟩ := executorStep_eq hstep
        exact .executor _ _ e he (.inr (.inr ⟨rfl, rfl, hpc⟩)) nofun nofun
  · nomatch hstep

theorem drainStep_effect {s t : DrainState π n} {a : DrainAction π n}
    (hstep : drainStep opt sleepsFirst s a = some t) : DrainEffect opt s a t := by
  cases a with
  | load p =>
      obtain ⟨q, hq, rfl⟩ := queueStep_eq hstep
      exact .load p q hq
  | append p =>
      obtain ⟨q, hq, rfl⟩ := queueStep_eq hstep
      exact .append p q hq
  | thread w => exact drainThreadStep_effect hstep
  | stop =>
      obtain rfl := Option.some.inj hstep
      exact .stop
  | owner => exact ownerStep_effect hstep
  | executor a =>
      cases a with
      | addTask c => nomatch hstep
      | destructor => nomatch hstep
      | _ =>
          obtain ⟨e, he, rfl⟩ := executorStep_eq hstep
          exact .executor _ _ e he (.inl rfl) nofun nofun

/-! ### The executor and the queue -/

/-- The executor does nothing but what an executor does. -/
theorem executor_reachable {s : DrainState π n}
    (hs : (drainMachine opt sleepsFirst π n).Reachable s) :
    (executorMachine opt (Fin n × ℕ)).Reachable s.mTaskExecutor := by
  refine hs.map rfl fun s a t hstep => ?_
  cases drainStep_effect hstep with
  | executor act a e he => exact ⟨some a, he⟩
  | _ => exact ⟨none, rfl⟩

/-- Nor does the queue. -/
theorem queue_reachable {s : DrainState π n}
    (hs : (drainMachine opt sleepsFirst π n).Reachable s) :
    (queueMachine π (Fin n) ℕ).Reachable s.doubleBufferQueue := by
  refine hs.map rfl fun s a t hstep => ?_
  cases drainStep_effect hstep with
  | load p q hq => exact ⟨some (.load p s.enqueued), hq⟩
  | append p q hq => exact ⟨some (.append p), hq⟩
  | read w a q _ _ hq => exact ⟨some a, hq⟩
  | swap w k q _ _ hq => exact ⟨some (.readSwap w), hq⟩
  | _ => exact ⟨none, rfl⟩

/-! ### The objects the tasks use -/

/-- The task is in the queue of the executor, has been taken out of it, or has been launched and
not finished. -/
def ExecutorState.Busy {τ : Type} (s : ExecutorState τ) (c : τ) : Prop :=
  c ∈ s.pending ∨ (s.async c).isUnfinished = true

/-- A task gets busy in its own call of `AddTask` only. -/
theorem busy_step {τ : Type} [DecidableEq τ] {s t : ExecutorState τ} {a : ExecutorAction τ} {c : τ}
    (hstep : (executorMachine opt τ).step s a = some t) (hbusy : t.Busy c) :
    s.Busy c ∨ a = .addTask c := by
  unfold ExecutorState.Busy at hbusy ⊢
  cases a with
  | addTask c' =>
      rcases eq_or_ne c c' with rfl | hne
      · exact .inr rfl
      · refine .inl ?_
        cases addTaskStep_effect hstep with
        | silent => exact hbusy
        | emplace => simpa [ExecutorState.pending, hne] using hbusy
        | notify => simpa [ExecutorState.pending] using hbusy
  | run =>
      refine .inl ?_
      cases runStep_effect hstep with
      | silent pc queLock futureLock _ hpopped =>
          simpa only [ExecutorState.pending, hpopped] using hbusy
      | pop job rest hrun htasks =>
          simpa [ExecutorState.pending, RunPc.popped, hrun, htasks] using hbusy
      | launch job hrun =>
          rcases eq_or_ne c job.task with rfl | hne
          · exact .inl (by simp [ExecutorState.pending, RunPc.popped, hrun])
          · simpa [ExecutorState.pending, RunPc.popped, hrun, hne] using hbusy
      | store c' hrun => simpa [ExecutorState.pending, RunPc.popped, hrun] using hbusy
  | spuriousWakeup =>
      obtain rfl := spuriousWakeupStep_eq hstep
      exact .inl (by simpa [ExecutorState.pending] using hbusy)
  | clean => cases cleanStep_effect hstep <;> exact .inl hbusy
  | destructor =>
      refine .inl ?_
      cases destructorStep_effect hstep with
      | notify => simpa [ExecutorState.pending] using hbusy
      | _ => exact hbusy
  | async c' =>
      refine .inl ?_
      rcases eq_or_ne c c' with rfl | hne
      · cases asyncStep_effect hstep with
        | invoke cpuId hasync => exact .inr (by rw [hasync]; rfl)
        | finish hasync => exact .inr (by rw [hasync]; rfl)
      · cases asyncStep_effect hstep <;> simpa [ExecutorState.pending, hne] using hbusy

/-- Objects are alive between their construction and their destruction, and as long as there are
tasks that use them. -/
structure DrainState.Guarded (s : DrainState π n) : Prop where
  alive_eq : ∀ w, s.alive w = (s.thread w).owns
  busy : ∀ c, s.mTaskExecutor.Busy c → s.alive c.1 = true

/-- An object is destroyed only when none of the tasks of its thread is busy. -/
def DestroysUnused (s : DrainState π n) (a : DrainAction π n) : Prop :=
  ∀ w, a = .thread w → s.thread w = .destroy → ∀ k, ¬s.mTaskExecutor.Busy (w, k)

/-- The step destroys no object at all. -/
def DrainState.destroysNone (s : DrainState π n) : DrainAction π n → Bool
  | .thread w => match s.thread w with
      | .destroy => false
      | _ => true
  | _ => true

omit [DecidableEq π] in
theorem destroysUnused_of_destroysNone (s : DrainState π n) (a : DrainAction π n)
    (h : s.destroysNone a = true) : DestroysUnused s a := by
  rintro w rfl hpc
  simp [DrainState.destroysNone, hpc] at h

theorem alive_eq_step {s t : DrainState π n} {a : DrainAction π n}
    (hs : ∀ w, s.alive w = (s.thread w).owns) (hstep : drainStep opt sleepsFirst s a = some t) :
    ∀ w, t.alive w = (t.thread w).owns := by
  -- going on within the life of the object changes nothing
  have hgoto : ∀ w pc, pc.owns = (s.thread w).owns → ∀ w', s.alive w' =
      (Function.update s.thread w pc w').owns := by
    intro w pc howns w'
    rcases eq_or_ne w' w with rfl | hne
    · rw [Function.update_self, howns, hs]
    · rw [Function.update_of_ne hne, hs]
  cases drainStep_effect hstep with
  | load | append | read | stop | ownerStop | join | joined | «return» | executor => exact hs
  | goto w pc _ _ _ _ howns => exact hgoto w pc howns
  | swap w k q hpc => exact hgoto w _ (by rw [hpc]; rfl)
  | call w currentQueue hpc => exact hgoto w _ (by rw [hpc]; rfl)
  | construct w | destroy w =>
      intro w'
      rcases eq_or_ne w' w with rfl | hne
      · simp [DrainState.goto, DrainPc.owns]
      · simpa [DrainState.goto, hne] using hs w'

theorem guarded_step {s t : DrainState π n} {a : DrainAction π n} (hs : s.Guarded)
    (hguard : DestroysUnused s a) (hstep : drainStep opt sleepsFirst s a = some t) :
    t.Guarded := by
  refine ⟨alive_eq_step hs.alive_eq hstep, fun c hc => ?_⟩
  cases drainStep_effect hstep with
  | load | append | read | stop | ownerStop | join | joined | «return» | goto | swap | call =>
      exact hs.busy c hc
  | construct w hpc =>
      rcases eq_or_ne c.1 w with rfl | hne
      · exact Function.update_self ..
      · simpa [hne] using hs.busy c hc
  | destroy w hpc =>
      -- a busy task of this thread would miss the guard
      rcases eq_or_ne c.1 w with rfl | hne
      · exact absurd hc (hguard c.1 rfl hpc c.2)
      · simpa [hne] using hs.busy c hc
  | executor act b e he hact =>
      rcases busy_step he hc with hbusy | rfl
      · exact hs.busy c hbusy
      · -- the thread is in its call, so its object is alive
        show s.alive c.1 = true
        rw [hs.alive_eq c.1]
        rcases hact with rfl | ⟨w, k, hc', -, hpc⟩ | ⟨hb, -⟩
        · nomatch hstep
        · obtain rfl : c = (w, k) := by simpa using hc'
          rw [hpc]
          rfl
        · nomatch hb

/-- An object is alive exactly while its thread owns it. -/
theorem alive_eq_of_reachable {s : DrainState π n}
    (hs : (drainMachine opt sleepsFirst π n).Reachable s) : ∀ w, s.alive w = (s.thread w).owns :=
  hs.invariant (fun _ => rfl) fun _ _ _ hs hstep => alive_eq_step hs hstep

omit [DecidableEq π] in
theorem guarded_init : DrainState.Guarded ({} : DrainState π n) where
  alive_eq _ := rfl
  busy c hc := by
    simp [ExecutorState.Busy, ExecutorState.pending, RunPc.popped, AsyncPc.isUnfinished] at hc

end Hound
