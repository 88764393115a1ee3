import Hound.Executor.Futures
import Hound.Pipeline.LiveParser
import Hound.ToMathlib.Spread

/-!
# Where the packets are

Every packet that `liveHandler` has been given is in the hands of the capture thread, in one half
of the double buffer, with a `consumer_job` that has read it, or in the batch of a task, and at one
of these places only. All four keep packets in the order of their capture.

* `DrainState.Called` : which calls of `AddTask` have been made.
* `DrainState.Joined` : what the destructor has waited for.
* `DrainState.Located` : where the packets are.
* `DrainState.Waits` : a packet that is still to be passed to `MakeFlow`.
-/

namespace Hound

section Drain

variable {π : Type} [DecidableEq π] {n : ℕ} {opt : CaptureOption} {sleepsFirst : Bool}
  {s t : DrainState π n}

/-! ### The calls -/

/-- A thread has made the first `calls` calls and has returned from each of them, but for the one
it is in. Each has been given a batch. -/
structure DrainState.Called (s : DrainState π n) : Prop where
  current : ∀ w k, s.thread w = .addTask k → k < s.calls w
  returned : ∀ w k, k < s.calls w → s.thread w ≠ .addTask k →
    s.mTaskExecutor.addTask (w, k) = .returned
  notStarted : ∀ w k, s.calls w ≤ k → s.mTaskExecutor.addTask (w, k) = .start
  batch_ne_nil : ∀ w k, k < s.calls w → s.batch (w, k) ≠ []
  batch_eq_nil : ∀ w k, s.calls w ≤ k → s.batch (w, k) = []

/-- A call of `AddTask` is left alone by all other steps. -/
theorem addTask_step {τ : Type} [DecidableEq τ] {e f : ExecutorState τ} {a : ExecutorAction τ}
    {c : τ} (hstep : (executorMachine opt τ).step e a = some f) (hne : a ≠ .addTask c) :
    f.addTask c = e.addTask c := by
  cases a with
  | addTask c' =>
      have hc : c ≠ c' := fun h => hne (h ▸ rfl)
      cases addTaskStep_effect hstep <;> exact Function.update_of_ne hc _ _
  | run => cases runStep_effect hstep <;> rfl
  | spuriousWakeup =>
      obtain rfl := spuriousWakeupStep_eq hstep
      rfl
  | clean => cases cleanStep_effect hstep <;> rfl
  | destructor => cases destructorStep_effect hstep <;> rfl
  | async c' => cases asyncStep_effect hstep <;> rfl

omit [DecidableEq π] in
/-- A thread goes on elsewhere than in a call, and from elsewhere than in the middle of one. -/
theorem DrainState.Called.goto (hs : s.Called) {w : Fin n} {pc : DrainPc}
    (hcall : ∀ k, s.thread w = .addTask k → s.mTaskExecutor.addTask (w, k) = .returned)
    (hthread : t.thread = Function.update s.thread w pc) (hpc : ∀ k, pc ≠ .addTask k)
    (hcalls : t.calls = s.calls) (hbatch : t.batch = s.batch)
    (hexecutor : t.mTaskExecutor = s.mTaskExecutor) : t.Called := by
  have hother : ∀ {w'}, w' ≠ w → t.thread w' = s.thread w' := fun hne => by
    rw [hthread, Function.update_of_ne hne]
  refine ⟨fun w' k hk => ?_, fun w' k hk hne => ?_, ?_, ?_, ?_⟩
  · rcases eq_or_ne w' w with rfl | hw
    · rw [hthread, Function.update_self] at hk
      exact absurd hk (hpc k)
    · rw [hcalls]
      exact hs.current w' k (hother hw ▸ hk)
  · rw [hcalls] at hk
    rw [hexecutor]
    by_cases hcurrent : s.thread w' = .addTask k
    · rcases eq_or_ne w' w with rfl | hw
      · exact hcall k hcurrent
      · exact absurd (hother hw ▸ hcurrent) hne
    · exact hs.returned w' k hk hcurrent
  · rw [hcalls, hexecutor]
    exact hs.notStarted
  · rw [hcalls, hbatch]
    exact hs.batch_ne_nil
  · rw [hcalls, hbatch]
    exact hs.batch_eq_nil

omit [DecidableEq π] in
/-- A thread enters its next call. -/
theorem DrainState.Called.call (hs : s.Called) {w : Fin n} {currentQueue : List ℕ}
    (hpc : s.thread w = .test currentQueue) (hne : currentQueue ≠ []) :
    DrainState.Called
      { s.goto w (.addTask (s.calls w)) with
        calls := Function.update s.calls w (s.calls w + 1)
        batch := Function.update s.batch (w, s.calls w) currentQueue } := by
  refine ⟨fun w' k hk => ?_, fun w' k hk hthread => ?_, fun w' k hk => ?_, fun w' k hk => ?_,
    fun w' k hk => ?_⟩
  all_goals simp only [DrainState.goto] at *
  all_goals rcases eq_or_ne w' w with rfl | hw
  · rw [Function.update_self, DrainPc.addTask.injEq] at hk
    rw [Function.update_self]
    omega
  · rw [Function.update_of_ne hw] at hk ⊢
    exact hs.current w' k hk
  · rw [Function.update_self] at hk hthread
    exact hs.returned w' k (by grind) (by simp [hpc])
  · rw [Function.update_of_ne hw] at hk hthread
    exact hs.returned w' k hk hthread
  · rw [Function.update_self] at hk
    exact hs.notStarted w' k (by omega)
  · rw [Function.update_of_ne hw] at hk
    exact hs.notStarted w' k hk
  · rw [Function.update_self] at hk
    rcases eq_or_ne k (s.calls w') with rfl | hk'
    · rwa [Function.update_self]
    · rw [Function.update_of_ne (by simpa using hk')]
      exact hs.batch_ne_nil w' k (by omega)
  · rw [Function.update_of_ne hw] at hk
    rw [Function.update_of_ne (by simp [hw])]
    exact hs.batch_ne_nil w' k hk
  · rw [Function.update_self] at hk
    rw [Function.update_of_ne (by simp; omega)]
    exact hs.batch_eq_nil w' k (by omega)
  · rw [Function.update_of_ne hw] at hk
    rw [Function.update_of_ne (by simp [hw])]
    exact hs.batch_eq_nil w' k hk

theorem called_step {a : DrainAction π n} (hs : s.Called)
    (hstep : drainStep opt sleepsFirst s a = some t) : t.Called := by
  cases drainStep_effect hstep with
  | load | append | read | stop | ownerStop | join | joined | «return» =>
      exact ⟨hs.current, hs.returned, hs.notStarted, hs.batch_ne_nil, hs.batch_eq_nil⟩
  | goto w pc _ _ _ _ _ _ hcall hcall' => exact hs.goto hcall rfl hcall' rfl rfl rfl
  | construct w hpc | destroy w hpc => exact hs.goto (by rw [hpc]; nofun) rfl nofun rfl rfl rfl
  | swap w k q hpc => exact hs.goto (by rw [hpc]; nofun) rfl nofun rfl rfl rfl
  -- the only step that begins a call
  | call w currentQueue hpc hne => exact hs.call hpc hne
  | executor act b e he hact =>
      -- only a thread that is in a call goes on with it
      have hsame : ∀ w k, s.thread w ≠ .addTask k →
          e.addTask (w, k) = s.mTaskExecutor.addTask (w, k) := by
        intro w k hthread
        refine addTask_step he ?_
        rintro rfl
        rcases hact with rfl | ⟨w', k', hc, -, hpc⟩ | ⟨hb, -⟩
        · nomatch hstep
        · obtain ⟨rfl, rfl⟩ : w = w' ∧ k = k' := by simpa using hc
          exact hthread hpc
        · nomatch hb
      refine ⟨hs.current, fun w k hk hthread => ?_, fun w k hk => ?_, hs.batch_ne_nil,
        hs.batch_eq_nil⟩
      · exact (hsame w k hthread).trans (hs.returned w k hk hthread)
      · refine (hsame w k fun hcurrent => ?_).trans (hs.notStarted w k hk)
        exact absurd (hs.current w k hcurrent) (Nat.not_lt.mpr hk)

theorem called_of_reachable (hs : (drainMachine opt sleepsFirst π n).Reachable s) : s.Called :=
  hs.invariant ⟨nofun, nofun, fun _ _ _ => rfl, nofun, fun _ _ _ => rfl⟩
    fun _ _ _ hcalled hstep => called_step hcalled hstep

/-! ### The destructor -/

/-- The destructor has joined thread `i`. -/
def OwnerPc.hasJoined : OwnerPc → ℕ → Bool
  | .start, _ => false
  | .join j, i => decide (i < j)
  | _, _ => true

/-- The destructor goes on to the executor. -/
def OwnerPc.destroys : OwnerPc → Bool
  | .destroyExecutor | .returned => true
  | _ => false

/-- The destructor clears the flag, then joins the threads, then destroys the executor. -/
structure DrainState.Joined (s : DrainState π n) : Prop where
  stopped : s.owner ≠ .start → s.isRunning = false
  finished : ∀ w : Fin n, s.owner.hasJoined w = true → s.thread w = .finished
  destroyed : s.mTaskExecutor.destructor ≠ .start → s.owner.destroys = true
  returned : s.owner = .returned → s.mTaskExecutor.destructor = .returned

omit [DecidableEq π] in
/-- Before that the destructor of the executor has not started. -/
theorem DrainState.Joined.destructor_eq_start (hs : s.Joined) (howner : s.owner.destroys = false) :
    s.mTaskExecutor.destructor = .start := by
  by_contra hne
  have hdestroys := hs.destroyed hne
  rw [howner] at hdestroys
  contradiction

/-- The destructor of the executor takes its steps itself. -/
theorem destructor_step {τ : Type} [DecidableEq τ] {e f : ExecutorState τ} {a : ExecutorAction τ}
    (hstep : (executorMachine opt τ).step e a = some f) (hne : a ≠ .destructor) :
    f.destructor = e.destructor := by
  cases a with
  | addTask c => cases addTaskStep_effect hstep <;> rfl
  | run => cases runStep_effect hstep <;> rfl
  | spuriousWakeup =>
      obtain rfl := spuriousWakeupStep_eq hstep
      rfl
  | clean => cases cleanStep_effect hstep <;> rfl
  | destructor => exact absurd rfl hne
  | async c => cases asyncStep_effect hstep <;> rfl

omit [DecidableEq π] in
/-- A thread that has not finished may go on. -/
theorem DrainState.Joined.goto (hs : s.Joined) {w : Fin n} {pc : DrainPc}
    (hfinished : s.thread w ≠ .finished) (hthread : t.thread = Function.update s.thread w pc)
    (hrunning : t.isRunning = s.isRunning) (howner : t.owner = s.owner)
    (hexecutor : t.mTaskExecutor = s.mTaskExecutor) : t.Joined := by
  refine ⟨?_, fun w' hjoined => ?_, ?_, ?_⟩
  · rw [howner, hrunning]
    exact hs.stopped
  · rw [howner] at hjoined
    have hne : w' ≠ w := by
      rintro rfl
      exact hfinished (hs.finished w' hjoined)
    rw [hthread, Function.update_of_ne hne]
    exact hs.finished w' hjoined
  · rw [hexecutor, howner]
    exact hs.destroyed
  · rw [hexecutor, howner]
    exact hs.returned

theorem joined_step {a : DrainAction π n} (hs : s.Joined)
    (hstep : drainStep opt sleepsFirst s a = some t) : t.Joined := by
  cases drainStep_effect hstep with
  | load | append | read => exact ⟨hs.stopped, hs.finished, hs.destroyed, hs.returned⟩
  | stop => exact ⟨fun _ => rfl, hs.finished, hs.destroyed, hs.returned⟩
  | goto w pc _ hfinished => exact hs.goto hfinished rfl rfl rfl rfl
  | construct w hpc | destroy w hpc | call w _ hpc =>
      exact hs.goto (by rw [hpc]; nofun) rfl rfl rfl rfl
  | swap w k q hpc => exact hs.goto (by rw [hpc]; nofun) rfl rfl rfl rfl
  | ownerStop hpc =>
      have hdestructor := hs.destructor_eq_start (by rw [hpc]; rfl)
      exact ⟨fun _ => rfl, fun w hw => by simp [OwnerPc.hasJoined] at hw,
        fun h => absurd hdestructor h, nofun⟩
  | join i hi hpc hthread =>
      have hdestructor := hs.destructor_eq_start (by rw [hpc]; rfl)
      refine ⟨fun _ => hs.stopped (by rw [hpc]; nofun), fun w hw => ?_,
        fun h => absurd hdestructor h, nofun⟩
      -- the thread joined just now has finished, like those joined before
      rcases Nat.lt_succ_iff_lt_or_eq.mp (of_decide_eq_true hw) with hlt | rfl
      · exact hs.finished w (by rw [hpc]; exact decide_eq_true hlt)
      · exact hthread
  | joined i hi hpc =>
      refine ⟨fun _ => hs.stopped (by rw [hpc]; nofun), fun w _ => ?_, fun _ => rfl, nofun⟩
      exact hs.finished w (by rw [hpc]; exact decide_eq_true (by omega))
  | «return» hpc hreturned =>
      exact ⟨fun _ => hs.stopped (by rw [hpc]; nofun),
        fun w _ => hs.finished w (by rw [hpc]; rfl), fun _ => rfl, fun _ => hreturned⟩
  | executor act b e he hact =>
      refine ⟨hs.stopped, hs.finished, fun hne => ?_, fun hreturned => ?_⟩
      all_goals rcases hact with rfl | ⟨w, k, rfl, -⟩ | ⟨rfl, -, hpc⟩
      · rw [destructor_step he (by rintro rfl; nomatch hstep)] at hne
        exact hs.destroyed hne
      · rw [destructor_step he nofun] at hne
        exact hs.destroyed hne
      · show s.owner.destroys = true
        rw [hpc]
        rfl
      · rw [destructor_step he (by rintro rfl; nomatch hstep)]
        exact hs.returned hreturned
      · rw [destructor_step he nofun]
        exact hs.returned hreturned
      · exact absurd (hpc.symm.trans hreturned) nofun

theorem joined_of_reachable (hs : (drainMachine opt sleepsFirst π n).Reachable s) : s.Joined :=
  hs.invariant ⟨nofun, nofun, nofun, nofun⟩ fun _ _ _ hjoined hstep => joined_step hjoined hstep

end Drain

/-! ### The packets -/

section LiveParser

variable {n : ℕ} {opt : CaptureOption} {s t : DrainState Unit n}

/-- Where a packet can be. -/
inductive Place (n : ℕ) where
  /-- Its `enqueue` has loaded `current` and not yet appended it. -/
  | loaded
  | half (k : QueueIndex)
  /-- It is in the `current_queue` of a `consumer_job`. -/
  | held (w : Fin n)
  /-- It is in the `current_queue` that a task has captured. -/
  | task (c : Fin n × ℕ)

/-- The item in the hands of the producer. -/
def ProducerPc.items {δ : Type} : ProducerPc δ → List δ
  | .idle => []
  | .loaded _ item => [item]

/-- The packets at a place, in order. -/
def DrainState.packetsAt (s : DrainState Unit n) : Place n → List ℕ
  | .loaded => (s.doubleBufferQueue.producer ()).items
  | .half k => s.doubleBufferQueue.queues k
  | .held w => (s.thread w).held
  | .task c => s.batch c

/-- Every packet captured so far is at one place, and the capture thread has appended all of them
but for the one in its hands. -/
structure DrainState.Located (s : DrainState Unit n) : Prop where
  spread : Spread s.packetsAt
  mem_iff : ∀ i, (∃ p, i ∈ s.packetsAt p) ↔ i < s.enqueued
  appended_eq : s.doubleBufferQueue.appended ++ s.packetsAt .loaded = List.range s.enqueued

/-- From where to where a step moves packets. -/
inductive DrainState.Moves (s : DrainState Unit n) :
    DrainAction Unit n → Place n → Place n → Prop
  | append (k : QueueIndex) : s.Moves (.append ()) .loaded (.half k)
  | swap (w : Fin n) (k : QueueIndex) (hpc : s.thread w = .read)
      (hreader : s.doubleBufferQueue.reader w = .stored k) :
      s.Moves (.thread w) (.half k) (.held w)
  | call (w : Fin n) : s.Moves (.thread w) (.held w) (.task (w, s.calls w))

/-- What a step does to the places. -/
inductive PlacesEffect (s : DrainState Unit n) (act : DrainAction Unit n) (t : DrainState Unit n) :
    Prop
  | same (hplaces : t.packetsAt = s.packetsAt)
      (happended : t.doubleBufferQueue.appended = s.doubleBufferQueue.appended)
      (henqueued : t.enqueued = s.enqueued)
  | load (htarget : t.packetsAt .loaded = s.packetsAt .loaded ++ [s.enqueued])
      (hother : ∀ p, p ≠ .loaded → t.packetsAt p = s.packetsAt p)
      (hnone : s.packetsAt .loaded = [])
      (happended : t.doubleBufferQueue.appended = s.doubleBufferQueue.appended)
      (henqueued : t.enqueued = s.enqueued + 1)
  | move (a b : Place n) (hmoves : s.Moves act a b)
      (hmoved : Spread.Moved s.packetsAt t.packetsAt a b)
      (hlt : ∀ i ∈ s.packetsAt b, ∀ j ∈ s.packetsAt a, i < j)
      (happended : t.doubleBufferQueue.appended ++ t.packetsAt .loaded =
        s.doubleBufferQueue.appended ++ s.packetsAt .loaded)
      (henqueued : t.enqueued = s.enqueued)

theorem located_of_effect {act : DrainAction Unit n} (hs : s.Located)
    (h : PlacesEffect s act t) : t.Located := by
  cases h with
  | same hplaces happended henqueued =>
      refine ⟨hplaces ▸ hs.spread, ?_, ?_⟩
      · rw [hplaces, henqueued]
        exact hs.mem_iff
      · rw [hplaces, happended, henqueued]
        exact hs.appended_eq
  | load htarget hother hnone happended henqueued =>
      -- the number of a new packet is used nowhere yet
      have hnew : ∀ p, s.enqueued ∉ s.packetsAt p := fun p hp =>
        absurd ((hs.mem_iff _).mp ⟨p, hp⟩) (Nat.lt_irrefl _)
      refine ⟨hs.spread.insert hnew (by rw [hnone]; nofun) htarget hother, fun i => ?_, ?_⟩
      · rw [Spread.exists_mem_insert_iff htarget hother, hs.mem_iff, henqueued]
        exact Nat.lt_succ_iff_lt_or_eq.symm
      · rw [htarget, ← List.append_assoc, happended, hs.appended_eq, henqueued, List.range_succ]
  | move a b _ hmoved hlt happended henqueued =>
      refine ⟨hs.spread.move hmoved hlt, fun i => ?_, ?_⟩
      · rw [hmoved.exists_mem_iff, henqueued, hs.mem_iff]
      · rw [happended, henqueued, hs.appended_eq]

/-- The places of a thread that holds no packets before or after. -/
theorem packetsAt_goto {w : Fin n} {pc : DrainPc} (hheld : (s.thread w).held = [])
    (hheld' : pc.held = []) : (s.goto w pc).packetsAt = s.packetsAt := by
  funext p
  cases p with
  | held w' =>
      show (Function.update s.thread w pc w').held = (s.thread w').held
      rcases eq_or_ne w' w with rfl | hne
      · rw [Function.update_self, hheld, hheld']
      · rw [Function.update_of_ne hne]
  | _ => rfl

/-- The packet in the hands of the capture thread is the latest. -/
theorem DrainState.Located.loaded_eq (hs : s.Located) {i : ℕ}
    (hi : s.packetsAt .loaded = [i]) : i + 1 = s.enqueued := by
  -- it is the last element of `List.range s.enqueued`
  have hrange := hs.appended_eq
  rw [hi] at hrange
  have hlength := congrArg List.length hrange
  have hlast := congrArg List.getLast? hrange
  rw [List.length_append, List.length_singleton, List.length_range] at hlength
  rw [List.getLast?_concat, ← hlength, List.range_succ, List.getLast?_concat,
    Option.some.injEq] at hlast
  omega

theorem places_load {q : QueueState Unit (Fin n) ℕ}
    (hq : queueStep s.doubleBufferQueue (.load () s.enqueued) = some q) :
    PlacesEffect s (.load ()) { s with doubleBufferQueue := q, enqueued := s.enqueued + 1 } := by
  obtain ⟨hidle, rfl⟩ := queueStep_load.mp hq
  have hnone : s.packetsAt .loaded = [] := by
    rw [DrainState.packetsAt, hidle]
    rfl
  refine .load ?_ ?_ hnone rfl rfl
  · rw [hnone]
    simp [DrainState.packetsAt, ProducerPc.items]
  · rintro (_ | k | w | c) hp
    · exact absurd rfl hp
    all_goals rfl

theorem places_append {q : QueueState Unit (Fin n) ℕ} (hs : s.Located)
    (hq : queueStep s.doubleBufferQueue (.append ()) = some q) :
    PlacesEffect s (.append ()) { s with doubleBufferQueue := q } := by
  obtain ⟨k, i, hloaded, rfl⟩ := queueStep_append.mp hq
  have hitem : s.packetsAt .loaded = [i] := by
    rw [DrainState.packetsAt, hloaded]
    rfl
  refine .move .loaded (.half k) (.append k) ⟨nofun, ?_, ?_, ?_⟩ ?_ ?_ rfl
  · simp [DrainState.packetsAt, ProducerPc.items]
  · rw [hitem]
    simp [DrainState.packetsAt]
  · rintro (_ | k' | w | c) ha hb
    · exact absurd rfl ha
    · have hne : k' ≠ k := fun h => hb (congrArg _ h)
      simp [DrainState.packetsAt, hne]
    all_goals rfl
  · -- the packet follows all others, for it is the latest
    intro j hj i' hi'
    rw [hitem, List.mem_singleton] at hi'
    have hlt := (hs.mem_iff j).mp ⟨_, hj⟩
    have hlatest := hs.loaded_eq hitem
    have hne : j ≠ i := by
      rintro rfl
      have hplace := hs.spread.unique hj (q := .loaded) (hitem ▸ List.mem_singleton_self j)
      nomatch hplace
    omega
  · rw [hitem]
    simp [DrainState.packetsAt, ProducerPc.items]

theorem places_swap {w : Fin n} {k : QueueIndex} {q : QueueState Unit (Fin n) ℕ}
    (hpc : s.thread w = .read) (hreader : s.doubleBufferQueue.reader w = .stored k)
    (hq : queueStep s.doubleBufferQueue (.readSwap w) = some q) :
    PlacesEffect s (.thread w)
      { s.goto w (.test (s.doubleBufferQueue.queues k)) with doubleBufferQueue := q } := by
  obtain ⟨k', hk', rfl⟩ := queueStep_readSwap.mp hq
  obtain rfl : k = k' := ReaderPc.stored.inj (hreader.symm.trans hk')
  have hnone : s.packetsAt (.held w) = [] := by
    rw [DrainState.packetsAt, hpc]
    rfl
  -- the reader has just been in `read`, so it holds nothing else
  refine .move (.half k) (.held w) (.swap w k hpc hreader) ⟨nofun, ?_, ?_, ?_⟩
    (by rw [hnone]; nofun) rfl rfl
  · simp [DrainState.packetsAt]
  · rw [hnone]
    simp [DrainState.packetsAt, DrainState.goto, DrainPc.held]
  · rintro (_ | k' | w' | c) ha hb
    · rfl
    · have hne : k' ≠ k := fun h => ha (congrArg _ h)
      simp [DrainState.packetsAt, hne]
    · have hne : w' ≠ w := fun h => hb (congrArg _ h)
      simp [DrainState.packetsAt, DrainState.goto, hne]
    · rfl

theorem places_call {w : Fin n} {currentQueue : List ℕ} (hcalled : s.Called)
    (hpc : s.thread w = .test currentQueue) :
    PlacesEffect s (.thread w)
      { s.goto w (.addTask (s.calls w)) with
        calls := Function.update s.calls w (s.calls w + 1)
        batch := Function.update s.batch (w, s.calls w) currentQueue } := by
  have hheld : s.packetsAt (.held w) = currentQueue := by
    rw [DrainState.packetsAt, hpc]
    rfl
  have hnone : s.packetsAt (.task (w, s.calls w)) = [] :=
    hcalled.batch_eq_nil w _ (Nat.le_refl _)
  -- a call that has not been made yet has no batch
  refine .move (.held w) (.task (w, s.calls w)) (.call w) ⟨nofun, ?_, ?_, ?_⟩
    (by rw [hnone]; nofun) rfl rfl
  · simp [DrainState.packetsAt, DrainState.goto, DrainPc.held]
  · rw [hnone, hheld]
    simp [DrainState.packetsAt]
  · rintro (_ | k' | w' | c) ha hb
    · rfl
    · rfl
    · have hne : w' ≠ w := fun h => ha (congrArg _ h)
      simp [DrainState.packetsAt, DrainState.goto, hne]
    · have hne : c ≠ (w, s.calls w) := fun h => hb (congrArg _ h)
      simp [DrainState.packetsAt, hne]

/-- Threads that drain a queue with one producer move packets or leave them where they are. -/
theorem places_drainStep {sleepsFirst : Bool} {a : DrainAction Unit n} (hcalled : s.Called)
    (hs : s.Located) (hstep : drainStep opt sleepsFirst s a = some t) : PlacesEffect s a t := by
  cases drainStep_effect hstep with
  | load p q hq => exact places_load hq
  | append p q hq => exact places_append hs hq
  | read w a q hpc ha hq =>
      rcases ha with rfl | rfl
      · obtain ⟨-, rfl⟩ := queueStep_readLoad.mp hq
        exact .same rfl rfl rfl
      · obtain ⟨k, -, rfl⟩ := queueStep_readStore.mp hq
        exact .same rfl rfl rfl
  | swap w k q hpc hreader hq => exact places_swap hpc hreader hq
  | call w currentQueue hpc => exact places_call hcalled hpc
  | goto w pc _ _ hheld hheld' => exact .same (packetsAt_goto hheld hheld') rfl rfl
  | construct w hpc | destroy w hpc =>
      exact .same (packetsAt_goto (by rw [hpc]; rfl) rfl) rfl rfl
  | stop | ownerStop | join | joined | «return» | executor => exact .same rfl rfl rfl

theorem places_step {a : DrainAction Unit n} (hcalled : s.Called) (hs : s.Located)
    (hstep : liveParserStep opt s a = some t) : PlacesEffect s a t :=
  places_drainStep hcalled hs (drainStep_of_liveParserStep hstep)

theorem drain_reachable (hs : (liveParserMachine opt n).Reachable s) :
    (drainMachine opt true Unit n).Reachable s :=
  hs.map (f := id) rfl fun _ a _ hstep => ⟨some a, drainStep_of_liveParserStep hstep⟩

theorem located_of_drain {sleepsFirst : Bool}
    (hs : (drainMachine opt sleepsFirst Unit n).Reachable s) : s.Located := by
  refine hs.invariant_of (fun s hs => called_of_reachable hs) ?_
    fun _ _ _ hcalled hlocated hstep =>
      located_of_effect hlocated (places_drainStep hcalled hlocated hstep)
  have hnone : ∀ p, ({} : DrainState Unit n).packetsAt p = [] := by
    rintro (_ | k | w | c) <;> rfl
  refine ⟨⟨fun p => ?_, fun {p q i} hp => ?_⟩, fun i => ?_, rfl⟩
  · show (DrainState.packetsAt {} p).Pairwise _
    rw [hnone]
    exact List.Pairwise.nil
  · replace hp : i ∈ DrainState.packetsAt {} p := hp
    rw [hnone] at hp
    nomatch hp
  · refine ⟨fun ⟨p, hp⟩ => ?_, fun hi => absurd hi (Nat.not_lt_zero i)⟩
    replace hp : i ∈ DrainState.packetsAt {} p := hp
    rw [hnone] at hp
    nomatch hp

theorem located_of_reachable (hs : (liveParserMachine opt n).Reachable s) : s.Located :=
  located_of_drain (drain_reachable hs)

/-! ### What is still to be done -/

/-- What is at a place is still to be passed to `MakeFlow`, or has been, and the call has not ended
yet. -/
def DrainState.Outstanding (s : DrainState Unit n) : Place n → Prop
  | .task c => s.mTaskExecutor.async c ≠ .finished
  | _ => True

/-- A packet is at a place where something is still to be done. -/
def DrainState.Waits (s : DrainState Unit n) (i : ℕ) : Prop :=
  ∃ p, s.Outstanding p ∧ i ∈ s.packetsAt p

/-- A task finishes in a step of its own. -/
theorem finished_of_step {τ : Type} [DecidableEq τ] {e f : ExecutorState τ} {a : ExecutorAction τ}
    {c : τ} (hstep : (executorMachine opt τ).step e a = some f) (hc : f.async c = .finished) :
    e.async c = .finished ∨ a = .async c ∧ e.async c = .running := by
  cases task_step hstep c with
  | same hasync => exact .inl (hasync.symm.trans hc)
  | launch _ _ _ hasync | invoke _ _ _ hasync =>
      rw [hc] at hasync
      contradiction
  | finish ha hbefore => exact .inr ⟨ha, hbefore⟩

/-- No step makes a finished task unfinished. -/
theorem outstanding_of_step {a : DrainAction Unit n} {p : Place n}
    (hplaced : s.mTaskExecutor.Placed) (hstep : liveParserStep opt s a = some t)
    (hp : t.Outstanding p) : s.Outstanding p := by
  cases p with
  | task c =>
      intro hc
      refine hp ?_
      cases drainStep_effect (drainStep_of_liveParserStep hstep) with
      | executor act b e he => exact finished_step hplaced he hc
      | _ => exact hc
  | _ => trivial

/-- A place stays outstanding, but for the batch of a task that finishes in this step. -/
theorem outstanding_step {a : DrainAction Unit n} {p : Place n}
    (hstep : liveParserStep opt s a = some t) (hp : s.Outstanding p) :
    t.Outstanding p ∨
      ∃ c, p = .task c ∧ a = .executor (.async c) ∧ s.mTaskExecutor.async c = .running := by
  cases p with
  | task c =>
      by_cases hfinished : t.mTaskExecutor.async c = .finished
      · refine .inr ⟨c, rfl, ?_⟩
        cases drainStep_effect (drainStep_of_liveParserStep hstep) with
        | executor act b e he hact =>
            rcases finished_of_step he hfinished with hc | ⟨rfl, hrunning⟩
            · exact absurd hc hp
            · rcases hact with rfl | ⟨w, k, hb, -⟩ | ⟨hb, -⟩
              · exact ⟨rfl, hrunning⟩
              · nomatch hb
              · nomatch hb
        | _ => exact absurd hfinished hp
      · exact .inl hfinished
  | _ => exact .inl trivial

/-- A packet that waits has waited before, or has just been captured. -/
theorem waits_of_step {a : DrainAction Unit n} {i : ℕ} (hs : (liveParserMachine opt n).Reachable s)
    (hstep : liveParserStep opt s a = some t) (hi : t.Waits i) : s.Waits i ∨ i = s.enqueued := by
  have hplaced := placed_of_reachable (executor_reachable (drain_reachable hs))
  have hcalled := called_of_reachable (drain_reachable hs)
  obtain ⟨p, hopen, hp⟩ := hi
  replace hopen := outstanding_of_step hplaced hstep hopen
  cases places_step hcalled (located_of_reachable hs) hstep with
  | same hplaces => exact .inl ⟨p, hopen, hplaces ▸ hp⟩
  | load htarget hother =>
      rcases eq_or_ne p .loaded with rfl | hne
      · rw [htarget, List.mem_append, List.mem_singleton] at hp
        exact hp.imp_left fun hp => ⟨.loaded, trivial, hp⟩
      · exact .inl ⟨p, hopen, hother p hne ▸ hp⟩
  | move a b hmoves hmoved =>
      rcases hmoved.mem_iff.mp hp with ⟨-, hp⟩ | ⟨-, hp⟩
      · exact .inl ⟨p, hopen, hp⟩
      · refine .inl ⟨a, ?_, hp⟩
        cases hmoves <;> trivial

/-- A packet goes on waiting until its task finishes. -/
theorem waits_step {a : DrainAction Unit n} {i : ℕ} (hs : (liveParserMachine opt n).Reachable s)
    (hstep : liveParserStep opt s a = some t) (hi : s.Waits i) :
    t.Waits i ∨
      ∃ c, i ∈ s.batch c ∧ a = .executor (.async c) ∧ s.mTaskExecutor.async c = .running := by
  have hplaced := placed_of_reachable (executor_reachable (drain_reachable hs))
  have hcalled := called_of_reachable (drain_reachable hs)
  obtain ⟨p, hopen, hp⟩ := hi
  cases places_step hcalled (located_of_reachable hs) hstep with
  | same hplaces =>
      refine (outstanding_step hstep hopen).imp (fun hopen => ⟨p, hopen, hplaces.symm ▸ hp⟩) ?_
      rintro ⟨c, rfl, ha⟩
      exact ⟨c, hp, ha⟩
  | load htarget hother =>
      refine (outstanding_step hstep hopen).imp (fun hopen => ⟨p, hopen, ?_⟩) ?_
      · rcases eq_or_ne p .loaded with rfl | hne
        · exact htarget ▸ List.mem_append_left _ hp
        · exact hother p hne ▸ hp
      · rintro ⟨c, rfl, ha⟩
        exact ⟨c, hp, ha⟩
  | move a b hmoves hmoved =>
      rcases eq_or_ne p a with rfl | hne
      · -- the packet has moved, but to no task that is running already
        refine .inl ⟨b, ?_, hmoved.mem_iff.mpr (.inr ⟨rfl, hp⟩)⟩
        cases hmoves with
        | append | swap => trivial
        | call w =>
            -- the task gets its batch before its call of `AddTask` begins
            have hstart : s.Outstanding (.task (w, s.calls w)) := fun hfinished => by
              have hnot := hplaced (w, s.calls w)
              rw [hcalled.notStarted w _ (Nat.le_refl _), hfinished] at hnot
              simp [AsyncPc.isLaunched, AddTaskPc.emplaced] at hnot
            rcases outstanding_step hstep hstart with h | ⟨c, -, hc, -⟩
            · exact h
            · simp at hc
      · refine (outstanding_step hstep hopen).imp (fun hopen => ?_) ?_
        · exact ⟨p, hopen, hmoved.mem_iff.mpr (.inl ⟨hne, hp⟩)⟩
        · rintro ⟨c, rfl, ha⟩
          exact ⟨c, hp, ha⟩

end LiveParser

end Hound
