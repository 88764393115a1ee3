import Hound.ToMathlib.Machine
import Hound.ToMathlib.Mutex

/-!
# Sleeping threads

The thread that cleans up futures and the one that cleans the flow table sleep in
`InterruptibleSleep::sleep_for` between two rounds, and test `mIsRunning` before each sleep. Their
destructors call `wakeup` and clear the flag, `~TaskExecutor` in the other order than `~KafkaSink`,
and join the thread. `wakeup` notifies with the mutex locked and what it requests is never taken
back, so in neither order a sleep can outlast it.

* `sleeperMachine` : a sleeping thread and its destructor, lock by lock.
* `SleeperState.Awake` : when the thread may be blocked.
* `sleeper_joined` : the destructor does not wait for a sleep to end.
-/

namespace Hound

/-! ### The machine -/

/-- Where the sleeping thread is. -/
inductive SleepPc where
  /-- `while (mIsRunning)`. -/
  | loop
  /-- `sleep_for` locks the mutex. -/
  | lock
  /-- The predicate of `cv.wait_for`, with the mutex. -/
  | test
  /-- In `cv.wait_for`, without the mutex. -/
  | blocked
  /-- It has been woken up, or the time is over, and it locks the mutex again. -/
  | woken (timedOut : Bool)
  /-- `sleep_for` returns. -/
  | unlock
  /-- What the thread does after each sleep. -/
  | work
  | finished
  deriving DecidableEq

/-- Where the destructor is. -/
inductive WakePc where
  | start
  /-- `mIsRunning = false`. -/
  | clear
  /-- `wakeup` locks the mutex. -/
  | lock
  /-- `stop_requested = true`. -/
  | request
  /-- `cv.notify_one()`. -/
  | notify
  /-- `wakeup` returns. -/
  | unlock
  | join
  | joined
  deriving DecidableEq

/-- The two threads. -/
inductive SleepUser where
  | sleeper
  | destructor
  deriving DecidableEq

/-- A sleeping thread and its destructor. -/
structure SleeperState where
  mtx : Option SleepUser := none
  stopRequested : Bool := false
  mIsRunning : Bool := true
  sleeper : SleepPc := .loop
  destructor : WakePc := .start

/-- Who takes a step. -/
inductive SleepAction where
  | sleeper
  | destructor
  /-- The time that the thread has asked for is over. -/
  | timeout
  /-- `cv.wait_for` wakes up without a notification. -/
  | spuriousWakeup

/-- The loop of the thread. -/
def sleepStep (s : SleeperState) : Option SleeperState :=
  match s.sleeper with
  | .loop => some { s with sleeper := if s.mIsRunning then .lock else .finished }
  | .lock => match s.mtx with
      | none => some { s with mtx := some .sleeper, sleeper := .test }
      | some _ => none
  | .test =>
      if s.stopRequested then some { s with sleeper := .unlock }
      else some { s with mtx := none, sleeper := .blocked }
  | .blocked => none
  | .woken timedOut => match s.mtx with
      -- after a timeout the predicate is not waited for
      | none => some
          { s with mtx := some .sleeper, sleeper := if timedOut then .unlock else .test }
      | some _ => none
  | .unlock => some { s with mtx := none, sleeper := .work }
  | .work => some { s with sleeper := .loop }
  | .finished => none

/-- `cv.notify_one()`. -/
def SleepPc.notified : SleepPc → SleepPc
  | .blocked => .woken false
  | pc => pc

/-- The destructor. `wakeFirst` says whether it calls `wakeup` before it clears the flag. -/
def wakeStep (wakeFirst : Bool) (s : SleeperState) : Option SleeperState :=
  match s.destructor with
  | .start => some { s with destructor := if wakeFirst then .lock else .clear }
  | .clear => some
      { s with mIsRunning := false, destructor := if wakeFirst then .join else .lock }
  | .lock => match s.mtx with
      | none => some { s with mtx := some .destructor, destructor := .request }
      | some _ => none
  | .request => some { s with stopRequested := true, destructor := .notify }
  | .notify => some { s with sleeper := s.sleeper.notified, destructor := .unlock }
  | .unlock => some
      { s with mtx := none, destructor := if wakeFirst then .clear else .join }
  | .join => match s.sleeper with
      | .finished => some { s with destructor := .joined }
      | _ => none
  | .joined => none

/-- The thread is woken up by something else. -/
def SleeperState.wake (s : SleeperState) (timedOut : Bool) : Option SleeperState :=
  match s.sleeper with
  | .blocked => some { s with sleeper := .woken timedOut }
  | _ => none

/-- A sleeping thread from its start on. The destructor is that of `KafkaSink` if `wakeFirst`, else
that of `TaskExecutor`. -/
def sleeperMachine (wakeFirst : Bool) : Machine SleeperState SleepAction where
  init := {}
  step s
    | .sleeper => sleepStep s
    | .destructor => wakeStep wakeFirst s
    | .timeout => s.wake true
    | .spuriousWakeup => s.wake false

/-! ### What a step does -/

/-- The thread has locked the mutex. -/
def SleepPc.hasLock : SleepPc → Bool
  | .test | .unlock => true
  | _ => false

/-- `wakeup` has locked the mutex. -/
def WakePc.hasLock : WakePc → Bool
  | .request | .notify | .unlock => true
  | _ => false

/-- The request to stop has been made. -/
def WakePc.hasRequested (wakeFirst : Bool) : WakePc → Bool
  | .notify | .unlock | .join | .joined => true
  | .clear => wakeFirst
  | _ => false

/-- The flag has been cleared. -/
def WakePc.hasCleared (wakeFirst : Bool) : WakePc → Bool
  | .start | .clear => false
  | .lock | .request | .notify | .unlock => !wakeFirst
  | .join | .joined => true

def SleeperState.hasLock (s : SleeperState) : SleepUser → Bool
  | .sleeper => s.sleeper.hasLock
  | .destructor => s.destructor.hasLock

variable {wakeFirst : Bool} {s t : SleeperState}

/-- What a step of the thread does to the mutex, and what it leaves alone. -/
structure SleepEffect (s t : SleeperState) : Prop where
  mutex : Mutex.StepBy .sleeper s.mtx s.sleeper.hasLock t.mtx t.sleeper.hasLock
  destructor : t.destructor = s.destructor
  mIsRunning : t.mIsRunning = s.mIsRunning
  stopRequested : t.stopRequested = s.stopRequested
  /-- The thread does not go to sleep when it has been asked to stop. -/
  blocked : t.sleeper = .blocked → s.stopRequested = false

theorem sleepStep_effect (hstep : sleepStep s = some t) : SleepEffect s t := by
  unfold sleepStep at hstep
  cases hpc : s.sleeper with
  | loop =>
      obtain rfl : _ = t := by simpa [hpc] using hstep
      refine ⟨?_, rfl, rfl, rfl, ?_⟩
      · rw [hpc]
        dsimp only
        split <;> exact .keep
      · dsimp only
        split <;> simp
  | lock =>
      cases hmtx : s.mtx with
      | some u => simp [hpc, hmtx] at hstep
      | none =>
          obtain rfl : _ = t := by simpa [hpc, hmtx] using hstep
          exact ⟨.lock hmtx, rfl, rfl, rfl, by simp⟩
  | test =>
      cases hstop : s.stopRequested with
      | true =>
          obtain rfl : _ = t := by simpa [hpc, hstop] using hstep
          exact ⟨by rw [hpc]; exact .keep, rfl, rfl, hstop.symm, by simp⟩
      | false =>
          obtain rfl : _ = t := by simpa [hpc, hstop] using hstep
          exact ⟨.unlock (by rw [hpc]; rfl), rfl, rfl, hstop.symm, fun _ => hstop⟩
  | woken timedOut =>
      cases hmtx : s.mtx with
      | some u => simp [hpc, hmtx] at hstep
      | none =>
          obtain rfl : _ = t := by simpa [hpc, hmtx] using hstep
          cases timedOut with
          | true => exact ⟨.lock hmtx, rfl, rfl, rfl, by simp⟩
          | false => exact ⟨.lock hmtx, rfl, rfl, rfl, by simp⟩
  | unlock =>
      obtain rfl : _ = t := by simpa [hpc] using hstep
      exact ⟨.unlock (by rw [hpc]; rfl), rfl, rfl, rfl, by simp⟩
  | work =>
      obtain rfl : _ = t := by simpa [hpc] using hstep
      exact ⟨by rw [hpc]; exact .keep, rfl, rfl, rfl, by simp⟩
  | blocked | finished => simp [hpc] at hstep

/-! ### When the thread is blocked -/

/-- The thread is blocked only as long as nothing has been requested or the notification is still to
come. -/
structure SleeperState.Awake (wakeFirst : Bool) (s : SleeperState) : Prop where
  owned : Mutex.Owned s.mtx s.hasLock
  cleared : s.mIsRunning = !s.destructor.hasCleared wakeFirst
  requested : s.destructor.hasRequested wakeFirst = true → s.stopRequested = true
  blocked : s.sleeper = .blocked → s.stopRequested = true → s.destructor = .notify

theorem SleepPc.hasLock_notified (pc : SleepPc) : pc.notified.hasLock = pc.hasLock := by
  cases pc <;> rfl

theorem SleepPc.notified_ne_blocked (pc : SleepPc) : pc.notified ≠ .blocked := by
  cases pc <;> simp [SleepPc.notified]

theorem awake_sleep (hs : s.Awake wakeFirst) (hstep : sleepStep s = some t) :
    t.Awake wakeFirst := by
  obtain ⟨hmutex, hdestructor, hrunning, hstop, hblocked⟩ := sleepStep_effect hstep
  refine ⟨hs.owned.step (w := .sleeper) hmutex ?_, ?_, ?_, fun hpc htrue => ?_⟩
  · rintro (_ | _) hne
    · exact absurd rfl hne
    · simp only [SleeperState.hasLock, hdestructor]
  · rw [hrunning, hdestructor]
    exact hs.cleared
  · rw [hdestructor, hstop]
    exact hs.requested
  · rw [hstop, hblocked hpc] at htrue
    contradiction

/-- A step of the destructor. -/
theorem SleeperState.Awake.destructorTo (hs : s.Awake wakeFirst) {mtx : Option SleepUser}
    {stopRequested mIsRunning : Bool} {sleeper : SleepPc} {pc : WakePc}
    (hmutex : Mutex.StepBy .destructor s.mtx s.destructor.hasLock mtx pc.hasLock)
    (hsleeper : sleeper.hasLock = s.sleeper.hasLock)
    (hcleared : mIsRunning = !pc.hasCleared wakeFirst)
    (hrequested : pc.hasRequested wakeFirst = true → stopRequested = true)
    (hblocked : sleeper = .blocked → stopRequested = true → pc = .notify) :
    SleeperState.Awake wakeFirst
      { mtx, stopRequested, mIsRunning, sleeper, destructor := pc } := by
  refine ⟨hs.owned.step (w := .destructor) hmutex ?_, hcleared, hrequested, hblocked⟩
  rintro (_ | _) hne
  · exact hsleeper
  · exact absurd rfl hne

theorem awake_wake (hs : s.Awake wakeFirst) (hstep : wakeStep wakeFirst s = some t) :
    t.Awake wakeFirst := by
  have hcleared := hs.cleared
  have hrequested := hs.requested
  -- a thread that is blocked is notified next
  have hnot (hne : s.destructor ≠ .notify) : s.sleeper = .blocked → s.stopRequested ≠ true :=
    fun hblocked hstop => hne (hs.blocked hblocked hstop)
  unfold wakeStep at hstep
  cases hpc : s.destructor with
  | start =>
      obtain rfl : _ = t := by simpa [hpc] using hstep
      rw [hpc] at hcleared
      refine hs.destructorTo ?_ rfl ?_ ?_ fun h h' => absurd h' (hnot (by simp [hpc]) h)
      · rw [hpc]
        cases wakeFirst <;> exact .keep
      · cases wakeFirst <;> exact hcleared
      · cases wakeFirst <;> simp [WakePc.hasRequested]
  | clear =>
      obtain rfl : _ = t := by simpa [hpc] using hstep
      rw [hpc] at hrequested
      refine hs.destructorTo ?_ rfl ?_ ?_ fun h h' => absurd h' (hnot (by simp [hpc]) h)
      · rw [hpc]
        cases wakeFirst <;> exact .keep
      · cases wakeFirst <;> rfl
      · cases wakeFirst with
        | true => exact hrequested
        | false => simp [WakePc.hasRequested]
  | lock =>
      cases hmtx : s.mtx with
      | some u => simp [hpc, hmtx] at hstep
      | none =>
          obtain rfl : _ = t := by simpa [hpc, hmtx] using hstep
          rw [hpc] at hcleared
          exact hs.destructorTo (.lock hmtx) rfl hcleared (by simp [WakePc.hasRequested])
            fun h h' => absurd h' (hnot (by simp [hpc]) h)
  | request =>
      obtain rfl : _ = t := by simpa [hpc] using hstep
      rw [hpc] at hcleared
      exact hs.destructorTo (by rw [hpc]; exact .keep) rfl hcleared (fun _ => rfl) fun _ _ => rfl
  | notify =>
      obtain rfl : _ = t := by simpa [hpc] using hstep
      rw [hpc] at hcleared hrequested
      exact hs.destructorTo (by rw [hpc]; exact .keep) (SleepPc.hasLock_notified _) hcleared
        hrequested fun h => absurd h (SleepPc.notified_ne_blocked _)
  | unlock =>
      obtain rfl : _ = t := by simpa [hpc] using hstep
      rw [hpc] at hcleared hrequested
      refine hs.destructorTo ?_ rfl ?_ (fun _ => hrequested rfl)
        fun h h' => absurd h' (hnot (by simp [hpc]) h)
      · rw [hpc]
        cases wakeFirst <;> exact .unlock rfl
      · cases wakeFirst <;> exact hcleared
  | join =>
      cases hsleeper : s.sleeper with
      | finished =>
          obtain rfl : _ = t := by simpa [hpc, hsleeper] using hstep
          rw [hpc] at hcleared hrequested
          exact hs.destructorTo (by rw [hpc]; exact .keep) (by rw [hsleeper]) hcleared hrequested
            (by simp)
      | _ => simp [hpc, hsleeper] at hstep
  | joined => simp [hpc] at hstep

theorem wake_eq {timedOut : Bool} (hstep : s.wake timedOut = some t) :
    s.sleeper = .blocked ∧ t = { s with sleeper := .woken timedOut } := by
  unfold SleeperState.wake at hstep
  split at hstep
  · next hblocked => exact ⟨hblocked, (Option.some.inj hstep).symm⟩
  · contradiction

theorem awake_of_reachable (hs : (sleeperMachine wakeFirst).Reachable s) : s.Awake wakeFirst := by
  have hwake {s t : SleeperState} {timedOut : Bool} (hs : s.Awake wakeFirst)
      (hstep : s.wake timedOut = some t) : t.Awake wakeFirst := by
    obtain ⟨hblocked, rfl⟩ := wake_eq hstep
    refine ⟨fun u => (?_ : _ = true ↔ _), hs.cleared, hs.requested, by simp⟩
    rw [← hs.owned u]
    cases u with
    | sleeper => simp [SleeperState.hasLock, hblocked, SleepPc.hasLock]
    | destructor => rfl
  refine hs.invariant ?_ fun s a t hs hstep => ?_
  · refine ⟨fun u => ?_, rfl, by simp [sleeperMachine, WakePc.hasRequested],
      by simp [sleeperMachine]⟩
    cases u <;> simp [sleeperMachine, SleeperState.hasLock, SleepPc.hasLock, WakePc.hasLock]
  · cases a with
    | sleeper => exact awake_sleep hs hstep
    | destructor => exact awake_wake hs hstep
    | timeout => exact hwake hs hstep
    | spuriousWakeup => exact hwake hs hstep

/-! ### The end of the thread -/

/-- How far the thread is from its end, once the flag is cleared. -/
def SleepPc.rank : SleepPc → ℕ
  | .finished => 0
  | .loop => 1
  | .work => 2
  | .unlock => 3
  | .blocked => 4
  | .test => 5
  | .lock | .woken _ => 6

/-- How far the destructor is from its end. The notification makes up for what a thread that is woken
up has still to do. -/
def WakePc.rank : WakePc → ℕ
  | .joined => 0
  | .join => 1
  | .unlock => 2
  | .notify => 6
  | .request => 7
  | .lock => 8
  | .clear => 9
  | .start => 10

def SleeperState.measure (s : SleeperState) : ℕ := s.sleeper.rank + s.destructor.rank

/-- A step of one of the two threads. -/
def SleepAction.isOwn : SleepAction → Bool
  | .sleeper | .destructor => true
  | .timeout | .spuriousWakeup => false

theorem SleepPc.rank_notified_le (pc : SleepPc) : pc.notified.rank ≤ pc.rank + 2 := by
  cases pc <;> simp [SleepPc.notified, SleepPc.rank]

theorem measure_sleep (hflag : s.mIsRunning = false) (hstep : sleepStep s = some t) :
    t.measure < s.measure := by
  have hrank : t.sleeper.rank < s.sleeper.rank := by
    unfold sleepStep at hstep
    cases hpc : s.sleeper with
    | loop =>
        obtain rfl : _ = t := by simpa [hpc, hflag] using hstep
        simp [SleepPc.rank]
    | lock =>
        cases hmtx : s.mtx with
        | some u => simp [hpc, hmtx] at hstep
        | none =>
            obtain rfl : _ = t := by simpa [hpc, hmtx] using hstep
            simp [SleepPc.rank]
    | test =>
        cases hstop : s.stopRequested with
        | true =>
            obtain rfl : _ = t := by simpa [hpc, hstop] using hstep
            simp [SleepPc.rank]
        | false =>
            obtain rfl : _ = t := by simpa [hpc, hstop] using hstep
            simp [SleepPc.rank]
    | woken timedOut =>
        cases hmtx : s.mtx with
        | some u => simp [hpc, hmtx] at hstep
        | none =>
            obtain rfl : _ = t := by simpa [hpc, hmtx] using hstep
            cases timedOut <;> simp [SleepPc.rank]
    | unlock | work =>
        obtain rfl : _ = t := by simpa [hpc] using hstep
        simp [SleepPc.rank]
    | blocked | finished => simp [hpc] at hstep
  have hsame : t.destructor = s.destructor := (sleepStep_effect hstep).destructor
  rw [SleeperState.measure, SleeperState.measure, hsame]
  omega

/-- Once it has cleared the flag the destructor does not come back to that. -/
theorem measure_wake (hs : s.Awake wakeFirst) (hflag : s.mIsRunning = false)
    (hstep : wakeStep wakeFirst s = some t) :
    t.mIsRunning = false ∧ t.measure < s.measure := by
  have hcleared : s.destructor.hasCleared wakeFirst = true := by
    simpa [hflag] using hs.cleared.symm
  unfold wakeStep at hstep
  unfold SleeperState.measure
  cases hpc : s.destructor with
  | start | clear => simp [hpc, WakePc.hasCleared] at hcleared
  | lock =>
      cases hmtx : s.mtx with
      | some u => simp [hpc, hmtx] at hstep
      | none =>
          obtain rfl : _ = t := by simpa [hpc, hmtx] using hstep
          simp [hflag, WakePc.rank]
  | request =>
      obtain rfl : _ = t := by simpa [hpc] using hstep
      simp [hflag, WakePc.rank]
  | notify =>
      obtain rfl : _ = t := by simpa [hpc] using hstep
      have hle := s.sleeper.rank_notified_le
      simp only [WakePc.rank]
      exact ⟨hflag, by omega⟩
  | unlock =>
      cases wakeFirst with
      | true => simp [hpc, WakePc.hasCleared] at hcleared
      | false =>
          obtain rfl : _ = t := by simpa [hpc] using hstep
          simp [hflag, WakePc.rank]
  | join =>
      cases hsleeper : s.sleeper with
      | finished =>
          obtain rfl : _ = t := by simpa [hpc, hsleeper] using hstep
          simp [hflag, WakePc.rank]
      | _ => simp [hpc, hsleeper] at hstep
  | joined => simp [hpc] at hstep

/-- A thread with the mutex goes on, and so does one without it that finds it free. -/
theorem exists_sleepStep (hfinished : s.sleeper ≠ .finished) (hblocked : s.sleeper ≠ .blocked)
    (hmtx : s.sleeper.hasLock = true ∨ s.mtx = none) : ∃ t, sleepStep s = some t := by
  unfold sleepStep
  cases hpc : s.sleeper with
  | finished => exact absurd hpc hfinished
  | blocked => exact absurd hpc hblocked
  | lock | woken =>
      have hfree : s.mtx = none := hmtx.resolve_left (by simp [hpc, SleepPc.hasLock])
      exact ⟨_, by simp only [hfree]; rfl⟩
  | test =>
      dsimp only
      split <;> exact ⟨_, rfl⟩
  | loop | unlock | work => exact ⟨_, rfl⟩

/-- When the destructor is not inside `wakeup`, only a thread that is blocked cannot go on. -/
theorem finished_or_blocked (hs : s.Awake wakeFirst) (hnot : s.destructor.hasLock = false)
    (hstuck : sleepStep s = none) : s.sleeper = .finished ∨ s.sleeper = .blocked := by
  by_contra hother
  push Not at hother
  have hmtx : s.sleeper.hasLock = true ∨ s.mtx = none := by
    cases hm : s.mtx with
    | none => exact .inr rfl
    | some u =>
        have hlock := (hs.owned u).mpr hm
        cases u with
        | sleeper => exact .inl hlock
        | destructor =>
            have hlock' : s.destructor.hasLock = true := hlock
            rw [hnot] at hlock'
            contradiction
  obtain ⟨t, ht⟩ := exists_sleepStep hother.1 hother.2 hmtx
  rw [hstuck] at ht
  contradiction

/-- The two threads get stuck only when both are done. -/
theorem joined_of_stuck (hs : s.Awake wakeFirst) (hsleeper : sleepStep s = none)
    (hdestructor : wakeStep wakeFirst s = none) : s.destructor = .joined := by
  have hsleeps (hnot : s.destructor.hasLock = false) : s.sleeper = .finished ∨
      s.sleeper = .blocked := finished_or_blocked hs hnot hsleeper
  unfold wakeStep at hdestructor
  cases hpc : s.destructor with
  | start | clear | request | notify | unlock => simp [hpc] at hdestructor
  | lock =>
      cases hmtx : s.mtx with
      | none => simp [hpc, hmtx] at hdestructor
      | some u =>
          have hlock := (hs.owned u).mpr hmtx
          cases u with
          | sleeper =>
              have hlock' : s.sleeper.hasLock = true := hlock
              rcases hsleeps (by rw [hpc]; rfl) with h | h
              · simp [h, SleepPc.hasLock] at hlock'
              · simp [h, SleepPc.hasLock] at hlock'
          | destructor => simp [SleeperState.hasLock, hpc, WakePc.hasLock] at hlock
  | join =>
      rcases hsleeps (by rw [hpc]; rfl) with h | h
      · simp [hpc, h] at hdestructor
      · -- nobody is blocked after the notification
        have hnotify := hs.blocked h (hs.requested (by rw [hpc]; rfl))
        rw [hpc] at hnotify
        contradiction
  | joined => rfl

/-- How far the destructor is from clearing the flag. -/
def WakePc.beforeClear (wakeFirst : Bool) : WakePc → ℕ
  | .start => 6
  | .lock => if wakeFirst then 5 else 0
  | .request => if wakeFirst then 4 else 0
  | .notify => if wakeFirst then 3 else 0
  | .unlock => if wakeFirst then 2 else 0
  | .clear => 1
  | .join | .joined => 0

/-- How long the thread keeps the mutex. -/
def SleepPc.lockRank : SleepPc → ℕ
  | .test => 2
  | .unlock => 1
  | _ => 0

def SleeperState.clearing (wakeFirst : Bool) (s : SleeperState) : ℕ :=
  3 * s.destructor.beforeClear wakeFirst + s.sleeper.lockRank

theorem SleepPc.lockRank_notified (pc : SleepPc) : pc.notified.lockRank = pc.lockRank := by
  cases pc <;> rfl

/-- A thread that has locked the mutex unlocks it after a step or two. -/
theorem exists_unlocking_step (hlock : s.sleeper.hasLock = true) :
    ∃ t, sleepStep s = some t ∧ t.clearing wakeFirst < s.clearing wakeFirst := by
  unfold sleepStep SleeperState.clearing
  cases hpc : s.sleeper with
  | test =>
      cases hstop : s.stopRequested with
      | true => exact ⟨_, rfl, by simp [SleepPc.lockRank]⟩
      | false => exact ⟨_, rfl, by simp [SleepPc.lockRank]⟩
  | unlock => exact ⟨_, rfl, by simp [SleepPc.lockRank]⟩
  | _ => simp [hpc, SleepPc.hasLock] at hlock

/-- Whatever the thread is doing, the destructor gets to clear the flag. -/
theorem exists_clearing_step (hs : s.Awake wakeFirst) : s.mIsRunning = false ∨
    ∃ a t, a.isOwn = true ∧ (sleeperMachine wakeFirst).step s a = some t ∧
      t.clearing wakeFirst < s.clearing wakeFirst := by
  have hcleared := hs.cleared
  cases hpc : s.destructor with
  | start | clear =>
      refine .inr ⟨.destructor, _, rfl,
        (show wakeStep wakeFirst s = some _ by simp only [wakeStep, hpc]; rfl), ?_⟩
      cases wakeFirst <;> simp [SleeperState.clearing, hpc, WakePc.beforeClear]
  | lock =>
      cases wakeFirst with
      | false => exact .inl (by simpa [hpc, WakePc.hasCleared] using hcleared)
      | true =>
          cases hmtx : s.mtx with
          | none =>
              refine .inr ⟨.destructor, _, rfl,
                (show wakeStep true s = some _ by simp only [wakeStep, hpc, hmtx]; rfl), ?_⟩
              simp [SleeperState.clearing, hpc, WakePc.beforeClear]
          | some u =>
              have hlock := (hs.owned u).mpr hmtx
              cases u with
              | sleeper =>
                  obtain ⟨t, ht, hlt⟩ := exists_unlocking_step hlock
                  exact .inr ⟨.sleeper, t, rfl, ht, hlt⟩
              | destructor => simp [SleeperState.hasLock, hpc, WakePc.hasLock] at hlock
  | request | notify | unlock =>
      cases wakeFirst with
      | false => exact .inl (by simpa [hpc, WakePc.hasCleared] using hcleared)
      | true =>
          refine .inr ⟨.destructor, _, rfl,
            (show wakeStep true s = some _ by simp only [wakeStep, hpc]; rfl), ?_⟩
          simp [SleeperState.clearing, hpc, WakePc.beforeClear, SleepPc.lockRank_notified]
  | join | joined => exact .inl (by simpa [hpc, WakePc.hasCleared] using hcleared)

/-- Once the flag is cleared the two threads come to an end. -/
theorem terminates_of_cleared (hs : (sleeperMachine wakeFirst).Reachable s)
    (hflag : s.mIsRunning = false) : (sleeperMachine wakeFirst).Terminates
      (fun a => a.isOwn = true) (fun t => t.destructor = .joined) s := by
  refine Machine.Terminates.of_measure (f := SleeperState.measure)
    (P := fun s => s.Awake wakeFirst ∧ s.mIsRunning = false)
    (fun s a t ha ⟨hs, hflag⟩ hstep => ?_) (fun s ⟨hs, _⟩ hstuck => ?_)
    ⟨awake_of_reachable hs, hflag⟩
  · cases a with
    | sleeper =>
        have heffect := sleepStep_effect hstep
        exact ⟨⟨awake_sleep hs hstep, heffect.mIsRunning.trans hflag⟩, measure_sleep hflag hstep⟩
    | destructor =>
        obtain ⟨hflag', hlt⟩ := measure_wake hs hflag hstep
        exact ⟨⟨awake_wake hs hstep, hflag'⟩, hlt⟩
    | timeout | spuriousWakeup => contradiction
  · exact joined_of_stuck hs (hstuck .sleeper rfl) (hstuck .destructor rfl)

/-- The destructors do not wait for a sleep to end. Not a single timeout is needed: from whatever
state the thread and the destructor are in, the two can go on until the destructor has joined the
thread; and once the destructor has cleared the flag, whether before or after its `wakeup`, the two
can only take a bounded number of steps, in whatever order, and they get stuck only when it has. -/
theorem sleeper_joined (hs : (sleeperMachine wakeFirst).Reachable s) :
    (∃ as t, (∀ a ∈ as, SleepAction.isOwn a = true) ∧
      (sleeperMachine wakeFirst).run s as = some t ∧ t.destructor = .joined) ∧
    (s.mIsRunning = false → (sleeperMachine wakeFirst).Terminates (fun a => a.isOwn = true)
      (fun t => t.destructor = .joined) s) := by
  refine ⟨?_, terminates_of_cleared hs⟩
  have hclear : ∀ s, (sleeperMachine wakeFirst).Reachable s → s.mIsRunning = false ∨
      ∃ a t, a.isOwn = true ∧ (sleeperMachine wakeFirst).step s a = some t ∧
        (sleeperMachine wakeFirst).Reachable t ∧ t.clearing wakeFirst < s.clearing wakeFirst := by
    refine fun s hs => (exists_clearing_step (awake_of_reachable hs)).imp_right ?_
    rintro ⟨a, t, ha, hstep, hlt⟩
    exact ⟨a, t, ha, hstep, hs.step hstep, hlt⟩
  -- first to the flag and then to the end
  obtain ⟨as, t, has, ht, hreach, hflag⟩ := Machine.exists_run_of_measure hclear hs
  obtain ⟨bs, u, hbs, hu, hjoined⟩ := (terminates_of_cleared hreach hflag).exists_run
  refine ⟨as ++ bs, u, fun a ha => (List.mem_append.mp ha).elim (has a) (hbs a), ?_, hjoined⟩
  rw [Machine.run_append, ht, Option.bind_some, hu]

/-- The thread of a `KafkaSink` is asleep when the destructor of the sink starts. -/
def asleepThenDestroyed : List SleepAction :=
  [.sleeper, .sleeper, .sleeper, .destructor, .destructor]

/-- Without a timeout it is joined. -/
theorem sleeper_joined_asleepThenDestroyed :
    ∃ s as t, (sleeperMachine true).run {} asleepThenDestroyed = some s ∧
      s.sleeper = .blocked ∧ (∀ a ∈ as, SleepAction.isOwn a = true) ∧
      (sleeperMachine true).run s as = some t ∧ t.destructor = .joined := by
  have hrun : (sleeperMachine true).run {} asleepThenDestroyed = some _ := rfl
  obtain ⟨as, t, has, ht, hjoined⟩ := (sleeper_joined ⟨_, hrun⟩).1
  exact ⟨_, as, t, hrun, rfl, has, ht, hjoined⟩

end Hound
