import Hound.Pipeline.Accounting

/-!
# What stopping the capture leaves behind

When the flag is cleared packets may be in either half of the double buffer, with a `consumer_job`,
in a queued task, or in one that runs. A `consumer_job` leaves its loop without another read, and
`Run` leaves its loop with tasks in the queue.

* `DrainState.Processed` : a packet has been passed to one call of `MakeFlow`.
* `LeavesNothing` : the steps that leave nothing behind.
* `processed_iff` : all packets captured before the flag is cleared are processed exactly in the
  runs of such steps.
-/

namespace Hound

variable {n : ℕ} {opt : CaptureOption} {s t : DrainState Unit n}

/-- The packet has been passed to exactly one call of `MakeFlow`, and it is neither in the double
buffer nor in the batch of another task. -/
def DrainState.Processed (s : DrainState Unit n) (i : ℕ) : Prop :=
  (∃ c, s.mTaskExecutor.invocations c = 1 ∧ (s.batch c).count i = 1 ∧
    ∀ c', i ∈ s.batch c' → c' = c) ∧
  ∀ k, i ∉ s.doubleBufferQueue.queues k

/-- The step clears `is_running`. -/
def ClearsFlag (s : DrainState Unit n) (a : DrainAction Unit n) : Prop :=
  a = .stop ∨ a = .owner ∧ s.owner = .start

/-- Every `consumer_job` has left its loop. -/
def DrainState.AllLeft (s : DrainState Unit n) : Prop := ∀ w, (s.thread w).left = true

/-- Packets are appended only while some `consumer_job` is in its loop, the last one to leave its
loop leaves both halves of the double buffer empty, and `~TaskExecutor` clears its flag when no
task is queued but one that `Run` is about to pop. -/
structure LeavesNothing (s : DrainState Unit n) (a : DrainAction Unit n) : Prop where
  appended : ∀ p, a = .append p → ¬s.AllLeft
  left : ∀ w, a = .thread w → s.thread w = .loop → s.isRunning = false →
    (∀ w', w' ≠ w → (s.thread w').left = true) → ∀ k, s.doubleBufferQueue.queues k = []
  stopped : a = .owner → s.owner = .destroyExecutor → s.mTaskExecutor.destructor = .start →
    s.mTaskExecutor.remaining = []

/-! ### The capture thread -/

/-- `pcap_loop` is over when the destructor starts. -/
def DrainState.CaptureOver (s : DrainState Unit n) : Prop :=
  s.owner ≠ .start → s.packetsAt .loaded = []

theorem captureOver_step {a : DrainAction Unit n} (hs : s.CaptureOver)
    (hstep : liveParserStep opt s a = some t) : t.CaptureOver := by
  intro howner
  cases drainStep_effect (drainStep_of_liveParserStep hstep) with
  | load p q hq => exact absurd (liveParserStep_load hstep) howner
  | append p q hq =>
      obtain ⟨k, i, -, rfl⟩ := queueStep_append.mp hq
      simp [DrainState.packetsAt, ProducerPc.items]
  | read w b q hpc hb hq =>
      rcases hb with rfl | rfl
      · obtain ⟨-, rfl⟩ := queueStep_readLoad.mp hq
        exact hs howner
      · obtain ⟨k, -, rfl⟩ := queueStep_readStore.mp hq
        exact hs howner
  | swap w k q _ _ hq =>
      obtain ⟨k', -, rfl⟩ := queueStep_readSwap.mp hq
      exact hs howner
  | ownerStop hpc =>
      show (s.doubleBufferQueue.producer ()).items = []
      rw [liveParserStep_owner hstep hpc]
      rfl
  | join i _ hpc | joined i _ hpc | «return» hpc => exact hs (by simp [hpc])
  | goto | construct | call | destroy | stop | executor => exact hs howner

theorem captureOver_of_reachable (hs : (liveParserMachine opt n).Reachable s) :
    s.CaptureOver :=
  hs.invariant (fun h => absurd rfl h) fun _ _ _ hover hstep => captureOver_step hover hstep

/-- What has been appended when the destructor starts is all there ever is. -/
theorem appended_step {a : DrainAction Unit n} (hover : s.CaptureOver) (howner : s.owner ≠ .start)
    (hstep : liveParserStep opt s a = some t) :
    t.owner ≠ .start ∧ t.doubleBufferQueue.appended = s.doubleBufferQueue.appended := by
  cases drainStep_effect (drainStep_of_liveParserStep hstep) with
  | load p q hq => exact absurd (liveParserStep_load hstep) howner
  | append p q hq =>
      obtain ⟨k, i, hloaded, -⟩ := queueStep_append.mp hq
      have hnone := hover howner
      rw [DrainState.packetsAt, hloaded] at hnone
      exact absurd hnone (List.cons_ne_nil _ _)
  | read w b q hpc hb hq =>
      rcases hb with rfl | rfl
      · obtain ⟨-, rfl⟩ := queueStep_readLoad.mp hq
        exact ⟨howner, rfl⟩
      · obtain ⟨k, -, rfl⟩ := queueStep_readStore.mp hq
        exact ⟨howner, rfl⟩
  | swap w k q _ _ hq =>
      obtain ⟨k', -, rfl⟩ := queueStep_readSwap.mp hq
      exact ⟨howner, rfl⟩
  | ownerStop | join | joined | «return» => exact ⟨by simp, rfl⟩
  | goto | construct | call | destroy | stop | executor => exact ⟨howner, rfl⟩

/-- The destructor starts by clearing the flag. -/
theorem start_step {a : DrainAction Unit n} (hstart : s.owner = .start)
    (hstep : liveParserStep opt s a = some t) (howner : t.owner ≠ .start) :
    a = .owner ∧ t.doubleBufferQueue.appended = s.doubleBufferQueue.appended := by
  cases drainStep_effect (drainStep_of_liveParserStep hstep) with
  | ownerStop => exact ⟨rfl, rfl⟩
  | join i _ hpc | joined i _ hpc | «return» hpc => exact absurd (hstart.symm.trans hpc) nofun
  | _ => exact absurd hstart howner

/-! ### What is left behind -/

/-- Packets are left in the double buffer that nobody will read, or in tasks that nobody will
run. -/
def DrainState.LeftBehind (s : DrainState Unit n) : Prop :=
  (s.AllLeft ∧ ∃ k, s.doubleBufferQueue.queues k ≠ []) ∨
    s.mTaskExecutor.destructor ≠ .start ∧ s.mTaskExecutor.remaining ≠ []

/-- The step is that of the last thread to leave its loop. -/
def DrainState.LeavesLast (s : DrainState Unit n) (a : DrainAction Unit n) : Prop :=
  ∃ w, a = .thread w ∧ s.thread w = .loop ∧ s.isRunning = false ∧
    ∀ w', w' ≠ w → (s.thread w').left = true

/-- A thread that goes on leaves its loop when it finds the flag cleared there. -/
theorem allLeft_update {w : Fin n} {pc : DrainPc}
    (hthread : t.thread = Function.update s.thread w pc)
    (hleft : pc.left = (s.thread w).left ∧ (s.thread w = .loop → s.isRunning = true) ∨
      pc.left = true ∧ s.thread w = .loop ∧ s.isRunning = false) :
    t.AllLeft ↔ s.AllLeft ∨ s.LeavesLast (.thread w) := by
  have hiff : t.AllLeft ↔ pc.left = true ∧ ∀ w', w' ≠ w → (s.thread w').left = true := by
    rw [DrainState.AllLeft, hthread]
    constructor
    · intro h
      refine ⟨?_, fun w' hne => ?_⟩
      · simpa using h w
      · simpa [hne] using h w'
    · rintro ⟨hpc, hothers⟩ w'
      rcases eq_or_ne w' w with rfl | hne
      · simpa using hpc
      · simpa [hne] using hothers w' hne
  rw [hiff]
  rcases hleft with ⟨hsame, hrunning⟩ | ⟨hpc, hloop, hstopped⟩
  · constructor
    · rintro ⟨hpc, hothers⟩
      refine .inl fun w' => ?_
      rcases eq_or_ne w' w with rfl | hne
      · exact hsame ▸ hpc
      · exact hothers w' hne
    · rintro (hall | ⟨w', hw, hloop, hstopped, -⟩)
      · exact ⟨hsame ▸ hall w, fun w' _ => hall w'⟩
      · obtain rfl := DrainAction.thread.inj hw
        rw [hrunning hloop] at hstopped
        nomatch hstopped
  · constructor
    · exact fun ⟨_, hothers⟩ => .inr ⟨w, rfl, hloop, hstopped, hothers⟩
    · rintro (hall | ⟨w', hw, -, -, hothers⟩)
      · exact ⟨hpc, fun w' _ => hall w'⟩
      · obtain rfl := DrainAction.thread.inj hw
        exact ⟨hpc, hothers⟩

/-- All threads have left their loops after a step if they had before, or if the last one does
so. -/
theorem allLeft_step {a : DrainAction Unit n} (hstep : liveParserStep opt s a = some t) :
    t.AllLeft ↔ s.AllLeft ∨ s.LeavesLast a := by
  -- most steps leave all program points alone, and no thread is at the head of its loop
  have hsame (hthread : t.thread = s.thread) (hloop : ∀ w, a = .thread w → s.thread w ≠ .loop) :
      t.AllLeft ↔ s.AllLeft ∨ s.LeavesLast a := by
    rw [DrainState.AllLeft, hthread]
    exact ⟨.inl, fun h => h.resolve_right fun ⟨w, ha, hpc, _⟩ => hloop w ha hpc⟩
  cases drainStep_effect (drainStep_of_liveParserStep hstep) with
  | goto w pc _ _ _ _ _ hleft => exact allLeft_update rfl hleft
  | construct w hpc | call w _ hpc | destroy w hpc =>
      exact allLeft_update rfl (.inl ⟨by rw [hpc]; rfl, by rw [hpc]; nofun⟩)
  | swap w k q hpc => exact allLeft_update rfl (.inl ⟨by rw [hpc]; rfl, by rw [hpc]; nofun⟩)
  | read w b q hpc =>
      refine hsame rfl fun w' hw' => ?_
      obtain rfl := DrainAction.thread.inj hw'
      rw [hpc]
      nofun
  | executor act b e he hact hadd hdestructor =>
      refine hsame rfl fun w' hw' => ?_
      rcases hact with rfl | ⟨w, k, -, rfl, hpc⟩ | ⟨-, rfl, -⟩
      · nomatch hw'
      · obtain rfl := DrainAction.thread.inj hw'
        rw [hpc]
        nofun
      · nomatch hw'
  | load | append | stop | ownerStop | join | joined | «return» => exact hsame rfl nofun

/-- The double buffer is not read any more when all threads have left their loops. -/
theorem queues_step {a : DrainAction Unit n} (hstep : liveParserStep opt s a = some t)
    (hall : t.AllLeft) : (∃ k, t.doubleBufferQueue.queues k ≠ []) ↔
      (∃ k, s.doubleBufferQueue.queues k ≠ []) ∨ ∃ p, a = .append p := by
  cases drainStep_effect (drainStep_of_liveParserStep hstep) with
  | load p q hq =>
      obtain ⟨-, rfl⟩ := queueStep_load.mp hq
      simp
  | append p q hq =>
      obtain ⟨k, i, -, rfl⟩ := queueStep_append.mp hq
      refine iff_of_true ⟨k, ?_⟩ (.inr ⟨p, rfl⟩)
      simp
  | read w b q hpc hb hq =>
      rcases hb with rfl | rfl
      · obtain ⟨-, rfl⟩ := queueStep_readLoad.mp hq
        simp
      · obtain ⟨k, -, rfl⟩ := queueStep_readStore.mp hq
        simp
  | swap w k q hpc =>
      have hleft := hall w
      simp [DrainState.goto, DrainPc.left] at hleft
  | executor act b e he hact =>
      rcases hact with rfl | ⟨w, k, -, rfl, -⟩ | ⟨-, rfl, -⟩ <;> simp
  | _ => simp [DrainState.goto]

/-- What remains in the executor remains for good. -/
theorem remaining_step {a : DrainAction Unit n} (hs : (liveParserMachine opt n).Reachable s)
    (hstep : liveParserStep opt s a = some t) :
    (t.mTaskExecutor.destructor ≠ .start ∧ t.mTaskExecutor.remaining ≠ []) ↔
      (s.mTaskExecutor.destructor ≠ .start ∧ s.mTaskExecutor.remaining ≠ []) ∨
        a = .owner ∧ s.owner = .destroyExecutor ∧ s.mTaskExecutor.destructor = .start ∧
          s.mTaskExecutor.remaining ≠ [] := by
  have hdrain := drain_reachable hs
  have hjoined := joined_of_reachable hdrain
  have hsame (hexecutor : t.mTaskExecutor = s.mTaskExecutor)
      (hne : ¬(a = .owner ∧ s.owner = .destroyExecutor ∧ s.mTaskExecutor.destructor = .start)) :
      (t.mTaskExecutor.destructor ≠ .start ∧ t.mTaskExecutor.remaining ≠ []) ↔
        (s.mTaskExecutor.destructor ≠ .start ∧ s.mTaskExecutor.remaining ≠ []) ∨
          a = .owner ∧ s.owner = .destroyExecutor ∧ s.mTaskExecutor.destructor = .start ∧
            s.mTaskExecutor.remaining ≠ [] := by
    rw [hexecutor]
    exact ⟨.inl, fun h => h.resolve_right fun h => hne ⟨h.1, h.2.1, h.2.2.1⟩⟩
  cases drainStep_effect (drainStep_of_liveParserStep hstep) with
  | ownerStop hpc | join i _ hpc | joined i _ hpc =>
      exact hsame rfl (by simp [hpc])
  | «return» hpc hreturned =>
      exact hsame rfl (by simp [hreturned])
  | executor act b e he hact hadd hdestructor =>
      by_cases hstart : s.mTaskExecutor.destructor = .start
      · have hother (hb : b ≠ .destructor) : e.destructor = .start :=
          (destructor_step he hb).trans hstart
        rcases hact with rfl | ⟨w, k, rfl, rfl, -⟩ | ⟨rfl, rfl, hpc⟩
        · simp [hstart, hother (by rintro rfl; exact hdestructor rfl)]
        · simp [hstart, hother (by simp)]
        · -- the flag of the executor is cleared
          cases destructorStep_effect he with
          | stop =>
              show (_ ∧ s.mTaskExecutor.remaining ≠ []) ↔ _
              simp [hstart, hpc]
          | _ => simp_all
      · have hdestroys := hjoined.destroyed hstart
        have hnone : ∀ c, b ≠ .addTask c := by
          rintro c rfl
          rcases hact with rfl | ⟨w, k, -, -, hpc⟩ | ⟨hb, -⟩
          · exact hadd c rfl
          · have hfinished : s.thread w = .finished :=
              hjoined.finished w (by
                  revert hdestroys
                  cases s.owner <;> simp [OwnerPc.destroys, OwnerPc.hasJoined])
            simp [hpc] at hfinished
          · simp at hb
        have hstop := (stopping_of_reachable (executor_reachable hdrain)).stopped hstart
        have hremaining : e.remaining = [] ↔ s.mTaskExecutor.remaining = [] := by
          simp only [List.eq_nil_iff_forall_not_mem, mem_remaining_of_ne hstop he hnone]
        have hstarted : e.destructor ≠ .start := by
          by_cases hb : b = .destructor
          · subst hb
            cases destructorStep_effect he with
            | stop hpc => exact absurd hpc hstart
            | _ => simp
          · rwa [destructor_step he hb]
        simp [hstarted, hstart, hremaining]
  | load | append | read | swap | goto | construct | call | destroy | stop =>
      exact hsame rfl (by simp)

/-- A step leaves something behind if something has been left behind or the step does not meet the
condition. -/
theorem leftBehind_step {a : DrainAction Unit n} (hs : (liveParserMachine opt n).Reachable s)
    (hstep : liveParserStep opt s a = some t) :
    t.LeftBehind ↔ s.LeftBehind ∨ ¬LeavesNothing s a := by
  have hall := allLeft_step hstep
  have hremaining := remaining_step hs hstep
  constructor
  · rintro (⟨hleft, hqueues⟩ | hrem)
    · rcases (queues_step hstep hleft).mp hqueues with ⟨k, hk⟩ | ⟨p, rfl⟩
      · rcases hall.mp hleft with hleft | ⟨w, rfl, hpc, hstopped, hothers⟩
        · exact .inl (.inl ⟨hleft, k, hk⟩)
        · exact .inr fun hguard => hk (hguard.left w rfl hpc hstopped hothers k)
      · rcases hall.mp hleft with hleft | ⟨w, hw, -⟩
        · exact .inr fun hguard => hguard.appended p rfl hleft
        · nomatch hw
    · rcases hremaining.mp hrem with hrem | ⟨rfl, hpc, hstart, hne⟩
      · exact .inl (.inr hrem)
      · exact .inr fun hguard => hne (hguard.stopped rfl hpc hstart)
  · rintro ((⟨hleft, hqueues⟩ | hrem) | hmiss)
    · have hleft := hall.mpr (.inl hleft)
      exact .inl ⟨hleft, (queues_step hstep hleft).mpr (.inl hqueues)⟩
    · exact .inr (hremaining.mpr (.inl hrem))
    · -- a step that leaves nothing behind meets the condition
      by_contra hnothing
      refine hmiss ⟨?_, ?_, ?_⟩
      · intro p ha hleft
        have hleft := hall.mpr (.inl hleft)
        exact hnothing (.inl ⟨hleft, (queues_step hstep hleft).mpr (.inr ⟨p, ha⟩)⟩)
      · intro w ha hpc hstopped hothers k
        have hleft := hall.mpr (.inr ⟨w, ha, hpc, hstopped, hothers⟩)
        by_contra hk
        exact hnothing (.inl ⟨hleft, (queues_step hstep hleft).mpr (.inl ⟨k, hk⟩)⟩)
      · intro ha hpc hstart
        by_contra hne
        exact hnothing (.inr (hremaining.mpr (.inr ⟨ha, hpc, hstart, hne⟩)))

/-- Exactly the runs whose steps all meet the condition leave nothing behind. -/
theorem not_leftBehind_iff {actions : List (DrainAction Unit n)}
    (hrun : (liveParserMachine opt n).run {} actions = some t) :
    ¬t.LeftBehind ↔ (liveParserMachine opt n).StepsMeet LeavesNothing {} actions := by
  constructor
  · intro hnothing
    refine Machine.StepsMeet.of_not (B := DrainState.LeftBehind) ?_ ?_ actions
      Machine.Reachable.init hrun hnothing
    · exact fun s a t hs hbad hstep => (leftBehind_step hs hstep).mpr (.inl hbad)
    · exact fun s a t hs hmiss hstep => (leftBehind_step hs hstep).mpr (.inr hmiss)
  · intro hmeet
    refine Machine.StepsMeet.run_induction (P := fun s => ¬s.LeftBehind) ?_ actions
      Machine.Reachable.init hmeet ?_ hrun
    · intro s a t hs hnothing hguard hstep hleft
      exact ((leftBehind_step hs hstep).mp hleft).elim hnothing (not_not_intro hguard)
    · rintro (⟨-, k, hk⟩ | ⟨hstart, -⟩)
      · exact hk rfl
      · exact hstart rfl

/-! ### What has been processed when the destructor returns -/

section Returned

variable (ht : (liveParserMachine opt n).Reachable t) (hreturned : t.owner = .returned)

include ht hreturned

theorem finished_of_returned (w : Fin n) : t.thread w = .finished :=
  (joined_of_reachable (drain_reachable ht)).finished w (by rw [hreturned]; rfl)

/-- Every task has been invoked once, but for those that remain. -/
theorem invocations_iff {c : Fin n × ℕ} (hc : c.2 < t.calls c.1) :
    t.mTaskExecutor.invocations c = 1 ↔ c ∉ t.mTaskExecutor.remaining := by
  have hdrain := drain_reachable ht
  have hcall : t.mTaskExecutor.addTask c = .returned := by
    refine (called_of_reachable hdrain).returned c.1 c.2 hc ?_
    rw [finished_of_returned ht hreturned]
    nofun
  exact invocations_eq_one_iff (executor_reachable hdrain)
    ((joined_of_reachable hdrain).returned hreturned) hcall

/-- The capture thread has appended all packets. -/
theorem appended_of_returned : t.doubleBufferQueue.appended = List.range t.enqueued := by
  have happended := (located_of_reachable ht).appended_eq
  rwa [captureOver_of_reachable ht (by rw [hreturned]; nofun), List.append_nil] at happended

/-- When `~LiveParser` has returned, all packets have been processed if nothing has been left
behind. -/
theorem processed_of_returned (hnothing : ¬t.LeftBehind) {i : ℕ} (hi : i < t.enqueued) :
    t.Processed i := by
  have hdrain := drain_reachable ht
  have hlocated := located_of_reachable ht
  have hfinished := finished_of_returned ht hreturned
  obtain ⟨p, hp⟩ := (hlocated.mem_iff i).mpr hi
  cases p with
  | loaded =>
      rw [captureOver_of_reachable ht (by simp [hreturned])] at hp
      exact absurd hp List.not_mem_nil
  | half k =>
      refine absurd (.inl ⟨fun w => ?_, k, List.ne_nil_of_mem hp⟩) hnothing
      rw [hfinished w]
      rfl
  | held w =>
      rw [DrainState.packetsAt, hfinished w] at hp
      exact absurd hp List.not_mem_nil
  | task c =>
      have hcalls : c.2 < t.calls c.1 := by
        by_contra hle
        rw [DrainState.packetsAt,
          (called_of_reachable hdrain).batch_eq_nil c.1 c.2 (by omega)] at hp
        exact List.not_mem_nil hp
      have hremaining : t.mTaskExecutor.remaining = [] := by
        by_contra hne
        refine hnothing (.inr ⟨?_, hne⟩)
        simp [(joined_of_reachable hdrain).returned hreturned]
      have hnodup : (t.batch c).Nodup := (hlocated.spread.sorted (.task c)).imp Nat.ne_of_lt
      refine ⟨⟨c, ?_, List.count_eq_one_of_mem hnodup hp, fun c' hc' => ?_⟩, fun k hk => ?_⟩
      · rw [invocations_iff ht hreturned hcalls, hremaining]
        exact List.not_mem_nil
      · exact Place.task.inj (hlocated.spread.unique (p := .task c') hc' hp)
      · have hplace := hlocated.spread.unique (p := .half k) hk hp
        contradiction

theorem not_leftBehind_of_processed
    (hprocessed : ∀ i ∈ t.doubleBufferQueue.appended, t.Processed i) : ¬t.LeftBehind := by
  have hlocated := located_of_reachable ht
  have hall {p i} (hp : i ∈ t.packetsAt p) : t.Processed i := by
    refine hprocessed i ?_
    rw [appended_of_returned ht hreturned, List.mem_range]
    exact (hlocated.mem_iff i).mp ⟨p, hp⟩
  rintro (⟨-, k, hk⟩ | ⟨-, hremaining⟩)
  · obtain ⟨i, hi⟩ := List.exists_mem_of_ne_nil _ hk
    exact (hall (p := .half k) hi).2 k hi
  · -- a task that remains has a packet, and has not been invoked
    have hdrain := drain_reachable ht
    have hcalled := called_of_reachable hdrain
    obtain ⟨c, hc⟩ := List.exists_mem_of_ne_nil _ hremaining
    have hcalls : c.2 < t.calls c.1 := by
      by_contra hle
      have hemplaced := (placed_of_reachable (executor_reachable hdrain)).emplaced
        (mem_pending_of_mem_remaining hc)
      rw [hcalled.notStarted c.1 c.2 (by omega)] at hemplaced
      nomatch hemplaced
    obtain ⟨i, hi⟩ := List.exists_mem_of_ne_nil _ (hcalled.batch_ne_nil c.1 c.2 hcalls)
    obtain ⟨⟨c', hinvoked, -, hunique⟩, -⟩ := hall (p := .task c) hi
    obtain rfl := hunique c hi
    exact (invocations_iff ht hreturned hcalls).mp hinvoked hc

end Returned

/-- The number of captured packets never decreases. -/
theorem enqueued_le_of_later (h : (liveParserMachine opt n).Later s t) :
    s.enqueued ≤ t.enqueued := by
  refine h.stable (P := fun u => s.enqueued ≤ u.enqueued) (Nat.le_refl _) fun u a v hu hstep => ?_
  cases drainStep_effect (drainStep_of_liveParserStep hstep) with
  | load => exact Nat.le_succ_of_le hu
  | _ => exact hu

/-- When `~LiveParser` has returned, every packet that had been enqueued when `stopCapture` or
`~LiveParser` cleared the flag has been passed to exactly one call of `MakeFlow` and is left
nowhere, if and only if all steps of the run leave nothing behind. -/
theorem processed_iff (opt : CaptureOption) (n : ℕ) {actions : List (DrainAction Unit n)}
    {t : DrainState Unit n} (hrun : (liveParserMachine opt n).run {} actions = some t)
    (hreturned : t.owner = .returned) :
    (∀ before a after s, actions = before ++ a :: after →
        (liveParserMachine opt n).run {} before = some s → ClearsFlag s a →
          ∀ i ∈ s.doubleBufferQueue.appended, t.Processed i) ↔
      (liveParserMachine opt n).StepsMeet LeavesNothing {} actions := by
  have ht : (liveParserMachine opt n).Reachable t := ⟨actions, hrun⟩
  rw [← not_leftBehind_iff hrun]
  constructor
  · intro hprocessed
    refine not_leftBehind_of_processed ht hreturned ?_
    -- nothing is appended after the destructor has cleared the flag
    obtain ⟨before, a, after, u, v, hsplit, hbefore, hstart, hstep, howner, hafter⟩ :=
      Machine.exists_step_of_run (P := fun u => u.owner ≠ .start) actions hrun
        (fun h => h rfl) (by rw [hreturned]; nofun)
    have hstart : u.owner = .start := not_not.mp hstart
    obtain ⟨rfl, hsame⟩ := start_step hstart hstep howner
    have hv : (liveParserMachine opt n).Reachable v :=
        Machine.Reachable.step ⟨before, hbefore⟩ hstep
    have happended : t.owner ≠ .start ∧
        t.doubleBufferQueue.appended = u.doubleBufferQueue.appended := by
      refine Machine.Later.stable_of_reachable (P := fun w => w.owner ≠ .start ∧
        w.doubleBufferQueue.appended = u.doubleBufferQueue.appended) ⟨after, hafter⟩ hv
        ⟨howner, hsame⟩ fun w b x hw hQ hstep => ?_
      obtain ⟨hx, hxappended⟩ := appended_step (captureOver_of_reachable hw) hQ.1 hstep
      exact ⟨hx, hxappended.trans hQ.2⟩
    rw [happended.2]
    exact hprocessed before _ after u hsplit hbefore (.inr ⟨rfl, hstart⟩)
  · intro hnothing before a after s hsplit hbefore _ i hi
    have hs : (liveParserMachine opt n).Reachable s := ⟨before, hbefore⟩
    have hlater : (liveParserMachine opt n).Later s t := by
      rw [hsplit, Machine.run_append, hbefore] at hrun
      exact ⟨a :: after, hrun⟩
    refine processed_of_returned ht hreturned hnothing ?_
    refine Nat.lt_of_lt_of_le ?_ (enqueued_le_of_later hlater)
    rw [← List.mem_range, ← (located_of_reachable hs).appended_eq]
    exact List.mem_append_left _ hi

/-- The steps from the joining of the only worker to the end of `~LiveParser`, when `Run` takes
`k` steps to leave its loop and `m` futures are left. -/
def destroyed (k m : ℕ) : List (DrainAction Unit 1) :=
  List.flatten [List.replicate 7 .owner, List.replicate k (.executor .run),
    [.owner, .executor .clean], List.replicate (m + 3) .owner]

/-- The only packet is processed, and then `Run` waits. -/
def processedIdle (w : Fin n) : List (DrainAction Unit n) :=
  List.flatten [oneTaskAdded w, taskInvoked w, [.executor (.async (w, 0))],
    List.replicate 7 (.executor .run)]

/-- The capture is stopped only then. -/
def stoppedIdle (w : Fin 1) : List (DrainAction Unit 1) :=
  processedIdle w ++ .stop :: (List.replicate 3 (.thread w) ++ destroyed 4 1)

/-- The packet has been processed. -/
theorem processed_stoppedIdle :
    ∃ t, (liveParserMachine {} 1).run {} (stoppedIdle 0) = some t ∧ t.Processed 0 := by
  have hrun : (liveParserMachine {} 1).run {} (stoppedIdle 0) = some _ := rfl
  refine ⟨_, hrun, ?_⟩
  refine (processed_iff {} 1 hrun rfl).mpr ((not_leftBehind_iff hrun).mp ?_)
    (processedIdle 0) .stop _ _ rfl rfl (.inl rfl) 0 List.mem_cons_self
  rintro (⟨-, k, hk⟩ | ⟨-, hremaining⟩)
  · rcases QueueIndex.eq_zero_or_one k with rfl | rfl <;> exact hk rfl
  · exact hremaining rfl

/-- The worker finds the double buffer empty. While it sleeps a packet is captured. -/
def capturedLate (w : Fin n) : List (DrainAction Unit n) :=
  List.replicate 7 (.thread w) ++ [.load (), .append ()]

/-- The capture is stopped before the worker wakes up, and it never looks at the packet. -/
theorem not_processed_capturedLate : ¬∀ opt n (actions : List (DrainAction Unit n)) t,
    (liveParserMachine opt n).run {} actions = some t → t.owner = .returned →
      ∀ before a after s, actions = before ++ a :: after →
        (liveParserMachine opt n).run {} before = some s → ClearsFlag s a →
          ∀ i ∈ s.doubleBufferQueue.appended, t.Processed i := by
  intro h
  have hprocessed := h {} 1
    (capturedLate 0 ++ .stop :: (List.replicate 4 (.thread 0) ++ destroyed 1 0)) _ rfl rfl
    (capturedLate 0) .stop _ _ rfl rfl (.inl rfl) 0 List.mem_cons_self
  exact hprocessed.2 1 List.mem_cons_self

end Hound
