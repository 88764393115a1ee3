import Hound.Pipeline.Closing
import Hound.Pipeline.SinkTable

/-!
# Closing a sink in order

`~KafkaSink` first joins the clean thread, which may wait for the lock of a call of `MakeFlow`, and
then the threads of `LoopTask`. The clean thread always gets to its end. From then on the sink can
take the steps by which the rest of it is closed in order, so that no task loses its model and all
that have been added finish.

* `exists_cleanTask_finished` : the clean thread gets to its end.
* `sink_closesInOrder` : `~KafkaSink` returns, and no task has lost its model or is left behind.
-/

namespace Hound

variable {μ : Type} [DecidableEq μ] {n : ℕ} {α : Type} {opt : CaptureOption}
  {enc : SinkEncoder α n} {s t : SinkState μ n α}

/-! ### The rest of the sink -/

theorem drain_of_sink (hs : (sinkMachine opt enc μ).Reachable s) :
    (drainMachine opt false (TableUser μ) n).Reachable s.toDrainState := by
  -- whoever is in the table takes a step of the queue or none that the rest of the sink sees
  refine hs.map (f := SinkState.toDrainState) rfl fun s a t hstep => ?_
  cases sinkStep_effect hstep with
  | takeMerge _ _ _ _ d _ _ _ hd | appendMerge _ _ _ d _ hd | takeClean _ _ _ _ d _ _ _ _ hd
    | appendClean _ _ d _ hd | publish _ d _ hd | drain _ d hd =>
      exact ⟨some _, drainStep_of_kafkaSinkStep hd⟩
  | _ => exact ⟨none, rfl⟩

/-- A model is deleted only when none of the tasks of its thread is busy. -/
def DeletesUnused (s : SinkState μ n α) (a : SinkAction μ n) : Prop :=
  ∀ b, a = .drain b → DestroysUnused s.toDrainState b

/-- The step is none of a thread of `LoopTask`. -/
def SinkAction.spares (a : SinkAction μ n) : Prop := ∀ w, a ≠ .drain (.thread w)

omit [DecidableEq μ] in
theorem SinkAction.spares.deletesUnused {a : SinkAction μ n} (ha : a.spares) :
    DeletesUnused s a := by
  rintro b rfl w rfl
  exact absurd rfl (ha w)

/-- What stays true while the sink is closed in order. -/
structure SinkState.Closing (opt : CaptureOption) (enc : SinkEncoder α n) (s : SinkState μ n α) :
    Prop where
  reachable : (sinkMachine opt enc μ).Reachable s
  guarded : s.toDrainState.Guarded
  started : s.owner ≠ .start

theorem guarded_sinkStep {a : SinkAction μ n} (hs : s.toDrainState.Guarded)
    (ha : DeletesUnused s a) (hstep : sinkStep opt enc s a = some t) :
    t.toDrainState.Guarded := by
  have hdrain {b : DrainAction (TableUser μ) n} {d : DrainState (TableUser μ) n}
      (hd : kafkaSinkStep opt s.toDrainState b = some d) (hb : DestroysUnused s.toDrainState b) :
      d.Guarded := guarded_step hs hb (drainStep_of_kafkaSinkStep hd)
  cases sinkStep_effect hstep with
  | takeMerge _ _ _ _ d _ _ _ hd | appendMerge _ _ _ d _ hd | takeClean _ _ _ _ d _ _ _ _ hd
    | appendClean _ _ d _ hd =>
      -- `enqueue` deletes no model
      exact hdrain hd fun w hw => nomatch hw
  | publish _ d _ hd | drain _ d hd => exact hdrain hd (ha _ rfl)
  | _ => exact hs

theorem started_sinkStep {a : SinkAction μ n} (hs : s.owner ≠ .start)
    (hstep : sinkStep opt enc s a = some t) : t.owner ≠ .start := by
  cases sinkStep_effect hstep with
  | takeMerge _ _ _ _ d _ _ _ hd | appendMerge _ _ _ d _ hd | takeClean _ _ _ _ d _ _ _ _ hd
    | appendClean _ _ d _ hd | publish _ d _ hd | drain _ d hd =>
      exact owner_ne_start_step hs (drainStep_of_kafkaSinkStep hd)
  | _ => exact hs

theorem SinkState.Closing.step {a : SinkAction μ n} (hs : s.Closing opt enc)
    (ha : DeletesUnused s a) (hstep : sinkStep opt enc s a = some t) : t.Closing opt enc where
  reachable := hs.reachable.step hstep
  guarded := guarded_sinkStep hs.guarded ha hstep
  started := started_sinkStep hs.started hstep

theorem SinkState.Closing.later (hs : s.Closing opt enc)
    (h : (sinkMachine opt enc μ).LaterBy SinkAction.spares s t) : t.Closing opt enc :=
  h.stable hs fun _ _ _ hs ha hstep => hs.step ha.deletesUnused hstep

/-! ### The clean thread -/

/-- Whoever has locked the mutex unlocks it. -/
theorem exists_unlock (hmin : 1 ≤ opt.minPackets.toInt) (hs : s.Closing opt enc) {u : TableUser μ}
    (howner : s.mtxAccessToFlowTable = some u) :
    ∃ t, (sinkMachine opt enc μ).LaterBy SinkAction.spares s t ∧ t.mtxAccessToFlowTable = none ∧
      (u = .clean → t.cleanTask = .loop) ∧ (u ≠ .clean → t.cleanTask = s.cleanTask) := by
  obtain ⟨f, m, -, h⟩ := exists_flowReachable hmin hs.reachable
  obtain ⟨k, t, hrun, hfree, -, hclean⟩ := exists_run_unlock hs.reachable howner h
  refine ⟨t, ⟨List.replicate k u.action, fun a ha w => ?_, hrun⟩, hfree, hclean⟩
  obtain rfl := List.eq_of_mem_replicate ha
  cases u <;> nofun

/-- At the start of its loop it finds `mIsRunning` cleared. -/
theorem exists_finished_of_loop (hs : s.Closing opt enc) (hpc : s.cleanTask = .loop) :
    ∃ t, (sinkMachine opt enc μ).LaterBy SinkAction.spares s t ∧ t.cleanTask = .finished := by
  have hstop : s.isRunning = false :=
    (joined_of_reachable (drain_of_sink hs.reachable)).stopped hs.started
  refine ⟨{ s with cleanTask := .finished }, .single (a := .clean) nofun ?_, rfl⟩
  show cleanTaskStep opt s = _
  simp [cleanTaskStep, hpc, hstop]

theorem exists_finished_of_inside (hmin : 1 ≤ opt.minPackets.toInt) (hs : s.Closing opt enc)
    (howner : s.mtxAccessToFlowTable = some .clean) :
    ∃ t, (sinkMachine opt enc μ).LaterBy SinkAction.spares s t ∧ t.cleanTask = .finished := by
  obtain ⟨u, hsu, -, hloop, -⟩ := exists_unlock hmin hs howner
  obtain ⟨t, hut, ht⟩ := exists_finished_of_loop (hs.later hsu) (hloop rfl)
  exact ⟨t, hsu.trans hut, ht⟩

theorem exists_finished_of_lock (hmin : 1 ≤ opt.minPackets.toInt) (hs : s.Closing opt enc)
    (hpc : s.cleanTask = .lock) :
    ∃ t, (sinkMachine opt enc μ).LaterBy SinkAction.spares s t ∧ t.cleanTask = .finished := by
  -- when the mutex is free, there is one more pass
  have hpass {s : SinkState μ n α} (hs : s.Closing opt enc) (hpc : s.cleanTask = .lock)
      (hfree : s.mtxAccessToFlowTable = none) :
      ∃ t, (sinkMachine opt enc μ).LaterBy SinkAction.spares s t ∧ t.cleanTask = .finished := by
    obtain ⟨u, hsu, hu⟩ : ∃ u, (sinkMachine opt enc μ).LaterBy SinkAction.spares s u ∧
        u.mtxAccessToFlowTable = some .clean := by
      refine ⟨{ s with
        cleanTask := .visit (fun _ => 0) s.flowTable.mFlowTable.begin?
        mtxAccessToFlowTable := some .clean },
        .single (a := .lockClean fun _ => 0) nofun ?_, rfl⟩
      simp [sinkMachine, sinkStep, hpc, hfree]
    obtain ⟨t, hut, ht⟩ := exists_finished_of_inside hmin (hs.later hsu) hu
    exact ⟨t, hsu.trans hut, ht⟩
  cases howner : s.mtxAccessToFlowTable with
  | none => exact hpass hs hpc howner
  | some u =>
      -- a call of `MakeFlow` has locked it
      have hu : u ≠ .clean := by
        rintro rfl
        have hinside : s.cleanTask.inside = true :=
          ((exclusive_of_reachable hs.reachable).owned .clean).mpr howner
        rw [hpc] at hinside
        contradiction
      obtain ⟨v, hsv, hfree, -, hkeep⟩ := exists_unlock hmin hs howner
      obtain ⟨t, hvt, ht⟩ := hpass (hs.later hsv) ((hkeep hu).trans hpc) hfree
      exact ⟨t, hsv.trans hvt, ht⟩

/-- The clean thread gets to its end, wherever it is. -/
theorem exists_cleanTask_finished (hmin : 1 ≤ opt.minPackets.toInt) (hs : s.Closing opt enc) :
    ∃ t, (sinkMachine opt enc μ).LaterBy SinkAction.spares s t ∧ t.cleanTask = .finished := by
  have hinside (h : s.cleanTask.inside = true) : s.mtxAccessToFlowTable = some .clean :=
    ((exclusive_of_reachable hs.reachable).owned .clean).mp h
  cases hpc : s.cleanTask with
  | loop => exact exists_finished_of_loop hs hpc
  | sleep =>
      have hwake : (sinkMachine opt enc μ).LaterBy SinkAction.spares s
          { s with cleanTask := .lock } := by
        refine .single (a := .clean) nofun ?_
        show cleanTaskStep opt s = _
        simp [cleanTaskStep, hpc]
      obtain ⟨t, hlater, ht⟩ := exists_finished_of_lock hmin (hs.later hwake) rfl
      exact ⟨t, hwake.trans hlater, ht⟩
  | lock => exact exists_finished_of_lock hmin hs hpc
  | visit | enqueue => exact exists_finished_of_inside hmin hs (hinside (by rw [hpc]; rfl))
  | finished => exact ⟨s, .refl s, hpc⟩

/-! ### The destructor -/

/-- Once the clean thread has ended, the sink takes all steps that close the rest of it in order. -/
theorem exists_sinkStep_of_ordered {a : DrainAction (TableUser μ) n}
    {d : DrainState (TableUser μ) n} (hclean : s.cleanTask = .finished)
    (ha : ClosesInOrder s.toDrainState a) (hstep : drainStep opt false s.toDrainState a = some d) :
    ∃ t, sinkStep opt enc s (.drain a) = some t ∧ t.toDrainState = d ∧
      t.cleanTask = .finished := by
  have hkafka := kafkaSinkStep_of_drainStep ha.closing hstep
  have hdrain : s.drainStep opt a = some { s with toDrainState := d } :=
    Option.map_eq_some_iff.mpr ⟨d, hkafka, rfl⟩
  cases a with
  | load | append | stop => nomatch ha.closing
  | thread w => exact ⟨_, hdrain, rfl, hclean⟩
  | owner =>
      refine ⟨{ s with toDrainState := d }, ?_, rfl, hclean⟩
      simp only [sinkStep]
      split
      · exact hdrain
      · -- the join of `mCleanTask` would wait for its end
        next hne => exact absurd hclean hne
      · exact hdrain
  | executor a =>
      cases a with
      | async c =>
          cases hasync : s.mTaskExecutor.async c with
          | running =>
              -- the model of the task is alive
              refine ⟨{ s with
                published := s.published ++
                  (s.batch c).zip (enc.sent c (s.flowTable.flowsAt (s.batch c)))
                toDrainState := d }, ?_, rfl, hclean⟩
              simp only [sinkStep, hasync, SinkState.publish, ha.alive c rfl, if_true,
                Option.bind_some]
              exact Option.map_eq_some_iff.mpr ⟨d, hkafka, rfl⟩
          | notLaunched | launched | finished =>
              refine ⟨{ s with toDrainState := d }, ?_, rfl, hclean⟩
              simp only [sinkStep, hasync]
              exact hdrain
      | _ => exact ⟨_, hdrain, rfl, hclean⟩

/-- The destructor can start. -/
theorem exists_sink_start (opt : CaptureOption) (enc : SinkEncoder α n) (s : SinkState μ n α) :
    ∃ t, (sinkMachine opt enc μ).LaterBy SinkAction.spares s t ∧ t.owner ≠ .start := by
  by_cases howner : s.owner = .start
  · refine ⟨{ s with isRunning := false, owner := .join 0 },
      .single (a := .drain .owner) nofun ?_, nofun⟩
    simp [sinkMachine, sinkStep, SinkState.drainStep, kafkaSinkStep, kafkaSinkDestructorStep,
      ownerStep, howner]
  · exact ⟨s, .refl s, howner⟩

/-- So the destructor can return. -/
theorem exists_rest_run (hcpus : opt.numCpus ≠ 0) (hs : s.Closing opt enc)
    (hclean : s.cleanTask = .finished) :
    ∃ as t, (sinkMachine opt enc μ).StepsMeet DeletesUnused s as ∧
      (sinkMachine opt enc μ).run s as = some t ∧ t.owner = .returned := by
  have hdrain : s.toDrainState.Closing opt false :=
    ⟨drain_of_sink hs.reachable, hs.guarded, hs.started⟩
  obtain ⟨as, d, has, hd, -, hreturned⟩ := exists_ordered_run hcpus hdrain
  have hlift : ∃ t, (sinkMachine opt enc μ).StepsMeet DeletesUnused s (as.map .drain) ∧
      (sinkMachine opt enc μ).run s (as.map .drain) = some t ∧ t.toDrainState = d := by
    refine Machine.StepsMeet.lift (P := fun s => s.cleanTask = .finished) ?_ has hclean hd
    intro u a d hclean ha hstep
    refine ⟨fun b hb => ?_, exists_sinkStep_of_ordered hclean ha hstep⟩
    obtain rfl := SinkAction.drain.inj hb
    exact ha.destroysUnused
  obtain ⟨t, hmeet, hrun, rfl⟩ := hlift
  exact ⟨as.map .drain, t, hmeet, hrun, hreturned⟩

/-- From every state in which no task that is queued, popped, launched or running has lost its
model, `~KafkaSink` can return without a task ever losing it: it joins the clean thread, whoever has
locked the flow table, and in the end all tasks that were added have finished. -/
theorem sink_closesInOrder (hmin : 1 ≤ opt.minPackets.toInt) (hcpus : opt.numCpus ≠ 0)
    (hs : (sinkMachine opt enc μ).Reachable s)
    (halive : ∀ c, s.mTaskExecutor.Busy c → s.alive c.1 = true) :
    ∃ as t, (sinkMachine opt enc μ).run s as = some t ∧
      (sinkMachine opt enc μ).Throughout (fun s => s.toDrainState.Guarded) s as ∧
      t.owner = .returned ∧ ∀ c, ¬t.mTaskExecutor.Busy c := by
  have hguarded : s.toDrainState.Guarded := ⟨alive_eq_of_reachable (drain_of_sink hs), halive⟩
  -- the destructor starts, and the clean thread ends
  obtain ⟨u, hsu, hstarted⟩ := exists_sink_start opt enc s
  have hguardedu : u.toDrainState.Guarded :=
    hsu.stable (P := fun s => s.toDrainState.Guarded) hguarded
      fun _ _ _ hs ha hstep => guarded_sinkStep hs ha.deletesUnused hstep
  have hclosing : u.Closing opt enc := ⟨hs.later hsu.later, hguardedu, hstarted⟩
  obtain ⟨v, huv, hclean⟩ := exists_cleanTask_finished hmin hclosing
  have hclosing' := hclosing.later huv
  obtain ⟨as, has, hv⟩ := hsu.trans huv
  have hmeet : (sinkMachine opt enc μ).StepsMeet DeletesUnused s as :=
    Machine.StepsMeet.of_forall_mem (fun _ _ ha => ha.deletesUnused) has
  -- the rest of the sink is closed in order
  obtain ⟨bs, t, hmeet', ht, hreturned⟩ := exists_rest_run hcpus hclosing' hclean
  have hrun : (sinkMachine opt enc μ).run s (as ++ bs) = some t := by
    rw [Machine.run_append, hv, Option.bind_some, ht]
  have hthroughout : (sinkMachine opt enc μ).Throughout (fun s => s.toDrainState.Guarded) s
      (as ++ bs) := by
    refine Machine.StepsMeet.throughout (I := fun s => s.toDrainState.Guarded) ?_ (fun _ hs => hs)
      _ hs (hmeet.append hv hmeet') hguarded
    exact fun _ _ _ _ hs ha hstep => guarded_sinkStep hs ha hstep
  refine ⟨as ++ bs, t, hrun, hthroughout, hreturned, fun c hc => ?_⟩
  -- the threads have been joined, and so the models have been deleted
  have hend : t.toDrainState.Guarded :=
    Machine.Throughout.last (P := fun s => s.toDrainState.Guarded) _ hthroughout hrun
  have hfinished : t.thread c.1 = .finished :=
    (joined_of_reachable (drain_of_sink (hs.later ⟨_, hrun⟩))).finished c.1 (by rw [hreturned]; rfl)
  have halive := hend.busy c hc
  rw [hend.alive_eq, hfinished] at halive
  contradiction

/-- The thread of a GPU has added a task for a flow, and the clean thread waits for the next call of
`MakeFlow`. -/
def lockAwaited (w : Fin n) : List (SinkAction Unit n) :=
  List.flatten
    [[.lockMerge () (List.replicate 6 (Frame.accepted { minPackets := 5 } 60 0 0 udpFrame))],
      List.replicate 8 (.merge ()), List.replicate 12 (.drain (.thread w)), [.lockMerge () []],
      List.replicate 2 .clean]

theorem awaited_run_lockAwaited :
    ((sinkMachine { minPackets := 5 } inOrderEncoder Unit).run {} (lockAwaited 0)).map (fun s =>
      (s.mtxAccessToFlowTable, s.cleanTask, s.mTaskExecutor.mTasks.length, s.alive 0)) =
        some (some (.makeFlow ()), .lock, 1, true) := by
  rfl

/-- The task still finishes. -/
theorem sink_closesInOrder_lockAwaited :
    ∃ s as t,
      (sinkMachine { minPackets := 5 } inOrderEncoder Unit).run {} (lockAwaited 0) = some s ∧
      s.mTaskExecutor.mTasks.length = 1 ∧
      (sinkMachine { minPackets := 5 } inOrderEncoder Unit).run s as = some t ∧
      t.owner = .returned ∧ ∀ c, ¬t.mTaskExecutor.Busy c := by
  obtain ⟨s, hrun, hs⟩ := Option.map_eq_some_iff.mp awaited_run_lockAwaited
  simp only [Prod.mk.injEq] at hs
  obtain ⟨-, -, htasks, halive⟩ := hs
  obtain ⟨as, t, ht, -, hreturned, hidle⟩ :=
    sink_closesInOrder (by decide) (by decide) ⟨lockAwaited 0, hrun⟩ fun c _ => by
      rw [Subsingleton.elim c.1 0, halive]
  exact ⟨s, as, t, hrun, htasks, ht, hreturned, hidle⟩

end Hound
