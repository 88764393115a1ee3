import Hound.Pipeline.SinkAccounting

/-!
# What a sink sends

A task of `LoopTask` sends what it makes of its batch when it ends, and its batch is its own. So
what a sink has sent at any moment is the work of the tasks that have run, each flow once at most,
and when `~KafkaSink` has returned every flow that is in no batch of such a task is still there.

* `SinkState.Sends` : what was sent, task by task.
* `published_genuine` : every row is that of a flow of the table, with the id of the flow.
* `flows_afterDestructor` : what becomes of the flows that are never sent.
-/

namespace Hound

variable {μ : Type} [DecidableEq μ] {n : ℕ} {α : Type} {opt : CaptureOption}
  {enc : SinkEncoder α n} {s t : SinkState μ n α}

/-! ### The tasks -/

section Tasks

variable {π : Type} [DecidableEq π] {d d' : DrainState π n}

/-- A task that has finished stays so, and keeps its batch. -/
theorem finished_drainStep {sleepsFirst : Bool} {a : DrainAction π n} {c : Fin n × ℕ}
    (hplaced : d.mTaskExecutor.Placed) (hcalled : d.Called)
    (hstep : drainStep opt sleepsFirst d a = some d')
    (hc : d.mTaskExecutor.async c = .finished) :
    d'.mTaskExecutor.async c = .finished ∧ d'.batch c = d.batch c := by
  cases drainStep_effect hstep with
  | call w currentQueue hpc =>
      refine ⟨hc, Function.update_of_ne ?_ _ _⟩
      rintro rfl
      -- a call that has not been made yet has not been launched
      have hnot := hplaced (w, d.calls w)
      rw [hcalled.notStarted w _ (Nat.le_refl _), hc] at hnot
      simp [AsyncPc.isLaunched, AddTaskPc.emplaced] at hnot
  | executor act b e he => exact ⟨finished_step hplaced he hc, rfl⟩
  | _ => exact ⟨hc, rfl⟩

/-- A task finishes in a step of its own. -/
theorem finished_of_drainStep {sleepsFirst : Bool} {a : DrainAction π n} {c : Fin n × ℕ}
    (hstep : drainStep opt sleepsFirst d a = some d')
    (hc : d'.mTaskExecutor.async c = .finished) :
    d.mTaskExecutor.async c = .finished ∨
      a = .executor (.async c) ∧ d.mTaskExecutor.async c = .running := by
  cases drainStep_effect hstep with
  | executor act b e he hact =>
      refine (finished_of_step he hc).imp_right ?_
      rintro ⟨rfl, hrunning⟩
      rcases hact with rfl | ⟨w, k, hb, -⟩ | ⟨hb, -⟩
      · exact ⟨rfl, hrunning⟩
      · nomatch hb
      · nomatch hb
  | _ => exact .inl hc

end Tasks

theorem lt_of_mem_batch (hs : (sinkMachine opt enc μ).Reachable s) {c : Fin n × ℕ} {i : ℕ}
    (hi : i ∈ s.batch c) : i < s.flowTable.flows.length :=
  (exists_mem_flowsIn_iff hs i).mp ⟨.task c, hi⟩

/-- Flows that have been enqueued keep their numbers. -/
theorem flows_prefix {a : SinkAction μ n} (hstep : sinkStep opt enc s a = some t) :
    s.flowTable.flows <+: t.flowTable.flows := by
  cases sinkStep_effect hstep with
  | takeMerge c parsed rest flow d | takeClean clock key list flow d =>
      exact ⟨[flow], FlowState.flows_take.symm⟩
  | discard clock key list =>
      exact ⟨[], (List.append_nil _).trans (FlowState.flows_discard list (clock key)).symm⟩
  | _ => exact List.prefix_refl _

theorem flowsAt_of_prefix {f g : FlowState} (h : f.flows <+: g.flows) {items : List ℕ}
    (hitems : ∀ i ∈ items, i < f.flows.length) : g.flowsAt items = f.flowsAt items := by
  refine List.filterMap_congr fun i hi => ?_
  obtain ⟨flows, hflows⟩ := h
  rw [← hflows, List.getElem?_append_left (hitems i hi)]

/-- What a task that has run has sent, each row with the number of its flow. -/
def SinkState.sentBy (enc : SinkEncoder α n) (s : SinkState μ n α) (c : Fin n × ℕ) :
    List (ℕ × String × List α) :=
  (s.batch c).zip (enc.sent c (s.flowTable.flowsAt (s.batch c)))

/-- The tasks that have run, in the order in which they ended, have sent their batches, and nothing
else has been sent. -/
structure SinkState.Sends (enc : SinkEncoder α n) (s : SinkState μ n α)
    (order : List (Fin n × ℕ)) : Prop where
  nodup : order.Nodup
  mem_iff : ∀ c, c ∈ order ↔ s.mTaskExecutor.async c = .finished
  published_eq : s.published = order.flatMap (s.sentBy enc)

omit [DecidableEq μ] in
/-- A step after which the same tasks have run. -/
theorem SinkState.Sends.same {order : List (Fin n × ℕ)} (hs : s.Sends enc order)
    (hfinished : ∀ c, t.mTaskExecutor.async c = .finished ↔ s.mTaskExecutor.async c = .finished)
    (hsent : ∀ c, s.mTaskExecutor.async c = .finished → t.sentBy enc c = s.sentBy enc c)
    (hpublished : t.published = s.published) : t.Sends enc order where
  nodup := hs.nodup
  mem_iff c := (hs.mem_iff c).trans (hfinished c).symm
  published_eq := by
    rw [hpublished, hs.published_eq]
    exact List.flatMap_congr fun c hc => (hsent c ((hs.mem_iff c).mp hc)).symm

theorem sends_step {a : SinkAction μ n} {order : List (Fin n × ℕ)}
    (hreach : (sinkMachine opt enc μ).Reachable s) (hs : s.Sends enc order)
    (hstep : sinkStep opt enc s a = some t) : ∃ order', t.Sends enc order' := by
  have hplaced := placed_of_reachable (executor_of_sink hreach)
  have hcalled := called_of_sink hreach
  have hflows := flows_prefix hstep
  have hsent {c} (hbatch : t.batch c = s.batch c) : t.sentBy enc c = s.sentBy enc c := by
    unfold SinkState.sentBy
    rw [hbatch, flowsAt_of_prefix hflows fun i hi => lt_of_mem_batch hreach hi]
  -- a step of the rest of the sink in which no task ends
  have hdrain {b} (hb : kafkaSinkStep opt s.toDrainState b = some t.toDrainState)
      (hidle : ∀ c, b = .executor (.async c) → s.mTaskExecutor.async c ≠ .running)
      (hpublished : t.published = s.published) : ∃ order', t.Sends enc order' := by
    have hb' := drainStep_of_kafkaSinkStep hb
    refine ⟨order, hs.same (fun c => ⟨fun hc => ?_, fun hc => ?_⟩) (fun c hc => ?_) hpublished⟩
    · rcases finished_of_drainStep hb' hc with hc | ⟨rfl, hrunning⟩
      · exact hc
      · exact absurd hrunning (hidle c rfl)
    · exact (finished_drainStep hplaced hcalled hb' hc).1
    · exact hsent (finished_drainStep hplaced hcalled hb' hc).2
  cases sinkStep_effect hstep with
  | takeMerge c parsed rest flow d hpc hready hflow hload => exact hdrain hload nofun rfl
  | appendMerge c parsed rest d hpc happend => exact hdrain happend nofun rfl
  | takeClean clock key list flow d hpc hget hready hflow hload => exact hdrain hload nofun rfl
  | appendClean clock key d hpc happend => exact hdrain happend nofun rfl
  | drain b d hb hload happend hidle => exact hdrain hb hidle rfl
  | publish c d hasync hb =>
      obtain ⟨e, he, rfl⟩ := executorStep_eq hb
      cases asyncStep_effect he with
      | invoke cpuId hlaunched =>
          rw [hasync] at hlaunched
          contradiction
      | finish =>
          -- the task has not run before
          have hnew : c ∉ order := fun hc => by
            rw [hs.mem_iff, hasync] at hc
            contradiction
          refine ⟨order ++ [c], ?_, fun c' => ?_, ?_⟩
          · exact List.nodup_append.mpr ⟨hs.nodup, List.nodup_singleton c, fun a ha b hb => by
              rintro rfl
              exact hnew (List.mem_singleton.mp hb ▸ ha)⟩
          · rw [List.mem_append, List.mem_singleton, hs.mem_iff]
            show _ ↔ Function.update s.mTaskExecutor.async c .finished c' = .finished
            rcases eq_or_ne c' c with rfl | hne
            · simp
            · simp [hne]
          · rw [List.flatMap_append, List.flatMap_singleton]
            show s.published ++ s.sentBy enc c = _
            rw [hs.published_eq]
            rfl
  | _ => exact ⟨order, hs.same (fun _ => Iff.rfl) (fun _ _ => hsent rfl) rfl⟩

/-- So only what the tasks make of their batches is sent. -/
theorem exists_sends (hs : (sinkMachine opt enc μ).Reachable s) : ∃ order, s.Sends enc order := by
  refine hs.invariant_of (P := fun s : SinkState μ n α => ∃ order, s.Sends enc order)
    (fun _ hs => hs) ?_ fun s a t hreach hs hstep => ?_
  · exact ⟨[], List.nodup_nil, fun c => iff_of_false List.not_mem_nil nofun, rfl⟩
  · obtain ⟨order, hs⟩ := hs
    exact sends_step hreach hs hstep

/-! ### Each row -/

section Rows

/-- Flows that have been enqueued are found by their numbers. -/
theorem map_some_flowsAt (f : FlowState) : ∀ {items : List ℕ}, (∀ i ∈ items, i < f.flows.length) →
    (f.flowsAt items).map some = items.map (f.flows[·]?)
  | [], _ => rfl
  | i :: items, h => by
      have hlt := h i List.mem_cons_self
      have hi : f.flows[i]? = some f.flows[i] := List.getElem?_eq_getElem hlt
      rw [FlowState.flowsAt, List.filterMap_cons_some hi, List.map_cons, List.map_cons, hi]
      exact congrArg _ (map_some_flowsAt f fun j hj => h j (List.mem_cons_of_mem i hj))

theorem length_flowsAt (hs : (sinkMachine opt enc μ).Reachable s) (c : Fin n × ℕ) :
    (s.flowTable.flowsAt (s.batch c)).length = (s.batch c).length := by
  have hlen := congrArg List.length
    (map_some_flowsAt s.flowTable fun i hi => lt_of_mem_batch hs (c := c) hi)
  rwa [List.length_map, List.length_map] at hlen

/-- A task sends nothing, or a row for each flow of its batch. -/
theorem map_fst_sentBy (hs : (sinkMachine opt enc μ).Reachable s) (c : Fin n × ℕ) :
    (s.sentBy enc c).map Prod.fst = s.batch c ∨ s.sentBy enc c = [] := by
  set flows := s.flowTable.flowsAt (s.batch c) with hflows
  have hsent : (enc.sent c flows).map Prod.fst = flows.map (·.flowId) ∨ enc.sent c flows = [] :=
    map_fst_sent enc.one_le (enc.finishes c flows)
  rcases hsent with hids | hnone
  · refine .inl (List.map_fst_zip ?_)
    have hlen := congrArg List.length hids
    rw [List.length_map, List.length_map, hflows, length_flowsAt hs] at hlen
    exact hlen.ge
  · refine .inr ?_
    rw [SinkState.sentBy, ← hflows, hnone, List.zip_nil_right]

end Rows

/-- Six packets of one key make a flow of five, and the thread of the only GPU hands it to a task,
which runs. -/
def flowSent : List (SinkAction Unit 1) :=
  List.flatten
    [[.lockMerge () (List.replicate 6 (Frame.accepted { minPackets := 5 } 60 0 0 udpFrame))],
      List.replicate 8 (.merge ()), List.replicate 12 (.drain (.thread 0)),
      List.replicate 6 (.drain (.executor .run)),
      List.replicate 2 (.drain (.executor (.async (0, 0))))]

section Destructor

/-- When the destructor of the executor has returned, no task is running. -/
theorem isUnfinished_of_destroyed {τ : Type} [DecidableEq τ] {e : ExecutorState τ}
    (he : (executorMachine opt τ).Reachable e) (hreturned : e.destructor = .returned) (c : τ) :
    (e.async c).isUnfinished = false := by
  have hstopping := stopping_of_reachable he
  have hrun : e.run = .finished := hstopping.joined (by rw [hreturned]; rfl)
  -- no future is left
  have hfutures : e.futures = [] := by
    rw [ExecutorState.futures, hrun, hstopping.emptied hreturned]
    rfl
  by_contra h
  have hone := ((held_of_reachable he) c).1 (by simpa using h)
  rw [hfutures] at hone
  exact absurd hone (by simp)

/-- So the tasks that were accepted have run, or were never taken out of the queue. -/
theorem finished_of_destroyed {τ : Type} [DecidableEq τ] {e : ExecutorState τ}
    (he : (executorMachine opt τ).Reachable e) (hreturned : e.destructor = .returned) {c : τ}
    (hcall : e.addTask c = .returned) : c ∈ e.remaining ∨ e.async c = .finished := by
  have hinvoked := invocations_eq_one_iff he hreturned hcall
  refine (em (c ∈ e.remaining)).imp_right fun hnot => ?_
  have hone := hinvoked.mpr hnot
  have hdone := isUnfinished_of_destroyed he hreturned c
  rw [invoked_of_reachable he c] at hone
  cases hasync : e.async c <;>
    simp [hasync, AsyncPc.isUnfinished, AsyncPc.isInvoked] at hone hdone ⊢

theorem returned_drainStep {π : Type} [DecidableEq π] {d d' : DrainState π n} {sleepsFirst : Bool}
    {a : DrainAction π n} (hreturned : d.owner = .returned)
    (hstep : drainStep opt sleepsFirst d a = some d') : d'.owner = .returned := by
  cases drainStep_effect hstep with
  | ownerStop hpc | join _ _ hpc | joined _ _ hpc =>
      rw [hreturned] at hpc
      contradiction
  | «return» => rfl
  | _ => exact hreturned

theorem joined_of_sink (hs : (sinkMachine opt enc μ).Reachable s) : s.oneProducer.Joined :=
  joined_of_reachable (oneProducer_reachable hs)

/-- Once `~KafkaSink` has returned, nothing more is sent. -/
theorem published_step_of_returned {a : SinkAction μ n}
    (hs : (sinkMachine opt enc μ).Reachable s) (hreturned : s.owner = .returned)
    (hstep : sinkStep opt enc s a = some t) : t.owner = .returned ∧ t.published = s.published := by
  have howner {b} (hb : kafkaSinkStep opt s.toDrainState b = some t.toDrainState) :
      t.owner = .returned := returned_drainStep hreturned (drainStep_of_kafkaSinkStep hb)
  cases sinkStep_effect hstep with
  | takeMerge c parsed rest flow d hpc hready hflow hload => exact ⟨howner hload, rfl⟩
  | appendMerge c parsed rest d hpc happend => exact ⟨howner happend, rfl⟩
  | takeClean clock key list flow d hpc hget hready hflow hload => exact ⟨howner hload, rfl⟩
  | appendClean clock key d hpc happend => exact ⟨howner happend, rfl⟩
  | drain b d hb => exact ⟨howner hb, rfl⟩
  | publish c d hasync =>
      -- no task is running any more
      have hdone := isUnfinished_of_destroyed (executor_of_sink hs)
        ((joined_of_sink hs).returned hreturned) c
      rw [hasync] at hdone
      contradiction
  | _ => exact ⟨hreturned, rfl⟩

theorem published_of_later (hs : (sinkMachine opt enc μ).Reachable s)
    (hreturned : s.owner = .returned) (hlater : (sinkMachine opt enc μ).Later s t) :
    t.published = s.published := by
  have hboth : t.owner = .returned ∧ t.published = s.published := by
    refine hlater.stable_of_reachable (P := fun t => t.owner = .returned ∧
      t.published = s.published) hs ⟨hreturned, rfl⟩ ?_
    rintro u a v hu ⟨hureturned, hupublished⟩ hstep
    obtain ⟨hv, hsame⟩ := published_step_of_returned hu hureturned hstep
    exact ⟨hv, hsame.trans hupublished⟩
  exact hboth.2

/-- A flow that a task has sent something for is among what was sent. -/
theorem exists_mem_published (hs : (sinkMachine opt enc μ).Reachable s) {c : Fin n × ℕ} {i : ℕ}
    (hi : i ∈ s.batch c) (hc : s.mTaskExecutor.async c = .finished) :
    s.sentBy enc c = [] ∨ ∃ id row, (i, id, row) ∈ s.published := by
  obtain ⟨order, hsends⟩ := exists_sends hs
  rcases map_fst_sentBy hs c with hall | hnone
  · rw [← hall] at hi
    obtain ⟨⟨j, id, row⟩, he, rfl⟩ := List.mem_map.mp hi
    refine .inr ⟨id, row, ?_⟩
    rw [hsends.published_eq]
    exact List.mem_flatMap.mpr ⟨c, (hsends.mem_iff c).mpr hc, he⟩
  · exact .inl hnone

/-- Where a flow is when the destructor has returned, unless it has been sent. -/
theorem flow_fate (hs : (sinkMachine opt enc μ).Reachable s) (hreturned : s.owner = .returned)
    {i : ℕ} (hi : i < s.flowTable.flows.length) : (∃ id row, (i, id, row) ∈ s.published) ∨
      (∃ c, i ∈ s.batch c ∧ (c ∈ s.mTaskExecutor.remaining ∨ s.sentBy enc c = [])) ∨
      (∃ k, i ∈ s.flowsIn (.half k)) ∨ i ∈ s.flowsIn .loaded := by
  have hjoined := joined_of_sink hs
  have hcalled := called_of_sink hs
  -- the threads of `LoopTask` have been joined
  have hthread (w : Fin n) : s.thread w = .finished := hjoined.finished w (by
    show s.owner.hasJoined w = true
    rw [hreturned]
    rfl)
  obtain ⟨p, hp⟩ := (exists_mem_flowsIn_iff hs i).mpr hi
  cases p with
  | loaded => exact .inr (.inr (.inr hp))
  | half k => exact .inr (.inr (.inl ⟨k, hp⟩))
  | held w =>
      have hnone : s.flowsIn (.held w) = [] := by
        show (s.thread w).held = []
        rw [hthread]
        rfl
      rw [hnone] at hp
      exact absurd hp List.not_mem_nil
  | task c =>
      have hbatch : i ∈ s.batch c := hp
      have hcalls : c.2 < s.calls c.1 := by
        by_contra hle
        rw [hcalled.batch_eq_nil c.1 c.2 (by omega)] at hbatch
        exact List.not_mem_nil hbatch
      have hcall : s.mTaskExecutor.addTask c = .returned := by
        refine hcalled.returned c.1 c.2 hcalls ?_
        rw [hthread]
        nofun
      rcases finished_of_destroyed (executor_of_sink hs) (hjoined.returned hreturned) hcall with
        hremains | hdone
      · exact .inr (.inl ⟨c, hbatch, .inl hremains⟩)
      · rcases exists_mem_published hs hbatch hdone with hnone | hsent
        · exact .inr (.inl ⟨c, hbatch, .inr hnone⟩)
        · exact .inl hsent

end Destructor

/-- When `~KafkaSink` has returned, each flow that was ever enqueued has been sent, but for those
whose task has sent nothing at all, those whose task was never taken out of the queue of the
executor, and those that are still in the queue of flows; and nothing is sent later. -/
theorem flows_afterDestructor (hs : (sinkMachine opt enc μ).Reachable s)
    (hreturned : s.owner = .returned) :
    (∀ i < s.flowTable.flows.length, (∃ id row, (i, id, row) ∈ s.published) ∨
      (∃ c, i ∈ s.batch c ∧ (c ∈ s.mTaskExecutor.remaining ∨ s.sentBy enc c = [])) ∨
      (∃ k, i ∈ s.flowsIn (.half k)) ∨ i ∈ s.flowsIn .loaded) ∧
    ∀ t, (sinkMachine opt enc μ).Later s t → t.published = s.published := by
  exact ⟨fun i hi => flow_fate hs hreturned hi,
    fun t hlater => published_of_later hs hreturned hlater⟩

/-- The sink is destroyed when that flow has been sent. -/
def sentThenDestroyed : List (SinkAction Unit 1) :=
  flowSent ++ List.flatten
    [List.replicate 7 (.drain (.executor .run)), [.drain .owner],
      List.replicate 3 (.drain (.thread 0)), [.clean], List.replicate 6 (.drain .owner),
      List.replicate 4 (.drain (.executor .run)), [.drain .owner, .drain (.executor .clean)],
      List.replicate 4 (.drain .owner)]

theorem returned_run_sentThenDestroyed :
    ((sinkMachine { minPackets := 5 } inOrderEncoder Unit).run {} sentThenDestroyed).map
      (fun s => (s.owner, s.flowTable.flows.length)) = some (.returned, 1) := by
  rfl

/-- Nothing is sent after that. -/
theorem flows_afterDestructor_sentThenDestroyed :
    ∃ s, (sinkMachine { minPackets := 5 } inOrderEncoder Unit).run {} sentThenDestroyed = some s ∧
      s.flowTable.flows.length = 1 ∧
      ∀ t, (sinkMachine { minPackets := 5 } inOrderEncoder Unit).Later s t →
        t.published = s.published := by
  obtain ⟨s, hrun, hs⟩ := Option.map_eq_some_iff.mp returned_run_sentThenDestroyed
  obtain ⟨hreturned, hlength⟩ := Prod.mk.inj hs
  exact ⟨s, hrun, hlength, (flows_afterDestructor ⟨sentThenDestroyed, hrun⟩ hreturned).2⟩

end Hound
