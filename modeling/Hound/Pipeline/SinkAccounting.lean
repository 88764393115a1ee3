import Hound.Pipeline.SinkTable
import Hound.ToMathlib.Subperm

/-!
# Where the packets of a sink are

What is merged is put into flows, and the flows are numbered by the order in which they are
enqueued. A flow is in the hands of the thread under the lock, in a half of the queue, in the batch
of a thread of `LoopTask` or in the batch of a task, and the tasks that have run have sent theirs.

* `SinkState.oneProducer` : under the lock there is one producer, so what holds of a queue with one
  producer holds of a sink.
* `SinkState.Tabled` : what was merged, key by key.
* `SinkState.Sends` : what was sent, task by task.
* `sink_accounts` : so a packet is lost, kept twice or sent under another key at no time.
-/

namespace Hound

/-! ### One producer -/

section Producers

variable {π π' : Type} [DecidableEq π] [DecidableEq π'] {n : ℕ} {opt : CaptureOption}

/-- The same threads behind a queue with other producers. -/
def DrainState.withProducers (d : DrainState π n) (producer : π' → ProducerPc ℕ) :
    DrainState π' n where
  isRunning := d.isRunning
  doubleBufferQueue :=
    { current := d.doubleBufferQueue.current
      queues := d.doubleBufferQueue.queues
      producer
      reader := d.doubleBufferQueue.reader
      appended := d.doubleBufferQueue.appended
      batches := d.doubleBufferQueue.batches }
  mTaskExecutor := d.mTaskExecutor
  thread := d.thread
  alive := d.alive
  calls := d.calls
  batch := d.batch
  enqueued := d.enqueued
  owner := d.owner

/-- The same step with other producers. -/
def DrainAction.rename (f : π → π') : DrainAction π n → DrainAction π' n
  | .load p => .load (f p)
  | .append p => .append (f p)
  | .thread w => .thread w
  | .stop => .stop
  | .owner => .owner
  | .executor a => .executor a

variable {d d' : DrainState π n}

omit [DecidableEq π] [DecidableEq π'] in
/-- The executor does not see the producers. -/
theorem executorStep_withProducers {a : ExecutorAction (Fin n × ℕ)} (f : π' → ProducerPc ℕ)
    (h : d.executorStep opt a = some d') :
    (d.withProducers f).executorStep opt a = some (d'.withProducers f) := by
  obtain ⟨e, he, rfl⟩ := executorStep_eq h
  exact Option.map_eq_some_iff.mpr ⟨e, he, rfl⟩

/-- Nor do the readers of the queue. -/
theorem queueStep_withProducers {a : QueueAction π (Fin n) ℕ} {a' : QueueAction π' (Fin n) ℕ}
    (f : π' → ProducerPc ℕ) {w : Fin n}
    (ha : a = .readLoad w ∧ a' = .readLoad w ∨ a = .readStore w ∧ a' = .readStore w ∨
      a = .readSwap w ∧ a' = .readSwap w)
    (h : d.queueStep a = some d') :
    (d.withProducers f).queueStep a' = some (d'.withProducers f) := by
  obtain ⟨q, hq, rfl⟩ := queueStep_eq h
  obtain ⟨rfl, rfl⟩ | ⟨rfl, rfl⟩ | ⟨rfl, rfl⟩ := ha
  · obtain ⟨hreader, rfl⟩ := queueStep_readLoad.mp hq
    exact Option.map_eq_some_iff.mpr ⟨_, queueStep_readLoad.mpr ⟨hreader, rfl⟩, rfl⟩
  · obtain ⟨k, hreader, rfl⟩ := queueStep_readStore.mp hq
    exact Option.map_eq_some_iff.mpr ⟨_, queueStep_readStore.mpr ⟨k, hreader, rfl⟩, rfl⟩
  · obtain ⟨k, hreader, rfl⟩ := queueStep_readSwap.mp hq
    exact Option.map_eq_some_iff.mpr ⟨_, queueStep_readSwap.mpr ⟨k, hreader, rfl⟩, rfl⟩

theorem drainThreadStep_withProducers {sleepsFirst : Bool} {w : Fin n} (f : π' → ProducerPc ℕ)
    (h : drainThreadStep opt sleepsFirst d w = some d') :
    drainThreadStep opt sleepsFirst (d.withProducers f) w = some (d'.withProducers f) := by
  have hthread : (d.withProducers f).thread w = d.thread w := rfl
  unfold drainThreadStep at h ⊢
  rw [hthread]
  cases hpc : d.thread w with
  | construct | loop | sleep | sleepEmpty | destroy | destroying =>
      rw [hpc] at h
      obtain rfl := Option.some.inj h
      rfl
  | read =>
      have hreader : (d.withProducers f).doubleBufferQueue.reader w =
        d.doubleBufferQueue.reader w := rfl
      rw [hpc] at h
      dsimp only at h ⊢
      rw [hreader]
      cases hr : d.doubleBufferQueue.reader w with
      | idle =>
          rw [hr] at h
          exact queueStep_withProducers f (.inl ⟨rfl, rfl⟩) h
      | loaded k =>
          rw [hr] at h
          exact queueStep_withProducers f (.inr (.inl ⟨rfl, rfl⟩)) h
      | stored k =>
          rw [hr] at h
          exact queueStep_withProducers f (.inr (.inr ⟨rfl, rfl⟩)) h
  | test currentQueue =>
      rw [hpc] at h
      dsimp only at h ⊢
      by_cases hempty : currentQueue.isEmpty = true
      · rw [if_pos hempty] at h ⊢
        obtain rfl := Option.some.inj h
        rfl
      · rw [if_neg hempty] at h ⊢
        obtain rfl := Option.some.inj h
        rfl
  | addTask k =>
      have hcall : (d.withProducers f).mTaskExecutor.addTask (w, k) =
        d.mTaskExecutor.addTask (w, k) := rfl
      rw [hpc] at h
      dsimp only at h ⊢
      rw [hcall]
      cases hc : d.mTaskExecutor.addTask (w, k) with
      | returned =>
          rw [hc] at h
          obtain rfl := Option.some.inj h
          rfl
      | _ =>
          rw [hc] at h
          exact executorStep_withProducers f h
  | finished =>
      rw [hpc] at h
      cases h

omit [DecidableEq π] [DecidableEq π'] in
/-- Nor does the destructor. -/
theorem ownerStep_withProducers (f : π' → ProducerPc ℕ) (h : ownerStep opt d = some d') :
    ownerStep opt (d.withProducers f) = some (d'.withProducers f) := by
  have howner : (d.withProducers f).owner = d.owner := rfl
  unfold ownerStep at h ⊢
  rw [howner]
  cases hpc : d.owner with
  | start =>
      rw [hpc] at h
      obtain rfl := Option.some.inj h
      rfl
  | join i =>
      rw [hpc] at h
      dsimp only at h ⊢
      split at h
      · next hi =>
          rw [dif_pos hi]
          have hthread : (d.withProducers f).thread ⟨i, hi⟩ = d.thread ⟨i, hi⟩ := rfl
          rw [hthread]
          split at h
          · obtain rfl := Option.some.inj h
            rfl
          · contradiction
      · next hi =>
          rw [dif_neg hi]
          obtain rfl := Option.some.inj h
          rfl
  | destroyExecutor =>
      have hdestructor : (d.withProducers f).mTaskExecutor.destructor =
        d.mTaskExecutor.destructor := rfl
      rw [hpc] at h
      dsimp only at h ⊢
      rw [hdestructor]
      cases hd : d.mTaskExecutor.destructor with
      | returned =>
          rw [hd] at h
          obtain rfl := Option.some.inj h
          rfl
      | _ =>
          rw [hd] at h
          exact executorStep_withProducers f h
  | returned =>
      rw [hpc] at h
      cases h

/-- A step in which nothing is enqueued is the same step whoever the producers are. -/
theorem drainStep_withProducers {sleepsFirst : Bool} {a : DrainAction π n} (f : π' → ProducerPc ℕ)
    (g : π → π') (h : drainStep opt sleepsFirst d a = some d') (hload : ∀ u, a ≠ .load u)
    (happend : ∀ u, a ≠ .append u) :
    drainStep opt sleepsFirst (d.withProducers f) (a.rename g) = some (d'.withProducers f) := by
  cases a with
  | load u => exact absurd rfl (hload u)
  | append u => exact absurd rfl (happend u)
  | thread w => exact drainThreadStep_withProducers f h
  | stop =>
      obtain rfl := Option.some.inj h
      rfl
  | owner => exact ownerStep_withProducers f h
  | executor a =>
      cases a with
      | addTask c | destructor => cases h
      | _ => exact executorStep_withProducers f h

end Producers

variable {μ : Type} [DecidableEq μ] {n : ℕ} {α : Type} {opt : CaptureOption}
  {enc : SinkEncoder α n} {s t : SinkState μ n α}

/-- The sink with one producer: whoever has locked the mutex. -/
def SinkState.oneProducer (s : SinkState μ n α) : DrainState Unit n :=
  s.toDrainState.withProducers fun _ => match s.mtxAccessToFlowTable with
    | none => .idle
    | some u => s.doubleBufferQueue.producer u

/-- The flows at a place, by their numbers. -/
def SinkState.flowsIn (s : SinkState μ n α) (p : Place n) : List ℕ := s.oneProducer.packetsAt p

section OneProducer

omit [DecidableEq μ] in
theorem SinkState.oneProducer_free (howner : s.mtxAccessToFlowTable = none) :
    s.oneProducer = s.toDrainState.withProducers fun _ => .idle := by
  unfold SinkState.oneProducer
  rw [howner]

omit [DecidableEq μ] in
theorem SinkState.oneProducer_locked {u : TableUser μ}
    (howner : s.mtxAccessToFlowTable = some u) :
    s.oneProducer = s.toDrainState.withProducers fun _ => s.doubleBufferQueue.producer u := by
  unfold SinkState.oneProducer
  rw [howner]

omit [DecidableEq μ] in
/-- Who locks or unlocks the mutex enqueues nothing at that time. -/
theorem SinkState.Exclusive.oneProducer_of_not_enqueueing (hs : s.Exclusive) {u : TableUser μ}
    (howner : s.mtxAccessToFlowTable = some u) (hpc : s.enqueueing u = false) :
    s.oneProducer = s.toDrainState.withProducers fun _ => .idle := by
  rw [SinkState.oneProducer_locked howner, (hs.idle_iff u).mpr hpc]

/-- `enqueue` loads `current`. -/
theorem oneProducer_load {u : TableUser μ} (howner : s.mtxAccessToFlowTable = some u)
    (howner' : t.mtxAccessToFlowTable = some u)
    (hload : kafkaSinkStep opt s.toDrainState (.load u) = some t.toDrainState) :
    drainStep opt false s.oneProducer (.load ()) = some t.oneProducer := by
  obtain ⟨hidle, ht⟩ := kafkaSinkStep_load hload
  rw [SinkState.oneProducer_locked howner, SinkState.oneProducer_locked howner', ht]
  refine Option.map_eq_some_iff.mpr ⟨_, queueStep_load.mpr ⟨hidle, rfl⟩, ?_⟩
  rw [Function.update_eq_const_of_subsingleton ()]
  dsimp only
  rw [Function.update_self]
  rfl

/-- `enqueue` appends the flow. -/
theorem oneProducer_append {u : TableUser μ} (howner : s.mtxAccessToFlowTable = some u)
    (howner' : t.mtxAccessToFlowTable = some u)
    (happend : kafkaSinkStep opt s.toDrainState (.append u) = some t.toDrainState) :
    drainStep opt false s.oneProducer (.append ()) = some t.oneProducer := by
  obtain ⟨k, item, hloaded, ht⟩ := kafkaSinkStep_append happend
  rw [SinkState.oneProducer_locked howner, SinkState.oneProducer_locked howner', ht]
  refine Option.map_eq_some_iff.mpr ⟨_, queueStep_append.mpr ⟨k, item, hloaded, rfl⟩, ?_⟩
  rw [Function.update_eq_const_of_subsingleton ()]
  dsimp only
  rw [Function.update_self]
  rfl

/-- All other steps of the sink leave the producer alone. -/
theorem oneProducer_of_kafkaSinkStep {a : DrainAction (TableUser μ) n}
    (howner : t.mtxAccessToFlowTable = s.mtxAccessToFlowTable)
    (hstep : kafkaSinkStep opt s.toDrainState a = some t.toDrainState) (hload : ∀ u, a ≠ .load u)
    (happend : ∀ u, a ≠ .append u) :
    drainStep opt false s.oneProducer (a.rename fun _ => ()) = some t.oneProducer := by
  have hproducer : t.doubleBufferQueue.producer = s.doubleBufferQueue.producer :=
    (producer_of_kafkaSinkStep hstep hload happend).1
  unfold SinkState.oneProducer
  rw [howner, hproducer]
  exact drainStep_withProducers _ _ (drainStep_of_kafkaSinkStep hstep) hload happend

/-- A step of the sink is a step of one with one producer, or none. -/
theorem oneProducer_step {a : SinkAction μ n} (hs : s.Exclusive)
    (hstep : sinkStep opt enc s a = some t) :
    t.oneProducer = s.oneProducer ∨
      ∃ b, drainStep opt false s.oneProducer b = some t.oneProducer := by
  have ht : t.Exclusive := exclusive_step hs hstep
  -- who is in the table has locked the mutex, before the step and after it
  have howner {u : TableUser μ} (hpc : s.inside u = true) : s.mtxAccessToFlowTable = some u :=
    (hs.owned u).mp hpc
  cases sinkStep_effect hstep with
  | lockMerge c parsedList hpc hfree =>
      refine .inl ((ht.oneProducer_of_not_enqueueing (u := .makeFlow c) rfl ?_).trans
        (SinkState.oneProducer_free hfree).symm)
      simp [SinkState.enqueueing, SinkState.goto, MakeFlowPc.enqueueing]
  | unlockMerge c hpc =>
      have hu := howner (u := .makeFlow c) (by simp [SinkState.inside, hpc, MakeFlowPc.inside])
      have hpc' : s.enqueueing (.makeFlow c) = false := by
        simp [SinkState.enqueueing, hpc, MakeFlowPc.enqueueing]
      exact .inl (hs.oneProducer_of_not_enqueueing hu hpc').symm
  | lockClean clock hpc hfree =>
      exact .inl ((ht.oneProducer_of_not_enqueueing (u := .clean) rfl rfl).trans
        (SinkState.oneProducer_free hfree).symm)
  | unlockClean clock hpc =>
      have hu := howner (u := .clean) (by simp [SinkState.inside, hpc, CleanTaskPc.inside])
      have hpc' : s.enqueueing .clean = false := by
        simp [SinkState.enqueueing, hpc, CleanTaskPc.enqueueing]
      exact .inl (hs.oneProducer_of_not_enqueueing hu hpc').symm
  | emplace | outsideTable | keep | discard => exact .inl rfl
  | takeMerge c parsed rest flow d hpc hready hflow hload =>
      have hu := howner (u := .makeFlow c) (by simp [SinkState.inside, hpc, MakeFlowPc.inside])
      exact .inr ⟨.load (), oneProducer_load hu hu hload⟩
  | appendMerge c parsed rest d hpc happend =>
      have hu := howner (u := .makeFlow c) (by simp [SinkState.inside, hpc, MakeFlowPc.inside])
      exact .inr ⟨.append (), oneProducer_append hu hu happend⟩
  | takeClean clock key list flow d hpc hget hready hflow hload =>
      have hu := howner (u := .clean) (by simp [SinkState.inside, hpc, CleanTaskPc.inside])
      exact .inr ⟨.load (), oneProducer_load hu hu hload⟩
  | appendClean clock key d hpc happend =>
      have hu := howner (u := .clean) (by simp [SinkState.inside, hpc, CleanTaskPc.inside])
      exact .inr ⟨.append (), oneProducer_append hu hu happend⟩
  | publish c d hasync hdrain =>
      exact .inr ⟨_, oneProducer_of_kafkaSinkStep rfl hdrain (by simp) (by simp)⟩
  | drain a d hdrain hload happend =>
      exact .inr ⟨_, oneProducer_of_kafkaSinkStep rfl hdrain hload happend⟩

/-- A sink is one with one producer. -/
theorem oneProducer_reachable (hs : (sinkMachine opt enc μ).Reachable s) :
    (drainMachine opt false Unit n).Reachable s.oneProducer := by
  have hsim : ∃ d, (drainMachine opt false Unit n).Reachable d ∧ d = s.oneProducer := by
    apply hs.simulation
    · rfl
    · rintro s a t _ hs - rfl hstep
      rcases oneProducer_step (exclusive_of_reachable hs) hstep with hsame | ⟨b, hb⟩
      · exact ⟨_, hsame ▸ Machine.Later.refl _, rfl⟩
      · exact ⟨_, Machine.Later.single hb, rfl⟩
  obtain ⟨_, hd, rfl⟩ := hsim
  exact hd

end OneProducer

/-! ### The table -/

/-- What was merged is, key by key, what left the table followed by what is in it. -/
def FlowState.Split (s : FlowState) : Prop :=
  ∀ k, s.merged.filter (·.mKey = k) = keyLists s.history k ++ s.existing k

namespace FlowState

variable {s : FlowState} {key : String} {flow : HdFlow}

theorem flows_take : (s.take key flow).flows = s.flows ++ [flow] := List.filterMap_append

theorem flows_discard (list : List ParsedPacket) (now : ℤ) :
    (s.discard key list now).flows = s.flows := by
  unfold flows discard
  rw [List.filterMap_append]
  exact List.append_nil _

/-- The list of a key is moved, and nothing is left of it. -/
theorem Split.take (h : s.Split) (hflow : HdFlow.ofData key (s.existing key) = .ok flow) :
    (s.take key flow).Split := by
  obtain ⟨hid, hlist⟩ := HdFlow.ofData_spec hflow
  intro k
  show s.merged.filter (·.mKey = k) = keyLists (s.history ++ [.enqueued flow]) k ++
    ((s.mFlowTable.set key []).get? k).getD []
  rw [h k, keyLists_concat, FlowEvent.key, FlowEvent.packets, hid, hlist, OrderedMap.get?_set]
  by_cases hk : k = key
  · subst hk
    simp
  · simp [hk, Ne.symm hk, existing]

theorem Split.emplaceBack {opt : CaptureOption} (h : s.Split) (parsed : ParsedPacket) :
    (s.emplaceBack opt parsed).Split := by
  intro k
  show (s.merged ++ [parsed]).filter (·.mKey = k) = keyLists s.history k ++
    ((s.mFlowTable.set parsed.mKey (s.existing parsed.mKey ++ [parsed])).get? k).getD []
  rw [List.filter_append, h k, OrderedMap.get?_set]
  by_cases hk : k = parsed.mKey
  · subst hk
    simp
  · simp [hk, Ne.symm hk, existing]

/-- An empty list may be erased. -/
theorem Split.erase (h : s.Split) (hnil : s.existing key = []) : (s.erase key).Split := by
  intro k
  show s.merged.filter (·.mKey = k) = keyLists s.history k ++
    ((s.mFlowTable.erase key).get? k).getD []
  rw [h k, OrderedMap.get?_erase]
  by_cases hk : k = key
  · subst hk
    rw [hnil, if_pos rfl]
    rfl
  · rw [if_neg hk]
    rfl

/-- Any list may be erased if the history says so. -/
theorem Split.discard (h : s.Split) {list : List ParsedPacket}
    (hget : s.mFlowTable.get? key = some list) (now : ℤ) : (s.discard key list now).Split := by
  intro k
  show s.merged.filter (·.mKey = k) = keyLists (s.history ++ [.discarded key list now]) k ++
    ((s.mFlowTable.erase key).get? k).getD []
  rw [h k, keyLists_concat, FlowEvent.key, FlowEvent.packets, OrderedMap.get?_erase]
  by_cases hk : k = key
  · subst hk
    simp [existing, hget]
  · simp [hk, Ne.symm hk, existing]

/-- The packets of a list that left the table have its key. -/
theorem Split.mem_packets (h : s.Split) {ev : FlowEvent} (hev : ev ∈ s.history) {p : ParsedPacket}
    (hp : p ∈ ev.packets) : p ∈ s.merged ∧ p.mKey = ev.key := by
  have hmem : p ∈ s.merged.filter (·.mKey = ev.key) := by
    rw [h]
    apply List.mem_append_left
    exact List.mem_flatMap.mpr ⟨ev, List.mem_filter.mpr ⟨hev, by simp⟩, hp⟩
  simpa using List.mem_filter.mp hmem

/-- So have those of a list in the table. -/
theorem Split.mKey_of_mem_entries (h : s.Split) {e : String × List ParsedPacket}
    (he : e ∈ s.mFlowTable.entries) {p : ParsedPacket} (hp : p ∈ e.2) : p.mKey = e.1 := by
  have hmem : p ∈ s.merged.filter (·.mKey = e.1) := by
    rw [h]
    apply List.mem_append_right
    rw [existing, s.mFlowTable.mem_entries_iff.mp he]
    exact hp
  simpa using (List.mem_filter.mp hmem).2

/-- Each packet that was merged has left the table or is in it. -/
theorem Split.perm (h : s.Split) : s.merged.Perm
    (s.history.flatMap FlowEvent.packets ++ s.mFlowTable.entries.flatMap Prod.snd) := by
  apply perm_of_filter_perm ParsedPacket.mKey
  intro k
  rw [List.filter_append,
    filter_flatMap_of_keyed _ FlowEvent.key fun _ hev _ hp => (h.mem_packets hev hp).2,
    filter_flatMap_of_keyed _ Prod.fst fun _ he _ hp => h.mKey_of_mem_entries he hp,
    h k, s.mFlowTable.filter_entries]
  apply List.Perm.of_eq
  congr 1
  show (s.mFlowTable.get? k).getD [] = _
  cases s.mFlowTable.get? k <;> simp

end FlowState

/-- What was merged is accounted for, key by key, and the flows are numbered by the calls of
`enqueue`. -/
structure SinkState.Tabled (s : SinkState μ n α) : Prop where
  split : s.flowTable.Split
  /-- The entry that the clean thread is about to erase is empty. -/
  taken : ∀ clock key, s.cleanTask = .enqueue clock key → s.flowTable.existing key = []
  enqueued_eq : s.enqueued = s.flowTable.flows.length

omit [DecidableEq μ] in
/-- The clean thread is not about to erase an entry. -/
theorem SinkState.Tabled.of_not_enqueueing (hsplit : t.flowTable.Split)
    (hpc : t.cleanTask.enqueueing = false) (henqueued : t.enqueued = t.flowTable.flows.length) :
    t.Tabled := by
  refine ⟨hsplit, fun clock key h => ?_, henqueued⟩
  rw [h] at hpc
  contradiction

theorem tabled_step {a : SinkAction μ n} (hexclusive : s.Exclusive) (hs : s.Tabled)
    (hstep : sinkStep opt enc s a = some t) : t.Tabled := by
  -- while a call of `MakeFlow` is in the table, the clean thread is not
  have hnot {c : μ} (hc : s.inside (.makeFlow c) = true) {clock : String → ℤ} {key : String} :
      s.cleanTask ≠ .enqueue clock key := fun hpc => by
    have hclean : s.inside .clean = true := by simp [SinkState.inside, hpc, CleanTaskPc.inside]
    have hsame := hexclusive.owned.unique hc hclean
    contradiction
  cases sinkStep_effect hstep with
  | lockMerge c parsedList hpc hfree | unlockMerge c hpc =>
      exact ⟨hs.split, hs.taken, hs.enqueued_eq⟩
  | lockClean clock hpc hfree | unlockClean clock hpc =>
      exact .of_not_enqueueing hs.split rfl hs.enqueued_eq
  | outsideTable pc hpc =>
      refine ⟨hs.split, ?_, hs.enqueued_eq⟩
      rintro clock key rfl
      simp at hpc
  | emplace c parsed rest hpc hready =>
      have hc : s.inside (.makeFlow c) = true := by simp [SinkState.inside, hpc, MakeFlowPc.inside]
      exact ⟨hs.split.emplaceBack parsed, fun _ _ hpc => absurd hpc (hnot hc), hs.enqueued_eq⟩
  | takeMerge c parsed rest flow d hpc hready hflow hload =>
      obtain ⟨-, rfl⟩ := kafkaSinkStep_load hload
      have hc : s.inside (.makeFlow c) = true := by simp [SinkState.inside, hpc, MakeFlowPc.inside]
      refine ⟨hs.split.take hflow, fun _ _ hpc => absurd hpc (hnot hc), ?_⟩
      show s.enqueued + 1 = (s.flowTable.take parsed.mKey flow).flows.length
      rw [FlowState.flows_take, List.length_append, hs.enqueued_eq, List.length_singleton]
  | appendMerge c parsed rest d hpc happend =>
      obtain ⟨k, item, -, rfl⟩ := kafkaSinkStep_append happend
      have hc : s.inside (.makeFlow c) = true := by simp [SinkState.inside, hpc, MakeFlowPc.inside]
      exact ⟨hs.split.emplaceBack parsed, fun _ _ hpc => absurd hpc (hnot hc), hs.enqueued_eq⟩
  | keep clock key list hpc hget hready hactive =>
      exact .of_not_enqueueing hs.split rfl hs.enqueued_eq
  | discard clock key list hpc hget hready hidle =>
      refine .of_not_enqueueing (hs.split.discard hget (clock key)) rfl ?_
      show s.enqueued = (s.flowTable.discard key list (clock key)).flows.length
      rw [FlowState.flows_discard, hs.enqueued_eq]
  | takeClean clock key list flow d hpc hget hready hflow hload =>
      obtain ⟨-, rfl⟩ := kafkaSinkStep_load hload
      have hlist : s.flowTable.existing key = list := by rw [FlowState.existing, hget]; rfl
      refine ⟨hs.split.take (by rwa [hlist]), ?_, ?_⟩
      · rintro clock' key' hpc'
        obtain ⟨rfl, rfl⟩ := CleanTaskPc.enqueue.inj hpc'
        exact FlowState.existing_take key flow
      · show s.enqueued + 1 = (s.flowTable.take key flow).flows.length
        rw [FlowState.flows_take, List.length_append, hs.enqueued_eq, List.length_singleton]
  | appendClean clock key d hpc happend =>
      obtain ⟨k, item, -, rfl⟩ := kafkaSinkStep_append happend
      exact .of_not_enqueueing (hs.split.erase (hs.taken clock key hpc)) rfl hs.enqueued_eq
  | publish c d hasync hdrain =>
      exact ⟨hs.split, hs.taken,
        (producer_of_kafkaSinkStep hdrain (by simp) (by simp)).2.trans hs.enqueued_eq⟩
  | drain a d hdrain hload happend =>
      exact ⟨hs.split, hs.taken,
        (producer_of_kafkaSinkStep hdrain hload happend).2.trans hs.enqueued_eq⟩

theorem tabled_of_reachable (hs : (sinkMachine opt enc μ).Reachable s) : s.Tabled := by
  refine hs.invariant_of (fun _ hs => exclusive_of_reachable hs)
    (.of_not_enqueueing (fun _ => rfl) rfl rfl)
    fun _ _ _ hexclusive hs hstep => tabled_step hexclusive hs hstep

/-! ### Where flows are -/

/-- The calls of `AddTask` and the tasks do not depend on who the producers are. -/
theorem called_of_sink (hs : (sinkMachine opt enc μ).Reachable s) : s.toDrainState.Called := by
  have hcalled := called_of_reachable (oneProducer_reachable hs)
  exact ⟨hcalled.current, hcalled.returned, hcalled.notStarted, hcalled.batch_ne_nil,
    hcalled.batch_eq_nil⟩

theorem executor_of_sink (hs : (sinkMachine opt enc μ).Reachable s) :
    (executorMachine opt (Fin n × ℕ)).Reachable s.mTaskExecutor :=
  executor_reachable (s := s.oneProducer) (oneProducer_reachable hs)

theorem located_of_sink (hs : (sinkMachine opt enc μ).Reachable s) : s.oneProducer.Located :=
  located_of_drain (oneProducer_reachable hs)

/-- The flows that are somewhere are those that have been enqueued. -/
theorem exists_mem_flowsIn_iff (hs : (sinkMachine opt enc μ).Reachable s) (i : ℕ) :
    (∃ p, i ∈ s.flowsIn p) ↔ i < s.flowTable.flows.length := by
  rw [← (tabled_of_reachable hs).enqueued_eq]
  exact (located_of_sink hs).mem_iff i

end Hound
