import Hound.Encode.Dependence
import Hound.Pipeline.Accounting
import Hound.Pipeline.KafkaSink
import Hound.Sink.FlowTable
import Hound.ToMathlib.Mutex

/-!
# A sink, lock by lock

The calls of `MakeFlow` and the thread of `cleanUnwantedFlowTask` go over `mFlowTable` packet by
packet and entry by entry, with `mtxAccessToFlowTable` locked. When a list is full they enqueue it,
still under the lock, while the threads of `LoopTask` read the queue without it. The tasks of
`LoopTask` encode what was read and send it.

* `sinkMachine` : a `KafkaSink` in which all this is interleaved step by step.
* `sinkStep_effect` : what a step can do.
* `SinkState.Exclusive` : the lock is held by those who are in the table, and they alone enqueue.
-/

namespace Hound

/-! ### The table -/

/-- The list of a key is moved into a flow, and an empty one is left. -/
def FlowState.take (s : FlowState) (key : String) (flow : HdFlow) : FlowState :=
  { s with mFlowTable := s.mFlowTable.set key [], history := s.history ++ [.enqueued flow] }

/-- `existing.emplace_back(_parsed)`, and the assertion behind it. -/
def FlowState.emplaceBack (opt : CaptureOption) (s : FlowState) (parsed : ParsedPacket) :
    FlowState :=
  let existing := s.existing parsed.mKey ++ [parsed]
  { s with
    mFlowTable := s.mFlowTable.set parsed.mKey existing
    merged := s.merged ++ [parsed]
    assertHeld := s.assertHeld && decide (existing.length ≤ toSizeT opt.maxPackets) }

/-- `it = mFlowTable.erase(it)`. -/
def FlowState.erase (s : FlowState) (key : String) : FlowState :=
  { s with mFlowTable := s.mFlowTable.erase key }

/-- An idle list is erased. -/
def FlowState.discard (s : FlowState) (key : String) (list : List ParsedPacket) (now : ℤ) :
    FlowState :=
  { s with
    mFlowTable := s.mFlowTable.erase key
    history := s.history ++ [.discarded key list now] }

/-- The flow, if the list was enqueued. -/
def FlowEvent.flow? : FlowEvent → Option HdFlow
  | .enqueued flow => some flow
  | .discarded _ _ _ => none

/-- The flows enqueued so far, in order. -/
def FlowState.flows (s : FlowState) : List HdFlow := s.history.filterMap FlowEvent.flow?

/-! ### The threads -/

/-- A thread that locks `mtxAccessToFlowTable`; the calls of `MakeFlow` are made by threads `μ`. -/
inductive TableUser (μ : Type) where
  | makeFlow (c : μ)
  | clean
  deriving DecidableEq

/-- Where a call of `MakeFlow` is. Parsing touches nothing that is shared. -/
inductive MakeFlowPc where
  /-- There is no call, or it has not locked the mutex yet. -/
  | outside
  /-- The loop of `merge_to_existing_flow` before the packets `rest`. -/
  | merge (rest : List ParsedPacket)
  /-- `enqueue`, behind the load of `current`; the packet `parsed` is still to be appended to its
  list. -/
  | enqueue (parsed : ParsedPacket) (rest : List ParsedPacket)

/-- What `cleanUnwantedFlowTask` does next. -/
inductive CleanTaskPc where
  /-- `while (mIsRunning)`. -/
  | loop
  /-- `mSleeper.sleep_for`. How long it takes is left open. -/
  | sleep
  | lock
  /-- The loop over the table, with the iterator at `it`; `none` is `end()`. -/
  | visit (clock : String → ℤ) (it : Option String)
  /-- `enqueue`, behind the load of `current`; the entry is still to be erased. -/
  | enqueue (clock : String → ℤ) (key : String)
  | finished

/-- The encoder of a sink with `n` GPUs. -/
structure SinkEncoder (α : Type) (n : ℕ) where
  ops : TorchOps α
  /-- The model of each GPU. -/
  forward : Fin n → Forward α
  maxEncodeBatch : ℕ
  one_le : 1 ≤ maxEncodeBatch
  /-- What happens while a task encodes a batch. -/
  run : Fin n × ℕ → List HdFlow → EncodeRun α
  finishes : ∀ c flows, Finishes (run c flows) maxEncodeBatch flows

/-- What task `c` hands to `send_all_to_kafka`. -/
def SinkEncoder.sent {α : Type} {n : ℕ} (enc : SinkEncoder α n) (c : Fin n × ℕ)
    (flows : List HdFlow) : List (String × List α) :=
  Hound.sent enc.ops (enc.forward c.1) (enc.run c flows) enc.maxEncodeBatch flows

/-- A `KafkaSink` with `n` GPUs whose `MakeFlow` is called by threads `μ`. -/
structure SinkState (μ : Type) (n : ℕ) (α : Type) extends DrainState (TableUser μ) n where
  flowTable : FlowState := {}
  mtxAccessToFlowTable : Option (TableUser μ) := none
  makeFlow : μ → MakeFlowPc := fun _ => .outside
  cleanTask : CleanTaskPc := .loop
  /-- The rows sent so far, each with the number of its flow and the id sent with it. -/
  published : List (ℕ × String × List α) := []

/-- Who takes a step. -/
inductive SinkAction (μ : Type) (n : ℕ) where
  /-- A call of `MakeFlow` locks the mutex, with the packets it has parsed. -/
  | lockMerge (c : μ) (parsedList : List ParsedPacket)
  | merge (c : μ)
  /-- The clean thread locks the mutex. `clock` are the clock readings of the pass, by the keys of
  the entries they are made for. -/
  | lockClean (clock : String → ℤ)
  | clean
  /-- A step of the rest of the sink. -/
  | drain (a : DrainAction (TableUser μ) n)

variable {μ : Type} [DecidableEq μ] {n : ℕ} {α : Type} {opt : CaptureOption}
  {enc : SinkEncoder α n}

/-- The rest of the sink takes a step. -/
def SinkState.drainStep (opt : CaptureOption) (s : SinkState μ n α)
    (a : DrainAction (TableUser μ) n) : Option (SinkState μ n α) :=
  (kafkaSinkStep opt s.toDrainState a).map fun d => { s with toDrainState := d }

/-- The call goes on at `pc`. -/
def SinkState.goto (s : SinkState μ n α) (c : μ) (pc : MakeFlowPc) : SinkState μ n α :=
  { s with makeFlow := Function.update s.makeFlow c pc }

/-- `merge_to_existing_flow`, with the mutex locked. -/
def mergeStep (opt : CaptureOption) (s : SinkState μ n α) (c : μ) : Option (SinkState μ n α) :=
  match s.makeFlow c with
  | .outside => none
  | .merge [] => some { s.goto c .outside with mtxAccessToFlowTable := none }
  | .merge (parsed :: rest) =>
      let existing := s.flowTable.existing parsed.mKey
      if isFlowReady opt existing then
        match HdFlow.ofData parsed.mKey existing with
        -- `_data[0]` of an empty vector is undefined
        | .error _ => none
        | .ok flow =>
            SinkState.drainStep opt
              { s.goto c (.enqueue parsed rest) with
                flowTable := s.flowTable.take parsed.mKey flow } (.load (.makeFlow c))
      else some
        { s.goto c (.merge rest) with flowTable := s.flowTable.emplaceBack opt parsed }
  | .enqueue parsed rest =>
      SinkState.drainStep opt
        { s.goto c (.merge rest) with flowTable := s.flowTable.emplaceBack opt parsed }
        (.append (.makeFlow c))

/-- `cleanUnwantedFlowTask`. -/
def cleanTaskStep (opt : CaptureOption) (s : SinkState μ n α) : Option (SinkState μ n α) :=
  match s.cleanTask with
  | .loop => some { s with cleanTask := if s.isRunning then .sleep else .finished }
  | .sleep => some { s with cleanTask := .lock }
  -- the step that locks the mutex is an action of its own
  | .lock => none
  | .visit _ none => some { s with cleanTask := .loop, mtxAccessToFlowTable := none }
  | .visit clock (some key) => match s.flowTable.mFlowTable.get? key with
      -- `*it` for an iterator that stands at no entry is undefined
      | none => none
      | some list =>
          let next := s.flowTable.mFlowTable.next? key
          if toSizeT opt.minPackets ≤ list.length then
            match HdFlow.ofData key list with
            | .error _ => none
            | .ok flow =>
                SinkState.drainStep opt
                  { s with
                    cleanTask := .enqueue clock key
                    flowTable := s.flowTable.take key flow } (.load .clean)
          else match isTimeout opt (clock key) list with
            | .error _ => none
            | .ok true => some
                { s with
                  cleanTask := .visit clock next
                  flowTable := s.flowTable.discard key list (clock key) }
            | .ok false => some { s with cleanTask := .visit clock next }
  | .enqueue clock key =>
      SinkState.drainStep opt
        { s with
          cleanTask := .visit clock (s.flowTable.mFlowTable.next? key)
          flowTable := s.flowTable.erase key } (.append .clean)
  | .finished => none

/-- The flows with given numbers. -/
def FlowState.flowsAt (s : FlowState) (items : List ℕ) : List HdFlow :=
  items.filterMap (s.flows[·]?)

/-- Task `c` encodes its batch and sends it. What it does once its model has been deleted is
undefined. -/
def SinkState.publish (enc : SinkEncoder α n) (s : SinkState μ n α) (c : Fin n × ℕ) :
    Option (SinkState μ n α) :=
  if s.alive c.1 then
    let rows := enc.sent c (s.flowTable.flowsAt (s.batch c))
    some { s with published := s.published ++ (s.batch c).zip rows }
  else none

/-- One step. -/
def sinkStep (opt : CaptureOption) (enc : SinkEncoder α n) (s : SinkState μ n α) :
    SinkAction μ n → Option (SinkState μ n α)
  | .lockMerge c parsedList => match s.makeFlow c, s.mtxAccessToFlowTable with
      | .outside, none => some
          { s.goto c (.merge parsedList) with mtxAccessToFlowTable := some (.makeFlow c) }
      | _, _ => none
  | .merge c => mergeStep opt s c
  | .lockClean clock => match s.cleanTask, s.mtxAccessToFlowTable with
      | .lock, none => some
          { s with
            cleanTask := .visit clock s.flowTable.mFlowTable.begin?
            mtxAccessToFlowTable := some .clean }
      | _, _ => none
  | .clean => cleanTaskStep opt s
  -- `enqueue` is called by those who have locked the mutex
  | .drain (.load _) | .drain (.append _) => none
  | .drain (.executor (.async c)) => match s.mTaskExecutor.async c with
      | .running => (s.publish enc c).bind fun t => t.drainStep opt (.executor (.async c))
      | _ => s.drainStep opt (.executor (.async c))
  | .drain .owner => match s.owner, s.cleanTask with
      | .join 0, .finished => s.drainStep opt .owner
      -- `mCleanTask` is joined before the threads of `LoopTask`
      | .join 0, _ => none
      | _, _ => s.drainStep opt .owner
  | .drain a => s.drainStep opt a

/-- A `KafkaSink` from the end of its constructor on. -/
def sinkMachine (opt : CaptureOption) (enc : SinkEncoder α n) (μ : Type) [DecidableEq μ] :
    Machine (SinkState μ n α) (SinkAction μ n) where
  init := {}
  step := sinkStep opt enc

/-! ### What a step does -/

variable {s t : SinkState μ n α}

/-- What a step can do. -/
inductive SinkEffect (opt : CaptureOption) (enc : SinkEncoder α n) (s : SinkState μ n α) :
    SinkAction μ n → SinkState μ n α → Prop
  | lockMerge (c : μ) (parsedList : List ParsedPacket) (hpc : s.makeFlow c = .outside)
      (hfree : s.mtxAccessToFlowTable = none) :
      SinkEffect opt enc s (.lockMerge c parsedList)
        { s.goto c (.merge parsedList) with mtxAccessToFlowTable := some (.makeFlow c) }
  | unlockMerge (c : μ) (hpc : s.makeFlow c = .merge []) :
      SinkEffect opt enc s (.merge c) { s.goto c .outside with mtxAccessToFlowTable := none }
  | emplace (c : μ) (parsed : ParsedPacket) (rest : List ParsedPacket)
      (hpc : s.makeFlow c = .merge (parsed :: rest))
      (hready : ¬toSizeT opt.minPackets ≤ (s.flowTable.existing parsed.mKey).length) :
      SinkEffect opt enc s (.merge c)
        { s.goto c (.merge rest) with flowTable := s.flowTable.emplaceBack opt parsed }
  | takeMerge (c : μ) (parsed : ParsedPacket) (rest : List ParsedPacket) (flow : HdFlow)
      (d : DrainState (TableUser μ) n) (hpc : s.makeFlow c = .merge (parsed :: rest))
      (hready : toSizeT opt.minPackets ≤ (s.flowTable.existing parsed.mKey).length)
      (hflow : HdFlow.ofData parsed.mKey (s.flowTable.existing parsed.mKey) = .ok flow)
      (hload : kafkaSinkStep opt s.toDrainState (.load (.makeFlow c)) = some d) :
      SinkEffect opt enc s (.merge c)
        { s.goto c (.enqueue parsed rest) with
          flowTable := s.flowTable.take parsed.mKey flow, toDrainState := d }
  | appendMerge (c : μ) (parsed : ParsedPacket) (rest : List ParsedPacket)
      (d : DrainState (TableUser μ) n) (hpc : s.makeFlow c = .enqueue parsed rest)
      (happend : kafkaSinkStep opt s.toDrainState (.append (.makeFlow c)) = some d) :
      SinkEffect opt enc s (.merge c)
        { s.goto c (.merge rest) with
          flowTable := s.flowTable.emplaceBack opt parsed, toDrainState := d }
  | outsideTable (pc : CleanTaskPc)
      (hpc : s.cleanTask = .loop ∧ (pc = .sleep ∨ pc = .finished) ∨
        s.cleanTask = .sleep ∧ pc = .lock) :
      SinkEffect opt enc s .clean { s with cleanTask := pc }
  | lockClean (clock : String → ℤ) (hpc : s.cleanTask = .lock)
      (hfree : s.mtxAccessToFlowTable = none) :
      SinkEffect opt enc s (.lockClean clock)
        { s with
          cleanTask := .visit clock s.flowTable.mFlowTable.begin?
          mtxAccessToFlowTable := some .clean }
  | unlockClean (clock : String → ℤ) (hpc : s.cleanTask = .visit clock none) :
      SinkEffect opt enc s .clean { s with cleanTask := .loop, mtxAccessToFlowTable := none }
  | keep (clock : String → ℤ) (key : String) (list : List ParsedPacket)
      (hpc : s.cleanTask = .visit clock (some key))
      (hget : s.flowTable.mFlowTable.get? key = some list)
      (hready : ¬toSizeT opt.minPackets ≤ list.length)
      (hactive : isTimeout opt (clock key) list = .ok false) :
      SinkEffect opt enc s .clean
        { s with cleanTask := .visit clock (s.flowTable.mFlowTable.next? key) }
  | discard (clock : String → ℤ) (key : String) (list : List ParsedPacket)
      (hpc : s.cleanTask = .visit clock (some key))
      (hget : s.flowTable.mFlowTable.get? key = some list)
      (hready : ¬toSizeT opt.minPackets ≤ list.length)
      (hidle : isTimeout opt (clock key) list = .ok true) :
      SinkEffect opt enc s .clean
        { s with
          cleanTask := .visit clock (s.flowTable.mFlowTable.next? key)
          flowTable := s.flowTable.discard key list (clock key) }
  | takeClean (clock : String → ℤ) (key : String) (list : List ParsedPacket) (flow : HdFlow)
      (d : DrainState (TableUser μ) n) (hpc : s.cleanTask = .visit clock (some key))
      (hget : s.flowTable.mFlowTable.get? key = some list)
      (hready : toSizeT opt.minPackets ≤ list.length) (hflow : HdFlow.ofData key list = .ok flow)
      (hload : kafkaSinkStep opt s.toDrainState (.load .clean) = some d) :
      SinkEffect opt enc s .clean
        { s with
          cleanTask := .enqueue clock key
          flowTable := s.flowTable.take key flow
          toDrainState := d }
  | appendClean (clock : String → ℤ) (key : String) (d : DrainState (TableUser μ) n)
      (hpc : s.cleanTask = .enqueue clock key)
      (happend : kafkaSinkStep opt s.toDrainState (.append .clean) = some d) :
      SinkEffect opt enc s .clean
        { s with
          cleanTask := .visit clock (s.flowTable.mFlowTable.next? key)
          flowTable := s.flowTable.erase key
          toDrainState := d }
  | publish (c : Fin n × ℕ) (d : DrainState (TableUser μ) n)
      (hasync : s.mTaskExecutor.async c = .running)
      (hdrain : kafkaSinkStep opt s.toDrainState (.executor (.async c)) = some d) :
      SinkEffect opt enc s (.drain (.executor (.async c)))
        { s with
          published := s.published ++
            (s.batch c).zip (enc.sent c (s.flowTable.flowsAt (s.batch c)))
          toDrainState := d }
  | drain (a : DrainAction (TableUser μ) n) (d : DrainState (TableUser μ) n)
      (hdrain : kafkaSinkStep opt s.toDrainState a = some d)
      (hload : ∀ u, a ≠ .load u) (happend : ∀ u, a ≠ .append u)
      (hidle : ∀ c, a = .executor (.async c) → s.mTaskExecutor.async c ≠ .running) :
      SinkEffect opt enc s (.drain a) { s with toDrainState := d }

theorem SinkState.drainStep_eq {a : DrainAction (TableUser μ) n}
    (h : s.drainStep opt a = some t) :
    ∃ d, kafkaSinkStep opt s.toDrainState a = some d ∧ { s with toDrainState := d } = t :=
  Option.map_eq_some_iff.mp h

theorem mergeStep_effect {c : μ} (hstep : mergeStep opt s c = some t) :
    SinkEffect opt enc s (.merge c) t := by
  unfold mergeStep at hstep
  split at hstep
  · contradiction
  · next hpc =>
      obtain rfl := Option.some.inj hstep
      exact .unlockMerge c hpc
  · next parsed rest hpc =>
      simp only at hstep
      split at hstep
      · next hready =>
          -- the list is full
          split at hstep
          · contradiction
          · next flow hflow =>
              obtain ⟨d, hload, rfl⟩ := SinkState.drainStep_eq hstep
              exact .takeMerge c parsed rest flow d hpc (of_decide_eq_true hready) hflow hload
      · next hready =>
          obtain rfl := Option.some.inj hstep
          exact .emplace c parsed rest hpc fun h => hready (decide_eq_true h)
  · next parsed rest hpc =>
      obtain ⟨d, happend, rfl⟩ := SinkState.drainStep_eq hstep
      exact .appendMerge c parsed rest d hpc happend

theorem cleanTaskStep_effect (hstep : cleanTaskStep opt s = some t) :
    SinkEffect opt enc s .clean t := by
  unfold cleanTaskStep at hstep
  split at hstep
  · next hpc =>
      obtain rfl := Option.some.inj hstep
      refine .outsideTable _ (.inl ⟨hpc, ?_⟩)
      cases s.isRunning with
      | true => exact .inl rfl
      | false => exact .inr rfl
  · next hpc =>
      obtain rfl := Option.some.inj hstep
      exact .outsideTable _ (.inr ⟨hpc, rfl⟩)
  · contradiction
  · next clock hpc =>
      obtain rfl := Option.some.inj hstep
      exact .unlockClean clock hpc
  · next clock key hpc =>
      split at hstep
      · contradiction
      · next list hget =>
          simp only at hstep
          split at hstep
          · next hready =>
              split at hstep
              · contradiction
              · next flow hflow =>
                  obtain ⟨d, hload, rfl⟩ := SinkState.drainStep_eq hstep
                  exact .takeClean clock key list flow d hpc hget hready hflow hload
          · next hready =>
              split at hstep
              · contradiction
              · next hidle =>
                  obtain rfl := Option.some.inj hstep
                  exact .discard clock key list hpc hget hready hidle
              · next hactive =>
                  obtain rfl := Option.some.inj hstep
                  exact .keep clock key list hpc hget hready hactive
  · next clock key hpc =>
      obtain ⟨d, happend, rfl⟩ := SinkState.drainStep_eq hstep
      exact .appendClean clock key d hpc happend
  · contradiction

theorem SinkEffect.of_drainStep {a : DrainAction (TableUser μ) n}
    (hstep : s.drainStep opt a = some t) (hload : ∀ u, a ≠ .load u) (happend : ∀ u, a ≠ .append u)
    (hidle : ∀ c, a = .executor (.async c) → s.mTaskExecutor.async c ≠ .running) :
    SinkEffect opt enc s (.drain a) t := by
  obtain ⟨d, hdrain, rfl⟩ := SinkState.drainStep_eq hstep
  exact .drain a d hdrain hload happend hidle

theorem sinkStep_effect {a : SinkAction μ n} (hstep : sinkStep opt enc s a = some t) :
    SinkEffect opt enc s a t := by
  cases a with
  | lockMerge c parsedList =>
      simp only [sinkStep] at hstep
      split at hstep
      · next hpc hfree =>
          obtain rfl := Option.some.inj hstep
          exact .lockMerge c parsedList hpc hfree
      · contradiction
  | merge c => exact mergeStep_effect hstep
  | lockClean clock =>
      simp only [sinkStep] at hstep
      split at hstep
      · next hpc hfree =>
          obtain rfl := Option.some.inj hstep
          exact .lockClean clock hpc hfree
      · contradiction
  | clean => exact cleanTaskStep_effect hstep
  | drain a =>
      cases a with
      | load u => nomatch hstep
      | append u => nomatch hstep
      | owner =>
          simp only [sinkStep] at hstep
          split at hstep
          · exact .of_drainStep hstep nofun nofun nofun
          · contradiction
          · exact .of_drainStep hstep nofun nofun nofun
      | executor a =>
          cases a with
          | async c =>
              simp only [sinkStep] at hstep
              split at hstep
              · next hasync =>
                  obtain ⟨u, hu, hstep⟩ := Option.bind_eq_some_iff.mp hstep
                  unfold SinkState.publish at hu
                  split at hu
                  · obtain rfl := Option.some.inj hu
                    obtain ⟨d, hdrain, rfl⟩ := SinkState.drainStep_eq hstep
                    exact .publish c d hasync hdrain
                  · contradiction
              · next hidle =>
                  refine .of_drainStep hstep nofun nofun ?_
                  rintro c' hc'
                  obtain rfl : c = c' := by simpa using hc'
                  exact hidle
          | _ => exact .of_drainStep hstep nofun nofun nofun
      | _ => exact .of_drainStep hstep nofun nofun nofun

/-! ### The lock and the queue -/

/-- The call has locked the mutex. -/
def MakeFlowPc.inside : MakeFlowPc → Bool
  | .outside => false
  | _ => true

/-- The call is in `enqueue`. -/
def MakeFlowPc.enqueueing : MakeFlowPc → Bool
  | .enqueue _ _ => true
  | _ => false

/-- The clean thread has locked the mutex. -/
def CleanTaskPc.inside : CleanTaskPc → Bool
  | .visit _ _ | .enqueue _ _ => true
  | _ => false

/-- The clean thread is in `enqueue`. -/
def CleanTaskPc.enqueueing : CleanTaskPc → Bool
  | .enqueue _ _ => true
  | _ => false

/-- The thread is at a point where it has locked the mutex. -/
def SinkState.inside (s : SinkState μ n α) : TableUser μ → Bool
  | .makeFlow c => (s.makeFlow c).inside
  | .clean => s.cleanTask.inside

/-- The thread is in `enqueue`. -/
def SinkState.enqueueing (s : SinkState μ n α) : TableUser μ → Bool
  | .makeFlow c => (s.makeFlow c).enqueueing
  | .clean => s.cleanTask.enqueueing

omit [DecidableEq μ] in
/-- `enqueue` is called under the lock. -/
theorem SinkState.inside_of_enqueueing {u : TableUser μ} (h : s.enqueueing u = true) :
    s.inside u = true := by
  cases u with
  | makeFlow c =>
      show (s.makeFlow c).inside = true
      have hpc : (s.makeFlow c).enqueueing = true := h
      revert hpc
      cases s.makeFlow c <;> simp [MakeFlowPc.enqueueing, MakeFlowPc.inside]
  | clean =>
      show s.cleanTask.inside = true
      have hpc : s.cleanTask.enqueueing = true := h
      revert hpc
      cases s.cleanTask <;> simp [CleanTaskPc.enqueueing, CleanTaskPc.inside]

/-- The mutex is locked by the thread that is in the table, and the threads that have loaded
`current` are those in `enqueue`. -/
structure SinkState.Exclusive (s : SinkState μ n α) : Prop where
  owned : Mutex.Owned s.mtxAccessToFlowTable s.inside
  idle_iff : ∀ u, s.doubleBufferQueue.producer u = .idle ↔ s.enqueueing u = false

section Queue

variable {π : Type} [DecidableEq π] {d d' : DrainState π n}

theorem kafkaSinkStep_load {u : π} (h : kafkaSinkStep opt d (.load u) = some d') :
    d.doubleBufferQueue.producer u = .idle ∧ d' =
      { d with
        enqueued := d.enqueued + 1
        doubleBufferQueue := { d.doubleBufferQueue with
          producer := Function.update d.doubleBufferQueue.producer u
            (.loaded d.doubleBufferQueue.current d.enqueued) } } := by
  obtain ⟨q, hq, rfl⟩ := queueStep_eq h
  obtain ⟨hidle, rfl⟩ := queueStep_load.mp hq
  exact ⟨hidle, rfl⟩

theorem kafkaSinkStep_append {u : π} (h : kafkaSinkStep opt d (.append u) = some d') :
    ∃ k item, d.doubleBufferQueue.producer u = .loaded k item ∧ d' =
      { d with doubleBufferQueue := { d.doubleBufferQueue with
          queues := Function.update d.doubleBufferQueue.queues k
            (d.doubleBufferQueue.queues k ++ [item])
          producer := Function.update d.doubleBufferQueue.producer u .idle
          appended := d.doubleBufferQueue.appended ++ [item] } } := by
  obtain ⟨q, hq, rfl⟩ := queueStep_eq h
  obtain ⟨k, item, hloaded, rfl⟩ := queueStep_append.mp hq
  exact ⟨k, item, hloaded, rfl⟩

/-- The rest of the sink leaves the producers alone, and enqueues nothing. -/
theorem producer_of_kafkaSinkStep {a : DrainAction π n} (h : kafkaSinkStep opt d a = some d')
    (hload : ∀ u, a ≠ .load u) (happend : ∀ u, a ≠ .append u) :
    d'.doubleBufferQueue.producer = d.doubleBufferQueue.producer ∧ d'.enqueued = d.enqueued := by
  cases drainStep_effect (drainStep_of_kafkaSinkStep h) with
  | load p => exact absurd rfl (hload p)
  | append p => exact absurd rfl (happend p)
  | read w b q _ hb hq =>
      rcases hb with rfl | rfl
      · obtain ⟨-, rfl⟩ := queueStep_readLoad.mp hq
        exact ⟨rfl, rfl⟩
      · obtain ⟨k, -, rfl⟩ := queueStep_readStore.mp hq
        exact ⟨rfl, rfl⟩
  | swap w k q _ _ hq =>
      obtain ⟨k', -, rfl⟩ := queueStep_readSwap.mp hq
      exact ⟨rfl, rfl⟩
  | _ => exact ⟨rfl, rfl⟩

end Queue

omit [DecidableEq μ] in
/-- A thread takes a step in the table, and with it what is shown of it changes. -/
theorem SinkState.Exclusive.step (hs : s.Exclusive) {u : TableUser μ}
    (hlock : Mutex.StepBy u s.mtxAccessToFlowTable (s.inside u) t.mtxAccessToFlowTable
      (t.inside u))
    (hinside : ∀ v, v ≠ u → t.inside v = s.inside v)
    (henqueueing : ∀ v, v ≠ u → t.enqueueing v = s.enqueueing v)
    (hidle : t.doubleBufferQueue.producer u = .idle ↔ t.enqueueing u = false)
    (hproducer : ∀ v, v ≠ u →
      t.doubleBufferQueue.producer v = s.doubleBufferQueue.producer v) : t.Exclusive := by
  refine ⟨hs.owned.step hlock hinside, fun v => ?_⟩
  rcases eq_or_ne v u with rfl | hne
  · exact hidle
  · rw [hproducer v hne, henqueueing v hne]
    exact hs.idle_iff v

/-- A call of `MakeFlow` takes such a step. -/
theorem SinkState.Exclusive.makeFlowStep (hs : s.Exclusive) {c : μ} {pc : MakeFlowPc}
    (hpc : t.makeFlow = Function.update s.makeFlow c pc) (hclean : t.cleanTask = s.cleanTask)
    (hlock : Mutex.StepBy (.makeFlow c) s.mtxAccessToFlowTable (s.makeFlow c).inside
      t.mtxAccessToFlowTable pc.inside)
    (hidle : t.doubleBufferQueue.producer (.makeFlow c) = .idle ↔ pc.enqueueing = false)
    (hproducer : ∀ v, v ≠ .makeFlow c →
      t.doubleBufferQueue.producer v = s.doubleBufferQueue.producer v) : t.Exclusive := by
  have hself : t.makeFlow c = pc := by rw [hpc, Function.update_self]
  have hother : ∀ c', c' ≠ c → t.makeFlow c' = s.makeFlow c' := fun c' hne => by
    rw [hpc, Function.update_of_ne hne]
  refine hs.step (u := .makeFlow c) ?_ ?_ ?_ ?_ hproducer
  · show Mutex.StepBy _ _ (s.makeFlow c).inside _ (t.makeFlow c).inside
    rwa [hself]
  · rintro (c' | _) hne
    · show (t.makeFlow c').inside = (s.makeFlow c').inside
      rw [hother c' fun h => hne (h ▸ rfl)]
    · show t.cleanTask.inside = s.cleanTask.inside
      rw [hclean]
  · rintro (c' | _) hne
    · show (t.makeFlow c').enqueueing = (s.makeFlow c').enqueueing
      rw [hother c' fun h => hne (h ▸ rfl)]
    · show t.cleanTask.enqueueing = s.cleanTask.enqueueing
      rw [hclean]
  · show _ ↔ (t.makeFlow c).enqueueing = false
    rwa [hself]

omit [DecidableEq μ] in
/-- So does the clean thread. -/
theorem SinkState.Exclusive.cleanStep (hs : s.Exclusive) {pc : CleanTaskPc}
    (hpc : t.cleanTask = pc) (hmakeFlow : t.makeFlow = s.makeFlow)
    (hlock : Mutex.StepBy .clean s.mtxAccessToFlowTable s.cleanTask.inside
      t.mtxAccessToFlowTable pc.inside)
    (hidle : t.doubleBufferQueue.producer .clean = .idle ↔ pc.enqueueing = false)
    (hproducer : ∀ v, v ≠ .clean →
      t.doubleBufferQueue.producer v = s.doubleBufferQueue.producer v) : t.Exclusive := by
  subst hpc
  refine hs.step (u := .clean) hlock ?_ ?_ hidle hproducer
  · rintro (c | _) hne
    · show (t.makeFlow c).inside = (s.makeFlow c).inside
      rw [hmakeFlow]
    · exact absurd rfl hne
  · rintro (c | _) hne
    · show (t.makeFlow c).enqueueing = (s.makeFlow c).enqueueing
      rw [hmakeFlow]
    · exact absurd rfl hne

theorem exclusive_step {a : SinkAction μ n} (hs : s.Exclusive)
    (hstep : sinkStep opt enc s a = some t) : t.Exclusive := by
  cases sinkStep_effect hstep with
  | lockMerge c parsedList hpc hfree =>
      refine hs.makeFlowStep rfl rfl (.lock hfree) ((hs.idle_iff _).trans ?_) fun _ _ => rfl
      simp [SinkState.enqueueing, hpc, MakeFlowPc.enqueueing]
  | unlockMerge c hpc =>
      refine hs.makeFlowStep rfl rfl (.unlock (by rw [hpc]; rfl)) ((hs.idle_iff _).trans ?_)
        fun _ _ => rfl
      simp [SinkState.enqueueing, hpc, MakeFlowPc.enqueueing]
  | emplace c parsed rest hpc =>
      refine hs.makeFlowStep rfl rfl (by rw [hpc]; exact .keep) ((hs.idle_iff _).trans ?_)
        fun _ _ => rfl
      simp [SinkState.enqueueing, hpc, MakeFlowPc.enqueueing]
  | takeMerge c parsed rest flow d hpc _ _ hload =>
      obtain ⟨-, rfl⟩ := kafkaSinkStep_load hload
      refine hs.makeFlowStep rfl rfl (by rw [hpc]; exact .keep) ?_ fun v hne => ?_
      · simp [MakeFlowPc.enqueueing]
      · exact Function.update_of_ne hne _ _
  | appendMerge c parsed rest d hpc happend =>
      obtain ⟨k, item, -, rfl⟩ := kafkaSinkStep_append happend
      refine hs.makeFlowStep rfl rfl (by rw [hpc]; exact .keep) ?_ fun v hne => ?_
      · simp [MakeFlowPc.enqueueing]
      · exact Function.update_of_ne hne _ _
  | outsideTable pc hpc =>
      have hout : s.cleanTask.inside = false ∧ pc.inside = false ∧
          s.cleanTask.enqueueing = false ∧ pc.enqueueing = false := by
        rcases hpc with ⟨h, rfl | rfl⟩ | ⟨h, rfl⟩ <;> rw [h] <;> exact ⟨rfl, rfl, rfl, rfl⟩
      obtain ⟨hinside, hinside', henqueueing, henqueueing'⟩ := hout
      refine hs.cleanStep rfl rfl (by rw [hinside, hinside']; exact .keep)
        ((hs.idle_iff _).trans ?_) fun _ _ => rfl
      exact iff_of_true henqueueing henqueueing'
  | lockClean clock hpc hfree =>
      refine hs.cleanStep rfl rfl (.lock hfree) ((hs.idle_iff _).trans ?_) fun _ _ => rfl
      simp [SinkState.enqueueing, hpc, CleanTaskPc.enqueueing]
  | unlockClean clock hpc =>
      refine hs.cleanStep rfl rfl (.unlock (by rw [hpc]; rfl)) ((hs.idle_iff _).trans ?_)
        fun _ _ => rfl
      simp [SinkState.enqueueing, hpc, CleanTaskPc.enqueueing]
  | keep clock key list hpc | discard clock key list hpc =>
      refine hs.cleanStep rfl rfl (by rw [hpc]; exact .keep) ((hs.idle_iff _).trans ?_)
        fun _ _ => rfl
      simp [SinkState.enqueueing, hpc, CleanTaskPc.enqueueing]
  | takeClean clock key list flow d hpc _ _ _ hload =>
      obtain ⟨-, rfl⟩ := kafkaSinkStep_load hload
      refine hs.cleanStep rfl rfl (by rw [hpc]; exact .keep) ?_ fun v hne => ?_
      · simp [CleanTaskPc.enqueueing]
      · exact Function.update_of_ne hne _ _
  | appendClean clock key d hpc happend =>
      obtain ⟨k, item, -, rfl⟩ := kafkaSinkStep_append happend
      refine hs.cleanStep rfl rfl (by rw [hpc]; exact .keep) ?_ fun v hne => ?_
      · simp [CleanTaskPc.enqueueing]
      · exact Function.update_of_ne hne _ _
  | publish c d _ hdrain =>
      have hproducer := (producer_of_kafkaSinkStep hdrain nofun nofun).1
      exact ⟨hs.owned, fun u => by rw [hproducer]; exact hs.idle_iff u⟩
  | drain a d hdrain hload happend =>
      have hproducer := (producer_of_kafkaSinkStep hdrain hload happend).1
      exact ⟨hs.owned, fun u => by rw [hproducer]; exact hs.idle_iff u⟩

theorem exclusive_of_reachable (hs : (sinkMachine opt enc μ).Reachable s) : s.Exclusive := by
  refine hs.invariant ⟨fun u => ?_, fun u => ?_⟩ fun _ _ _ hs hstep => exclusive_step hs hstep
  · cases u <;> exact iff_of_false nofun nofun
  · cases u <;> exact iff_of_true rfl rfl

end Hound
