import Hound.ToMathlib.Machine
import Mathlib.Algebra.Order.Group.Multiset
import Mathlib.Data.Fin.Basic
import Mathlib.Tactic.Abel

/-!
# The double-buffered queue

`DoubleBufferQueue` has two containers and the atomic index `current` of the one that is filled.
Producers load the index and append to the container it names; a reader loads the index, stores
the other one and swaps the loaded container for an empty one. Loading, storing, appending and
swapping are one step each; any number of producers and readers take them in any order.

* `QueueState.Accounted` : the items appended so far are the items in the two containers and in
  the batches swapped out.
* `items_accounted` : this holds in every reachable state, and two reads in a row empty a queue
  at rest.
-/

namespace Hound

/-- The two values of `current`. -/
abbrev QueueIndex := Fin 2

/-- The initial value of `current`. -/
def QueueIndex.initial : QueueIndex := 0

/-- `(currentQueue + 1) & 0x1`. -/
def QueueIndex.other (k : QueueIndex) : QueueIndex := k + 1

theorem QueueIndex.other_ne : ∀ k : QueueIndex, k.other ≠ k := by decide

theorem QueueIndex.eq_zero_or_one : ∀ k : QueueIndex, k = 0 ∨ k = 1 := by decide

/-- Where a producer is in `enqueue`. -/
inductive ProducerPc (δ : Type) where
  | idle
  /-- `current.load()` has returned `index`; `item` is still to be appended. -/
  | loaded (index : QueueIndex) (item : δ)

/-- Where a reader is in `read`. -/
inductive ReaderPc where
  | idle
  /-- `currentQueue` has been loaded. -/
  | loaded (currentQueue : QueueIndex)
  /-- `nextQueue` has been stored. -/
  | stored (currentQueue : QueueIndex)

/-- A queue with producers `ι`, readers `ρ` and items `δ`. -/
structure QueueState (ι ρ δ : Type) where
  current : QueueIndex := .initial
  queues : QueueIndex → List δ := fun _ => []
  producer : ι → ProducerPc δ := fun _ => .idle
  reader : ρ → ReaderPc := fun _ => .idle
  /-- The items appended so far. -/
  appended : List δ := []
  /-- The batches swapped out so far. -/
  batches : List (List δ) := []

/-- The atomic steps. -/
inductive QueueAction (ι ρ δ : Type) where
  /-- `enqueue(item)` loads `current`. -/
  | load (p : ι) (item : δ)
  /-- `enqueue` appends to the container it has loaded. -/
  | append (p : ι)
  /-- `read()` loads `current`. -/
  | readLoad (r : ρ)
  /-- `read()` stores `(currentQueue + 1) & 0x1`. -/
  | readStore (r : ρ)
  /-- `read()` swaps the container it has loaded for an empty one and returns it. -/
  | readSwap (r : ρ)

variable {ι ρ δ : Type} [DecidableEq ι] [DecidableEq ρ]

/-- One step of a producer or a reader. -/
def queueStep (s : QueueState ι ρ δ) : QueueAction ι ρ δ → Option (QueueState ι ρ δ)
  | .load p item => match s.producer p with
      | .idle => some
          { s with producer := Function.update s.producer p (.loaded s.current item) }
      | .loaded _ _ => none
  | .append p => match s.producer p with
      | .loaded k item => some
          { s with
            queues := Function.update s.queues k (s.queues k ++ [item])
            producer := Function.update s.producer p .idle
            appended := s.appended ++ [item] }
      | .idle => none
  | .readLoad r => match s.reader r with
      | .idle => some { s with reader := Function.update s.reader r (.loaded s.current) }
      | _ => none
  | .readStore r => match s.reader r with
      | .loaded k => some
          { s with current := k.other, reader := Function.update s.reader r (.stored k) }
      | _ => none
  | .readSwap r => match s.reader r with
      | .stored k => some
          { s with
            queues := Function.update s.queues k []
            reader := Function.update s.reader r .idle
            batches := s.batches ++ [s.queues k] }
      | _ => none

/-- `DoubleBufferQueue` from its construction on. -/
def queueMachine (ι ρ δ : Type) [DecidableEq ι] [DecidableEq ρ] :
    Machine (QueueState ι ρ δ) (QueueAction ι ρ δ) where
  init := {}
  step := queueStep

/-! ### What a step does -/

theorem queueStep_load {s t : QueueState ι ρ δ} {p : ι} {item : δ} :
    queueStep s (.load p item) = some t ↔ s.producer p = .idle ∧
      t = { s with producer := Function.update s.producer p (.loaded s.current item) } := by
  cases hp : s.producer p <;> simp [queueStep, hp, eq_comm]

theorem queueStep_append {s t : QueueState ι ρ δ} {p : ι} :
    queueStep s (.append p) = some t ↔ ∃ k item, s.producer p = .loaded k item ∧
      t = { s with
            queues := Function.update s.queues k (s.queues k ++ [item])
            producer := Function.update s.producer p .idle
            appended := s.appended ++ [item] } := by
  cases hp : s.producer p <;> simp [queueStep, hp, eq_comm]

theorem queueStep_readLoad {s t : QueueState ι ρ δ} {r : ρ} :
    queueStep s (.readLoad r) = some t ↔ s.reader r = .idle ∧
      t = { s with reader := Function.update s.reader r (.loaded s.current) } := by
  cases hr : s.reader r <;> simp [queueStep, hr, eq_comm]

theorem queueStep_readStore {s t : QueueState ι ρ δ} {r : ρ} :
    queueStep s (.readStore r) = some t ↔ ∃ k, s.reader r = .loaded k ∧
      t = { s with current := k.other, reader := Function.update s.reader r (.stored k) } := by
  cases hr : s.reader r <;> simp [queueStep, hr, eq_comm]

theorem queueStep_readSwap {s t : QueueState ι ρ δ} {r : ρ} :
    queueStep s (.readSwap r) = some t ↔ ∃ k, s.reader r = .stored k ∧
      t = { s with
            queues := Function.update s.queues k []
            reader := Function.update s.reader r .idle
            batches := s.batches ++ [s.queues k] } := by
  cases hr : s.reader r <;> simp [queueStep, hr, eq_comm]

/-! ### Accounting -/

/-- No item is lost or duplicated. -/
def QueueState.Accounted (s : QueueState ι ρ δ) : Prop :=
  (s.appended : Multiset δ) =
    (s.queues 0 : Multiset δ) + (s.queues 1 : Multiset δ) + (s.batches.flatten : Multiset δ)

omit [DecidableEq ι] [DecidableEq ρ] in
theorem accounted_append {s : QueueState ι ρ δ} (hs : s.Accounted) (k : QueueIndex) (item : δ)
    (producer : ι → ProducerPc δ) :
    QueueState.Accounted
      { s with
        queues := Function.update s.queues k (s.queues k ++ [item])
        producer
        appended := s.appended ++ [item] } := by
  have hsum : ((s.appended ++ [item] : List δ) : Multiset δ) = s.appended + {item} := rfl
  -- the item is one more on either side, in one container or the other
  unfold QueueState.Accounted at hs ⊢
  rw [hsum, hs]
  rcases QueueIndex.eq_zero_or_one k with rfl | rfl
  · show _ = ((s.queues 0 ++ [item] : List δ) : Multiset δ) + s.queues 1 + _
    rw [← Multiset.coe_add, Multiset.coe_singleton]
    abel
  · show _ = s.queues 0 + ((s.queues 1 ++ [item] : List δ) : Multiset δ) + _
    rw [← Multiset.coe_add, Multiset.coe_singleton]
    abel

omit [DecidableEq ι] [DecidableEq ρ] in
theorem accounted_swap {s : QueueState ι ρ δ} (hs : s.Accounted) (k : QueueIndex)
    (reader : ρ → ReaderPc) :
    QueueState.Accounted
      { s with
        queues := Function.update s.queues k []
        reader
        batches := s.batches ++ [s.queues k] } := by
  have hflat : ((s.batches ++ [s.queues k]).flatten : Multiset δ) =
      s.batches.flatten + s.queues k := by
    rw [List.flatten_append, List.flatten_singleton, Multiset.coe_add]
  unfold QueueState.Accounted at hs ⊢
  rw [hs, hflat]
  rcases QueueIndex.eq_zero_or_one k with rfl | rfl
  · show _ = ((0 : Multiset δ) + s.queues 1) + (_ + s.queues 0)
    abel
  · show _ = (s.queues 0 + (0 : Multiset δ)) + (_ + s.queues 1)
    abel

/-- Every step accounts for the items. -/
theorem accounted_step {s t : QueueState ι ρ δ} (hs : s.Accounted) {a : QueueAction ι ρ δ}
    (hstep : queueStep s a = some t) : t.Accounted := by
  cases a with
  | load p item =>
      obtain ⟨-, rfl⟩ := queueStep_load.mp hstep
      exact hs
  | append p =>
      obtain ⟨k, item, -, rfl⟩ := queueStep_append.mp hstep
      exact accounted_append hs k item _
  | readLoad r =>
      obtain ⟨-, rfl⟩ := queueStep_readLoad.mp hstep
      exact hs
  | readStore r =>
      obtain ⟨k, -, rfl⟩ := queueStep_readStore.mp hstep
      exact hs
  | readSwap r =>
      obtain ⟨k, -, rfl⟩ := queueStep_readSwap.mp hstep
      exact accounted_swap hs k _

theorem accounted_of_reachable {s : QueueState ι ρ δ}
    (hs : (queueMachine ι ρ δ).Reachable s) : s.Accounted :=
  hs.invariant rfl fun _ _ _ hacc hstep => accounted_step hacc hstep

/-! ### Reading a queue at rest -/

/-- No operation is in flight. -/
def QueueState.Quiescent (s : QueueState ι ρ δ) : Prop :=
  (∀ p, s.producer p = .idle) ∧ ∀ r, s.reader r = .idle

/-- The steps of one `read()`. -/
def readSteps (r : ρ) : List (QueueAction ι ρ δ) := [.readLoad r, .readStore r, .readSwap r]

/-- An undisturbed `read()` returns the active container and makes the other one active. -/
theorem run_readSteps (s : QueueState ι ρ δ) {r : ρ} (hr : s.reader r = .idle) :
    (queueMachine ι ρ δ).run s (readSteps r) = some
      { s with
        current := s.current.other
        queues := Function.update s.queues s.current []
        batches := s.batches ++ [s.queues s.current] } := by
  -- the reader goes through its three stages and is idle again
  have hreader : Function.update (Function.update (Function.update s.reader r (.loaded s.current))
      r (.stored s.current)) r .idle = s.reader := by
    rw [Function.update_idem, Function.update_idem, ← hr, Function.update_eq_self]
  refine Machine.run_cons_eq_some _ |>.mpr ⟨_, queueStep_readLoad.mpr ⟨hr, rfl⟩, ?_⟩
  refine Machine.run_cons_eq_some _ |>.mpr
    ⟨_, queueStep_readStore.mpr ⟨s.current, Function.update_self .., rfl⟩, ?_⟩
  refine Machine.run_cons_eq_some _ |>.mpr
    ⟨_, queueStep_readSwap.mpr ⟨s.current, Function.update_self .., rfl⟩, ?_⟩
  rw [Machine.run_nil, hreader]

/-- Two reads in a row take both containers. -/
theorem run_readSteps_twice {s : QueueState ι ρ δ} (hquiet : s.Quiescent) (r r' : ρ) :
    (queueMachine ι ρ δ).run s (readSteps r ++ readSteps r') = some
      { s with
        current := s.current.other.other
        queues := Function.update (Function.update s.queues s.current []) s.current.other []
        batches := s.batches ++ [s.queues s.current, s.queues s.current.other] } := by
  -- the state between the two reads
  let between : QueueState ι ρ δ := { s with
    current := s.current.other
    queues := Function.update s.queues s.current []
    batches := s.batches ++ [s.queues s.current] }
  rw [Machine.run_append, run_readSteps s (hquiet.2 r), Option.bind_some]
  refine (run_readSteps between (hquiet.2 r')).trans ?_
  show some { s with
    current := s.current.other.other
    queues := Function.update (Function.update s.queues s.current []) s.current.other []
    batches := (s.batches ++ [s.queues s.current]) ++
      [Function.update s.queues s.current [] s.current.other] } = _
  rw [Function.update_of_ne s.current.other_ne, List.append_assoc]
  rfl

/-- In every reachable state the items appended so far are, with multiplicity, those in the two
containers and in the batches returned. Two reads in a row of a queue at rest return all items
and leave both containers empty. -/
theorem items_accounted {s : QueueState ι ρ δ} (hs : (queueMachine ι ρ δ).Reachable s) :
    (s.appended : Multiset δ) =
        (s.queues 0 : Multiset δ) + (s.queues 1 : Multiset δ) + (s.batches.flatten : Multiset δ) ∧
      (s.Quiescent → ∀ r r' : ρ, ∃ t, ∃ first second : List δ,
        (queueMachine ι ρ δ).run s (readSteps r ++ readSteps r') = some t ∧
          t.batches = s.batches ++ [first, second] ∧
          (first : Multiset δ) + (second : Multiset δ) =
            (s.queues 0 : Multiset δ) + (s.queues 1 : Multiset δ) ∧
          t.queues 0 = [] ∧ t.queues 1 = [] ∧ t.Quiescent) := by
  refine ⟨accounted_of_reachable hs, fun hquiet r r' => ?_⟩
  refine ⟨_, _, _, run_readSteps_twice hquiet r r', rfl, ?_⟩
  -- the two reads have taken the containers in one order or the other
  rcases QueueIndex.eq_zero_or_one s.current with hk | hk
  · simp only [hk]
    exact ⟨rfl, rfl, rfl, hquiet⟩
  · simp only [hk]
    exact ⟨add_comm _ _, rfl, rfl, hquiet⟩

/-- Two producers and a reader: the second item is appended to the container that the reader has
already retired. -/
def stalledProducer : List (QueueAction (Fin 2) Unit ℕ) :=
  [.load 0 7, .append 0, .load 1 8, .readLoad (), .readStore (), .readSwap (), .append 1]

/-- Both items are accounted for. -/
theorem items_accounted_stalledProducer :
    ∃ s, (queueMachine (Fin 2) Unit ℕ).run {} stalledProducer = some s ∧
      (s.appended : Multiset ℕ) = (s.queues 0 : Multiset ℕ) + (s.queues 1 : Multiset ℕ) +
        (s.batches.flatten : Multiset ℕ) := by
  have hrun : (queueMachine (Fin 2) Unit ℕ).run {} stalledProducer = some _ := rfl
  exact ⟨_, hrun, (items_accounted ⟨_, hrun⟩).1⟩

end Hound
