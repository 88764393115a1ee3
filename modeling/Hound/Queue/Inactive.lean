import Hound.Queue.DoubleBuffer

/-!
# Whether the swapped queue is inactive

The containers of `DoubleBufferQueue<hd_flow, std::vector<hd_flow>>` are plain vectors: an append
and a swap take time, and only readers exclude one another, by `read_`. Here both have a begin and
an end. The effect on the data is that of the end, which means something only as long as no append
and swap of one vector overlap.

* `FineState.abs` : the queue with atomic appends and swaps, which this one refines.
* `StepSafe` : a reader swaps only a container that is not active and that no stalled producer
  has loaded, and makes only a container active that is not being swapped.
* `queue_inactive` : runs of such steps never reach an overlap, and any other step leads to one.
-/

namespace Hound

/-- Where a producer is in `enqueue`. -/
inductive ProducerStage (δ : Type) where
  | idle
  | loaded (index : QueueIndex) (item : δ)
  /-- Between the begin and the end of `emplace_back`. -/
  | appending (index : QueueIndex) (item : δ)

/-- Where a reader is in `read`. -/
inductive ReaderStage where
  | idle
  | loaded (currentQueue : QueueIndex)
  | stored (currentQueue : QueueIndex)
  /-- Between the begin and the end of `swap`, with `read_` locked. -/
  | swapping (currentQueue : QueueIndex)
  deriving DecidableEq

/-- The index a producer holds. -/
def ProducerStage.index {δ : Type} : ProducerStage δ → Option QueueIndex
  | .idle => none
  | .loaded k _ => some k
  | .appending k _ => some k

/-- The queue with appends and swaps that take time. -/
structure FineState (ι ρ δ : Type) where
  current : QueueIndex := .initial
  queues : QueueIndex → List δ := fun _ => []
  producer : ι → ProducerStage δ := fun _ => .idle
  reader : ρ → ReaderStage := fun _ => .idle
  /-- The owner of `read_`. -/
  readLock : Option ρ := none
  appended : List δ := []
  batches : List (List δ) := []

/-- The steps of producers and readers. -/
inductive FineAction (ι ρ δ : Type) where
  | load (p : ι) (item : δ)
  | beginAppend (p : ι)
  | endAppend (p : ι)
  | readLoad (r : ρ)
  | readStore (r : ρ)
  /-- Lock `read_` and begin the swap. -/
  | beginSwap (r : ρ)
  /-- End the swap and unlock `read_`. -/
  | endSwap (r : ρ)

variable {ι ρ δ : Type} [DecidableEq ι] [DecidableEq ρ]

/-- One step. -/
def fineStep (s : FineState ι ρ δ) : FineAction ι ρ δ → Option (FineState ι ρ δ)
  | .load p item => match s.producer p with
      | .idle => some
          { s with producer := Function.update s.producer p (.loaded s.current item) }
      | _ => none
  | .beginAppend p => match s.producer p with
      | .loaded k item => some
          { s with producer := Function.update s.producer p (.appending k item) }
      | _ => none
  | .endAppend p => match s.producer p with
      | .appending k item => some
          { s with
            queues := Function.update s.queues k (s.queues k ++ [item])
            producer := Function.update s.producer p .idle
            appended := s.appended ++ [item] }
      | _ => none
  | .readLoad r => match s.reader r with
      | .idle => some { s with reader := Function.update s.reader r (.loaded s.current) }
      | _ => none
  | .readStore r => match s.reader r with
      | .loaded k => some
          { s with current := k.other, reader := Function.update s.reader r (.stored k) }
      | _ => none
  | .beginSwap r => match s.reader r, s.readLock with
      | .stored k, none => some
          { s with reader := Function.update s.reader r (.swapping k), readLock := some r }
      | _, _ => none
  | .endSwap r => match s.reader r with
      | .swapping k => some
          { s with
            queues := Function.update s.queues k []
            reader := Function.update s.reader r .idle
            readLock := none
            batches := s.batches ++ [s.queues k] }
      | _ => none

/-- `DoubleBufferQueue` from its construction on. -/
def fineMachine (ι ρ δ : Type) [DecidableEq ι] [DecidableEq ρ] :
    Machine (FineState ι ρ δ) (FineAction ι ρ δ) where
  init := {}
  step := fineStep

/-! ### What a step does -/

section Steps

variable {s t : FineState ι ρ δ} {p : ι} {r : ρ} {item : δ}

theorem fineStep_load : fineStep s (.load p item) = some t ↔ s.producer p = .idle ∧
    t = { s with producer := Function.update s.producer p (.loaded s.current item) } := by
  cases hp : s.producer p <;> simp [fineStep, hp, eq_comm]

theorem fineStep_beginAppend : fineStep s (.beginAppend p) = some t ↔
    ∃ k item, s.producer p = .loaded k item ∧
      t = { s with producer := Function.update s.producer p (.appending k item) } := by
  cases hp : s.producer p <;> simp [fineStep, hp, eq_comm]

theorem fineStep_endAppend : fineStep s (.endAppend p) = some t ↔
    ∃ k item, s.producer p = .appending k item ∧
      t = { s with
            queues := Function.update s.queues k (s.queues k ++ [item])
            producer := Function.update s.producer p .idle
            appended := s.appended ++ [item] } := by
  cases hp : s.producer p <;> simp [fineStep, hp, eq_comm]

theorem fineStep_readLoad : fineStep s (.readLoad r) = some t ↔ s.reader r = .idle ∧
    t = { s with reader := Function.update s.reader r (.loaded s.current) } := by
  cases hr : s.reader r <;> simp [fineStep, hr, eq_comm]

theorem fineStep_readStore : fineStep s (.readStore r) = some t ↔ ∃ k, s.reader r = .loaded k ∧
    t = { s with current := k.other, reader := Function.update s.reader r (.stored k) } := by
  cases hr : s.reader r <;> simp [fineStep, hr, eq_comm]

theorem fineStep_beginSwap : fineStep s (.beginSwap r) = some t ↔
    ∃ k, s.reader r = .stored k ∧ s.readLock = none ∧
      t = { s with reader := Function.update s.reader r (.swapping k), readLock := some r } := by
  cases hr : s.reader r <;> cases hl : s.readLock <;> simp [fineStep, hr, hl, eq_comm]

theorem fineStep_endSwap : fineStep s (.endSwap r) = some t ↔ ∃ k, s.reader r = .swapping k ∧
    t = { s with
          queues := Function.update s.queues k []
          reader := Function.update s.reader r .idle
          readLock := none
          batches := s.batches ++ [s.queues k] } := by
  cases hr : s.reader r <;> simp [fineStep, hr, eq_comm]

end Steps

/-! ### The atomic queue -/

/-- A producer that has begun its append has not appended yet. -/
def ProducerStage.pc : ProducerStage δ → ProducerPc δ
  | .idle => .idle
  | .loaded k item => .loaded k item
  | .appending k item => .loaded k item

/-- A reader that has begun its swap has not swapped yet. -/
def ReaderStage.pc : ReaderStage → ReaderPc
  | .idle => .idle
  | .loaded k => .loaded k
  | .stored k => .stored k
  | .swapping k => .stored k

/-- The queue in which an append and a swap happen at their end. -/
def FineState.abs (s : FineState ι ρ δ) : QueueState ι ρ δ where
  current := s.current
  queues := s.queues
  producer := ProducerStage.pc ∘ s.producer
  reader := ReaderStage.pc ∘ s.reader
  appended := s.appended
  batches := s.batches

/-- The atomic step a step completes, if it completes one. -/
def FineAction.abs : FineAction ι ρ δ → Option (QueueAction ι ρ δ)
  | .load p item => some (.load p item)
  | .beginAppend _ => none
  | .endAppend p => some (.append p)
  | .readLoad r => some (.readLoad r)
  | .readStore r => some (.readStore r)
  | .beginSwap _ => none
  | .endSwap r => some (.readSwap r)

/-- Every step is a step of the atomic queue or changes nothing there. -/
theorem abs_step {s t : FineState ι ρ δ} {a : FineAction ι ρ δ} (hstep : fineStep s a = some t) :
    (queueMachine ι ρ δ).StepOrStay s.abs a.abs t.abs := by
  cases a with
  | load p item =>
      obtain ⟨hp, rfl⟩ := fineStep_load.mp hstep
      refine queueStep_load.mpr ⟨congrArg ProducerStage.pc hp, ?_⟩
      simp only [FineState.abs, Function.comp_update]
      rfl
  | beginAppend p =>
      obtain ⟨k, item, hp, rfl⟩ := fineStep_beginAppend.mp hstep
      -- the atomic queue sees nothing of the begin
      have hpc : (ProducerStage.appending k item).pc = (s.producer p).pc := by
        rw [hp]
        rfl
      show FineState.abs _ = _
      simp only [FineState.abs, comp_update_of_eq hpc]
  | endAppend p =>
      obtain ⟨k, item, hp, rfl⟩ := fineStep_endAppend.mp hstep
      refine queueStep_append.mpr ⟨k, item, congrArg ProducerStage.pc hp, ?_⟩
      simp only [FineState.abs, Function.comp_update]
      rfl
  | readLoad r =>
      obtain ⟨hr, rfl⟩ := fineStep_readLoad.mp hstep
      refine queueStep_readLoad.mpr ⟨congrArg ReaderStage.pc hr, ?_⟩
      simp only [FineState.abs, Function.comp_update]
      rfl
  | readStore r =>
      obtain ⟨k, hr, rfl⟩ := fineStep_readStore.mp hstep
      refine queueStep_readStore.mpr ⟨k, congrArg ReaderStage.pc hr, ?_⟩
      simp only [FineState.abs, Function.comp_update]
      rfl
  | beginSwap r =>
      obtain ⟨k, hr, -, rfl⟩ := fineStep_beginSwap.mp hstep
      have hpc : (ReaderStage.swapping k).pc = (s.reader r).pc := by
        rw [hr]
        rfl
      show FineState.abs _ = _
      simp only [FineState.abs, comp_update_of_eq hpc]
  | endSwap r =>
      obtain ⟨k, hr, rfl⟩ := fineStep_endSwap.mp hstep
      refine queueStep_readSwap.mpr ⟨k, congrArg ReaderStage.pc hr, ?_⟩
      simp only [FineState.abs, Function.comp_update]
      rfl

/-- The queue refines the atomic one. -/
theorem abs_reachable {s : FineState ι ρ δ} (hs : (fineMachine ι ρ δ).Reachable s) :
    (queueMachine ι ρ δ).Reachable s.abs :=
  hs.map rfl fun _ a _ hstep => ⟨a.abs, abs_step hstep⟩

/-- The items are accounted for when appends and swaps take time, too. -/
theorem abs_accounted {s : FineState ι ρ δ} (hs : (fineMachine ι ρ δ).Reachable s) :
    s.abs.Accounted :=
  accounted_of_reachable (abs_reachable hs)

/-! ### Overlaps -/

/-- A container that is being swapped is not the active one, and nobody appends to it. -/
def FineState.Safe (s : FineState ι ρ δ) : Prop :=
  ∀ r k, s.reader r = .swapping k →
    s.current ≠ k ∧ ∀ p item, s.producer p ≠ .appending k item

/-- A container that is being swapped is not the active one, and no producer holds its index. -/
def FineState.Retired (s : FineState ι ρ δ) : Prop :=
  ∀ r k, s.reader r = .swapping k → s.current ≠ k ∧ ∀ p, (s.producer p).index ≠ some k

omit [DecidableEq ι] [DecidableEq ρ] in
theorem FineState.Retired.safe {s : FineState ι ρ δ} (hs : s.Retired) : s.Safe := by
  intro r k hr
  obtain ⟨hcurrent, hindex⟩ := hs r k hr
  refine ⟨hcurrent, fun p item hp => hindex p ?_⟩
  rw [hp]
  rfl

/-- The condition on a step: a swap begins only on a container that is not active and whose index
no producer holds, and a container is made active only when nobody swaps it. -/
def StepSafe (s : FineState ι ρ δ) : FineAction ι ρ δ → Prop
  | .beginSwap r => ∀ k, s.reader r = .stored k →
      s.current ≠ k ∧ ∀ p, (s.producer p).index ≠ some k
  | .readStore r => ∀ k, s.reader r = .loaded k → ∀ r', s.reader r' ≠ .swapping k.other
  | _ => True

/-- A reader that is not swapping after its step does not count. -/
theorem reader_of_update {f : ρ → ReaderStage} {r r' : ρ} {stage : ReaderStage} {k : QueueIndex}
    (h : Function.update f r stage r' = .swapping k) (hstage : stage ≠ .swapping k) :
    f r' = .swapping k := by
  rcases eq_or_ne r' r with rfl | hne
  · rw [Function.update_self] at h
    exact absurd h hstage
  · rwa [Function.update_of_ne hne] at h

/-- A producer's step to a stage with another index keeps an index free. -/
theorem index_update_ne {f : ι → ProducerStage δ} {p : ι} {stage : ProducerStage δ}
    {k : QueueIndex} (hf : ∀ p, (f p).index ≠ some k) (hstage : stage.index ≠ some k) (p' : ι) :
    (Function.update f p stage p').index ≠ some k := by
  rcases eq_or_ne p' p with rfl | hne
  · rwa [Function.update_self]
  · rw [Function.update_of_ne hne]
    exact hf p'

/-- A step that meets the condition keeps swapped containers retired. -/
theorem retired_step {s t : FineState ι ρ δ} {a : FineAction ι ρ δ} (hs : s.Retired)
    (hsafe : StepSafe s a) (hstep : fineStep s a = some t) : t.Retired := by
  intro r' k' hr'
  cases a with
  | load p item =>
      obtain ⟨-, rfl⟩ := fineStep_load.mp hstep
      obtain ⟨hcurrent, hindex⟩ := hs r' k' hr'
      -- the index loaded is the active one
      exact ⟨hcurrent, index_update_ne hindex fun h => hcurrent (Option.some.inj h)⟩
  | beginAppend p =>
      obtain ⟨k, item, hp, rfl⟩ := fineStep_beginAppend.mp hstep
      obtain ⟨hcurrent, hindex⟩ := hs r' k' hr'
      -- the producer goes on holding the index it has loaded
      have hk : some k ≠ some k' := by
        have hpk := hindex p
        rwa [hp] at hpk
      exact ⟨hcurrent, index_update_ne hindex hk⟩
  | endAppend p =>
      obtain ⟨k, item, -, rfl⟩ := fineStep_endAppend.mp hstep
      obtain ⟨hcurrent, hindex⟩ := hs r' k' hr'
      exact ⟨hcurrent, index_update_ne hindex nofun⟩
  | readLoad r =>
      obtain ⟨-, rfl⟩ := fineStep_readLoad.mp hstep
      exact hs r' k' (reader_of_update hr' nofun)
  | readStore r =>
      obtain ⟨k, hr, rfl⟩ := fineStep_readStore.mp hstep
      have hold := reader_of_update hr' nofun
      -- the container made active is not one that is being swapped
      refine ⟨?_, (hs r' k' hold).2⟩
      rintro rfl
      exact hsafe k hr r' hold
  | beginSwap r =>
      obtain ⟨k, hr, -, rfl⟩ := fineStep_beginSwap.mp hstep
      -- the swap that begins, or one that has begun before
      rcases eq_or_ne k k' with rfl | hne
      · exact hsafe k hr
      · exact hs r' k' (reader_of_update hr' fun h => hne (ReaderStage.swapping.inj h))
  | endSwap r =>
      obtain ⟨k, -, rfl⟩ := fineStep_endSwap.mp hstep
      exact hs r' k' (reader_of_update hr' nofun)

/-- A swap of a container whose index a producer holds overlaps with the producer's append, at the
latest when it begins. -/
theorem exists_later_not_safe {s : FineState ι ρ δ} {r : ρ} {k : QueueIndex}
    (hr : s.reader r = .swapping k) {p : ι} (hp : (s.producer p).index = some k) :
    ∃ u, (fineMachine ι ρ δ).Later s u ∧ ¬u.Safe := by
  cases hstage : s.producer p with
  | idle =>
      rw [hstage] at hp
      nomatch hp
  | loaded j item =>
      rw [hstage] at hp
      obtain rfl : j = k := Option.some.inj hp
      have hbegin : (fineMachine ι ρ δ).step s (.beginAppend p) = some _ :=
        fineStep_beginAppend.mpr ⟨j, item, hstage, rfl⟩
      exact ⟨_, Machine.Later.single hbegin,
        fun h => (h r j hr).2 p item (Function.update_self ..)⟩
  | appending j item =>
      rw [hstage] at hp
      obtain rfl : j = k := Option.some.inj hp
      exact ⟨s, Machine.Later.refl s, fun h => (h r j hr).2 p item hstage⟩

/-- A step that does not meet the condition leads to an overlap. -/
theorem exists_later_not_safe_of_step {s t : FineState ι ρ δ} {a : FineAction ι ρ δ}
    (hstep : fineStep s a = some t) (hnot : ¬StepSafe s a) :
    ∃ u, (fineMachine ι ρ δ).Later t u ∧ ¬u.Safe := by
  cases a with
  | readStore r =>
      obtain ⟨k, hr, rfl⟩ := fineStep_readStore.mp hstep
      simp only [StepSafe, not_forall, not_not] at hnot
      obtain ⟨j, hj, r', hr'⟩ := hnot
      obtain rfl : k = j := ReaderStage.loaded.inj (hr.symm.trans hj)
      -- the reader itself has only loaded an index so far
      have hne : r' ≠ r := by
        rintro rfl
        rw [hr] at hr'
        nomatch hr'
      refine ⟨_, Machine.Later.refl _, fun h => (h r' k.other ?_).1 rfl⟩
      exact (Function.update_of_ne hne ..).trans hr'
  | beginSwap r =>
      obtain ⟨k, hr, -, rfl⟩ := fineStep_beginSwap.mp hstep
      simp only [StepSafe, not_forall] at hnot
      obtain ⟨j, hj, hbad⟩ := hnot
      obtain rfl : k = j := ReaderStage.stored.inj (hr.symm.trans hj)
      have hswapping : Function.update s.reader r (.swapping k) r = .swapping k :=
        Function.update_self ..
      rcases eq_or_ne s.current k with hk | hk
      · exact ⟨_, Machine.Later.refl _, fun h => (h r k hswapping).1 hk⟩
      · -- the container is not active, so some producer holds its index
        have hheld : ∃ p, (s.producer p).index = some k := by
          by_contra hnone
          exact hbad ⟨hk, not_exists.mp hnone⟩
        obtain ⟨p, hp⟩ := hheld
        exact exists_later_not_safe hswapping hp
  | load | beginAppend | endAppend | readLoad | endSwap => exact absurd trivial hnot

/-- A run whose steps meet the condition never reaches an overlap, and every step that does not
meet it leads to one. -/
theorem queue_inactive :
    (∀ as (s : FineState ι ρ δ), (fineMachine ι ρ δ).run {} as = some s →
        (fineMachine ι ρ δ).StepsMeet StepSafe {} as → s.Safe) ∧
      ∀ (s t : FineState ι ρ δ) a, (fineMachine ι ρ δ).step s a = some t → ¬StepSafe s a →
        ∃ u, (fineMachine ι ρ δ).Later t u ∧ ¬u.Safe := by
  constructor
  · intro as s hrun hmeet
    have hinit : ({} : FineState ι ρ δ).Retired := fun r k hr => nomatch hr
    have hretired : s.Retired :=
      Machine.StepsMeet.run_induction (P := FineState.Retired)
        (fun _ _ _ _ hs hsafe hstep => retired_step hs hsafe hstep) as Machine.Reachable.init hmeet
        hinit hrun
    exact hretired.safe
  · exact fun s t a => exists_later_not_safe_of_step

/-- An append that is over before the read begins. -/
def undisturbedRead : List (FineAction Unit Unit ℕ) :=
  [.load () 7, .beginAppend (), .endAppend (), .readLoad (), .readStore (), .beginSwap ()]

/-- The reader swaps the container it has retired, and nobody else touches it. -/
theorem queue_inactive_undisturbedRead :
    ∃ s, (fineMachine Unit Unit ℕ).run {} undisturbedRead = some s ∧
      s.reader () = .swapping 0 ∧ s.Safe := by
  have hrun : (fineMachine Unit Unit ℕ).run {} undisturbedRead = some _ := rfl
  refine ⟨_, hrun, rfl, queue_inactive.1 undisturbedRead _ hrun ?_⟩
  -- only the last two steps have a condition to meet
  refine .cons trivial rfl (.cons trivial rfl (.cons trivial rfl (.cons trivial rfl ?_)))
  refine .cons (fun _ _ r' => nofun) rfl (.cons (fun k hk => ?_) rfl trivial)
  obtain rfl : 0 = k := ReaderStage.stored.inj hk
  exact ⟨by decide, fun _ => nofun⟩

/-- The producer loads the index, the reader retires the container and begins to swap it, and the
producer begins its append. -/
theorem queue_inactive_stalledProducer :
    ¬∀ s : FineState Unit Unit ℕ, (fineMachine Unit Unit ℕ).Reachable s → s.Safe := by
  intro h
  have hrun : (fineMachine Unit Unit ℕ).run {}
      [.load () 7, .readLoad (), .readStore (), .beginSwap (), .beginAppend ()] = some _ := rfl
  exact (h _ ⟨_, hrun⟩ () 0 rfl).2 () 7 rfl

end Hound
