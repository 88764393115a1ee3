import Hound.Queue.DoubleBuffer

/-!
# The order of the queue

One producer enqueues and one reader reads. The reader returns the items in the order in which they
were enqueued as long as it swaps out no container whose index the producer has loaded: an item that
is appended to a container after the swap waits there until the reader comes back to it, and the
items enqueued later, which go to the other container, overtake it.

* `QueueState.InOrder` : the batches, the container that is retired and the active one make up what
  was enqueued, in this order.
* `queue_ordered` : under which condition the order is kept.
-/

namespace Hound

variable {δ : Type}

/-- What has been returned is what was enqueued first. -/
def QueueState.Ordered (s : QueueState Unit Unit δ) : Prop := s.batches.flatten <+: s.appended

/-- The condition on a step: a container is swapped out only when the producer does not hold its
index. -/
def SwapsUnheld (s : QueueState Unit Unit δ) : QueueAction Unit Unit δ → Prop
  | .readSwap r => ∀ k, s.reader r = .stored k → ∀ item, s.producer () ≠ .loaded k item
  | _ => True

theorem QueueIndex.other_other : ∀ k : QueueIndex, k.other.other = k := by decide

theorem QueueIndex.eq_or_eq_other : ∀ k j : QueueIndex, k = j ∨ k = j.other := by decide

/-- There is only one place to update. -/
theorem update_unit {α : Type} (f : Unit → α) (u : Unit) (a : α) : Function.update f u a () = a :=
  Function.update_self u a f

/-! ### The index of the reader -/

/-- With one reader, the index it has loaded is the active one until it stores the other one. -/
structure QueueState.ReadsActive (s : QueueState Unit Unit δ) : Prop where
  loaded : ∀ k, s.reader () = .loaded k → s.current = k
  stored : ∀ k, s.reader () = .stored k → s.current = k.other

theorem readsActive_step {s t : QueueState Unit Unit δ} (hs : s.ReadsActive)
    {a : QueueAction Unit Unit δ} (hstep : queueStep s a = some t) : t.ReadsActive := by
  cases a with
  | load p item =>
      obtain ⟨-, rfl⟩ := queueStep_load.mp hstep
      exact ⟨hs.loaded, hs.stored⟩
  | append p =>
      obtain ⟨k, item, -, rfl⟩ := queueStep_append.mp hstep
      exact ⟨hs.loaded, hs.stored⟩
  | readLoad r =>
      obtain ⟨-, rfl⟩ := queueStep_readLoad.mp hstep
      constructor <;> intro k hk <;> simp only [update_unit] at hk
      · exact ReaderPc.loaded.inj hk
      · cases hk
  | readStore r =>
      obtain ⟨j, -, rfl⟩ := queueStep_readStore.mp hstep
      constructor <;> intro k hk <;> simp only [update_unit] at hk
      · cases hk
      · exact congrArg QueueIndex.other (ReaderPc.stored.inj hk)
  | readSwap r =>
      obtain ⟨j, -, rfl⟩ := queueStep_readSwap.mp hstep
      constructor <;> intro k hk <;> simp only [update_unit] at hk
      · cases hk
      · cases hk

theorem readsActive_initial : QueueState.ReadsActive ({} : QueueState Unit Unit δ) where
  loaded _ hk := by cases hk
  stored _ hk := by cases hk

theorem readsActive_of_reachable {s : QueueState Unit Unit δ}
    (hs : (queueMachine Unit Unit δ).Reachable s) : s.ReadsActive :=
  hs.invariant readsActive_initial fun _ _ _ hact hstep => readsActive_step hact hstep

/-! ### Runs that keep the order -/

/-- What holds while the order is kept. `s.current.other` is the container that is read before the
active one, and empty unless the reader is about to swap it out. -/
structure QueueState.InOrder (s : QueueState Unit Unit δ) : Prop where
  appended_eq : s.appended =
    s.batches.flatten ++ s.queues s.current.other ++ s.queues s.current
  /-- Between two reads nothing is in the other container, and nothing is on the way there. -/
  retired : (∀ k, s.reader () ≠ .stored k) → s.queues s.current.other = [] ∧
    ∀ item, s.producer () ≠ .loaded s.current.other item
  /-- An item on the way to the other container has not been overtaken. -/
  held : ∀ item, s.producer () = .loaded s.current.other item → s.queues s.current = []

theorem inOrder_initial : QueueState.InOrder ({} : QueueState Unit Unit δ) where
  appended_eq := rfl
  retired _ := ⟨rfl, fun _ hp => by cases hp⟩
  held _ hp := by cases hp

/-- An append goes to the end of what has not been read. -/
theorem inOrder_append {s : QueueState Unit Unit δ} (hs : s.InOrder) {k : QueueIndex} {item : δ}
    (hp : s.producer () = .loaded k item) (p : Unit) :
    QueueState.InOrder
      { s with
        queues := Function.update s.queues k (s.queues k ++ [item])
        producer := Function.update s.producer p .idle
        appended := s.appended ++ [item] } := by
  have hidle : ∀ j item', Function.update s.producer p .idle () ≠ .loaded j item' := by
    intro j item' h
    rw [update_unit] at h
    cases h
  have hne := s.current.other_ne
  -- the producer has loaded the active index or the other one
  obtain rfl | rfl := k.eq_or_eq_other s.current
  · refine ⟨?_, fun hreader => ⟨?_, hidle _⟩, fun item' h => absurd h (hidle _ item')⟩
    · simp only [Function.update_self, Function.update_of_ne hne]
      rw [hs.appended_eq, List.append_assoc]
    · exact (Function.update_of_ne hne ..).trans (hs.retired hreader).1
  · -- nothing is in the active container yet, so the item is the last one
    have hempty := hs.held item hp
    refine ⟨?_, fun hreader => ?_, fun item' h => absurd h (hidle _ item')⟩
    · simp only [Function.update_self, Function.update_of_ne hne.symm]
      rw [hs.appended_eq, hempty, List.append_nil, List.append_nil, List.append_assoc]
    · exact absurd hp ((hs.retired hreader).2 item)

/-- A step that meets the condition keeps the order. -/
theorem inOrder_step {s t : QueueState Unit Unit δ} (hact : s.ReadsActive) (hs : s.InOrder)
    {a : QueueAction Unit Unit δ} (hguard : SwapsUnheld s a) (hstep : queueStep s a = some t) :
    t.InOrder := by
  cases a with
  | load p item =>
      obtain ⟨-, rfl⟩ := queueStep_load.mp hstep
      -- the index loaded is the active one
      have hload : ∀ item', Function.update s.producer p (.loaded s.current item) () ≠
          .loaded s.current.other item' := by
        intro item' h
        rw [update_unit] at h
        exact s.current.other_ne (ProducerPc.loaded.inj h).1.symm
      exact ⟨hs.appended_eq, fun hreader => ⟨(hs.retired hreader).1, hload⟩,
        fun item' h => absurd h (hload item')⟩
  | append p =>
      obtain ⟨k, item, hp, rfl⟩ := queueStep_append.mp hstep
      exact inOrder_append hs hp p
  | readLoad r =>
      obtain ⟨hr, rfl⟩ := queueStep_readLoad.mp hstep
      have hreader : ∀ k, s.reader () ≠ .stored k := by
        intro k hk
        cases hr.symm.trans hk
      exact ⟨hs.appended_eq, fun _ => hs.retired hreader, hs.held⟩
  | readStore r =>
      obtain ⟨k, hr, rfl⟩ := queueStep_readStore.mp hstep
      obtain rfl := hact.loaded k hr
      have hreader : ∀ k, s.reader () ≠ .stored k := by
        intro k hk
        cases hr.symm.trans hk
      -- the active container becomes the one to be read, and the empty one the active one
      obtain ⟨hempty, -⟩ := hs.retired hreader
      refine ⟨?_, fun h => ?_, fun _ _ => hempty⟩
      · show _ = _ ++ s.queues s.current.other.other ++ s.queues s.current.other
        rw [hs.appended_eq, hempty, QueueIndex.other_other, List.append_nil, List.append_nil]
      · exact (h s.current (update_unit s.reader r _)).elim
  | readSwap r =>
      obtain ⟨k, hr, rfl⟩ := queueStep_readSwap.mp hstep
      have hcurrent : s.current.other = k := by
        rw [hact.stored k hr, QueueIndex.other_other]
      have hne := s.current.other_ne
      rw [hcurrent] at hne
      -- no item is on the way to the container that has been swapped out
      have hunheld : ∀ item, s.producer () ≠ .loaded s.current.other item := by
        rw [hcurrent]
        exact hguard k hr
      refine ⟨?_, fun _ => ⟨?_, hunheld⟩, fun item h => absurd h (hunheld item)⟩
      · simp only [hcurrent, Function.update_self, Function.update_of_ne hne.symm]
        rw [hs.appended_eq, hcurrent, List.flatten_append, List.flatten_singleton,
          List.append_nil]
      · simp only [hcurrent, Function.update_self]

theorem QueueState.InOrder.ordered {s : QueueState Unit Unit δ} (hs : s.InOrder) : s.Ordered := by
  unfold QueueState.Ordered
  rw [hs.appended_eq, List.append_assoc]
  exact List.prefix_append _ _

/-! ### Overtaking -/

/-- The steps of one `enqueue(item)`. -/
def enqueueSteps (item : δ) : List (QueueAction Unit Unit δ) := [.load () item, .append ()]

/-- An undisturbed `enqueue` appends to the active container. -/
theorem run_enqueueSteps (s : QueueState Unit Unit δ) (hp : s.producer () = .idle) (item : δ) :
    (queueMachine Unit Unit δ).run s (enqueueSteps item) = some
      { s with
        queues := Function.update s.queues s.current (s.queues s.current ++ [item])
        appended := s.appended ++ [item] } := by
  have hproducer : Function.update (Function.update s.producer () (.loaded s.current item)) ()
      .idle = s.producer := by
    rw [Function.update_idem, ← hp, Function.update_eq_self]
  let loaded : QueueState Unit Unit δ :=
    { s with producer := Function.update s.producer () (.loaded s.current item) }
  have hload : (queueMachine Unit Unit δ).step s (.load () item) = some loaded :=
    queueStep_load.mpr ⟨hp, rfl⟩
  have hloaded : loaded.producer () = .loaded s.current item := update_unit s.producer () _
  have happend := queueStep_append.mpr ⟨s.current, item, hloaded, rfl⟩
  refine Machine.run_cons_eq_some _ |>.mpr ⟨loaded, hload, ?_⟩
  refine Machine.run_cons_eq_some _ |>.mpr ⟨_, happend, ?_⟩
  rw [Machine.run_nil, hproducer]

/-- The producer appends the item it has on the way and enqueues another one, which is read
next. -/
theorem exists_later_overtaken {s : QueueState Unit Unit δ} {x : δ}
    (hp : s.producer () = .loaded s.current.other x) (hr : s.reader () = .idle) (y : δ) :
    ∃ t, (queueMachine Unit Unit δ).Later s t ∧ t.appended = s.appended ++ [x, y] ∧
      t.batches = s.batches ++ [s.queues s.current ++ [y]] := by
  have hne := s.current.other_ne
  -- `x` goes to the container whose index was loaded before, `y` to the active one
  let u : QueueState Unit Unit δ := { s with
    queues := Function.update s.queues s.current.other (s.queues s.current.other ++ [x])
    producer := Function.update s.producer () .idle
    appended := s.appended ++ [x] }
  let v : QueueState Unit Unit δ := { u with
    queues := Function.update u.queues u.current (u.queues u.current ++ [y])
    appended := u.appended ++ [y] }
  have happend : (queueMachine Unit Unit δ).step s (.append ()) = some u :=
    queueStep_append.mpr ⟨_, x, hp, rfl⟩
  have henqueue : (queueMachine Unit Unit δ).run u (enqueueSteps y) = some v :=
    run_enqueueSteps u (update_unit s.producer () _) y
  have hread := run_readSteps v (r := ()) hr
  have hlater : (queueMachine Unit Unit δ).Later u _ := ⟨enqueueSteps y ++ readSteps (), by
    rw [Machine.run_append, henqueue]
    exact hread⟩
  refine ⟨_, hlater.head happend, ?_, ?_⟩
  · simp [u, v]
  · simp [u, v, Function.update_of_ne hne.symm]

/-- When the reader has swapped out a container whose index the producer holds, the next item can
overtake the one that is on the way there. -/
theorem exists_later_not_ordered {s : QueueState Unit Unit δ}
    (hs : (queueMachine Unit Unit δ).Reachable s) {x y : δ} (hxy : y ≠ x)
    (hp : s.producer () = .loaded s.current.other x) (hr : s.reader () = .idle)
    (hempty : s.queues s.current.other = []) :
    ∃ t, (queueMachine Unit Unit δ).Later s t ∧ ¬t.Ordered := by
  obtain ⟨t, hlater, happended, hbatches⟩ := exists_later_overtaken hp hr y
  refine ⟨t, hlater, fun hordered => hxy ?_⟩
  -- there are as many items before `y` in the batches as before `x` in what was enqueued
  have hlen : s.appended.length = (s.batches.flatten ++ s.queues s.current).length := by
    have hcount := congrArg Multiset.card (accounted_of_reachable hs)
    simp only [Multiset.card_add, Multiset.coe_card] at hcount
    rw [List.length_append, hcount]
    rcases QueueIndex.eq_zero_or_one s.current with hk | hk
    · rw [hk] at hempty ⊢
      have h1 : s.queues 1 = [] := hempty
      rw [h1, List.length_nil]
      omega
    · rw [hk] at hempty ⊢
      have h0 : s.queues 0 = [] := hempty
      rw [h0, List.length_nil]
      omega
  have hprefix : s.batches.flatten ++ s.queues s.current ++ [y] <+: s.appended ++ [x, y] := by
    unfold QueueState.Ordered at hordered
    rwa [happended, hbatches, List.flatten_append, List.flatten_singleton,
      ← List.append_assoc] at hordered
  obtain ⟨rest, hrest⟩ := hprefix
  rw [List.append_assoc] at hrest
  have htail := (List.append_inj hrest hlen.symm).2
  exact (List.cons.inj htail).1

/-! ### The order -/

/-- In every run in which the reader swaps out only containers whose index the producer does not
hold, the batches returned are, in every state, the items that were enqueued first, in order. After
any other swap the next item can overtake the one on the way, if it is not the same. -/
theorem queue_ordered :
    (∀ actions, (queueMachine Unit Unit δ).StepsMeet SwapsUnheld {} actions →
        (queueMachine Unit Unit δ).Throughout QueueState.Ordered {} actions) ∧
      ((∃ x y : δ, x ≠ y) → ∀ (s t : QueueState Unit Unit δ) a,
        (queueMachine Unit Unit δ).Reachable s → (queueMachine Unit Unit δ).step s a = some t →
          ¬SwapsUnheld s a → ∃ u, (queueMachine Unit Unit δ).Later t u ∧ ¬u.Ordered) := by
  constructor
  · intro actions hmeet
    refine Machine.StepsMeet.throughout (I := QueueState.InOrder) ?_ ?_ actions
      Machine.Reachable.init hmeet inOrder_initial
    · exact fun s a t hreach hs hguard hstep =>
        inOrder_step (readsActive_of_reachable hreach) hs hguard hstep
    · exact fun s hs => hs.ordered
  · rintro ⟨x₀, y₀, hne⟩ s t a hreach hstep hguard
    cases a with
    | readSwap r =>
        have hreach' := hreach.step hstep
        obtain ⟨k, hr, rfl⟩ := queueStep_readSwap.mp hstep
        simp only [SwapsUnheld, not_forall, not_not] at hguard
        obtain ⟨j, hj, x, hp⟩ := hguard
        obtain rfl : k = j := ReaderPc.stored.inj (hr.symm.trans hj)
        obtain ⟨y, hxy⟩ : ∃ y, y ≠ x := by
          by_cases h : x₀ = x
          · exact ⟨y₀, h ▸ hne.symm⟩
          · exact ⟨x₀, h⟩
        have hcurrent : s.current.other = k := by
          rw [(readsActive_of_reachable hreach).stored k hr, QueueIndex.other_other]
        subst hcurrent
        exact exists_later_not_ordered hreach' hxy hp (update_unit s.reader r _)
          (Function.update_self ..)
    | load | append | readLoad | readStore => exact absurd trivial hguard

/-- The item is appended before the reader stores the other index. -/
def undisturbedSwap : List (QueueAction Unit Unit ℕ) :=
  [.load () 7, .append (), .readLoad (), .readStore (), .readSwap ()]

/-- The reader returns it. -/
theorem queue_ordered_undisturbedSwap :
    (queueMachine Unit Unit ℕ).Throughout QueueState.Ordered {} undisturbedSwap := by
  refine queue_ordered.1 undisturbedSwap ?_
  -- only the last step has a condition to meet, and then the producer is idle
  refine .cons trivial rfl (.cons trivial rfl (.cons trivial rfl (.cons trivial rfl ?_)))
  refine .cons (fun k _ item hp => ?_) rfl trivial
  cases hp

/-- The producer loads the index of a container before the reader retires it and appends to it
after the reader has swapped it out; the next item comes first. -/
theorem queue_not_ordered : ¬∀ s : QueueState Unit Unit ℕ,
    (queueMachine Unit Unit ℕ).Reachable s → s.Ordered := by
  intro h
  have hrun : (queueMachine Unit Unit ℕ).run {}
      ([.load () 7] ++ readSteps () ++ [.append (), .load () 8, .append ()] ++ readSteps ()) =
    some _ := rfl
  have hordered := h _ ⟨_, hrun⟩
  revert hordered
  unfold QueueState.Ordered
  decide

end Hound
