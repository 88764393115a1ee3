import Hound.Pipeline.Assembly

/-!
# The order of merging

A `consumer_job` adds its batches in the order of their capture, and each becomes a thread of its
own that parses and then takes the lock of the flow table. Nothing makes a later batch wait for an
earlier one, and an `enqueue` may append to the half that has just been read, behind packets that
were captured later.

* `AssemblyState.appended` : the packets appended to the list of a key.
* `MergesInOrder` : the steps that overtake no packet.
* `appended_inOrder` : in a run of such steps packets are appended in the order of their capture.
-/

namespace Hound

variable {n : ℕ} {opt : CaptureOption} {packets : ℕ → Delivery} {s t : AssemblyState n}

/-- The packets that have been appended to the list of key `k` at worker `w`, in order. -/
def AssemblyState.appended (opt : CaptureOption) (packets : ℕ → Delivery) (s : AssemblyState n)
    (w : Fin n) (k : String) : List ℕ :=
  (s.merged w).filter fun i => decide ((packets i).key? opt = some k)

/-- Both packets are accepted, with the same key. -/
def Delivery.SameFlow (opt : CaptureOption) (d d' : Delivery) : Prop :=
  ∃ k, d.key? opt = some k ∧ d'.key? opt = some k

/-- A task merges its batch only when no other packet of the same flow that was captured before
still waits. -/
def MergesInOrder (opt : CaptureOption) (packets : ℕ → Delivery) (s : AssemblyState n)
    (a : AssemblyAction n) : Prop :=
  ∀ c, a = .live (.executor (.async c)) → s.mTaskExecutor.async c = .running →
    ∀ i ∈ s.batch c, ∀ j < i, j ∉ s.batch c → (packets i).SameFlow opt (packets j) → ¬s.Waits j

/-- Every list has got its packets in the order of their capture: those that `mFlowTable` has been
given are the packets appended, whose numbers increase. -/
def AssemblyState.InOrder (opt : CaptureOption) (packets : ℕ → Delivery) (s : AssemblyState n) :
    Prop :=
  ∀ w k, (s.sink w).merged.filter (·.mKey = k) =
      (s.appended opt packets w k).filterMap (fun i => (packets i).accepted? opt) ∧
    (s.appended opt packets w k).Pairwise (· < ·)

/-! ### What has been merged -/

/-- The batch that a step merges at a worker. -/
theorem merged_step {a : AssemblyAction n} (hstep : assemblyStep opt packets s a = some t) :
    t.merged = s.merged ∧
        (∀ c, a = .live (.executor (.async c)) → s.mTaskExecutor.async c ≠ .running) ∨
      ∃ c, a = .live (.executor (.async c)) ∧ s.mTaskExecutor.async c = .running ∧
        t.merged = Function.update s.merged c.1 (s.merged c.1 ++ s.batch c) := by
  cases assemblyStep_effect hstep with
  | live b d hlive hidle =>
      refine .inl ⟨rfl, fun c hc => hidle c ?_⟩
      simpa using hc
  | dropTable | clean => exact .inl ⟨rfl, nofun⟩
  | makeFlow c d sink hlive hasync => exact .inr ⟨c, rfl, hasync, rfl⟩

/-- A table has been given the accepted packets of what has been merged. -/
def AssemblyState.Given (opt : CaptureOption) (packets : ℕ → Delivery) (s : AssemblyState n) :
    Prop :=
  ∀ w, (s.sink w).merged = (s.merged w).filterMap fun i => (packets i).accepted? opt

theorem given_step {a : AssemblyAction n} (hs : s.Given opt packets)
    (hstep : assemblyStep opt packets s a = some t) : t.Given opt packets := by
  intro w
  cases table_step hstep w with
  | same hsink hmerged | dropTable hsink hmerged =>
      rw [hsink, hmerged]
      exact hs w
  | merge k _ _ hmerge hmerged =>
      rw [(mergeToExistingFlow_frame hmerge).1, hs w, hmerged, List.filterMap_append]
  | clean clock hclean hmerged =>
      rw [(cleanPass_frame hclean).1, hs w, hmerged]

/-- What a table has been given with key `k`. -/
theorem AssemblyState.Given.filter_eq (hs : s.Given opt packets) (w : Fin n) (k : String) :
    (s.sink w).merged.filter (·.mKey = k) =
      (s.appended opt packets w k).filterMap fun i => (packets i).accepted? opt := by
  rw [hs w, AssemblyState.appended, List.filter_filterMap, List.filterMap_filter]
  congr 1
  funext i
  cases haccepted : (packets i).accepted? opt with
  | none => simp
  | some parsed => simp [Delivery.key?, haccepted, Option.filter]

/-! ### Merging in order -/

/-- The packets that wait follow those of the same flow that have been merged. -/
structure AssemblyState.Ordered (opt : CaptureOption) (packets : ℕ → Delivery)
    (s : AssemblyState n) : Prop where
  captured : ∀ w, ∀ i ∈ s.merged w, i < s.enqueued
  waits : ∀ w, ∀ i ∈ s.merged w, ∀ j, (packets i).SameFlow opt (packets j) → s.Waits j → i < j
  sorted : ∀ w k, (s.appended opt packets w k).Pairwise (· < ·)

/-- The batch of a task that has finished does not wait. -/
theorem not_waits_of_finished {s : DrainState Unit n} (hs : s.Located) {c : Fin n × ℕ} {i : ℕ}
    (hc : s.mTaskExecutor.async c = .finished) (hi : i ∈ s.batch c) : ¬s.Waits i := by
  rintro ⟨p, hopen, hp⟩
  obtain rfl : p = .task c := hs.spread.unique hp hi
  exact hopen hc

/-- What the last step of a task does. -/
theorem async_finishes {c : Fin n × ℕ}
    (hstep : assemblyStep opt packets s (.live (.executor (.async c))) = some t)
    (hc : s.mTaskExecutor.async c = .running) :
    t.mTaskExecutor.async c = .finished ∧ t.batch = s.batch ∧ t.enqueued = s.enqueued := by
  cases assemblyStep_effect hstep with
  | live _ d hlive hidle => exact absurd hc (hidle c rfl)
  | makeFlow _ d sink hlive =>
      obtain ⟨e, he, rfl⟩ := executorStep_eq hlive
      cases asyncStep_effect he with
      | invoke cpuId hasync =>
          rw [hc] at hasync
          nomatch hasync
      | finish => exact ⟨Function.update_self .., rfl, rfl⟩

/-- Without the tables, what waits after a step has waited before, or has just been captured. -/
theorem waits_of_assemblyStep {a : AssemblyAction n} {i : ℕ}
    (hs : (assemblyMachine opt packets n).Reachable s)
    (hstep : assemblyStep opt packets s a = some t) (hi : t.Waits i) :
    s.Waits i ∨ i = s.enqueued := by
  rcases live_step hstep with ⟨b, -, hlive⟩ | hsame
  · exact waits_of_step (live_reachable hs) hlive hi
  · exact .inl (hsame ▸ hi)

theorem enqueued_le {a : AssemblyAction n} (hs : (assemblyMachine opt packets n).Reachable s)
    (hstep : assemblyStep opt packets s a = some t) : s.enqueued ≤ t.enqueued := by
  rcases live_step hstep with ⟨b, -, hlive⟩ | hsame
  · have hcalled := called_of_reachable (drain_reachable (live_reachable hs))
    cases places_step hcalled (located_of_reachable (live_reachable hs)) hlive with
    | same _ _ henqueued => exact henqueued.ge
    | load _ _ _ _ henqueued => exact henqueued ▸ Nat.le_succ _
    | move _ _ _ _ _ _ henqueued => exact henqueued.ge
  · exact hsame ▸ Nat.le_refl _

/-- The packets appended, when a batch is. -/
theorem appended_update (opt : CaptureOption) (packets : ℕ → Delivery) {c : Fin n × ℕ}
    (hmerged : t.merged = Function.update s.merged c.1 (s.merged c.1 ++ s.batch c)) (w : Fin n)
    (k : String) :
    t.appended opt packets w k = s.appended opt packets w k ++
      if w = c.1 then (s.batch c).filter fun i => decide ((packets i).key? opt = some k) else [] := by
  rw [AssemblyState.appended, AssemblyState.appended, hmerged]
  split_ifs with hw
  · rw [hw, Function.update_self, List.filter_append]
  · rw [Function.update_of_ne hw, List.append_nil]

theorem AssemblyState.Ordered.merge {c : Fin n × ℕ} (hs : s.Ordered opt packets)
    (hreach : (assemblyMachine opt packets n).Reachable s)
    (hstep : assemblyStep opt packets s (.live (.executor (.async c))) = some t)
    (hasync : s.mTaskExecutor.async c = .running)
    (hmerged : t.merged = Function.update s.merged c.1 (s.merged c.1 ++ s.batch c))
    (hguard : MergesInOrder opt packets s (.live (.executor (.async c)))) :
    t.Ordered opt packets := by
  -- every packet is at one place, before the step and after it
  have hlocated := located_of_reachable (live_reachable hreach)
  have hreach' : (assemblyMachine opt packets n).Reachable t :=
    hreach.step (a := .live (.executor (.async c))) hstep
  have hlocated' := located_of_reachable (live_reachable hreach')
  obtain ⟨hfinished, hbatch, henqueued⟩ := async_finishes hstep hasync
  have hcaptured : ∀ i ∈ s.batch c, i < s.enqueued := fun i hi =>
    (hlocated.mem_iff i).mp ⟨.task c, hi⟩
  have hmem : ∀ {w i}, i ∈ t.merged w → i ∈ s.merged w ∨ i ∈ s.batch c := by
    intro w i hi
    rw [hmerged] at hi
    rcases eq_or_ne w c.1 with rfl | hne
    · rwa [Function.update_self, List.mem_append] at hi
    · rw [Function.update_of_ne hne] at hi
      exact .inl hi
  refine ⟨fun w i hi => ?_, fun w i hi j hflow hj => ?_, fun w k => ?_⟩
  · rw [henqueued]
    exact (hmem hi).elim (hs.captured w i) (hcaptured i)
  · -- whatever still waits is outside the batch, or has just been captured
    rcases waits_of_assemblyStep hreach hstep hj with hwaits | rfl
    · rcases hmem hi with hi | hi
      · exact hs.waits w i hi j hflow hwaits
      · have hj' : j ∉ s.batch c := fun hj' =>
          not_waits_of_finished hlocated' hfinished (hbatch ▸ hj') hj
        have hne : i ≠ j := fun h => hj' (h ▸ hi)
        by_contra hle
        exact hguard c rfl hasync i hi j (by omega) hj' hflow hwaits
    · exact (hmem hi).elim (hs.captured w i) (hcaptured i)
  · rw [appended_update opt packets hmerged, List.pairwise_append]
    split_ifs with hw
    · -- the batch is in order itself, and it has waited until now
      refine ⟨hs.sorted w k, (hlocated.spread.sorted (.task c)).filter _, fun i hi j hj => ?_⟩
      obtain ⟨hi, hki⟩ := List.mem_filter.mp hi
      obtain ⟨hj, hkj⟩ := List.mem_filter.mp hj
      refine hs.waits w i hi j ⟨k, of_decide_eq_true hki, of_decide_eq_true hkj⟩ ⟨.task c, ?_, hj⟩
      intro h
      rw [hasync] at h
      nomatch h
    · exact ⟨hs.sorted w k, List.Pairwise.nil, nofun⟩

theorem ordered_step {a : AssemblyAction n} (hs : s.Ordered opt packets)
    (hreach : (assemblyMachine opt packets n).Reachable s) (hguard : MergesInOrder opt packets s a)
    (hstep : assemblyStep opt packets s a = some t) : t.Ordered opt packets := by
  rcases merged_step hstep with ⟨hmerged, -⟩ | ⟨c, rfl, hasync, hmerged⟩
  · refine ⟨fun w i hi => ?_, fun w i hi j hflow hj => ?_, fun w k => ?_⟩
    · exact Nat.lt_of_lt_of_le (hs.captured w i (hmerged ▸ hi)) (enqueued_le hreach hstep)
    · rw [hmerged] at hi
      rcases waits_of_assemblyStep hreach hstep hj with hwaits | rfl
      · exact hs.waits w i hi j hflow hwaits
      · exact hs.captured w i hi
    · rw [AssemblyState.appended, hmerged]
      exact hs.sorted w k
  · exact hs.merge hreach hstep hasync hmerged hguard

theorem ordered_init : AssemblyState.Ordered opt packets ({} : AssemblyState n) :=
  ⟨nofun, nofun, fun _ _ => List.Pairwise.nil⟩

/-! ### Overtaking -/

/-- A packet that waits has been overtaken, or the packets of a list are out of order. -/
def AssemblyState.Overtaken (opt : CaptureOption) (packets : ℕ → Delivery) (s : AssemblyState n)
    (w : Fin n) : Prop :=
  (∃ i ∈ s.merged w, ∃ j < i, (packets i).SameFlow opt (packets j) ∧ s.Waits j) ∨
    ∃ k, ¬(s.appended opt packets w k).Pairwise (· < ·)

/-- With the tables, a packet goes on waiting until its task finishes. -/
theorem waits_assemblyStep {a : AssemblyAction n} {i : ℕ}
    (hs : (assemblyMachine opt packets n).Reachable s)
    (hstep : assemblyStep opt packets s a = some t) (hi : s.Waits i) :
    t.Waits i ∨ ∃ c, i ∈ s.batch c ∧ a = .live (.executor (.async c)) ∧
      s.mTaskExecutor.async c = .running := by
  rcases live_step hstep with ⟨b, rfl, hlive⟩ | hsame
  · refine (waits_step (live_reachable hs) hlive hi).imp_right ?_
    rintro ⟨c, hc, rfl, hasync⟩
    exact ⟨c, hc, rfl, hasync⟩
  · exact .inl (hsame ▸ hi)

section OneWorker

variable {s t : AssemblyState 1} {a : AssemblyAction 1} {w : Fin 1}

/-- A packet that has been overtaken waits on, or is merged and is then out of order. -/
theorem overtaken_step (hreach : (assemblyMachine opt packets 1).Reachable s)
    (hs : s.Overtaken opt packets w) (hstep : assemblyStep opt packets s a = some t) :
    t.Overtaken opt packets w := by
  rcases merged_step hstep with ⟨hmerged, hidle⟩ | ⟨c, rfl, hasync, hmerged⟩
  -- no merge: the packet waits on
  · rcases hs with ⟨i, hi, j, hji, hflow, hj⟩ | ⟨k, hk⟩
    · rcases waits_assemblyStep hreach hstep hj with hj' | ⟨c, -, ha, hasync⟩
      · exact .inl ⟨i, hmerged ▸ hi, j, hji, hflow, hj'⟩
      · exact absurd hasync (hidle c ha)
    · refine .inr ⟨k, ?_⟩
      rwa [AssemblyState.appended, hmerged]
  · have happended := appended_update opt packets hmerged w
    have hworker : w = c.1 := Subsingleton.elim _ _
    rcases hs with ⟨i, hi, j, hji, ⟨k, hki, hkj⟩, hj⟩ | ⟨k, hk⟩
    · rcases waits_assemblyStep hreach hstep hj with hj' | ⟨c', hj', ha, -⟩
      · refine .inl ⟨i, ?_, j, hji, ⟨k, hki, hkj⟩, hj'⟩
        rw [hmerged, ← hworker, Function.update_self]
        exact List.mem_append_left _ hi
      · -- the packet is appended behind the one that has overtaken it
        obtain rfl : c = c' := by simpa using ha
        refine .inr ⟨k, fun hsorted => ?_⟩
        rw [happended k, if_pos hworker, List.pairwise_append] at hsorted
        have hlt := hsorted.2.2 i (List.mem_filter.mpr ⟨hi, decide_eq_true hki⟩) j
          (List.mem_filter.mpr ⟨hj', decide_eq_true hkj⟩)
        omega
    · refine .inr ⟨k, fun hsorted => hk ?_⟩
      rw [happended k, List.pairwise_append] at hsorted
      exact hsorted.1

/-- A task that merges too early overtakes a packet. -/
theorem overtaken_of_not_mergesInOrder (hreach : (assemblyMachine opt packets 1).Reachable s)
    (hguard : ¬MergesInOrder opt packets s a) (hstep : assemblyStep opt packets s a = some t) :
    t.Overtaken opt packets w := by
  simp only [MergesInOrder, not_forall, not_not] at hguard
  obtain ⟨c, rfl, hasync, i, hi, j, hji, hjc, hflow, hj⟩ := hguard
  refine .inl ⟨i, ?_, j, hji, hflow, ?_⟩
  · rcases merged_step hstep with ⟨-, hidle⟩ | ⟨c', hc', -, hmerged⟩
    · exact absurd hasync (hidle c rfl)
    · obtain rfl : c = c' := by simpa using hc'
      have hworker : w = c.1 := Subsingleton.elim _ _
      rw [hmerged, ← hworker, Function.update_self]
      exact List.mem_append_right _ hi
  · rcases waits_assemblyStep hreach hstep hj with hj' | ⟨c', hjc', hc', -⟩
    · exact hj'
    · obtain rfl : c = c' := by simpa using hc'
      exact absurd hjc' hjc

end OneWorker

/-- With one worker the packets of every flow are appended in the order of their capture in every
run in which no task merges while an earlier packet of the same flow still waits. Where nothing
waits at the end, the packets are in order after such runs only. -/
theorem appended_inOrder (opt : CaptureOption) (packets : ℕ → Delivery)
    (as : List (AssemblyAction 1)) {t : AssemblyState 1}
    (h : (assemblyMachine opt packets 1).run {} as = some t) :
    ((assemblyMachine opt packets 1).StepsMeet (MergesInOrder opt packets) {} as →
      (assemblyMachine opt packets 1).Throughout (AssemblyState.InOrder opt packets) {} as) ∧
    ((∀ i, ¬t.Waits i) → t.InOrder opt packets →
      (assemblyMachine opt packets 1).StepsMeet (MergesInOrder opt packets) {} as) := by
  refine ⟨fun hmeet => ?_, fun hnone horder => ?_⟩
  · refine Machine.StepsMeet.throughout
      (I := fun s => s.Given opt packets ∧ s.Ordered opt packets) ?_ ?_ as Machine.Reachable.init
      hmeet ⟨fun _ => rfl, ordered_init⟩
    · rintro s a t hreach ⟨hgiven, hordered⟩ hguard hstep
      exact ⟨given_step hgiven hstep, ordered_step hordered hreach hguard hstep⟩
    · exact fun s hs w k => ⟨hs.1.filter_eq w k, hs.2.sorted w k⟩
  · -- once overtaken, a packet waits on or is out of order
    refine Machine.StepsMeet.of_not (B := fun s => s.Overtaken opt packets 0)
      (fun s a t hreach hs hstep => overtaken_step hreach hs hstep)
      (fun s a t hreach hguard hstep => overtaken_of_not_mergesInOrder hreach hguard hstep)
      as Machine.Reachable.init h ?_
    rintro (⟨i, -, j, -, -, hj⟩ | ⟨k, hk⟩)
    · exact hnone j hj
    · exact hk (horder 0 k).2

/-- Two packets make one batch, which is merged. -/
def oneBatch (w : Fin n) : List (AssemblyAction n) :=
  List.flatten [List.replicate 3 (.live (.thread w)),
    [.live (.load ()), .live (.append ()), .live (.load ()), .live (.append ())],
    List.replicate 10 (.live (.thread w)), List.replicate 9 (.live (.executor .run)),
    List.replicate 2 (.live (.executor (.async (w, 0))))]

/-- A task merges a batch only if it has all packets captured before. -/
def AssemblyState.mergesPrefix (s : AssemblyState n) : AssemblyAction n → Bool
  | .live (.executor (.async c)) => s.batch c == List.range (s.batch c).length
  | _ => true

theorem mergesInOrder_of_mergesPrefix (s : AssemblyState n) (a : AssemblyAction n)
    (h : s.mergesPrefix a = true) : MergesInOrder opt packets s a := by
  rintro c rfl - i hi j hji hj
  have hbatch : s.batch c = List.range (s.batch c).length := eq_of_beq h
  rw [hbatch, List.mem_range] at hi hj
  omega

/-- The two packets are appended in order. -/
theorem appended_inOrder_oneBatch :
    ∃ t, (assemblyMachine {} (fun _ => udpDelivery) 1).run {} (oneBatch 0) = some t ∧
      t.merged 0 = [0, 1] ∧
      (assemblyMachine {} (fun _ => udpDelivery) 1).Throughout
        (AssemblyState.InOrder {} fun _ => udpDelivery) {} (oneBatch 0) := by
  have hrun : (assemblyMachine {} (fun _ => udpDelivery) 1).run {} (oneBatch 0) = some _ := rfl
  refine ⟨_, hrun, rfl, (appended_inOrder _ _ _ hrun).1 ?_⟩
  exact Machine.StepsMeet.of_check (fun s a _ => mergesInOrder_of_mergesPrefix s a) _
    Machine.Reachable.init rfl

/-- Two packets of one flow make two batches, and the task of the second is the first to merge. -/
def secondBatchFirst (w : Fin n) : List (AssemblyAction n) :=
  List.flatten [List.replicate 3 (.live (.thread w)), [.live (.load ()), .live (.append ())],
    List.replicate 12 (.live (.thread w)), [.live (.load ()), .live (.append ())],
    List.replicate 9 (.live (.thread w)), List.replicate 17 (.live (.executor .run)),
    List.replicate 2 (.live (.executor (.async (w, 1)))),
    List.replicate 2 (.live (.executor (.async (w, 0))))]

/-- The later packet is in front of the earlier one. -/
theorem appended_not_inOrder :
    ¬∀ (opt : CaptureOption) (packets : ℕ → Delivery) (as : List (AssemblyAction 1))
      (t : AssemblyState 1), (assemblyMachine opt packets 1).run {} as = some t →
        t.InOrder opt packets := by
  intro h
  have hrun : (assemblyMachine {} (fun _ => udpDelivery) 1).run {} (secondBatchFirst 0) =
    some _ := rfl
  obtain ⟨k, hk⟩ : ∃ k, udpDelivery.key? {} = some k := ⟨_, rfl⟩
  have hsorted := (h _ _ _ _ hrun 0 k).2
  have hmerged : ([1, 0].filter fun _ => decide (udpDelivery.key? {} = some k)).Pairwise (· < ·) :=
    hsorted
  simp [hk] at hmerged

end Hound
