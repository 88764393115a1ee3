import Hound.Pipeline.Assembly

/-!
# One flow, several workers

Each worker has a `KafkaSink` with a flow table of its own, and all of them read from one queue. A
half of the double buffer goes to the worker that is the next to swap it out, whatever the keys of
its packets are.

* `MergesOwn` : the merges that split no flow.
* `AssemblyState.Keeps` : a worker has packets with a key, or is going to merge some.
* `ReadsOwn` : the reads that take packets from no flow of another worker.
* `hasPackets_once` : in a run of such reads, and exactly in a run of such merges, no flow is spread
  over two tables.
-/

namespace Hound

variable {n : ℕ} {opt : CaptureOption} {packets : ℕ → Delivery} {s t : AssemblyState n} {w : Fin n}
  {k : String}

/-- There are packets under key `k` in the `mFlowTable` of worker `w`. -/
def AssemblyState.HasPackets (s : AssemblyState n) (w : Fin n) (k : String) : Prop :=
  (s.sink w).existing k ≠ []

/-- No key has packets in the tables of two workers. -/
def AssemblyState.HasPacketsOnce (s : AssemblyState n) : Prop :=
  ∀ w w' k, s.HasPackets w k → s.HasPackets w' k → w = w'

/-- A step is the call of `merge_to_existing_flow` by task `c`, which has packets with key `k`. -/
def AssemblyState.Merges (opt : CaptureOption) (packets : ℕ → Delivery) (s : AssemblyState n)
    (a : AssemblyAction n) (c : Fin n × ℕ) (k : String) : Prop :=
  a = .live (.executor (.async c)) ∧ s.mTaskExecutor.async c = .running ∧
    ∃ i ∈ s.batch c, (packets i).key? opt = some k

/-- A task merges packets only when no other worker has packets with the same key. -/
def MergesOwn (opt : CaptureOption) (packets : ℕ → Delivery) (s : AssemblyState n)
    (a : AssemblyAction n) : Prop :=
  ∀ c k, s.Merges opt packets a c k → ∀ w, w ≠ c.1 → ¬s.HasPackets w k

/-- The worker that will merge what is at a place. -/
def Place.owner : Place n → Option (Fin n)
  | .held w => some w
  | .task c => some c.1
  | _ => none

/-- Worker `w` has packets with key `k`, or has read some that it has not merged yet. -/
def AssemblyState.Keeps (opt : CaptureOption) (packets : ℕ → Delivery) (s : AssemblyState n)
    (w : Fin n) (k : String) : Prop :=
  s.HasPackets w k ∨ ∃ p : Place n, p.owner = some w ∧ s.Outstanding p ∧
    ∃ i ∈ s.packetsAt p, (packets i).key? opt = some k

/-- A step of worker `w` swaps out half `half`. -/
def AssemblyState.Swaps (s : AssemblyState n) (a : AssemblyAction n) (w : Fin n)
    (half : QueueIndex) : Prop :=
  a = .live (.thread w) ∧ s.thread w = .read ∧ s.doubleBufferQueue.reader w = .stored half

/-- A worker takes only packets whose keys no other worker keeps. -/
def ReadsOwn (opt : CaptureOption) (packets : ℕ → Delivery) (s : AssemblyState n)
    (a : AssemblyAction n) : Prop :=
  ∀ w half, s.Swaps a w half → ∀ i ∈ s.doubleBufferQueue.queues half, ∀ k,
    (packets i).key? opt = some k → ∀ w', w' ≠ w → ¬s.Keeps opt packets w' k

/-! ### Merging -/

/-- A key among the accepted packets of a batch. -/
theorem exists_key?_iff {batch : List ℕ} :
    (∃ parsed ∈ batch.filterMap fun i => (packets i).accepted? opt, parsed.mKey = k) ↔
      ∃ i ∈ batch, (packets i).key? opt = some k := by
  constructor
  · rintro ⟨parsed, hparsed, rfl⟩
    obtain ⟨i, hi, haccepted⟩ := List.mem_filterMap.mp hparsed
    exact ⟨i, hi, by rw [Delivery.key?, haccepted]; rfl⟩
  · rintro ⟨i, hi, hkey⟩
    obtain ⟨parsed, haccepted, rfl⟩ := Option.map_eq_some_iff.mp hkey
    exact ⟨parsed, List.mem_filterMap.mpr ⟨i, hi, haccepted⟩, rfl⟩

/-- A table gets packets only from a task of its worker. -/
theorem hasPackets_step {a : AssemblyAction n} (hstep : assemblyStep opt packets s a = some t)
    (hk : t.HasPackets w k) : s.HasPackets w k ∨ ∃ c, c.1 = w ∧ s.Merges opt packets a c k := by
  rw [AssemblyState.HasPackets] at hk
  cases table_step hstep w with
  | same hsink =>
      rw [hsink] at hk
      exact .inl hk
  | dropTable hsink =>
      simp [hsink, FlowState.existing, OrderedMap.empty, OrderedMap.get?] at hk
  | merge m ha hasync hmerge =>
      by_cases hbatch : ∃ i ∈ s.batch (w, m), (packets i).key? opt = some k
      · exact .inr ⟨(w, m), rfl, ha, hasync, hbatch⟩
      · -- no packet of the batch has this key
        refine .inl ?_
        rwa [(mergeToExistingFlow_frame hmerge).2 k ?_] at hk
        rintro parsed hparsed rfl
        exact hbatch (exists_key?_iff.mp ⟨parsed, hparsed, rfl⟩)
  | clean clock hclean =>
      rw [(cleanPass_frame hclean).2 k hk] at hk
      exact .inl hk

/-- After a merge the worker has packets with the key, and the other workers have what they had. -/
theorem hasPackets_merge {a : AssemblyAction n} {c : Fin n × ℕ}
    (hstep : assemblyStep opt packets s a = some t) (hmerges : s.Merges opt packets a c k) :
    t.HasPackets c.1 k ∧ ∀ w, w ≠ c.1 → s.HasPackets w k → t.HasPackets w k := by
  obtain ⟨rfl, hasync, hbatch⟩ := hmerges
  cases assemblyStep_effect hstep with
  | live _ d hlive hidle => exact absurd hasync (hidle c rfl)
  | makeFlow _ d sink hlive _ hmerge =>
      refine ⟨?_, fun w hne hw => ?_⟩
      · simp only [AssemblyState.HasPackets, Function.update_self]
        exact mergeToExistingFlow_existing hmerge (.inr (exists_key?_iff.mpr hbatch))
      · simpa only [AssemblyState.HasPackets, Function.update_of_ne hne] using hw

theorem hasPacketsOnce_step {a : AssemblyAction n} (hs : s.HasPacketsOnce)
    (hguard : MergesOwn opt packets s a) (hstep : assemblyStep opt packets s a = some t) :
    t.HasPacketsOnce := by
  intro w w' k hw hw'
  rcases hasPackets_step hstep hw with hw | ⟨c, rfl, hmerges⟩ <;>
    rcases hasPackets_step hstep hw' with hw' | ⟨c', rfl, hmerges'⟩
  · exact hs w w' k hw hw'
  -- a merge at one worker while the other one has packets
  · by_contra hne
    exact hguard c' k hmerges' w hne hw
  · by_contra hne
    exact hguard c k hmerges w' (Ne.symm hne) hw'
  · obtain rfl : c = c' := by simpa using hmerges.1.symm.trans hmerges'.1
    rfl

/-- A merge of packets of a flow that another worker has splits the flow. -/
theorem not_hasPacketsOnce_of_not_mergesOwn {a : AssemblyAction n}
    (hguard : ¬MergesOwn opt packets s a) (hstep : assemblyStep opt packets s a = some t) :
    ¬t.HasPacketsOnce := by
  simp only [MergesOwn, not_forall, not_not] at hguard
  obtain ⟨c, k, hmerges, w, hne, hw⟩ := hguard
  obtain ⟨hworker, hother⟩ := hasPackets_merge hstep hmerges
  exact fun honce => hne (honce w c.1 k (hother w hne hw) hworker)

/-! ### Reading -/

/-- A key that a task is merging is kept. -/
theorem AssemblyState.Merges.keeps {a : AssemblyAction n} {c : Fin n × ℕ}
    (h : s.Merges opt packets a c k) : s.Keeps opt packets c.1 k := by
  refine .inr ⟨.task c, rfl, fun hfinished => ?_, h.2.2⟩
  rw [h.2.1] at hfinished
  nomatch hfinished

/-- A worker comes to keep a key only with a half it swaps out. -/
theorem keeps_step {a : AssemblyAction n} (hs : (assemblyMachine opt packets n).Reachable s)
    (hstep : assemblyStep opt packets s a = some t) (hk : t.Keeps opt packets w k) :
    s.Keeps opt packets w k ∨ ∃ half, s.Swaps a w half ∧
      ∃ i ∈ s.doubleBufferQueue.queues half, (packets i).key? opt = some k := by
  rcases hk with hk | ⟨p, howner, hopen, i, hi, hkey⟩
  · rcases hasPackets_step hstep hk with hk | ⟨c, rfl, hmerges⟩
    · exact .inl (.inl hk)
    · exact .inl hmerges.keeps
  · rcases live_step hstep with ⟨b, rfl, hlive⟩ | hsame
    · have hreach := live_reachable hs
      replace hopen := outstanding_of_step
        (placed_of_reachable (executor_reachable (drain_reachable hreach))) hlive hopen
      cases places_step (called_of_reachable (drain_reachable hreach))
        (located_of_reachable hreach) hlive with
      | same hplaces => exact .inl (.inr ⟨p, howner, hopen, i, hplaces ▸ hi, hkey⟩)
      -- what has just been captured is with no worker
      | load _ hother =>
          have hne : p ≠ .loaded := by
            rintro rfl
            nomatch howner
          exact .inl (.inr ⟨p, howner, hopen, i, hother p hne ▸ hi, hkey⟩)
      -- packets come to a worker from a half, and stay with it until they are merged
      | move source target hmoves hmoved =>
          rcases hmoved.mem_iff.mp hi with ⟨-, hplace⟩ | ⟨rfl, hsource⟩
          · exact .inl (.inr ⟨p, howner, hopen, i, hplace, hkey⟩)
          · cases hmoves with
            | append => nomatch howner
            | swap w' half hpc hreader =>
                obtain rfl : w' = w := Option.some.inj howner
                exact .inr ⟨half, ⟨rfl, hpc, hreader⟩, i, hsource, hkey⟩
            | call w' => exact .inl (.inr ⟨.held w', howner, trivial, i, hsource, hkey⟩)
    · rw [hsame] at hopen hi
      exact .inl (.inr ⟨p, howner, hopen, i, hi, hkey⟩)

/-- No key is kept by two workers. -/
def AssemblyState.KeptOnce (opt : CaptureOption) (packets : ℕ → Delivery) (s : AssemblyState n) :
    Prop :=
  ∀ w w' k, s.Keeps opt packets w k → s.Keeps opt packets w' k → w = w'

theorem keptOnce_step {a : AssemblyAction n} (hs : s.KeptOnce opt packets)
    (hreach : (assemblyMachine opt packets n).Reachable s) (hguard : ReadsOwn opt packets s a)
    (hstep : assemblyStep opt packets s a = some t) : t.KeptOnce opt packets := by
  intro w w' k hw hw'
  rcases keeps_step hreach hstep hw with hw | ⟨half, hswaps, i, hi, hkey⟩ <;>
    rcases keeps_step hreach hstep hw' with hw' | ⟨half', hswaps', i', hi', hkey'⟩
  · exact hs w w' k hw hw'
  · -- `w'` reads what `w` keeps
    by_contra hne
    exact hguard w' half' hswaps' i' hi' k hkey' w hne hw
  · by_contra hne
    exact hguard w half hswaps i hi k hkey w' (Ne.symm hne) hw'
  · simpa using hswaps.1.symm.trans hswaps'.1

theorem keptOnce_init : AssemblyState.KeptOnce opt packets ({} : AssemblyState n) := by
  have hnone : ∀ w k, ¬AssemblyState.Keeps opt packets ({} : AssemblyState n) w k := by
    rintro w k (hk | ⟨p, howner, -, i, hi, -⟩)
    · exact hk rfl
    · cases p with
      | held | task => exact absurd hi List.not_mem_nil
      | loaded | half => nomatch howner
  exact fun w w' k hw => absurd hw (hnone w k)

/-- No flow is ever spread over the tables of two workers in a run in which a worker reads only
packets whose keys no other worker keeps; and this is so exactly in the runs in which a task merges
packets only when no other worker has packets with the same key. -/
theorem hasPackets_once (opt : CaptureOption) (packets : ℕ → Delivery) (n : ℕ)
    (as : List (AssemblyAction n)) {t : AssemblyState n}
    (h : (assemblyMachine opt packets n).run {} as = some t) :
    ((assemblyMachine opt packets n).StepsMeet (ReadsOwn opt packets) {} as →
      (assemblyMachine opt packets n).Throughout AssemblyState.HasPacketsOnce {} as) ∧
    ((assemblyMachine opt packets n).Throughout AssemblyState.HasPacketsOnce {} as ↔
      (assemblyMachine opt packets n).StepsMeet (MergesOwn opt packets) {} as) := by
  refine ⟨fun hmeet => ?_, fun honce => ?_, fun hmeet => ?_⟩
  · refine Machine.StepsMeet.throughout
      (fun s a t hreach hs hguard hstep => keptOnce_step hs hreach hguard hstep)
      ?_ as Machine.Reachable.init hmeet keptOnce_init
    exact fun s hs w w' k hw hw' => hs w w' k (.inl hw) (.inl hw')
  · exact honce.stepsMeet (fun s a t hguard hstep =>
      not_hasPacketsOnce_of_not_mergesOwn hguard hstep) as h
  · refine Machine.StepsMeet.throughout
      (fun s a t _ hs hguard hstep => hasPacketsOnce_step hs hguard hstep)
      (fun s hs => hs) as Machine.Reachable.init hmeet ?_
    exact fun w w' k hw => absurd rfl hw

/-! ### Runs -/

/-- A worker reads a packet and merges it. -/
def workerMerges (w : Fin 2) : List (AssemblyAction 2) :=
  List.flatten [List.replicate 3 (.live (.thread w)), [.live (.load ()), .live (.append ())],
    List.replicate 10 (.live (.thread w)), List.replicate 9 (.live (.executor .run)),
    List.replicate 2 (.live (.executor (.async (w, 0))))]

/-- A worker has never read a packet. -/
def AssemblyState.untouched (s : AssemblyState n) (w : Fin n) : Bool :=
  (s.sink w).mFlowTable.entries.isEmpty && (s.thread w).held.isEmpty && s.calls w == 0

theorem not_keeps_of_untouched (hs : (assemblyMachine opt packets n).Reachable s)
    (hw : s.untouched w = true) : ¬s.Keeps opt packets w k := by
  simp only [AssemblyState.untouched, Bool.and_eq_true, List.isEmpty_iff, beq_iff_eq] at hw
  obtain ⟨⟨hentries, hheld⟩, hcalls⟩ := hw
  rintro (hk | ⟨p, howner, -, i, hi, -⟩)
  · exact hk (by simp [FlowState.existing, OrderedMap.get?, hentries])
  · cases p with
    | held w' =>
        obtain rfl : w' = w := Option.some.inj howner
        rw [DrainState.packetsAt, hheld] at hi
        exact List.not_mem_nil hi
    | task c =>
        obtain rfl : c.1 = w := Option.some.inj howner
        have hnone := (called_of_reachable (drain_reachable (live_reachable hs))).batch_eq_nil c.1
          c.2 (hcalls ▸ Nat.zero_le _)
        rw [DrainState.packetsAt, hnone] at hi
        exact List.not_mem_nil hi
    | loaded | half => simp [Place.owner] at howner

/-- A worker reads only as long as no other one has. -/
def AssemblyState.readsAlone (s : AssemblyState n) : AssemblyAction n → Bool
  | .live (.thread w) => (List.finRange n).all fun w' => decide (w' = w) || s.untouched w'
  | _ => true

theorem readsOwn_of_readsAlone (s : AssemblyState n) (a : AssemblyAction n)
    (hs : (assemblyMachine opt packets n).Reachable s) (h : s.readsAlone a = true) :
    ReadsOwn opt packets s a := by
  rintro w half ⟨rfl, -, -⟩ i - k - w' hne
  have hw := List.all_eq_true.mp h w' (List.mem_finRange w')
  rw [decide_eq_false hne, Bool.false_or] at hw
  exact not_keeps_of_untouched hs hw

/-- One of two workers reads a packet, and only its table has the flow. -/
theorem hasPackets_once_workerMerges :
    ∃ t, (assemblyMachine {} (fun _ => udpDelivery) 2).run {} (workerMerges 0) = some t ∧
      (∃ k, t.HasPackets 0 k) ∧
      (assemblyMachine {} (fun _ => udpDelivery) 2).Throughout AssemblyState.HasPacketsOnce {}
        (workerMerges 0) := by
  have hrun : (assemblyMachine {} (fun _ => udpDelivery) 2).run {} (workerMerges 0) = some _ := rfl
  refine ⟨_, hrun, ⟨(udpDelivery.key? {}).getD "", nofun⟩, (hasPackets_once {} _ 2 _ hrun).1 ?_⟩
  exact Machine.StepsMeet.of_check readsOwn_of_readsAlone _ Machine.Reachable.init rfl

/-- Two packets of one flow are read by two workers. -/
theorem hasPackets_not_once :
    ¬∀ (opt : CaptureOption) (packets : ℕ → Delivery) (n : ℕ) (s : AssemblyState n),
      (assemblyMachine opt packets n).Reachable s → s.HasPacketsOnce := by
  intro h
  have hrun : (assemblyMachine {} (fun _ => udpDelivery) 2).run {}
    (workerMerges 0 ++ workerMerges 1) = some _ := rfl
  have hsame : (0 : Fin 2) = 1 :=
    h _ _ 2 _ ⟨_, hrun⟩ 0 1 ((udpDelivery.key? {}).getD "") nofun nofun
  nomatch hsame

end Hound
