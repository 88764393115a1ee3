import Hound.Sink.FlowSize
import Hound.ToMathlib.Chunks

/-!
# Flows of equal size

With `min_packets` positive every flow that is handed over has exactly `min_packets` packets,
whether a merge hands it over or a clean pass. If there are only merges, the packets of a key are
handed over chunk by chunk, and the last chunk, full or not, stays in the table.

* `FlowState.MergedOnly` : what is known when no clean pass has dropped anything.
* `flowSizes` : the sizes in every reachable state, and the chunks of every run of merges.
-/

namespace Hound

variable {opt : CaptureOption}

/-- The lists enqueued under a key, in order. -/
def enqueuedUnder (history : List FlowEvent) (k : String) : List (List ParsedPacket) :=
  ((history.filterMap FlowEvent.enqueued?).filter (·.1 = k)).map Prod.snd

theorem exists_of_mem_enqueuedUnder {history : List FlowEvent} {k : String}
    {list : List ParsedPacket} (h : list ∈ enqueuedUnder history k) :
    ∃ flow, .enqueued flow ∈ history ∧ flow.packetList = list := by
  obtain ⟨e, he, rfl⟩ := List.mem_map.mp h
  obtain ⟨ev, hev, hflow⟩ := List.mem_filterMap.mp (List.mem_filter.mp he).1
  cases ev with
  | enqueued flow =>
      cases hflow
      exact ⟨flow, hev, rfl⟩
  | discarded key list' now => cases hflow

/-- If nothing was dropped, what left the table was enqueued. -/
theorem keyLists_eq_flatten {history : List FlowEvent}
    (h : ∀ ev ∈ history, ∃ flow, ev = .enqueued flow) (k : String) :
    keyLists history k = (enqueuedUnder history k).flatten := by
  unfold keyLists enqueuedUnder
  induction history with
  | nil => rfl
  | cons ev history ih =>
      obtain ⟨flow, rfl⟩ := h ev List.mem_cons_self
      have hkey : (FlowEvent.enqueued flow).key = flow.flowId := rfl
      have henqueued : (FlowEvent.enqueued flow).enqueued? =
        some (flow.flowId, flow.packetList) := rfl
      have hrest := ih fun ev' hev' => h ev' (List.mem_cons_of_mem _ hev')
      rw [List.filter_cons, List.filterMap_cons_some henqueued, List.filter_cons, hkey]
      by_cases hk : flow.flowId = k
      · simp only [hk, decide_true, if_true, List.flatMap_cons, List.map_cons, List.flatten_cons,
          hrest]
        rfl
      · simpa only [hk, decide_false, if_false, Bool.false_eq_true] using hrest

/-! ### Runs of merges -/

/-- What holds of a table that has only been filled. -/
structure FlowState.MergedOnly (opt : CaptureOption) (s : FlowState) : Prop where
  inv : s.Inv opt
  sized : s.Sized opt
  /-- Nothing has been dropped. -/
  enqueued : ∀ ev ∈ s.history, ∃ flow, ev = .enqueued flow
  /-- The last packet of a key is in the table. -/
  stored : ∀ p ∈ s.merged, s.existing p.mKey ≠ []

theorem mergedOnly_initial : FlowState.MergedOnly opt {} where
  inv := inv_initial
  sized := sized_initial
  enqueued _ hev := absurd hev List.not_mem_nil
  stored _ hp := absurd hp List.not_mem_nil

theorem mergedOnly_merge (hmin : 1 ≤ opt.minPackets.toInt) (parsedList : List ParsedPacket)
    {s : FlowState} (hs : s.MergedOnly opt) :
    ∃ s', mergeToExistingFlow opt s parsedList = .ok s' ∧ s'.MergedOnly opt ∧
      s'.merged = s.merged ++ parsedList := by
  have hsize := toSizeT_of_nonneg (x := opt.minPackets) (by omega)
  obtain ⟨s', hs', hsized, hmerged⟩ :=
    sized_mergeToExistingFlow (by omega) parsedList hs.sized
  obtain ⟨t, ht, hinv⟩ := inv_mergeToExistingFlow hmin parsedList hs.inv
  obtain rfl : s' = t := Except.ok.inj (hs'.symm.trans ht)
  have henqueued := mergeToExistingFlow_history (P := fun ev => ∃ flow, ev = .enqueued flow)
    (fun _ _ flow _ => ⟨flow, rfl⟩) hs' hs.enqueued
  refine ⟨s', hs', ⟨hinv, hsized, henqueued, ?_⟩, hmerged⟩
  intro p hp
  rw [hmerged] at hp
  apply mergeToExistingFlow_existing hs'
  rcases List.mem_append.mp hp with hp | hp
  · exact Or.inl (hs.stored p hp)
  · exact Or.inr ⟨p, hp, rfl⟩

/-- The batches are still to be merged, and come after what has been merged. -/
def FlowState.Awaits (opt : CaptureOption) (all : List ParsedPacket) (actions : List FlowAction)
    (s : FlowState) : Prop :=
  s.MergedOnly opt ∧ ∃ batches : List (List ParsedPacket),
    actions = batches.map .merge ∧ s.merged ++ batches.flatten = all

theorem mergedOnly_run (hmin : 1 ≤ opt.minPackets.toInt) (batches : List (List ParsedPacket))
    {s : FlowState} (hs : s.MergedOnly opt) {r : Except FlowFault FlowState}
    (hrun : (flowMachine opt).run (.ok s) (batches.map .merge) = some r) :
    ∃ s', r = .ok s' ∧ s'.MergedOnly opt ∧ s'.merged = s.merged ++ batches.flatten := by
  have hstep : ∀ a actions t,
      FlowState.Awaits opt (s.merged ++ batches.flatten) (a :: actions) t →
      ∃ u, flowStep opt t a = .ok u ∧ u.Awaits opt (s.merged ++ batches.flatten) actions := by
    rintro a actions t ⟨ht, rest, hrest, hmerged⟩
    obtain ⟨batch, rest, rfl, rfl, rfl⟩ := List.map_eq_cons_iff.mp hrest.symm
    obtain ⟨u, hu, honly, hmerged'⟩ := mergedOnly_merge hmin batch ht
    refine ⟨u, hu, honly, rest, rfl, ?_⟩
    rwa [hmerged', List.append_assoc]
  obtain ⟨s', hs', honly, rest, hrest, hmerged⟩ :=
    flow_run_induction hstep ⟨hs, batches, rfl, rfl⟩ hrun
  obtain rfl : rest = [] := List.map_eq_nil_iff.mp hrest.symm
  rw [List.flatten_nil, List.append_nil] at hmerged
  exact ⟨s', hs', honly, hmerged⟩

/-- The lists enqueued under a key and the one in the table are the chunks of its packets. -/
theorem FlowState.MergedOnly.chunks_eq {s : FlowState} (hs : s.MergedOnly opt)
    (hmin : 1 ≤ toSizeT opt.minPackets) (k : String) :
    enqueuedUnder s.history k ++ (s.mFlowTable.get? k).toList =
      chunks (toSizeT opt.minPackets) (s.merged.filter (·.mKey = k)) := by
  have hlists : ∀ list ∈ enqueuedUnder s.history k, list.length = toSizeT opt.minPackets := by
    intro list hlist
    obtain ⟨flow, hflow, rfl⟩ := exists_of_mem_enqueuedUnder hlist
    exact (hs.sized.flows flow hflow).1
  have hsplit : s.merged.filter (·.mKey = k) =
      (enqueuedUnder s.history k).flatten ++ (s.mFlowTable.get? k).getD [] := by
    rw [← keyLists_eq_flatten hs.enqueued]
    exact hs.inv.split k
  cases hget : s.mFlowTable.get? k with
  | some list =>
      obtain ⟨hne, hle, -⟩ := hs.sized.lists _ (s.mFlowTable.mem_entries_iff.mpr hget)
      rw [hsplit, hget]
      exact (chunks_flatten_append hlists hne hle).symm
  | none =>
      -- no list in the table, so no packet has been merged and nothing enqueued
      have hnone : s.merged.filter (·.mKey = k) = [] := by
        refine List.filter_eq_nil_iff.mpr fun p hp hk => hs.stored p hp ?_
        rw [FlowState.existing, of_decide_eq_true hk, hget]
        rfl
      have hempty : enqueuedUnder s.history k = [] := by
        refine List.eq_nil_iff_forall_not_mem.mpr fun list hlist => ?_
        rw [hnone, eq_comm, List.append_eq_nil_iff, List.flatten_eq_nil_iff] at hsplit
        have hlen := hlists list hlist
        rw [hsplit.1 list hlist, List.length_nil] at hlen
        omega
      rw [hnone, hempty, chunks_nil hmin]
      rfl

/-- With `min_packets` positive, after any merges and clean passes the lists in the table have
between one and `min_packets` packets, and the flows enqueued exactly `min_packets`. After merges
only, the lists enqueued under a key, followed by the list in the table, are the chunks of
`min_packets` packets that the key's packets are cut into. -/
theorem flowSizes (opt : CaptureOption) (hmin : 1 ≤ opt.minPackets.toInt) :
    (∀ r, (flowMachine opt).Reachable r → ∃ s, r = .ok s ∧
      (∀ e ∈ s.mFlowTable.entries, 1 ≤ e.2.length ∧ (e.2.length : ℤ) ≤ opt.minPackets.toInt) ∧
      ∀ flow, .enqueued flow ∈ s.history →
        flow.count = flow.packetList.length ∧ (flow.count : ℤ) = opt.minPackets.toInt) ∧
    ∀ (batches : List (List ParsedPacket)) r,
      (flowMachine opt).run (.ok {}) (batches.map .merge) = some r → ∃ s, r = .ok s ∧
        ∀ k, enqueuedUnder s.history k ++ (s.mFlowTable.get? k).toList =
          chunks opt.minPackets.toInt.toNat (batches.flatten.filter (·.mKey = k)) := by
  have hsize := toSizeT_of_nonneg (x := opt.minPackets) (by omega)
  constructor
  · rintro r ⟨actions, hrun⟩
    obtain ⟨s, rfl, hsized, -⟩ := sized_run (by omega) actions sized_initial hrun
    refine ⟨s, rfl, fun e he => ?_, fun flow hflow => ⟨flow.count_eq, ?_⟩⟩
    · obtain ⟨hlow, hhigh, -⟩ := hsized.lists e he
      exact ⟨hlow, by omega⟩
    · have hcount := flow.count_eq
      have hfull := (hsized.flows flow hflow).1
      omega
  · intro batches r hrun
    obtain ⟨s, rfl, honly, hmerged⟩ := mergedOnly_run hmin batches mergedOnly_initial hrun
    have hm : opt.minPackets.toInt.toNat = toSizeT opt.minPackets := by omega
    have hall : s.merged = batches.flatten := hmerged
    refine ⟨s, rfl, fun k => ?_⟩
    rw [hm, ← hall]
    exact honly.chunks_eq (by omega) k

/-- Two packets at a time: the third finds a full list. -/
theorem flowSizes_threePackets :
    ∃ s, (flowMachine { minPackets := 2 }).run (.ok {})
        ([List.replicate 3 { mKey := "k" }].map .merge) = some (.ok s) ∧
      enqueuedUnder s.history "k" ++ (s.mFlowTable.get? "k").toList =
        [List.replicate 2 { mKey := "k" }, [{ mKey := "k" }]] := by
  have hrun : (flowMachine { minPackets := 2 }).run (.ok {})
    ([List.replicate 3 { mKey := "k" }].map .merge) = some _ := rfl
  obtain ⟨s, hs, hchunks⟩ := (flowSizes { minPackets := 2 } (by decide)).2 _ _ hrun
  exact ⟨s, hs ▸ hrun, (hchunks "k").trans rfl⟩

end Hound
