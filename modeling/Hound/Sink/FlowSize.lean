import Hound.Capture.ParseOptions
import Hound.Sink.FlowTable

/-!
# The size of flows

A list of the flow table grows up to `min_packets` packets, counted in `size_t`, and is handed
over when the next packet arrives or a clean pass comes along. So `max_packets`, which only an
assertion looks at, bounds the flows exactly when it is not below `min_packets`.

* `FlowState.Sized` : how long lists are, for any `min_packets` but zero.
* `Encodable` : what the encoder and the assertion expect.
* `accepted_encodable_iff` : the options under which they get it.
-/

namespace Hound

variable {opt : CaptureOption}

/-! ### How long lists are -/

/-- The lists of the table are not empty and have at most `min_packets` packets, those handed over
exactly that many, and none has more than have been merged. -/
structure FlowState.Sized (opt : CaptureOption) (s : FlowState) : Prop where
  lists : ∀ e ∈ s.mFlowTable.entries,
    1 ≤ e.2.length ∧ e.2.length ≤ toSizeT opt.minPackets ∧ e.2.length ≤ s.merged.length
  flows : ∀ flow, .enqueued flow ∈ s.history →
    flow.packetList.length = toSizeT opt.minPackets ∧ toSizeT opt.minPackets ≤ s.merged.length
  /-- The assertion has held if it allows for lists of the size they have. -/
  asserted : min (toSizeT opt.minPackets) s.merged.length ≤ toSizeT opt.maxPackets →
    s.assertHeld = true

/-- The list of a key, present or not. -/
theorem FlowState.Sized.existing {s : FlowState} (hs : s.Sized opt) (key : String) :
    ((s.mFlowTable.get? key).getD []).length ≤ toSizeT opt.minPackets ∧
      ((s.mFlowTable.get? key).getD []).length ≤ s.merged.length := by
  cases hget : s.mFlowTable.get? key with
  | none => simp
  | some list => exact (hs.lists _ (s.mFlowTable.mem_entries_iff.mpr hget)).2

theorem sized_mergePacket (hmin : 1 ≤ toSizeT opt.minPackets) {s : FlowState} (hs : s.Sized opt)
    (p : ParsedPacket) : ∃ s', mergePacket opt s p = .ok s' ∧ s'.Sized opt ∧
      s'.merged = s.merged ++ [p] := by
  obtain ⟨hlen, hmerged⟩ := hs.existing p.mKey
  set existing := (s.mFlowTable.get? p.mKey).getD [] with hexisting
  by_cases hready : toSizeT opt.minPackets ≤ existing.length
  · -- the list has exactly `min_packets` packets
    have hne : existing ≠ [] := List.length_pos_iff.mp (by omega)
    obtain ⟨flow, hflow, -, hlist⟩ := HdFlow.ofData_of_ne_nil p.mKey hne
    refine ⟨_, mergePacket_of_ready hexisting.symm hready hflow, ⟨?_, ?_, ?_⟩, rfl⟩
    · intro e he
      simp only [List.length_append, List.length_singleton]
      rcases OrderedMap.mem_setEntry he with rfl | he
      · simp only [List.length_singleton]
        omega
      · have := hs.lists e he
        omega
    · intro flow' hflow'
      simp only [List.length_append, List.length_singleton]
      rcases List.mem_append.mp hflow' with hflow' | hflow'
      · have := hs.flows flow' hflow'
        omega
      · obtain rfl : flow' = flow := by simpa using hflow'
        rw [hlist]
        omega
    · intro hmax
      simp only [List.length_append, List.length_singleton] at hmax ⊢
      rw [hs.asserted (by omega), Bool.true_and, decide_eq_true_iff]
      omega
  · refine ⟨_, mergePacket_of_not_ready hexisting.symm hready, ⟨?_, ?_, ?_⟩, rfl⟩
    · intro e he
      simp only [List.length_append, List.length_singleton]
      rcases OrderedMap.mem_setEntry he with rfl | he
      · simp only [List.length_append, List.length_singleton]
        omega
      · have := hs.lists e he
        omega
    · intro flow' hflow'
      simp only [List.length_append, List.length_singleton]
      have := hs.flows flow' hflow'
      omega
    · intro hmax
      simp only [List.length_append, List.length_singleton] at hmax ⊢
      rw [hs.asserted (by omega), Bool.true_and, decide_eq_true_iff]
      omega

theorem sized_mergeToExistingFlow (hmin : 1 ≤ toSizeT opt.minPackets)
    (parsedList : List ParsedPacket) {s : FlowState} (hs : s.Sized opt) :
    ∃ s', mergeToExistingFlow opt s parsedList = .ok s' ∧ s'.Sized opt ∧
      s'.merged = s.merged ++ parsedList := by
  unfold mergeToExistingFlow
  induction parsedList generalizing s with
  | nil => exact ⟨s, rfl, hs, (List.append_nil _).symm⟩
  | cons p ps ih =>
      obtain ⟨t, ht, hsized, hmerged⟩ := sized_mergePacket hmin hs p
      obtain ⟨s', hs', hsized', hmerged'⟩ := ih hsized
      refine ⟨s', ?_, hsized', ?_⟩
      · rw [List.foldlM_cons, ht]
        exact hs'
      · rw [hmerged', hmerged, List.append_assoc, List.singleton_append]

/-- One visit of a clean pass: a list handed over has exactly `min_packets` packets. -/
theorem sized_cleanEntry (clock : String → ℤ) {kept rest : List (String × List ParsedPacket)}
    {e : String × List ParsedPacket} {history : List FlowEvent} {merged : ℕ}
    (hlists : ∀ e' ∈ kept ++ e :: rest, 1 ≤ e'.2.length ∧
      e'.2.length ≤ toSizeT opt.minPackets ∧ e'.2.length ≤ merged)
    (hflows : ∀ flow, .enqueued flow ∈ history →
      flow.packetList.length = toSizeT opt.minPackets ∧ toSizeT opt.minPackets ≤ merged) :
    ∃ keep history', cleanEntry opt clock history e.1 e.2 = .ok (keep, history') ∧
      (∀ e' ∈ (if keep then kept ++ [e] else kept) ++ rest, 1 ≤ e'.2.length ∧
        e'.2.length ≤ toSizeT opt.minPackets ∧ e'.2.length ≤ merged) ∧
      ∀ flow, .enqueued flow ∈ history' →
        flow.packetList.length = toSizeT opt.minPackets ∧ toSizeT opt.minPackets ≤ merged := by
  have he := hlists e (List.mem_append_right _ List.mem_cons_self)
  have hrest : ∀ e' ∈ kept ++ rest, 1 ≤ e'.2.length ∧
      e'.2.length ≤ toSizeT opt.minPackets ∧ e'.2.length ≤ merged := by
    intro e' he'
    apply hlists
    rcases List.mem_append.mp he' with he' | he'
    · exact List.mem_append_left _ he'
    · exact List.mem_append_right _ (List.mem_cons_of_mem e he')
  obtain ⟨keep, history', hvisit⟩ :=
    exists_cleanEntry opt clock history e.1 (List.length_pos_iff.mp he.1)
  refine ⟨keep, history', hvisit, ?_⟩
  obtain ⟨flow, hready, hflow, rfl, rfl⟩ | ⟨-, -, rfl, rfl⟩ | ⟨-, -, rfl, rfl⟩ :=
    cleanEntry_cases hvisit
  · -- handed over
    refine ⟨hrest, fun flow' hflow' => ?_⟩
    rcases List.mem_append.mp hflow' with hflow' | hflow'
    · exact hflows flow' hflow'
    · obtain rfl : flow' = flow := by simpa using hflow'
      rw [(HdFlow.ofData_spec hflow).2]
      omega
  · -- dropped
    refine ⟨hrest, fun flow' hflow' => ?_⟩
    rcases List.mem_append.mp hflow' with hflow' | hflow'
    · exact hflows flow' hflow'
    · simp at hflow'
  · -- kept
    rw [if_pos rfl, List.append_assoc]
    exact ⟨hlists, hflows⟩

/-- So does a whole pass. -/
theorem sized_cleanPass (clock : String → ℤ) {s : FlowState} (hs : s.Sized opt) :
    ∃ s', cleanPass opt clock s = .ok s' ∧ s'.Sized opt ∧ s'.merged = s.merged := by
  obtain ⟨table, history, hsweep, hlists, hflows⟩ :=
    OrderedMap.sweep_induction (cleanEntry opt clock)
      (I := fun kept rest history =>
        (∀ e ∈ kept ++ rest, 1 ≤ e.2.length ∧ e.2.length ≤ toSizeT opt.minPackets ∧
          e.2.length ≤ s.merged.length) ∧
        ∀ flow, .enqueued flow ∈ history →
          flow.packetList.length = toSizeT opt.minPackets ∧
            toSizeT opt.minPackets ≤ s.merged.length)
      (m := s.mFlowTable) (s := s.history) ⟨hs.lists, hs.flows⟩
      fun kept e rest history _ h => sized_cleanEntry clock h.1 h.2
  refine ⟨{ s with mFlowTable := table, history }, ?_, ⟨?_, hflows, hs.asserted⟩, rfl⟩
  · rw [cleanPass, hsweep]
    rfl
  · simpa using hlists

/-- How many packets a schedule merges. -/
def packetCount : List FlowAction → ℕ
  | [] => 0
  | .merge parsedList :: actions => parsedList.length + packetCount actions
  | .clean _ :: actions => packetCount actions

/-- Along every schedule lists are as long as they should be, and nothing faults. -/
theorem sized_run (hmin : 1 ≤ toSizeT opt.minPackets) (actions : List FlowAction)
    {s : FlowState} {r : Except FlowFault FlowState} (hs : s.Sized opt)
    (hrun : (flowMachine opt).run (.ok s) actions = some r) :
    ∃ s', r = .ok s' ∧ s'.Sized opt ∧
      s'.merged.length = s.merged.length + packetCount actions := by
  refine flow_run_induction (P := fun rest t => t.Sized opt ∧
    t.merged.length + packetCount rest = s.merged.length + packetCount actions)
    ?_ ⟨hs, rfl⟩ hrun
  rintro a rest t ⟨ht, hcount⟩
  cases a with
  | merge parsedList =>
      obtain ⟨u, hu, hsized, hmerged⟩ := sized_mergeToExistingFlow hmin parsedList ht
      refine ⟨u, hu, hsized, ?_⟩
      rw [packetCount] at hcount
      rw [hmerged, List.length_append]
      omega
  | clean clock =>
      obtain ⟨u, hu, hsized, hmerged⟩ := sized_cleanPass clock ht
      refine ⟨u, hu, hsized, ?_⟩
      rwa [hmerged]

theorem sized_initial : FlowState.Sized opt {} := ⟨nofun, nofun, fun _ => rfl⟩

/-! ### Filling one list -/

/-- Packets of one key fill its list. The assertion then tells whether the list may be that
long. -/
theorem fill_list (opt : CaptureOption) (p : ParsedPacket) (k : ℕ) {j : ℕ} {s : FlowState}
    (hlist : (s.mFlowTable.get? p.mKey).getD [] = List.replicate j p)
    (hroom : j + k ≤ toSizeT opt.minPackets) :
    ∃ s', mergeToExistingFlow opt s (List.replicate k p) = .ok s' ∧
      (s'.mFlowTable.get? p.mKey).getD [] = List.replicate (j + k) p ∧
      s'.history = s.history ∧
      (s'.assertHeld = true →
        s.assertHeld = true ∧ (0 < k → j + k ≤ toSizeT opt.maxPackets)) := by
  unfold mergeToExistingFlow
  induction k generalizing j s with
  | zero => exact ⟨s, rfl, hlist, rfl, fun h => ⟨h, nofun⟩⟩
  | succ k ih =>
      have hnot : ¬toSizeT opt.minPackets ≤ (List.replicate j p).length := by
        rw [List.length_replicate]
        omega
      obtain ⟨t, hmerge, htlist, hthistory, htheld⟩ : ∃ t, mergePacket opt s p = .ok t ∧
          (t.mFlowTable.get? p.mKey).getD [] = List.replicate (j + 1) p ∧
          t.history = s.history ∧
          t.assertHeld = (s.assertHeld && decide (j + 1 ≤ toSizeT opt.maxPackets)) := by
        refine ⟨_, mergePacket_of_not_ready hlist hnot, ?_, rfl, ?_⟩
        · simp [OrderedMap.get?_set, List.replicate_succ']
        · simp
      obtain ⟨s', hs', hlist', hhistory, hheld⟩ := ih htlist (by omega)
      refine ⟨s', ?_, ?_, hhistory.trans hthistory, fun h => ?_⟩
      · rw [List.replicate_succ, List.foldlM_cons, hmerge]
        exact hs'
      · rw [hlist']
        congr 1
        omega
      · obtain ⟨ht, hk⟩ := hheld h
        rw [htheld, Bool.and_eq_true, decide_eq_true_iff] at ht
        exact ⟨ht.1, fun _ => by rcases Nat.eq_zero_or_pos k with rfl | hpos <;> omega⟩

/-- With `min_packets` zero the first packet finds an empty list full. -/
theorem merge_faults (opt : CaptureOption) (hmin : toSizeT opt.minPackets = 0) (p : ParsedPacket) :
    mergeToExistingFlow opt {} [p] = .error .noFirstPacket := by
  have hready : isFlowReady opt [] = true := by simp [isFlowReady, hmin]
  have hexisting : ((FlowState.mFlowTable {}).get? p.mKey).getD [] = [] := rfl
  rw [mergeToExistingFlow, List.foldlM_cons, mergePacket, hexisting, if_pos hready]
  rfl

/-- A packet more than `min_packets` hands over a flow of exactly `min_packets` packets. -/
theorem hand_over (opt : CaptureOption) (hmin : 1 ≤ toSizeT opt.minPackets) (p : ParsedPacket) :
    ∃ s flow, (flowMachine opt).run (.ok {})
        [.merge (List.replicate (toSizeT opt.minPackets) p), .merge [p]] = some (.ok s) ∧
      .enqueued flow ∈ s.history ∧ flow.packetList.length = toSizeT opt.minPackets := by
  obtain ⟨s, hs, hlist, -, -⟩ :=
    fill_list opt p (toSizeT opt.minPackets) (j := 0) (s := {}) rfl (by omega)
  rw [Nat.zero_add] at hlist
  have hne : List.replicate (toSizeT opt.minPackets) p ≠ [] := by
    rw [← List.length_pos_iff, List.length_replicate]
    exact hmin
  obtain ⟨flow, hflow, -, hpackets⟩ := HdFlow.ofData_of_ne_nil p.mKey hne
  obtain ⟨t, hnext, hhistory⟩ : ∃ t, mergePacket opt s p = .ok t ∧
      t.history = s.history ++ [.enqueued flow] :=
    ⟨_, mergePacket_of_ready hlist (by rw [List.length_replicate]) hflow, rfl⟩
  refine ⟨t, flow, ?_, ?_, ?_⟩
  · refine Machine.run_cons_eq_some _ |>.mpr ⟨.ok s, congrArg some hs, ?_⟩
    refine Machine.run_cons_eq_some _ |>.mpr ⟨.ok t, ?_, rfl⟩
    show some (mergeToExistingFlow opt s [p]) = some (.ok t)
    rw [mergeToExistingFlow, List.foldlM_cons, hnext]
    rfl
  · rw [hhistory]
    exact List.mem_append_right _ List.mem_cons_self
  · rw [hpackets, List.length_replicate]

/-! ### The options -/

/-- No vector of no packets is made a flow, every flow handed over has at least the five packets
of a window and at most `max_packets`, and the assertion has held. -/
def Encodable (opt : CaptureOption) (r : Except FlowFault FlowState) : Prop :=
  ∃ s, r = .ok s ∧
    (∀ flow, .enqueued flow ∈ s.history →
      5 ≤ flow.packetList.length ∧ (flow.packetList.length : ℤ) ≤ opt.maxPackets.toInt) ∧
    s.assertHeld = true

/-- The initial state and `min_packets` packets more decide. -/
theorem bounds_of_encodable
    (h : ∀ actions r, (flowMachine opt).run (.ok {}) actions = some r →
      packetCount actions < 2 ^ 63 → Encodable opt r) :
    5 ≤ opt.minPackets.toInt ∧ opt.minPackets.toInt ≤ opt.maxPackets.toInt ∨
      opt.minPackets.toInt < 0 ∧ opt.maxPackets.toInt < 0 := by
  have hltMin := opt.minPackets.toInt_lt
  have hltMax := opt.maxPackets.toInt_lt
  have hleMin := opt.minPackets.le_toInt
  rcases lt_trichotomy opt.minPackets.toInt 0 with hneg | hzero | hpos
  · by_contra hcontra
    have hmin := toSizeT_of_neg hneg
    have hmax := toSizeT_of_nonneg (x := opt.maxPackets) (by omega)
    -- one packet more than the assertion allows for
    obtain ⟨s, hs, -, -, hheld⟩ := fill_list opt {} (toSizeT opt.maxPackets + 1) (j := 0)
      (s := {}) rfl (by omega)
    obtain ⟨s', hs', -, hassert⟩ := h [.merge (List.replicate (toSizeT opt.maxPackets + 1) {})]
      (.ok s) (congrArg some hs) (by simp only [packetCount, List.length_replicate]; omega)
    obtain rfl : s = s' := Except.ok.inj hs'
    have hle := (hheld hassert).2 (Nat.succ_pos _)
    omega
  · have hmin := toSizeT_of_nonneg (x := opt.minPackets) (by omega)
    have hfault := merge_faults opt (by omega) {}
    obtain ⟨s, hs, -⟩ := h [.merge [{}]] _ (congrArg some hfault) (by decide)
    nomatch hs
  · have hmin := toSizeT_of_nonneg (x := opt.minPackets) (by omega)
    obtain ⟨s, flow, hrun, hmem, hlength⟩ := hand_over opt (by omega) {}
    obtain ⟨s', hs', hflows, -⟩ := h _ _ hrun
      (by simp only [packetCount, List.length_replicate, List.length_singleton]; omega)
    obtain rfl : s = s' := Except.ok.inj hs'
    have hbounds := hflows flow hmem
    omega

/-- Whenever `ParseOptions` returns, flows are encodable and the assertion holds as long as fewer
than `2 ^ 63` packets have been merged, more than which no vector holds, if and only if
`min_packets` is between five and `max_packets` or both are negative. In the former case this is so
without end. -/
theorem accepted_encodable_iff (getoptLong : List String → List (Char × String))
    (argv : List String) : ∀ opt : ProgramOption, parseOptions getoptLong {} argv = .ok opt →
      ((∀ actions r, (flowMachine opt.toCaptureOption).run (.ok {}) actions = some r →
          packetCount actions < 2 ^ 63 → Encodable opt.toCaptureOption r) ↔
        5 ≤ opt.minPackets.toInt ∧ opt.minPackets.toInt ≤ opt.maxPackets.toInt ∨
          opt.minPackets.toInt < 0 ∧ opt.maxPackets.toInt < 0) ∧
      (5 ≤ opt.minPackets.toInt → opt.minPackets.toInt ≤ opt.maxPackets.toInt →
        ∀ r, (flowMachine opt.toCaptureOption).Reachable r → Encodable opt.toCaptureOption r) := by
  intro opt _
  have hltMin := opt.minPackets.toInt_lt
  have hltMax := opt.maxPackets.toInt_lt
  have hleMin := opt.minPackets.le_toInt
  have hleMax := opt.maxPackets.le_toInt
  have hbounded : 5 ≤ opt.minPackets.toInt → opt.minPackets.toInt ≤ opt.maxPackets.toInt →
      ∀ actions r, (flowMachine opt.toCaptureOption).run (.ok {}) actions = some r →
        Encodable opt.toCaptureOption r := by
    intro hmin hmax actions r hrun
    have hsizeMin := toSizeT_of_nonneg (x := opt.minPackets) (by omega)
    have hsizeMax := toSizeT_of_nonneg (x := opt.maxPackets) (by omega)
    obtain ⟨s, rfl, hsized, -⟩ := sized_run (by omega) actions sized_initial hrun
    refine ⟨s, rfl, fun flow hflow => ?_, hsized.asserted (by omega)⟩
    have := hsized.flows flow hflow
    omega
  refine ⟨⟨bounds_of_encodable, ?_⟩, fun hmin hmax r ⟨actions, hrun⟩ =>
    hbounded hmin hmax actions r hrun⟩
  rintro (⟨hmin, hmax⟩ | ⟨hmin, hmax⟩) actions r hrun hcount
  · exact hbounded hmin hmax actions r hrun
  · -- no list ever has as many packets as `min_packets` is worth in `size_t`
    have hsizeMin := toSizeT_of_neg hmin
    have hsizeMax := toSizeT_of_neg hmax
    obtain ⟨s, rfl, hsized, hmerged⟩ := sized_run (by omega) actions sized_initial hrun
    have hmerged : s.merged.length = packetCount actions := by simpa using hmerged
    refine ⟨s, rfl, fun flow hflow => ?_, hsized.asserted (by omega)⟩
    have := hsized.flows flow hflow
    omega

/-- Five packets at least and at most are a choice that works. -/
theorem accepted_encodable_five : parseOptions getoptPairs {} ["hound", "-L", "5", "-R", "5"] =
      .ok { minPackets := 5, maxPackets := 5 } ∧
    ∀ r, (flowMachine { minPackets := 5, maxPackets := 5 }).Reachable r →
      Encodable { minPackets := 5, maxPackets := 5 } r :=
  ⟨rfl, (accepted_encodable_iff getoptPairs ["hound", "-L", "5", "-R", "5"]
    { minPackets := 5, maxPackets := 5 } rfl).2 (by decide) (by decide)⟩

/-- `-L 3` is accepted, and the fourth packet of a key hands over a flow of three. -/
theorem accepted_not_encodable : ¬∀ (getoptLong : List String → List (Char × String)) argv,
    ∀ opt : ProgramOption, parseOptions getoptLong {} argv = .ok opt →
      ∀ r, (flowMachine opt.toCaptureOption).Reachable r → Encodable opt.toCaptureOption r := by
  intro h
  obtain ⟨s, flow, hrun, hmem, hlength⟩ :=
    hand_over { minPackets := 3 } (by decide) {}
  obtain ⟨s', hs', hflows, -⟩ :=
    h getoptPairs ["hound", "-L", "3"] { minPackets := 3 } rfl (.ok s) ⟨_, hrun⟩
  obtain rfl : s = s' := Except.ok.inj hs'
  have hfive := (hflows flow hmem).1
  rw [hlength] at hfive
  exact absurd hfive (by decide)

end Hound
