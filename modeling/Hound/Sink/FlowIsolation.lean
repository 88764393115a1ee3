import Hound.Sink.FlowTable

/-!
# One flow among the others

All flows of a sink share a table, a lock and the clean passes, and packets of any keys come in one
batch. Still a sink acts on each key as if it were the only one: the flow table is a product of
automata, one for each key, that know nothing of each other.

* `keyStep` : what a sink does with one key.
* `FlowAction.own` : what an operation on the table means for one key.
* `keyState_run` : a run of the table is, key by key, a run of these automata.
* `flows_independent` : what becomes of a key depends on what concerns this key only.
-/

namespace Hound

variable {opt : CaptureOption} {k : String}

/-! ### One key -/

/-- What concerns one key. -/
inductive KeyAction where
  /-- A packet with the key is merged. -/
  | packet (parsed : ParsedPacket)
  /-- A clean pass comes along; if the key has an entry the clock is read for it. -/
  | visit (now : ℤ)

/-- The packets that wait under a key, and the lists with this key that have left the table. -/
structure KeyState where
  existing : List ParsedPacket
  history : List FlowEvent

/-- What a sink does with one key, if there is no other. -/
def keyStep (opt : CaptureOption) (k : String) (s : KeyState) :
    KeyAction → Except FlowFault KeyState
  | .packet parsed =>
      if isFlowReady opt s.existing then do
        let flow ← HdFlow.ofData k s.existing
        return { existing := [parsed], history := s.history ++ [.enqueued flow] }
      else .ok { s with existing := s.existing ++ [parsed] }
  | .visit now =>
      if s.existing.isEmpty then .ok s
      else do
        let (keep, history) ← cleanEntry opt (fun _ => now) s.history k s.existing
        return { existing := if keep then s.existing else [], history }

/-- What an operation on the table means for one key. -/
def FlowAction.own (k : String) : FlowAction → List KeyAction
  | .merge parsedList => (parsedList.filter (·.mKey = k)).map .packet
  | .clean clock => [.visit (clock k)]

/-- What the table holds of one key, and what it has done with it. -/
def FlowState.keyState (s : FlowState) (k : String) : KeyState where
  existing := s.existing k
  history := s.history.filter (·.key = k)

theorem keyState_eq {s : FlowState} {r : KeyState} (hexisting : s.existing k = r.existing)
    (hhistory : s.history.filter (·.key = k) = r.history) : s.keyState k = r := by
  rw [FlowState.keyState, hexisting, hhistory]

/-! ### The table is made of its keys -/

section Merge

variable {s t : FlowState} {p : ParsedPacket}

/-- A packet is merged as if there were no keys but its own. -/
theorem keyState_mergePacket_self (h : mergePacket opt s p = .ok t) :
    keyStep opt p.mKey (s.keyState p.mKey) (.packet p) = .ok (t.keyState p.mKey) := by
  by_cases hready : toSizeT opt.minPackets ≤ (s.existing p.mKey).length
  · have hfull : isFlowReady opt (s.existing p.mKey) = true := decide_eq_true hready
    cases hflow : HdFlow.ofData p.mKey (s.existing p.mKey) with
    | error fault =>
        have hexisting : (s.mFlowTable.get? p.mKey).getD [] = s.existing p.mKey := rfl
        unfold mergePacket at h
        rw [hexisting, if_pos hfull, hflow] at h
        contradiction
    | ok flow =>
        rw [mergePacket_of_ready rfl hready hflow, Except.ok.injEq] at h
        subst h
        have hkey : (FlowEvent.enqueued flow).key = p.mKey := (HdFlow.ofData_spec hflow).1
        have hstart : (s.keyState p.mKey).existing = s.existing p.mKey := rfl
        rw [keyStep, hstart, if_pos hfull, hflow]
        refine congrArg Except.ok (keyState_eq ?_ ?_).symm
        · simp [FlowState.existing, OrderedMap.get?_set]
        · simp [FlowState.keyState, hkey]
  · have hnot : isFlowReady opt (s.existing p.mKey) = false := decide_eq_false hready
    rw [mergePacket_of_not_ready rfl hready, Except.ok.injEq] at h
    subst h
    have hstart : (s.keyState p.mKey).existing = s.existing p.mKey := rfl
    rw [keyStep, hstart, if_neg (Bool.not_eq_true _ ▸ hnot)]
    refine congrArg Except.ok (keyState_eq ?_ rfl).symm
    simp [FlowState.existing, OrderedMap.get?_set]

/-- A packet of another key changes nothing. -/
theorem keyState_mergePacket_of_ne (hk : p.mKey ≠ k) (h : mergePacket opt s p = .ok t) :
    t.keyState k = s.keyState k := by
  have hexisting := (mergePacket_frame h).2.2 k hk.symm
  obtain ⟨flow, hflow, rfl⟩ | rfl := mergePacket_cases h
  · have hkey : (FlowEvent.enqueued flow).key ≠ k := (HdFlow.ofData_spec hflow).1.trans_ne hk
    exact keyState_eq hexisting (by simp [FlowState.keyState, hkey])
  · exact keyState_eq hexisting rfl

theorem keyState_merge {parsedList : List ParsedPacket}
    (h : mergeToExistingFlow opt s parsedList = .ok t) :
    ((FlowAction.merge parsedList).own k).foldlM (keyStep opt k) (s.keyState k) =
      .ok (t.keyState k) := by
  unfold mergeToExistingFlow at h
  induction parsedList generalizing s with
  | nil =>
      obtain rfl := Except.ok.inj h
      rfl
  | cons p ps ih =>
      rw [List.foldlM_cons] at h
      obtain ⟨u, hu, hrest⟩ := Except.bind_eq_ok_iff.mp h
      by_cases hk : p.mKey = k
      · subst hk
        have hown : (FlowAction.merge (p :: ps)).own p.mKey =
            .packet p :: (FlowAction.merge ps).own p.mKey := by simp [FlowAction.own]
        rw [hown, List.foldlM_cons, keyState_mergePacket_self hu]
        exact ih hrest
      · have hown : (FlowAction.merge (p :: ps)).own k = (FlowAction.merge ps).own k := by
          simp [FlowAction.own, hk]
        rw [hown, ← keyState_mergePacket_of_ne hk hu]
        exact ih hrest

end Merge

section Clean

variable {clock : String → ℤ} {history history' : List FlowEvent} {key : String}
  {list : List ParsedPacket} {keep : Bool}

/-- A visit of another key is not seen. -/
theorem filter_cleanEntry_of_ne (hk : key ≠ k)
    (h : cleanEntry opt clock history key list = .ok (keep, history')) :
    history'.filter (·.key = k) = history.filter (·.key = k) := by
  obtain ⟨flow, -, hflow, -, rfl⟩ | ⟨-, -, -, rfl⟩ | ⟨-, -, -, rfl⟩ := cleanEntry_cases h
  · have hid : flow.flowId ≠ k := (HdFlow.ofData_spec hflow).1 ▸ hk
    simp [FlowEvent.key, hid]
  · simp [FlowEvent.key, hk]
  · rfl

/-- A visit does the same to what has been done with its key. -/
theorem cleanEntry_filter (h : cleanEntry opt clock history k list = .ok (keep, history')) :
    cleanEntry opt (fun _ => clock k) (history.filter (·.key = k)) k list =
      .ok (keep, history'.filter (·.key = k)) := by
  obtain ⟨flow, hready, hflow, rfl, rfl⟩ | ⟨hready, htime, rfl, rfl⟩ |
    ⟨hready, htime, rfl, rfl⟩ := cleanEntry_cases h
  · have hid : flow.flowId = k := (HdFlow.ofData_spec hflow).1
    have hkey : (FlowEvent.enqueued flow).key = k := hid
    simp only [List.filter_append, hkey, decide_true, List.filter_cons_of_pos, List.filter_nil]
    rw [cleanEntry, if_pos hready, hflow]
    rfl
  · have hkey : (FlowEvent.discarded k list (clock k)).key = k := rfl
    simp only [List.filter_append, hkey, decide_true, List.filter_cons_of_pos, List.filter_nil]
    rw [cleanEntry, if_neg hready, htime]
    rfl
  · rw [cleanEntry, if_neg hready, htime]
    rfl

theorem keyState_clean {s t : FlowState} (h : cleanPass opt clock s = .ok t) :
    ((FlowAction.clean clock).own k).foldlM (keyStep opt k) (s.keyState k) =
      .ok (t.keyState k) := by
  unfold cleanPass at h
  obtain ⟨⟨table, history⟩, hsweep, ht⟩ := Except.bind_eq_ok_iff.mp h
  obtain rfl := Except.ok.inj ht
  have hother (history : List FlowEvent) (key : String) (list : List ParsedPacket) (keep : Bool)
      (history' : List FlowEvent) (hk : key ≠ k)
      (hvisit : cleanEntry opt clock history key list = .ok (keep, history')) :=
    filter_cleanEntry_of_ne hk hvisit
  have hstep : keyStep opt k (s.keyState k) (.visit (clock k)) =
      .ok (FlowState.keyState { s with mFlowTable := table, history } k) := by
    cases hget : s.mFlowTable.get? k with
    | none =>
        obtain ⟨htable, hhistory⟩ := OrderedMap.sweep_of_get?_none hother hget hsweep
        simp [keyStep, FlowState.keyState, FlowState.existing, hget, htable, hhistory]
    | some list =>
        obtain ⟨before, keep, after, hvisit, hbefore, hafter, htable⟩ :=
          OrderedMap.sweep_of_get?_some hother hget hsweep
        have hown := cleanEntry_filter hvisit
        rw [hbefore, hafter] at hown
        have hne : list ≠ [] := by
          -- the visit would have failed
          rintro rfl
          obtain ⟨flow, -, hflow, -⟩ | ⟨-, htime, -⟩ | ⟨-, htime, -⟩ := cleanEntry_cases hvisit
          all_goals contradiction
        have hexisting : (s.keyState k).existing = list := by
          simp [FlowState.keyState, FlowState.existing, hget]
        have hhistory : (s.keyState k).history = s.history.filter (·.key = k) := rfl
        rw [keyStep, hexisting, hhistory, if_neg (by simpa using hne), hown]
        cases keep with
        | true => simp [FlowState.keyState, FlowState.existing, htable]
        | false => simp [FlowState.keyState, FlowState.existing, htable]
  rw [FlowAction.own, List.foldlM_cons, hstep]
  rfl

end Clean

theorem keyState_step {s t : FlowState} {a : FlowAction} (h : flowStep opt s a = .ok t) :
    (a.own k).foldlM (keyStep opt k) (s.keyState k) = .ok (t.keyState k) := by
  cases a with
  | merge parsedList => exact keyState_merge h
  | clean clock => exact keyState_clean h

/-- A run of the table is, for each key, a run of the automaton of this key. -/
theorem keyState_run : ∀ {actions : List FlowAction} {s t : FlowState},
    (flowMachine opt).run (.ok s) actions = some (.ok t) →
      (actions.flatMap (·.own k)).foldlM (keyStep opt k) (s.keyState k) = .ok (t.keyState k)
  | [], s, t, h => by
      obtain rfl := Except.ok.inj (Option.some.inj h)
      rfl
  | a :: actions, s, t, h => by
      obtain ⟨r, hr, hrest⟩ := (flowMachine opt).run_cons_eq_some.mp h
      obtain rfl : flowStep opt s a = r := Option.some.inj hr
      cases hstep : flowStep opt s a with
      | error fault =>
          rw [hstep] at hrest
          cases actions with
          | nil =>
              have hfault := Option.some.inj hrest
              contradiction
          | cons b bs =>
              obtain ⟨r, hr, -⟩ := (flowMachine opt).run_cons_eq_some.mp hrest
              contradiction
      | ok u =>
          rw [hstep] at hrest
          rw [List.flatMap_cons, List.foldlM_append, keyState_step hstep]
          exact keyState_run hrest

/-! ### Independence -/

/-- What becomes of a flow does not depend on the others. Two runs of a flow table may differ in all
that has to do with other keys, in how the packets are grouped into calls of
`merge_to_existing_flow`, and in what the clock says when other entries are visited: if the packets
with key `k` and the clean passes, each with its clock reading for `k`, come in the same order, then
the flows handed over and the lists dropped under `k` are the same, and so are the packets that wait
under `k`. -/
theorem flows_independent (hmin : 1 ≤ opt.minPackets.toInt) {actions actions' : List FlowAction}
    {r r' : Except FlowFault FlowState} (hrun : (flowMachine opt).run (.ok {}) actions = some r)
    (hrun' : (flowMachine opt).run (.ok {}) actions' = some r')
    (hown : actions.flatMap (·.own k) = actions'.flatMap (·.own k)) :
    ∃ s s', r = .ok s ∧ r' = .ok s' ∧
      s.history.filter (·.key = k) = s'.history.filter (·.key = k) ∧
      s.existing k = s'.existing k := by
  obtain ⟨s, rfl, -⟩ := inv_of_reachable hmin ⟨actions, hrun⟩
  obtain ⟨s', rfl, -⟩ := inv_of_reachable hmin ⟨actions', hrun'⟩
  have hk := keyState_run (k := k) hrun
  have hk' := keyState_run (k := k) hrun'
  rw [hown, hk'] at hk
  obtain ⟨hexisting, hhistory⟩ := KeyState.mk.inj (Except.ok.inj hk)
  exact ⟨s, s', rfl, rfl, hhistory.symm, hexisting.symm⟩

/-- Two packets of one key, each in a batch of its own. -/
def alone : List FlowAction := [.merge [{ mKey := "k" }], .merge [{ mKey := "k" }]]

/-- The same packets in one batch, in the middle of others. -/
def amongOthers : List FlowAction :=
  [.merge [{ mKey := "j" }, { mKey := "k" }, { mKey := "j" }, { mKey := "k" }, { mKey := "l" }]]

/-- The second one finds the list of the first one full, in either run. -/
theorem flows_independent_amongOthers :
    ∃ s s', (flowMachine { minPackets := 1 }).run (.ok {}) alone = some (.ok s) ∧
      (flowMachine { minPackets := 1 }).run (.ok {}) amongOthers = some (.ok s') ∧
      s.history.length = 1 ∧ s'.history.length = 2 ∧
      s.history.filter (·.key = "k") = s'.history.filter (·.key = "k") ∧
      s.existing "k" = s'.existing "k" := by
  have hrun : (flowMachine { minPackets := 1 }).run (.ok {}) alone = some _ := rfl
  have hrun' : (flowMachine { minPackets := 1 }).run (.ok {}) amongOthers = some _ := rfl
  obtain ⟨s, s', hs, hs', hhistory, hexisting⟩ :=
    flows_independent (k := "k") (by decide) hrun hrun' rfl
  obtain rfl := Except.ok.inj hs
  obtain rfl := Except.ok.inj hs'
  exact ⟨_, _, hrun, hrun', rfl, rfl, hhistory, hexisting⟩

end Hound
