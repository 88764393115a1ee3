import Hound.Packet.Parse
import Hound.ToMathlib.Except
import Hound.ToMathlib.Machine
import Hound.ToMathlib.OrderedMap
import Mathlib.Data.String.Basic

/-!
# Flow assembly

One `KafkaSink` collects packets under their key in `mFlowTable`. `merge_to_existing_flow`
appends packets and hands a full list over to the encoder first; the clean pass of
`cleanUnwantedFlowTask` hands over what is long enough and drops what is idle. Both run under
`mtxAccessToFlowTable`, so each call and each pass is one step.

* `FlowState.Inv` : what was merged is accounted for key by key.
* `merged_accounted` : every packet merged is, in order, in an enqueued flow, in a dropped list
  or in the table, and in exactly one of them.
-/

namespace Hound

/-- An operation on an empty vector that the source does not define. -/
inductive FlowFault where
  /-- `_data[0]` in the constructor of `hd_flow`. -/
  | noFirstPacket
  /-- `existing.back()` in `_isTimeout`. -/
  | noLastPacket
  deriving DecidableEq, Repr

/-- `hd_flow`. -/
structure HdFlow where
  protocol : ℕ
  count : ℕ
  flowId : String
  packetList : List ParsedPacket
  count_eq : count = packetList.length

/-- The constructor `hd_flow(_flowId, _data)`. -/
def HdFlow.ofData (flowId : String) (data : List ParsedPacket) : Except FlowFault HdFlow :=
  match data with
  | [] => .error .noFirstPacket
  | p :: _ => .ok
      { protocol := p.protocol, count := data.length, flowId, packetList := data, count_eq := rfl }

/-- What a step does with a whole list of the table. -/
inductive FlowEvent where
  /-- `doubleBufferQueue.enqueue(flow)`. -/
  | enqueued (flow : HdFlow)
  /-- A clean pass erases an idle list; `now` is the clock reading it used. -/
  | discarded (key : String) (list : List ParsedPacket) (now : ℤ)

/-- The key of the list. -/
def FlowEvent.key : FlowEvent → String
  | .enqueued flow => flow.flowId
  | .discarded key _ _ => key

/-- The packets of the list. -/
def FlowEvent.packets : FlowEvent → List ParsedPacket
  | .enqueued flow => flow.packetList
  | .discarded _ list _ => list

/-- The key and the list, if it was enqueued. -/
def FlowEvent.enqueued? : FlowEvent → Option (String × List ParsedPacket)
  | .enqueued flow => some (flow.flowId, flow.packetList)
  | .discarded _ _ _ => none

/-- `IsFlowReady`, that is `_checkLength`: a `size_t` compared with an `int32_t`. -/
def isFlowReady (opt : CaptureOption) (existing : List ParsedPacket) : Bool :=
  decide (toSizeT opt.minPackets ≤ existing.length)

/-- `_isTimeout(existing)` at clock reading `now`. -/
def isTimeout (opt : CaptureOption) (now : ℤ) (existing : List ParsedPacket) :
    Except FlowFault Bool :=
  match existing.getLast? with
  | none => .error .noLastPacket
  | some back => .ok (decide (now - back.mTsSec ≥ opt.flowTimeout.toInt))

/-- The flow table of a sink, with what has happened to it. -/
structure FlowState where
  mFlowTable : OrderedMap String (List ParsedPacket) := OrderedMap.empty
  /-- The lists that left the table, in order. -/
  history : List FlowEvent := []
  /-- The packets merged so far, in order. -/
  merged : List ParsedPacket := []
  /-- Whether `assert(existing.size() <= opt.max_packets)` has held each time. The assertion
  is absent from release builds, so a run goes on after it fails. -/
  assertHeld : Bool := true

/-- The body of the loop of `merge_to_existing_flow`. -/
def mergePacket (opt : CaptureOption) (s : FlowState) (parsed : ParsedPacket) :
    Except FlowFault FlowState := do
  let existing := (s.mFlowTable.get? parsed.mKey).getD []
  -- a full list is enqueued before the packet is appended, so the packet starts the next one
  let (existing, history) ←
    if isFlowReady opt existing then do
      let flow ← HdFlow.ofData parsed.mKey existing
      pure ([], s.history ++ [.enqueued flow])
    else pure (existing, s.history)
  let existing := existing ++ [parsed]
  return {
    mFlowTable := s.mFlowTable.set parsed.mKey existing
    history
    merged := s.merged ++ [parsed]
    assertHeld := s.assertHeld && decide (existing.length ≤ toSizeT opt.maxPackets) }

/-- `merge_to_existing_flow`. -/
def mergeToExistingFlow (opt : CaptureOption) (s : FlowState) (parsedList : List ParsedPacket) :
    Except FlowFault FlowState :=
  parsedList.foldlM (mergePacket opt) s

/-- The body of the loop of a clean pass; `false` stands for `it = mFlowTable.erase(it)`, `true`
for `++it`. An entry is looked at once in a pass, so the clock reading is indexed by its key. -/
def cleanEntry (opt : CaptureOption) (clock : String → ℤ) (history : List FlowEvent)
    (key : String) (list : List ParsedPacket) : Except FlowFault (Bool × List FlowEvent) := do
  if toSizeT opt.minPackets ≤ list.length then
    let flow ← HdFlow.ofData key list
    return (false, history ++ [.enqueued flow])
  else if ← isTimeout opt (clock key) list then
    return (false, history ++ [.discarded key list (clock key)])
  else
    return (true, history)

/-- A clean pass of `cleanUnwantedFlowTask`. -/
def cleanPass (opt : CaptureOption) (clock : String → ℤ) (s : FlowState) :
    Except FlowFault FlowState := do
  let (mFlowTable, history) ← s.mFlowTable.sweep (cleanEntry opt clock) s.history
  return { s with mFlowTable, history }

/-- The two operations under `mtxAccessToFlowTable`. -/
inductive FlowAction where
  | merge (parsedList : List ParsedPacket)
  | clean (clock : String → ℤ)

/-- One operation. -/
def flowStep (opt : CaptureOption) (s : FlowState) : FlowAction → Except FlowFault FlowState
  | .merge parsedList => mergeToExistingFlow opt s parsedList
  | .clean clock => cleanPass opt clock s

/-- A sink whose flow table is filled and cleaned in any order. -/
def flowMachine (opt : CaptureOption) : Machine (Except FlowFault FlowState) FlowAction where
  init := .ok {}
  step r a := match r with
    | .ok s => some (flowStep opt s a)
    | .error _ => none

/-! ### Accounting -/

/-- The packets of the lists with key `k` that left the table, in order. -/
def keyLists (history : List FlowEvent) (k : String) : List ParsedPacket :=
  (history.filter (·.key = k)).flatMap FlowEvent.packets

/-- A list is enqueued when it has `min_packets` packets, and dropped when it has fewer and its
last packet is `flowTimeout` seconds old. -/
def FlowEvent.Justified (opt : CaptureOption) : FlowEvent → Prop
  | .enqueued flow => toSizeT opt.minPackets ≤ flow.packetList.length
  | .discarded _ list now => list.length < toSizeT opt.minPackets ∧
      ∃ last, list.getLast? = some last ∧ opt.flowTimeout.toInt ≤ now - last.mTsSec

/-- What was merged is, key by key, what left the table followed by what is in it. The table is
given by its entries, so that this also describes it in the middle of a clean pass. -/
structure Accounted (opt : CaptureOption) (merged : List ParsedPacket) (history : List FlowEvent)
    (entries : List (String × List ParsedPacket)) : Prop where
  split : ∀ k, merged.filter (·.mKey = k) = keyLists history k ++ (entries.lookup k).getD []
  nonempty : ∀ e ∈ entries, e.2 ≠ []
  justified : ∀ ev ∈ history, ev.Justified opt

/-- The invariant of the flow table. -/
def FlowState.Inv (opt : CaptureOption) (s : FlowState) : Prop :=
  Accounted opt s.merged s.history s.mFlowTable.entries

theorem keyLists_concat (history : List FlowEvent) (ev : FlowEvent) (k : String) :
    keyLists (history ++ [ev]) k =
      keyLists history k ++ if ev.key = k then ev.packets else [] := by
  unfold keyLists
  rw [List.filter_append, List.flatMap_append]
  by_cases hk : ev.key = k <;> simp [hk]

/-- A flow is built from any list that is not empty. -/
theorem HdFlow.ofData_of_ne_nil (flowId : String) {data : List ParsedPacket} (h : data ≠ []) :
    ∃ flow, HdFlow.ofData flowId data = .ok flow ∧ flow.flowId = flowId ∧
      flow.packetList = data := by
  obtain ⟨p, ps, rfl⟩ := List.exists_cons_of_ne_nil h
  exact ⟨_, rfl, rfl, rfl⟩

/-- A flow has the id and the packets it was built from. -/
theorem HdFlow.ofData_spec {flowId : String} {data : List ParsedPacket} {flow : HdFlow}
    (h : HdFlow.ofData flowId data = .ok flow) :
    flow.flowId = flowId ∧ flow.packetList = data := by
  cases data with
  | nil => cases h
  | cons p ps =>
      cases h
      exact ⟨rfl, rfl⟩

/-- With `min_packets` positive a full list is not empty. -/
theorem ne_nil_of_ready {opt : CaptureOption} (hmin : 1 ≤ opt.minPackets.toInt)
    {list : List ParsedPacket} (h : toSizeT opt.minPackets ≤ list.length) : list ≠ [] := by
  have hsize := toSizeT_of_nonneg (x := opt.minPackets) (by omega)
  rintro rfl
  rw [List.length_nil] at h
  omega

namespace Accounted

variable {opt : CaptureOption} {merged : List ParsedPacket} {history : List FlowEvent}

/-- A whole list may leave the table for the history. -/
theorem erase {kept rest : List (String × List ParsedPacket)} {e : String × List ParsedPacket}
    (h : Accounted opt merged history (kept ++ e :: rest))
    (hsorted : (kept ++ e :: rest).Pairwise fun a b => a.1 < b.1) {ev : FlowEvent}
    (hkey : ev.key = e.1) (hpackets : ev.packets = e.2) (hev : ev.Justified opt) :
    Accounted opt merged (history ++ [ev]) (kept ++ rest) where
  split k := by
    rw [h.split, keyLists_concat, hkey, hpackets]
    by_cases hk : e.1 = k
    · -- the keys are distinct, so no other entry has the key of the erased one
      subst hk
      rw [OrderedMap.lookup_self_of_sorted hsorted, OrderedMap.lookup_erased_self hsorted]
      simp
    · rw [OrderedMap.lookup_erased_of_ne kept rest (Ne.symm hk)]
      simp [hk]
  nonempty a ha := by
    apply h.nonempty
    rcases List.mem_append.mp ha with ha | ha
    · exact List.mem_append_left _ ha
    · exact List.mem_append_right _ (List.mem_cons_of_mem e ha)
  justified ev' hev' := by
    rcases List.mem_append.mp hev' with hev' | hev'
    · exact h.justified ev' hev'
    · exact List.mem_singleton.mp hev' ▸ hev

variable {table : OrderedMap String (List ParsedPacket)}

/-- A packet may be appended to the list of its key. -/
theorem append (h : Accounted opt merged history table.entries) (p : ParsedPacket) :
    Accounted opt (merged ++ [p]) history
      (table.set p.mKey ((table.get? p.mKey).getD [] ++ [p])).entries where
  split k := by
    have hget := table.get?_set p.mKey k ((table.get? p.mKey).getD [] ++ [p])
    rw [List.filter_append, h.split]
    show _ = _ ++ ((table.set _ _).get? k).getD []
    rw [hget]
    by_cases hk : k = p.mKey
    · subst hk
      simp [OrderedMap.get?]
    · simp [hk, Ne.symm hk, OrderedMap.get?]
  nonempty e he := by
    rcases OrderedMap.mem_setEntry he with rfl | he
    · simp
    · exact h.nonempty e he
  justified := h.justified

/-- A full list may be replaced by the packet that arrives next. -/
theorem swap (h : Accounted opt merged history table.entries) (p : ParsedPacket) {flow : HdFlow}
    (hid : flow.flowId = p.mKey) (hlist : flow.packetList = (table.get? p.mKey).getD [])
    (hready : toSizeT opt.minPackets ≤ flow.packetList.length) :
    Accounted opt (merged ++ [p]) (history ++ [.enqueued flow])
      (table.set p.mKey [p]).entries where
  split k := by
    have hget := table.get?_set p.mKey k [p]
    rw [List.filter_append, h.split, keyLists_concat]
    show _ = _ ++ ((table.set _ _).get? k).getD []
    rw [hget]
    by_cases hk : k = p.mKey
    · subst hk
      simp [FlowEvent.key, FlowEvent.packets, hid, hlist, OrderedMap.get?]
    · simp [FlowEvent.key, hid, hk, Ne.symm hk, OrderedMap.get?]
  nonempty e he := by
    rcases OrderedMap.mem_setEntry he with rfl | he
    · simp
    · exact h.nonempty e he
  justified ev hev := by
    rcases List.mem_append.mp hev with hev | hev
    · exact h.justified ev hev
    · exact List.mem_singleton.mp hev ▸ hready

/-- The lists that left the table hold packets of their own key. -/
theorem mKey_of_mem_packets {entries : List (String × List ParsedPacket)}
    (h : Accounted opt merged history entries) {ev : FlowEvent} (hev : ev ∈ history)
    {p : ParsedPacket} (hp : p ∈ ev.packets) : p.mKey = ev.key := by
  have hmem : p ∈ merged.filter (·.mKey = ev.key) := by
    rw [h.split]
    apply List.mem_append_left
    exact List.mem_flatMap.mpr ⟨ev, List.mem_filter.mpr ⟨hev, by simp⟩, hp⟩
  simpa using (List.mem_filter.mp hmem).2

/-- So do the lists in the table. -/
theorem mKey_of_mem_entries (h : Accounted opt merged history table.entries)
    {e : String × List ParsedPacket} (he : e ∈ table.entries) {p : ParsedPacket} (hp : p ∈ e.2) :
    p.mKey = e.1 := by
  have hmem : p ∈ merged.filter (·.mKey = e.1) := by
    rw [h.split]
    apply List.mem_append_right
    rw [show table.entries.lookup e.1 = some e.2 from table.mem_entries_iff.mp he]
    exact hp
  simpa using (List.mem_filter.mp hmem).2

/-- Every packet merged is in exactly one list. -/
theorem perm (h : Accounted opt merged history table.entries) :
    merged.Perm (history.flatMap FlowEvent.packets ++ table.entries.flatMap Prod.snd) := by
  -- it is enough to compare the packets of each key, and there the invariant is an equation
  apply perm_of_filter_perm ParsedPacket.mKey
  intro k
  rw [List.filter_append,
    filter_flatMap_of_keyed _ FlowEvent.key fun _ hev _ hp =>
      h.mKey_of_mem_packets hev hp,
    filter_flatMap_of_keyed _ Prod.fst fun _ he _ hp => h.mKey_of_mem_entries he hp,
    h.split, table.filter_entries]
  apply List.Perm.of_eq
  congr 1
  show (table.get? k).getD [] = _
  cases table.get? k <;> simp

end Accounted

/-! ### The operations keep the invariant -/

/-- A packet whose list is not full is appended to it. -/
theorem mergePacket_of_not_ready {opt : CaptureOption} {s : FlowState} {p : ParsedPacket}
    {existing : List ParsedPacket} (hexisting : (s.mFlowTable.get? p.mKey).getD [] = existing)
    (h : ¬toSizeT opt.minPackets ≤ existing.length) :
    mergePacket opt s p = .ok
      { mFlowTable := s.mFlowTable.set p.mKey (existing ++ [p])
        history := s.history
        merged := s.merged ++ [p]
        assertHeld := s.assertHeld &&
          decide ((existing ++ [p]).length ≤ toSizeT opt.maxPackets) } := by
  unfold mergePacket
  rw [hexisting, if_neg (by simpa [isFlowReady] using h)]
  rfl

/-- A packet whose list is full starts a new one; the full list is enqueued. -/
theorem mergePacket_of_ready {opt : CaptureOption} {s : FlowState} {p : ParsedPacket}
    {existing : List ParsedPacket} (hexisting : (s.mFlowTable.get? p.mKey).getD [] = existing)
    (h : toSizeT opt.minPackets ≤ existing.length) {flow : HdFlow}
    (hflow : HdFlow.ofData p.mKey existing = .ok flow) :
    mergePacket opt s p = .ok
      { mFlowTable := s.mFlowTable.set p.mKey [p]
        history := s.history ++ [.enqueued flow]
        merged := s.merged ++ [p]
        assertHeld := s.assertHeld && decide ([p].length ≤ toSizeT opt.maxPackets) } := by
  have hready : isFlowReady opt existing = true := decide_eq_true h
  unfold mergePacket
  rw [hexisting, if_pos hready, hflow]
  rfl

/-! ### What the operations leave alone -/

/-- The packets that wait under a key. -/
def FlowState.existing (s : FlowState) (k : String) : List ParsedPacket :=
  (s.mFlowTable.get? k).getD []

/-- The two ways in which a packet is merged. -/
theorem mergePacket_cases {opt : CaptureOption} {s s' : FlowState} {p : ParsedPacket}
    (h : mergePacket opt s p = .ok s') :
    (∃ flow, HdFlow.ofData p.mKey (s.existing p.mKey) = .ok flow ∧ s' =
      { mFlowTable := s.mFlowTable.set p.mKey [p]
        history := s.history ++ [.enqueued flow]
        merged := s.merged ++ [p]
        assertHeld := s.assertHeld && decide ([p].length ≤ toSizeT opt.maxPackets) }) ∨
    s' =
      { mFlowTable := s.mFlowTable.set p.mKey (s.existing p.mKey ++ [p])
        history := s.history
        merged := s.merged ++ [p]
        assertHeld := s.assertHeld &&
          decide ((s.existing p.mKey ++ [p]).length ≤ toSizeT opt.maxPackets) } := by
  by_cases hready : toSizeT opt.minPackets ≤ (s.existing p.mKey).length
  · cases hflow : HdFlow.ofData p.mKey (s.existing p.mKey) with
    | error fault =>
        have hexisting : (s.mFlowTable.get? p.mKey).getD [] = s.existing p.mKey := rfl
        have hfull : isFlowReady opt (s.existing p.mKey) = true := decide_eq_true hready
        unfold mergePacket at h
        rw [hexisting, if_pos hfull, hflow] at h
        cases h
    | ok flow =>
        rw [mergePacket_of_ready rfl hready hflow, Except.ok.injEq] at h
        exact Or.inl ⟨flow, rfl, h.symm⟩
  · rw [mergePacket_of_not_ready rfl hready, Except.ok.injEq] at h
    exact Or.inr h.symm

theorem mergePacket_frame {opt : CaptureOption} {s s' : FlowState} {p : ParsedPacket}
    (h : mergePacket opt s p = .ok s') :
    s'.merged = s.merged ++ [p] ∧ s'.existing p.mKey ≠ [] ∧
      ∀ k, k ≠ p.mKey → s'.existing k = s.existing k := by
  have hself (list : List ParsedPacket) :
      ((s.mFlowTable.set p.mKey (list ++ [p])).get? p.mKey).getD [] ≠ [] := by
    rw [OrderedMap.get?_set, if_pos rfl]
    simp
  have hother (list : List ParsedPacket) (k : String) (hk : k ≠ p.mKey) :
      ((s.mFlowTable.set p.mKey list).get? k).getD [] = s.existing k := by
    rw [OrderedMap.get?_set, if_neg hk]
    rfl
  obtain ⟨flow, -, rfl⟩ | rfl := mergePacket_cases h
  · exact ⟨rfl, hself [], hother _⟩
  · exact ⟨rfl, hself _, hother _⟩

/-- Merging touches only the lists of the packets' keys. -/
theorem mergeToExistingFlow_frame {opt : CaptureOption} {parsedList : List ParsedPacket}
    {s s' : FlowState} (h : mergeToExistingFlow opt s parsedList = .ok s') :
    s'.merged = s.merged ++ parsedList ∧
      ∀ k, (∀ p ∈ parsedList, k ≠ p.mKey) → s'.existing k = s.existing k := by
  unfold mergeToExistingFlow at h
  induction parsedList generalizing s with
  | nil =>
      rw [List.foldlM_nil] at h
      cases h
      exact ⟨(List.append_nil _).symm, fun _ _ => rfl⟩
  | cons p ps ih =>
      rw [List.foldlM_cons] at h
      obtain ⟨t, ht, hrest⟩ := Except.bind_eq_ok_iff.mp h
      obtain ⟨hmerged, -, hlists⟩ := mergePacket_frame ht
      obtain ⟨hmerged', hlists'⟩ := ih hrest
      refine ⟨?_, fun k hk => ?_⟩
      · rw [hmerged', hmerged, List.append_assoc, List.singleton_append]
      · rw [hlists' k fun q hq => hk q (List.mem_cons_of_mem p hq),
          hlists k (hk p List.mem_cons_self)]

/-- After a merge there are packets under the key of each packet merged, and still under every key
that had some before. -/
theorem mergeToExistingFlow_existing {opt : CaptureOption} {parsedList : List ParsedPacket}
    {s s' : FlowState} {k : String} (h : mergeToExistingFlow opt s parsedList = .ok s')
    (hk : s.existing k ≠ [] ∨ ∃ p ∈ parsedList, p.mKey = k) : s'.existing k ≠ [] := by
  unfold mergeToExistingFlow at h
  induction parsedList generalizing s with
  | nil =>
      rw [List.foldlM_nil] at h
      cases h
      exact hk.resolve_right fun ⟨p, hp, _⟩ => List.not_mem_nil hp
  | cons p ps ih =>
      rw [List.foldlM_cons] at h
      obtain ⟨t, ht, hrest⟩ := Except.bind_eq_ok_iff.mp h
      obtain ⟨-, hself, hother⟩ := mergePacket_frame ht
      refine ih hrest ?_
      rcases eq_or_ne k p.mKey with rfl | hne
      · exact .inl hself
      · refine hk.imp (fun hk => ?_) ?_
        · rwa [hother k hne]
        · rintro ⟨q, hq, rfl⟩
          exact ⟨q, (List.mem_cons.mp hq).resolve_left fun h => hne (h ▸ rfl), rfl⟩

/-- A clean pass merges nothing, and the lists it leaves are as they were. -/
theorem cleanPass_frame {opt : CaptureOption} {clock : String → ℤ} {s s' : FlowState}
    (h : cleanPass opt clock s = .ok s') :
    s'.merged = s.merged ∧ ∀ k, s'.existing k ≠ [] → s'.existing k = s.existing k := by
  unfold cleanPass at h
  obtain ⟨⟨table, history⟩, hsweep, hs'⟩ := Except.bind_eq_ok_iff.mp h
  cases hs'
  refine ⟨rfl, fun k hk => ?_⟩
  have hsub := OrderedMap.entries_of_sweep hsweep
  cases hget : table.get? k with
  | none => simp [FlowState.existing, hget] at hk
  | some list =>
      have hmem := s.mFlowTable.mem_entries_iff.mp (hsub.subset (table.mem_entries_iff.mpr hget))
      simp [FlowState.existing, hget, hmem]

/-! ### What a visit of a clean pass does -/

section Visit

variable {opt : CaptureOption} {clock : String → ℤ} {history : List FlowEvent} {key : String}
  {list : List ParsedPacket}

/-- A list with a last packet is compared with the clock. -/
theorem isTimeout_eq_ok {now : ℤ} {old : Bool} :
    isTimeout opt now list = .ok old ↔ ∃ last, list.getLast? = some last ∧
      old = decide (opt.flowTimeout.toInt ≤ now - last.mTsSec) := by
  unfold isTimeout
  cases list.getLast? with
  | none => simp
  | some last => simp [eq_comm]

/-- A visit of a list that is not empty does not fault. -/
theorem exists_cleanEntry (opt : CaptureOption) (clock : String → ℤ) (history : List FlowEvent)
    (key : String) (hne : list ≠ []) :
    ∃ keep history', cleanEntry opt clock history key list = .ok (keep, history') := by
  unfold cleanEntry
  by_cases hready : toSizeT opt.minPackets ≤ list.length
  · -- the constructor of `hd_flow` finds a first packet
    obtain ⟨flow, hflow, -⟩ := HdFlow.ofData_of_ne_nil key hne
    refine ⟨false, history ++ [.enqueued flow], ?_⟩
    rw [if_pos hready, hflow]
    rfl
  · -- and `_isTimeout` a last one
    obtain ⟨last, hlast⟩ := Option.isSome_iff_exists.mp (List.getLast?_isSome.mpr hne)
    rw [if_neg hready, isTimeout_eq_ok.mpr ⟨last, hlast, rfl⟩]
    cases decide (opt.flowTimeout.toInt ≤ clock key - last.mTsSec) with
    | true => exact ⟨false, history ++ [.discarded key list (clock key)], rfl⟩
    | false => exact ⟨true, history, rfl⟩

/-- A visit enqueues a list that is long enough, drops a short one that is idle, and leaves the
others in the table. -/
theorem cleanEntry_cases {keep : Bool} {history' : List FlowEvent}
    (h : cleanEntry opt clock history key list = .ok (keep, history')) :
    (∃ flow, toSizeT opt.minPackets ≤ list.length ∧ HdFlow.ofData key list = .ok flow ∧
      keep = false ∧ history' = history ++ [.enqueued flow]) ∨
    (¬toSizeT opt.minPackets ≤ list.length ∧ isTimeout opt (clock key) list = .ok true ∧
      keep = false ∧ history' = history ++ [.discarded key list (clock key)]) ∨
    (¬toSizeT opt.minPackets ≤ list.length ∧ isTimeout opt (clock key) list = .ok false ∧
      keep = true ∧ history' = history) := by
  unfold cleanEntry at h
  split at h
  case isTrue hready =>
      obtain ⟨flow, hflow, h⟩ := Except.bind_eq_ok_iff.mp h
      cases h
      exact Or.inl ⟨flow, hready, hflow, rfl, rfl⟩
  case isFalse hready =>
      obtain ⟨old, htime, h⟩ := Except.bind_eq_ok_iff.mp h
      cases old with
      | true =>
          cases h
          exact Or.inr (Or.inl ⟨hready, htime, rfl, rfl⟩)
      | false =>
          cases h
          exact Or.inr (Or.inr ⟨hready, htime, rfl, rfl⟩)

end Visit

/-! ### What the operations add to the history -/

section History

variable {opt : CaptureOption} {P : FlowEvent → Prop}
  (hflow : ∀ key data flow, HdFlow.ofData key data = .ok flow → P (.enqueued flow))

include hflow

/-- What holds of every flow that can be built holds of what a merge adds to the history. -/
theorem mergeToExistingFlow_history {s s' : FlowState} {parsedList : List ParsedPacket}
    (h : mergeToExistingFlow opt s parsedList = .ok s') (hs : ∀ ev ∈ s.history, P ev) :
    ∀ ev ∈ s'.history, P ev := by
  unfold mergeToExistingFlow at h
  induction parsedList generalizing s with
  | nil =>
      rw [List.foldlM_nil] at h
      cases h
      exact hs
  | cons p ps ih =>
      rw [List.foldlM_cons] at h
      obtain ⟨t, ht, hrest⟩ := Except.bind_eq_ok_iff.mp h
      refine ih hrest fun ev hev => ?_
      obtain ⟨flow, hbuilt, rfl⟩ | rfl := mergePacket_cases ht
      · rcases List.mem_append.mp hev with hev | hev
        · exact hs ev hev
        · exact List.mem_singleton.mp hev ▸ hflow _ _ flow hbuilt
      · exact hs ev hev

/-- A visit of a clean pass adds a flow built from the list, or says that the list was dropped. -/
theorem cleanEntry_history (hdrop : ∀ key list now, P (.discarded key list now))
    {clock : String → ℤ} {history history' : List FlowEvent} {key : String}
    {list : List ParsedPacket} {keep : Bool} (hs : ∀ ev ∈ history, P ev)
    (h : cleanEntry opt clock history key list = .ok (keep, history')) :
    ∀ ev ∈ history', P ev := by
  have hconcat {ev : FlowEvent} (hev : P ev) : ∀ ev' ∈ history ++ [ev], P ev' := by
    intro ev' hev'
    rcases List.mem_append.mp hev' with hev' | hev'
    · exact hs ev' hev'
    · exact List.mem_singleton.mp hev' ▸ hev
  obtain ⟨flow, -, hbuilt, -, rfl⟩ | ⟨-, -, -, rfl⟩ | ⟨-, -, -, rfl⟩ := cleanEntry_cases h
  · exact hconcat (hflow _ _ flow hbuilt)
  · exact hconcat (hdrop key list (clock key))
  · exact hs

theorem cleanPass_history (hdrop : ∀ key list now, P (.discarded key list now))
    {clock : String → ℤ} {s s' : FlowState} (h : cleanPass opt clock s = .ok s')
    (hs : ∀ ev ∈ s.history, P ev) : ∀ ev ∈ s'.history, P ev := by
  unfold cleanPass at h
  obtain ⟨⟨table, history⟩, hsweep, hs'⟩ := Except.bind_eq_ok_iff.mp h
  cases hs'
  exact OrderedMap.sweep_state (P := fun history => ∀ ev ∈ history, P ev)
    (fun history key list keep history' => cleanEntry_history hflow hdrop) hsweep hs

end History

/-- One visit of a clean pass. -/
theorem accounted_cleanEntry {opt : CaptureOption} (clock : String → ℤ) {merged : List ParsedPacket}
    {history : List FlowEvent} {kept rest : List (String × List ParsedPacket)}
    {e : String × List ParsedPacket}
    (h : Accounted opt merged history (kept ++ e :: rest))
    (hsorted : (kept ++ e :: rest).Pairwise fun a b => a.1 < b.1) :
    ∃ keep history', cleanEntry opt clock history e.1 e.2 = .ok (keep, history') ∧
      Accounted opt merged history' ((if keep then kept ++ [e] else kept) ++ rest) := by
  have hne : e.2 ≠ [] := h.nonempty e (List.mem_append_right _ List.mem_cons_self)
  obtain ⟨keep, history', hvisit⟩ := exists_cleanEntry opt clock history e.1 hne
  refine ⟨keep, history', hvisit, ?_⟩
  obtain ⟨flow, hready, hflow, rfl, rfl⟩ | ⟨hready, htime, rfl, rfl⟩ | ⟨-, -, rfl, rfl⟩ :=
    cleanEntry_cases hvisit
  · -- long enough: enqueued and erased
    obtain ⟨hid, hlist⟩ := HdFlow.ofData_spec hflow
    exact h.erase hsorted hid hlist (show _ ≤ flow.packetList.length from hlist ▸ hready)
  · -- idle: dropped
    obtain ⟨last, hlast, hold⟩ := isTimeout_eq_ok.mp htime
    exact h.erase hsorted rfl rfl ⟨by omega, last, hlast, of_decide_eq_true hold.symm⟩
  · -- still active: kept
    rw [if_pos rfl, List.append_assoc]
    exact h

/-- What an operation keeps of the state and the operations to come, without a fault, a whole run
keeps. -/
theorem flow_run_induction {opt : CaptureOption} {P : List FlowAction → FlowState → Prop}
    (hstep : ∀ a actions s, P (a :: actions) s →
      ∃ s', flowStep opt s a = .ok s' ∧ P actions s')
    {actions : List FlowAction} {s : FlowState} {r : Except FlowFault FlowState}
    (hs : P actions s) (hrun : (flowMachine opt).run (.ok s) actions = some r) :
    ∃ s', r = .ok s' ∧ P [] s' := by
  refine Machine.run_induction_rest (P := fun actions r => ∃ s, r = .ok s ∧ P actions s) ?_
    actions _ _ ⟨s, rfl, hs⟩ hrun
  rintro a actions r t ⟨s, rfl, hs⟩ hst
  obtain ⟨s', hs', hP⟩ := hstep a actions s hs
  obtain rfl : flowStep opt s a = t := Option.some.inj hst
  exact ⟨s', hs', hP⟩

section Operations

variable {opt : CaptureOption} (hmin : 1 ≤ opt.minPackets.toInt)

include hmin

theorem inv_mergePacket {s : FlowState} (hs : s.Inv opt) (p : ParsedPacket) :
    ∃ s', mergePacket opt s p = .ok s' ∧ s'.Inv opt := by
  set existing := (s.mFlowTable.get? p.mKey).getD [] with hexisting
  by_cases hready : toSizeT opt.minPackets ≤ existing.length
  · -- a full list is not empty, because `min_packets` is positive
    obtain ⟨flow, hflow, hid, hlist⟩ :=
      HdFlow.ofData_of_ne_nil p.mKey (ne_nil_of_ready hmin hready)
    have hfull : toSizeT opt.minPackets ≤ flow.packetList.length := by rwa [hlist]
    exact ⟨_, mergePacket_of_ready hexisting.symm hready hflow, hs.swap p hid hlist hfull⟩
  · exact ⟨_, mergePacket_of_not_ready hexisting.symm hready, hs.append p⟩

theorem inv_mergeToExistingFlow (parsedList : List ParsedPacket) {s : FlowState}
    (hs : s.Inv opt) : ∃ s', mergeToExistingFlow opt s parsedList = .ok s' ∧ s'.Inv opt := by
  unfold mergeToExistingFlow
  -- the induction is on the packets to come, for every table that satisfies the invariant
  induction parsedList generalizing s with
  | nil => exact ⟨s, rfl, hs⟩
  | cons p ps ih =>
      obtain ⟨t, ht, hinv⟩ := inv_mergePacket hmin hs p
      obtain ⟨s', hs', hinv'⟩ := ih hinv
      refine ⟨s', ?_, hinv'⟩
      rw [List.foldlM_cons, ht]
      exact hs'

omit hmin in
theorem inv_cleanPass (clock : String → ℤ) {s : FlowState} (hs : s.Inv opt) :
    ∃ s', cleanPass opt clock s = .ok s' ∧ s'.Inv opt := by
  obtain ⟨table, history, hsweep, hinv⟩ :=
    OrderedMap.sweep_induction (cleanEntry opt clock)
      (I := fun kept rest history => Accounted opt s.merged history (kept ++ rest))
      (m := s.mFlowTable) (s := s.history) hs
      fun kept e rest history hsub h =>
        accounted_cleanEntry clock h (s.mFlowTable.sorted.sublist hsub)
  refine ⟨{ s with mFlowTable := table, history }, ?_, ?_⟩
  · rw [cleanPass, hsweep]
    rfl
  · rwa [List.append_nil] at hinv

omit hmin in
theorem inv_initial : FlowState.Inv opt {} :=
  ⟨fun _ => rfl, fun _ he => absurd he List.not_mem_nil, fun _ hev => absurd hev List.not_mem_nil⟩

/-- No operation runs into a fault, and the invariant holds in every reachable state. -/
theorem inv_of_reachable {r : Except FlowFault FlowState} (hr : (flowMachine opt).Reachable r) :
    ∃ s, r = .ok s ∧ s.Inv opt := by
  obtain ⟨actions, hrun⟩ := hr
  refine flow_run_induction (P := fun _ s => s.Inv opt) (fun a _ s hs => ?_) inv_initial hrun
  cases a with
  | merge parsedList => exact inv_mergeToExistingFlow hmin parsedList hs
  | clean clock => exact inv_cleanPass clock hs

end Operations

end Hound
