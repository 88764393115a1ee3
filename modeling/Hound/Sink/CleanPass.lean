import Hound.Sink.FlowTable

/-!
# A clean pass, iterator by iterator

The loop of `cleanUnwantedFlowTask` erases entries of `mFlowTable` while it iterates over them: the
iterator moves on by `++it` or by `it = mFlowTable.erase(it)`, and a list that is enqueued is moved
out of the table before its entry is erased.

* `cleanLoop` : the loop over the table and an iterator.
* `cleanLoop_eq_cleanPass` : it visits each entry once and does what `cleanPass` does.
* `cleanLoop_complete` : what it keeps, what it enqueues, and that it drops the rest.
-/

namespace Hound

/-! ### The loop -/

/-- What could keep the loop from ending well. -/
inductive LoopFault where
  /-- `*it` for an iterator that stands at no entry. -/
  | invalidIterator
  | flow (fault : FlowFault)
  /-- The loop has not reached `end()` after as many rounds as it was given. -/
  | outOfFuel
  deriving DecidableEq, Repr

/-- The variables of the loop. -/
structure CleanLoop where
  mFlowTable : OrderedMap String (List ParsedPacket)
  /-- The key of the entry the iterator stands at; `none` is `end()`. -/
  it : Option String
  history : List FlowEvent
  /-- The entries visited so far, in order. -/
  visited : List (String × List ParsedPacket) := []

/-- Before the first round. -/
def CleanLoop.start (s : FlowState) : CleanLoop where
  mFlowTable := s.mFlowTable
  it := s.mFlowTable.begin?
  history := s.history

/-- One round, with the iterator at `key`. -/
def cleanRound (opt : CaptureOption) (clock : String → ℤ) (l : CleanLoop) (key : String) :
    Except LoopFault CleanLoop :=
  match l.mFlowTable.get? key with
  | none => .error .invalidIterator
  | some list => do
      let next := l.mFlowTable.next? key
      let visited := l.visited ++ [(key, list)]
      if toSizeT opt.minPackets ≤ list.length then
        let flow ← (HdFlow.ofData key list).mapError .flow
        -- the constructor of `hd_flow` has moved the packets out of the list
        let mFlowTable := l.mFlowTable.set key []
        return { mFlowTable := mFlowTable.erase key, it := next
                 history := l.history ++ [.enqueued flow], visited }
      else if ← (isTimeout opt (clock key) list).mapError .flow then
        return { mFlowTable := l.mFlowTable.erase key, it := next
                 history := l.history ++ [.discarded key list (clock key)], visited }
      else
        return { l with it := next, visited }

/-- The loop, for at most as many rounds as there is fuel. -/
def cleanLoop (opt : CaptureOption) (clock : String → ℤ) : ℕ → CleanLoop → Except LoopFault CleanLoop
  | 0, l => if l.it = none then .ok l else .error .outOfFuel
  | fuel + 1, l => match l.it with
      | none => .ok l
      | some key => do cleanLoop opt clock fuel (← cleanRound opt clock l key)

/-! ### Rounds and visits -/

section Rounds

variable {opt : CaptureOption} {clock : String → ℤ}

variable {l : CleanLoop} {key : String} {list : List ParsedPacket}

/-- A round over a list that is long enough. -/
theorem cleanRound_of_ready (hget : l.mFlowTable.get? key = some list)
    (hready : toSizeT opt.minPackets ≤ list.length) {flow : HdFlow}
    (hflow : HdFlow.ofData key list = .ok flow) :
    cleanRound opt clock l key = .ok
      { mFlowTable := (l.mFlowTable.set key []).erase key, it := l.mFlowTable.next? key
        history := l.history ++ [.enqueued flow], visited := l.visited ++ [(key, list)] } := by
  unfold cleanRound
  simp only [hget, if_pos hready, hflow]
  rfl

/-- A round over a list that is too short and idle. -/
theorem cleanRound_of_idle (hget : l.mFlowTable.get? key = some list)
    (hready : ¬toSizeT opt.minPackets ≤ list.length)
    (hidle : isTimeout opt (clock key) list = .ok true) :
    cleanRound opt clock l key = .ok
      { mFlowTable := l.mFlowTable.erase key, it := l.mFlowTable.next? key
        history := l.history ++ [.discarded key list (clock key)]
        visited := l.visited ++ [(key, list)] } := by
  unfold cleanRound
  simp only [hget, if_neg hready, hidle]
  rfl

/-- A round over a list that is too short and not idle. -/
theorem cleanRound_of_active (hget : l.mFlowTable.get? key = some list)
    (hready : ¬toSizeT opt.minPackets ≤ list.length)
    (hactive : isTimeout opt (clock key) list = .ok false) :
    cleanRound opt clock l key =
      .ok { l with it := l.mFlowTable.next? key, visited := l.visited ++ [(key, list)] } := by
  unfold cleanRound
  simp only [hget, if_neg hready, hactive]
  rfl

/-- Between two rounds: `kept` has been passed and left alone, the iterator stands before `rest`,
and the loop has visited all entries before `rest`. -/
structure CleanLoop.At (l : CleanLoop) (kept rest all : List (String × List ParsedPacket))
    (history : List FlowEvent) : Prop where
  entries_eq : l.mFlowTable.entries = kept ++ rest
  it_eq : l.it = rest.head?.map Prod.fst
  history_eq : l.history = history
  visited_eq : l.visited ++ rest = all

/-- A round does to the entry what a visit of `cleanPass` does. -/
theorem cleanRound_of_cleanEntry {kept rest all : List (String × List ParsedPacket)}
    {e : String × List ParsedPacket} {history history' : List FlowEvent} {keep : Bool}
    (hl : l.At kept (e :: rest) all history)
    (hvisit : cleanEntry opt clock history e.1 e.2 = .ok (keep, history')) :
    ∃ l', cleanRound opt clock l e.1 = .ok l' ∧
      l'.At (if keep then kept ++ [e] else kept) rest all history' := by
  obtain ⟨hentries, -, rfl, hvisited⟩ := hl
  have hget := OrderedMap.get?_of_split hentries
  have hnext := OrderedMap.next?_of_split hentries
  have herase := OrderedMap.entries_erase_of_split hentries
  have hvisited' : l.visited ++ [(e.1, e.2)] ++ rest = all := by
    rw [← hvisited, List.append_assoc, List.singleton_append]
  obtain ⟨flow, hready, hflow, rfl, rfl⟩ | ⟨hready, htime, rfl, rfl⟩ | ⟨hready, htime, rfl, rfl⟩ :=
    cleanEntry_cases hvisit
  · -- enqueued and erased
    refine ⟨_, cleanRound_of_ready hget hready hflow, ?_, hnext, rfl, hvisited'⟩
    rw [OrderedMap.erase_set]
    exact herase
  · -- erased
    exact ⟨_, cleanRound_of_idle hget hready htime, herase, hnext, rfl, hvisited'⟩
  · -- passed
    refine ⟨_, cleanRound_of_active hget hready htime, ?_, hnext, rfl, hvisited'⟩
    rw [if_pos rfl, List.append_assoc]
    exact hentries

/-- The rounds that are left do what the visits that are left do, and there are as many. -/
theorem cleanLoop_of_sweepLoop {all : List (String × List ParsedPacket)} :
    ∀ {rest kept l' : List (String × List ParsedPacket)} {history history' : List FlowEvent}
      {l : CleanLoop} {fuel : ℕ}, l.At kept rest all history →
      OrderedMap.sweepLoop (cleanEntry opt clock) kept rest history = .ok (l', history') →
      rest.length ≤ fuel →
      ∃ t, cleanLoop opt clock fuel l = .ok t ∧ t.At l' [] all history'
  | [], kept, l', history, history', l, fuel, hl, hsweep, _ => by
      cases hsweep
      have hend : l.it = none := hl.it_eq
      refine ⟨l, ?_, hl⟩
      cases fuel with
      | zero => rw [cleanLoop, if_pos hend]
      | succ fuel => rw [cleanLoop, hend]
  | e :: rest, kept, l', history, history', l, 0, _, _, hfuel => absurd hfuel (by simp)
  | e :: rest, kept, l', history, history', l, fuel + 1, hl, hsweep, hfuel => by
      -- one round for the visit of `e`, and the induction hypothesis for those behind it
      have hit : l.it = some e.1 := hl.it_eq
      obtain ⟨keep, history₁, hvisit, hrest⟩ := OrderedMap.sweepLoop_cons_eq_ok.mp hsweep
      obtain ⟨l₁, hround, hl₁⟩ := cleanRound_of_cleanEntry hl hvisit
      obtain ⟨t, ht, htAt⟩ := cleanLoop_of_sweepLoop hl₁ hrest (Nat.le_of_succ_le_succ hfuel)
      refine ⟨t, ?_, htAt⟩
      rw [cleanLoop, hit]
      simp only [hround]
      exact ht

/-- The loop does what a pass does that visits the entries in key order, and ends after one round
for each of them. -/
theorem cleanLoop_eq_cleanPass {s s' : FlowState} (hpass : cleanPass opt clock s = .ok s')
    {fuel : ℕ} (hfuel : s.mFlowTable.entries.length ≤ fuel) :
    ∃ l, cleanLoop opt clock fuel (.start s) = .ok l ∧ l.it = none ∧
      l.visited = s.mFlowTable.entries ∧ l.mFlowTable = s'.mFlowTable ∧
      l.history = s'.history := by
  unfold cleanPass at hpass
  obtain ⟨⟨table, history⟩, hsweep, hs'⟩ := Except.bind_eq_ok_iff.mp hpass
  cases hs'
  have hstart : (CleanLoop.start s).At [] s.mFlowTable.entries s.mFlowTable.entries s.history :=
    ⟨rfl, rfl, rfl, rfl⟩
  obtain ⟨l, hl, hat⟩ :=
    cleanLoop_of_sweepLoop hstart (OrderedMap.sweepLoop_of_sweep hsweep) hfuel
  have hentries := hat.entries_eq
  have hvisited := hat.visited_eq
  rw [List.append_nil] at hentries hvisited
  exact ⟨l, hl, hat.it_eq, hvisited, OrderedMap.ext hentries, hat.history_eq⟩

end Rounds

/-! ### What a pass does to the entries -/

/-- The list is long enough to be enqueued. -/
def isLong (opt : CaptureOption) (e : String × List ParsedPacket) : Bool :=
  decide (opt.minPackets.toInt ≤ e.2.length)

/-- The list is too short and its last packet younger than `flowTimeout` at `now`. -/
def isActive (opt : CaptureOption) (now : ℤ) (e : String × List ParsedPacket) : Bool :=
  decide ((e.2.length : ℤ) < opt.minPackets.toInt) &&
    e.2.getLast?.any fun last => decide (now - last.mTsSec < opt.flowTimeout.toInt)

section Pass

variable {opt : CaptureOption} (hmin : 1 ≤ opt.minPackets.toInt) (now : ℤ)

include hmin

/-- A visit enqueues a long list, keeps an active one and drops the others. -/
theorem cleanEntry_eq {e : String × List ParsedPacket} (hne : e.2 ≠ [])
    (history : List FlowEvent) :
    ∃ events, cleanEntry opt (fun _ => now) history e.1 e.2 =
        .ok (isActive opt now e, history ++ events) ∧
      events.filterMap FlowEvent.enqueued? = [e].filter (isLong opt) := by
  have hsize := toSizeT_of_nonneg (x := opt.minPackets) (by omega)
  obtain ⟨keep, history', hvisit⟩ := exists_cleanEntry opt (fun _ => now) history e.1 hne
  rw [hvisit]
  obtain ⟨flow, hready, hflow, rfl, rfl⟩ | ⟨hready, htime, rfl, rfl⟩ | ⟨hready, htime, rfl, rfl⟩ :=
    cleanEntry_cases hvisit
  · -- enqueued
    have hlong : isLong opt e = true := decide_eq_true (by omega)
    have hactive : isActive opt now e = false := by
      rw [isActive, decide_eq_false (by omega), Bool.false_and]
    obtain ⟨hid, hlist⟩ := HdFlow.ofData_spec hflow
    have henqueued : (FlowEvent.enqueued flow).enqueued? = some e := by
      rw [FlowEvent.enqueued?, hid, hlist]
    refine ⟨[.enqueued flow], by rw [hactive], ?_⟩
    rw [List.filter_singleton, hlong, List.filterMap_cons_some henqueued]
    rfl
  · -- dropped
    obtain ⟨last, hlast, hold⟩ := isTimeout_eq_ok.mp htime
    have hlong : isLong opt e = false := decide_eq_false (by omega)
    have hyoung : decide (now - last.mTsSec < opt.flowTimeout.toInt) = false :=
      decide_eq_false (Int.not_lt.mpr (of_decide_eq_true hold.symm))
    have hactive : isActive opt now e = false := by
      rw [isActive, hlast, Option.any_some, hyoung, Bool.and_false]
    refine ⟨[.discarded e.1 e.2 now], by rw [hactive], ?_⟩
    rw [List.filter_singleton, hlong]
    rfl
  · -- kept
    obtain ⟨last, hlast, hold⟩ := isTimeout_eq_ok.mp htime
    have hlong : isLong opt e = false := decide_eq_false (by omega)
    have hshort : decide ((e.2.length : ℤ) < opt.minPackets.toInt) = true :=
      decide_eq_true (by omega)
    have hyoung : decide (now - last.mTsSec < opt.flowTimeout.toInt) = true :=
      decide_eq_true (Int.not_le.mp (of_decide_eq_false hold.symm))
    have hactive : isActive opt now e = true := by
      rw [isActive, hshort, hlast, Option.any_some, hyoung, Bool.and_self]
    refine ⟨[], by rw [hactive, List.append_nil], ?_⟩
    rw [List.filter_singleton, hlong]
    rfl

/-- The entries `passed` so far have been dealt with. -/
structure Passed (opt : CaptureOption) (now : ℤ) (s : FlowState)
    (kept rest : List (String × List ParsedPacket)) (history : List FlowEvent)
    (passed : List (String × List ParsedPacket)) (events : List FlowEvent) : Prop where
  entries_eq : s.mFlowTable.entries = passed ++ rest
  kept_eq : kept = passed.filter (isActive opt now)
  history_eq : history = s.history ++ events
  enqueued_eq : events.filterMap FlowEvent.enqueued? = passed.filter (isLong opt)

/-- A visit deals with one more. -/
theorem passed_cleanEntry {s : FlowState} (hne : ∀ e ∈ s.mFlowTable.entries, e.2 ≠ [])
    {kept rest passed : List (String × List ParsedPacket)} {e : String × List ParsedPacket}
    {history events : List FlowEvent}
    (h : Passed opt now s kept (e :: rest) history passed events) :
    ∃ keep history' events', cleanEntry opt (fun _ => now) history e.1 e.2 = .ok (keep, history') ∧
      Passed opt now s (if keep then kept ++ [e] else kept) rest history' (passed ++ [e])
        events' := by
  obtain ⟨hall, rfl, rfl, henqueued⟩ := h
  have hmem : e ∈ s.mFlowTable.entries := hall ▸ List.mem_append_right _ List.mem_cons_self
  obtain ⟨events', hvisit, henqueued'⟩ := cleanEntry_eq hmin now (hne e hmem) (s.history ++ events)
  refine ⟨_, _, events ++ events', hvisit, ?_, ?_, ?_, ?_⟩
  · rw [hall, List.append_assoc, List.singleton_append]
  · rw [List.filter_append, List.filter_singleton]
    cases isActive opt now e with
    | true => rfl
    | false => exact (List.append_nil _).symm
  · rw [List.append_assoc]
  · rw [List.filterMap_append, henqueued, henqueued', List.filter_append]

/-- A whole pass, entry by entry. -/
theorem cleanPass_eq {s : FlowState} (hne : ∀ e ∈ s.mFlowTable.entries, e.2 ≠ []) :
    ∃ s' events, cleanPass opt (fun _ => now) s = .ok s' ∧
      s'.mFlowTable.entries = s.mFlowTable.entries.filter (isActive opt now) ∧
      s'.history = s.history ++ events ∧
      events.filterMap FlowEvent.enqueued? = s.mFlowTable.entries.filter (isLong opt) := by
  have hstart : Passed opt now s [] s.mFlowTable.entries s.history [] [] :=
    ⟨rfl, rfl, (List.append_nil _).symm, rfl⟩
  obtain ⟨table, history, hsweep, passed, events, hpassed⟩ :=
    OrderedMap.sweep_induction (cleanEntry opt fun _ => now)
      (I := fun kept rest history => ∃ passed events,
        Passed opt now s kept rest history passed events)
      (m := s.mFlowTable) (s := s.history) ⟨[], [], hstart⟩
      fun kept e rest history _ ⟨passed, events, h⟩ => by
        obtain ⟨keep, history', events', hvisit, h'⟩ := passed_cleanEntry hmin now hne h
        exact ⟨keep, history', hvisit, passed ++ [e], events', h'⟩
  obtain ⟨hall, hkept, hhistory, henqueued⟩ := hpassed
  rw [List.append_nil] at hall
  refine ⟨{ s with mFlowTable := table, history }, events, ?_, hall ▸ hkept, hhistory,
    hall ▸ henqueued⟩
  rw [cleanPass, hsweep]
  rfl

end Pass

/-- A clean pass at clock reading `now` ends after one round for each entry of the table. The table
then holds the entries that had fewer than `min_packets` packets and a last packet younger than
`flowTimeout`, as they were. The entries that had more have been enqueued, once each, with their
keys and their lists, in key order, and no others have been. -/
theorem cleanLoop_complete (opt : CaptureOption) (hmin : 1 ≤ opt.minPackets.toInt) (now : ℤ)
    {s : FlowState} (hne : ∀ e ∈ s.mFlowTable.entries, e.2 ≠ []) {fuel : ℕ}
    (hfuel : s.mFlowTable.entries.length ≤ fuel) :
    ∃ l events, cleanLoop opt (fun _ => now) fuel (.start s) = .ok l ∧ l.it = none ∧
      l.visited = s.mFlowTable.entries ∧
      l.mFlowTable.entries = s.mFlowTable.entries.filter (isActive opt now) ∧
      l.history = s.history ++ events ∧
      events.filterMap FlowEvent.enqueued? = s.mFlowTable.entries.filter (isLong opt) := by
  obtain ⟨s', events, hpass, hentries, hhistory, hevents⟩ := cleanPass_eq hmin now hne
  obtain ⟨l, hl, hend, hvisited, htable, hhistory'⟩ := cleanLoop_eq_cleanPass hpass hfuel
  exact ⟨l, events, hl, hend, hvisited, htable ▸ hentries, hhistory'.trans hhistory, hevents⟩

/-- A table with a list of two packets, an idle one and an active one. -/
def threeEntries : FlowState where
  mFlowTable :=
    ((OrderedMap.empty.set "a" [{ mKey := "a" }, { mKey := "a" }]).set "b" [{ mKey := "b" }]).set
      "c" [{ mKey := "c", mTsSec := 90 }]

/-- At time 100 the first is enqueued, the second dropped and the third left alone. -/
theorem cleanLoop_threeEntries :
    ∃ l, cleanLoop { minPackets := 2 } (fun _ => 100) 3 (.start threeEntries) = .ok l ∧
      l.mFlowTable.entries = [("c", [{ mKey := "c", mTsSec := 90 }])] := by
  have hne : ∀ e ∈ threeEntries.mFlowTable.entries, e.2 ≠ [] := by decide
  obtain ⟨l, events, hl, -, -, htable, -⟩ :=
    cleanLoop_complete { minPackets := 2 } (by decide) 100 hne (Nat.le_refl 3)
  exact ⟨l, hl, htable.trans rfl⟩

end Hound
