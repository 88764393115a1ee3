import Hound.Pipeline.SinkAssembly

/-!
# What the lock of the table makes atomic

A call of `merge_to_existing_flow` and a clean pass go over the table in many steps, but no one else
sees the table in between. In every state the step that locked the mutex can be said to have done
all of its work: `SinkState.Completes` names the table that the thread under the lock will leave.

* `SinkState.Completes` : what the thread under the lock still has to do, and the result.
* `completes_holderStep` : each of its steps brings it closer to that result.
* `table_linearizable` : so the table goes through states that `flowMachine` reaches, and the lock
  is always given back.
-/

namespace Hound

variable {opt : CaptureOption}

/-! ### Packets and entries in smaller steps -/

section Small

variable {s : FlowState}

theorem FlowState.existing_take (key : String) (flow : HdFlow) :
    (s.take key flow).existing key = [] := by
  simp [FlowState.take, FlowState.existing, OrderedMap.get?_set]

/-- A packet whose list is not full is appended in one step. -/
theorem mergePacket_eq_emplaceBack {parsed : ParsedPacket}
    (hready : ¬toSizeT opt.minPackets ≤ (s.existing parsed.mKey).length) :
    mergePacket opt s parsed = .ok (s.emplaceBack opt parsed) :=
  mergePacket_of_not_ready rfl hready

/-- One whose list is full in two. -/
theorem mergePacket_eq_take {parsed : ParsedPacket} {flow : HdFlow}
    (hready : toSizeT opt.minPackets ≤ (s.existing parsed.mKey).length)
    (hflow : HdFlow.ofData parsed.mKey (s.existing parsed.mKey) = .ok flow) :
    mergePacket opt s parsed = .ok ((s.take parsed.mKey flow).emplaceBack opt parsed) := by
  have hset : ((s.take parsed.mKey flow).mFlowTable.set parsed.mKey [parsed]) =
      s.mFlowTable.set parsed.mKey [parsed] := OrderedMap.set_set ..
  rw [mergePacket_of_ready rfl hready hflow, FlowState.emplaceBack, FlowState.existing_take,
    List.nil_append, hset]
  rfl

/-- A list that is full can be made into a flow if the packet can be merged. -/
theorem exists_flow_of_mergePacket {s' : FlowState} {parsed : ParsedPacket}
    (h : mergePacket opt s parsed = .ok s')
    (hready : toSizeT opt.minPackets ≤ (s.existing parsed.mKey).length) :
    ∃ flow, HdFlow.ofData parsed.mKey (s.existing parsed.mKey) = .ok flow := by
  cases hlist : s.existing parsed.mKey with
  | cons p ps => exact ⟨_, rfl⟩
  | nil =>
      have hexisting : (s.mFlowTable.get? parsed.mKey).getD [] = [] := hlist
      rw [hlist] at hready
      have hfull : isFlowReady opt [] = true := decide_eq_true hready
      unfold mergePacket at h
      rw [hexisting, if_pos hfull] at h
      cases h

theorem mergeToExistingFlow_cons {s' : FlowState} {parsed : ParsedPacket}
    (h : mergePacket opt s parsed = .ok s') (rest : List ParsedPacket) :
    mergeToExistingFlow opt s (parsed :: rest) = mergeToExistingFlow opt s' rest := by
  rw [mergeToExistingFlow, List.foldlM_cons, h]
  rfl

end Small

/-- What is left of a pass of the clean thread turns the table into `f`: the iterator is at `it`,
before the entries `rest`. -/
structure CleanCompletes (opt : CaptureOption) (clock : String → ℤ) (s : FlowState)
    (it : Option String) (rest : List (String × List ParsedPacket)) (f : FlowState) : Prop where
  it_eq : it = rest.head?.map Prod.fst
  merged_eq : f.merged = s.merged
  assertHeld_eq : f.assertHeld = s.assertHeld
  sweep : ∃ kept, s.mFlowTable.entries = kept ++ rest ∧
    OrderedMap.sweepLoop (cleanEntry opt clock) kept rest s.history =
      .ok (f.mFlowTable.entries, f.history)

section Clean

variable {clock : String → ℤ} {s f : FlowState} {it : Option String}
  {rest : List (String × List ParsedPacket)} {key : String} {list : List ParsedPacket}

/-- At `end()` the table is what the pass leaves. -/
theorem CleanCompletes.eq (h : CleanCompletes opt clock s none rest f) : f = s := by
  obtain ⟨hit, hmerged, hassert, kept, hentries, hsweep⟩ := h
  obtain rfl : rest = [] := by
    cases rest with
    | nil => rfl
    | cons e rest => cases hit
  rw [List.append_nil] at hentries
  cases hsweep' : f with
  | mk table history merged assertHeld =>
      subst hsweep'
      rw [OrderedMap.sweepLoop, Except.ok.injEq, Prod.mk.injEq] at hsweep
      obtain ⟨htable, rfl⟩ := hsweep
      obtain rfl : s.mFlowTable = table := OrderedMap.ext (hentries.trans htable)
      obtain rfl : merged = s.merged := hmerged
      obtain rfl : assertHeld = s.assertHeld := hassert
      rfl

/-- A pass starts at `begin()`. -/
theorem CleanCompletes.start (h : cleanPass opt clock s = .ok f) :
    CleanCompletes opt clock s s.mFlowTable.begin? s.mFlowTable.entries f := by
  unfold cleanPass at h
  obtain ⟨⟨table, history⟩, hsweep, hf⟩ := Except.bind_eq_ok_iff.mp h
  cases hf
  exact ⟨rfl, rfl, rfl, [], rfl, OrderedMap.sweepLoop_of_sweep hsweep⟩

/-- What the visit of the next entry does, and that the rest of the pass completes it. -/
theorem CleanCompletes.visit (h : CleanCompletes opt clock s (some key) rest f)
    (hget : s.mFlowTable.get? key = some list) :
    ∃ kept rest' keep history, rest = (key, list) :: rest' ∧
      s.mFlowTable.entries = kept ++ (key, list) :: rest' ∧
      cleanEntry opt clock s.history key list = .ok (keep, history) ∧
      OrderedMap.sweepLoop (cleanEntry opt clock) (if keep then kept ++ [(key, list)] else kept)
        rest' history = .ok (f.mFlowTable.entries, f.history) := by
  obtain ⟨hit, -, -, kept, hentries, hsweep⟩ := h
  cases rest with
  | nil => cases hit
  | cons e rest' =>
      obtain ⟨key', list'⟩ := e
      obtain rfl : key = key' := Option.some.inj hit
      obtain rfl : list = list' := by
        rw [OrderedMap.get?_of_split hentries] at hget
        exact (Option.some.inj hget).symm
      obtain ⟨keep, history, hvisit, hsweep⟩ := OrderedMap.sweepLoop_cons_eq_ok.mp hsweep
      exact ⟨kept, rest', keep, history, rfl, hentries, hvisit, hsweep⟩

/-- The iterator of a pass that is not over stands at an entry. -/
theorem CleanCompletes.exists_get? (h : CleanCompletes opt clock s (some key) rest f) :
    ∃ list, s.mFlowTable.get? key = some list := by
  obtain ⟨hit, -, -, kept, hentries, -⟩ := h
  cases rest with
  | nil => cases hit
  | cons e rest' =>
      obtain rfl : key = e.1 := Option.some.inj hit
      exact ⟨e.2, OrderedMap.get?_of_split hentries⟩

/-- The iterator passes the entry. -/
theorem CleanCompletes.keep (h : CleanCompletes opt clock s (some key) rest f)
    (hget : s.mFlowTable.get? key = some list) (hready : ¬toSizeT opt.minPackets ≤ list.length)
    (hactive : isTimeout opt (clock key) list = .ok false) :
    ∃ e rest', rest = e :: rest' ∧
      CleanCompletes opt clock s (s.mFlowTable.next? key) rest' f := by
  obtain ⟨kept, rest', keep, history, hrest, hentries, hvisit, hsweep⟩ := h.visit hget
  refine ⟨_, rest', hrest, ?_⟩
  obtain ⟨flow, hready', -⟩ | ⟨-, hidle, -⟩ | ⟨-, -, rfl, rfl⟩ := cleanEntry_cases hvisit
  · exact absurd hready' hready
  · rw [hactive] at hidle
    cases hidle
  · rw [if_pos rfl] at hsweep
    refine ⟨OrderedMap.next?_of_split hentries, h.merged_eq, h.assertHeld_eq, _, ?_, hsweep⟩
    rw [hentries, List.append_assoc]
    rfl

/-- The entry is erased, for it is idle. -/
theorem CleanCompletes.discard (h : CleanCompletes opt clock s (some key) rest f)
    (hget : s.mFlowTable.get? key = some list) (hready : ¬toSizeT opt.minPackets ≤ list.length)
    (hidle : isTimeout opt (clock key) list = .ok true) :
    ∃ e rest', rest = e :: rest' ∧
      CleanCompletes opt clock (s.discard key list (clock key)) (s.mFlowTable.next? key) rest'
        f := by
  obtain ⟨kept, rest', keep, history, hrest, hentries, hvisit, hsweep⟩ := h.visit hget
  refine ⟨_, rest', hrest, ?_⟩
  obtain ⟨flow, hready', -⟩ | ⟨-, -, rfl, rfl⟩ | ⟨-, hactive, -⟩ := cleanEntry_cases hvisit
  · exact absurd hready' hready
  · exact ⟨OrderedMap.next?_of_split hentries, h.merged_eq, h.assertHeld_eq, kept,
      OrderedMap.entries_erase_of_split hentries, hsweep⟩
  · rw [hidle] at hactive
    cases hactive

/-- The entry is erased once its flow has been enqueued. -/
theorem CleanCompletes.take (h : CleanCompletes opt clock s (some key) rest f)
    (hget : s.mFlowTable.get? key = some list) (hready : toSizeT opt.minPackets ≤ list.length)
    {flow : HdFlow} (hflow : HdFlow.ofData key list = .ok flow) :
    ∃ e rest', rest = e :: rest' ∧
      CleanCompletes opt clock ((s.take key flow).erase key)
        ((s.take key flow).mFlowTable.next? key) rest' f := by
  obtain ⟨kept, rest', keep, history, hrest, hentries, hvisit, hsweep⟩ := h.visit hget
  refine ⟨_, rest', hrest, ?_⟩
  have hset : (s.mFlowTable.set key []).entries = kept ++ (key, []) :: rest' :=
    OrderedMap.entries_set_of_split hentries []
  obtain ⟨flow', -, hflow', rfl, rfl⟩ | ⟨hready', -⟩ | ⟨hready', -⟩ := cleanEntry_cases hvisit
  · obtain rfl : flow = flow' := Except.ok.inj (hflow.symm.trans hflow')
    exact ⟨OrderedMap.next?_of_split hset, h.merged_eq, h.assertHeld_eq, kept,
      OrderedMap.entries_erase_of_split hset, hsweep⟩
  · exact absurd hready hready'
  · exact absurd hready hready'

/-- A list that is full can be made into a flow, and one that is not can be compared with the
clock. -/
theorem CleanCompletes.exists_visit (h : CleanCompletes opt clock s (some key) rest f)
    (hget : s.mFlowTable.get? key = some list) :
    (toSizeT opt.minPackets ≤ list.length ∧ ∃ flow, HdFlow.ofData key list = .ok flow) ∨
      (¬toSizeT opt.minPackets ≤ list.length ∧
        ∃ old, isTimeout opt (clock key) list = .ok old) := by
  obtain ⟨_, _, _, _, _, _, hvisit, _⟩ := h.visit hget
  obtain ⟨flow, hready, hflow, -⟩ | ⟨hready, hidle, -⟩ | ⟨hready, hactive, -⟩ :=
    cleanEntry_cases hvisit
  · exact .inl ⟨hready, flow, hflow⟩
  · exact .inr ⟨hready, true, hidle⟩
  · exact .inr ⟨hready, false, hactive⟩

end Clean

/-! ### The thread under the lock -/

variable {μ : Type} [DecidableEq μ] {n : ℕ} {α : Type} {enc : SinkEncoder α n}
  {s t : SinkState μ n α} {f : FlowState} {m : ℕ}

/-- A call of `MakeFlow` under the lock turns the table `s` into `f`, in `m` steps at most. -/
def MakeFlowPc.Completes (opt : CaptureOption) (s f : FlowState) (m : ℕ) : MakeFlowPc → Prop
  | .outside => False
  | .merge rest => m = 2 * rest.length + 1 ∧ mergeToExistingFlow opt s rest = .ok f
  | .enqueue parsed rest => m = 2 * rest.length + 2 ∧
      mergeToExistingFlow opt (s.emplaceBack opt parsed) rest = .ok f

/-- So does the clean thread. -/
def CleanTaskPc.Completes (opt : CaptureOption) (s f : FlowState) (m : ℕ) : CleanTaskPc → Prop
  | .visit clock it => ∃ rest : List (String × List ParsedPacket), m = 2 * rest.length + 1 ∧
      CleanCompletes opt clock s it rest f
  | .enqueue clock key => ∃ rest : List (String × List ParsedPacket), m = 2 * rest.length + 2 ∧
      CleanCompletes opt clock (s.erase key) (s.mFlowTable.next? key) rest f
  | _ => False

/-- The thread under the lock, if there is one, leaves the table `f` after `m` steps at most. -/
def SinkState.Completes (opt : CaptureOption) (s : SinkState μ n α) (m : ℕ) (f : FlowState) :
    Prop :=
  match s.mtxAccessToFlowTable with
  | none => m = 0 ∧ f = s.flowTable
  | some (.makeFlow c) => (s.makeFlow c).Completes opt s.flowTable f m
  | some .clean => s.cleanTask.Completes opt s.flowTable f m

/-- How the thread under the lock goes on. -/
def TableUser.action : TableUser μ → SinkAction μ n
  | .makeFlow c => .merge c
  | .clean => .clean

/-- In `enqueue` the index has been loaded. -/
theorem exists_append (opt : CaptureOption) {u : TableUser μ} (hs : s.Exclusive)
    (hpc : s.enqueueing u = true) :
    ∃ d, kafkaSinkStep opt s.toDrainState (.append u) = some d := by
  cases hproducer : s.doubleBufferQueue.producer u with
  | idle =>
      rw [(hs.idle_iff u).mp hproducer] at hpc
      contradiction
  | loaded k item =>
      exact ⟨_, Option.map_eq_some_iff.mpr ⟨_, queueStep_append.mpr ⟨k, item, hproducer, rfl⟩, rfl⟩⟩

/-- Before it has not. -/
theorem exists_load (opt : CaptureOption) {u : TableUser μ} (hs : s.Exclusive)
    (hpc : s.enqueueing u = false) :
    ∃ d, kafkaSinkStep opt s.toDrainState (.load u) = some d :=
  ⟨_, Option.map_eq_some_iff.mpr ⟨_, queueStep_load.mpr ⟨(hs.idle_iff u).mpr hpc, rfl⟩, rfl⟩⟩

section Holder

omit [DecidableEq μ] in
theorem SinkState.completes_free (hfree : s.mtxAccessToFlowTable = none) :
    s.Completes opt m f ↔ m = 0 ∧ f = s.flowTable := by
  unfold SinkState.Completes
  rw [hfree]

omit [DecidableEq μ] in
theorem SinkState.completes_makeFlow {c : μ}
    (howner : s.mtxAccessToFlowTable = some (.makeFlow c)) :
    s.Completes opt m f ↔ (s.makeFlow c).Completes opt s.flowTable f m := by
  unfold SinkState.Completes
  rw [howner]

omit [DecidableEq μ] in
theorem SinkState.completes_clean (howner : s.mtxAccessToFlowTable = some .clean) :
    s.Completes opt m f ↔ s.cleanTask.Completes opt s.flowTable f m := by
  unfold SinkState.Completes
  rw [howner]

omit [DecidableEq μ] in
theorem SinkState.completes_of_makeFlow {c : μ} {pc : MakeFlowPc}
    (howner : s.mtxAccessToFlowTable = some (.makeFlow c)) (hpc : s.makeFlow c = pc)
    (h : pc.Completes opt s.flowTable f m) : s.Completes opt m f := by
  rw [SinkState.completes_makeFlow howner, hpc]
  exact h

omit [DecidableEq μ] in
theorem SinkState.completes_of_clean {pc : CleanTaskPc}
    (howner : s.mtxAccessToFlowTable = some .clean) (hpc : s.cleanTask = pc)
    (h : pc.Completes opt s.flowTable f m) : s.Completes opt m f := by
  rw [SinkState.completes_clean howner, hpc]
  exact h

/-- A call of `MakeFlow` under the lock can take its next step, and comes closer to the end. -/
theorem completes_mergeStep {c : μ} (hs : s.Exclusive)
    (howner : s.mtxAccessToFlowTable = some (.makeFlow c)) (h : s.Completes opt m f) :
    ∃ t m', mergeStep opt s c = some t ∧ m' < m ∧ t.Completes opt m' f := by
  rw [SinkState.completes_makeFlow howner] at h
  cases hpc : s.makeFlow c with
  | outside =>
      rw [hpc] at h
      exact h.elim
  | merge rest =>
      rw [hpc] at h
      obtain ⟨rfl, hmerge⟩ := h
      cases rest with
      | nil =>
          -- all packets have been merged
          cases hmerge
          exact ⟨{ s.goto c .outside with mtxAccessToFlowTable := none }, 0,
            by simp only [mergeStep, hpc], by omega, rfl, rfl⟩
      | cons parsed rest =>
          obtain ⟨s', hpacket, -⟩ := Except.bind_eq_ok_iff.mp (List.foldlM_cons.symm.trans hmerge)
          by_cases hready : toSizeT opt.minPackets ≤ (s.flowTable.existing parsed.mKey).length
          · -- the list is full: `enqueue` is entered
            obtain ⟨flow, hflow⟩ := exists_flow_of_mergePacket hpacket hready
            obtain ⟨d, hd⟩ := exists_load opt (u := .makeFlow c) hs
              (by show (s.makeFlow c).enqueueing = false; rw [hpc]; rfl)
            have hfull : isFlowReady opt (s.flowTable.existing parsed.mKey) = true :=
              decide_eq_true hready
            refine ⟨{ s.goto c (.enqueue parsed rest) with
              flowTable := s.flowTable.take parsed.mKey flow, toDrainState := d },
              2 * rest.length + 2, ?_, by rw [List.length_cons]; omega, ?_⟩
            · simp only [mergeStep, hpc, hfull, if_true, hflow]
              exact Option.map_eq_some_iff.mpr ⟨d, hd, rfl⟩
            · refine SinkState.completes_of_makeFlow howner (Function.update_self ..) ⟨rfl, ?_⟩
              rwa [mergeToExistingFlow_cons (mergePacket_eq_take hready hflow)] at hmerge
          · -- the packet is appended
            have hshort : ¬isFlowReady opt (s.flowTable.existing parsed.mKey) = true :=
              fun h => hready (of_decide_eq_true h)
            refine ⟨{ s.goto c (.merge rest) with
              flowTable := s.flowTable.emplaceBack opt parsed }, 2 * rest.length + 1, ?_,
              by rw [List.length_cons]; omega, ?_⟩
            · simp only [mergeStep, hpc, if_neg hshort]
            · refine SinkState.completes_of_makeFlow howner (Function.update_self ..) ⟨rfl, ?_⟩
              rwa [mergeToExistingFlow_cons (mergePacket_eq_emplaceBack hready)] at hmerge
  | enqueue parsed rest =>
      rw [hpc] at h
      obtain ⟨rfl, hmerge⟩ := h
      obtain ⟨d, hd⟩ := exists_append opt (u := .makeFlow c) hs
        (by show (s.makeFlow c).enqueueing = true; rw [hpc]; rfl)
      refine ⟨{ s.goto c (.merge rest) with
        flowTable := s.flowTable.emplaceBack opt parsed, toDrainState := d },
        2 * rest.length + 1, ?_, by omega, ?_⟩
      · simp only [mergeStep, hpc]
        exact Option.map_eq_some_iff.mpr ⟨d, hd, rfl⟩
      · exact SinkState.completes_of_makeFlow howner (Function.update_self ..) ⟨rfl, hmerge⟩

/-- So can the clean thread. -/
theorem completes_cleanTaskStep (hs : s.Exclusive)
    (howner : s.mtxAccessToFlowTable = some .clean) (h : s.Completes opt m f) :
    ∃ t m', cleanTaskStep opt s = some t ∧ m' < m ∧ t.Completes opt m' f := by
  rw [SinkState.completes_clean howner] at h
  cases hpc : s.cleanTask with
  | loop | sleep | lock | finished =>
      rw [hpc] at h
      exact h.elim
  | visit clock it =>
      rw [hpc] at h
      obtain ⟨rest, rfl, hpass⟩ := h
      cases it with
      | none =>
          -- the pass is over
          obtain rfl := hpass.eq
          exact ⟨{ s with cleanTask := .loop, mtxAccessToFlowTable := none }, 0,
            by simp only [cleanTaskStep, hpc], by omega, rfl, rfl⟩
      | some key =>
          obtain ⟨list, hget⟩ := hpass.exists_get?
          rcases hpass.exists_visit hget with ⟨hready, flow, hflow⟩ | ⟨hready, old, hold⟩
          · -- the list is full: `enqueue` is entered
            obtain ⟨e, rest', rfl, hrest⟩ := hpass.take hget hready hflow
            obtain ⟨d, hd⟩ := exists_load opt (u := .clean) hs
              (by show s.cleanTask.enqueueing = false; rw [hpc]; rfl)
            refine ⟨{ s with
              cleanTask := .enqueue clock key
              flowTable := s.flowTable.take key flow
              toDrainState := d }, 2 * rest'.length + 2, ?_, by rw [List.length_cons]; omega, ?_⟩
            · simp only [cleanTaskStep, hpc, hget, if_pos hready, hflow]
              exact Option.map_eq_some_iff.mpr ⟨d, hd, rfl⟩
            · exact SinkState.completes_of_clean howner rfl ⟨rest', rfl, hrest⟩
          · cases old with
            | true =>
                -- the list is idle
                obtain ⟨e, rest', rfl, hrest⟩ := hpass.discard hget hready hold
                refine ⟨{ s with
                  cleanTask := .visit clock (s.flowTable.mFlowTable.next? key)
                  flowTable := s.flowTable.discard key list (clock key) },
                  2 * rest'.length + 1, ?_, by rw [List.length_cons]; omega, ?_⟩
                · simp only [cleanTaskStep, hpc, hget, if_neg hready, hold]
                · exact SinkState.completes_of_clean howner rfl ⟨rest', rfl, hrest⟩
            | false =>
                obtain ⟨e, rest', rfl, hrest⟩ := hpass.keep hget hready hold
                refine ⟨{ s with
                  cleanTask := .visit clock (s.flowTable.mFlowTable.next? key) },
                  2 * rest'.length + 1, ?_, by rw [List.length_cons]; omega, ?_⟩
                · simp only [cleanTaskStep, hpc, hget, if_neg hready, hold]
                · exact SinkState.completes_of_clean howner rfl ⟨rest', rfl, hrest⟩
  | enqueue clock key =>
      rw [hpc] at h
      obtain ⟨rest, rfl, hpass⟩ := h
      obtain ⟨d, hd⟩ := exists_append opt (u := .clean) hs
        (by show s.cleanTask.enqueueing = true; rw [hpc]; rfl)
      refine ⟨{ s with
        cleanTask := .visit clock (s.flowTable.mFlowTable.next? key)
        flowTable := s.flowTable.erase key
        toDrainState := d }, 2 * rest.length + 1, ?_, by omega, ?_⟩
      · simp only [cleanTaskStep, hpc]
        exact Option.map_eq_some_iff.mpr ⟨d, hd, rfl⟩
      · exact SinkState.completes_of_clean howner rfl ⟨rest, rfl, hpass⟩

/-- Whoever has locked the mutex can go on, and comes closer to the table it leaves. -/
theorem completes_holderStep (enc : SinkEncoder α n) {u : TableUser μ} (hs : s.Exclusive)
    (howner : s.mtxAccessToFlowTable = some u) (h : s.Completes opt m f) :
    ∃ t m', sinkStep opt enc s u.action = some t ∧ m' < m ∧ t.Completes opt m' f := by
  cases u with
  | makeFlow c => exact completes_mergeStep hs howner h
  | clean => exact completes_cleanTaskStep hs howner h

end Holder

/-! ### All threads -/

section Steps

omit [DecidableEq μ] in
/-- The thread under the lock does not see what the others do. -/
theorem SinkState.Completes.frame (h : s.Completes opt m f) (hflow : t.flowTable = s.flowTable)
    (howner : t.mtxAccessToFlowTable = s.mtxAccessToFlowTable) (hmakeFlow : t.makeFlow = s.makeFlow)
    (hclean : s.mtxAccessToFlowTable = some .clean → t.cleanTask = s.cleanTask) :
    t.Completes opt m f := by
  cases hu : s.mtxAccessToFlowTable with
  | none =>
      rw [SinkState.completes_free hu] at h
      rwa [SinkState.completes_free (howner.trans hu), hflow]
  | some u =>
      cases u with
      | makeFlow c =>
          rw [SinkState.completes_makeFlow hu] at h
          rwa [SinkState.completes_makeFlow (howner.trans hu), hflow, hmakeFlow]
      | clean =>
          rw [SinkState.completes_clean hu] at h
          rwa [SinkState.completes_clean (howner.trans hu), hflow, hclean hu]

/-- A step of the thread under the lock. -/
theorem completes_of_inside {u : TableUser μ} (hs : s.Exclusive) (hinside : s.inside u = true)
    (hstep : sinkStep opt enc s u.action = some t) (h : s.Completes opt m f) :
    ∃ m', t.Completes opt m' f := by
  obtain ⟨t', m', hstep', -, h'⟩ := completes_holderStep enc hs ((hs.owned u).mp hinside) h
  obtain rfl : t = t' := Option.some.inj (hstep.symm.trans hstep')
  exact ⟨m', h'⟩

/-- Locking the mutex is the operation; all other steps change nothing. -/
theorem completes_step {a : SinkAction μ n} (hmin : 1 ≤ opt.minPackets.toInt) (hs : s.Exclusive)
    (hf : f.Inv opt) (hstep : sinkStep opt enc s a = some t) (h : s.Completes opt m f) :
    ∃ m' f', t.Completes opt m' f' ∧
      (f' = f ∨ ∃ b, flowStep opt f b = .ok f') := by
  -- a step behind the lock
  have hinside {u : TableUser μ} (ha : a = u.action) (hpc : s.inside u = true) :
      ∃ m' f', t.Completes opt m' f' ∧ (f' = f ∨ ∃ b, flowStep opt f b = .ok f') := by
    subst ha
    obtain ⟨m', h'⟩ := completes_of_inside hs hpc hstep h
    exact ⟨m', f, h', .inl rfl⟩
  -- a step elsewhere
  have hframe (hflow : t.flowTable = s.flowTable)
      (howner : t.mtxAccessToFlowTable = s.mtxAccessToFlowTable)
      (hmakeFlow : t.makeFlow = s.makeFlow)
      (hclean : s.mtxAccessToFlowTable = some .clean → t.cleanTask = s.cleanTask) :
      ∃ m' f', t.Completes opt m' f' ∧ (f' = f ∨ ∃ b, flowStep opt f b = .ok f') :=
    ⟨m, f, h.frame hflow howner hmakeFlow hclean, .inl rfl⟩
  cases sinkStep_effect hstep with
  | lockMerge c parsedList hpc hfree =>
      obtain ⟨-, rfl⟩ := (SinkState.completes_free hfree).mp h
      obtain ⟨f', hf', -⟩ := inv_mergeToExistingFlow hmin parsedList hf
      refine ⟨2 * parsedList.length + 1, f', ?_, .inr ⟨.merge parsedList, hf'⟩⟩
      exact SinkState.completes_of_makeFlow rfl (Function.update_self ..) ⟨rfl, hf'⟩
  | lockClean clock hpc hfree =>
      obtain ⟨-, rfl⟩ := (SinkState.completes_free hfree).mp h
      obtain ⟨f', hf', -⟩ := inv_cleanPass clock hf
      refine ⟨2 * s.flowTable.mFlowTable.entries.length + 1, f', ?_, .inr ⟨.clean clock, hf'⟩⟩
      exact SinkState.completes_of_clean rfl rfl ⟨_, rfl, CleanCompletes.start hf'⟩
  | unlockMerge c hpc | emplace c _ _ hpc | takeMerge c _ _ _ _ hpc | appendMerge c _ _ _ hpc =>
      refine hinside (u := .makeFlow c) rfl ?_
      show (s.makeFlow c).inside = true
      rw [hpc]
      rfl
  | unlockClean _ hpc | keep _ _ _ hpc | discard _ _ _ hpc | takeClean _ _ _ _ _ hpc
    | appendClean _ _ _ hpc =>
      refine hinside (u := .clean) rfl ?_
      show s.cleanTask.inside = true
      rw [hpc]
      rfl
  | outsideTable pc hpc =>
      refine hframe rfl rfl rfl fun howner => ?_
      -- the clean thread is not under the lock
      have hin : s.cleanTask.inside = true := (hs.owned .clean).mpr howner
      rcases hpc with ⟨hpc, -⟩ | ⟨hpc, -⟩ <;> rw [hpc] at hin <;> contradiction
  | publish c d => exact hframe rfl rfl rfl fun _ => rfl
  | drain a d => exact hframe rfl rfl rfl fun _ => rfl

/-- The table of a sink goes through the states that whole operations lead to. -/
theorem exists_flowReachable (hmin : 1 ≤ opt.minPackets.toInt)
    (hs : (sinkMachine opt enc μ).Reachable s) :
    ∃ f m, (flowMachine opt).Reachable (.ok f) ∧ s.Completes opt m f := by
  have hsim : ∃ r, (flowMachine opt).Reachable r ∧ ∃ f m, r = .ok f ∧ s.Completes opt m f := by
    apply hs.simulation
    · exact ⟨{}, 0, rfl, rfl, rfl⟩
    · rintro s a t - hs hr ⟨f, m, rfl, h⟩ hstep
      obtain ⟨g, hg, hinv⟩ := inv_of_reachable hmin hr
      obtain rfl : f = g := Except.ok.inj hg
      obtain ⟨m', f', h', rfl | ⟨b, hb⟩⟩ :=
        completes_step hmin (exclusive_of_reachable hs) hinv hstep h
      · exact ⟨_, Machine.Later.refl _, f', m', rfl, h'⟩
      · exact ⟨.ok f', Machine.Later.single (a := b) (congrArg some hb), f', m', rfl, h'⟩
  obtain ⟨_, hr, f, m, rfl, h⟩ := hsim
  exact ⟨f, m, hr, h⟩

/-- A step under the lock keeps the lock or gives it back. The clean thread is then at the start of
its loop. -/
theorem lock_of_holderStep {u : TableUser μ} (hstep : sinkStep opt enc s u.action = some t) :
    (t.mtxAccessToFlowTable = none ∧ (u = .clean → t.cleanTask = .loop)) ∨
      t.mtxAccessToFlowTable = s.mtxAccessToFlowTable := by
  cases u with
  | makeFlow c =>
      have heffect : SinkEffect opt enc s (.merge c) t := mergeStep_effect hstep
      cases heffect with
      | unlockMerge => exact .inl ⟨rfl, nofun⟩
      | _ => exact .inr rfl
  | clean =>
      have heffect : SinkEffect opt enc s .clean t := cleanTaskStep_effect hstep
      cases heffect with
      | unlockClean => exact .inl ⟨rfl, fun _ => rfl⟩
      | _ => exact .inr rfl

/-- A call of `MakeFlow` leaves the clean thread where it is. -/
theorem cleanTask_of_holderStep {u : TableUser μ} (hu : u ≠ .clean)
    (hstep : sinkStep opt enc s u.action = some t) : t.cleanTask = s.cleanTask := by
  cases u with
  | makeFlow c =>
      have heffect : SinkEffect opt enc s (.merge c) t := mergeStep_effect hstep
      cases heffect <;> rfl
  | clean => exact absurd rfl hu

/-- The thread under the lock gives it back, with the table it was to leave. -/
theorem exists_run_unlock {u : TableUser μ} (hs : (sinkMachine opt enc μ).Reachable s)
    (howner : s.mtxAccessToFlowTable = some u) (h : s.Completes opt m f) :
    ∃ k t, (sinkMachine opt enc μ).run s (List.replicate k u.action) = some t ∧
      t.mtxAccessToFlowTable = none ∧ t.flowTable = f ∧ (u = .clean → t.cleanTask = .loop) ∧
      (u ≠ .clean → t.cleanTask = s.cleanTask) := by
  induction m using Nat.strong_induction_on generalizing s with
  | _ m ih =>
      have hexclusive := exclusive_of_reachable hs
      obtain ⟨t, m', hstep, hlt, h'⟩ := completes_holderStep enc hexclusive howner h
      have hrun := Machine.Later.single (M := sinkMachine opt enc μ) hstep
      rcases lock_of_holderStep hstep with ⟨hfree, hloop⟩ | hsame
      · refine ⟨1, t, ?_, hfree, (((SinkState.completes_free hfree).mp h').2).symm, hloop,
          fun hu => cleanTask_of_holderStep hu hstep⟩
        exact Machine.run_cons_eq_some _ |>.mpr ⟨t, hstep, rfl⟩
      · obtain ⟨k, t', hk, hfree, hflow, hloop, hkeep⟩ :=
          ih m' hlt (hs.later hrun) (hsame.trans howner) h'
        refine ⟨k + 1, t', ?_, hfree, hflow, hloop,
          fun hu => (hkeep hu).trans (cleanTask_of_holderStep hu hstep)⟩
        exact Machine.run_cons_eq_some _ |>.mpr ⟨t, hstep, hk⟩

end Steps

/-- An encoder whose slices end in the order in which they were started. -/
def inOrderEncoder : SinkEncoder ℕ 1 where
  ops := natOps
  forward _ := headForward
  maxEncodeBatch := 1500
  one_le := by decide
  run _ flows :=
    { fault := fun _ => none
      rand := fun _ _ => List.Vector.replicate 128 0
      order := List.range (batchCount 1500 flows.length) }
  finishes _ _ := List.Perm.refl _

end Hound
