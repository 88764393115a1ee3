import Hound.Encode.PacketToTensor
import Hound.Sink.FlowTable
import Hound.ToMathlib.Except
import Hound.ToMathlib.Tensor

/-!
# Windows of flows

`FlowToTensor` and `BuildSlideWindow` turn each flow into windows: of every five packet rows the
first four are joined. The windows of all flows are stacked into one matrix, with one pair of
row numbers per flow. Sizes and row numbers are natural numbers.

* `windows` : the windows of one flow.
* `buildSlideWindow_eq_ok` : the matrix is the windows of the flows one after the other, and the
  pairs are the ranges they take up.
-/

namespace Hound

open Tensor

/-- The numbers of a tensor and what torch does with them. -/
structure TorchOps (α : Type) where
  /-- The conversion from `kU8` to `kF32`. -/
  ofByte : UInt8 → α
  /-- What `z_score_norm` does to one row. -/
  zScore : List α → List α
  length_zScore : ∀ row, (zScore row).length = row.length
  /-- The maximum that `torch::max` takes. -/
  max : α → α → α

variable {α : Type}

/-- A torch function that throws. -/
def orThrow {β : Type} : Option β → Except EncodeFault β
  | some b => .ok b
  | none => .error .exception

/-- `FlowToTensor`. `count` is the number of packets, so every `_packet_list[index]` exists. The
packets are converted concurrently, each into its own row. -/
def flowToTensor (ops : TorchOps α) (flow : HdFlow) (width : ℕ) :
    Except EncodeFault (Tensor α) := do
  let windowCount := flow.count - flow.count % width
  let rows ← (flow.packetList.take windowCount).mapM fun packet => do
    let row ← packetToTensor packet flow.protocol
    orThrow (copyRow 136 [row.length] (row.map ops.ofByte))
  return ofRows rows

/-- `flow_tensor.reshape({-1, 5, 136}).slice(1, 0, 4).reshape({-1, 544})`. -/
def viewWindows (flowTensor : Tensor α) : Option (Tensor α) := do
  let grouped ← flowTensor.reshape [5, 136]
  let cut ← grouped.slice1 0 4
  cut.reshape [544]

/-- The body of the loop of `BuildSlideWindow`, over `window_list`, `index_list` and `offset`. -/
def slideStep (ops : TorchOps α) (width : ℕ) (acc : List (Tensor α) × List (ℕ × ℕ) × ℕ)
    (flow : HdFlow) : Except EncodeFault (List (Tensor α) × List (ℕ × ℕ) × ℕ) := do
  let (windowList, indexList, offset) := acc
  let flowTensor ← flowToTensor ops flow width
  let viewd ← orThrow (viewWindows flowTensor)
  let size := viewd.rows.length
  return (windowList ++ [viewd], indexList ++ [(offset, offset + size)], offset + size)

/-- `z_score_norm` works on each row by itself. -/
def zScoreNorm (ops : TorchOps α) (data : Tensor α) : Tensor α :=
  data.mapRows ops.zScore ops.length_zScore

/-- `torch::stack` of pairs; it throws when there are none. -/
def stackPairs (pairs : List (ℕ × ℕ)) : Option (List (ℕ × ℕ)) :=
  if pairs = [] then none else some pairs

/-- `BuildSlideWindow`. -/
def buildSlideWindow (ops : TorchOps α) (flowList : List HdFlow) (width : ℕ) :
    Except EncodeFault (Tensor α × List (ℕ × ℕ)) := do
  let (windowList, indexList, _) ← flowList.foldlM (slideStep ops width) ([], [], 0)
  let inputWindow ← orThrow (Tensor.concat windowList)
  let indexTensor ← orThrow (stackPairs indexList)
  return (zScoreNorm ops inputWindow, indexTensor)

/-! ### What the windows are -/

/-- The row of a packet, as numbers. -/
def packetRow (ops : TorchOps α) (protocol : ℕ) (packet : ParsedPacket) : List α :=
  (rowOfBlob protocol (packet.mBlobData.take nDigits)).map ops.ofByte

/-- The rows of the packets of a flow. -/
def packetRows (ops : TorchOps α) (flow : HdFlow) : List (List α) :=
  flow.packetList.map (packetRow ops flow.protocol)

/-- Window `j` of a flow: the rows of its packets `5j` to `5j + 3`, joined. -/
def window (ops : TorchOps α) (flow : HdFlow) (j : ℕ) : List α :=
  ((packetRows ops flow).extract (5 * j) (5 * j + 4)).flatten

/-- The windows of a flow, one for every five packets. -/
def windows (ops : TorchOps α) (flow : HdFlow) : List (List α) :=
  (List.range (flow.count / 5)).map (window ops flow)

/-- Consecutive ranges of given sizes. -/
def ranges : ℕ → List ℕ → List (ℕ × ℕ)
  | _, [] => []
  | offset, n :: ns => (offset, offset + n) :: ranges (offset + n) ns

theorem length_ranges (offset : ℕ) (sizes : List ℕ) :
    (ranges offset sizes).length = sizes.length := by
  induction sizes generalizing offset with
  | nil => rfl
  | cons n sizes ih => rw [ranges, List.length_cons, ih, List.length_cons]

/-- `orThrow` returns what there is. -/
theorem orThrow_eq_ok {β : Type} {o : Option β} {b : β} : orThrow o = .ok b ↔ o = some b := by
  cases o <;> simp [orThrow]

/-- `torch::stack` returns the pairs as they are. -/
theorem stackPairs_eq_some {pairs indexTensor : List (ℕ × ℕ)} :
    stackPairs pairs = some indexTensor ↔ pairs ≠ [] ∧ pairs = indexTensor := by
  unfold stackPairs
  split <;> simp [*]

/-- A row has 136 columns for either protocol. -/
theorem length_rowOfBlob (protocol : ℕ) {ft : List UInt8} (h : ft.length = nDigits) :
    (rowOfBlob protocol ft).length = 136 := by
  unfold rowOfBlob sliceEnd sliceStart nDigits at *
  split <;> simp [h]

/-- The row of a packet is read from its blob alone. -/
theorem packetToTensor_eq_ok {packet : ParsedPacket} {protocol : ℕ} {row : List UInt8}
    (h : packetToTensor packet protocol = .ok row) :
    row = rowOfBlob protocol (packet.mBlobData.take nDigits) ∧ row.length = 136 := by
  unfold packetToTensor at h
  split at h
  case isTrue => cases h
  case isFalse hlen =>
      cases h
      refine ⟨rfl, length_rowOfBlob protocol ?_⟩
      rw [List.length_take]
      omega

/-- A flow's tensor has the rows of its packets, without those behind the last full window. -/
theorem flowToTensor_eq_ok {ops : TorchOps α} {flow : HdFlow} {width : ℕ} {t : Tensor α}
    (h : flowToTensor ops flow width = .ok t) :
    t.trailing = [136] ∧
      t.rows = (packetRows ops flow).take (flow.count - flow.count % width) := by
  obtain ⟨rows, hrows, ht⟩ := Except.bind_eq_ok_iff.mp h
  cases ht
  refine ⟨rfl, ?_⟩
  rw [packetRows, ← List.map_take]
  refine List.map_eq_map_of_mapM hrows fun packet v hv => ?_
  obtain ⟨row, hrow, hcopy⟩ := Except.bind_eq_ok_iff.mp hv
  obtain ⟨rfl, hlen⟩ := packetToTensor_eq_ok hrow
  rw [hlen, orThrow_eq_ok] at hcopy
  exact toList_of_copyRow hcopy

/-- Of every five rows the first four are joined. -/
theorem viewWindows_eq_some {t : Tensor α} (ht : t.trailing = [136]) {m : ℕ}
    (hrows : t.rows.length = m * 5) :
    ∃ t', viewWindows t = some t' ∧ t'.trailing = [544] ∧
      t'.rows = (List.range m).map fun j => (t.rows.extract (5 * j) (5 * j + 4)).flatten := by
  obtain ⟨grouped, hgrouped, htrail, hgrows⟩ :=
    reshape_ofGroups [5, 136] ht hrows rfl (by decide)
  obtain ⟨cut, hcut, hctrail, hcrows⟩ := slice1_eq_some htrail 0 4
  obtain ⟨t', ht', htrail', hrows'⟩ := reshape_flatten (t := cut) (w := 544)
    (by rw [hctrail]; rfl) (by decide)
  refine ⟨t', ?_, htrail', ?_⟩
  · simp only [viewWindows, hgrouped, hcut, ht', Option.bind_eq_bind, Option.bind_some]
  · rw [hrows', hcrows, hgrows, List.map_map]
    refine List.map_congr_left fun j _ => ?_
    have hw : ∀ row ∈ t.rows.extract (j * 5) ((j + 1) * 5), row.length = 136 := by
      intro row hrow
      rw [List.extract_eq_take_drop] at hrow
      rw [t.length_eq row (List.mem_of_mem_drop (List.mem_of_mem_take hrow)), ht]
      rfl
    -- the first four of the five rows of a group
    have hcut4 := List.extract_flatten hw 0 4
    have hmul : j * 5 = 5 * j := Nat.mul_comm j 5
    show (List.flatten _).extract (0 * [136].prod) (min 4 5 * [136].prod) = _
    rw [List.prod_singleton, show min 4 5 = 4 from rfl, hcut4]
    simp only [List.extract_eq_take_drop, List.drop_zero, List.take_take, hmul]
    congr 2
    omega

/-! ### The loop over the flows -/

theorem length_windows (ops : TorchOps α) (flow : HdFlow) :
    (windows ops flow).length = flow.count / 5 := by
  rw [windows, List.length_map, List.length_range]

/-- The windows of a flow do not reach the packets behind the last full one. -/
theorem viewWindows_flowToTensor {ops : TorchOps α} {flow : HdFlow} {flowTensor viewd : Tensor α}
    (hflow : flowToTensor ops flow 5 = .ok flowTensor)
    (hview : viewWindows flowTensor = some viewd) :
    viewd.trailing = [544] ∧ viewd.rows = windows ops flow := by
  obtain ⟨htrail, hrows⟩ := flowToTensor_eq_ok hflow
  have hcount : flow.count - flow.count % 5 = flow.count / 5 * 5 := by omega
  have hlen : flowTensor.rows.length = flow.count / 5 * 5 := by
    rw [hrows, List.length_take, packetRows, List.length_map, ← flow.count_eq, hcount]
    omega
  obtain ⟨t, ht, htrail', hrows'⟩ := viewWindows_eq_some htrail hlen
  rw [ht, Option.some.injEq] at hview
  subst hview
  refine ⟨htrail', ?_⟩
  rw [hrows', windows]
  refine List.map_congr_left fun j hj => ?_
  have hj' : 5 * j + 4 ≤ flow.count / 5 * 5 := by
    have hlt := List.mem_range.mp hj
    omega
  -- the four rows of window `j` lie before the cut
  have hsub : 5 * j + 4 - 5 * j ≤ flow.count / 5 * 5 - 5 * j := by omega
  rw [window, hrows, hcount]
  simp only [List.extract_eq_take_drop, List.drop_take, List.take_take, Nat.min_eq_left hsub]

/-- The loop appends the windows of each flow and the range they take up. -/
theorem foldlM_slideStep_eq_ok {ops : TorchOps α} (flowList : List HdFlow)
    {windowList windowList' : List (Tensor α)} {indexList indexList' : List (ℕ × ℕ)}
    {offset offset' : ℕ}
    (h : flowList.foldlM (slideStep ops 5) (windowList, indexList, offset) =
      .ok (windowList', indexList', offset')) :
    ∃ views : List (Tensor α), windowList' = windowList ++ views ∧
      (∀ v ∈ views, v.trailing = [544]) ∧ views.map Tensor.rows = flowList.map (windows ops) ∧
      indexList' = indexList ++ ranges offset (flowList.map fun flow => flow.count / 5) := by
  -- the accumulators only grow, so the induction is on the flows for arbitrary accumulators
  induction flowList generalizing windowList indexList offset with
  | nil =>
      cases h
      exact ⟨[], by simp, nofun, rfl, by simp [ranges]⟩
  | cons flow flows ih =>
      rw [List.foldlM_cons] at h
      obtain ⟨acc, hstep, hrest⟩ := Except.bind_eq_ok_iff.mp h
      obtain ⟨flowTensor, hflow, hstep⟩ := Except.bind_eq_ok_iff.mp hstep
      obtain ⟨viewd, hview, hstep⟩ := Except.bind_eq_ok_iff.mp hstep
      obtain ⟨htrail, hrows⟩ := viewWindows_flowToTensor hflow (orThrow_eq_ok.mp hview)
      cases hstep
      obtain ⟨views, hws, htrails, hviews, his⟩ := ih hrest
      have hsize : viewd.rows.length = flow.count / 5 := by rw [hrows, length_windows]
      refine ⟨viewd :: views, ?_, ?_, ?_, ?_⟩
      · rw [hws, List.append_assoc]
        rfl
      · intro v hv
        rcases List.mem_cons.mp hv with rfl | hv
        · exact htrail
        · exact htrails v hv
      · rw [List.map_cons, List.map_cons, hrows, hviews]
      · rw [his, hsize, List.map_cons, ranges, List.append_assoc]
        rfl

/-- The loop has converted every flow. -/
theorem flowToTensor_of_foldlM {ops : TorchOps α} (flowList : List HdFlow)
    {acc acc' : List (Tensor α) × List (ℕ × ℕ) × ℕ}
    (h : flowList.foldlM (slideStep ops 5) acc = .ok acc') :
    ∀ flow ∈ flowList, ∃ flowTensor, flowToTensor ops flow 5 = .ok flowTensor := by
  induction flowList generalizing acc with
  | nil => exact nofun
  | cons flow flows ih =>
      rw [List.foldlM_cons] at h
      obtain ⟨mid, hstep, hrest⟩ := Except.bind_eq_ok_iff.mp h
      obtain ⟨flowTensor, hflow, -⟩ := Except.bind_eq_ok_iff.mp hstep
      intro flow' hflow'
      rcases List.mem_cons.mp hflow' with rfl | hmem
      · exact ⟨flowTensor, hflow⟩
      · exact ih hrest flow' hmem

/-- The matrix that `BuildSlideWindow` normalises has the windows of the flows one after the other,
and the pairs are the ranges of rows of each flow. -/
theorem exists_inputWindow {ops : TorchOps α} {flowList : List HdFlow} {data : Tensor α}
    {index : List (ℕ × ℕ)} (h : buildSlideWindow ops flowList 5 = .ok (data, index)) :
    ∃ inputWindow, data = zScoreNorm ops inputWindow ∧ inputWindow.trailing = [544] ∧
      inputWindow.rows = flowList.flatMap (windows ops) ∧
      index = ranges 0 (flowList.map fun flow => flow.count / 5) ∧
      ∀ flow ∈ flowList, ∃ flowTensor, flowToTensor ops flow 5 = .ok flowTensor := by
  obtain ⟨⟨windowList, indexList, offset⟩, hloop, h⟩ := Except.bind_eq_ok_iff.mp h
  obtain ⟨inputWindow, hconcat, h⟩ := Except.bind_eq_ok_iff.mp h
  obtain ⟨indexTensor, hstack, h⟩ := Except.bind_eq_ok_iff.mp h
  cases h
  have hflows := flowToTensor_of_foldlM flowList hloop
  obtain ⟨views, hws, htrails, hviews, his⟩ := foldlM_slideStep_eq_ok flowList hloop
  rw [List.nil_append] at hws his
  obtain ⟨hrows, htrail⟩ := concat_eq_some (orThrow_eq_ok.mp hconcat)
  obtain ⟨-, rfl⟩ := stackPairs_eq_some.mp (orThrow_eq_ok.mp hstack)
  refine ⟨inputWindow, rfl, ?_, ?_, his, hflows⟩
  · -- the parts have 544 columns, and there is at least one
    cases views with
    | nil =>
        rw [hws] at hconcat
        cases hconcat
    | cons v vs => rw [← htrail v (hws ▸ List.mem_cons_self), htrails v List.mem_cons_self]
  · rw [hrows, hws, List.flatMap_def, hviews, ← List.flatMap_def]

/-- `BuildSlideWindow` stacks the normalised windows of the flows and gives the range of rows of
each flow. -/
theorem buildSlideWindow_eq_ok {ops : TorchOps α} {flowList : List HdFlow} {data : Tensor α}
    {index : List (ℕ × ℕ)} (h : buildSlideWindow ops flowList 5 = .ok (data, index)) :
    data.trailing = [544] ∧ data.rows = (flowList.flatMap (windows ops)).map ops.zScore ∧
      index = ranges 0 (flowList.map fun flow => flow.count / 5) := by
  obtain ⟨inputWindow, rfl, htrail, hrows, hindex, -⟩ := exists_inputWindow h
  exact ⟨htrail, congrArg (List.map ops.zScore) hrows, hindex⟩

end Hound
