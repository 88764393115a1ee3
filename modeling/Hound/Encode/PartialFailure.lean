import Hound.Encode.EncodeFlow

/-!
# Batches in which some slices fail

`encode_flow_concurrently` puts the tensors of its slices together with `torch::concat`. A slice
that was encoded is a matrix with one row of 128 numbers per flow; for a slice that threw,
`encode_flow_tensors` returns `torch::rand({count, 1, 128})`, which has a dimension more.

* `sliceTensor_shape` : the shape of a slice's tensor says whether the slice was encoded.
* `combines_iff` : the tensors can be put together iff all slices were encoded or none was.
-/

namespace Hound

open Tensor

variable {α : Type}

/-! ### Shapes -/

/-- `MergeFlow` makes a matrix with one row of 128 numbers per range. -/
theorem mergeFlow_shape {ops : TorchOps α} {encodedFlows t : Tensor α} {indexArr : List (ℕ × ℕ)}
    (h : mergeFlow ops encodedFlows indexArr = .ok t) :
    t.trailing = [128] ∧ t.rows.length = indexArr.length := by
  obtain ⟨tempTensors, hmerge, ht⟩ := Except.bind_eq_ok_iff.mp h
  have hlen := congrArg List.length (List.mapM_eq_ok_iff.mp hmerge)
  rw [List.length_map, List.length_map] at hlen
  cases ht
  refine ⟨rfl, ?_⟩
  rw [hlen]
  exact List.length_map _

/-- Flows that are encoded become rows of a matrix, whatever the model does. -/
theorem encodeTry_shape {ops : TorchOps α} {forward : Forward α} {fault : Option Stage}
    {flows : List HdFlow} {t : Tensor α} (h : encodeTry ops forward fault flows = .ok t) :
    t.trailing = [128] ∧ t.rows.length = flows.length := by
  obtain ⟨-, -, h⟩ := Except.bind_eq_ok_iff.mp h
  obtain ⟨⟨sldWind, flowIdxArr⟩, hbuild, h⟩ := Except.bind_eq_ok_iff.mp h
  obtain ⟨-, -, h⟩ := Except.bind_eq_ok_iff.mp h
  obtain ⟨encoded, -, h⟩ := Except.bind_eq_ok_iff.mp h
  obtain ⟨-, -, h⟩ := Except.bind_eq_ok_iff.mp h
  obtain ⟨-, -, hindex⟩ := buildSlideWindow_eq_ok hbuild
  obtain ⟨htrail, hrows⟩ := mergeFlow_shape h
  refine ⟨htrail, ?_⟩
  rw [hrows, hindex, length_ranges, List.length_map]

section Run

variable (ops : TorchOps α) (forward : Forward α) (run : EncodeRun α) (maxEncodeBatch : ℕ)
  (flows : List HdFlow)

/-- The `try` block of slice `i` does not throw. -/
def Encoded (i : ℕ) : Prop :=
  ∃ t, encodeTry ops forward (run.fault i) (slice maxEncodeBatch flows i) = .ok t

/-- The `try` block of slice `i` throws. -/
def Throws (i : ℕ) : Prop :=
  encodeTry ops forward (run.fault i) (slice maxEncodeBatch flows i) = .error .exception

/-- The number of slices. -/
def slices : ℕ := batchCount maxEncodeBatch flows.length

/-- What `encode_flow_tensors` returns for slice `i`. -/
def sliceTensor (i : ℕ) : Tensor α :=
  match encodeTry ops forward (run.fault i) (slice maxEncodeBatch flows i) with
  | .ok encodings => encodings
  | .error _ => randTensor (run.rand i) (slice maxEncodeBatch flows i).length

/-- All tensors that `encode_flow_concurrently` passes to `concat` have the same dimensions behind
the first, so that `concat` is defined, and the first dimension of the result is the number of
flows. -/
def Combines : Prop :=
  ∃ ts t, (List.range (slices maxEncodeBatch flows)).map (fun i => encodeFlowTensors ops forward
      (run.fault i) (run.rand i) (slice maxEncodeBatch flows i)) = ts.map .ok ∧
    (∀ u ∈ ts, ∀ v ∈ ts, u.trailing = v.trailing) ∧ Tensor.concat ts = some t ∧
    encodeFlowConcurrently ops forward run maxEncodeBatch flows = .ok t ∧
    t.rows.length = flows.length

variable {ops forward run maxEncodeBatch flows}

theorem encodeFlowTensors_eq_sliceTensor {i : ℕ}
    (h : Encoded ops forward run maxEncodeBatch flows i ∨
      Throws ops forward run maxEncodeBatch flows i) :
    encodeFlowTensors ops forward (run.fault i) (run.rand i) (slice maxEncodeBatch flows i) =
      .ok (sliceTensor ops forward run maxEncodeBatch flows i) := by
  rw [encodeFlowTensors, sliceTensor]
  rcases h with ⟨t, ht⟩ | hthrows
  · rw [ht]
  · rw [Throws] at hthrows
    rw [hthrows]

/-- An encoded slice has one dimension, a failed one two, behind the first. -/
theorem trailing_sliceTensor {i : ℕ} :
    (Encoded ops forward run maxEncodeBatch flows i →
      (sliceTensor ops forward run maxEncodeBatch flows i).trailing = [128]) ∧
    (Throws ops forward run maxEncodeBatch flows i →
      (sliceTensor ops forward run maxEncodeBatch flows i).trailing = [1, 128]) := by
  refine ⟨fun ⟨t, ht⟩ => ?_, fun hthrows => ?_⟩
  · rw [sliceTensor, ht]
    exact (encodeTry_shape ht).1
  · rw [Throws] at hthrows
    rw [sliceTensor, hthrows]
    rfl

/-- Either way there is one row per flow of the slice. -/
theorem length_sliceTensor {i : ℕ}
    (h : Encoded ops forward run maxEncodeBatch flows i ∨
      Throws ops forward run maxEncodeBatch flows i) :
    (sliceTensor ops forward run maxEncodeBatch flows i).rows.length =
      (slice maxEncodeBatch flows i).length := by
  rw [sliceTensor]
  rcases h with ⟨t, ht⟩ | hthrows
  · rw [ht]
    exact (encodeTry_shape ht).2
  · rw [Throws] at hthrows
    rw [hthrows]
    simp [randTensor]

section Pattern

variable (hpattern : ∀ i < slices maxEncodeBatch flows,
  Encoded ops forward run maxEncodeBatch flows i ∨ Throws ops forward run maxEncodeBatch flows i)

include hpattern

/-- What is passed to `concat`. -/
theorem map_encodeFlowTensors_eq :
    (List.range (slices maxEncodeBatch flows)).map (fun i => encodeFlowTensors ops forward
      (run.fault i) (run.rand i) (slice maxEncodeBatch flows i)) =
    ((List.range (slices maxEncodeBatch flows)).map
      (sliceTensor ops forward run maxEncodeBatch flows)).map .ok := by
  rw [List.map_map]
  refine List.map_congr_left fun i hi => ?_
  exact encodeFlowTensors_eq_sliceTensor (hpattern i (List.mem_range.mp hi))

/-- Tensors of one shape are put together, with one row per flow. -/
theorem combines_of_trailing (hmax : 1 ≤ maxEncodeBatch)
    (hsize : maxEncodeBatch ≤ flows.length) (horder : Finishes run maxEncodeBatch flows)
    {dims : List ℕ} (hdims : ∀ i < slices maxEncodeBatch flows,
      (sliceTensor ops forward run maxEncodeBatch flows i).trailing = dims) :
    Combines ops forward run maxEncodeBatch flows := by
  set ts := (List.range (slices maxEncodeBatch flows)).map
    (sliceTensor ops forward run maxEncodeBatch flows) with hts
  have htrail : ∀ u ∈ ts, u.trailing = dims := by
    intro u hu
    obtain ⟨i, hi, rfl⟩ := List.mem_map.mp hu
    exact hdims i (List.mem_range.mp hi)
  have hne : ts ≠ [] := by
    have hpos : 0 < slices maxEncodeBatch flows := Nat.div_pos (by omega) (by omega)
    rw [← List.length_pos_iff, hts, List.length_map, List.length_range]
    exact hpos
  have hresults := map_encodeFlowTensors_eq hpattern
  obtain ⟨t, hconcat, -⟩ := exists_concat hne htrail
  refine ⟨ts, t, hresults, fun u hu v hv => by rw [htrail u hu, htrail v hv], hconcat,
    (encodeFlowConcurrently_eq_ok_iff horder).mpr ⟨ts, hresults, hconcat⟩, ?_⟩
  -- the slices make up the flows
  have hflows : ((List.range (slices maxEncodeBatch flows)).map
      (slice maxEncodeBatch flows)).flatten = flows := flatten_extract_range hmax
  rw [length_concat_map hconcat (slice maxEncodeBatch flows) fun i hi =>
    length_sliceTensor (hpattern i hi), hflows]

/-- Tensors of which some were encoded and some were not differ in shape. -/
theorem not_mixed_of_combines (h : Combines ops forward run maxEncodeBatch flows) {i j : ℕ}
    (hi : i < slices maxEncodeBatch flows) (hj : j < slices maxEncodeBatch flows)
    (hencoded : Encoded ops forward run maxEncodeBatch flows i)
    (hthrows : Throws ops forward run maxEncodeBatch flows j) : False := by
  obtain ⟨ts, t, hresults, hsame, -⟩ := h
  rw [map_encodeFlowTensors_eq hpattern] at hresults
  have hts : (List.range (slices maxEncodeBatch flows)).map
      (sliceTensor ops forward run maxEncodeBatch flows) = ts :=
    List.map_injective_iff.mpr (fun _ _ => Except.ok.inj) hresults
  -- `[128]` would have to be `[1, 128]`
  have hshape := hsame _ (hts ▸ List.mem_map_of_mem (List.mem_range.mpr hi)) _
    (hts ▸ List.mem_map_of_mem (List.mem_range.mpr hj))
  rw [trailing_sliceTensor.1 hencoded, trailing_sliceTensor.2 hthrows] at hshape
  exact absurd hshape (by decide)

end Pattern

/-- However the slices of a batch fail or succeed, their tensors can be put together exactly when
all of them are encoded or all of them throw. -/
theorem combines_iff (hmax : 1 ≤ maxEncodeBatch) (hsize : maxEncodeBatch ≤ flows.length)
    (horder : Finishes run maxEncodeBatch flows)
    (hpattern : ∀ i < slices maxEncodeBatch flows,
      Encoded ops forward run maxEncodeBatch flows i ∨
        Throws ops forward run maxEncodeBatch flows i) :
    Combines ops forward run maxEncodeBatch flows ↔
      (∀ i < slices maxEncodeBatch flows, Encoded ops forward run maxEncodeBatch flows i) ∨
        ∀ i < slices maxEncodeBatch flows, Throws ops forward run maxEncodeBatch flows i := by
  constructor
  · intro hcombines
    -- one encoded slice excludes every failed one
    by_cases hsome : ∃ i < slices maxEncodeBatch flows,
        Encoded ops forward run maxEncodeBatch flows i
    · obtain ⟨i, hi, hencoded⟩ := hsome
      refine Or.inl fun j hj => (hpattern j hj).resolve_right fun hthrows => ?_
      exact not_mixed_of_combines hpattern hcombines hi hj hencoded hthrows
    · refine Or.inr fun j hj => (hpattern j hj).resolve_left fun hencoded => ?_
      exact hsome ⟨j, hj, hencoded⟩
  · rintro (hall | hall)
    · exact combines_of_trailing hpattern hmax hsize horder fun i hi =>
        trailing_sliceTensor.1 (hall i hi)
    · exact combines_of_trailing hpattern hmax hsize horder fun i hi =>
        trailing_sliceTensor.2 (hall i hi)

end Run

/-! ### Two slices of one flow -/

/-- Two flows, of which the second one's encoding is to fail as told. -/
def twoThreads (fault : Option Stage) : EncodeRun ℕ where
  fault i := if i = 0 then none else fault
  rand _ _ := List.Vector.replicate 128 0
  order := [1, 0]

theorem finishes_twoThreads (fault : Option Stage) :
    Finishes (twoThreads fault) 1 [fivePackets, fivePackets] :=
  List.Perm.swap 0 1 []

theorem encoded_fivePackets {run : EncodeRun ℕ} {i : ℕ} (hfault : run.fault i = none)
    (hslice : slice 1 [fivePackets, fivePackets] i = [fivePackets]) :
    Encoded natOps headForward run 1 [fivePackets, fivePackets] i := by
  rw [Encoded, hfault, hslice]
  exact exists_encodeTry_fivePackets

/-- Two encoded slices are put together. -/
theorem combines_twoThreads :
    Combines natOps headForward (twoThreads none) 1 [fivePackets, fivePackets] := by
  have hall : ∀ i < slices 1 [fivePackets, fivePackets],
      Encoded natOps headForward (twoThreads none) 1 [fivePackets, fivePackets] i := by
    intro i hi
    have htwo : slices 1 [fivePackets, fivePackets] = 2 := rfl
    have hi' : i = 0 ∨ i = 1 := by omega
    rcases hi' with rfl | rfl
    · exact encoded_fivePackets rfl rfl
    · exact encoded_fivePackets rfl rfl
  exact (combines_iff (Nat.le_refl 1) (by decide) (finishes_twoThreads none)
    fun i hi => Or.inl (hall i hi)).mpr (Or.inl hall)

/-- If the second of two slices throws, `concat` throws as well. -/
theorem not_combines_twoThreads :
    ¬∀ (run : EncodeRun ℕ) (maxEncodeBatch : ℕ) (flows : List HdFlow), 1 ≤ maxEncodeBatch →
      maxEncodeBatch ≤ flows.length → Finishes run maxEncodeBatch flows →
      (∀ i < slices maxEncodeBatch flows, Encoded natOps headForward run maxEncodeBatch flows i ∨
        Throws natOps headForward run maxEncodeBatch flows i) →
      Combines natOps headForward run maxEncodeBatch flows := by
  intro h
  set run := twoThreads (some .buildSlideWindow) with hrun
  have hencoded : Encoded natOps headForward run 1 [fivePackets, fivePackets] 0 :=
    encoded_fivePackets rfl rfl
  have hthrows : Throws natOps headForward run 1 [fivePackets, fivePackets] 1 := rfl
  have hpattern : ∀ i < slices 1 [fivePackets, fivePackets],
      Encoded natOps headForward run 1 [fivePackets, fivePackets] i ∨
        Throws natOps headForward run 1 [fivePackets, fivePackets] i := by
    intro i hi
    have htwo : slices 1 [fivePackets, fivePackets] = 2 := rfl
    have hi' : i = 0 ∨ i = 1 := by omega
    rcases hi' with rfl | rfl
    · exact Or.inl hencoded
    · exact Or.inr hthrows
  have hcombines := h run 1 [fivePackets, fivePackets] (Nat.le_refl 1) (by decide)
    (finishes_twoThreads _) hpattern
  exact not_mixed_of_combines hpattern hcombines (by decide) (by decide) hencoded hthrows

end Hound
